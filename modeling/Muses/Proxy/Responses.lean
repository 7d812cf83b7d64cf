import Muses.Proxy.Hygiene
import Muses.Proxy.Coroutine

/-!
# Where the proxy ends a response

What the proxy writes to the client is to be the response that the upstream sent, from its first to
its last byte: for a response with a length the head and that many bytes, for a chunked one the
head and the chunks up to the empty line behind the last.

The proxy takes all that came with the head for the body, a body that is cut short for a whole
one, and the first `"0\r\n\r\n"` for the end of the chunks; and it asks for more chunks in pieces of
4096 bytes. So a response with a length is passed on exactly if no `read` crosses its end and the
upstream does not end it early (`ReadsSized`), and a chunked one if the end of the first line comes
together with the end of the body (`BringsLastChunk`).
-/

namespace Muses.Proxy

open Muses.Core Text Search HttpContext Http List
open World (ReadResult)

/-! ## The answer is what was read -/

section Collected

variable {cfg : Config} {s s' : State} {id : ConnId} {f f' : Frame} {io : Io} {fd : Fd} {c : ConnId}

theorem runFrame_read {r : ReadResult} (hrun : s.runFrame cfg id f io = some s')
    (hcall : io.call = .read r) (hup : f.pc.upFd = some fd) :
    f.pc.source f.client = some fd ∧ ∃ s₁, s.sysRead fd f.pc.limit r = some s₁ := by
  cases hpc : f.pc with
  | readUpHead x a g buf | readUp x a g resp part buf =>
    obtain rfl : g = fd := by simpa [hpc, Pc.upFd] using hup
    simp only [State.runFrame, hpc, hcall] at hrun
    obtain ⟨s₁, hread, -⟩ := Option.map_eq_some_iff.mp hrun
    exact ⟨rfl, s₁, hread⟩
  | connecting | forwarding =>
    simp only [State.runFrame, hpc, hcall] at hrun
    cases hrun
  | _ =>
    rw [hpc] at hup
    cases hup

/-- **The answer to a client is what was read from the upstream**, a first piece of what has come
from there since the request went out. -/
theorem response_collected {x : Exchange} {resp : Bytes} (hreading : Reading s.view)
    (hungry : AllHungry s) (hid : s.frames id = some f) (hup : f.pc.upFd = some fd)
    (hfd : s.fds fd = some c) (hrun : s.runFrame cfg id f io = some s')
    (hid' : s'.frames id = some f') (hpc' : f'.pc = .answering x resp 0) :
    resp <+: (s.conns c).got ++ (s.conns c).rx := by
  obtain ⟨-, g, hg, -, hnext⟩ := (runFrame_leads (hungry id f hid) hrun).frames
  obtain rfl : g = f' := Option.some.inj (hg.symm.trans hid')
  rw [hpc'] at hnext
  rcases hnext with (⟨off, hpc⟩ | ⟨r, hcall, hresp⟩) | ⟨hfin, -⟩
  · rw [hpc] at hup
    cases hup
  · obtain ⟨hsrc, s₁, hread⟩ := runFrame_read hrun hcall hup
    have hgot : (s.conns c).got = f.pc.taken :=
      hreading.taken id ⟨f.client, f.pc, f.index⟩ fd c (tasks_view hid) hup hfd
    rw [hresp, Pc.taken_push _ hsrc hup, ← hgot, prefix_append_right_inj]
    rcases sysRead_spec hread with ⟨bs, d, rfl, hd, -, -, hrx, -⟩ | ⟨hnil, -⟩
    · obtain rfl : c = d := Option.some.inj (hfd.symm.trans hd)
      exact hrx
    · rw [hnil]
      exact nil_prefix
  · cases hfin

theorem head_begins {h : Head} {stream text : Bytes} (hhead : h.text <+: stream)
    (htext : text <+: stream) (hfound : (find blankLine text).isSome) : h.text <+: text := by
  obtain ⟨pos, hpos⟩ := Option.isSome_iff_exists.mp hfound
  have htake : text.take (pos + blankLine.length) = h.text :=
    (isFrame_take hpos).unique h.text_isFrame ((List.take_prefix _ _).trans htext) hhead
  exact htake ▸ take_prefix _ _

end Collected

/-! ## Responses with a length -/

/-- No more bytes than a complete head announces. -/
def Within (text : Bytes) : Prop :=
  ∀ (h : Head) (n : Nat), h.Lacks transferEncoding → h.Sizes n → h.text <+: text →
    text.length ≤ h.text.length + n

def Task.Keeps (t : Task) (bs : Bytes) : Prop :=
  match t.pc with
  | .readUpHead _ _ _ buf => Within (buf ++ bs)
  | _ => True

def Task.inSized (t : Task) : Bool :=
  match t.pc with
  | .readUp _ _ _ _ (.sized _ _) _ => true
  | _ => false

/-- No `read` for the head of a response returns bytes from behind the end of the response, and
none for a body with a length meets the end of the stream or fails. -/
def ReadsSized (s : State) : Act → Prop
  | .run ⟨.read (.data bs), _, _⟩ => ∀ id ∈ s.active, ∀ t ∈ s.view.tasks id, t.Keeps bs
  | .run ⟨.read .eof, _, _⟩ => ∀ id ∈ s.active, ∀ t ∈ s.view.tasks id, t.inSized = false
  | .run ⟨.read .error, _, _⟩ => ∀ id ∈ s.active, ∀ t ∈ s.view.tasks id, t.inSized = false
  | _ => True

def sizedAssume : Assume where
  read v id bs := ∀ t ∈ v.tasks id, t.Keeps bs
  eof v id := ∀ t ∈ v.tasks id, t.inSized = false
  error v id := ∀ t ∈ v.tasks id, t.inSized = false

variable {s : State} {a : Act} {v : View} {id : ConnId} {fd : Fd} {t : Task} {cfg : Config}
  {body : Bytes} {h : Head} {pc : Pc}

theorem sizedAssume_allows (h : ReadsSized s a) : sizedAssume.Allows s a := by
  unfold Assume.Allows
  split
  · trivial
  · trivial
  · exact fun id hactive => h id hactive
  · exact fun id hactive => h id hactive
  · exact fun id hactive => h id hactive
  · trivial

/-- A response that is passed on is as long as announced. -/
def Pc.Measured : Pc → Prop
  | .readUpHead _ _ _ buf => Within buf
  | .answering _ resp _ => (find blankLine resp).isSome ∧ ∀ (h : Head) (n : Nat),
      h.Lacks transferEncoding → h.Sizes n → h.text <+: resp →
        resp.length = h.text.length + n
  | _ => True

theorem within_nil : Within [] := fun _ _ _ _ _ => Nat.zero_le _

structure Measured (v : View) : Prop where
  reading : Reading v
  measured : ∀ id t, v.tasks id = some t → t.pc.Measured

theorem Measured.complete (h : Measured v) (hid : v.tasks id = some t) (hup : t.pc.upFd = some fd)
    (hcomplete : Complete sizedAssume v id t.pc) (x : Exchange) :
    (Pc.answering x t.pc.taken 0).Measured := by
  have hsound := h.reading.sound id t hid
  refine ⟨hcomplete.has_head hsound, fun hd n hlacks hsizes hpre => ?_⟩
  obtain ⟨tail, htail⟩ := hpre
  have hgot : t.pc.taken <+: hd.text ++ tail := by rw [htail]
  obtain ⟨body, htext, hcase⟩ := hcomplete.sized_response hsound hup hgot hlacks hsizes
  rw [htext, length_append, Nat.add_left_cancel_iff]
  rcases hcase with hlen | ⟨hlong, y, a, hpc⟩ | ⟨-, hend, y, a, b, hpc⟩
  · exact hlen
  · -- too much behind the head
    have hwithin := h.measured id t hid
    rw [hpc] at hwithin
    have hle := hwithin hd n hlacks hsizes (prefix_append _ _)
    rw [length_append] at hle
    omega
  · -- too little
    have hin : t.inSized = false := by
      rcases hend with ⟨-, heof⟩ | herror
      · exact heof t hid
      · exact herror t hid
    simp [Task.inSized, hpc] at hin

theorem Measured.move {v' : View} (h : Measured v) (hmove : Move cfg sizedAssume v v') :
    Measured v' := by
  refine ⟨h.reading.move hmove, fun id t' ht' => ?_⟩
  rcases hmove.goes ht' with hpc | ⟨t, hid, hgoes⟩
  · rw [hpc]
    trivial
  have hold := h.measured id t hid
  generalize t'.pc = pc at hgoes
  cases hgoes with
  | stay => exact hold
  | turn hturn =>
    cases hturn with
    | written hpc hoff => exact within_nil
    | answer off' hpc =>
      rw [hpc] at hold
      exact hold
    | _ => trivial
  | @read fd bs hsrc hlimit hA =>
    have hkeeps := hA t hid
    cases hpc : t.pc with
    | readUpHead x a g buf =>
      simp only [Task.Keeps, hpc] at hkeeps
      exact hkeeps
    | answering x resp off =>
      rw [hpc] at hold
      exact hold
    | _ => trivial
  | complete hup hcomplete => exact h.complete hid hup hcomplete _
  | start hpc hanswer =>
    cases pc with
    | readUpHead => simp [Pc.source] at hpc
    | answering => cases hanswer
    | _ => trivial

theorem run_measured {acts : List Act} (hmeets : Meets (step cfg) ReadsSized .init acts)
    (hrun : exec (step cfg) .init acts = some s) : Measured s.view :=
  run_invariant ⟨.init, fun _ _ h => by cases h⟩ (fun _ _ h hmove => h.move hmove)
    (hmeets.mono fun _ _ => sizedAssume_allows) hrun

def hiResponse : Response where
  head := okHead [sizeTwo]
  body := ascii "hi"
  delimited := .inl ⟨by decide,
    ⟨_, ⟨[], [], rfl, rfl, by simp⟩,
      ascii " ", ascii "2", [], rfl, all_iff_forall_prop.mp rfl,
      all_iff_forall_prop.mp rfl, by decide, by simp, rfl⟩, by decide⟩

def responding (bs : Bytes) : List Act :=
  acceptClient ++
    [.arrive 4 getRequest.text, .reads getRequest.text, .connects 5,
      .writes (forwardText getRequest).length, .arrive 5 bs]

def getExchange : Exchange :=
  ⟨parseRequest getRequest.text, ⟨ascii "/", ascii "up", 80⟩, forwardText getRequest⟩

def almostRead : List Act :=
  responding hiResponse.text ++ [.reads hiResponse.text.dropLast]

def surplusByte : List Act :=
  responding (okResponse.text ++ ascii "X") ++ [.reads (okResponse.text ++ ascii "X")]

def cutShort : List Act :=
  responding hiResponse.text.dropLast ++
    [.reads hiResponse.text.dropLast, .hangup 5, .run { call := .read .eof },
      .writes hiResponse.text.dropLast.length]

/-- **A response with a length is passed on exactly.** In every run that meets `ReadsSized`, when a
coroutine takes the response of its upstream for complete and starts to answer its client, and the
bytes that have come from the upstream start with a head of length `n`, then at least `n` bytes have
come behind the head, and the answer is the head and the first `n` of them. -/
theorem sized_response_exact {cfg : Config} {acts : List Act} {io : Io} {s s' : State}
    {id c : ConnId} {f f' : Frame} {fd : Fd} {x : Exchange} {resp : Bytes} {h : Head} {n : Nat}
    (hmeets : Meets (step cfg) ReadsSized .init (acts ++ [.run io]))
    (hrun : exec (step cfg) .init acts = some s) (hstep : step cfg s (.run io) = some s')
    (hactive : s.active = some id) (hid : s.frames id = some f) (hup : f.pc.upFd = some fd)
    (hfd : s.fds fd = some c) (hid' : s'.frames id = some f')
    (hpc' : f'.pc = .answering x resp 0) (hlacks : h.Lacks transferEncoding) (hsizes : h.Sizes n)
    (hhead : h.text <+: (s.conns c).got ++ (s.conns c).rx) :
    ∃ tail, (s.conns c).got ++ (s.conns c).rx = h.text ++ tail ∧ n ≤ tail.length ∧
      resp = h.text ++ tail.take n := by
  have hrun' := exec_concat hrun hstep
  have hframe : s.runFrame cfg id f io = some s' := by
    simpa [step, hactive, hid] using hstep
  have hmeasured := (run_measured hmeets hrun').measured id _ (tasks_view hid')
  have hreading := (run_measured ((meets_append hrun).mp hmeets).1 hrun).reading
  have hcollected :=
    response_collected hreading (run_hungry hrun) hid hup hfd hframe hid' hpc'
  rw [hpc'] at hmeasured
  obtain ⟨hfound, hexact⟩ := hmeasured
  have hlen := hexact h n hlacks hsizes (head_begins hhead hcollected hfound)
  obtain ⟨tail, htail⟩ := hhead
  obtain ⟨rest, hrest⟩ := head_begins ⟨tail, htail⟩ hcollected hfound
  -- the answer is the head and `rest`, and `rest` is the start of what has come behind the head
  have hpre : rest <+: tail := by
    rw [← hrest, ← htail, prefix_append_right_inj] at hcollected
    exact hcollected
  have hn : rest.length = n := by
    rw [← hrest, length_append] at hlen
    omega
  refine ⟨tail, htail.symm, hn ▸ hpre.length_le, ?_⟩
  rw [← hrest, ← hn, ← prefix_iff_eq_take.mp hpre]

def staysWithin (text : Bytes) : Bool :=
  match find blankLine text with
  | some pos => text.length ≤ pos + 4 + announced text
  | none => true

theorem within_of_staysWithin {text : Bytes} (h : staysWithin text = true) : Within text := by
  intro hd n hlacks hsizes hpre
  obtain ⟨tail, rfl⟩ := hpre
  obtain ⟨pos, hpos, hlen⟩ := hd.text_isFrame
  have hfour : blankLine.length = 4 := rfl
  simp only [staysWithin, find_append tail hpos, (isSized_of_sizes hlacks hsizes tail).2,
    decide_eq_true_eq] at h
  omega

def keepsAnnounced (s : State) : Act → Bool
  | .run ⟨.read (.data bs), _, _⟩ =>
      decide (∀ id ∈ s.active, ∀ t ∈ s.view.tasks id, staysWithin (t.pc.push bs).taken = true)
  | .run ⟨.read .eof, _, _⟩ => false
  | .run ⟨.read .error, _, _⟩ => false
  | _ => true

theorem readsSized_of_keepsAnnounced (h : keepsAnnounced s a = true) : ReadsSized s a := by
  unfold ReadsSized
  split
  · intro id hactive t ht
    have hstays := within_of_staysWithin (of_decide_eq_true h id hactive t ht)
    unfold Task.Keeps
    split
    · next hpc =>
      rw [hpc] at hstays
      exact hstays
    · trivial
  · exact absurd h Bool.false_ne_true
  · exact absurd h Bool.false_ne_true
  · trivial

theorem sized_response_exact_almostRead :
    ∃ s ∈ exec (step .sample) .init almostRead, ∃ s' ∈ step .sample s (.reads (ascii "i")),
      ∃ f' ∈ s'.frames 0, f'.pc = .answering getExchange hiResponse.text 0 ∧
        ∃ tail, (s.conns 1).got ++ (s.conns 1).rx = hiResponse.head.text ++ tail ∧
          2 ≤ tail.length ∧ hiResponse.text = hiResponse.head.text ++ tail.take 2 := by
  obtain ⟨s, hrun, s', hstep, f, hid, f', hid', hactive, hup, hfd, hpc', hhead⟩ :
      ∃ s ∈ exec (step .sample) .init almostRead, ∃ s' ∈ step .sample s (.reads (ascii "i")),
        ∃ f ∈ s.frames 0, ∃ f' ∈ s'.frames 0, s.active = some 0 ∧ f.pc.upFd = some 5 ∧
          s.fds 5 = some 1 ∧ f'.pc = .answering getExchange hiResponse.text 0 ∧
          hiResponse.head.text <+: (s.conns 1).got ++ (s.conns 1).rx := by decide +kernel
  have hmeets : Meets (step .sample) (fun s a => keepsAnnounced s a = true) .init
      (almostRead ++ [.reads (ascii "i")]) := by decide +kernel
  have hlacks : hiResponse.head.Lacks transferEncoding := by decide
  exact ⟨s, hrun, s', hstep, f', hid', hpc',
    sized_response_exact (hmeets.mono fun _ _ => readsSized_of_keepsAnnounced) hrun hstep hactive
      hid hup hfd hid' hpc' hlacks (hiResponse.sizes_of_lacks hlacks) hhead⟩

/-- A byte behind the end of the response is passed on with it; and a response that lacks its last
byte is passed on as it is, after which the client's next request is awaited. -/
theorem surplus_and_short_bodies_pass :
    okResponse.head.Lacks transferEncoding ∧ okResponse.head.Sizes 0 ∧
    (∃ s ∈ exec (step .sample) .init surplusByte, ∃ f ∈ s.frames 0,
      f.pc = .answering getExchange (okResponse.text ++ ascii "X") 0) ∧
    hiResponse.head.Lacks transferEncoding ∧ hiResponse.head.Sizes 2 ∧
    ∃ s ∈ exec (step .sample) .init cutShort, ∃ f ∈ s.frames 0,
      f.pc = .readHead [] ∧ f.index = 1 := by
  refine ⟨by decide, okResponse.sizes_of_lacks (by decide), by decide +kernel, by decide,
    hiResponse.sizes_of_lacks (by decide), by decide +kernel⟩

/-! ## Chunked responses -/

/-- If the first size line is complete, the last chunk is there. -/
def Brings (text : Bytes) : Prop :=
  ∀ (h : Head) (tail : Bytes), NamesChunked h → text = h.text ++ tail →
    (find crlf tail).isSome → (find lastChunk tail).isSome

/-- Whenever a coroutine has read the end of the first line of a chunked body, it has read the last
chunk, too: the two come with one `read`. -/
def BringsLastChunk (s : State) : Act → Prop
  | .run ⟨.read (.data bs), _, _⟩ =>
      ∀ id ∈ s.active, ∀ t ∈ s.view.tasks id, Brings (t.pc.push bs).taken
  | _ => True

def chunkedAssume : Assume where
  read v id bs := ∀ t ∈ v.tasks id, Brings (t.pc.push bs).taken

theorem chunkedAssume_allows (h : BringsLastChunk s a) : chunkedAssume.Allows s a := by
  unfold Assume.Allows
  split
  · trivial
  · trivial
  · exact fun id hactive => h id hactive
  · exact fun _ _ => trivial
  · exact fun _ _ => trivial
  · trivial

def Part.isChunk : Part → Bool
  | .chunk _ => true
  | _ => false

/-- The coroutine never asks for more chunks, and answers a chunked response only with the last
chunk, or when it has become too long. -/
def Pc.Brought : Pc → Prop
  | .readUpHead _ _ _ buf => Brings buf
  | .readUp _ _ _ resp part buf => Brings (resp ++ (part.before ++ buf)) ∧
      ∀ h : Head, NamesChunked h → resp = h.text → part.isChunk = false
  | .answering _ resp _ => (find blankLine resp).isSome ∧ ∀ (h : Head) (tail : Bytes),
      NamesChunked h → resp = h.text ++ tail →
        (find lastChunk tail).isSome ∨ bodyCap < tail.length
  | _ => True

theorem brings_nil : Brings [] := by
  intro h tail _ htext
  obtain ⟨-, rfl⟩ := append_eq_nil_iff.mp htext.symm
  intro hline
  cases hline

structure Brought (v : View) : Prop where
  reading : Reading v
  brought : ∀ id t, v.tasks id = some t → t.pc.Brought

theorem Brought.complete (h : Brought v) (hid : v.tasks id = some t) (hup : t.pc.upFd = some fd)
    (hcomplete : Complete chunkedAssume v id t.pc) (x : Exchange) :
    (Pc.answering x t.pc.taken 0).Brought := by
  have hsound := h.reading.sound id t hid
  refine ⟨hcomplete.has_head hsound, fun hd tail hnames htext => ?_⟩
  have hgot : t.pc.taken <+: hd.text ++ tail := by rw [htext]
  obtain ⟨body, hbody, hcase⟩ := hcomplete.chunked_response hsound hup hgot hnames.isChunked
  obtain rfl : body = tail := append_cancel_left (hbody.symm.trans htext)
  rcases hcase with hlast | hcap | ⟨-, y, a, hpc⟩
  · exact .inl hlast
  · exact .inr hcap
  · -- more chunks were asked for
    have hbrought := h.brought id t hid
    rw [hpc] at hbrought
    cases hbrought.2 hd hnames rfl

theorem Brings.not_chunk {resp : Bytes} (hbrings : Brings (resp ++ body))
    (hlast : find lastChunk body = none) (hline : (find crlf body).isSome)
    (hnames : NamesChunked h) (hresp : resp = h.text) : False := by
  have hfound := hbrings h body hnames (by rw [hresp]) hline
  rw [hlast] at hfound
  cases hfound

theorem Pc.Brought.push {bs : Bytes} (h : pc.Brought) (hbrings : Brings (pc.push bs).taken) :
    (pc.push bs).Brought := by
  cases pc with
  | readUpHead => exact hbrings
  | readUp => exact ⟨hbrings, h.2⟩
  | answering => exact h
  | _ => trivial

theorem Brought.turn (h : t.pc.Brought) (hturn : Turn chunkedAssume v id t pc) : pc.Brought := by
  cases hturn with
  | written => exact brings_nil
  | answer off' hpc =>
    rw [hpc] at h
    exact h
  | @plan x a fd head pos part hpc hpos hplan =>
    rw [hpc] at h
    have hbefore : part.before = head.drop (pos + 4) := by cases hplan <;> rfl
    have hbrings : Brings (head.take (pos + 4) ++ (part.before ++ [])) := by
      rwa [hbefore, append_nil, take_append_drop]
    refine ⟨hbrings, fun hd hnames hresp => ?_⟩
    cases hplan with
    | chunk hchunked hlast hline =>
      exact (hbrings.not_chunk (by simpa [Part.before] using hlast)
        (by simpa [Part.before] using hline) hnames hresp).elim
    | _ => rfl
  | @nextPart x a fd resp buf part part' hpc hnext =>
    rw [hpc] at h
    obtain ⟨hbrings, -⟩ := h
    have hbefore : part'.before = part.before ++ buf := by
      cases hnext with
      | chunkLine hpart | chunk hpart => rcases hpart with rfl | rfl <;> rfl
      | rest => rfl
    rw [← hbefore] at hbrings
    refine ⟨by rwa [append_nil], fun hd hnames hresp => ?_⟩
    cases hnext with
    | chunk hpart hlast hline => exact (hbrings.not_chunk hlast hline hnames hresp).elim
    | _ => rfl
  | _ => trivial

theorem Brought.move {v' : View} (h : Brought v) (hmove : Move cfg chunkedAssume v v') :
    Brought v' := by
  refine ⟨h.reading.move hmove, fun id t' ht' => ?_⟩
  rcases hmove.goes ht' with hpc | ⟨t, hid, hgoes⟩
  · rw [hpc]
    trivial
  have hold := h.brought id t hid
  generalize t'.pc = pc at hgoes
  cases hgoes with
  | stay => exact hold
  | turn hturn => exact Brought.turn hold hturn
  | read hsrc hlimit hA => exact hold.push (hA t hid)
  | complete hup hcomplete => exact h.complete hid hup hcomplete _
  | start hpc hanswer =>
    cases pc with
    | readUpHead | readUp => simp [Pc.source] at hpc
    | answering => cases hanswer
    | _ => trivial

theorem run_brought {acts : List Act} (hmeets : Meets (step cfg) BringsLastChunk .init acts)
    (hrun : exec (step cfg) .init acts = some s) : Brought s.view :=
  run_invariant ⟨.init, fun _ _ h => by cases h⟩ (fun _ _ h hmove => h.move hmove)
    (hmeets.mono fun _ _ => chunkedAssume_allows) hrun

theorem not_isFrame_of_find_crlf {cb buf : Bytes} (hcb : find crlf cb = none)
    (hbuf : find crlf buf = none) : ¬ IsFrame lastChunk (cb ++ buf) := by
  intro hframe
  rw [find_eq_none_iff (by decide)] at hcb hbuf
  obtain ⟨front, hfront⟩ := (isFrame_iff.mp hframe).1
  rcases append_eq_append_iff.mp hfront with ⟨inner, rfl, hinner⟩ | ⟨inner, rfl, rfl⟩
  · have htake : inner = lastChunk.take inner.length := by simp [hinner]
    have hdrop : buf = lastChunk.drop inner.length := by simp [hinner]
    have hle : inner.length ≤ 5 := by
      have hlen := congrArg List.length hinner
      rw [length_append, show lastChunk.length = 5 from rfl] at hlen
      omega
    rcases Nat.lt_or_ge inner.length 4 with hlt | hge
    · -- its last line end lies in the second piece
      apply hbuf (3 - inner.length)
      rw [hdrop, drop_drop, show inner.length + (3 - inner.length) = 3 by omega]
      decide
    · -- its first line end lies in the first piece
      apply hcb (front.length + 1)
      rw [drop_append, drop_eq_nil_of_le (by omega), htake,
        show front.length + 1 - front.length = 1 by omega]
      interval_cases inner.length <;> decide
  · -- all of it lies in the second piece
    apply hbuf (inner.length + 1)
    rw [drop_append, drop_eq_nil_of_le (by omega),
      show inner.length + 1 - inner.length = 1 by omega]
    decide

theorem Pc.Brought.taken_ne {client : Fd} (hplace : pc.Brought) (hsound : pc.Sound)
    (hungry : pc.Hungry) (hup : pc.upFd = some fd) (hsrc : pc.source client = some fd)
    (hnames : NamesChunked h) (hframe : IsFrame lastChunk body) : pc.taken ≠ h.text ++ body := by
  intro hall
  cases pc with
  | readUpHead x a g buf =>
    -- `read_until` would have found the empty line
    obtain ⟨pos, hpos, -⟩ := h.text_isFrame
    have hfound := find_append body hpos
    have hmiss : find blankLine (Pc.readUpHead x a g buf).taken = none := hungry
    rw [← hall, hmiss] at hfound
    cases hfound
  | readUp x a g resp part buf =>
    have hpre : resp ++ (part.before ++ buf) <+: h.text ++ body := by rw [← hall]; rfl
    obtain ⟨rfl, front, hfits⟩ := hsound.head_eq hpre
    have hbody : part.before ++ buf = body := append_cancel_left hall
    have hchunked := hnames.isChunked front
    cases hfits with
    | chunkLine =>
      rw [← hbody] at hframe
      exact not_isFrame_of_find_crlf hungry.1 hungry.2 hframe
    | chunk => cases hplace.2 h hnames rfl
    | sized hsized =>
      rw [isChunked_of_isSized hsized] at hchunked
      cases hchunked
    | rest _ hnot =>
      rw [hnot] at hchunked
      cases hchunked
  | connecting | forwarding => cases hsrc
  | _ => cases hup

theorem Brought.not_all_read {c : ConnId} {f : Frame} (hbrought : Brought s.view)
    (hungry : AllHungry s) (hid : s.frames id = some f) (hup : f.pc.upFd = some fd)
    (hfd : s.fds fd = some c) (hnames : NamesChunked h) (hframe : IsFrame lastChunk body)
    (hsrc : f.pc.source f.client = some fd) : (s.conns c).got ≠ h.text ++ body := by
  have hgot : (s.conns c).got = f.pc.taken :=
    hbrought.reading.taken id ⟨f.client, f.pc, f.index⟩ fd c (tasks_view hid) hup hfd
  have hsound : f.pc.Sound := hbrought.reading.sound id _ (tasks_view hid)
  have hplace : f.pc.Brought := hbrought.brought id _ (tasks_view hid)
  rw [hgot]
  exact hplace.taken_ne hsound (hungry id f hid) hup hsrc hnames hframe

theorem chunked_lastChunk : Chunked lastChunk :=
  @Chunked.last [48] [] [] (by decide) (by simp) (.inl rfl)

def helloResponse : Response where
  head := okHead [fieldOf "Transfer-Encoding" " chunked" (by decide +kernel)]
  body := ascii "5" ++ (crlf ++ (ascii "hello" ++ (crlf ++ lastChunk)))
  delimited := .inr ⟨_, ⟨[], [], rfl, rfl, by simp⟩, by decide,
    @Chunked.chunk (ascii "5") [] _ _ (all_iff_forall_prop.mp rfl) rfl (by decide) (.inl rfl)
      chunked_lastChunk⟩

/-- A chunk of sixteen bytes that starts with a line end, and so completes what looks like a last
chunk. -/
def trickyResponse : Response where
  head := helloResponse.head
  body := ascii "10" ++ (crlf ++ ((crlf ++ ascii "fourteen bytes") ++ (crlf ++ lastChunk)))
  delimited := .inr ⟨_, ⟨[], [], rfl, rfl, by simp⟩, by decide,
    @Chunked.chunk (ascii "10") [] _ _ (all_iff_forall_prop.mp rfl) rfl (by decide) (.inl rfl)
      chunked_lastChunk⟩

def firstDigit : List Act :=
  responding helloResponse.text ++ [.reads (helloResponse.head.text ++ ascii "5")]

def lastChunkLater : List Act :=
  responding helloResponse.text ++
    [.reads (helloResponse.head.text ++ (ascii "5" ++ (crlf ++ (ascii "hello" ++ crlf)))),
      .reads lastChunk, .run { call := .read .eagain }]

def linesInChunk : List Act :=
  responding trickyResponse.text ++ [.reads (trickyResponse.head.text ++ (ascii "10" ++ blankLine))]

/-- **A chunked response is passed on exactly, and nothing is awaited behind it.** In every run that
meets `BringsLastChunk`, take a coroutine that holds a connection from which nothing has come but a
first piece of a chunked response. While the coroutine still reads, suspended or not, it has not yet
read all of the response; and when it starts to answer its client, the answer is the response. -/
theorem chunked_response_exact {cfg : Config} {acts : List Act} {s : State} {id c : ConnId}
    {f : Frame} {fd : Fd} {h : Head} {body : Bytes}
    (hmeets : Meets (step cfg) BringsLastChunk .init acts)
    (hrun : exec (step cfg) .init acts = some s) (hid : s.frames id = some f)
    (hup : f.pc.upFd = some fd) (hfd : s.fds fd = some c) (hnames : NamesChunked h)
    (hframe : IsFrame lastChunk body) (hcap : body.length ≤ bodyCap)
    (hsent : (s.conns c).got ++ (s.conns c).rx <+: h.text ++ body) :
    (f.pc.source f.client = some fd → (s.conns c).got ≠ h.text ++ body) ∧
    ∀ io s' f' x resp, s.active = some id → step cfg s (.run io) = some s' →
      BringsLastChunk s (.run io) → s'.frames id = some f' → f'.pc = .answering x resp 0 →
        resp = h.text ++ body := by
  have hbrought := run_brought hmeets hrun
  have hungry := run_hungry hrun
  refine ⟨hbrought.not_all_read hungry hid hup hfd hnames hframe, ?_⟩
  intro io s' f' x resp hactive hstep hbrings hid' hpc'
  have hrun' := exec_concat hrun hstep
  have hmeets' : Meets (step cfg) BringsLastChunk .init (acts ++ [.run io]) :=
    (meets_append hrun).mpr ⟨hmeets, hbrings, fun _ _ => trivial⟩
  have hframe' : s.runFrame cfg id f io = some s' := by
    simpa [step, hactive, hid] using hstep
  have hanswer := (run_brought hmeets' hrun').brought id _ (tasks_view hid')
  rw [hpc'] at hanswer
  obtain ⟨hfound, hlast⟩ := hanswer
  have hcollected :=
    (response_collected hbrought.reading hungry hid hup hfd hframe' hid' hpc').trans hsent
  obtain ⟨tail, htail⟩ := head_begins (prefix_append _ _) hcollected hfound
  rw [← htail, prefix_append_right_inj] at hcollected
  have hle := hcollected.length_le
  rcases hlast h tail hnames htail.symm with hlast | hlong
  · rw [← htail, hframe.eq_of_prefix_of_find hcollected hlast]
  · omega

def bringsAll (text : Bytes) : Bool :=
  match find blankLine text with
  | some pos => (find crlf (text.drop (pos + 4))).isNone ||
      (find lastChunk (text.drop (pos + 4))).isSome
  | none => true

theorem brings_of_bringsAll {text : Bytes} (h : bringsAll text = true) : Brings text := by
  rintro hd tail - rfl hline
  obtain ⟨pos, hpos, hlen⟩ := hd.text_isFrame
  have hdrop : (hd.text ++ tail).drop (pos + 4) = tail := by
    rw [show pos + 4 = hd.text.length from hlen, drop_left]
  simp only [bringsAll, find_append tail hpos, hdrop, Bool.or_eq_true] at h
  rcases h with hnone | hsome
  · rw [Option.isNone_iff_eq_none.mp hnone] at hline
    cases hline
  · exact hsome

def readsBringAll (s : State) : Act → Bool
  | .run ⟨.read (.data bs), _, _⟩ =>
      decide (∀ id ∈ s.active, ∀ t ∈ s.view.tasks id, bringsAll (t.pc.push bs).taken = true)
  | _ => true

theorem bringsLastChunk_of_readsBringAll (h : readsBringAll s a = true) : BringsLastChunk s a := by
  unfold BringsLastChunk
  split
  · exact fun id hactive t ht => brings_of_bringsAll (of_decide_eq_true h id hactive t ht)
  · trivial

theorem helloResponse_namesChunked : NamesChunked helloResponse.head :=
  ⟨_, ⟨[], [], rfl, rfl, by simp⟩, by decide, by decide⟩

theorem chunked_response_exact_firstDigit :
    ∃ s ∈ exec (step .sample) .init firstDigit,
      (s.conns 1).got ≠ helloResponse.head.text ++ helloResponse.body ∧
        ∃ s' ∈ step .sample s (.reads (helloResponse.body.tail)), ∃ f' ∈ s'.frames 0,
          ∃ resp, f'.pc = .answering getExchange resp 0 ∧
            resp = helloResponse.head.text ++ helloResponse.body := by
  obtain ⟨s, hrun, f, hid, s', hstep, f', hid', hactive, hup, hsrc, hfd, hsent, hpc'⟩ :
      ∃ s ∈ exec (step .sample) .init firstDigit, ∃ f ∈ s.frames 0,
        ∃ s' ∈ step .sample s (.reads (helloResponse.body.tail)), ∃ f' ∈ s'.frames 0,
          s.active = some 0 ∧ f.pc.upFd = some 5 ∧ f.pc.source f.client = some 5 ∧
          s.fds 5 = some 1 ∧
          (s.conns 1).got ++ (s.conns 1).rx <+: helloResponse.head.text ++ helloResponse.body ∧
          f'.pc = .answering getExchange helloResponse.text 0 := by decide +kernel
  have hmeets : Meets (step .sample) (fun s a => readsBringAll s a = true) .init
      (firstDigit ++ [.reads (helloResponse.body.tail)]) := by decide +kernel
  obtain ⟨hmeets, hlast, -⟩ :=
    (meets_append hrun).mp (hmeets.mono fun _ _ => bringsLastChunk_of_readsBringAll)
  obtain ⟨hread, hanswer⟩ := chunked_response_exact hmeets hrun hid hup hfd
    helloResponse_namesChunked (show IsFrame lastChunk helloResponse.body by decide) (by decide)
    hsent
  exact ⟨s, hrun, hread hsrc, s', hstep, f', hid', _, hpc',
    hanswer _ s' f' _ _ hactive hstep hlast hid' hpc'⟩

/-- When the last chunk comes on its own, all of the response has been read and the coroutine waits
for 4096 bytes; and a chunk that starts with a line end is taken for the last one. -/
theorem chunked_responses_wait_or_break :
    (∃ s ∈ exec (step .sample) .init lastChunkLater, ∃ f ∈ s.frames 0,
      (s.conns 1).got = helloResponse.text ∧ f.waiting = some 5) ∧
    ∃ s ∈ exec (step .sample) .init linesInChunk, ∃ f ∈ s.frames 0,
      f.pc = .answering getExchange (trickyResponse.head.text ++ (ascii "10" ++ blankLine)) 0 ∧
        trickyResponse.head.text ++ (ascii "10" ++ blankLine) ≠ trickyResponse.text := by
  decide +kernel

end Muses.Proxy
