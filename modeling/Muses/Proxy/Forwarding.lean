import Muses.Proxy.Ownership

/-!
# What the proxy sends upstream for a client's requests

A client sends requests one after the other on one connection. The text that goes upstream for the
`i`-th of them is to be its rewritten head followed by its body, and reading the next one is to
start where it ends.

`read_until` returns everything that came with the end of the head, and `serve_client` takes all of
it for the body. So this holds as long as the kernel cuts the stream kindly: a `read` that completes
a head returns nothing from behind the end of that request (`ReadsApart`). A client that sends its
next request early breaks it: `pipelined_request_is_sent_as_body`.
-/

namespace Muses.Proxy

open Muses.Core Text Search HttpContext Http Function List

/-! ## The client's stream -/

def stream (reqs : List Request) : Bytes := (reqs.map Request.text).flatten

def upTo (reqs : List Request) (i : Nat) : Bytes := stream (reqs.take i)

variable {reqs : List Request} {i : Nat}

theorem upTo_succ {r : Request} (h : reqs[i]? = some r) :
    upTo reqs (i + 1) = upTo reqs i ++ r.text := by
  simp [upTo, stream, take_add_one, h]

theorem stream_split {r : Request} (h : reqs[i]? = some r) :
    ∃ rest, stream reqs = upTo reqs i ++ (r.text ++ rest) := by
  refine ⟨stream (reqs.drop (i + 1)), ?_⟩
  have hsplit : stream reqs = upTo reqs (i + 1) ++ stream (reqs.drop (i + 1)) := by
    simp only [upTo, stream, ← flatten_append, ← map_append, take_append_drop]
  rw [hsplit, upTo_succ h, append_assoc]

theorem stream_eq_upTo (h : reqs[i]? = none) : stream reqs = upTo reqs i := by
  rw [upTo, take_of_length_le (getElem?_eq_none_iff.mp h)]

/-! ## A request in the buffer -/

theorem announced_eq (r : Request) (rest : Bytes) :
    announced (r.head.text ++ rest) = r.body.length := by
  unfold announced
  rw [parseRequest_text]
  rcases r.sized with ⟨hlacks, hbody⟩ | hsizes
  · rw [hbody]
    exact bodyLength_of_lacks hlacks
  · exact (bodyLength_of_sizes hsizes).2

theorem forwardText_eq (r : Request) (rest : Bytes) :
    fwdRequest (parseRequest (r.head.text ++ rest)) r.body = forwardText r := by
  rw [forwardText, fwdRequest, fwdRequest, fwdHead_parse]

/-! ## What is assumed -/

/-- The client of connection `k` sends `reqs`, and nothing else. -/
def Sends (k : ConnId) (reqs : List Request) (s : State) : Act → Prop
  | .arrive fd bs => s.fds fd = some k → (s.conns k).sent ++ bs <+: stream reqs
  | .hangup fd => s.fds fd = some k → (s.conns k).sent = stream reqs
  | _ => True

def Task.apart (reqs : List Request) (t : Task) (bs : Bytes) : Bool :=
  match t.pc, reqs[t.index]? with
  | .readHead buf, some r => buf.length + bs.length ≤ r.text.length
  | _, _ => true

def Task.inBody (t : Task) : Bool :=
  match t.pc with
  | .readBody _ _ _ _ => true
  | _ => false

/-- For client `k`, no `read` for a head returns bytes from behind the end of the request, and no
`read` for a body fails. -/
def ReadsApart (k : ConnId) (reqs : List Request) (s : State) : Act → Prop
  | .run ⟨.read (.data bs), _, _⟩ =>
      s.active = some k → ∀ t ∈ s.view.tasks k, t.apart reqs bs = true
  | .run ⟨.read .error, _, _⟩ => s.active = some k → ∀ t ∈ s.view.tasks k, t.inBody = false
  | _ => True

instance (k : ConnId) (reqs : List Request) (s : State) (a : Act) :
    Decidable (Sends k reqs s a) := by
  unfold Sends
  split <;> infer_instance

instance (k : ConnId) (reqs : List Request) (s : State) (a : Act) :
    Decidable (ReadsApart k reqs s a) := by
  unfold ReadsApart
  split <;> infer_instance

def clientAssume (k : ConnId) (reqs : List Request) : Assume where
  arrive v fd bs := v.fds fd = some k → (v.conns k).sent ++ bs <+: stream reqs
  hangup v fd := v.fds fd = some k → (v.conns k).sent = stream reqs
  read v id bs := id = k → ∀ t ∈ v.tasks k, t.apart reqs bs = true
  error v id := id = k → ∀ t ∈ v.tasks k, t.inBody = false

theorem clientAssume_allows {k : ConnId} {s : State} {a : Act}
    (h : Sends k reqs s a ∧ ReadsApart k reqs s a) : (clientAssume k reqs).Allows s a := by
  unfold Assume.Allows
  split
  · exact h.1
  · exact h.1
  · rintro id hactive rfl
    exact h.2 hactive
  · exact fun _ _ => trivial
  · rintro id hactive rfl
    exact h.2 hactive
  · trivial

/-! ## The invariant -/

def Pc.written : Pc → Option Bytes
  | .forwarding x _ _ off => some (x.fwd.take off)
  | .readUpHead x _ _ _ => some x.fwd
  | .readUp x _ _ _ _ _ => some x.fwd
  | .answering x _ _ => some x.fwd
  | _ => none

/-- Where the coroutine is in the stream when it serves the request number `i`: it has read the
requests before, and of this one its head and the first part of its body; or all of it, and then
it has the right text for it. -/
def Stage (reqs : List Request) (got : Bytes) (i : Nat) : Pc → Prop
  | .readHead buf =>
      got = upTo reqs i ++ buf ∧ ∀ r, reqs[i]? = some r → buf.length ≤ r.text.length
  | .readBody info body want buf =>
      ∃ r, reqs[i]? = some r ∧ got = upTo reqs i ++ (r.head.text ++ (body ++ buf)) ∧
        body.length + want = r.body.length ∧ buf.length ≤ want ∧
        fwdHead info = fwdHead (parseRequest r.head.text)
  | pc => ∀ x, pc.exchange = some x →
      ∃ r, reqs[i]? = some r ∧ x.fwd = forwardText r ∧ got = upTo reqs (i + 1)

/-- The first `n` requests have been forwarded. -/
def Answered (reqs : List Request) (gs : List Forward) (n : Nat) : Prop :=
  ∀ i, i < n → ∃ r, reqs[i]? = some r ∧ ⟨i, forwardText r⟩ ∈ gs

/-- The coroutine of `k` is where the bytes read so far have brought it. -/
structure Follows (k : ConnId) (reqs : List Request) (v : View) : Prop where
  sent : (v.conns k).sent <+: stream reqs
  closed : (v.conns k).fin = true → (v.conns k).sent = stream reqs
  books : (v.conns k).got ++ (v.conns k).rx = (v.conns k).sent
  stage : ∀ t, v.tasks k = some t → Stage reqs (v.conns k).got t.index t.pc
  newest : ∀ t, v.tasks k = some t → ∀ w, t.pc.written = some w →
    ∃ g gs, v.forwards k = g :: gs ∧ g.index = t.index ∧ g.text = w
  answered : ∀ t, v.tasks k = some t → Answered reqs (v.forwards k) t.index

/-- The invariant for client `k`: nothing wrong was ever sent for it, and unless the number was
given to an upstream's connection, everything goes as it should. -/
structure Exact (k : ConnId) (reqs : List Request) (v : View) : Prop where
  placed : Placed v
  log : ∀ g ∈ v.forwards k, ∃ r, reqs[g.index]? = some r ∧ g.text <+: forwardText r
  follows : (v.conns k).upstream = false → Follows k reqs v

section Stage

variable {reqs : List Request} {got : Bytes} {i : Nat} {pc pc' : Pc} {x : Exchange}

theorem Stage.exchange (h : Stage reqs got i pc) (hx : pc.exchange = some x) :
    ∃ r, reqs[i]? = some r ∧ x.fwd = forwardText r ∧ got = upTo reqs (i + 1) := by
  cases pc with
  | readHead | readBody => cases hx
  | _ => exact h x hx

theorem Stage.advance (h : Stage reqs got i pc) (hx : pc.exchange = some x)
    (hx' : pc'.exchange = some x) : Stage reqs got i pc' := by
  have hexchange := h.exchange hx
  cases pc' with
  | readHead | readBody => cases hx'
  | _ =>
    intro y hy
    rw [hx', Option.some.injEq] at hy
    exact hy ▸ hexchange

end Stage

section Follows

variable {k : ConnId} {reqs : List Request} {v v' : View} {t : Task}

/-- A head that is complete in the buffer is that of the request number `t.index`, and behind it
stands a first piece of the body. -/
theorem Follows.head_complete (h : Follows k reqs v) (ht : v.tasks k = some t) {head : Bytes}
    {pos : Nat} (hpc : t.pc = .readHead head) (hpos : find blankLine head = some pos) :
    ∃ r, reqs[t.index]? = some r ∧ head = r.head.text ++ head.drop (pos + 4) ∧
      head.drop (pos + 4) <+: r.body := by
  have hstage := h.stage t ht
  rw [hpc] at hstage
  obtain ⟨hgot, hfits⟩ := hstage
  have hread : (v.conns k).got <+: stream reqs :=
    (prefix_append _ _).trans (h.books ▸ h.sent)
  rw [hgot] at hread
  cases hr : reqs[t.index]? with
  | none =>
    -- behind the last request nothing is read
    rw [stream_eq_upTo hr] at hread
    have hnil : head = [] := by
      have hlen := hread.length_le
      rw [length_append] at hlen
      exact eq_nil_of_length_eq_zero (by omega)
    rw [hnil] at hpos
    cases hpos
  | some r =>
    obtain ⟨rest, hsplit⟩ := stream_split hr
    rw [hsplit, prefix_append_right_inj] at hread
    have hpre : head <+: r.head.text ++ r.body :=
      prefix_of_prefix_length_le hread (prefix_append _ _) (hfits r hr)
    obtain ⟨-, hhead, hbody⟩ := Head.split_of_prefix hpre hpos
    exact ⟨r, rfl, hhead, hbody⟩

theorem Follows.body_complete (h : Follows k reqs v) (ht : v.tasks k = some t) {info : HttpInfo}
    {body buf : Bytes} {want : Nat} (hpc : t.pc = .readBody info body want buf)
    (hend : want ≤ buf.length ∨ (v.conns k).rx = [] ∧ (v.conns k).fin = true) :
    ∃ r, reqs[t.index]? = some r ∧ fwdRequest info (body ++ buf) = forwardText r ∧
      (v.conns k).got = upTo reqs (t.index + 1) := by
  have hstage := h.stage t ht
  rw [hpc] at hstage
  obtain ⟨r, hr, hgot, hlen, hbuf, hhead⟩ := hstage
  obtain ⟨rest, hsplit⟩ := stream_split hr
  have hread : (v.conns k).got <+: stream reqs :=
    (prefix_append _ _).trans (h.books ▸ h.sent)
  have hfull : want ≤ buf.length := by
    rcases hend with hend | ⟨hrx, hfin⟩
    · exact hend
    · -- the client has closed, so everything it had to send has been read
      have hall := h.books
      rw [hrx, append_nil, h.closed hfin, hsplit, hgot] at hall
      have hall := congrArg List.length hall
      simp only [length_append, Request.text] at hall
      omega
  rw [hsplit, hgot, prefix_append_right_inj, Request.text, append_assoc,
    prefix_append_right_inj] at hread
  have hbody : body ++ buf = r.body := by
    have hpre := prefix_of_prefix_length_le hread (prefix_append r.body rest)
      (by rw [length_append]; omega)
    exact hpre.eq_of_length (by rw [length_append]; omega)
  refine ⟨r, hr, ?_, ?_⟩
  · rw [hbody, forwardText, fwdRequest, fwdRequest, hhead]
  · rw [hgot, hbody, upTo_succ hr, Request.text]

theorem Follows.turn (h : Follows k reqs v) (hplaced : Placed v) (ht : v.tasks k = some t) {pc : Pc}
    (hturn : Turn (clientAssume k reqs) v k t pc) :
    Stage reqs (v.conns k).got t.index pc := by
  have hstage := h.stage t ht
  cases hturn with
  | finish | refuse =>
    intro x hx
    cases hx
  | @wantBody head pos hpc hpos hlen =>
    obtain ⟨r, hr, hhead, hbody⟩ := h.head_complete ht hpc hpos
    rw [hpc] at hstage
    have hann : announced head = r.body.length := by
      rw [hhead]
      exact announced_eq r _
    refine ⟨r, hr, ?_, ?_, Nat.zero_le _, ?_⟩
    · rw [append_nil, ← hhead]
      exact hstage.1
    · omega
    · rw [hhead]
      exact fwdHead_parse r.head _
  | @routeHead head pos route hpc hpos hlen =>
    obtain ⟨r, hr, hhead, hbody⟩ := h.head_complete ht hpc hpos
    rw [hpc] at hstage
    have hann : announced head = r.body.length := by
      rw [hhead]
      exact announced_eq r _
    have hall : head.drop (pos + 4) = r.body :=
      hbody.eq_of_length (Nat.le_antisymm hbody.length_le (hann ▸ hlen))
    rintro x hx
    cases hx
    refine ⟨r, hr, ?_, ?_⟩
    · show fwdRequest (parseRequest head) (head.drop (pos + 4)) = forwardText r
      rw [hall, hhead]
      exact forwardText_eq r _
    · rw [hstage.1, upTo_succ hr, Request.text, ← hall, ← hhead]
  | @routeBody info body buf want route hpc hend =>
    have hclient := (hplaced.client k t ht).1
    have hend' : want ≤ buf.length ∨ (v.conns k).rx = [] ∧ (v.conns k).fin = true := by
      refine hend.imp_right ?_
      rintro (⟨⟨c, hc, hrx, hfin⟩, -⟩ | herror)
      · rw [hclient, Option.some.injEq] at hc
        exact hc ▸ ⟨hrx, hfin⟩
      · have hbody := herror rfl t ht
        simp [Task.inBody, hpc] at hbody
    obtain ⟨r, hr, hfwd, hgot⟩ := h.body_complete ht hpc hend'
    rintro x hx
    cases hx
    exact ⟨r, hr, hfwd, hgot⟩
  | retry a' hpc | written hpc | plan hpc | nextPart hpc | answer off' hpc =>
    rw [hpc] at hstage
    exact hstage.advance rfl rfl

theorem Turn.written_eq {A : Assume} {id : ConnId} {pc : Pc}
    (h : Turn A v id t pc) : pc.written = none ∨ pc.written = t.pc.written := by
  cases h with
  | finish | refuse | wantBody | routeHead | routeBody | retry => exact .inl rfl
  | written hpc hoff =>
    right
    rw [hpc]
    simp [Pc.written, take_of_length_le hoff]
  | plan hpc | nextPart hpc | answer off' hpc =>
    right
    rw [hpc]
    rfl

theorem Follows.read (h : Follows k reqs v) (hplaced : Placed v) (ht : v.tasks k = some t) {fd : Fd}
    {c : ConnId} {bs : Bytes} (hsrc : t.pc.source t.client = some fd) (hfd : v.fds fd = some c)
    (hlimit : bs.length ≤ t.pc.limit) (hapart : t.apart reqs bs = true) :
    Stage reqs (if c = k then (v.conns k).got ++ bs else (v.conns k).got) t.index
      (t.pc.push bs) := by
  have hstage := h.stage t ht
  obtain ⟨hclient, hkind⟩ := hplaced.client k t ht
  -- bytes of an upstream are not bytes of the client
  have hother : t.pc.upFd = some fd → ¬ c = k := by
    rintro hup rfl
    obtain ⟨d, hd, hup⟩ := hplaced.held _ fd (by rw [Placed.held_of_task ht, hup])
    rw [hfd, Option.some.injEq] at hd
    rw [hd, hup] at hkind
    cases hkind
  have hown : t.client = fd → c = k := by
    rintro rfl
    rw [hclient, Option.some.injEq] at hfd
    exact hfd.symm
  cases hpc : t.pc with
  | readHead buf =>
    rw [hpc] at hstage hsrc
    obtain ⟨hgot, -⟩ := hstage
    rw [if_pos (hown (by simpa [Pc.source] using hsrc))]
    refine ⟨by rw [hgot, append_assoc], fun r hr => ?_⟩
    rw [length_append]
    simpa [Task.apart, hpc, hr] using hapart
  | readBody info body want buf =>
    rw [hpc] at hstage hsrc hlimit
    obtain ⟨r, hr, hgot, hlen, hbuf, hhead⟩ := hstage
    rw [if_pos (hown (by simpa [Pc.source] using hsrc))]
    have hlimit : bs.length ≤ want - buf.length := hlimit.trans (Nat.min_le_left _ _)
    refine ⟨r, hr, ?_, hlen, ?_, hhead⟩
    · rw [hgot]
      simp only [append_assoc]
    · rw [length_append]
      omega
  | readUpHead x a g buf | readUp x a g resp part buf =>
    rw [hpc] at hstage hsrc hother
    rw [if_neg (hother hsrc)]
    exact hstage.advance rfl rfl
  | _ =>
    rw [hpc] at hsrc
    cases hsrc

end Follows

section Exact

variable {k : ConnId} {reqs : List Request} {v v' : View} {id : ConnId} {t t' : Task}

theorem Exact.init (k : ConnId) (reqs : List Request) : Exact k reqs .init where
  placed := .init
  log _ hg := by cases hg
  follows _ :=
    { sent := nil_prefix
      closed := fun h => by cases h
      books := rfl
      stage := fun _ h => by cases h
      newest := fun _ h => by cases h
      answered := fun _ h => by cases h }

theorem Exact.frame (h : Exact k reqs v) (hplaced : Placed v')
    (hconn : (v'.conns k).upstream = false → v'.conns k = v.conns k)
    (htask : ∀ t, v'.tasks k = some t → v.tasks k = some t)
    (hlog : v'.forwards k = v.forwards k) : Exact k reqs v' where
  placed := hplaced
  log := hlog ▸ h.log
  follows hkind := by
    have hsame := hconn hkind
    obtain ⟨hsent, hclosed, hbooks, hstage, hnewest, hanswered⟩ := h.follows (hsame ▸ hkind)
    constructor
    · rwa [hsame]
    · rwa [hsame]
    · rwa [hsame]
    · rw [hsame]
      exact fun t ht => hstage t (htask t ht)
    · rw [hlog]
      exact fun t ht => hnewest t (htask t ht)
    · rw [hlog]
      exact fun t ht => hanswered t (htask t ht)

/-- A coroutine moves. If it is another client's, nothing changes for client `k`; if it is that of
client `k`, its new place and its log have to be right. -/
theorem Exact.coroutine (h : Exact k reqs v) (hid : v.tasks id = some t) {w : View}
    (hplaced : Placed (w.set id t')) (htasks : w.tasks = v.tasks)
    (hconn : (w.conns k).upstream = false → w.conns k = v.conns k)
    (hforwards : ∀ j, j ≠ id → w.forwards j = v.forwards j)
    (hown : id = k → Follows k reqs v →
      (∀ g ∈ w.forwards k, ∃ r, reqs[g.index]? = some r ∧ g.text <+: forwardText r) ∧
      Stage reqs (v.conns k).got t'.index t'.pc ∧
      (∀ u, t'.pc.written = some u →
        ∃ g gs, w.forwards k = g :: gs ∧ g.index = t'.index ∧ g.text = u) ∧
      Answered reqs (w.forwards k) t'.index) :
    Exact k reqs (w.set id t') := by
  by_cases hk : id = k
  · subst hk
    have hold := h.follows (h.placed.client id t hid).2
    obtain ⟨hlog, hstage, hnewest, hanswered⟩ := hown rfl hold
    refine ⟨hplaced, hlog, fun hkind => ?_⟩
    have hsame : (w.set id t').conns id = v.conns id := hconn hkind
    have htask {u : Task} (hu : (w.set id t').tasks id = some u) : u = t' := by
      simpa [eq_comm] using hu
    constructor
    · rw [hsame]
      exact hold.sent
    · rw [hsame]
      exact hold.closed
    · rw [hsame]
      exact hold.books
    · intro u hu
      rw [htask hu, hsame]
      exact hstage
    · intro u hu
      rw [htask hu]
      exact hnewest
    · intro u hu
      rw [htask hu]
      exact hanswered
  · refine h.frame hplaced hconn (fun u hu => ?_) (hforwards k (Ne.symm hk))
    rw [View.set_tasks, update_of_ne (Ne.symm hk), htasks] at hu
    exact hu

theorem conn_of_source (h : Placed v) (hid : v.tasks id = some t) {fd : Fd} {c : ConnId}
    (hsrc : t.pc.source t.client = some fd) (hfd : v.fds fd = some c) :
    c = id ∨ (v.conns c).upstream = true := by
  rcases Pc.source_cases hsrc with ⟨rfl, -⟩ | hup
  · left
    rw [(h.client id t hid).1, Option.some.injEq] at hfd
    exact hfd.symm
  · right
    obtain ⟨d, hd, hkind⟩ := h.held id fd (by rw [Placed.held_of_task hid, hup])
    obtain rfl : c = d := Option.some.inj (hfd.symm.trans hd)
    exact hkind

theorem Pc.written_push (bs : Bytes) (pc : Pc) : (pc.push bs).written = pc.written := by
  cases pc <;> rfl

theorem Complete.written {A : Assume} {pc : Pc} {x : Exchange} (h : Complete A v id pc)
    (hx : pc.exchange = some x) : pc.written = some x.fwd := by
  cases h <;> cases hx <;> rfl

theorem setConn_conns {c : ConnId} {d : Conn} (hc : c = k → d.upstream = true)
    (hkind : ((v.setConn c d).conns k).upstream = false) :
    (v.setConn c d).conns k = v.conns k := by
  by_cases hck : c = k
  · subst hck
    simp [hc rfl] at hkind
  · simp [Ne.symm hck]

theorem Exact.readOwn (h : Exact k reqs v) (hid : v.tasks k = some t) {bs : Bytes}
    (hsrc : t.pc.source t.client = some t.client) (hlimit : bs.length ≤ t.pc.limit)
    (hrx : bs <+: (v.conns k).rx) (hapart : t.apart reqs bs = true)
    (hplaced : Placed ((v.setConn k { v.conns k with
      rx := (v.conns k).rx.drop bs.length, got := (v.conns k).got ++ bs }).set k
        { t with pc := t.pc.push bs })) :
    Exact k reqs ((v.setConn k { v.conns k with
      rx := (v.conns k).rx.drop bs.length, got := (v.conns k).got ++ bs }).set k
        { t with pc := t.pc.push bs }) := by
  obtain ⟨hclient, hkind⟩ := h.placed.client k t hid
  have hold := h.follows hkind
  have hstage := hold.read h.placed hid hsrc hclient hlimit hapart
  rw [if_pos rfl] at hstage
  refine ⟨hplaced, h.log, fun _ => ?_⟩
  constructor
  · simpa using hold.sent
  · simpa using hold.closed
  · obtain ⟨tail, htail⟩ := hrx
    have hbooks := hold.books
    simp only [← htail] at hbooks ⊢
    simpa using hbooks
  · intro u hu
    obtain rfl : { t with pc := t.pc.push bs } = u := by simpa using hu
    simpa using hstage
  · intro u hu w hw
    obtain rfl : { t with pc := t.pc.push bs } = u := by simpa using hu
    exact hold.newest t hid w (by rwa [Pc.written_push] at hw)
  · intro u hu
    obtain rfl : { t with pc := t.pc.push bs } = u := by simpa using hu
    exact hold.answered t hid

/-- **Every move keeps the client's requests and the forwarded texts in step.** -/
theorem Exact.move {cfg : Config} (h : Exact k reqs v)
    (hmove : Move cfg (clientAssume k reqs) v v') : Exact k reqs v' := by
  have hplaced := h.placed.move hmove
  cases hmove with
  | @arrive fd c bs hfd hne hopen hA =>
    by_cases hc : c = k
    · subst hc
      refine ⟨hplaced, h.log, fun hkind => ?_⟩
      have hold := h.follows (by simpa using hkind)
      constructor
      · simpa using hA hfd
      · simp [hopen]
      · simpa using congrArg (· ++ bs) hold.books
      · simpa using hold.stage
      · exact hold.newest
      · exact hold.answered
    · exact h.frame hplaced (fun _ => by simp [Ne.symm hc]) (fun _ ht => ht) rfl
  | @hangup fd c hfd hA =>
    by_cases hc : c = k
    · subst hc
      refine ⟨hplaced, h.log, fun hkind => ?_⟩
      have hold := h.follows (by simpa using hkind)
      constructor
      · simpa using hold.sent
      · simpa using hA hfd
      · simpa using hold.books
      · simpa using hold.stage
      · exact hold.newest
      · exact hold.answered
    · exact h.frame hplaced (fun _ => by simp [Ne.symm hc]) (fun _ ht => ht) rfl
  | spawn fd hfd =>
    by_cases hk : k = v.opened
    · -- a new client starts at the first byte of its first request
      subst hk
      refine ⟨hplaced, h.log, fun _ => ?_⟩
      constructor
      · simp
      · simp
      · simp
      · rintro t ht
        obtain rfl : (⟨fd, .readHead [], 0⟩ : Task) = t := by simpa using ht
        exact ⟨by simp [upTo, stream], fun _ _ => Nat.zero_le _⟩
      · rintro t ht w hw
        obtain rfl : (⟨fd, .readHead [], 0⟩ : Task) = t := by simpa using ht
        cases hw
      · rintro t ht i hi
        obtain rfl : (⟨fd, .readHead [], 0⟩ : Task) = t := by simpa using ht
        cases hi
    · exact h.frame hplaced (fun _ => by simp [hk]) (fun t ht => by simpa [hk] using ht) rfl
  | discard hid =>
    refine h.frame hplaced (fun _ => rfl) (fun t ht => ?_) rfl
    simp only [View.reap_tasks, Option.ite_none_right_eq_some] at ht
    exact ht.2
  | reap keep =>
    refine h.frame hplaced (fun _ => rfl) (fun t ht => ?_) rfl
    simp only [View.reap_tasks, Option.ite_none_right_eq_some] at ht
    exact ht.2
  | stop => exact h.frame hplaced (fun _ => rfl) (fun _ ht => ht) rfl
  | @turn id t pc hid hturn =>
    refine h.coroutine hid hplaced rfl (fun _ => rfl) (fun _ _ => rfl) ?_
    rintro rfl hold
    refine ⟨h.log, hold.turn h.placed hid hturn, fun w hw => ?_, hold.answered t hid⟩
    rcases hturn.written_eq with hnone | hsame
    · rw [hnone] at hw
      cases hw
    · exact hold.newest t hid w (hsame ▸ hw)
  | @read id t fd c bs hid hsrc hfd hne hlimit hrx hA =>
    by_cases hown : c = id ∧ id = k
    · obtain ⟨rfl, rfl⟩ := hown
      have hclient := (h.placed.client c t hid).1
      rw [h.placed.inj fd t.client c hfd hclient] at hsrc
      exact h.readOwn hid hsrc hlimit hrx (hA rfl t hid) hplaced
    · have hsource := conn_of_source h.placed hid hsrc hfd
      refine h.coroutine hid hplaced rfl (setConn_conns fun hck => ?_) (fun _ _ => rfl) ?_
      · exact hsource.resolve_left fun hcid => hown ⟨hcid, hcid.symm.trans hck⟩
      · rintro rfl hold
        have hstage := hold.read h.placed hid hsrc hfd hlimit (hA rfl t hid)
        rw [if_neg fun hc => hown ⟨hc, rfl⟩] at hstage
        refine ⟨h.log, hstage, fun w hw => hold.newest t hid w ?_, hold.answered t hid⟩
        rwa [Pc.written_push] at hw
  | @write id t x a fd off n hid hpc hn =>
    refine h.coroutine hid hplaced rfl (fun _ => rfl) (fun j hj => by simp [hj]) ?_
    rintro rfl hold
    have hstage := hold.stage t hid
    rw [hpc] at hstage
    obtain ⟨r, hr, hfwd, -⟩ := hstage x rfl
    obtain ⟨g, gs, hlog, hindex, htext⟩ := hold.newest t hid (x.fwd.take off) (by rw [hpc]; rfl)
    have hext : Forward.extend ((x.fwd.drop off).take n) (v.forwards id) =
        { g with text := x.fwd.take (off + n) } :: gs := by
      rw [hlog, Forward.extend, htext, take_add]
    rw [View.setForwards_forwards, update_self, hext]
    refine ⟨fun g' hg' => ?_, hstage.advance rfl rfl, fun w hw =>
      ⟨_, gs, rfl, hindex, Option.some.inj hw⟩, fun i hi => ?_⟩
    · rcases mem_cons.mp hg' with rfl | hg'
      · exact ⟨r, hindex ▸ hr, hfwd ▸ take_prefix _ _⟩
      · exact h.log g' (hlog ▸ mem_cons_of_mem g hg')
    · -- the attempt that is being written is not one of the finished ones
      obtain ⟨r', hr', hmem⟩ := hold.answered t hid i hi
      rw [hlog] at hmem
      refine ⟨r', hr', mem_cons_of_mem _ ((mem_cons.mp hmem).resolve_left ?_)⟩
      rintro rfl
      exact absurd hindex (Nat.ne_of_lt hi)
  | @next id t x resp off hid hpc =>
    refine h.coroutine hid hplaced rfl (fun _ => rfl) (fun _ _ => rfl) ?_
    rintro rfl hold
    have hstage := hold.stage t hid
    rw [hpc] at hstage
    obtain ⟨r, hr, hfwd, hgot⟩ := hstage x rfl
    refine ⟨h.log, ⟨by rw [hgot, append_nil], fun _ _ => Nat.zero_le _⟩,
      nofun, fun i hi => ?_⟩
    rcases Nat.lt_succ_iff_lt_or_eq.mp hi with hi | rfl
    · exact hold.answered t hid i hi
    · obtain ⟨g, gs, hlog, hindex, htext⟩ := hold.newest t hid x.fwd (by rw [hpc]; rfl)
      refine ⟨r, hr, ?_⟩
      rw [hlog, ← hindex, ← hfwd, ← htext]
      exact mem_cons_self
  | @reuse id t x a fd rest hid hpc hpool =>
    obtain ⟨c, hfd, hup⟩ := h.placed.pooled _ fd (hpool ▸ mem_cons_self)
    refine h.coroutine hid hplaced rfl (fun hkind => ?_) (fun _ _ => rfl) ?_
    · have hck : c ≠ k := by
        rintro rfl
        simp [hfd, hup] at hkind
      simp [hfd, hck]
    · rintro rfl hold
      have hstage := hold.stage t hid
      rw [hpc] at hstage
      exact ⟨h.log, hstage.advance rfl rfl, nofun, hold.answered t hid⟩
  | @connect id t x a fd hid hpc hfd =>
    refine h.coroutine hid hplaced rfl (fun hkind => ?_) (fun _ _ => rfl) ?_
    · have hko : k ≠ v.opened := by
        rintro rfl
        simp at hkind
      simp [hko]
    · rintro rfl hold
      have hstage := hold.stage t hid
      rw [hpc] at hstage
      exact ⟨h.log, hstage.advance rfl rfl, nofun, hold.answered t hid⟩
  | @start id t x a fd hid hpc =>
    refine h.coroutine hid hplaced rfl (fun _ => rfl) (fun j hj => by simp [hj]) ?_
    rintro rfl hold
    have hstage := hold.stage t hid
    rw [hpc] at hstage
    obtain ⟨r, hr, -, -⟩ := hstage x rfl
    rw [View.setForwards_forwards, update_self]
    refine ⟨fun g hg => ?_, hstage.advance rfl rfl, fun w hw =>
      ⟨_, _, rfl, rfl, Option.some.inj hw⟩, fun i hi => ?_⟩
    · rcases mem_cons.mp hg with rfl | hg
      · exact ⟨r, hr, nil_prefix⟩
      · exact h.log g hg
    · obtain ⟨r', hr', hmem⟩ := hold.answered t hid i hi
      exact ⟨r', hr', mem_cons_of_mem _ hmem⟩
  | @fail id t x fd a hid hx hup =>
    refine h.coroutine hid hplaced rfl (fun _ => rfl) (fun _ _ => rfl) ?_
    rintro rfl hold
    exact ⟨h.log, (hold.stage t hid).advance hx rfl, nofun, hold.answered t hid⟩
  | @release id t x fd hid hx hup hcomplete | @overflow id t x fd hid hx hup hcomplete =>
    refine h.coroutine hid hplaced rfl (fun _ => rfl) (fun _ _ => rfl) ?_
    rintro rfl hold
    refine ⟨h.log, (hold.stage t hid).advance hx rfl, fun w hw => hold.newest t hid w ?_,
      hold.answered t hid⟩
    exact (hcomplete.written hx).trans hw

end Exact

/-! ## Concrete runs -/

def getRequest : Request where
  head := headWith []
  body := []
  version := rfl
  sized := .inl ⟨by decide, rfl⟩

def sizeTwo : Field := fieldOf "Content-Length" " 2" (by decide +kernel)

def postRequest : Request where
  head := headOf "POST" "/" "HTTP/1.1" [sizeTwo] (by decide +kernel)
  body := ascii "hi"
  version := rfl
  sized := .inr ⟨⟨_, ⟨[], [], rfl, rfl, by simp⟩,
    ascii " ", ascii "2", [], rfl, all_iff_forall_prop.mp rfl,
    all_iff_forall_prop.mp rfl, by decide, by simp, rfl⟩, by decide⟩

def emptyResponse : Bytes :=
  ascii "HTTP/1.1 200 OK" ++ crlf ++ ascii "Content-Length: 0" ++ blankLine

/-- Both requests lie in the socket; the reads return the first up to the middle of its body, the
rest of the body, and, when the first has been answered, the second. -/
def cutApart : List Act :=
  acceptClient ++
    [.arrive 4 (stream [postRequest, getRequest]), .reads (postRequest.text.take 39),
      .reads (postRequest.text.drop 39), .connects 5, .writes (forwardText postRequest).length,
      .arrive 5 emptyResponse, .reads emptyResponse, .writes emptyResponse.length,
      .reads getRequest.text, .run { call := .reuse }, .writes (forwardText getRequest).length]

def pipelined : List Act :=
  acceptClient ++
    [.arrive 4 (stream [getRequest, getRequest]), .reads (stream [getRequest, getRequest]),
      .connects 5, .writes (forwardText getRequest ++ getRequest.text).length]

/-! ## The property -/

def Pc.forwarded : Pc → Option Exchange
  | .readUpHead x _ _ _ => some x
  | .readUp x _ _ _ _ _ => some x
  | .answering x _ _ => some x
  | _ => none

/-- **Forwarding is exact.** In every run in which client `k` sends these requests and no `read`
for a head crosses the end of a request: each attempt to forward its request number `i` has written
a first piece of the rewritten head and the body of that request, and the whole of it once the
response is awaited; the bytes read until then are those of the first `i + 1` requests; the
coroutine reads its next head from there; and every request before the current one has been
forwarded. -/
theorem forwarding_exact {cfg : Config} {k : ConnId} {reqs : List Request} {acts : List Act}
    {s : State} (hsends : Meets (step cfg) (Sends k reqs) .init acts)
    (hreads : Meets (step cfg) (ReadsApart k reqs) .init acts)
    (hrun : exec (step cfg) .init acts = some s) :
    (∀ g ∈ s.forwards k, ∃ r, reqs[g.index]? = some r ∧ g.text <+: forwardText r) ∧
    ∀ f, s.frames k = some f →
      (∀ x, f.pc.forwarded = some x → ∃ r g gs, reqs[f.index]? = some r ∧
        s.forwards k = g :: gs ∧ g.index = f.index ∧ g.text = forwardText r ∧
        (s.conns k).got = upTo reqs (f.index + 1)) ∧
      (∀ buf, f.pc = .readHead buf → (s.conns k).got = upTo reqs f.index ++ buf) ∧
      Answered reqs (s.forwards k) f.index := by
  have hmeets := (hsends.and hreads).mono fun _ _ => clientAssume_allows
  have hexact : Exact k reqs s.view :=
    run_invariant (Exact.init k reqs) (fun _ _ h hmove => h.move hmove) hmeets hrun
  refine ⟨hexact.log, fun f hf => ?_⟩
  have ht := tasks_view hf
  have hfollows := hexact.follows (hexact.placed.client k _ ht).2
  have hstage := hfollows.stage _ ht
  refine ⟨fun x hx => ?_, fun buf hbuf => ?_, hfollows.answered _ ht⟩
  · have hx' : f.pc.exchange = some x ∧ f.pc.written = some x.fwd := by
      cases hpc : f.pc <;> rw [hpc] at hx <;> cases hx <;> exact ⟨rfl, rfl⟩
    obtain ⟨r, hr, hfwd, hgot⟩ := hstage.exchange hx'.1
    obtain ⟨g, gs, hlog, hindex, htext⟩ := hfollows.newest _ ht _ hx'.2
    exact ⟨r, g, gs, hr, hlog, hindex, htext.trans hfwd, hgot⟩
  · rw [hbuf] at hstage
    exact hstage.1

theorem forwarding_exact_cutApart :
    ∃ s ∈ exec (step .sample) .init cutApart,
      (s.forwards 0).length = 2 ∧
        ∀ g ∈ s.forwards 0, ∃ r, [postRequest, getRequest][g.index]? = some r ∧
          g.text <+: forwardText r := by
  obtain ⟨s, hrun, hlen⟩ :
      ∃ s ∈ exec (step .sample) .init cutApart, (s.forwards 0).length = 2 := by decide +kernel
  exact ⟨s, hrun, hlen, (forwarding_exact (by decide +kernel) (by decide +kernel) hrun).1⟩

/-- `read_until` returns the second request behind the head of the first, `body_in_head` takes it
over, and it goes upstream as the body of a request that has none. It is gone for the client. -/
theorem pipelined_request_is_sent_as_body :
    Meets (step .sample) (Sends 0 [getRequest, getRequest]) .init pipelined ∧
      ∃ s ∈ exec (step .sample) .init pipelined,
        s.forwards 0 = [⟨0, forwardText getRequest ++ getRequest.text⟩] ∧
          ¬ forwardText getRequest ++ getRequest.text <+: forwardText getRequest ∧
          (s.conns 0).rx = [] := by
  decide +kernel

end Muses.Proxy
