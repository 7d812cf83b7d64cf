import Muses.Proxy.Upstream
import Muses.Proxy.Forwarding

/-!
# What lies in the pools

A descriptor in a pool is to be a connection that the upstream keeps open and whose last response
has been read to its end, so that what is read from it next answers the next request.

`serve_client` calls `release_upstream` with `reusable` set for every response it takes for
complete: also for one that ended with the connection, for one that was cut short, and for one that
announced the end of the connection. So the property holds as long as the upstreams send nothing
but responses whose end the proxy can see and after which they keep the connection open
(`AnswersPlainly`). An upstream that delimits its response by closing breaks it:
`closed_connection_is_pooled`.
-/

namespace Muses.Proxy

open Muses.Core Text Search HttpContext Http Function List

/-! ## Plain responses -/

/-- The proxy can tell the end of the response, and the connection stays open behind it. A chunked
body has to stay below the safety cap and must not hold the bytes that the proxy takes for its end
any earlier. -/
structure Plain (r : Response) : Prop where
  stays : ¬ r.AnnouncesClose
  framed : (r.head.Lacks transferEncoding ∧ r.head.Sizes r.body.length) ∨
    (NamesChunked r.head ∧ IsFrame lastChunk r.body ∧ r.body.length ≤ bodyCap)

variable {r : Response}

theorem Plain.reading (hr : Plain r) (rest : Bytes) :
    (isSized (r.head.text ++ rest) = true ∧ announced (r.head.text ++ rest) = r.body.length) ∨
      (isChunked (r.head.text ++ rest) = true ∧ IsFrame lastChunk r.body) := by
  rcases hr.framed with ⟨hlacks, hsizes⟩ | ⟨hnames, hframe, -⟩
  · exact .inl (isSized_of_sizes hlacks hsizes rest)
  · exact .inr ⟨hnames.isChunked rest, hframe⟩

theorem Plain.maximal {r' : Response} {bs : Bytes} (hr : Plain r) (hr' : Plain r')
    (hpre : r'.text ++ bs <+: r.text) : bs = [] := by
  have hhead : r'.head.text = r.head.text :=
    r'.head.text_isFrame.unique r.head.text_isFrame
      ((prefix_append _ _).trans ((prefix_append _ _).trans hpre))
      (prefix_append _ _)
  have hbody : r'.body ++ bs <+: r.body := by
    rwa [Response.text, Response.text, hhead, append_assoc,
      prefix_append_right_inj] at hpre
  have hlen : r'.body.length = r.body.length := by
    have hread := hr.reading []
    have hread' := hr'.reading []
    rw [hhead] at hread'
    rcases hread with ⟨hsized, hann⟩ | ⟨hchunked, hframe⟩
    · rcases hread' with ⟨-, hann'⟩ | ⟨hchunked, -⟩
      · exact hann'.symm.trans hann
      · rw [isChunked_of_isSized hsized] at hchunked
        cases hchunked
    · rcases hread' with ⟨hsized, -⟩ | ⟨-, hframe'⟩
      · rw [isChunked_of_isSized hsized] at hchunked
        cases hchunked
      · exact congrArg List.length (hframe'.unique hframe
          ((prefix_append _ _).trans hbody) (prefix_refl _))
  have hle := hbody.length_le
  rw [length_append] at hle
  exact eq_nil_of_length_eq_zero (by omega)

/-! ## What is assumed -/

def Task.inResponse (t : Task) : Bool :=
  match t.pc with
  | .readUp _ _ _ _ _ _ => true
  | _ => false

/-- The upstreams answer each request with a plain response and nothing behind it; they close a
connection only before they have sent the head of a response, and no `read` for the body of a
response fails. -/
def AnswersPlainly (s : State) : Act → Prop
  | .arrive fd bs => ∀ c ∈ s.fds fd, (s.conns c).upstream = true →
      ∃ r : Response, Plain r ∧ (s.conns c).sent ++ bs <+: r.text
  | .hangup fd => ∀ c ∈ s.fds fd, (s.conns c).upstream = true →
      find blankLine (s.conns c).sent = none
  | .run ⟨.read .error, _, _⟩ =>
      ∀ id ∈ s.active, ∀ t ∈ s.view.tasks id, t.inResponse = false
  | _ => True

def plainAssume : Assume where
  arrive v fd bs := ∀ c ∈ v.fds fd, (v.conns c).upstream = true →
    ∃ r : Response, Plain r ∧ (v.conns c).sent ++ bs <+: r.text
  hangup v fd := ∀ c ∈ v.fds fd, (v.conns c).upstream = true →
    find blankLine (v.conns c).sent = none
  error v id := ∀ t ∈ v.tasks id, t.inResponse = false

theorem plainAssume_allows {s : State} {a : Act} (h : AnswersPlainly s a) :
    plainAssume.Allows s a := by
  unfold Assume.Allows
  split
  · exact h
  · exact h
  · exact fun _ _ => trivial
  · exact fun _ _ => trivial
  · exact fun id hactive => h id hactive
  · trivial

/-! ## The invariant -/

/-- Since the connection was last taken up, its upstream has sent a first piece of a plain
response, and has not closed behind a head. -/
def Conn.Fair (k : Conn) : Prop :=
  k.upstream = true → k.got ++ k.rx = k.sent ∧
    (k.sent = [] ∨ ∃ r : Response, Plain r ∧ k.sent <+: r.text) ∧
    (k.fin = true → find blankLine k.sent = none)

/-- One response has been read to its end, and nothing is left. -/
def Conn.Clean (k : Conn) : Prop := ∃ r : Response, Plain r ∧ k.got = r.text ∧ k.rx = []

/-- Pooled connections are clean. -/
structure Hygienic (v : View) : Prop where
  reading : Reading v
  fair : ∀ c, (v.conns c).Fair
  pooled : ∀ key fd c, fd ∈ v.pools key → v.fds fd = some c → (v.conns c).Clean

theorem Conn.Fair.new (upstream : Bool) : Conn.Fair { upstream := upstream } :=
  fun _ => ⟨rfl, .inl rfl, fun h => by cases h⟩

theorem Conn.Clean.isOpen {k : Conn} (hclean : k.Clean) (hfair : k.Fair)
    (hup : k.upstream = true) : k.fin = false := by
  obtain ⟨r, -, hgot, hrx⟩ := hclean
  obtain ⟨hbooks, -, hfin⟩ := hfair hup
  rw [Bool.eq_false_iff]
  intro hclosed
  obtain ⟨pos, hpos, -⟩ := r.head.text_isFrame
  have hfound : find blankLine k.sent = some pos := by
    rw [← hbooks, hrx, append_nil, hgot]
    exact find_append r.body hpos
  rw [hfin hclosed] at hfound
  cases hfound

theorem Conn.Clean.quiet {k : Conn} {bs : Bytes} (hclean : k.Clean) (hfair : k.Fair)
    (hup : k.upstream = true) (hr : Plain r) (hpre : k.sent ++ bs <+: r.text) : bs = [] := by
  obtain ⟨r', hr', hgot, hrx⟩ := hclean
  have hsent : k.sent = r'.text := by rw [← (hfair hup).1, hrx, append_nil, hgot]
  exact hr.maximal hr' (hsent ▸ hpre)

namespace Hygienic

variable {v w : View} {id : ConnId} {t : Task}

theorem init : Hygienic .init where
  reading := .init
  fair _ := .new false
  pooled _ _ _ h := by cases h

theorem frame (h : Hygienic v) (hreading : Reading w) (hconns : w.conns = v.conns)
    (hfds : ∀ fd c, w.fds fd = some c → v.fds fd = some c)
    (hpools : ∀ key fd, fd ∈ w.pools key → fd ∈ v.pools key) : Hygienic w where
  reading := hreading
  fair := hconns ▸ h.fair
  pooled key fd c hpool hfd := by
    rw [hconns]
    exact h.pooled key fd c (hpools key fd hpool) (hfds fd c hfd)

variable {c : ConnId}

theorem frameConn (h : Hygienic v) (hreading : Reading w) (hfair : (w.conns c).Fair)
    (hconns : ∀ d, d ≠ c → w.conns d = v.conns d)
    (hpools : ∀ key fd d, fd ∈ w.pools key → w.fds fd = some d →
      d ≠ c ∧ fd ∈ v.pools key ∧ v.fds fd = some d) : Hygienic w where
  reading := hreading
  fair d := by
    by_cases hd : d = c
    · exact hd ▸ hfair
    · rw [hconns d hd]
      exact h.fair d
  pooled key fd d hpool hfd := by
    obtain ⟨hne, hold, hfd⟩ := hpools key fd d hpool hfd
    rw [hconns d hne]
    exact h.pooled key fd d hold hfd

theorem not_ended (h : Hygienic v) (hid : v.tasks id = some t) {fd : Fd} (hfd : v.fds fd = some c)
    (hup : (v.conns c).upstream = true) (hin : t.inResponse = true)
    (hhead : (find blankLine (v.conns c).got).isSome) : ¬ v.Ended plainAssume id fd := by
  rintro (⟨⟨d, hd, -, hfin⟩, -⟩ | herror)
  · obtain rfl : c = d := Option.some.inj (hfd.symm.trans hd)
    obtain ⟨hbooks, -, hclosed⟩ := h.fair c hup
    obtain ⟨pos, hpos⟩ := Option.isSome_iff_exists.mp hhead
    have hfound := find_append (v.conns c).rx hpos
    rw [hbooks, hclosed hfin] at hfound
    cases hfound
  · rw [herror t hid] at hin
    cases hin

theorem complete (h : Hygienic v) (hid : v.tasks id = some t) {fd : Fd}
    (hup : t.pc.upFd = some fd) (hfd : v.fds fd = some c)
    (hcomplete : Complete plainAssume v id t.pc) : (v.conns c).Clean := by
  have hkind : (v.conns c).upstream = true := by
    obtain ⟨d, hd, hkind⟩ := h.reading.placed.held id fd (by rw [Placed.held_of_task hid, hup])
    obtain rfl : c = d := Option.some.inj (hfd.symm.trans hd)
    exact hkind
  have hgot := h.reading.taken id t fd c hid hup hfd
  have hsound := h.reading.sound id t hid
  obtain ⟨hbooks, hsent, -⟩ := h.fair c hkind
  have htaken : t.pc.taken <+: (v.conns c).sent := hgot ▸ hbooks ▸ prefix_append _ _
  have hhead := hcomplete.has_head hsound
  obtain ⟨r, hr, hpre⟩ : ∃ r : Response, Plain r ∧ (v.conns c).sent <+: r.text := by
    refine hsent.resolve_left fun hnil => ?_
    rw [hnil, prefix_nil] at htaken
    rw [htaken] at hhead
    cases hhead
  have hopen {u : Pc} (hu : t.pc = u) (hin : (Task.mk t.client u t.index).inResponse = true) :
      ¬ v.Ended plainAssume id fd := by
    refine h.not_ended hid hfd hkind ?_ (hgot ▸ hhead)
    rw [← hin, ← hu]
  have hall : t.pc.taken = r.text → (v.conns c).Clean := by
    intro heq
    refine ⟨r, hr, hgot.trans heq, ?_⟩
    rw [← hbooks, hgot, heq] at hpre
    have hle := hpre.length_le
    rw [length_append] at hle
    exact eq_nil_of_length_eq_zero (by omega)
  have hread : t.pc.taken <+: r.head.text ++ r.body := htaken.trans hpre
  rcases hr.framed with ⟨hlacks, hsizes⟩ | ⟨hnames, hframe, hcap⟩
  · obtain ⟨body, htext, hcase⟩ := hcomplete.sized_response hsound hup hread hlacks hsizes
    rw [htext, prefix_append_right_inj] at hread
    have hle := hread.length_le
    rcases hcase with hlen | ⟨hlt, -⟩ | ⟨-, hend, x, a, b, hpc⟩
    · exact hall (by rw [htext, hread.eq_of_length hlen, Response.text])
    · omega
    · exact absurd hend (hopen hpc rfl)
  · obtain ⟨body, htext, hcase⟩ := hcomplete.chunked_response hsound hup hread hnames.isChunked
    rw [htext, prefix_append_right_inj] at hread
    have hle := hread.length_le
    rcases hcase with hfound | hlong | ⟨hend, x, a, hpc⟩
    · exact hall (by rw [htext, hframe.eq_of_prefix_of_find hread hfound, Response.text])
    · omega
    · exact absurd hend (hopen hpc rfl)

theorem move {cfg : Config} {v' : View} (h : Hygienic v) (hmove : Move cfg plainAssume v v') :
    Hygienic v' := by
  have hreading := h.reading.move hmove
  have hplaced := h.reading.placed
  -- no descriptor in a pool is that of a connection still to be opened
  have hold {key : Bytes} {fd g : Fd} {d : ConnId} (hg : v.fds g = none) (hpool : fd ∈ v.pools key)
      (hfd : update v.fds g (some v.opened) fd = some d) :
      d ≠ v.opened ∧ fd ∈ v.pools key ∧ v.fds fd = some d := by
    obtain ⟨c, hc, -⟩ := hplaced.pooled key fd hpool
    have hne : fd ≠ g := by
      rintro rfl
      rw [hg] at hc
      cases hc
    rw [update_of_ne hne] at hfd
    exact ⟨Nat.ne_of_lt (hplaced.below fd d hfd), hpool, hfd⟩
  cases hmove with
  | @arrive fd c bs hfd hne hopen hA =>
    by_cases hup : (v.conns c).upstream = true
    · obtain ⟨r, hr, hpre⟩ := hA c hfd hup
      refine h.frameConn hreading (c := c) ?_ (fun d hd => by simp [hd]) ?_
      · intro _
        obtain ⟨hbooks, -, -⟩ := h.fair c hup
        refine ⟨?_, .inr ⟨r, hr, by simpa using hpre⟩, fun hfin => ?_⟩
        · simpa using congrArg (· ++ bs) hbooks
        · simp [hopen] at hfin
      · intro key g d hpool hg
        refine ⟨?_, hpool, hg⟩
        rintro rfl
        exact hne ((h.pooled key g d hpool hg).quiet (h.fair d) hup hr hpre)
    · refine h.frameConn hreading (c := c) ?_ (fun d hd => by simp [hd]) ?_
      · intro hup'
        simp [hup] at hup'
      · intro key g d hpool hg
        refine ⟨?_, hpool, hg⟩
        rintro rfl
        obtain ⟨e, he, hkind⟩ := hplaced.pooled key g hpool
        obtain rfl : d = e := Option.some.inj (hg.symm.trans he)
        exact hup hkind
  | @hangup fd c hfd hA =>
    refine ⟨hreading, fun d => ?_, fun key g d hpool hg => ?_⟩
    · by_cases hd : d = c
      · subst hd
        intro hup
        have hup : (v.conns d).upstream = true := by simpa using hup
        obtain ⟨hbooks, hsent, -⟩ := h.fair d hup
        exact ⟨by simpa using hbooks, by simpa using hsent, by simpa using hA d hfd hup⟩
      · simpa [hd] using h.fair d
    · by_cases hd : d = c
      · subst hd
        simpa [Conn.Clean] using h.pooled key g d hpool hg
      · simpa [hd] using h.pooled key g d hpool hg
  | spawn fd hfd hlisten =>
    refine h.frameConn hreading (c := v.opened) ?_ (fun d hd => by simp [hd])
      (fun key g d hpool hg => hold hfd hpool hg)
    simpa using Conn.Fair.new false
  | discard hid =>
    refine h.frame hreading rfl (fun g d hg => ?_) (fun _ _ hpool => hpool)
    simp only [View.reap_fds, View.close_fds, update_apply,
      Option.ite_none_left_eq_some] at hg
    exact hg.2
  | reap keep => exact h.frame hreading rfl (fun _ _ hg => hg) (fun _ _ hpool => hpool)
  | stop =>
    refine h.frame hreading rfl (fun g d hg => ?_) (fun _ _ hpool => by cases hpool)
    simp only [View.stop_fds, Option.ite_none_left_eq_some] at hg
    exact hg.2
  | turn hid hturn => exact h.frame hreading rfl (fun _ _ hg => hg) (fun _ _ hpool => hpool)
  | @read id t fd c bs hid hsrc hfd hne hlimit hrx hA =>
    refine h.frameConn hreading (c := c) ?_ (fun d hd => by simp [hd]) ?_
    · intro hup
      obtain ⟨hbooks, hsent, hclosed⟩ := h.fair c (by simpa using hup)
      obtain ⟨rest, hrest⟩ := hrx
      refine ⟨?_, by simpa using hsent, by simpa using hclosed⟩
      simp only [View.set_conns, View.setConn_conns, update_self]
      rw [← hbooks, ← hrest, drop_left, append_assoc]
    · intro key g d hpool hg
      refine ⟨?_, hpool, hg⟩
      rintro rfl
      obtain rfl := hplaced.inj fd g d hfd hg
      exact hplaced.source_notMem hid hsrc key hpool
  | write hid | next hid | start hid =>
    exact h.frame hreading rfl (fun _ _ hg => hg) (fun _ _ hpool => hpool)
  | @reuse id t x a fd rest hid hpc hpool =>
    have hmem : fd ∈ v.pools x.route.key := hpool ▸ mem_cons_self
    obtain ⟨c, hfd, -⟩ := hplaced.pooled _ fd hmem
    obtain ⟨-, -, hidle⟩ := hplaced.lease.unshelve hpool
    obtain ⟨r, -, -, hrx⟩ := h.pooled _ fd c hmem hfd
    refine h.frameConn hreading (c := c) ?_ (fun d hd => by simp [hfd, Ne.symm hd]) ?_
    · -- the next round starts with nothing sent and nothing to be read
      intro _
      simp [hfd, hrx, find, blankLine]
    · intro key g d hpool' hg
      have hg : v.fds g = some d := hg
      refine ⟨?_, ?_, hg⟩
      · rintro rfl
        obtain rfl := hplaced.inj fd g d hfd hg
        exact hidle key (by simpa using hpool')
      · by_cases hkey : key = x.route.key
        · subst hkey
          rw [hpool]
          exact mem_cons_of_mem _ (by simpa using hpool')
        · simpa [hkey] using hpool'
  | connect hid hpc hfd =>
    refine h.frameConn hreading (c := v.opened) ?_ (fun d hd => by simp [hd])
      (fun key g d hpool hg => hold hfd hpool hg)
    simpa using Conn.Fair.new true
  | fail a hid hx hup | overflow hid hx hup =>
    refine h.frame hreading rfl (fun g d hg => ?_) (fun _ _ hpool => hpool)
    simp only [View.set_fds, View.close_fds, update_apply,
      Option.ite_none_left_eq_some] at hg
    exact hg.2
  | @release id t x fd hid hx hup hcomplete =>
    refine ⟨hreading, h.fair, fun key g d hpool hg => ?_⟩
    have hcases : g ∈ v.pools key ∨ g = fd := by
      by_cases hkey : key = x.route.key
      · subst hkey
        simpa using hpool
      · exact .inl (by simpa [hkey] using hpool)
    rcases hcases with hpool | rfl
    · exact h.pooled key g d hpool hg
    · exact h.complete hid hup hg hcomplete

end Hygienic

/-! ## Concrete runs -/

def okHead (fields : List Field) : Head :=
  headOf "HTTP/1.1" "200" "OK" fields (by decide +kernel)

def okResponse : Response where
  head := okHead [fieldOf "Content-Length" " 0" (by decide +kernel)]
  body := []
  delimited := .inl ⟨by decide,
    ⟨_, ⟨[], [], rfl, rfl, by simp⟩,
      ascii " ", ascii "0", [], rfl, all_iff_forall_prop.mp rfl,
      all_iff_forall_prop.mp rfl, by decide, by simp, rfl⟩, by decide⟩

theorem okResponse_plain : Plain okResponse where
  stays := by
    rintro ⟨f, hf, hnamed, -⟩
    obtain rfl := mem_singleton.mp hf
    exact absurd hnamed (by decide)
  framed := .inl ⟨by decide, okResponse.sizes_of_lacks (by decide)⟩

def answered : List Act :=
  acceptClient ++
    [.arrive 4 getRequest.text, .reads getRequest.text, .connects 5,
      .writes (forwardText getRequest).length, .arrive 5 okResponse.text, .reads okResponse.text]

def bareHead : Bytes := ascii "HTTP/1.1 200 OK" ++ blankLine

def closeDelimited : List Act :=
  acceptClient ++
    [.arrive 4 getRequest.text, .reads getRequest.text, .connects 5,
      .writes (forwardText getRequest).length, .arrive 5 bareHead, .reads bareHead, .hangup 5,
      .run { call := .read .eof }]

/-! ## The property -/

/-- **The pools are clean.** In every run in which the upstreams answer plainly, each descriptor in
a pool is a connection that its upstream has not closed, nor announced to close, and of which one
whole response has been read and nothing is left to be read; and what is read from an upstream is
what it has sent since the connection was last taken for a request. -/
theorem pool_hygiene {cfg : Config} {acts : List Act} {s : State}
    (hmeets : Meets (step cfg) AnswersPlainly .init acts)
    (hrun : exec (step cfg) .init acts = some s) :
    (∀ key, ∀ fd ∈ s.pools key, ∃ c, s.fds fd = some c ∧ (s.conns c).upstream = true ∧
      (s.conns c).fin = false ∧ (s.conns c).rx = [] ∧
      ∃ r : Response, (s.conns c).got = r.text ∧ ¬ r.AnnouncesClose) ∧
    ∀ c, (s.conns c).upstream = true → (s.conns c).got ++ (s.conns c).rx = (s.conns c).sent := by
  have hhygienic : Hygienic s.view :=
    run_invariant Hygienic.init (fun _ _ h hmove => h.move hmove)
      (hmeets.mono fun _ _ => plainAssume_allows) hrun
  refine ⟨fun key fd hpool => ?_, fun c hup => (hhygienic.fair c hup).1⟩
  obtain ⟨c, hfd, hup⟩ := hhygienic.reading.placed.pooled key fd hpool
  have hclean := hhygienic.pooled key fd c hpool hfd
  have hopen := hclean.isOpen (hhygienic.fair c) hup
  obtain ⟨r, hr, hgot, hrx⟩ := hclean
  exact ⟨c, hfd, hup, hopen, hrx, r, hgot, hr.stays⟩

def answersOk (s : State) : Act → Bool
  | .arrive fd bs => decide (∀ c ∈ s.fds fd, (s.conns c).upstream = true →
      (s.conns c).sent ++ bs <+: okResponse.text)
  | .hangup _ => false
  | .run ⟨.read .error, _, _⟩ => false
  | _ => true

theorem answersPlainly_of_answersOk {s : State} {a : Act} (h : answersOk s a = true) :
    AnswersPlainly s a := by
  unfold AnswersPlainly
  split
  · exact fun c hc hup => ⟨okResponse, okResponse_plain, of_decide_eq_true h c hc hup⟩
  · exact absurd h Bool.false_ne_true
  · exact absurd h Bool.false_ne_true
  · trivial

theorem pool_hygiene_answered :
    ∃ s ∈ exec (step .sample) .init answered,
      5 ∈ s.pools (upstreamKey (ascii "up") 80) ∧
        ∃ c, s.fds 5 = some c ∧ (s.conns c).upstream = true ∧ (s.conns c).fin = false ∧
          (s.conns c).rx = [] ∧ ∃ r : Response, (s.conns c).got = r.text ∧ ¬ r.AnnouncesClose := by
  obtain ⟨s, hrun, hpool⟩ :
      ∃ s ∈ exec (step .sample) .init answered, 5 ∈ s.pools (upstreamKey (ascii "up") 80) := by
    decide +kernel
  have hmeets : Meets (step .sample) (fun s a => answersOk s a = true) .init answered := by
    decide +kernel
  exact ⟨s, hrun, hpool,
    (pool_hygiene (hmeets.mono fun _ _ => answersPlainly_of_answersOk) hrun).1 _ 5 hpool⟩

/-- The response is read to the end of the stream, and the connection that the upstream has just
closed is put into the pool. -/
theorem closed_connection_is_pooled :
    ∃ s ∈ exec (step .sample) .init closeDelimited,
      5 ∈ s.pools (upstreamKey (ascii "up") 80) ∧ ∃ c ∈ s.fds 5, (s.conns c).fin = true := by
  decide +kernel

end Muses.Proxy
