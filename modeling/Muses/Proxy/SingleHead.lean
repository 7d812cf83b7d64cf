import Muses.Proxy.RoundTrip
import Muses.Proxy.Forwarding

/-!
# One request in, one request out

The parser runs on everything that was read, and it cuts the method and the URL at blanks, not at
the ends of lines. If the two blanks of a request line do not come before the first empty line, the
empty line gets into the method or the URL, and the text that is sent upstream has its first empty
line there: the upstream sees a request that ends early, and another one behind it.
-/

namespace Muses.Proxy

open Muses.Core Text Search HttpContext Http Function List

/-! ## Two words before the empty line -/

def wordsFirst (text : Bytes) : Bool :=
  match find blankLine text with
  | some pos => decide (2 ≤ (text.take pos).count 32)
  | none => true

theorem exists_words {text : Bytes} {pos : Nat} (hpos : find blankLine text = some pos)
    (hwords : wordsFirst text = true) :
    ∃ method url rest, text.take pos = method ++ 32 :: (url ++ 32 :: rest) ∧ 32 ∉ method ∧
      32 ∉ url := by
  have hcount : 2 ≤ (text.take pos).count 32 := by simpa [wordsFirst, hpos] using hwords
  have hcut (bs : Bytes) (hbs : 0 < bs.count 32) :
      ∃ word rest, bs = word ++ 32 :: rest ∧ 32 ∉ word := by
    rcases Option.eq_none_or_eq_some (cut 32 bs) with hnone | ⟨⟨word, rest⟩, hsome⟩
    · exact absurd (count_pos_iff.mp hbs) (cut_eq_none_iff.mp hnone)
    · exact ⟨word, rest, cut_eq_some_iff.mp hsome⟩
  obtain ⟨method, behind, hmethod, hm⟩ := hcut (text.take pos) (by omega)
  rw [hmethod, count_append, count_cons_self, count_eq_zero.mpr hm] at hcount
  obtain ⟨url, rest, hurl, hu⟩ := hcut behind (by omega)
  exact ⟨method, url, rest, by rw [hmethod, hurl], hm, hu⟩

theorem parseRequest_words {method url : Bytes} (rest : Bytes) (hmethod : 32 ∉ method)
    (hurl : 32 ∉ url) :
    (parseRequest (method ++ 32 :: (url ++ 32 :: rest))).method = method ∧
      (parseRequest (method ++ 32 :: (url ++ 32 :: rest))).url = url := by
  unfold parseRequest
  rw [InStream.getline_of_notMem _ hmethod]
  simp only [InStream.getline_of_notMem _ hurl]
  split <;> exact ⟨rfl, rfl⟩

/-- **With its words first, a head is rewritten to one that ends at its first empty line.** -/
theorem isFrame_fwdHead_parse {head : Bytes} {pos : Nat} (hpos : find blankLine head = some pos)
    (hwords : wordsFirst head = true) : IsFrame blankLine (fwdHead (parseRequest head)) := by
  obtain ⟨method, url, rest, htake, hm, hu⟩ := exists_words hpos hwords
  have hhead : head = method ++ 32 :: (url ++ 32 :: (rest ++ head.drop pos)) := by
    conv_lhs => rw [← take_append_drop pos head, htake]
    simp
  have hlen : method.length + (url.length + rest.length + 1) + 1 ≤ pos := by
    have hle := length_take_le pos head
    simp only [htake, length_append, length_cons] at hle
    omega
  have hblank : (32 : UInt8) ∉ blankLine := by decide
  -- an empty line in one of the words would be the first one of the head
  have hmethod : find blankLine method = none := by
    refine Option.eq_none_iff_forall_ne_some.mpr fun i hi => ?_
    have hfirst := find_append (32 :: (url ++ 32 :: (rest ++ head.drop pos))) hi
    rw [← hhead, hpos, Option.some.injEq] at hfirst
    have := find_add_length_le hi
    omega
  have hurl : find blankLine url = none := by
    refine Option.eq_none_iff_forall_ne_some.mpr fun i hi => ?_
    have hfirst := find_append_of_separator (url ++ 32 :: (rest ++ head.drop pos)) hblank hmethod
    rw [← hhead, hpos, find_append _ hi, Option.map_some, Option.some.injEq] at hfirst
    have := find_add_length_le hi
    omega
  obtain ⟨hm', hu'⟩ := parseRequest_words (rest ++ head.drop pos) hm hu
  rw [← hhead] at hm' hu'
  exact isFrame_fwdHead (parseRequest_readable head) (hm' ▸ hmethod) (hu' ▸ hurl)

/-! ## What is assumed -/

def Task.putsWordsFirst (t : Task) (bs : Bytes) : Bool :=
  match t.pc with
  | .readHead buf => wordsFirst (buf ++ bs)
  | _ => true

/-- In each head that the client of `k` sends, two blanks come before the first empty line. -/
def PutsWordsFirst (k : ConnId) (s : State) : Act → Prop
  | .run ⟨.read (.data bs), _, _⟩ =>
      s.active = some k → ∀ t ∈ s.view.tasks k, t.putsWordsFirst bs = true
  | _ => True

instance (k : ConnId) (s : State) (a : Act) : Decidable (PutsWordsFirst k s a) := by
  unfold PutsWordsFirst
  induction a using Act.casesOn with
  | run io =>
    induction io using Io.casesOn with
    | mk call =>
      induction call using Call.casesOn with
      | read r => induction r using World.ReadResult.casesOn <;> infer_instance
      | _ => infer_instance
  | _ => infer_instance

def wordsAssume (k : ConnId) : Assume where
  read v id bs := id = k → ∀ t ∈ v.tasks k, t.putsWordsFirst bs = true

theorem wordsAssume_allows {k : ConnId} {s : State} {a : Act} (h : PutsWordsFirst k s a) :
    (wordsAssume k).Allows s a := by
  unfold Assume.Allows
  split
  · trivial
  · trivial
  · rintro id hactive rfl
    exact h hactive
  · exact fun _ _ => trivial
  · exact fun _ _ => trivial
  · trivial

/-! ## The invariant -/

/-- The text has the head that is made of `info`, and its blank line ends it. -/
def OneHead (info : HttpInfo) (text : Bytes) : Prop :=
  (∃ head, info = parseRequest head) ∧ IsFrame blankLine (fwdHead info) ∧
    ∃ body, text = fwdRequest info body

/-- What is sent upstream has one head. -/
def Pc.Single : Pc → Prop
  | .readHead buf => wordsFirst buf = true
  | .readBody info _ _ _ => OneHead info (fwdHead info)
  | pc => ∀ x, pc.exchange = some x → OneHead x.info x.fwd

/-- What holds of client `k`: its coroutine is in order, every attempt has written a first piece of
such a text, and the newest attempt what its coroutine thinks it has. -/
structure Single (k : ConnId) (v : View) : Prop where
  task : ∀ t, v.tasks k = some t → t.pc.Single
  log : ∀ g ∈ v.forwards k, ∃ info text, OneHead info text ∧ g.text <+: text
  newest : ∀ t, v.tasks k = some t → ∀ w, t.pc.written = some w →
    ∃ g gs, v.forwards k = g :: gs ∧ g.text = w

section Single

variable {k : ConnId} {v v' : View} {id : ConnId} {t t' : Task} {pc pc' : Pc} {x : Exchange}

theorem Pc.Single.exchange (h : pc.Single) (hx : pc.exchange = some x) : OneHead x.info x.fwd := by
  cases pc with
  | readHead | readBody => cases hx
  | _ => exact h x hx

theorem Pc.Single.advance (h : pc.Single) (hx : pc.exchange = some x)
    (hx' : pc'.exchange = some x) : pc'.Single := by
  have hexchange := h.exchange hx
  cases pc' with
  | readHead | readBody => cases hx'
  | _ =>
    intro y hy
    rw [hx', Option.some.injEq] at hy
    exact hy ▸ hexchange

theorem Pc.Single.turn {A : Assume} (h : t.pc.Single) (hturn : Turn A v id t pc) : pc.Single := by
  cases hturn with
  | finish | refuse =>
    intro x hx
    cases hx
  | wantBody hpc hpos =>
    rw [hpc] at h
    exact ⟨⟨_, rfl⟩, isFrame_fwdHead_parse hpos h, [], (append_nil _).symm⟩
  | routeHead route hpc hpos =>
    rw [hpc] at h
    rintro x hx
    cases hx
    exact ⟨⟨_, rfl⟩, isFrame_fwdHead_parse hpos h, _, rfl⟩
  | routeBody route hpc =>
    rw [hpc] at h
    rintro x hx
    cases hx
    exact ⟨h.1, h.2.1, _, rfl⟩
  | retry a' hpc | written hpc | plan hpc | nextPart hpc | answer off' hpc =>
    rw [hpc] at h
    exact h.advance rfl rfl

theorem Pc.Single.push {fd : Fd} {bs : Bytes} (h : t.pc.Single)
    (hsrc : t.pc.source t.client = some fd) (hwords : t.putsWordsFirst bs = true) :
    (t.pc.push bs).Single := by
  cases hpc : t.pc with
  | readHead buf =>
    have hbuf : wordsFirst (buf ++ bs) = true := by simpa [Task.putsWordsFirst, hpc] using hwords
    exact hbuf
  | readBody info body want buf =>
    rw [hpc] at h
    exact h
  | readUpHead | readUp =>
    rw [hpc] at h
    exact h.advance rfl rfl
  | _ =>
    rw [hpc] at hsrc
    cases hsrc

theorem Single.init (k : ConnId) : Single k .init := ⟨nofun, nofun, nofun⟩

theorem Single.frame (h : Single k v) (htask : ∀ t, v'.tasks k = some t → v.tasks k = some t)
    (hlog : v'.forwards k = v.forwards k) : Single k v' where
  task t ht := h.task t (htask t ht)
  log := hlog ▸ h.log
  newest t ht := hlog ▸ h.newest t (htask t ht)

theorem Single.coroutine (h : Single k v) {w : View} (htasks : w.tasks = v.tasks)
    (hforwards : ∀ j, j ≠ id → w.forwards j = v.forwards j)
    (hown : id = k → t'.pc.Single ∧
      (∀ g ∈ w.forwards k, ∃ info text, OneHead info text ∧ g.text <+: text) ∧
      ∀ u, t'.pc.written = some u → ∃ g gs, w.forwards k = g :: gs ∧ g.text = u) :
    Single k (w.set id t') := by
  by_cases hk : id = k
  · subst hk
    obtain ⟨htask, hlog, hnewest⟩ := hown rfl
    refine ⟨fun u hu => ?_, hlog, fun u hu => ?_⟩
    all_goals
      obtain rfl : t' = u := by simpa using hu
      assumption
  · refine h.frame (fun u hu => ?_) (hforwards k (Ne.symm hk))
    rw [View.set_tasks, update_of_ne (Ne.symm hk), htasks] at hu
    exact hu

theorem Single.goes (h : Single k v) (hid : v.tasks id = some t) {w : View}
    (htasks : w.tasks = v.tasks) (hforwards : w.forwards = v.forwards)
    (hsingle : id = k → t'.pc.Single)
    (hwritten : t'.pc.written = none ∨ t'.pc.written = t.pc.written) : Single k (w.set id t') := by
  refine h.coroutine htasks (fun _ _ => by rw [hforwards]) ?_
  rintro rfl
  refine ⟨hsingle rfl, hforwards ▸ h.log, fun u hu => ?_⟩
  rcases hwritten with hnone | hsame
  · rw [hnone] at hu
    cases hu
  · rw [hforwards]
    exact h.newest t hid u (hsame ▸ hu)

theorem Single.move {cfg : Config} (h : Single k v) (hmove : Move cfg (wordsAssume k) v v') :
    Single k v' := by
  cases hmove with
  | arrive | hangup | stop => exact h.frame (fun _ ht => ht) rfl
  | spawn fd hfd =>
    by_cases hk : k = v.opened
    · subst hk
      have htask {u : Task} (hu : ((v.openConn fd false).set v.opened
          ⟨fd, .readHead [], 0⟩).tasks v.opened = some u) : (⟨fd, .readHead [], 0⟩ : Task) = u := by
        simpa using hu
      refine ⟨fun u hu => ?_, h.log, fun u hu w hw => ?_⟩
      · rw [← htask hu]
        exact (rfl : wordsFirst [] = true)
      · rw [← htask hu] at hw
        cases hw
    · exact h.frame (fun t ht => by simpa [hk] using ht) rfl
  | discard hid | reap keep =>
    refine h.frame (fun t ht => ?_) rfl
    simp only [View.reap_tasks, Option.ite_none_right_eq_some] at ht
    exact ht.2
  | turn hid hturn =>
    exact h.goes hid rfl rfl (fun hk => (h.task _ (hk ▸ hid)).turn hturn) hturn.written_eq
  | @read id t fd c bs hid hsrc hfd hne hlimit hrx hA =>
    refine h.goes hid rfl rfl (fun hk => ?_) (.inr (Pc.written_push bs t.pc))
    exact (h.task t (hk ▸ hid)).push hsrc (hA hk t (hk ▸ hid))
  | @write id t x a fd off n hid hpc hn =>
    refine h.coroutine rfl (fun j hj => by simp [hj]) ?_
    rintro rfl
    have hsingle := h.task t hid
    rw [hpc] at hsingle
    obtain ⟨g, gs, hlog, htext⟩ := h.newest t hid (x.fwd.take off) (by rw [hpc]; rfl)
    have hext : Forward.extend ((x.fwd.drop off).take n) (v.forwards id) =
        { g with text := x.fwd.take (off + n) } :: gs := by
      rw [hlog, Forward.extend, htext, take_add]
    rw [View.setForwards_forwards, update_self, hext]
    refine ⟨hsingle.advance rfl rfl, fun g' hg' => ?_, fun w hw =>
      ⟨_, gs, rfl, Option.some.inj hw⟩⟩
    rcases mem_cons.mp hg' with rfl | hg'
    · exact ⟨x.info, x.fwd, hsingle.exchange rfl, take_prefix _ _⟩
    · exact h.log g' (hlog ▸ mem_cons_of_mem g hg')
  | next hid hpc => exact h.goes hid rfl rfl (fun _ => (rfl : wordsFirst [] = true)) (.inl rfl)
  | reuse hid hpc | connect hid hpc =>
    refine h.goes hid rfl rfl (fun hk => ?_) (.inl rfl)
    have hsingle := h.task _ (hk ▸ hid)
    rw [hpc] at hsingle
    exact hsingle.advance rfl rfl
  | @start id t x a fd hid hpc =>
    refine h.coroutine rfl (fun j hj => by simp [hj]) ?_
    rintro rfl
    have hsingle := h.task t hid
    rw [hpc] at hsingle
    rw [View.setForwards_forwards, update_self]
    refine ⟨hsingle.advance rfl rfl, fun g hg => ?_, fun w hw => ⟨_, _, rfl, Option.some.inj hw⟩⟩
    rcases mem_cons.mp hg with rfl | hg
    · exact ⟨x.info, x.fwd, hsingle.exchange rfl, nil_prefix⟩
    · exact h.log g hg
  | fail a hid hx hup =>
    exact h.goes hid rfl rfl (fun hk => (h.task _ (hk ▸ hid)).advance hx rfl) (.inl rfl)
  | release hid hx hup hcomplete | overflow hid hx hup hcomplete =>
    refine h.goes hid rfl rfl (fun hk => (h.task _ (hk ▸ hid)).advance hx rfl) (.inr ?_)
    exact (hcomplete.written hx).symm

end Single

/-! ## The property -/

theorem OneHead.find_blankLine {info : HttpInfo} {text : Bytes} (h : OneHead info text) :
    find blankLine text = some ((fwdHead info).length - 4) := by
  obtain ⟨-, ⟨i, hi, hlen⟩, body, rfl⟩ := h
  have hblank : blankLine.length = 4 := rfl
  rw [fwdRequest, find_append body hi, Option.some.injEq]
  omega

/-- **One client request yields one upstream request.** In every run in which the heads that client
`k` sends have two blanks before their first empty line: the text that its coroutine sends on is one
rewritten head, made of the parse of some bytes, and a body, and its first empty line is the one
that ends that head; and every attempt has written a first piece of such a text. -/
theorem one_request_one_head {cfg : Config} {k : ConnId} {acts : List Act} {s : State}
    (hwords : Meets (step cfg) (PutsWordsFirst k) .init acts)
    (hrun : exec (step cfg) .init acts = some s) :
    (∀ f x, s.frames k = some f → f.pc.exchange = some x →
      (∃ head body, x.info = parseRequest head ∧ x.fwd = fwdRequest (parseRequest head) body) ∧
        find blankLine x.fwd = some ((fwdHead x.info).length - 4)) ∧
    ∀ g ∈ s.forwards k, ∃ head body, g.text <+: fwdRequest (parseRequest head) body ∧
      find blankLine (fwdRequest (parseRequest head) body) =
        some ((fwdHead (parseRequest head)).length - 4) := by
  have hsingle : Single k s.view :=
    run_invariant (Single.init k) (fun _ _ h hmove => h.move hmove)
      (hwords.mono fun _ _ => wordsAssume_allows) hrun
  refine ⟨fun f x hf hx => ?_, fun g hg => ?_⟩
  · have hone := (hsingle.task _ (tasks_view hf)).exchange hx
    have hfind := hone.find_blankLine
    obtain ⟨⟨head, hinfo⟩, -, body, hfwd⟩ := hone
    exact ⟨⟨head, body, hinfo, hinfo ▸ hfwd⟩, hfind⟩
  · obtain ⟨info, text, hone, hpre⟩ := hsingle.log g hg
    have hfind := hone.find_blankLine
    obtain ⟨⟨head, rfl⟩, -, body, rfl⟩ := hone
    exact ⟨head, body, hpre, hfind⟩

/-- A request with a body comes in two pieces, the second of them in the middle of the body, and
everything that is made of it is written. -/
def comesInTwo : List Act :=
  acceptClient ++ [.arrive 4 postRequest.text, .reads (postRequest.text.take 39),
    .reads (postRequest.text.drop 39), .connects 5, .writes (forwardText postRequest).length]

theorem one_request_one_head_comesInTwo :
    ∃ s ∈ exec (step .sample) .init comesInTwo,
      s.forwards 0 = [⟨0, forwardText postRequest⟩] ∧
      ∀ g ∈ s.forwards 0, ∃ head body, g.text <+: fwdRequest (parseRequest head) body ∧
        find blankLine (fwdRequest (parseRequest head) body) =
          some ((fwdHead (parseRequest head)).length - 4) := by
  obtain ⟨s, hrun, hlog⟩ : ∃ s ∈ exec (step .sample) .init comesInTwo,
      s.forwards 0 = [⟨0, forwardText postRequest⟩] := by decide +kernel
  exact ⟨s, hrun, hlog, (one_request_one_head (by decide +kernel) hrun).2⟩

def emptyLineFirst : Bytes := ascii "GET" ++ blankLine ++ getRequest.text

def smuggled : Bytes := fwdRequest (parseRequest emptyLineFirst) getRequest.text

def sendsEmptyLineFirst : List Act :=
  acceptClient ++ [.arrive 4 emptyLineFirst, .reads emptyLineFirst, .connects 5,
    .writes smuggled.length]

/-- The method that is parsed is `GET`, an empty line and `GET`. The upstream gets the end of a head
after three letters, and a second request behind it. -/
theorem empty_line_in_method :
    ∃ s ∈ exec (step .sample) .init sendsEmptyLineFirst,
      s.forwards 0 = [⟨0, smuggled⟩] ∧ find blankLine smuggled = some 3 ∧
        (fwdHead (parseRequest emptyLineFirst)).length - 4 = 46 := by
  decide +kernel

end Muses.Proxy
