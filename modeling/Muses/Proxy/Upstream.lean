import Muses.Proxy.Ownership

/-!
# Reading a response

What a client coroutine knows about its upstream while it reads a response: the bytes it has
collected are those that have been read from the connection since the request went out, and its
place in the code fits the head among them. This holds in every run, whatever the upstream sends.
-/

namespace Muses.Proxy

open Muses.Core Text Search HttpContext Http Function

/-! ## The head decides how the body is read -/

variable {head body buf : Bytes} {h : Head} {part : Part}

theorem isChunked_of_isSized (h : isSized head = true) : isChunked head = false := by
  unfold isSized at h
  rw [Bool.and_eq_true, Bool.not_eq_true'] at h
  exact h.1

theorem isChunked_of_lacks (hlacks : h.Lacks transferEncoding) (rest : Bytes) :
    isChunked (h.text ++ rest) = false := by
  unfold isChunked
  rw [parseRequest_text, headerGet_of_lacks (by decide) hlacks]
  rfl

theorem isSized_of_lacks (hlacks : h.Lacks contentLength) (rest : Bytes) :
    isSized (h.text ++ rest) = false := by
  unfold isSized
  rw [parseRequest_text, headerGet_of_lacks (by decide) hlacks]
  simp

theorem isSized_of_sizes {n : Nat} (hlacks : h.Lacks transferEncoding) (hsizes : h.Sizes n)
    (rest : Bytes) : isSized (h.text ++ rest) = true ∧ announced (h.text ++ rest) = n := by
  obtain ⟨hne, hlen⟩ := bodyLength_of_sizes hsizes
  constructor
  · unfold isSized
    rw [isChunked_of_lacks hlacks, parseRequest_text]
    simpa using hne
  · unfold announced
    rw [parseRequest_text]
    exact hlen

/-- One `Transfer-Encoding`, and it names `chunked`. -/
def NamesChunked (h : Head) : Prop :=
  ∃ f, h.Only transferEncoding f ∧ 58 ∉ f.value ∧ (find (ascii "chunked") f.value).isSome

theorem NamesChunked.isChunked (hchunked : NamesChunked h) (rest : Bytes) :
    isChunked (h.text ++ rest) = true := by
  obtain ⟨f, honly, hcolon, hcoding⟩ := hchunked
  unfold Proxy.isChunked
  rw [parseRequest_text, headerGet_of_only (by decide) honly hcolon]
  exact find_strip (by decide) hcoding

/-! ## The place in the code -/

/-- The part that is being read, with `buf` of it in the helper's buffer, fits a head that was read
together with the bytes `body` behind it. -/
inductive Part.Fits (head body : Bytes) : Part → Bytes → Prop where
  | chunkLine {cb : Bytes} (buf : Bytes) (hchunked : isChunked head = true) (hbody : body <+: cb)
      (hlast : find lastChunk cb = none) : Fits head body (.chunkLine cb) buf
  | chunk {cb : Bytes} (buf : Bytes) (hchunked : isChunked head = true) (hbody : body <+: cb)
      (hlast : find lastChunk cb = none) : Fits head body (.chunk cb) buf
  | sized {want : Nat} {buf : Bytes} (hsized : isSized head = true)
      (hwant : body.length + want = announced head) (hbuf : buf.length ≤ want) :
      Fits head body (.sized body want) buf
  | rest {whole : Bytes} (buf : Bytes) (hchunked : isChunked head = false)
      (hsized : isSized head = false) (hbody : body <+: whole) : Fits head body (.rest whole) buf

/-- What is read of the response fits its head. -/
def Pc.Sound : Pc → Prop
  | .readUp _ _ _ resp part buf =>
      ∃ head pos, find blankLine head = some pos ∧ resp = head.take (pos + 4) ∧
        part.Fits head (head.drop (pos + 4)) buf
  | _ => True

theorem Part.Fits.body_prefix (h : part.Fits head body buf) : body <+: part.before := by
  cases h with
  | chunkLine _ _ hbody | chunk _ _ hbody | rest _ _ _ hbody => exact hbody
  | sized => exact List.prefix_refl _

theorem Plan.fits (h : Plan head body part) : part.Fits head body [] := by
  cases h with
  | chunkLine hchunked hlast => exact .chunkLine [] hchunked (List.prefix_refl _) hlast
  | chunk hchunked hlast => exact .chunk [] hchunked (List.prefix_refl _) hlast
  | sized hsized hlen => exact .sized hsized (by omega) (Nat.zero_le _)
  | rest hchunked hsized => exact .rest [] hchunked hsized (List.prefix_refl _)

theorem Part.Fits.next {part' : Part} (h : part.Fits head body buf)
    (hnext : Part.Next buf part part') : part'.Fits head body [] := by
  cases hnext with
  | @chunkLine _ cb hpart hlast =>
    rcases hpart with rfl | rfl
    · cases h with
      | chunkLine _ hchunked hbody => exact .chunkLine [] hchunked (hbody.trans ⟨buf, rfl⟩) hlast
    · cases h with
      | chunk _ hchunked hbody => exact .chunkLine [] hchunked (hbody.trans ⟨buf, rfl⟩) hlast
  | @chunk _ cb hpart hlast =>
    rcases hpart with rfl | rfl
    · cases h with
      | chunkLine _ hchunked hbody => exact .chunk [] hchunked (hbody.trans ⟨buf, rfl⟩) hlast
    · cases h with
      | chunk _ hchunked hbody => exact .chunk [] hchunked (hbody.trans ⟨buf, rfl⟩) hlast
  | rest =>
    cases h with
    | rest _ hchunked hsized hbody => exact .rest [] hchunked hsized (hbody.trans ⟨buf, rfl⟩)

theorem Part.Fits.push {bs : Bytes} (h : part.Fits head body buf)
    (hlimit : bs.length ≤ part.limit buf) : part.Fits head body (buf ++ bs) := by
  cases h with
  | chunkLine _ hchunked hbody hlast => exact .chunkLine _ hchunked hbody hlast
  | chunk _ hchunked hbody hlast => exact .chunk _ hchunked hbody hlast
  | @sized want _ hsized hwant hbuf =>
    refine .sized hsized hwant ?_
    have hfits : bs.length ≤ want - buf.length := hlimit.trans (Nat.min_le_left _ _)
    rw [List.length_append]
    omega
  | rest _ hchunked hsized hbody => exact .rest _ hchunked hsized hbody

theorem Pc.Sound.push {pc : Pc} {bs : Bytes} (h : pc.Sound) (hlimit : bs.length ≤ pc.limit) :
    (pc.push bs).Sound := by
  cases pc with
  | readUp x a fd resp part buf =>
    obtain ⟨head, pos, hpos, hresp, hfits⟩ := h
    exact ⟨head, pos, hpos, hresp, hfits.push hlimit⟩
  | _ => trivial

theorem Turn.reading {A : Assume} {v : View} {id : ConnId} {t : Task} {pc : Pc}
    (h : Turn A v id t pc) (hsound : t.pc.Sound) :
    pc.Sound ∧ (pc.upFd = none ∨ pc.taken = t.pc.taken) := by
  cases h with
  | finish | refuse | wantBody | routeHead | routeBody | retry | answer =>
    exact ⟨trivial, .inl rfl⟩
  | written hpc =>
    rw [hpc]
    exact ⟨trivial, .inr rfl⟩
  | @plan x a fd head pos part hpc hpos hplan =>
    rw [hpc]
    refine ⟨⟨head, pos, hpos, rfl, hplan.fits⟩, .inr ?_⟩
    have hbefore : part.before = head.drop (pos + 4) := by cases hplan <;> rfl
    simp [Pc.taken, hbefore]
  | @nextPart x a fd resp buf part part' hpc hnext =>
    rw [hpc] at hsound ⊢
    obtain ⟨head, pos, hpos, hresp, hfits⟩ := hsound
    refine ⟨⟨head, pos, hpos, hresp, hfits.next hnext⟩, .inr ?_⟩
    have hbefore : part'.before = part.before ++ buf := by
      cases hnext with
      | chunkLine hpart | chunk hpart => rcases hpart with rfl | rfl <;> rfl
      | rest => rfl
    simp [Pc.taken, hbefore]

/-! ## The invariant -/

/-- Each coroutine has collected what has been read from its upstream, and is where the head has
led it. -/
structure Reading (v : View) : Prop where
  placed : Placed v
  taken : ∀ id t fd c, v.tasks id = some t → t.pc.upFd = some fd → v.fds fd = some c →
    (v.conns c).got = t.pc.taken
  sound : ∀ id t, v.tasks id = some t → t.pc.Sound

namespace Reading

variable {v w : View} {id : ConnId} {t t' : Task}

theorem init : Reading .init where
  placed := .init
  taken _ _ _ _ h := by cases h
  sound _ _ h := by cases h

theorem frame (h : Reading v) (hplaced : Placed w)
    (htasks : ∀ id t, w.tasks id = some t → v.tasks id = some t)
    (hgot : ∀ id t fd c, v.tasks id = some t → t.pc.upFd = some fd → w.fds fd = some c →
      v.fds fd = some c ∧ (w.conns c).got = (v.conns c).got) : Reading w where
  placed := hplaced
  taken j u fd c hj hup hfd := by
    obtain ⟨hold, hsame⟩ := hgot j u fd c (htasks j u hj) hup hfd
    rw [hsame]
    exact h.taken j u fd c (htasks j u hj) hup hold
  sound j u hj := h.sound j u (htasks j u hj)

theorem coroutine (h : Reading v) (hplaced : Placed (w.set id t')) (htasks : w.tasks = v.tasks)
    (hothers : ∀ j u fd c, j ≠ id → v.tasks j = some u → u.pc.upFd = some fd →
      w.fds fd = some c → v.fds fd = some c ∧ (w.conns c).got = (v.conns c).got)
    (hown : ∀ fd c, t'.pc.upFd = some fd → w.fds fd = some c → (w.conns c).got = t'.pc.taken)
    (hsound : t'.pc.Sound) : Reading (w.set id t') where
  placed := hplaced
  taken j u fd c hj hup hfd := by
    by_cases hji : j = id
    · subst hji
      obtain rfl : t' = u := by simpa using hj
      exact hown fd c hup hfd
    · have hj : v.tasks j = some u := by simpa [hji, htasks] using hj
      obtain ⟨hold, hsame⟩ := hothers j u fd c hji hj hup hfd
      exact hsame.trans (h.taken j u fd c hj hup hold)
  sound j u hj := by
    by_cases hji : j = id
    · subst hji
      obtain rfl : t' = u := by simpa using hj
      exact hsound
    · exact h.sound j u (by simpa [hji, htasks] using hj)

theorem apart (h : Placed v) {j : ConnId} {u : Task} {fd g : Fd} {c d : ConnId} (hji : j ≠ id)
    (hid : v.tasks id = some t) (hup : t.pc.upFd = some fd) (hfd : v.fds fd = some c)
    (hj : v.tasks j = some u) (hup' : u.pc.upFd = some g) (hg : v.fds g = some d) : d ≠ c := by
  rintro rfl
  obtain rfl := h.inj g fd d hg hfd
  refine hji (h.lease.held_inj j id g ?_ ?_)
  · rw [Placed.held_of_task hj, hup']
  · rw [Placed.held_of_task hid, hup]

theorem ne_client (h : Placed v) {j : ConnId} {u : Task} {g : Fd} {d : ConnId}
    (hid : v.tasks id = some t) (hj : v.tasks j = some u) (hup : u.pc.upFd = some g)
    (hg : v.fds g = some d) : d ≠ id := by
  rintro rfl
  have hclient := (h.client d t hid).1
  exact h.ne_client hid (h.held j g (by rw [Placed.held_of_task hj, hup]))
    (h.inj g t.client d hg hclient)

theorem read (h : Reading v) (hid : v.tasks id = some t) {fd : Fd} {c : ConnId} {bs : Bytes}
    (hsrc : t.pc.source t.client = some fd) (hfd : v.fds fd = some c)
    (hlimit : bs.length ≤ t.pc.limit) {k : Conn} (hk : k.got = (v.conns c).got ++ bs)
    (hplaced : Placed ((v.setConn c k).set id { t with pc := t.pc.push bs })) :
    Reading ((v.setConn c k).set id { t with pc := t.pc.push bs }) := by
  refine h.coroutine hplaced rfl ?_ ?_ ((h.sound id t hid).push hlimit)
  · intro j u g d hji hj hup hg
    have hdc : d ≠ c := by
      rcases Pc.source_cases hsrc with ⟨rfl, -⟩ | hown
      · rw [(h.placed.client id t hid).1, Option.some.injEq] at hfd
        exact hfd ▸ ne_client h.placed hid hj hup hg
      · exact apart h.placed hji hid hown hfd hj hup hg
    exact ⟨hg, by simp [hdc]⟩
  · intro g d hup hg
    rw [Pc.upFd_push] at hup
    rcases Pc.source_cases hsrc with ⟨-, hnone⟩ | hown
    · rw [hnone] at hup
      cases hup
    · obtain rfl : g = fd := Option.some.inj (hup.symm.trans hown)
      obtain rfl : d = c := Option.some.inj (hg.symm.trans hfd)
      show ((v.setConn d k).conns d).got = (t.pc.push bs).taken
      rw [View.setConn_conns, update_self, hk, h.taken id t g d hid hup hfd,
        Pc.taken_push bs hsrc hup]

/-- **Every move keeps what was collected and what was read in step.** -/
theorem move {cfg : Config} {A : Assume} {v' : View} (h : Reading v) (hmove : Move cfg A v v') :
    Reading v' := by
  have hplaced := h.placed.move hmove
  cases hmove with
  | @arrive fd c bs hfd hne hopen hA =>
    refine h.frame hplaced (fun _ _ ht => ht) fun j u g d _ _ hg => ⟨hg, ?_⟩
    by_cases hdc : d = c
    · subst hdc
      simp
    · simp [hdc]
  | @hangup fd c hfd hA =>
    refine h.frame hplaced (fun _ _ ht => ht) fun j u g d _ _ hg => ⟨hg, ?_⟩
    by_cases hdc : d = c
    · subst hdc
      simp
    · simp [hdc]
  | spawn fd hfd hlisten =>
    have hopen := h.placed.openConn false hfd
    refine h.coroutine hplaced rfl ?_ (fun g d hup _ => by cases hup) trivial
    intro j u g d _ hj hup hg
    obtain ⟨e, he, -⟩ := h.placed.held j g (by rw [Placed.held_of_task hj, hup])
    have hgf : g ≠ fd := by
      rintro rfl
      rw [hfd] at he
      cases he
    have hg : v.fds g = some d := by simpa [hgf] using hg
    exact ⟨hg, by simp [Nat.ne_of_lt (h.placed.below g d hg)]⟩
  | discard hid =>
    refine h.frame hplaced (fun j u hj => ?_) fun j u g d _ _ hg => ⟨?_, rfl⟩
    · simp only [View.reap_tasks, Option.ite_none_right_eq_some] at hj
      exact hj.2
    · simp only [View.reap_fds, View.close_fds, update_apply,
        Option.ite_none_left_eq_some] at hg
      exact hg.2
  | reap keep =>
    refine h.frame hplaced (fun j u hj => ?_) fun j u g d _ _ hg => ⟨hg, rfl⟩
    simp only [View.reap_tasks, Option.ite_none_right_eq_some] at hj
    exact hj.2
  | stop =>
    refine h.frame hplaced (fun j u hj => hj) fun j u g d _ _ hg => ⟨?_, rfl⟩
    simp only [View.stop_fds, Option.ite_none_left_eq_some] at hg
    exact hg.2
  | @turn id t pc hid hturn =>
    obtain ⟨hsound, htaken⟩ := hturn.reading (h.sound id t hid)
    refine h.coroutine hplaced rfl (fun _ _ _ _ _ _ _ hg => ⟨hg, rfl⟩) ?_ hsound
    intro g d hup hg
    rcases htaken with hnone | htaken
    · rw [hnone] at hup
      cases hup
    · have hkept : t.pc.upFd = some g := by
        rcases hturn.upFd with hsame | hnone
        · exact hsame.symm.trans hup
        · rw [hnone] at hup
          cases hup
      exact (h.taken id t g d hid hkept hg).trans htaken.symm
  | read hid hsrc hfd hne hlimit hrx hA => exact h.read hid hsrc hfd hlimit rfl hplaced
  | @write id t x a fd off n hid hpc hn =>
    refine h.coroutine hplaced rfl (fun _ _ _ _ _ _ _ hg => ⟨hg, rfl⟩) ?_ trivial
    intro g d hup hg
    have htaken := h.taken id t g d hid (by rw [hpc]; exact hup) hg
    rw [hpc] at htaken
    exact htaken
  | next hid hpc =>
    exact h.coroutine hplaced rfl (fun _ _ _ _ _ _ _ hg => ⟨hg, rfl⟩) (by simp [Pc.upFd]) trivial
  | @reuse id t x a fd rest hid hpc hpool =>
    obtain ⟨-, hheld, -⟩ := h.placed.lease.unshelve hpool
    have hup := h.placed.pooled _ fd (hpool ▸ List.mem_cons_self)
    obtain ⟨c, hfd, -⟩ := hup
    refine h.coroutine hplaced rfl ?_ ?_ trivial
    · intro j u g d hji hj hup hg
      refine ⟨hg, ?_⟩
      have hdc : c ≠ d := by
        rintro rfl
        obtain rfl := h.placed.inj g fd c hg hfd
        exact hheld j (by rw [Placed.held_of_task hj, hup])
      simp [hfd, hdc]
    · intro g d hup hg
      obtain rfl : fd = g := by simpa [Pc.upFd] using hup
      have hg : v.fds fd = some d := hg
      simp [hg, Pc.taken]
  | @connect id t x a fd hid hpc hfd =>
    refine h.coroutine hplaced rfl ?_ ?_ trivial
    · intro j u g d hji hj hup hg
      obtain ⟨e, he, -⟩ := h.placed.held j g (by rw [Placed.held_of_task hj, hup])
      have hgf : g ≠ fd := by
        rintro rfl
        rw [hfd] at he
        cases he
      have hg : v.fds g = some d := by simpa [hgf] using hg
      exact ⟨hg, by simp [Nat.ne_of_lt (h.placed.below g d hg)]⟩
    · intro g d hup hg
      obtain rfl : fd = g := by simpa [Pc.upFd] using hup
      obtain rfl : v.opened = d := by simpa using hg
      simp [Pc.taken]
  | @start id t x a fd hid hpc =>
    refine h.coroutine hplaced rfl (fun _ _ _ _ _ _ _ hg => ⟨hg, rfl⟩) ?_ trivial
    intro g d hup hg
    have htaken := h.taken id t g d hid (by rw [hpc]; exact hup) hg
    rw [hpc] at htaken
    exact htaken
  | fail a hid hx hup | overflow hid hx hup =>
    refine h.coroutine hplaced rfl (fun j u g d _ _ _ hg => ⟨?_, rfl⟩) (by simp [Pc.upFd]) trivial
    simp only [View.close_fds, update_apply, Option.ite_none_left_eq_some] at hg
    exact hg.2
  | release hid hx hup =>
    exact h.coroutine hplaced rfl (fun _ _ _ _ _ _ _ hg => ⟨hg, rfl⟩) (by simp [Pc.upFd]) trivial

end Reading

/-! ## Complete responses -/

section Complete

variable {A : Assume} {v : View} {id : ConnId} {h : Head} {tail : Bytes}

theorem Part.Fits.head_prefix {head buf : Bytes} {pos : Nat} {part : Part}
    (hfits : part.Fits head (head.drop (pos + 4)) buf) :
    head <+: head.take (pos + 4) ++ (part.before ++ buf) := by
  have hpre : head.drop (pos + 4) <+: part.before ++ buf :=
    hfits.body_prefix.trans (List.prefix_append _ _)
  calc head = head.take (pos + 4) ++ head.drop (pos + 4) := by rw [List.take_append_drop]
    _ <+: head.take (pos + 4) ++ (part.before ++ buf) :=
      (List.prefix_append_right_inj _).mpr hpre

variable {fd : Fd} {pc : Pc}

theorem Pc.Sound.head_eq {x : Exchange} {a : UInt32} {resp buf : Bytes} {part : Part}
    (hsound : (Pc.readUp x a fd resp part buf).Sound)
    (hgot : resp ++ (part.before ++ buf) <+: h.text ++ tail) :
    resp = h.text ∧ ∃ body, part.Fits (h.text ++ body) body buf := by
  obtain ⟨head, pos, hpos, rfl, hfits⟩ := hsound
  obtain ⟨htext, hsplit, -⟩ := Head.split_of_prefix (hfits.head_prefix.trans hgot) hpos
  refine ⟨htext, head.drop (pos + 4), ?_⟩
  rwa [← hsplit]

theorem Complete.has_head (hcomplete : Complete A v id pc) (hsound : pc.Sound) :
    (find blankLine pc.taken).isSome := by
  cases hcomplete with
  | chunkedHead hpos | sizedHead hpos => exact Option.isSome_of_eq_some hpos
  | lastChunkRead | sized | dry | cap =>
    obtain ⟨head, pos, hpos, rfl, hfits⟩ := hsound
    obtain ⟨rest, hrest⟩ := hfits.head_prefix
    have hfound := find_append rest hpos
    rw [hrest] at hfound
    exact Option.isSome_of_eq_some hfound

/-- **A response with a length.** The coroutine takes it for complete when it has the announced
number of bytes; when more came with the head; or when the upstream ended it too early. -/
theorem Complete.sized_response {n : Nat} (hcomplete : Complete A v id pc) (hsound : pc.Sound)
    (hup : pc.upFd = some fd) (hgot : pc.taken <+: h.text ++ tail)
    (hlacks : h.Lacks transferEncoding) (hsizes : h.Sizes n) :
    ∃ body, pc.taken = h.text ++ body ∧
      (body.length = n ∨ (n < body.length ∧ ∃ x a, pc = .readUpHead x a fd (h.text ++ body)) ∨
        (body.length < n ∧ v.Ended A id fd ∧ ∃ x a b, pc = .readUp x a fd h.text
          (.sized b (n - b.length)) (body.drop b.length))) := by
  have hchunked (rest : Bytes) : isChunked (h.text ++ rest) = false :=
    isChunked_of_lacks hlacks rest
  have hsized (rest : Bytes) := isSized_of_sizes hlacks hsizes rest
  cases hcomplete with
  | @chunkedHead x a g head pos hpos hisChunked =>
    have hsplit : head = h.text ++ head.drop (pos + 4) := (Head.split_of_prefix hgot hpos).2.1
    rw [hsplit, hchunked] at hisChunked
    cases hisChunked
  | @sizedHead x a g head pos hpos _ hlen =>
    obtain rfl : g = fd := by simpa [Pc.upFd] using hup
    have hsplit : head = h.text ++ head.drop (pos + 4) := (Head.split_of_prefix hgot hpos).2.1
    have hann : announced head = n := by
      rw [hsplit]
      exact (hsized _).2
    rw [hann] at hlen
    refine ⟨head.drop (pos + 4), hsplit, ?_⟩
    rcases Nat.eq_or_lt_of_le hlen with heq | hlt
    · exact .inl heq.symm
    · exact .inr (.inl ⟨hlt, x, a, by rw [← hsplit]⟩)
  | @lastChunkRead x a g resp cb buf part hpart =>
    obtain ⟨-, body, hfits⟩ := hsound.head_eq hgot
    rcases hpart with rfl | rfl
    · cases hfits with
      | chunkLine _ hisChunked =>
        rw [hchunked] at hisChunked
        cases hisChunked
    · cases hfits with
      | chunk _ hisChunked =>
        rw [hchunked] at hisChunked
        cases hisChunked
  | @sized x a g resp b buf want hend =>
    obtain rfl : g = fd := by simpa [Pc.upFd] using hup
    obtain ⟨hresp, body, hfits⟩ := hsound.head_eq hgot
    cases hfits with
    | sized _ hwant hbuf =>
      rw [(hsized _).2] at hwant
      refine ⟨b ++ buf, by simp [Pc.taken, Part.before, hresp], ?_⟩
      rw [List.length_append]
      by_cases hfull : want ≤ buf.length
      · left
        omega
      · right; right
        refine ⟨by omega, hend.resolve_left hfull, x, a, b, ?_⟩
        obtain rfl : want = n - b.length := by omega
        rw [hresp, List.drop_left]
  | @dry x a g resp before part hpart | @cap x a g resp before buf part hpart =>
    obtain ⟨-, body, hfits⟩ := hsound.head_eq hgot
    rcases hpart with rfl | rfl
    · cases hfits with
      | chunk _ hisChunked =>
        rw [hchunked] at hisChunked
        cases hisChunked
    · cases hfits with
      | rest _ _ hnotSized =>
        rw [(hsized _).1] at hnotSized
        cases hnotSized

/-- **A chunked response.** The coroutine takes it for complete when it has seen the bytes it takes
for the last chunk, when nothing more comes, or when the response is too long. -/
theorem Complete.chunked_response (hcomplete : Complete A v id pc) (hsound : pc.Sound)
    (hup : pc.upFd = some fd) (hgot : pc.taken <+: h.text ++ tail)
    (hchunked : ∀ rest, isChunked (h.text ++ rest) = true) :
    ∃ body, pc.taken = h.text ++ body ∧
      ((find lastChunk body).isSome ∨ bodyCap < body.length ∨
        (v.Ended A id fd ∧ ∃ x a, pc = .readUp x a fd h.text (.chunk body) [])) := by
  have hsized (rest : Bytes) : isSized (h.text ++ rest) = false := by simp [isSized, hchunked]
  cases hcomplete with
  | @chunkedHead x a g head pos hpos _ hlast =>
    have hsplit : head = h.text ++ head.drop (pos + 4) := (Head.split_of_prefix hgot hpos).2.1
    exact ⟨head.drop (pos + 4), hsplit, .inl hlast⟩
  | @sizedHead x a g head pos hpos hisSized =>
    have hsplit : head = h.text ++ head.drop (pos + 4) := (Head.split_of_prefix hgot hpos).2.1
    rw [hsplit, hsized] at hisSized
    cases hisSized
  | @lastChunkRead x a g resp cb buf part hpart hlast =>
    obtain ⟨hresp, -⟩ := hsound.head_eq hgot
    have hbefore : part.before = cb := by rcases hpart with rfl | rfl <;> rfl
    exact ⟨cb ++ buf, by simp [Pc.taken, hbefore, hresp], .inl hlast⟩
  | @sized x a g resp b buf want hend =>
    obtain ⟨-, body, hfits⟩ := hsound.head_eq hgot
    cases hfits with
    | sized hisSized =>
      rw [hsized] at hisSized
      cases hisSized
  | @dry x a g resp before part hpart hend =>
    obtain rfl : g = fd := by simpa [Pc.upFd] using hup
    obtain ⟨hresp, body, hfits⟩ := hsound.head_eq hgot
    rcases hpart with rfl | rfl
    · refine ⟨before, by simp [Pc.taken, Part.before, hresp], .inr (.inr ⟨hend, x, a, ?_⟩)⟩
      rw [hresp]
    · cases hfits with
      | rest _ hnot =>
        rw [hchunked] at hnot
        cases hnot
  | @cap x a g resp before buf part hpart hcap =>
    obtain ⟨hresp, -⟩ := hsound.head_eq hgot
    have hbefore : part.before = before := by rcases hpart with rfl | rfl <;> rfl
    exact ⟨before ++ buf, by simp [Pc.taken, hbefore, hresp], .inr (.inl hcap)⟩

/-- **A response that ends with the connection.** The coroutine takes it for complete when nothing
more comes, or when it is too long. -/
theorem Complete.closing_response (hcomplete : Complete A v id pc) (hsound : pc.Sound)
    (hup : pc.upFd = some fd) (hgot : pc.taken <+: h.text ++ tail)
    (hlacks : h.Lacks transferEncoding) (hlacks' : h.Lacks contentLength) :
    v.Ended A id fd ∨ ∃ body, pc.taken = h.text ++ body ∧ bodyCap < body.length := by
  have hchunked (rest : Bytes) := isChunked_of_lacks hlacks rest
  have hsized (rest : Bytes) := isSized_of_lacks hlacks' rest
  cases hcomplete with
  | @chunkedHead x a g head pos hpos hisChunked =>
    have hsplit : head = h.text ++ head.drop (pos + 4) := (Head.split_of_prefix hgot hpos).2.1
    rw [hsplit, hchunked] at hisChunked
    cases hisChunked
  | @sizedHead x a g head pos hpos hisSized =>
    have hsplit : head = h.text ++ head.drop (pos + 4) := (Head.split_of_prefix hgot hpos).2.1
    rw [hsplit, hsized] at hisSized
    cases hisSized
  | @lastChunkRead x a g resp cb buf part hpart =>
    obtain ⟨-, body, hfits⟩ := hsound.head_eq hgot
    rcases hpart with rfl | rfl
    · cases hfits with
      | chunkLine _ hisChunked =>
        rw [hchunked] at hisChunked
        cases hisChunked
    · cases hfits with
      | chunk _ hisChunked =>
        rw [hchunked] at hisChunked
        cases hisChunked
  | @sized x a g resp b buf want hend =>
    obtain ⟨-, body, hfits⟩ := hsound.head_eq hgot
    cases hfits with
    | sized hisSized =>
      rw [hsized] at hisSized
      cases hisSized
  | @dry x a g resp before part hpart hend =>
    obtain rfl : g = fd := by simpa [Pc.upFd] using hup
    exact .inl hend
  | @cap x a g resp before buf part hpart hcap =>
    obtain ⟨hresp, -⟩ := hsound.head_eq hgot
    have hbefore : part.before = before := by rcases hpart with rfl | rfl <;> rfl
    exact .inr ⟨before ++ buf, by simp [Pc.taken, hbefore, hresp], hcap⟩

end Complete

end Muses.Proxy
