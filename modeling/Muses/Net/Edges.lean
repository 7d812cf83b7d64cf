import Muses.Net.Refinement
import Muses.Net.Discipline

/-!
# Edge-triggered reads

A connection that is not dispatched must be woken up by an edge when it has bytes to read: the
reactor reads to `EAGAIN` and then relies on the poller.
-/

namespace Muses.Reactor

open Muses.Core Function

variable {cfg : Config} {A : Assume} {v v' : View}

/-- Connection `k` at `fd` has nothing to read, or will be looked at: an edge is pending, or one has
been delivered and its event is still to be handled. -/
def Woken (w : World) (fd : Fd) (k : ConnId) : Prop :=
  (w.socks k).rx = [] ∨ w.edges fd = true ∨ ∃ e ∈ w.pc.events, e.fd = fd ∧ e.mask.serves = true

/-- An idle connection has been read to the end, or an edge for it is to come. -/
structure Awake (cfg : Config) (w : World) (fd : Fd) (c : Conn) (ph : Option Phase) : Prop where
  listen : fd ≠ cfg.listenFd
  serving : ph = some .serve → w.interest fd = some .Readable
  idle : c.dispatched = false → ph = none →
    Search.find terminator c.buf = none ∧ w.interest fd = some .Readable ∧ Woken w fd c.id

variable {w w' : World} {fd : Fd} {c c' : Conn} {ph : Option Phase}

theorem Awake.mono (h : Awake cfg w fd c ph) (hint : w'.interest fd = w.interest fd)
    (hwoken : c.dispatched = false → ph = none → Woken w fd c.id → Woken w' fd c.id) :
    Awake cfg w' fd c ph where
  listen := h.listen
  serving hph := hint.trans (h.serving hph)
  idle hdisp hph := by
    obtain ⟨hnone, hread, hw⟩ := h.idle hdisp hph
    exact ⟨hnone, hint.trans hread, hwoken hdisp hph hw⟩

theorem Awake.frame (h : Awake cfg w fd c ph) (hint : w'.interest = w.interest)
    (hsocks : w'.socks = w.socks) (hedges : w'.edges = w.edges) (hpc : w'.pc = w.pc) :
    Awake cfg w' fd c ph := by
  refine h.mono (by rw [hint]) fun _ _ hw => ?_
  rwa [Woken, hsocks, hedges, hpc]

theorem Awake.of_busy (hlisten : fd ≠ cfg.listenFd) (hserve : ph ≠ some .serve)
    (hbusy : c.dispatched = true ∨ ph ≠ none) : Awake cfg w fd c ph where
  listen := hlisten
  serving hph := absurd hph hserve
  idle hdisp hph := by
    rcases hbusy with hbusy | hbusy
    · simp [hdisp] at hbusy
    · exact absurd hph hbusy

variable {k : ConnId} {g : Fd} {m : EventMask}

theorem Woken.tail {e : PollEvent} {pc : Loop} (h : Woken w fd k)
    (hpc : w.pc.events = e :: pc.events) (hskip : e.fd = fd → e.mask.serves = false) :
    Woken { w with pc := pc } fd k := by
  refine h.imp_right fun h => h.imp_right ?_
  rintro ⟨e', he', hfd, hserves⟩
  rw [hpc] at he'
  rcases List.mem_cons.mp he' with rfl | he'
  · simp [hskip hfd] at hserves
  · exact ⟨e', he', hfd, hserves⟩

theorem Woken.deliver {evs : List PollEvent} (h : Woken w fd k) (hpc : w.pc = .wait)
    (hint : w.interest fd = some .Readable) (hlisten : fd ≠ cfg.listenFd)
    (hrep : ∀ e ∈ evs, w.reports cfg.listenFd e = true) :
    Woken (w.deliver cfg.listenFd evs) fd k := by
  rcases h with hrx | hedge | ⟨e, he, -⟩
  · exact .inl hrx
  · by_cases hany : evs.any (fun e => e.fd = fd && e.mask.readable) = true
    · obtain ⟨e, he, hfd⟩ := List.any_eq_true.mp hany
      obtain ⟨hfd, hreadable⟩ : e.fd = fd ∧ e.mask.readable = true := by simpa using hfd
      refine .inr (.inr ⟨e, he, hfd, ?_⟩)
      -- the registration asks for nothing but reading
      have := hrep e he
      simp only [World.reports, hfd, hint, EventMask.Readable, hreadable] at this
      simp only [EventMask.serves, hreadable]
      cases hc : e.mask.closed <;> cases hw : e.mask.writable <;> simp_all
    · exact .inr (.inl (by simp [World.deliver, hedge, hany]))
  · simp [hpc, Loop.events] at he

theorem Woken.arrive {bs : List UInt8} (h : Woken w fd k) (hint : w.interest fd = some .Readable)
    (hinj : w.fds g = some k → fd = g) (harr : w.arrive g bs = some w') : Woken w' fd k := by
  obtain ⟨j, hj, rfl⟩ := World.arrive_eq harr
  have hedge (hw : w.edges fd = true) :
      update w.edges g (w.edges g || w.armed g) fd = true := by
    by_cases hfd : fd = g
    · subst hfd; simp [hw]
    · simpa [hfd] using hw
  by_cases hjk : j = k
  · subst hjk
    obtain rfl := hinj hj
    refine .inr (.inl ?_)
    simp [World.raise, World.armed, World.setSock, hint, EventMask.Readable]
  · refine h.imp (fun hrx => ?_) fun h => h.imp_left hedge
    simpa [World.raise, World.setSock, update_of_ne (Ne.symm hjk)] using hrx

theorem Woken.hangup (h : Woken w fd k) (hhang : w.hangup g = some w') : Woken w' fd k := by
  obtain ⟨j, hj, rfl⟩ := World.hangup_eq hhang
  refine h.imp (fun hrx => ?_) fun h => h.imp_left fun hw => ?_
  · by_cases hjk : k = j
    · subst hjk; simpa [World.raise, World.setSock] using hrx
    · simpa [World.raise, World.setSock, hjk] using hrx
  · by_cases hfd : fd = g
    · subst hfd; simp [World.raise, World.setSock, hw]
    · simpa [World.raise, World.setSock, hfd] using hw

theorem Woken.setSock {j : ConnId} {sock : Socket} (h : Woken w fd k) (hjk : k ≠ j) :
    Woken (w.setSock j sock) fd k := by
  simpa [Woken, World.setSock, hjk] using h

theorem Woken.arm {ok : Bool} (h : Woken w fd k) (hfd : fd ≠ g) : Woken (w.arm g m ok) fd k := by
  unfold World.arm
  split
  · simpa [Woken, hfd] using h
  · exact h

theorem interest_arm_of_ne {ok : Bool} (hfd : fd ≠ g) :
    (w.arm g m ok).interest fd = w.interest fd := by
  unfold World.arm
  split
  · simp [hfd]
  · rfl

theorem interest_arm_self (hown : w.fds fd = some k) : (w.arm fd m true).interest fd = some m := by
  simp [World.arm, hown]

theorem Woken.arm_self (hown : w.fds fd = some k) : Woken (w.arm fd .Readable true) fd k := by
  by_cases hrx : (w.socks k).rx = []
  · exact .inl (by simpa using hrx)
  · refine .inr (.inl ?_)
    simp [World.arm, World.unread, hown, hrx, EventMask.Readable]

theorem Woken.close (h : Woken w fd k) (j : ConnId) (hfd : fd ≠ g) : Woken (w.close g j) fd k := by
  simpa [Woken, World.close, hfd] using h

/-- Every connection is awake. -/
def Alert (cfg : Config) (v : View) : Prop := v.Each (Awake cfg)

theorem Alert.init : Alert cfg .init := by simp [Alert, View.Each]

theorem Alert.move (hpolled : A.polled = true) (hnum : Numbered v) (hdisc : Disciplined v)
    (h : Alert cfg v) (hmove : Move cfg A v v') : Alert cfg v' := by
  have hown (fd : Fd) (c : Conn) (hc : v.conns fd = some c) (hdisp : c.dispatched = false) :
      v.world.fds fd = some c.id := (hdisc.entry fd c hc).own hdisp
  cases hmove with
  | env | start | die | handback | reject | discard =>
    exact View.Each.frame h rfl rfl fun _ _ _ hawake => hawake.frame rfl rfl rfl rfl
  | arrive g bs harr =>
    intro fd c hc
    refine (h fd c hc).mono ?_ fun hdisp hph hw => ?_
    · obtain ⟨j, -, rfl⟩ := World.arrive_eq harr
      rfl
    · exact hw.arrive ((h fd c hc).idle hdisp hph).2.1
        (fun hg => hnum.fds_inj fd g c.id (hown fd c hc hdisp) hg) harr
  | hangup g hhang =>
    refine View.Each.frame h rfl rfl fun fd c _ hawake => hawake.mono ?_ fun _ _ hw =>
      hw.hangup hhang
    obtain ⟨j, -, rfl⟩ := World.hangup_eq hhang
    rfl
  | closeRejected i job hi hf =>
    have hmem : (job.fd, job.origin) ∈ v.world.tokens :=
      (World.tokens_eraseIdx hi).symm.subset List.mem_cons_self
    refine View.Each.update h (View.on_none hf) (View.on_none hf) (v.same_entry job.fd)
      (fun g d hg _ hawake => hawake.mono (update_of_ne hg _ _) fun _ _ hw =>
        hw.close job.origin.conn hg)
      fun d hd => ?_
    have hdisp := ((hdisc.entry.on (View.on_none hf) hd).token _ hmem rfl).2.1
    exact Awake.of_busy (h job.fd d hd).listen (by simp) (.inl hdisp)
  | goto pc hf hgo hpc =>
    intro fd c hc
    refine (h fd c hc).mono rfl fun hdisp hph hw => ?_
    rcases hpc with hpc | ⟨e, hlisten, hpc⟩
    · rwa [Woken, View.setPc_world, hpc]
    · exact hw.tail hpc fun hfd => absurd (hfd.symm.trans hlisten) (h fd c hc).listen
  | poll evs hf hpc hrep =>
    intro fd c hc
    refine (h fd c hc).mono rfl fun hdisp hph hw => ?_
    exact hw.deliver hpc ((h fd c hc).idle hdisp hph).2.1 (h fd c hc).listen hrep
  | stopOutbox hf hpc hnone =>
    intro fd c hc
    cases (hnone fd).symm.trans hc
  | skip e evs hf hpc hskip =>
    intro fd c hc
    refine (h fd c hc).mono rfl fun hdisp hph hw => ?_
    refine hw.tail (by rw [hpc]; rfl) fun hfd => ?_
    subst hfd
    obtain ⟨hclosed, hmask⟩ := hskip c hc
    simp only [EventMask.serves, hclosed]
    rcases hmask with hmask | hmask | hmask
    · simp [hmask]
    · simp [hmask]
    · simp [hdisp] at hmask
  | take e evs c ph hf hpc hc hph =>
    refine View.Each.update h (View.on_none hf) (View.on_some rfl) (v.same_entry e.fd)
      (fun g d hg _ hawake => hawake.mono rfl fun _ _ hw =>
        hw.tail (by rw [hpc]; rfl) fun hfd => absurd hfd.symm hg) fun d hd => ?_
    cases hc.symm.trans hd
    have hawake := h.on (View.on_none hf) hc
    refine ⟨hawake.listen, fun hserve => ?_, by simp⟩
    cases hserve
    exact (hawake.idle hph rfl).2.1
  | deny hb rest c hf hout hc =>
    refine View.Each.update h (View.on_none hf) (View.on_some rfl) (v.same_entry hb.fd)
      (fun _ _ _ _ hawake => hawake.frame rfl rfl rfl rfl) fun d hd => ?_
    exact Awake.of_busy (h hb.fd d hd).listen (by simp) (.inr (by simp))
  | answer hb rest c hf hout hc =>
    refine View.Each.update h (View.on_none hf) (View.on_some rfl) rfl
      (fun _ _ _ _ hawake => hawake.frame rfl rfl rfl rfl) fun d hd => ?_
    exact Awake.of_busy (h hb.fd c hc).listen (by simp) (.inr (by simp))
  | consume fd c bs hf hc hread =>
    obtain ⟨k, hk, -, -, -, rfl⟩ := World.sysRead_data hread
    refine View.Each.update h (View.on_some hf) (View.on_some hf) rfl
      (fun g d hg hd hawake => ?_) fun d hd => ?_
    · refine hawake.mono rfl fun hdisp _ hw => ?_
      have hne : d.id ≠ k := fun heq => hg (hnum.fds_inj g fd k (heq ▸ hown g d hd hdisp) hk)
      exact hw.setSock hne
    · exact ⟨(h fd c hc).listen, (h.on (View.on_some hf) hc).serving, by simp⟩
  | emit fd c n hf hc hwrite =>
    obtain ⟨k, hk, -, -, rfl⟩ := World.sysWrite_wrote hwrite
    refine View.Each.update h (View.on_some hf) (View.on_some hf) rfl
      (fun g d hg hd hawake => ?_) fun d hd => ?_
    · refine hawake.mono rfl fun hdisp _ hw => ?_
      have hne : d.id ≠ k := fun heq => hg (hnum.fds_inj g fd k (heq ▸ hown g d hd hdisp) hk)
      exact hw.setSock hne
    · exact Awake.of_busy (h fd c hc).listen (by simp) (.inr (by simp))
  | park fd c ok hf hc =>
    refine View.Each.update h (View.on_some hf) (View.on_none rfl) rfl
      (fun g d hg hd hawake => ?_) fun d hd => ?_
    · exact hawake.mono (interest_arm_of_ne hg) fun _ _ hw => hw.arm hg
    · cases hd
      have hdisp := ((hdisc.entry.on (View.on_some hf) hc).answering rfl).1
      exact Awake.of_busy (h fd c hc).listen (by simp) (.inl hdisp)
  | turn fd c ok hf hc hoff hkeep hA =>
    obtain rfl := hA hpolled
    refine View.Each.update h (View.on_some hf) (View.on_some rfl) rfl
      (fun g d hg hd hawake => ?_) fun d hd => ?_
    · exact hawake.mono (interest_arm_of_ne hg) fun _ _ hw => hw.arm hg
    · have hfds := (hdisc.entry.on (View.on_some hf) hc).write.2
      exact ⟨(h fd c hc).listen, fun _ => interest_arm_self hfds, by simp⟩
  | rest fd c k hf hc hnone hfd hrx =>
    refine View.Each.update h (View.on_some hf) (View.on_none rfl) (v.same_entry fd)
      (fun _ _ _ _ hawake => hawake) fun d hd => ?_
    cases hc.symm.trans hd
    have hfds := (hdisc.entry.on (View.on_some hf) hc).serve.2.1
    obtain rfl : k = c.id := Option.some.inj (hfd.symm.trans hfds)
    have hawake := h.on (View.on_some hf) hc
    exact ⟨hawake.listen, by simp, fun _ _ => ⟨hnone, hawake.serving rfl, .inl hrx⟩⟩
  | dispatch fd c n hf hc =>
    refine View.Each.update h (View.on_some hf) (View.on_none rfl) rfl
      (fun _ _ _ _ hawake => hawake.frame rfl rfl rfl rfl) fun d hd => ?_
    cases hd
    exact Awake.of_busy (h fd c hc).listen (by simp) (.inl rfl)
  | close fd c hf hc =>
    obtain ⟨ph, hon⟩ := View.on_of_close hf
    exact View.Each.update h hon (View.on_none rfl) rfl
      (fun g d hg _ hawake => hawake.mono (update_of_ne hg _ _) fun _ _ hw =>
        hw.close c.id hg) nofun
  | refuse fd hfd hf =>
    refine View.Each.update h (View.on_none hf) (View.on_none hf) (v.same_entry fd)
      (fun g d hg _ hawake => hawake.mono (update_of_ne hg _ _) fun _ _ hw =>
        Woken.close hw v.world.accepted hg)
      fun d hd => ?_
    -- an entry for a free number is one whose descriptor a worker has closed
    have hstale := (hdisc.entry.on (View.on_none hf) hd).owner.resolve_left (by simp [hfd])
    exact Awake.of_busy (h fd d hd).listen (by simp) (.inl hstale.1)
  | enroll fd hfd hlisten hf hc =>
    refine View.Each.update h (View.on_none hf) (View.on_none hf) rfl
      (fun g d hg hd hawake => ?_) fun d hd => ?_
    · exact hawake.mono (interest_arm_of_ne hg) fun _ _ hw => Woken.arm hw hg
    · cases hd
      have hfds : (v.world.opened fd).fds fd = some v.world.accepted := by simp [World.opened]
      exact ⟨hlisten, by simp, fun _ _ => ⟨rfl, interest_arm_self hfds, Woken.arm_self hfds⟩⟩
  | clash fd c hfd hlisten hf hc =>
    refine View.Each.update h (View.on_none hf) (View.on_none hf) (v.same_entry fd)
      (fun g d hg hd hawake => ?_) fun d hd => ?_
    · exact hawake.mono (interest_arm_of_ne hg) fun _ _ hw => Woken.arm hw hg
    · have hstale := (hdisc.entry.on (View.on_none hf) hd).owner.resolve_left (by simp [hfd])
      exact Awake.of_busy hlisten (by simp) (.inl hstale.1)
  | misfit fd hfd hf hA => simp [hpolled] at hA

/-- Descriptors are not used again too early, and no call of the poller fails. -/
def KeepsEdges (s : State) (a : Act) : Prop := AcceptsQuiet s a ∧ PollerTakes s a

instance (s : State) (a : Act) : Decidable (KeepsEdges s a) :=
  inferInstanceAs (Decidable (_ ∧ _))

theorem Assume.holds_of_keepsEdges {s : State} {a : Act} (h : KeepsEdges s a) :
    Assume.Holds { fresh := true, polled := true } cfg s a where
  fresh _ := h.1
  noReject := by simp
  noDie := by simp
  noEarlyClose := by simp
  clean := by simp
  polled _ := h.2

/-- **Edge-triggered reads never stall.** -/
theorem reads_never_stall {as : List Act} {s : State} {conn : Connection}
    (hrun : exec (step cfg) (.init cfg) as = some s)
    (hkeeps : Meets (step cfg) KeepsEdges (.init cfg) as) (hwait : s.world.pc = .wait)
    (hfind : s.find fd = some conn) (hdisp : conn.dispatched = false) :
    s.world.fds fd = some conn.id ∧
      Search.find terminator (conn.readBuf.bytes s.pool) = none ∧
      ((s.world.socks conn.id).rx = [] ∨ s.world.edges fd = true) := by
  have hinv : (Numbered s.view ∧ Disciplined s.view) ∧ Alert cfg s.view :=
    run_invariant (A := { fresh := true, polled := true })
      (I := fun v => (Numbered v ∧ Disciplined v) ∧ Alert cfg v)
      ⟨⟨.init, .init⟩, .init⟩ (fun _ _ h hmove => ⟨⟨h.1.1.move hmove, h.1.2.move (.inl rfl) hmove⟩,
        h.2.move rfl h.1.1 h.1.2 hmove⟩) hrun (hkeeps.mono fun _ _ => Assume.holds_of_keepsEdges)
  obtain ⟨⟨-, hdisc⟩, halert⟩ := hinv
  have hc : s.view.conns fd = some (conn.abs s.pool) := by simp [State.view, hfind]
  have hown := (hdisc.entry.on (View.on_none rfl) hc).own hdisp
  obtain ⟨hnone, -, hwoken⟩ := (halert.on (View.on_none rfl) hc).idle hdisp rfl
  refine ⟨hown, hnone, ?_⟩
  rcases hwoken with hrx | hedge | ⟨e, he, -⟩
  · exact .inl hrx
  · exact .inr hedge
  · have : s.view.world.pc.events = [] := by rw [State.view, hwait]; rfl
    simp [this] at he

/-- Half a request is in the buffer and the other half is on its way. -/
theorem reads_never_stall_halfRead :
    ∃ s ∈ exec (step .sample) (.init .sample)
        (acceptAt 5 ++ readAt 5 [13, 10] [.data [13, 10], .eagain] ++ [.arrive 5 [13, 10]]),
      ∃ conn ∈ s.find 5, (s.world.socks conn.id).rx ≠ [] ∧ s.world.edges 5 = true := by
  have hends : ∃ s ∈ exec (step .sample) (.init .sample)
        (acceptAt 5 ++ readAt 5 [13, 10] [.data [13, 10], .eagain] ++ [.arrive 5 [13, 10]]),
      ∃ conn ∈ s.find 5, s.world.pc = .wait ∧ conn.dispatched = false ∧
        (s.world.socks conn.id).rx ≠ [] := by decide +kernel
  obtain ⟨s, hrun, conn, hfind, hwait, hdisp, hrx⟩ := hends
  obtain ⟨-, -, hedge⟩ := reads_never_stall hrun (by decide +kernel) hwait hfind hdisp
  exact ⟨s, hrun, conn, hfind, hrx, hedge.resolve_left hrx⟩

/-- The answer to connection 0's request meets connection 1 at the same number, and a part of it
has to be parked there. Then connection 1's client sends its first byte. -/
def parkedStranger : List Act :=
  acceptAt 5 ++ requestAt 5 ++
    [.start, .poll [⟨5, .Closed⟩], .event {}, .drained, .sweep] ++
    acceptAt 5 ++
    [.finish 0 (.returns ⟨[65, 66], true⟩), .poll [], .drain { writes := [.wrote 1, .eagain] },
      .drained, .sweep, .arrive 5 [71]]

/-- The loop is about to wait, connection 1 is open and not dispatched, its byte is unread, and no
edge is pending. -/
theorem parkedStranger_stalls :
    ∃ s ∈ exec (step .sample) (.init .sample) parkedStranger, s.world.pc = .wait ∧
      ∃ conn ∈ s.find 5, s.world.fds 5 = some conn.id ∧ conn.dispatched = false ∧
        (s.world.socks conn.id).rx = [71] ∧ s.world.edges 5 = false := by
  decide +kernel

end Muses.Reactor
