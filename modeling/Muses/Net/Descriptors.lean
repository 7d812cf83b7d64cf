import Muses.Net.Refinement
import Muses.Net.Discipline

/-!
# Who owns a descriptor
-/

namespace Muses.Reactor

open Muses.Core Function

variable {cfg : Config} {A : Assume} {v v' : View}

/-- Entries are the open descriptors, and every connection is closed once, when it is shut. -/
structure Owned (v : View) : Prop where
  entries : ∀ fd, (v.conns fd).map Conn.id = v.world.fds fd
  open_count : ∀ fd k, v.world.fds fd = some k → v.world.closes.count k = 0
  shut_count : ∀ k, k < v.world.accepted → (∀ fd, v.world.fds fd ≠ some k) →
    v.world.closes.count k = 1
  unused_count : ∀ k, v.world.accepted ≤ k → v.world.closes.count k = 0
  stopped : v.world.pc = .stopped → ∀ fd, v.conns fd = none

theorem Owned.init : Owned .init where
  entries := by simp [World.init]
  open_count := by simp [World.init]
  shut_count := by simp [World.init]
  unused_count := by simp [World.init]
  stopped := by simp

theorem Owned.frame (h : Owned v)
    (hconns : ∀ fd, (v'.conns fd).map Conn.id = (v.conns fd).map Conn.id)
    (hfds : v'.world.fds = v.world.fds) (hcloses : v'.world.closes = v.world.closes)
    (hacc : v'.world.accepted = v.world.accepted)
    (hpc : v'.world.pc = .stopped → v.world.pc = .stopped ∨ ∀ fd, v.conns fd = none) :
    Owned v' where
  entries fd := by rw [hconns, hfds, h.entries]
  open_count fd k hk := by
    rw [hcloses]
    exact h.open_count fd k (hfds ▸ hk)
  shut_count k hk hshut := by
    rw [hcloses]
    exact h.shut_count k (hacc ▸ hk) (hfds ▸ hshut)
  unused_count k hk := by
    rw [hcloses]
    exact h.unused_count k (hacc ▸ hk)
  stopped hstop fd := by
    have hnone : v.conns fd = none := by
      rcases hpc hstop with hstop | hnone
      · exact h.stopped hstop fd
      · exact hnone fd
    rw [← Option.map_eq_none_iff (f := Conn.id), hconns, hnone]
    rfl

variable {fd : Fd}

theorem map_id_update {conns : Fd → Option Conn} {c c' : Conn} (hc : conns fd = some c)
    (hid : c'.id = c.id) (g : Fd) :
    (update conns fd (some c') g).map Conn.id = (conns g).map Conn.id := by
  by_cases hg : g = fd
  · subst hg
    simp [hc, hid]
  · rw [update_of_ne hg]

theorem Owned.close (h : Owned v) (hnum : Numbered v) {c : Conn} (hc : v.conns fd = some c) :
    Owned (((v.setWorld (v.world.close fd c.id)).dropConn fd).look none) := by
  have hown : v.world.fds fd = some c.id := by rw [← h.entries fd, hc]; rfl
  have hcount (k : ConnId) : (v.world.closes ++ [c.id]).count k =
      v.world.closes.count k + if c.id = k then 1 else 0 := by
    simp [List.count_append, List.count_singleton]
  refine ⟨fun g => ?_, fun g k hk => ?_, fun k hk hshut => ?_, fun k hk => ?_,
    fun hstop g => ?_⟩
  · by_cases hg : g = fd
    · subst hg
      simp [World.close]
    · simpa [World.close, hg] using h.entries g
  · have hg : g ≠ fd := by
      rintro rfl
      simp [World.close] at hk
    have hk : v.world.fds g = some k := by simpa [World.close, hg] using hk
    have hne : c.id ≠ k := fun heq => hg (hnum.fds_inj g fd k hk (heq ▸ hown))
    exact (hcount k).trans (by rw [if_neg hne, h.open_count g k hk])
  · refine (hcount k).trans ?_
    by_cases hid : c.id = k
    · rw [if_pos hid, ← hid, h.open_count fd c.id hown]
    · rw [if_neg hid, h.shut_count k hk fun g hg => ?_]
      refine hshut g ?_
      have hgfd : g ≠ fd := by
        rintro rfl
        exact hid (Option.some.inj (hown.symm.trans hg))
      simpa [World.close, hgfd] using hg
  · have hne : c.id ≠ k := fun heq => Nat.not_le_of_lt (hnum.conns_lt fd c hc) (heq ▸ hk)
    exact (hcount k).trans (by rw [if_neg hne, h.unused_count k hk])
  · exact absurd (h.stopped hstop fd) (by simp [hc])

theorem Owned.refuse (h : Owned v) (hnum : Numbered v) (hfd : v.world.fds fd = none) :
    Owned (v.setWorld ((v.world.opened fd).close fd v.world.accepted)) := by
  have hfds : ((v.world.opened fd).close fd v.world.accepted).fds = v.world.fds := by
    funext g
    by_cases hg : g = fd
    · subst hg; simp [World.close, hfd]
    · simp [World.close, World.opened, hg]
  have hcount (k : ConnId) : (v.world.closes ++ [v.world.accepted]).count k =
      v.world.closes.count k + if v.world.accepted = k then 1 else 0 := by
    simp [List.count_append, List.count_singleton]
  refine ⟨fun g => ?_, fun g k hk => ?_, fun k hk hshut => ?_, fun k hk => ?_,
    h.stopped⟩
  · rw [View.setWorld_world, hfds]
    exact h.entries g
  · rw [View.setWorld_world, hfds] at hk
    have hne : v.world.accepted ≠ k := Nat.ne_of_gt (hnum.fds_lt g k hk)
    exact (hcount k).trans (by rw [if_neg hne, h.open_count g k hk])
  · refine (hcount k).trans ?_
    by_cases hid : v.world.accepted = k
    · rw [if_pos hid, h.unused_count k (Nat.le_of_eq hid)]
    · rw [if_neg hid, h.shut_count k (Nat.lt_of_le_of_ne (Nat.le_of_lt_succ hk) (Ne.symm hid))]
      rwa [View.setWorld_world, hfds] at hshut
  · have hne : v.world.accepted ≠ k := Nat.ne_of_lt hk
    exact (hcount k).trans (by rw [if_neg hne, h.unused_count k (Nat.le_of_succ_le hk)])

theorem Owned.enroll (h : Owned v) (hfd : v.world.fds fd = none) (hpc : v.world.pc ≠ .stopped) :
    Owned ((v.setWorld ((v.world.opened fd).arm fd .Readable true)).setConn fd
      { id := v.world.accepted }) := by
  have hfds (g : Fd) : ((v.world.opened fd).arm fd .Readable true).fds g =
      if g = fd then some v.world.accepted else v.world.fds g := by
    simp [World.opened, update_apply]
  refine ⟨fun g => ?_, fun g k hk => ?_, fun k hk hshut => ?_, fun k hk => ?_,
    fun hstop => ?_⟩
  · rw [View.setConn_world, View.setWorld_world, hfds]
    by_cases hg : g = fd
    · subst hg; simp
    · simpa [hg] using h.entries g
  · rw [View.setConn_world, View.setWorld_world, hfds] at hk
    rw [View.setConn_world, View.setWorld_world, World.arm_closes]
    split at hk
    · cases hk
      exact h.unused_count _ (Nat.le_refl _)
    · exact h.open_count g k hk
  · rw [View.setConn_world, View.setWorld_world, World.arm_closes]
    have hne : k ≠ v.world.accepted := by
      rintro rfl
      exact hshut fd ((hfds fd).trans (if_pos rfl))
    have hlt : k < v.world.accepted := by
      simp only [View.setConn_world, View.setWorld_world, World.arm_accepted, World.opened] at hk
      exact Nat.lt_of_le_of_ne (Nat.le_of_lt_succ hk) hne
    refine h.shut_count k hlt fun g hg => hshut g ((hfds g).trans ?_)
    have hgfd : g ≠ fd := by
      rintro rfl
      rw [hfd] at hg
      cases hg
    rw [if_neg hgfd, hg]
  · rw [View.setConn_world, View.setWorld_world, World.arm_closes]
    simp only [View.setConn_world, View.setWorld_world, World.arm_accepted, World.opened] at hk
    exact h.unused_count k (Nat.le_of_succ_le hk)
  · exact absurd (by simpa [World.opened] using hstop) hpc

theorem Owned.move (hclosing : A.noEarlyClose = false → NoClosing v) (hnum : Numbered v)
    (h : Owned v) (hmove : Move cfg A v v') : Owned v' := by
  cases hmove with
  | env | start | die | handback | reject | discard | deny | rest =>
    exact h.frame (fun _ => rfl) rfl rfl rfl .inl
  | skip | take | poll => exact h.frame (fun _ => rfl) rfl rfl rfl (by simp [World.deliver])
  | goto pc hf hgo => exact h.frame (fun _ => rfl) rfl rfl rfl (by simp [hgo])
  | stopOutbox hf hpc hnone => exact h.frame (fun _ => rfl) rfl rfl rfl fun _ => .inr hnone
  | arrive fd bs harr =>
    obtain ⟨c, -, rfl⟩ := World.arrive_eq harr
    exact h.frame (fun _ => rfl) rfl rfl rfl .inl
  | hangup fd hhang =>
    obtain ⟨c, -, rfl⟩ := World.hangup_eq hhang
    exact h.frame (fun _ => rfl) rfl rfl rfl .inl
  | closeRejected i job hi hf hA =>
    exact absurd (List.mem_of_getElem? hi) (hclosing hA job)
  | answer hb rest c hf hout hc => exact h.frame (map_id_update hc rfl) rfl rfl rfl .inl
  | consume fd c bs hf hc hread =>
    obtain ⟨k, -, -, -, -, rfl⟩ := World.sysRead_data hread
    exact h.frame (map_id_update hc rfl) rfl rfl rfl .inl
  | emit fd c n hf hc hwrite =>
    obtain ⟨k, -, -, -, rfl⟩ := World.sysWrite_wrote hwrite
    exact h.frame (map_id_update hc rfl) rfl rfl rfl .inl
  | park fd c ok hf hc | turn fd c ok hf hc =>
    exact h.frame (map_id_update hc rfl) (by simp) (by simp) (by simp)
      fun hstop => .inl (by simpa using hstop)
  | dispatch fd c n hf hc => exact h.frame (map_id_update hc rfl) rfl rfl rfl .inl
  | close fd c hf hc => exact h.close hnum hc
  | refuse fd hfd => exact h.refuse hnum hfd
  | enroll fd hfd hlisten hf hc hquiet hpc => exact h.enroll hfd hpc
  | clash fd c hfd hlisten hf hc =>
    have := h.entries fd
    simp [hc, hfd] at this
  | misfit fd hfd =>
    -- the number was free, so there is no entry to erase
    have hnone : v.conns fd = none := by simpa [hfd] using h.entries fd
    have hdrop : update v.conns fd none = v.conns :=
      update_eq_self_iff.mpr hnone.symm
    have hview : (v.setWorld ((v.world.opened fd).close fd v.world.accepted)).dropConn fd =
        v.setWorld ((v.world.opened fd).close fd v.world.accepted) := by
      simp [View.dropConn, View.setWorld, hdrop]
    rw [hview]
    exact h.refuse hnum hfd

theorem Assume.holds_of_fit {s : State} {a : Act} (h : PushesFit cfg s a) :
    Assume.Holds { noReject := true } cfg s a where
  fresh := by simp
  noReject _ := h
  noDie := by simp
  noEarlyClose := by simp
  clean := by simp
  polled := by simp

theorem accept_free {s s' : State} {ip : UInt32} {addOk : Bool}
    (h : step cfg s (.accept (.conn fd ip addOk)) = some s') : s.world.fds fd = none := by
  change loopStep cfg s s.world.pc _ = some s' at h
  unfold loopStep at h
  split at h
  case h_8 heq =>
    cases heq
    unfold State.acceptRound at h
    split at h
    · cases h
    · simp only at h
      split at h
      · rename_i hguard
        exact hguard.2.1
      · cases h
  all_goals simp_all

theorem run_owned {as : List Act} {s : State} (hrun : exec (step cfg) (.init cfg) as = some s)
    (hfit : Meets (step cfg) (PushesFit cfg) (.init cfg) as) : Owned s.view :=
  (run_invariant (A := { noReject := true }) (I := fun v => (Numbered v ∧ NoClosing v) ∧ Owned v)
    ⟨⟨.init, .init⟩, .init⟩
    (fun _ _ h hmove => ⟨⟨h.1.1.move hmove, h.1.2.move rfl hmove⟩,
      h.2.move (fun _ => h.1.2) h.1.1 hmove⟩) hrun
    (hfit.mono fun _ _ => Assume.holds_of_fit)).2

/-- **Descriptor ownership.** -/
theorem descriptor_ownership {as : List Act} {s : State}
    (hrun : exec (step cfg) (.init cfg) as = some s)
    (hfit : Meets (step cfg) (PushesFit cfg) (.init cfg) as) :
    (∀ fd, (s.find fd).map Connection.id = s.world.fds fd) ∧
      (∀ k fd, s.world.fds fd = some k → s.world.closes.count k = 0) ∧
      (∀ k, k < s.world.accepted → (∀ fd, s.world.fds fd ≠ some k) →
        s.world.closes.count k = 1) ∧
      (s.world.pc = .stopped → ∀ fd, s.world.fds fd = none) ∧
      (∀ fd ip addOk, (step cfg s (.accept (.conn fd ip addOk))).isSome → s.find fd = none) := by
  have hown := run_owned hrun hfit
  have hentries (fd : Fd) : (s.find fd).map Connection.id = s.world.fds fd := by
    have := hown.entries fd
    rwa [State.view, Option.map_map] at this
  refine ⟨hentries, fun k fd => hown.open_count fd k, hown.shut_count, fun hstop fd => ?_,
    fun fd ip addOk hstep => ?_⟩
  · rw [← hentries fd]
    simpa [State.view] using hown.stopped hstop fd
  · obtain ⟨s', hstep⟩ := Option.isSome_iff_exists.mp hstep
    have hfree : s.world.fds fd = none := accept_free hstep
    simpa [hfree] using hentries fd

/-- A client comes and goes. -/
theorem descriptor_ownership_comeAndGo :
    ∃ s ∈ exec (step .sample) (.init .sample)
        (acceptAt 5 ++ [.hangup 5, .poll [⟨5, .Readable⟩], .event { reads := [.eof] }]),
      s.world.accepted = 1 ∧ s.world.fds 5 = none ∧ s.world.closes.count 0 = 1 := by
  have hends : ∃ s ∈ exec (step .sample) (.init .sample)
        (acceptAt 5 ++ [.hangup 5, .poll [⟨5, .Readable⟩], .event { reads := [.eof] }]),
      s.world.accepted = 1 ∧ s.connections.isEmpty := by decide +kernel
  obtain ⟨s, hrun, hacc, hempty⟩ := hends
  obtain ⟨hentries, -, hclosed, -⟩ := descriptor_ownership hrun (by decide +kernel)
  have hnone (fd : Fd) : s.world.fds fd = none := by
    rw [← hentries fd, State.find, List.isEmpty_iff.mp hempty]
    rfl
  exact ⟨s, hrun, hacc, hnone 5, hclosed 0 (by rw [hacc]; decide) (by simp [hnone])⟩

def fullOutbox : List Act :=
  acceptAt 5 ++ acceptAt 6 ++ acceptAt 7 ++ requestAt 5 ++ requestAt 6 ++ requestAt 7 ++
    [.start, .finish 0 (.returns ⟨[65], true⟩), .start, .finish 0 (.returns ⟨[65], true⟩),
      .start, .finish 0 (.returns ⟨[65], true⟩), .closeRejected 0] ++
    [.connect, .poll [⟨3, .Readable⟩], .acceptAll, .accept (.conn 7 1 true)]

/-- The third handback is rejected, the worker closes descriptor 7, and the number goes to the
fourth client; the map still holds the third one's entry. -/
theorem rejectedPush_leaves_entry :
    ∃ s ∈ exec (step .sample) (.init .sample) fullOutbox,
      s.world.fds 7 = some 3 ∧ (s.find 7).map Connection.id = some 2 := by
  decide +kernel

end Muses.Reactor
