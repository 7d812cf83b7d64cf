import Muses.Net.Untouched

/-!
# The listen backlog

The listening descriptor is edge-triggered, too: clients that `accept_all` leaves waiting are only
looked at again when another one connects.

* `listener_untouched` — the handlers of connections leave the backlog, the edge of the listening
  descriptor and the position in the loop alone;
* `Attentive` — whoever waits will be looked at, and there is room for them all; every step keeps it
  as long as clients come in bursts that the reactor can take (`WithinBatch`).
-/

namespace Muses.Reactor

open Muses.Core

/-- What the reactor knows of its listening descriptor: the clients that wait, the pending edge,
and where the loop is. -/
def listener (w : World) : Nat × Bool × Loop := (w.backlog, w.listenEdge, w.pc)

/-! ## Handlers of connections -/

section Calls

variable {w w' : World}

theorem listener_untouched : Untouched listener where
  sysRead h := by
    unfold World.sysRead at h
    split at h <;> try split at h
    all_goals cases h
    all_goals rfl
  sysWrite h := by
    unfold World.sysWrite at h
    split at h <;> try split at h
    all_goals cases h
    all_goals rfl
  close _ _ _ := rfl
  arm w fd m ok := by
    unfold World.arm
    split <;> rfl
  enqueue _ _ _ _ := rfl

theorem listener_start {n : Nat} (h : w.start n = some w') : listener w' = listener w := by
  unfold World.start at h
  split at h
  · split at h <;> cases h
    rfl
  · cases h

theorem listener_finish {n i : Nat} {o : World.HandlerOutcome} (h : w.finish n i o = some w') :
    listener w' = listener w := by
  unfold World.finish at h
  split at h
  · split at h
    · cases h
      rfl
    · simp only at h
      split at h <;> cases h <;> rfl
  · cases h

theorem listener_closeRejected {i : Nat} (h : w.closeRejected i = some w') :
    listener w' = listener w := by
  unfold World.closeRejected at h
  split at h <;> cases h
  rfl

end Calls

variable {s : State}

theorem finishStop_listener {s' : State} (h : s.finishStop = some s') :
    s'.world.backlog = s.world.backlog ∧ s'.world.listenEdge = s.world.listenEdge ∧
      s'.world.pc = .stopped ∧ s'.connections = [] := by
  obtain ⟨p', -, rfl⟩ := Option.map_eq_some_iff.mp h
  have hworld := listener_untouched.closeEntries
    { s.world with outboxStopped := true, pc := .stopped } s.connections
  simp only [listener, Prod.mk.injEq] at hworld
  exact ⟨hworld.1, hworld.2.1, hworld.2.2, rfl⟩

/-! ## Whoever waits is noticed -/

def rounds : Loop → Nat
  | .accepting _ accepted _ => accepted
  | _ => 0

/-- The clients that wait are looked after: there are none, an edge is pending or its event still
to be handled, or `accept_all` has rounds left for them all. -/
def Noticed (cfg : Config) : Nat × Bool × Loop → Prop
  | (backlog, edge, pc) =>
      backlog = 0 ∨ edge = true ∨ (∃ e ∈ pc.events, e.fd = cfg.listenFd) ∨
        ∃ now accepted evs, pc = .accepting now accepted evs ∧ backlog + accepted ≤ acceptBatch

/-- Room for all that are waiting, and the loop knows of them. -/
structure Attentive (cfg : Config) (s : State) : Prop where
  crowd : cfg.maxConnections ≠ 0 →
    s.connections.length + s.world.backlog ≤ cfg.maxConnections
  noticed : Noticed cfg (listener s.world)

/-- Clients come in bursts that the reactor can take: no more of them are connected or wait than
there may be connections, and no more wait than `accept_all` makes rounds, those that a signal
interrupts included; and `accept` does not fail on them. Whoever connects while `accept_all` runs
has raised an edge of its own and is not counted. -/
def WithinBatch (cfg : Config) (s : State) : Act → Prop
  | .connect => cfg.maxConnections ≠ 0 →
      s.connections.length + s.world.backlog < cfg.maxConnections
  | .acceptAll => s.world.listenEdge = true ∨ s.world.backlog ≤ acceptBatch
  | .accept .eintr =>
      s.world.listenEdge = true ∨ s.world.backlog + rounds s.world.pc < acceptBatch
  | .accept .error => s.world.listenEdge = true ∨ s.world.backlog = 0
  | _ => True

instance (cfg : Config) (s : State) (a : Act) : Decidable (WithinBatch cfg s a) := by
  unfold WithinBatch
  split <;> infer_instance

namespace Attentive

variable {cfg : Config} {s s' : State} {a : Act}

theorem init : Attentive cfg (.init cfg) := ⟨fun _ => Nat.zero_le _, .inl rfl⟩

theorem spares (h : Attentive cfg s) (hs : Spared listener s s') : Attentive cfg s' where
  crowd hmax := by
    have hbacklog : s'.world.backlog = s.world.backlog := congrArg Prod.fst hs.part
    have := h.crowd hmax
    have := hs.size
    omega
  noticed := hs.part ▸ h.noticed

theorem goto (h : Attentive cfg s) {pc : Loop}
    (hpc : Noticed cfg (s.world.backlog, s.world.listenEdge, pc)) : Attentive cfg (s.setPc pc) :=
  ⟨h.crowd, hpc⟩

theorem skip (h : Attentive cfg s) (pc : Loop) {e : PollEvent}
    (hpc : s.world.pc = .batch (e :: pc.events)) (he : e.fd ≠ cfg.listenFd) :
    Noticed cfg (s.world.backlog, s.world.listenEdge, pc) := by
  rcases h.noticed with hnone | hedge | ⟨e', he', hlisten⟩ | ⟨now, accepted, evs, hacc, -⟩
  · exact .inl hnone
  · exact .inr (.inl hedge)
  · rw [hpc] at he'
    rcases List.mem_cons.mp he' with rfl | he'
    · exact absurd hlisten he
    · exact .inr (.inr (.inl ⟨e', he', hlisten⟩))
  · cases hpc.symm.trans hacc

theorem stay (h : Attentive cfg s) {pc : Loop} (hevents : pc.events = s.world.pc.events)
    (hpc : ∀ now accepted evs, s.world.pc ≠ .accepting now accepted evs) :
    Noticed cfg (s.world.backlog, s.world.listenEdge, pc) := by
  rcases h.noticed with hnone | hedge | hevent | ⟨now, accepted, evs, hacc, -⟩
  · exact .inl hnone
  · exact .inr (.inl hedge)
  · refine .inr (.inr (.inl ?_))
    rw [hevents]
    exact hevent
  · exact absurd hacc (hpc now accepted evs)

theorem poll (h : Attentive cfg s) (hwait : s.world.pc = .wait) (evs : List PollEvent) :
    Attentive cfg { s with world := s.world.deliver cfg.listenFd evs } := by
  refine ⟨h.crowd, ?_⟩
  change Noticed cfg (s.world.backlog,
    s.world.listenEdge && !(evs.any fun e => e.fd = cfg.listenFd), .batch evs)
  rcases h.noticed with hnone | hedge | ⟨e, he, -⟩ | ⟨now, accepted, evs, hacc, -⟩
  · exact .inl hnone
  · by_cases hany : evs.any (fun e => e.fd = cfg.listenFd) = true
    · obtain ⟨e, he, hfd⟩ := List.any_eq_true.mp hany
      exact .inr (.inr (.inl ⟨e, he, of_decide_eq_true hfd⟩))
    · exact .inr (.inl (by
        have hedge : s.world.listenEdge = true := hedge
        simp only [hedge, Bool.eq_false_iff.mpr hany, Bool.not_false, Bool.and_self]))
  · simp [hwait, Loop.events] at he
  · cases hwait.symm.trans hacc

variable {now accepted : Nat} {evs : List PollEvent}

theorem leave (h : Attentive cfg s) (hpc : s.world.pc = .accepting now accepted evs)
    (hdone : s.world.backlog + accepted ≤ acceptBatch →
      s.world.listenEdge = true ∨ s.world.backlog = 0) : Attentive cfg (s.setPc (.batch evs)) := by
  refine h.goto ?_
  rcases h.noticed with hnone | hedge | hevent | ⟨now', accepted', evs', hacc, hrounds⟩
  · exact .inl hnone
  · exact .inr (.inl hedge)
  · rw [hpc] at hevent
    exact .inr (.inr (.inl hevent))
  · cases hpc.symm.trans hacc
    exact (hdone hrounds).elim (fun hedge => .inr (.inl hedge)) .inl

theorem round (h : Attentive cfg s) {backlog : Nat}
    (hpc : s.world.pc = .accepting now accepted evs) (hle : backlog ≤ s.world.backlog)
    (hrounds : s.world.backlog + accepted ≤ acceptBatch →
      s.world.listenEdge = true ∨ backlog + (accepted + 1) ≤ acceptBatch) :
    Noticed cfg (backlog, s.world.listenEdge, .accepting now (accepted + 1) evs) := by
  rcases h.noticed with hnone | hedge | hevent | ⟨now', accepted', evs', hacc, hold⟩
  · exact .inl (Nat.le_zero.mp (hnone ▸ hle))
  · exact .inr (.inl hedge)
  · rw [hpc] at hevent
    exact .inr (.inr (.inl hevent))
  · cases hpc.symm.trans hacc
    rcases hrounds hold with hedge | hnew
    · exact .inr (.inl hedge)
    · exact .inr (.inr (.inr ⟨now, accepted + 1, evs, rfl, hnew⟩))

theorem acceptRound (h : Attentive cfg s) {r : AcceptResult}
    (hpc : s.world.pc = .accepting now accepted evs) (hwithin : WithinBatch cfg s (.accept r))
    (hround : s.acceptRound cfg now accepted evs r = some s') : Attentive cfg s' := by
  unfold State.acceptRound at hround
  split at hround
  · cases hround
  · cases r with
    | eagain =>
      simp only at hround
      split at hround
      · rename_i hnone
        cases hround
        exact h.leave hpc fun _ => .inr hnone
      · cases hround
    | eintr =>
      cases hround
      refine h.goto (h.round hpc (Nat.le_refl _) fun _ => ?_)
      have hwithin : s.world.listenEdge = true ∨
          s.world.backlog + rounds s.world.pc < acceptBatch := hwithin
      rw [hpc] at hwithin
      exact hwithin
    | error =>
      cases hround
      exact h.leave hpc fun _ => hwithin
    | conn fd ip addOk =>
      simp only at hround
      split at hround
      · rename_i hguard
        -- one client less waits, and at most one connection more is open
        obtain ⟨bl, win, hgate⟩ := ipGate_same cfg (({ s with world := s.world.opened fd } :
          State).setPc (.accepting now (accepted + 1) evs)) ip now
        have hbacklog : s.world.backlog - 1 + 1 = s.world.backlog :=
          Nat.sub_add_cancel (Nat.pos_of_ne_zero hguard.1)
        have hnoticed : Noticed cfg (s.world.backlog - 1, s.world.listenEdge,
            .accepting now (accepted + 1) evs) :=
          h.round hpc (Nat.sub_le _ _) fun hold => .inr (by omega)
        have hcrowd := h.crowd
        rw [hgate] at hround
        split at hround
        · cases hround
          refine ⟨fun hmax => ?_, hnoticed⟩
          have := hcrowd hmax
          change s.connections.length + (s.world.backlog - 1) ≤ cfg.maxConnections
          omega
        · obtain ⟨hlistener, hsize⟩ := listener_untouched.register hround
          refine ⟨fun hmax => ?_, hlistener ▸ hnoticed⟩
          have hnew : s'.world.backlog = s.world.backlog - 1 := congrArg Prod.fst hlistener
          have hsize : s'.connections.length ≤ s.connections.length + 1 := hsize
          have := hcrowd hmax
          omega
      · cases hround

theorem acceptCap (h : Attentive cfg s) (hpc : s.world.pc = .accepting now accepted evs)
    (hcap : accepted ≥ acceptBatch ∨
      (cfg.maxConnections ≠ 0 ∧ s.connections.length ≥ cfg.maxConnections)) :
    Attentive cfg (s.setPc (.batch evs)) := by
  refine h.leave hpc fun hrounds => .inr ?_
  rcases hcap with hbatch | ⟨hmax, hfull⟩
  · omega
  · have := h.crowd hmax
    omega

theorem loopStep (h : Attentive cfg s) (hwithin : WithinBatch cfg s a)
    (hloop : Reactor.loopStep cfg s s.world.pc a = some s') : Attentive cfg s' := by
  generalize hpc : s.world.pc = pc at hloop
  unfold Reactor.loopStep at hloop
  split at hloop
  case h_1 evs =>
    split at hloop <;> cases hloop
    exact h.poll hpc evs
  case h_2 =>
    split at hloop <;> cases hloop
    exact h
  case h_3 =>
    split at hloop <;> cases hloop
    exact h.goto (h.stay (by rw [hpc]; rfl) (by simp [hpc]))
  case h_4 e evs =>
    split at hloop <;> cases hloop
    refine h.goto ?_
    rcases hwithin with hedge | hbatch
    · exact .inr (.inl hedge)
    · exact .inr (.inr (.inr ⟨_, 0, evs, rfl, hbatch⟩))
  case h_5 e evs io =>
    split at hloop
    · cases hloop
    · rename_i hother
      have hskip := h.goto (h.skip (.batch evs) hpc hother)
      exact hskip.spares (.onClientEvent listener_untouched hloop)
  case h_6 io =>
    split at hloop
    · rename_i hb rest _
      have htake : Attentive cfg { s with world := { s.world with outbox := rest } } :=
        h.spares (.world rfl)
      exact htake.spares (.drainHandback listener_untouched hloop)
    · cases hloop
  case h_7 =>
    cases hloop
    exact h.goto (h.stay (by rw [hpc]; rfl) (by simp [hpc]))
  case h_8 now accepted evs r => exact h.acceptRound hpc hwithin hloop
  case h_9 now accepted evs =>
    split at hloop <;> cases hloop
    rename_i hcap
    exact h.acceptCap hpc hcap
  case h_10 =>
    obtain ⟨s₁, hsweep, rfl⟩ := Option.map_eq_some_iff.mp hloop
    have hsweeps := (Spared.sweepIdleConnections listener_untouched hsweep).trans
      (.sweepIpRate cfg s₁)
    have hswept := h.spares hsweeps
    have hpc' : (s₁.sweepIpRate cfg).world.pc = .sweeping :=
      (congrArg (fun l => l.2.2) hsweeps.part).trans hpc
    exact hswept.goto (hswept.stay (by rw [hpc']; rfl) (by simp [hpc']))
  case h_11 =>
    obtain ⟨hbacklog, hedge, hstopped, hconns⟩ := finishStop_listener hloop
    refine ⟨fun hmax => ?_, ?_⟩
    · have := h.crowd hmax
      rw [hconns, hbacklog, List.length_nil]
      omega
    · rw [listener, hbacklog, hedge, hstopped]
      exact h.stay (by rw [hpc]; rfl) (by simp [hpc])
  case h_12 => cases hloop

theorem step (h : Attentive cfg s) (hwithin : WithinBatch cfg s a)
    (hstep : Reactor.step cfg s a = some s') : Attentive cfg s' := by
  unfold Reactor.step at hstep
  split at hstep
  case h_1 d =>
    cases hstep
    exact h.spares (.world rfl)
  case h_2 =>
    cases hstep
    exact ⟨fun hmax => hwithin hmax, .inr (.inl rfl)⟩
  case h_3 fd bs =>
    obtain ⟨w, hw, rfl⟩ := Option.map_eq_some_iff.mp hstep
    obtain ⟨j, -, rfl⟩ := World.arrive_eq hw
    exact h.spares (.world rfl)
  case h_4 fd =>
    obtain ⟨w, hw, rfl⟩ := Option.map_eq_some_iff.mp hstep
    obtain ⟨j, -, rfl⟩ := World.hangup_eq hw
    exact h.spares (.world rfl)
  case h_5 =>
    obtain ⟨w, hw, rfl⟩ := Option.map_eq_some_iff.mp hstep
    exact h.spares (.world (listener_start hw))
  case h_6 i o =>
    obtain ⟨w, hw, rfl⟩ := Option.map_eq_some_iff.mp hstep
    exact h.spares (.world (listener_finish hw))
  case h_7 i =>
    obtain ⟨w, hw, rfl⟩ := Option.map_eq_some_iff.mp hstep
    exact h.spares (.world (listener_closeRejected hw))
  case h_8 =>
    cases hstep
    exact h.spares (.world rfl)
  case h_9 => exact h.loopStep hwithin hstep

end Attentive

/-- **No client is forgotten.** When the loop is about to wait and somebody waits to be accepted,
whether or not there is room, an edge of the listening descriptor is pending. -/
theorem listener_never_forgets {cfg : Config} {as : List Act} {s : State}
    (hrun : exec (step cfg) (.init cfg) as = some s)
    (hwithin : Meets (step cfg) (WithinBatch cfg) (.init cfg) as) (hwait : s.world.pc = .wait)
    (hbacklog : s.world.backlog ≠ 0) : s.world.listenEdge = true := by
  have h : Attentive cfg s := exec_invariant_of_meets
    (fun _ _ _ h hwithin hstep => Attentive.step h hwithin hstep) .init hwithin hrun
  rcases h.noticed with hnone | hedge | ⟨e, he, -⟩ | ⟨now, accepted, evs, hacc, -⟩
  · exact absurd hnone hbacklog
  · exact hedge
  · simp [hwait, Loop.events] at he
  · cases hwait.symm.trans hacc

/-- Two clients connect; the second comes while the first is being accepted. -/
theorem listener_never_forgets_latecomer :
    ∃ s ∈ exec (step .sample) (.init .sample)
        [.connect, .poll [⟨3, .Readable⟩], .acceptAll, .accept (.conn 5 1 true), .connect,
          .accept .error, .drained, .sweep],
      s.world.backlog = 1 ∧ s.world.listenEdge = true := by
  have hends : ∃ s ∈ exec (step .sample) (.init .sample)
        [.connect, .poll [⟨3, .Readable⟩], .acceptAll, .accept (.conn 5 1 true), .connect,
          .accept .error, .drained, .sweep],
      s.world.pc = .wait ∧ s.world.backlog = 1 := by decide +kernel
  obtain ⟨s, hrun, hwait, hone⟩ := hends
  refine ⟨s, hrun, hone, listener_never_forgets hrun (by decide +kernel) hwait ?_⟩
  simp [hone]

/-! ## The other ways out of `accept_all` -/

/-- The loop is about to wait, a client waits and there is room for it, but nothing will make the
loop look. -/
def Forgotten (cfg : Config) (s : State) : Prop :=
  s.world.pc = .wait ∧ s.world.backlog ≠ 0 ∧
    (cfg.maxConnections = 0 ∨ s.connections.length < cfg.maxConnections) ∧
    s.world.listenEdge = false

instance (cfg : Config) (s : State) : Decidable (Forgotten cfg s) :=
  inferInstanceAs (Decidable (_ ∧ _))

def burst : List Act :=
  List.replicate 129 .connect ++ [.poll [⟨3, .Readable⟩], .acceptAll] ++
    (List.range 128).map (fun i => .accept (.conn (5 + i) 1 true)) ++ [.acceptCap, .drained, .sweep]

def Config.single : Config := { Config.sample with maxConnections := 1 }

def fullHouse : List Act :=
  [.connect, .connect, .poll [⟨3, .Readable⟩], .acceptAll, .accept (.conn 5 1 true), .acceptCap,
    .drained, .sweep, .hangup 5, .poll [⟨5, .Readable⟩], .event { reads := [.eof] }, .drained,
    .sweep]

def outOfDescriptors : List Act :=
  [.connect, .poll [⟨3, .Readable⟩], .acceptAll, .accept .error, .drained, .sweep]

/-- **Forgotten clients**: behind a full batch, behind the limit of connections once one of them
is closed, and behind an error of `accept`. -/
theorem pending_connection_forgotten :
    (∃ s ∈ exec (step .sample) (.init .sample) burst, Forgotten .sample s) ∧
    (∃ s ∈ exec (step .single) (.init .single) fullHouse, Forgotten .single s) ∧
    (∃ s ∈ exec (step .sample) (.init .sample) outOfDescriptors, Forgotten .sample s) := by
  refine ⟨?_, ?_, ?_⟩
  · decide +kernel
  · decide +kernel
  · decide +kernel

/-! ## The limit on connections -/

section Limit

variable {cfg : Config} {s s' : State} {a : Act}

theorem anything_untouched : Untouched fun _ : World => () where
  sysRead _ := rfl
  sysWrite _ := rfl
  close _ _ _ := rfl
  arm _ _ _ _ := rfl
  enqueue _ _ _ _ := rfl

/-- `accept_all` looks at the limit before each call of `accept`. -/
theorem acceptRound_within {now accepted : Nat} {evs : List PollEvent} {r : AcceptResult}
    (hmax : cfg.maxConnections ≠ 0) (h : s.acceptRound cfg now accepted evs r = some s')
    (hs : s.connections.length ≤ cfg.maxConnections) :
    s'.connections.length ≤ cfg.maxConnections := by
  unfold State.acceptRound at h
  split at h
  · cases h
  · rename_i hguard
    have hroom : s.connections.length < cfg.maxConnections := by omega
    cases r with
    | eagain =>
      simp only at h
      split at h <;> cases h
      exact hs
    | eintr | error =>
      cases h
      exact hs
    | conn fd ip addOk =>
      simp only at h
      split at h
      · obtain ⟨bl, win, hgate⟩ := ipGate_same cfg (({ s with world := s.world.opened fd } :
          State).setPc (.accepting now (accepted + 1) evs)) ip now
        rw [hgate] at h
        split at h
        · cases h
          exact hs
        · exact Nat.le_trans (anything_untouched.register h).2 hroom
      · cases h

theorem step_within (hmax : cfg.maxConnections ≠ 0)
    (hs : s.connections.length ≤ cfg.maxConnections) (h : step cfg s a = some s') :
    s'.connections.length ≤ cfg.maxConnections := by
  unfold step at h
  split at h
  case h_1 | h_2 | h_8 =>
    cases h
    exact hs
  case h_3 | h_4 | h_5 | h_6 | h_7 =>
    obtain ⟨w, -, rfl⟩ := Option.map_eq_some_iff.mp h
    exact hs
  case h_9 =>
    generalize s.world.pc = pc at h
    unfold loopStep at h
    split at h
    case h_1 | h_2 | h_3 | h_4 | h_9 =>
      split at h <;> cases h
      exact hs
    case h_5 e evs io =>
      split at h
      · cases h
      · exact Nat.le_trans (Spared.onClientEvent anything_untouched h).size hs
    case h_6 io =>
      split at h
      · exact Nat.le_trans (Spared.drainHandback anything_untouched h).size hs
      · cases h
    case h_7 =>
      cases h
      exact hs
    case h_8 => exact acceptRound_within hmax h hs
    case h_10 =>
      obtain ⟨s₁, hsweep, rfl⟩ := Option.map_eq_some_iff.mp h
      exact Nat.le_trans ((Spared.sweepIdleConnections anything_untouched hsweep).trans
        (.sweepIpRate cfg s₁)).size hs
    case h_11 =>
      rw [(finishStop_listener h).2.2.2]
      exact Nat.zero_le _
    case h_12 => cases h

/-- **The limit holds.** However clients come, go, send and are served, the reactor never has more
connections than `max_connections_`. -/
theorem connections_within_limit (hmax : cfg.maxConnections ≠ 0) {as : List Act}
    (hrun : exec (step cfg) (.init cfg) as = some s) :
    s.connections.length ≤ cfg.maxConnections :=
  exec_invariant (I := fun s => s.connections.length ≤ cfg.maxConnections)
    (fun _ _ _ hs hstep => step_within hmax hs hstep) (Nat.zero_le _) hrun

theorem connections_within_limit_fullHouse :
    ∃ s ∈ exec (step .single) (.init .single) (fullHouse.take 5), s.connections.length = 1 ∧
      s.connections.length ≤ Config.single.maxConnections := by
  have hends : ∃ s ∈ exec (step .single) (.init .single) (fullHouse.take 5),
      s.connections.length = 1 := by decide +kernel
  obtain ⟨s, hrun, hone⟩ := hends
  exact ⟨s, hrun, hone, connections_within_limit (by decide) hrun⟩

end Limit

end Muses.Reactor
