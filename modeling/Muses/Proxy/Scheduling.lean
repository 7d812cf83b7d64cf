import Muses.Proxy.Books

/-!
# Who waits for what

The poller's registrations and the events of a batch lead to suspended coroutines. The invariant is
stated for the whole time in which the loop runs, and needs that the poller accepts what it is
given (`AddsSucceed`).
-/

namespace Muses.Proxy

open Muses.Core Function

/-- No `add` of the poller fails. -/
def AddsSucceed (_ : State) : Act → Prop
  | .run io => io.addOk = true
  | _ => True

instance (s : State) (a : Act) : Decidable (AddsSucceed s a) := by
  unfold AddsSucceed
  split <;> infer_instance

/-- The coroutine is finished, or the poller knows what it waits for. -/
inductive Parked (s : State) (id : ConnId) (f : Frame) : Prop where
  | finished (hpc : f.pc = .finished) (hwait : f.waiting = none)
  | waiting {fd : Fd} {m : EventMask} (hwait : f.waiting = some fd)
      (hawaits : f.pc.awaits f.client = some fd) (hreg : s.interest fd = some (m, id))

/-- Every coroutine is running, registered or finished, and every event has its coroutine. -/
structure Scheduled (cfg : Config) (s : State) : Prop where
  active : ∀ id, s.active = some id →
    ∃ f, s.frames id = some f ∧ f.waiting = none ∧ f.pc ≠ .finished
  parked : ∀ id f, s.frames id = some f → s.active ≠ some id → Parked s id f
  registered : ∀ fd m id, s.interest fd = some (m, id) →
    ∃ f, s.frames id = some f ∧ f.waiting = some fd
  events : ∀ e ∈ s.pc.events, (e.fd = cfg.listenFd ∧ e.userdata = none) ∨
    ∃ m id, e.userdata = some id ∧ s.interest e.fd = some (m, id)
  nodup : (s.pc.events.map Event.fd).Nodup
  listen : s.fds cfg.listenFd = none

section

variable {cfg : Config} {s s' s₁ : State} {a : Act} {acts : List Act} {id : ConnId} {f : Frame}

theorem Scheduled.init : Scheduled cfg .init where
  active _ h := by cases h
  parked _ _ h := by cases h
  registered _ _ _ h := by cases h
  events _ h := by cases h
  nodup := List.nodup_nil
  listen := rfl

namespace Scheduled

variable {fd : Fd}

theorem awaits_of_registered (h : Scheduled cfg s) {m : EventMask}
    (hreg : s.interest fd = some (m, id)) :
    ∃ f, s.frames id = some f ∧ f.waiting = some fd ∧ f.pc.awaits f.client = some fd ∧
      s.active ≠ some id := by
  obtain ⟨f, hid, hwait⟩ := h.registered fd m id hreg
  have hactive : s.active ≠ some id := by
    intro hactive
    obtain ⟨g, hg, hnone, -⟩ := h.active id hactive
    rw [hid, Option.some.injEq] at hg
    rw [← hg, hwait] at hnone
    cases hnone
  cases h.parked id f hid hactive with
  | finished _ hnone =>
    rw [hwait] at hnone
    cases hnone
  | @waiting fd' m' hwait' hawaits hreg' =>
    rw [hwait, Option.some.injEq] at hwait'
    exact ⟨f, hid, hwait, hwait' ▸ hawaits, hactive⟩

theorem unregistered (h : Scheduled cfg s) (hplaced : Placed s.view) (hid : s.frames id = some f)
    (hwait : f.waiting = none) (hfd : f.client = fd ∨ f.pc.upFd = some fd) :
    s.interest fd = none := by
  by_contra hne
  obtain ⟨⟨m, j⟩, hreg⟩ := Option.ne_none_iff_exists'.mp hne
  obtain ⟨g, hj, hwait', hawaits, -⟩ := h.awaits_of_registered hreg
  have hji : j = id := by
    rcases hfd with hclient | hup
    · exact hplaced.awaits_client (tasks_view hj) (tasks_view hid) hawaits hclient
    · exact hplaced.awaits_inj (tasks_view hj) (tasks_view hid) hawaits
        (Pc.awaits_of_upFd f.client hup)
  subst hji
  rw [hid, Option.some.injEq] at hj
  rw [← hj, hwait] at hwait'
  cases hwait'

theorem unregistered_of_closed (h : Scheduled cfg s) (hplaced : Placed s.view)
    (hfd : s.fds fd = none) : s.interest fd = none := by
  by_contra hne
  obtain ⟨⟨m, j⟩, hreg⟩ := Option.ne_none_iff_exists'.mp hne
  obtain ⟨g, hj, -, hawaits, -⟩ := h.awaits_of_registered hreg
  have hopen : (s.fds fd).isSome := hplaced.open_of_awaits (tasks_view hj) hawaits
  rw [hfd] at hopen
  cases hopen

theorem unregistered_of_pooled (h : Scheduled cfg s) (hplaced : Placed s.view) {key : Bytes}
    (hfd : fd ∈ s.pools key) : s.interest fd = none := by
  by_contra hne
  obtain ⟨⟨m, j⟩, hreg⟩ := Option.ne_none_iff_exists'.mp hne
  obtain ⟨g, hj, -, hawaits, -⟩ := h.awaits_of_registered hreg
  rcases Pc.awaits_cases hawaits with hclient | hup
  · exact hplaced.ne_client (tasks_view hj) (hplaced.pooled key fd hfd) hclient.symm
  · refine hplaced.lease.held_idle j key fd ?_ hfd
    rw [Placed.held_of_task (tasks_view hj)]
    exact hup

theorem unregistered_of_hold (h : Scheduled cfg s) (hplaced : Placed s.view)
    (hid : s.frames id = some f) (hwait : f.waiting = none) {up : Option Fd}
    (hhold : Hold cfg s f s₁ up) (hup : up = some fd) : s.interest fd = none := by
  cases hhold with
  | keep => exact h.unregistered hplaced hid hwait (.inr hup)
  | close | pool => cases hup
  | @reuse g key rest _ hpool =>
    obtain rfl := Option.some.inj hup
    exact h.unregistered_of_pooled hplaced (hpool ▸ List.mem_cons_self)
  | connect _ hfd =>
    obtain rfl := Option.some.inj hup
    exact h.unregistered_of_closed hplaced hfd

end Scheduled

theorem Hold.interest_eq {up : Option Fd} (h : Hold cfg s f s₁ up)
    (hfree : ∀ fd, f.pc.upFd = some fd → s.interest fd = none) : s₁.interest = s.interest := by
  cases h with
  | keep hcalm | pool _ _ hcalm | reuse _ _ hcalm | connect _ _ _ hcalm => exact hcalm.interest
  | close hup hcalm =>
    rw [hcalm.interest]
    exact update_eq_self_iff.mpr (hfree _ hup).symm

theorem Hold.listen {up : Option Fd} (h : Hold cfg s f s₁ up)
    (hlisten : s.fds cfg.listenFd = none) :
    s₁.fds cfg.listenFd = none := by
  cases h with
  | keep hcalm | pool _ _ hcalm | reuse _ _ hcalm =>
    rw [hcalm.fds]
    exact hlisten
  | close _ hcalm =>
    rw [hcalm.fds]
    simp only [State.close, update_apply]
    split
    · rfl
    · exact hlisten
  | connect _ _ hne hcalm =>
    rw [hcalm.fds]
    simpa [State.openConn, hne.symm] using hlisten

/-! ## A step of a coroutine -/

/-- How the active coroutine stops, with the record `f'` afterwards: before its next system call,
at its end, or suspended. -/
inductive Stops (s : State) (id : ConnId) (s' : State) (f' : Frame) : Prop where
  | goes (hactive : s'.active = some id) (hwait : f'.waiting = none) (hfin : f'.pc ≠ .finished)
      (hint : s'.interest = s.interest)
  | ends (hactive : s'.active = none) (hwait : f'.waiting = none) (hfin : f'.pc = .finished)
      (hint : s'.interest = s.interest)
  | waits {fd : Fd} {m : EventMask} (hactive : s'.active = none) (hwait : f'.waiting = some fd)
      (hawaits : f'.pc.awaits f'.client = some fd) (hfree : s.interest fd = none)
      (hint : s'.interest = update s.interest fd (some (m, id)))

theorem Scheduled.stops (h : Scheduled cfg s) (hplaced : Placed s.view) (hplaced' : Placed s'.view)
    {io : Io} (hadd : io.addOk = true) (hactive : s.active = some id)
    (hid : s.frames id = some f) (hleads : Leads cfg s id f io s') :
    ∃ f', s'.frames = update s.frames id (some f') ∧ Stops s id s' f' ∧
      s'.fds cfg.listenFd = none := by
  obtain ⟨g, hg, hwait, -⟩ := h.active id hactive
  obtain rfl : f = g := Option.some.inj (hid.symm.trans hg)
  have hfree (fd : Fd) (hup : f.pc.upFd = some fd) : s.interest fd = none :=
    h.unregistered hplaced hid hwait (.inr hup)
  cases hleads with
  | @goto s₁ pc index hhold hnext hroute =>
    refine ⟨{ f with index := index, pc := pc }, ?_, .goes ?_ hwait hnext.ne_finished ?_,
      hhold.listen h.listen⟩
    · rw [← hhold.same.1]
      rfl
    · exact hhold.same.2.2.2.trans hactive
    · exact hhold.interest_eq hfree
  | @await s₁ pc fd mask hhold hnext hroute hfd =>
    have hopen : (s₁.fds fd).isSome := by
      have hid' : (s₁.awaitIo id f fd mask io.addOk pc).frames id = some _ :=
        update_self ..
      exact hplaced'.open_of_awaits (tasks_view hid') hfd
    have hnone : s.interest fd = none := by
      rcases Pc.awaits_cases hfd with hclient | hup
      · exact h.unregistered hplaced hid hwait (.inl hclient)
      · exact h.unregistered_of_hold hplaced hid hwait hhold hup
    refine ⟨{ f with pc := pc, waiting := some fd }, ?_, .waits rfl rfl hfd hnone (m := mask) ?_,
      hhold.listen h.listen⟩
    · rw [← hhold.same.1]
      rfl
    · simp only [State.awaitIo, hhold.interest_eq hfree, hadd, hopen, hnone, and_self, if_true]
  | @finish s₁ hcalm hend =>
    refine ⟨{ f with pc := .finished }, ?_, .ends rfl hwait rfl hcalm.interest, ?_⟩
    · rw [← hcalm.frames]
      rfl
    · exact (congrFun hcalm.fds cfg.listenFd).trans h.listen

theorem Scheduled.leads (h : Scheduled cfg s) (hplaced : Placed s.view) (hplaced' : Placed s'.view)
    {io : Io} (hadd : io.addOk = true) (hactive : s.active = some id)
    (hid : s.frames id = some f) (hleads : Leads cfg s id f io s') : Scheduled cfg s' := by
  obtain ⟨f', hframes, hstops, hlisten⟩ := h.stops hplaced hplaced' hadd hactive hid hleads
  have hself : s'.frames id = some f' := by rw [hframes, update_self]
  have hothers {j : ConnId} (hj : j ≠ id) : s'.frames j = s.frames j := by
    rw [hframes, update_of_ne hj]
  have hpc := hleads.same.2
  have hkeep {fd : Fd} {m : EventMask} {j : ConnId} (hreg : s.interest fd = some (m, j)) :
      s'.interest fd = some (m, j) := by
    cases hstops with
    | goes _ _ _ hint | ends _ _ _ hint => rw [hint, hreg]
    | @waits fd' m' _ _ _ hfree hint =>
      have hne : fd ≠ fd' := by
        rintro rfl
        rw [hfree] at hreg
        cases hreg
      rw [hint, update_of_ne hne, hreg]
  exact {
    active := fun j hj => by
      cases hstops with
      | goes hact hwait hfin =>
        rw [hact, Option.some.injEq] at hj
        exact hj ▸ ⟨f', hself, hwait, hfin⟩
      | ends hact | waits hact =>
        rw [hact] at hj
        cases hj
    parked := fun j g hj hnot => by
      by_cases hji : j = id
      · subst hji
        obtain rfl : f' = g := Option.some.inj (hself.symm.trans hj)
        cases hstops with
        | goes hact => exact absurd hact hnot
        | ends _ hwait hfin => exact .finished hfin hwait
        | @waits fd m _ hwait hawaits _ hint =>
          exact .waiting hwait hawaits (m := m) (by rw [hint, update_self])
      · rw [hothers hji] at hj
        have hne : s.active ≠ some j := by
          rw [hactive]
          exact fun heq => hji (Option.some.inj heq).symm
        cases h.parked j g hj hne with
        | finished hfin hwait => exact .finished hfin hwait
        | waiting hwait hawaits hreg => exact .waiting hwait hawaits (hkeep hreg)
    registered := fun fd m j hreg => by
      have hold (hreg : s.interest fd = some (m, j)) :
          ∃ f, s'.frames j = some f ∧ f.waiting = some fd := by
        obtain ⟨g, hj, hwait, -, hne⟩ := h.awaits_of_registered hreg
        have hji : j ≠ id := fun heq => hne (heq ▸ hactive)
        exact ⟨g, by rw [hothers hji, hj], hwait⟩
      cases hstops with
      | goes _ _ _ hint | ends _ _ _ hint => exact hold (hint ▸ hreg)
      | @waits fd' m' _ hwait _ _ hint =>
        rw [hint] at hreg
        by_cases hfd : fd = fd'
        · subst hfd
          rw [update_self, Option.some.injEq, Prod.mk.injEq] at hreg
          exact hreg.2 ▸ ⟨f', hself, hwait⟩
        · rw [update_of_ne hfd] at hreg
          exact hold hreg
    events := fun e he => by
      rw [hpc] at he
      rcases h.events e he with hl | ⟨m, j, hdata, hreg⟩
      · exact .inl hl
      · exact .inr ⟨m, j, hdata, hkeep hreg⟩
    nodup := by
      rw [hpc]
      exact h.nodup
    listen := hlisten }

/-! ## A step of the loop -/

theorem Scheduled.calm (h : Scheduled cfg s) (hcalm : Calm s s') : Scheduled cfg s' where
  active id hid := by
    rw [hcalm.active] at hid
    rw [hcalm.frames]
    exact h.active id hid
  parked id f hid hne := by
    rw [hcalm.frames] at hid
    rw [hcalm.active] at hne
    cases h.parked id f hid hne with
    | finished hpc hwait => exact .finished hpc hwait
    | waiting hwait hawaits hreg => exact .waiting hwait hawaits (by rw [hcalm.interest, hreg])
  registered fd m id hreg := by
    rw [hcalm.frames]
    exact h.registered fd m id (hcalm.interest ▸ hreg)
  events e he := by
    rw [hcalm.interest]
    exact h.events e (hcalm.pc ▸ he)
  nodup := by
    rw [hcalm.pc]
    exact h.nodup
  listen := by
    rw [hcalm.fds]
    exact h.listen

theorem Scheduled.setLoop (h : Scheduled cfg s) {pc : Loop}
    (hevents : ∀ e ∈ pc.events, (e.fd = cfg.listenFd ∧ e.userdata = none) ∨
      ∃ m id, e.userdata = some id ∧ s.interest e.fd = some (m, id))
    (hnodup : (pc.events.map Event.fd).Nodup) : Scheduled cfg (s.setLoop pc) where
  active := h.active
  parked id f hid hne := by
    cases h.parked id f hid hne with
    | finished hpc hwait => exact .finished hpc hwait
    | waiting hwait hawaits hreg => exact .waiting hwait hawaits hreg
  registered := h.registered
  events := hevents
  nodup := hnodup
  listen := h.listen

theorem Scheduled.pass (h : Scheduled cfg s) {pc : Loop} (hsuffix : pc.events <:+ s.pc.events) :
    Scheduled cfg (s.setLoop pc) :=
  h.setLoop (fun e he => h.events e (hsuffix.mem he)) (h.nodup.sublist (hsuffix.sublist.map _))

theorem Scheduled.poll (h : Scheduled cfg s) {evs : List (Fd × EventMask)}
    (hnodup : (evs.map Prod.fst).Nodup) (hreports : ∀ e ∈ evs, s.reports cfg e = true) :
    Scheduled cfg (s.setLoop (.batch (evs.map s.toEvent))) := by
  refine h.setLoop (fun e he => ?_) ?_
  · obtain ⟨⟨fd, mask⟩, hmem, rfl⟩ := List.mem_map.mp he
    cases hreg : s.interest fd with
    | some r => exact .inr ⟨r.1, r.2, by simp [State.toEvent, hreg], hreg⟩
    | none =>
      have hlisten := hreports _ hmem
      simp only [State.reports, hreg, Bool.or_false, decide_eq_true_eq] at hlisten
      exact .inl ⟨hlisten, by simp [State.toEvent, hreg]⟩
  · show ((evs.map s.toEvent).map Event.fd).Nodup
    rw [List.map_map]
    exact hnodup

variable {evs : List Event}

theorem Scheduled.resume (h : Scheduled cfg s) {e : Event} (hactive : s.active = none)
    (hpc : s.pc = .batch (e :: evs)) (hdata : e.userdata = some id) (hid : s.frames id = some f) :
    Scheduled cfg { s with
      pc := .batch evs
      interest := update s.interest e.fd none
      frames := update s.frames id (some { f with waiting := none })
      active := some id } := by
  have hnodup := h.nodup
  have hevents := h.events
  rw [hpc] at hnodup hevents
  obtain ⟨hnot, hnodup⟩ := List.nodup_cons.mp hnodup
  obtain ⟨m, hreg⟩ : ∃ m, s.interest e.fd = some (m, id) := by
    rcases hevents e List.mem_cons_self with ⟨-, hnone⟩ | ⟨m, j, hj, hreg⟩
    · rw [hdata] at hnone
      cases hnone
    · rw [hdata, Option.some.injEq] at hj
      exact ⟨m, hj ▸ hreg⟩
  have hother {fd : Fd} {m' : EventMask} {j : ConnId} (hj : j ≠ id)
      (hreg' : s.interest fd = some (m', j)) : fd ≠ e.fd := by
    rintro rfl
    rw [hreg, Option.some.injEq, Prod.mk.injEq] at hreg'
    exact hj hreg'.2.symm
  obtain ⟨hwait, hawaits⟩ : f.waiting = some e.fd ∧ f.pc.awaits f.client = some e.fd := by
    obtain ⟨g, hg, hwait, hawaits, -⟩ := h.awaits_of_registered hreg
    obtain rfl : f = g := Option.some.inj (hid.symm.trans hg)
    exact ⟨hwait, hawaits⟩
  exact {
    active := fun j hj => by
      obtain rfl := Option.some.inj hj
      refine ⟨_, update_self .., rfl, fun hfin => ?_⟩
      rw [show f.pc = .finished from hfin] at hawaits
      cases hawaits
    parked := fun j g hj hne => by
      have hji : j ≠ id := fun heq => hne (heq ▸ rfl)
      have hj : s.frames j = some g := by simpa [hji] using hj
      cases h.parked j g hj (by rw [hactive]; nofun) with
      | finished hfin hwait => exact .finished hfin hwait
      | @waiting fd m' hwait hawaits hreg' =>
        refine .waiting hwait hawaits (m := m') ?_
        show update s.interest e.fd none fd = some (m', j)
        rw [update_of_ne (hother hji hreg'), hreg']
    registered := fun fd m' j hreg' => by
      have hfd : fd ≠ e.fd := by
        rintro rfl
        simp at hreg'
      have hreg' : s.interest fd = some (m', j) := by simpa [hfd] using hreg'
      obtain ⟨g, hj, hwait'⟩ := h.registered fd m' j hreg'
      have hji : j ≠ id := by
        rintro rfl
        obtain rfl : f = g := Option.some.inj (hid.symm.trans hj)
        exact hfd (Option.some.inj (hwait'.symm.trans hwait))
      exact ⟨g, by simpa [hji] using hj, hwait'⟩
    events := fun e' he' => by
      have hfd : e'.fd ≠ e.fd := fun heq => hnot (heq ▸ List.mem_map_of_mem he')
      rcases hevents e' (List.mem_cons_of_mem e he') with hl | ⟨m', j, hj, hreg'⟩
      · exact .inl hl
      · exact .inr ⟨m', j, hj, by simpa [hfd] using hreg'⟩
    nodup := hnodup
    listen := h.listen }

theorem Scheduled.spawn (h : Scheduled cfg s) (hplaced : Placed s.view) {fd : Fd} {accepted : Nat}
    (hactive : s.active = none) (hpc : s.pc = .accepting accepted evs)
    (hlisten : fd ≠ cfg.listenFd) : Scheduled cfg (s.spawn fd (accepted + 1) evs) := by
  have hold {j : ConnId} {g : Frame} (hj : s.frames j = some g) : j ≠ s.opened :=
    Nat.ne_of_lt (hplaced.frame_lt hj)
  have hevents := h.events
  have hnodup := h.nodup
  rw [hpc] at hevents hnodup
  exact {
    active := fun j hj => by
      obtain rfl := Option.some.inj hj
      exact ⟨_, update_self .., rfl, by simp⟩
    parked := fun j g hj hne => by
      have hnew : j ≠ s.opened := fun heq => hne (heq ▸ rfl)
      have hj : s.frames j = some g := by simpa [State.spawn, hnew] using hj
      cases h.parked j g hj (by simp [hactive]) with
      | finished hfin hwait => exact .finished hfin hwait
      | waiting hwait hawaits hreg => exact .waiting hwait hawaits hreg
    registered := fun fd' m j hreg => by
      obtain ⟨g, hj, hwait⟩ := h.registered fd' m j hreg
      exact ⟨g, by simpa [State.spawn, hold hj] using hj, hwait⟩
    events := hevents
    nodup := hnodup
    listen := by simpa [State.spawn, State.openConn, hlisten.symm] using h.listen }

theorem Scheduled.destroy (h : Scheduled cfg s) (keep : ConnId → Bool) (hactive : s.active = none)
    (hframes : ∀ id, s'.frames id = if keep id then s.frames id else none)
    (hended : ∀ id f, s.frames id = some f → keep id = false → f.pc = .finished)
    (hactive' : s'.active = none) (hint : s'.interest = s.interest)
    (hevents : s'.pc.events = s.pc.events) (hlisten : s'.fds cfg.listenFd = none) :
    Scheduled cfg s' where
  active _ hid := by
    rw [hactive'] at hid
    cases hid
  parked id f hid _ := by
    rw [hframes, Option.ite_none_right_eq_some] at hid
    cases h.parked id f hid.2 (by rw [hactive]; nofun) with
    | finished hfin hwait => exact .finished hfin hwait
    | waiting hwait hawaits hreg => exact .waiting hwait hawaits (by rw [hint, hreg])
  registered fd m id hreg := by
    rw [hint] at hreg
    obtain ⟨f, hid, hwait, hawaits, -⟩ := h.awaits_of_registered hreg
    have hkeep : keep id = true := by
      by_contra hnot
      rw [hended id f hid (by simpa using hnot)] at hawaits
      cases hawaits
    exact ⟨f, by rw [hframes, hkeep, if_pos rfl, hid], hwait⟩
  events e he := by
    rw [hint]
    exact h.events e (hevents ▸ he)
  nodup := by
    rw [hevents]
    exact h.nodup
  listen := hlisten

theorem Scheduled.discard (h : Scheduled cfg s) (hplaced : Placed s.view) {accepted : Nat}
    (hactive : s.active = none) (hpc : s.pc = .spawning id accepted evs)
    (hid : s.frames id = some f) (hfin : f.pc = .finished) :
    Scheduled cfg
      (((s.close f.client).destroyTask (some id)).setLoop (.accepting accepted evs)) := by
  have hwait : f.waiting = none := by
    cases h.parked id f hid (by rw [hactive]; nofun) with
    | finished _ hwait => exact hwait
    | waiting _ hawaits _ =>
      rw [hfin] at hawaits
      cases hawaits
  refine h.destroy (fun j => j ≠ id) hactive (fun j => ?_) (fun j g hj hkeep => ?_)
    hactive ?_ ?_ ?_
  · by_cases hji : j = id <;> simp [State.setLoop, State.destroyTask, State.close, hji]
  · obtain rfl : j = id := by simpa using hkeep
    obtain rfl : f = g := Option.some.inj (hid.symm.trans hj)
    exact hfin
  · exact update_eq_self_iff.mpr (h.unregistered hplaced hid hwait (.inl rfl)).symm
  · rw [hpc]
    rfl
  · show update s.fds f.client none cfg.listenFd = none
    rw [update_apply]
    split
    · rfl
    · exact h.listen

theorem Scheduled.loop (h : Scheduled cfg s) (hplaced : Placed s.view) (hfiled : Filed s)
    (hactive : s.active = none) (hmove : LoopMove cfg s a s') (hstop : s'.pc ≠ .stopped) :
    Scheduled cfg s' := by
  cases hmove with
  | poll _ hnodup hreports => exact h.poll hnodup hreports
  | drop _ hpc hevents =>
    refine h.pass ?_
    rw [hevents, hpc]
    exact List.suffix_cons _ _
  | stay _ hevents => exact h.pass (hevents ▸ List.suffix_refl _)
  | resume hpc hdata hid => exact h.resume hactive hpc hdata hid
  | spawn hpc _ hlisten => exact h.spawn hplaced hactive hpc hlisten
  | discard hpc hid hfin => exact h.discard hplaced hactive hpc hid hfin
  | adopt hpc hid =>
    rw [destroyTask_vacant (hfiled.vacant hplaced hid (by rw [hpc]; rfl))]
    refine h.destroy (fun _ => true) hactive (fun _ => rfl) nofun hactive rfl ?_ h.listen
    rw [hpc]
    rfl
  | reap hpc =>
    refine h.destroy
      (fun id => (s.frames id).all fun f => !(s.isDone id && s.liveTasks f.client = some id))
      hactive (fun id => ?_) (fun id f hid hkeep => ?_) hactive rfl ?_ h.listen
    · show (s.frames id).filter _ = _
      cases s.frames id with
      | none => simp
      | some f => simp [Option.filter]
    · simp only [hid, Option.all_some, Bool.not_eq_false', Bool.and_eq_true] at hkeep
      simpa [State.isDone, hid] using hkeep.1
    · rw [hpc]
      rfl
  | finishStop => exact absurd rfl hstop

/-! ## Every run -/

theorem Scheduled.step (h : Scheduled cfg s) (horderly : Orderly s) (hadd : AddsSucceed s a)
    (hstep : step cfg s a = some s') (hstop : s'.pc ≠ .stopped) : Scheduled cfg s' := by
  have hplaced' := (horderly.step hstep).placed
  rcases step_cases hstep with ⟨-, hcalm⟩ | ⟨io, id, f, rfl, hactive, hid, hrun⟩ | ⟨hactive, hmove⟩
  · exact h.calm hcalm
  · exact h.leads horderly.placed hplaced' hadd hactive hid
      (runFrame_leads (horderly.hungry id f hid) hrun)
  · exact h.loop horderly.placed horderly.filed hactive hmove hstop

end

end Muses.Proxy
