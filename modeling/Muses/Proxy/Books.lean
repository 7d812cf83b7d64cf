import Muses.Proxy.Coroutine
import Muses.Proxy.Ownership

/-!
# The task map

The loop's books about its coroutines: every frame belongs to a live task, except the one that
`accept_clients` has just created. This holds in every run; `Muses.Proxy.Descriptors` and
`Muses.Proxy.Scheduling` build on it.
-/

namespace Muses.Proxy

open Muses.Core Function

section

variable {cfg : Config} {s s' : State} {a : Act} {acts : List Act}

theorem allows_default (s : State) (a : Act) : Assume.Allows {} s a := by
  unfold Assume.Allows
  split <;> first | trivial | exact fun _ _ => trivial

theorem Placed.step (h : Placed s.view) (hstep : step cfg s a = some s') : Placed s'.view :=
  (step_moves hstep (allows_default s a)).invariant (fun _ _ h hmove => h.move hmove) h

variable {fd : Fd} {v : View} {t : Task} {id : ConnId} {f : Frame} {evs : List Event}

theorem Pc.awaits_cases {pc : Pc} {client : Fd} (h : pc.awaits client = some fd) :
    client = fd ∨ pc.upFd = some fd := by
  cases pc with
  | readHead | readBody | refusing | answering => exact .inl (Option.some.inj h)
  | connecting | forwarding | readUpHead | readUp => exact .inr h
  | acquiring | finished => cases h

theorem Pc.awaits_of_upFd {pc : Pc} (client : Fd) (h : pc.upFd = some fd) :
    pc.awaits client = some fd := by
  cases pc with
  | connecting | forwarding | readUpHead | readUp => exact h
  | _ => cases h

theorem Placed.awaits_client (h : Placed v) {i j : ConnId} {u : Task} (hi : v.tasks i = some t)
    (hj : v.tasks j = some u) (ht : t.pc.awaits t.client = some fd) (hu : u.client = fd) :
    i = j := by
  subst hu
  rcases Pc.awaits_cases ht with hclient | hup
  · have hi' := (h.client i t hi).1
    rw [hclient, (h.client j u hj).1, Option.some.injEq] at hi'
    exact hi'.symm
  · exact absurd rfl (h.ne_client hj (h.held i _ (by rw [held_of_task hi, hup])))

theorem Placed.awaits_inj (h : Placed v) {i j : ConnId} {u : Task} (hi : v.tasks i = some t)
    (hj : v.tasks j = some u) (ht : t.pc.awaits t.client = some fd)
    (hu : u.pc.awaits u.client = some fd) : i = j := by
  rcases Pc.awaits_cases hu with hclient | hup
  · exact h.awaits_client hi hj ht hclient
  · rcases Pc.awaits_cases ht with hclient' | hup'
    · exact (h.awaits_client hj hi hu hclient').symm
    · refine h.lease.held_inj i j fd ?_ ?_
      · rw [held_of_task hi, hup']
      · rw [held_of_task hj, hup]

theorem Placed.open_of_awaits (h : Placed v) (hid : v.tasks id = some t)
    (hfd : t.pc.awaits t.client = some fd) : (v.fds fd).isSome := by
  rcases Pc.awaits_cases hfd with rfl | hup
  · rw [(h.client id t hid).1]
    rfl
  · obtain ⟨c, hopen, -⟩ := h.held id fd (by rw [held_of_task hid, hup])
    rw [hopen]
    rfl

/-! ## Live tasks -/

/-- `live_tasks_` has every coroutine, under the descriptor of its client. -/
structure Filed (s : State) : Prop where
  live : ∀ fd id, s.liveTasks fd = some id → ∃ f, s.frames id = some f ∧ f.client = fd
  filed : ∀ id f, s.frames id = some f →
    s.liveTasks f.client = some id ∨ s.pc.newborn = some id
  fresh : ∀ fd id, s.liveTasks fd = some id → s.pc.newborn ≠ some id
  stopped : s.pc = .stopped → ∀ fd, s.liveTasks fd = none

theorem Filed.init : Filed .init where
  live _ _ h := by cases h
  filed _ _ h := by cases h
  fresh _ _ h := by cases h
  stopped h := by cases h

theorem Filed.frame (h : Filed s) (hlive : s'.liveTasks = s.liveTasks)
    (hpc : s'.pc.newborn = s.pc.newborn) (hstop : s'.pc = .stopped → s.pc = .stopped)
    (hkeep : ∀ id f, s.frames id = some f → ∃ f', s'.frames id = some f' ∧ f'.client = f.client)
    (hback : ∀ id f', s'.frames id = some f' → ∃ f, s.frames id = some f ∧ f'.client = f.client) :
    Filed s' where
  live fd id hid := by
    rw [hlive] at hid
    obtain ⟨f, hf, hclient⟩ := h.live fd id hid
    obtain ⟨f', hf', hsame⟩ := hkeep id f hf
    exact ⟨f', hf', hsame.trans hclient⟩
  filed id f' hf' := by
    obtain ⟨f, hf, hsame⟩ := hback id f' hf'
    rw [hlive, hpc, hsame]
    exact h.filed id f hf
  fresh fd id hid := by
    rw [hlive] at hid
    rw [hpc]
    exact h.fresh fd id hid
  stopped hs fd := by
    rw [hlive]
    exact h.stopped (hstop hs) fd

theorem Filed.vacant (h : Filed s) (hplaced : Placed s.view) (hid : s.frames id = some f)
    (hnew : s.pc.newborn = some id) : s.liveTasks f.client = none := by
  by_contra hne
  obtain ⟨j, hj⟩ := Option.ne_none_iff_exists'.mp hne
  obtain ⟨g, hg, hclient⟩ := h.live _ j hj
  have hfd := (hplaced.client j _ (tasks_view hg)).1
  have hfd' := (hplaced.client id _ (tasks_view hid)).1
  have hji : j = id := by
    simp only [hclient] at hfd
    exact Option.some.inj (hfd.symm.trans hfd')
  exact h.fresh _ j hj (hji ▸ hnew)

theorem Placed.frame_lt (h : Placed s.view) (hid : s.frames id = some f) : id < s.opened :=
  h.below _ id (h.client id _ (tasks_view hid)).1

theorem Filed.leads (h : Filed s) {io : Io} (hid : s.frames id = some f)
    (hleads : Leads cfg s id f io s') : Filed s' := by
  obtain ⟨hlive, hpc⟩ := hleads.same
  obtain ⟨hothers, f', hf', hclient, -⟩ := hleads.frames
  refine h.frame hlive (by rw [hpc]) (fun hs => hpc ▸ hs) (fun j g hj => ?_)
    fun j g hj => ?_
  · by_cases hji : j = id
    · subst hji
      obtain rfl : f = g := Option.some.inj (hid.symm.trans hj)
      exact ⟨f', hf', hclient⟩
    · exact ⟨g, by rw [hothers j hji, hj], rfl⟩
  · by_cases hji : j = id
    · subst hji
      obtain rfl : f' = g := Option.some.inj (hf'.symm.trans hj)
      exact ⟨f, hid, hclient⟩
    · exact ⟨g, by rw [← hothers j hji, hj], rfl⟩

theorem Filed.resume (h : Filed s) {e : Event} (hpc : s.pc = .batch (e :: evs))
    (hid : s.frames id = some f) :
    Filed { s with
      pc := .batch evs
      interest := update s.interest e.fd none
      frames := update s.frames id (some { f with waiting := none })
      active := some id } := by
  refine h.frame rfl (by rw [hpc]; rfl) nofun (fun j g hj => ?_) (fun j g hj => ?_)
  · by_cases hji : j = id
    · subst hji
      obtain rfl : f = g := Option.some.inj (hid.symm.trans hj)
      exact ⟨_, update_self .., rfl⟩
    · exact ⟨g, by simpa [hji] using hj, rfl⟩
  · by_cases hji : j = id
    · subst hji
      obtain rfl : { f with waiting := none } = g := by simpa using hj
      exact ⟨f, hid, rfl⟩
    · exact ⟨g, by simpa [hji] using hj, rfl⟩

theorem Filed.spawn (h : Filed s) (hplaced : Placed s.view) (hpc : s.pc.newborn = none) (fd : Fd)
    (accepted : Nat) (evs : List Event) : Filed (s.spawn fd accepted evs) := by
  have hold {fd' : Fd} {j : ConnId} (hj : s.liveTasks fd' = some j) : j ≠ s.opened := by
    obtain ⟨g, hg, -⟩ := h.live fd' j hj
    exact Nat.ne_of_lt (hplaced.frame_lt hg)
  exact {
    live := fun fd' j hj => by
      obtain ⟨g, hg, hclient⟩ := h.live fd' j hj
      exact ⟨g, by simpa [State.spawn, hold hj] using hg, hclient⟩
    filed := fun j g hj => by
      by_cases hnew : j = s.opened
      · exact .inr (hnew ▸ rfl)
      · have hg := h.filed j g (by simpa [State.spawn, hnew] using hj)
        rw [hpc] at hg
        exact .inl (hg.resolve_right (by simp))
    fresh := fun fd' j hj hnew => hold hj (Option.some.inj hnew).symm
    stopped := by simp [State.spawn] }

theorem Filed.discard (h : Filed s) {accepted : Nat} (hpc : s.pc = .spawning id accepted evs) :
    Filed (((s.close f.client).destroyTask (some id)).setLoop (.accepting accepted evs)) where
  live fd j hj := by
    obtain ⟨g, hg, hclient⟩ := h.live fd j hj
    have hji : j ≠ id := fun heq => h.fresh fd j hj (by rw [hpc, heq]; rfl)
    exact ⟨g, by simpa [State.setLoop, State.destroyTask, State.close, hji] using hg, hclient⟩
  filed j g hj := by
    have hj : ((s.close f.client).destroyTask (some id)).frames j = some g := hj
    obtain ⟨hg, hji⟩ := frames_destroyTask hj
    refine .inl ((h.filed j g hg).resolve_right fun hnew => hji ?_)
    rw [← hnew, hpc]
    rfl
  fresh _ _ _ := nofun
  stopped := nofun

theorem Filed.adopt (h : Filed s) (hplaced : Placed s.view) {accepted : Nat}
    (hpc : s.pc = .spawning id accepted evs) (hid : s.frames id = some f) :
    Filed { s with
      liveTasks := update s.liveTasks f.client (some id)
      pc := .accepting accepted evs } where
  live fd j hj := by
    by_cases hfd : fd = f.client
    · subst hfd
      obtain rfl : id = j := by simpa using hj
      exact ⟨f, hid, rfl⟩
    · exact h.live fd j (by simpa [hfd] using hj)
  filed j g hj := by
    left
    by_cases hji : j = id
    · subst hji
      obtain rfl : f = g := Option.some.inj (hid.symm.trans hj)
      exact update_self ..
    · have hlive := (h.filed j g hj).resolve_right fun hnew => hji (by
        rw [hpc] at hnew
        exact (Option.some.inj hnew).symm)
      have hfd : g.client ≠ f.client := by
        intro heq
        rw [heq, h.vacant hplaced hid (by rw [hpc]; rfl)] at hlive
        cases hlive
      show update s.liveTasks f.client (some id) g.client = some j
      rw [update_of_ne hfd, hlive]
  fresh _ _ _ := nofun
  stopped := nofun

theorem Filed.reap (h : Filed s) (hpc : s.pc = .batch []) :
    Filed (s.reapFinishedTasks.setLoop .wait) where
  live fd j hj := by
    obtain ⟨hlive, hdone⟩ := Option.filter_eq_some_iff.mp hj
    obtain ⟨g, hg, hclient⟩ := h.live fd j hlive
    have hdone : s.isDone j = false := by simpa using hdone
    exact ⟨g, Option.filter_eq_some_iff.mpr ⟨hg, by simp [hdone]⟩, hclient⟩
  filed j g hj := by
    obtain ⟨hg, hkept⟩ := Option.filter_eq_some_iff.mp hj
    have hlive := (h.filed j g hg).resolve_right (by rw [hpc]; nofun)
    exact .inl (Option.filter_eq_some_iff.mpr ⟨hlive, by simpa [hlive] using hkept⟩)
  fresh _ _ _ := nofun
  stopped := nofun

theorem Filed.finishStop (h : Filed s) (hpc : s.pc = .exited) : Filed (s.finishStop cfg) where
  live _ _ hj := by cases hj
  filed j g hj := by
    obtain ⟨hg, hkept⟩ := Option.filter_eq_some_iff.mp hj
    have hlive := (h.filed j g hg).resolve_right (by rw [hpc]; nofun)
    simp [hlive] at hkept
  fresh _ _ hj := by cases hj
  stopped _ _ := rfl

theorem destroyTask_vacant {task : Option ConnId} (h : task = none) : s.destroyTask task = s := by
  rw [h]
  rfl

theorem Filed.step (h : Filed s) (hplaced : Placed s.view) (hungry : AllHungry s)
    (hstep : step cfg s a = some s') : Filed s' := by
  rcases step_cases hstep with ⟨-, hcalm⟩ | ⟨io, id, f, -, -, hid, hrun⟩ | ⟨-, hmove⟩
  · refine h.frame hcalm.liveTasks (by rw [hcalm.pc]) (fun hs => hcalm.pc ▸ hs)
      (fun id f hid => ?_) fun id f hid => ?_
    · exact ⟨f, hcalm.frames ▸ hid, rfl⟩
    · exact ⟨f, hcalm.frames ▸ hid, rfl⟩
  · exact h.leads hid (runFrame_leads (hungry id f hid) hrun)
  · cases hmove with
    | poll hpc =>
      refine h.frame rfl (by rw [hpc]; rfl) nofun ?_ ?_ <;> exact fun _ f hf => ⟨f, hf, rfl⟩
    | drop _ hpc _ hnew hgo =>
      refine h.frame rfl (hnew.trans (by rw [hpc]; rfl)) (fun hs => absurd hs hgo) ?_ ?_ <;>
        exact fun _ f hf => ⟨f, hf, rfl⟩
    | stay _ _ hold hnew _ hgo =>
      refine h.frame rfl (hnew.trans hold.symm) (fun hs => absurd hs hgo) ?_ ?_ <;>
        exact fun _ f hf => ⟨f, hf, rfl⟩
    | resume hpc _ hid => exact h.resume hpc hid
    | spawn hpc => exact h.spawn hplaced (by rw [hpc]; rfl) _ _ _
    | discard hpc => exact h.discard hpc
    | adopt hpc hid =>
      rw [destroyTask_vacant (h.vacant hplaced hid (by rw [hpc]; rfl))]
      exact h.adopt hplaced hpc hid
    | reap hpc => exact h.reap hpc
    | finishStop hpc => exact h.finishStop hpc

/-! ## Every run -/

structure Orderly (s : State) : Prop where
  placed : Placed s.view
  hungry : AllHungry s
  filed : Filed s

theorem Orderly.init : Orderly .init where
  placed := Placed.init
  hungry _ _ h := by cases h
  filed := Filed.init

theorem Orderly.step (h : Orderly s) (hstep : step cfg s a = some s') : Orderly s' where
  placed := h.placed.step hstep
  hungry := h.hungry.step hstep
  filed := h.filed.step h.placed h.hungry hstep

theorem run_orderly (hrun : exec (Proxy.step cfg) .init acts = some s) : Orderly s :=
  exec_invariant (fun _ _ _ h hstep => h.step hstep) Orderly.init hrun

end

end Muses.Proxy
