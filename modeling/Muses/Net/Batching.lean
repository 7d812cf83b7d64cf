import Muses.Net.Poller

/-!
# Flushing the changelist: what `KQueuePoller::wait` does to the events that are ready

`wait` submits the buffered changes with one `kevent` call and then polls with a second one. The
first call passes an event array and a null timeout. If a change of the list fails, `kevent`
reports the failure and returns at once. If none fails, it waits without limit, and the events it
then takes off the kernel's ready list are thrown away by `flush_pending`.

The kernel runs beside the program: a filter that is registered may become ready at any moment,
also while the thread is blocked in one of the two calls.
-/

namespace Muses.Batching

open Muses.Core List

inductive WaitPc where
  | idle
  | flushing (room : Nat) (timed : Bool)
  | polling (room : Nat) (timed : Bool)
  deriving DecidableEq, Repr

structure State (U : Type*) where
  poller : KQueuePoller U
  /-- `events_.size()` -/
  events : Nat
  pc : WaitPc
  /-- history: the events put on the ready list -/
  raised : List Source
  /-- history: the events a `wait` got from its own `kevent` call -/
  returned : List Source
  /-- history: the events `flush_pending` got -/
  discarded : List Source
  /-- history: the events that went with their filter -/
  dropped : List Source
  /-- history: the changes submitted -/
  submitted : List Change

variable {U : Type*}

/-- After the constructor. -/
def State.init : State U := ⟨KQueuePoller.init true, 0, .idle, [], [], [], [], []⟩

def State.kernel (s : State U) : Kqueue := s.poller.kernel

def State.raise (s : State U) (source : Source) : State U :=
  if source ∈ s.kernel.ready then s
  else
    { s with poller := { s.poller with
               kernel := { s.kernel with ready := s.kernel.ready ++ [source] } }
             raised := s.raised ++ [source] }

/-- `flush_pending` with a changelist: the scratch array is made large enough, the changes are
applied, and `kevent` returns at once if one of them failed. -/
def State.flush (s : State U) (room : Nat) (timed : Bool) : State U :=
  let (kernel, failed) := s.kernel.submit s.poller.pending
  { s with
    poller := { s.poller with kernel, pending := [] }
    events := if failed then room else max s.events s.poller.pending.length
    pc := if failed then .polling room timed else .flushing room timed
    dropped := s.dropped ++ s.kernel.ready.filter (· ∉ kernel.ready)
    submitted := s.submitted ++ s.poller.pending }

def State.wait (s : State U) (room : Nat) (timed : Bool) : State U :=
  if !s.poller.valid then s
  else if room = 0 then s
  else if s.poller.pending = [] then { s with events := room, pc := .polling room timed }
  else s.flush room timed

/-- A batch: as many of the ready sources as fit, each once. -/
def State.reports (s : State U) (batch : List Source) : Prop :=
  batch.Nodup ∧ (∀ source ∈ batch, source ∈ s.kernel.ready) ∧
    batch.length = min s.events s.kernel.ready.length

instance (s : State U) (batch : List Source) : Decidable (s.reports batch) := by
  unfold State.reports
  infer_instance

def State.report (s : State U) (batch : List Source) : State U :=
  { s with poller := { s.poller with
             kernel := { s.kernel with ready := s.kernel.ready.filter (· ∉ batch) } } }

def State.deliver (s : State U) (batch : List Source) : Option (State U) :=
  match s.pc with
  | .idle => none
  | .flushing room timed =>
      if s.reports batch ∧ batch ≠ [] then
        some { s.report batch with
          events := room, pc := .polling room timed, discarded := s.discarded ++ batch }
      else none
  | .polling _ timed =>
      if s.reports batch ∧ (batch ≠ [] ∨ timed = true) then
        some { s.report batch with pc := .idle, returned := s.returned ++ batch }
      else none

def State.interrupt (s : State U) : Option (State U) :=
  match s.pc with
  | .idle => none
  | .flushing room timed => some { s with events := room, pc := .polling room timed }
  | .polling _ _ => some { s with pc := .idle }

inductive Act (U : Type*) where
  | call (call : PollerCall U)
  | wait (room : Nat) (timed : Bool)
  | deliver (batch : List Source)
  | interrupt
  | ready (fd : Fd) (filter : Filter)
  | wakeup
  deriving DecidableEq, Repr

def step (s : State U) : Act U → Option (State U)
  | .call call =>
      match s.pc, call with
      | .idle, .flush => none
      | .idle, call => (s.poller.step call).map fun poller => { s with poller }
      | _, _ => none
  | .wait room timed =>
      match s.pc with
      | .idle => some (s.wait room timed)
      | _ => none
  | .deliver batch => s.deliver batch
  | .interrupt => s.interrupt
  | .ready fd filter =>
      if s.kernel.registered (fd, filter) then some (s.raise (.socket fd filter)) else none
  | .wakeup => some (s.raise .user)

/-! ## Where the events go -/

theorem perm_append_filter {l part : List Source} (hl : l.Nodup) (hpart : part.Nodup)
    (hsub : ∀ x ∈ part, x ∈ l) : l ~ part ++ l.filter (· ∉ part) := by
  have hsplit : l ~ l.filter (· ∈ part) ++ l.filter (· ∉ part) := by
    simpa using (filter_append_perm (fun x => decide (x ∈ part)) l).symm
  refine hsplit.trans (List.Perm.append_right _ ?_)
  refine (perm_ext_iff_of_nodup (hl.filter _) hpart).mpr fun x => ?_
  simp only [mem_filter, decide_eq_true_eq]
  exact ⟨fun h => h.2, fun h => ⟨hsub x h, h⟩⟩

theorem ready_change (k : Kqueue) (c : Change) :
    (k.change c).1.ready = k.ready ∨
      (c.flags = .delete ∧ (k.change c).1.ready = k.ready.filter (· ≠ .socket c.fd c.filter)) := by
  unfold Kqueue.change
  split
  · exact .inl rfl
  case h_2 hflags =>
    split
    · exact .inr ⟨hflags, rfl⟩
    · exact .inl rfl

theorem ready_change_sublist (k : Kqueue) (c : Change) : (k.change c).1.ready.Sublist k.ready := by
  rcases ready_change k c with hsame | ⟨-, hless⟩
  · rw [hsame]
  · rw [hless]
    exact filter_sublist

theorem ready_submit_sublist (k : Kqueue) (cs : List Change) :
    (k.submit cs).1.ready.Sublist k.ready := by
  induction cs generalizing k with
  | nil => exact List.Sublist.refl _
  | cons c cs ih => exact (ih (k.change c).1).trans (ready_change_sublist k c)

theorem deleted_of_dropped {k : Kqueue} {cs : List Change} {source : Source}
    (hready : source ∈ k.ready) (hgone : source ∉ (k.submit cs).1.ready) :
    ∃ fd filter, source = .socket fd filter ∧ ⟨fd, filter, .delete⟩ ∈ cs := by
  induction cs generalizing k with
  | nil => exact absurd hready hgone
  | cons c cs ih =>
    by_cases hstays : source ∈ (k.change c).1.ready
    · obtain ⟨fd, filter, hsource, hmem⟩ := ih hstays hgone
      exact ⟨fd, filter, hsource, mem_cons_of_mem c hmem⟩
    · -- the first change is the one that deletes it
      rcases ready_change k c with hsame | ⟨hflags, hless⟩
      · rw [hsame] at hstays
        exact absurd hready hstays
      · rw [hless, mem_filter] at hstays
        have hsource : source = .socket c.fd c.filter := by
          by_contra hother
          exact hstays ⟨hready, by simpa using hother⟩
        refine ⟨c.fd, c.filter, hsource, ?_⟩
        rw [← hflags]
        exact mem_cons_self

/-- Every event that was raised has been returned, was thrown away, lost its filter, or is still
ready. -/
structure Accounted (s : State U) : Prop where
  nodup : s.kernel.ready.Nodup
  perm : s.raised ~ s.returned ++ s.discarded ++ s.dropped ++ s.kernel.ready
  deleted : ∀ source ∈ s.dropped, ∃ fd filter, source = .socket fd filter ∧
    ⟨fd, filter, .delete⟩ ∈ s.submitted

theorem accounted_init : Accounted (State.init : State U) where
  nodup := nodup_nil
  perm := List.Perm.refl _
  deleted _ hsource := nomatch hsource

variable {s s' : State U} {batch : List Source} {room : Nat} {timed : Bool}

theorem Accounted.raise (h : Accounted s) (source : Source) : Accounted (s.raise source) := by
  unfold State.raise
  split
  · exact h
  case isFalse hnew =>
    refine ⟨?_, ?_, h.deleted⟩
    · show (s.kernel.ready ++ [source]).Nodup
      rw [nodup_append]
      refine ⟨h.nodup, by simp, fun x hx y hy hxy => ?_⟩
      rw [mem_singleton] at hy
      exact hnew (hy ▸ hxy ▸ hx)
    · show s.raised ++ [source] ~
        s.returned ++ s.discarded ++ s.dropped ++ (s.kernel.ready ++ [source])
      rw [← append_assoc]
      exact h.perm.append_right [source]

theorem Accounted.flush (h : Accounted s) (room : Nat) (timed : Bool) :
    Accounted (s.flush room timed) := by
  have hsub := ready_submit_sublist s.kernel s.poller.pending
  refine ⟨h.nodup.sublist hsub, ?_, fun source hsource => ?_⟩
  · show s.raised ~ s.returned ++ s.discarded ++
      (s.dropped ++ s.kernel.ready.filter (· ∉ (s.kernel.submit s.poller.pending).1.ready)) ++
      (s.kernel.submit s.poller.pending).1.ready
    have hsplit := perm_append_filter h.nodup (h.nodup.sublist hsub) fun x hx => hsub.subset hx
    refine (h.perm.trans (hsplit.append_left _)).trans ?_
    rw [← append_assoc, ← append_assoc]
    simp only [append_assoc]
    exact ((perm_append_comm.append_left _).append_left _).append_left _
  · have hsource : source ∈ s.dropped ++
        s.kernel.ready.filter (· ∉ (s.kernel.submit s.poller.pending).1.ready) := hsource
    show ∃ fd filter, source = .socket fd filter ∧
      ⟨fd, filter, .delete⟩ ∈ s.submitted ++ s.poller.pending
    rcases mem_append.mp hsource with hold | hnew
    · obtain ⟨fd, filter, heq, hmem⟩ := h.deleted source hold
      exact ⟨fd, filter, heq, mem_append_left _ hmem⟩
    · rw [mem_filter, decide_eq_true_eq] at hnew
      obtain ⟨fd, filter, heq, hmem⟩ := deleted_of_dropped hnew.1 hnew.2
      exact ⟨fd, filter, heq, mem_append_right _ hmem⟩

theorem kernel_of_call {p p' : KQueuePoller U} {call : PollerCall U} (hcall : call ≠ .flush)
    (hstep : p.step call = some p') : p'.kernel = p.kernel := by
  cases call with
  | add fd mask userdata =>
    cases hstep
    simp only [KQueuePoller.add]
    split <;> rfl
  | mod fd mask userdata =>
    cases hstep
    simp only [KQueuePoller.mod]
    split
    · rfl
    · split <;> rfl
  | del fd =>
    cases hstep
    simp only [KQueuePoller.del]
    split
    · rfl
    · split <;> rfl
  | flush => exact absurd rfl hcall

theorem reports_perm (h : Accounted s) (hreports : s.reports batch) :
    s.kernel.ready ~ batch ++ (s.report batch).kernel.ready :=
  perm_append_filter h.nodup hreports.1 hreports.2.1

theorem length_report (h : Accounted s) (hreports : s.reports batch) :
    (s.report batch).kernel.ready.length = s.kernel.ready.length - s.events := by
  have hlength := (reports_perm h hreports).length_eq
  rw [length_append, hreports.2.2] at hlength
  omega

theorem Accounted.report (h : Accounted s) (hreports : s.reports batch)
    (hkernel : s'.kernel = (s.report batch).kernel) (hraised : s'.raised = s.raised)
    (hdropped : s'.dropped = s.dropped) (hsubmitted : s'.submitted = s.submitted)
    (htaken : s'.returned ++ s'.discarded ~ s.returned ++ s.discarded ++ batch) : Accounted s' := by
  refine ⟨?_, ?_, ?_⟩
  · rw [hkernel]
    exact h.nodup.filter _
  · rw [hkernel, hraised, hdropped]
    refine (h.perm.trans ((reports_perm h hreports).append_left _)).trans ?_
    refine List.Perm.trans ?_ ((htaken.symm.append_right _).append_right _)
    simp only [append_assoc]
    refine (List.Perm.append_left _ (List.Perm.append_left _ ?_))
    rw [← append_assoc, ← append_assoc]
    exact perm_append_comm.append_right _
  · rw [hdropped, hsubmitted]
    exact h.deleted

theorem Accounted.step {act : Act U} (h : Accounted s) (hstep : step s act = some s') :
    Accounted s' := by
  cases act with
  | call call =>
    -- the calls only write to the buffer
    simp only [Batching.step] at hstep
    split at hstep
    · cases hstep
    · obtain ⟨poller, hpoller, rfl⟩ := Option.map_eq_some_iff.mp hstep
      have hkernel : poller.kernel = s.poller.kernel := kernel_of_call ‹_› hpoller
      refine ⟨?_, ?_, h.deleted⟩
      · show poller.kernel.ready.Nodup
        rw [hkernel]
        exact h.nodup
      · show s.raised ~ s.returned ++ s.discarded ++ s.dropped ++ poller.kernel.ready
        rw [hkernel]
        exact h.perm
    · cases hstep
  | wait room timed =>
    simp only [Batching.step] at hstep
    split at hstep
    · cases hstep
      unfold State.wait
      split
      · exact h
      · split
        · exact h
        · split
          · exact ⟨h.nodup, h.perm, h.deleted⟩
          · exact h.flush room timed
    · cases hstep
  | deliver batch =>
    simp only [Batching.step, State.deliver] at hstep
    split at hstep
    · cases hstep
    · split at hstep
      case isTrue hreports =>
        cases hstep
        refine h.report hreports.1 rfl rfl rfl rfl ?_
        simp only [State.report, append_assoc]
        exact List.Perm.refl _
      case isFalse => cases hstep
    · split at hstep
      case isTrue hreports =>
        cases hstep
        refine h.report hreports.1 rfl rfl rfl rfl ?_
        simp only [State.report, append_assoc]
        exact perm_append_comm.append_left _
      case isFalse => cases hstep
  | interrupt =>
    simp only [Batching.step, State.interrupt] at hstep
    split at hstep
    · cases hstep
    · cases hstep
      exact ⟨h.nodup, h.perm, h.deleted⟩
    · cases hstep
      exact ⟨h.nodup, h.perm, h.deleted⟩
  | ready fd filter =>
    simp only [Batching.step] at hstep
    split at hstep
    · cases hstep
      exact h.raise _
    · cases hstep
  | wakeup =>
    cases hstep
    exact h.raise _

/-! ## Flushes in which a change fails -/

/-- The condition: a changelist that is submitted holds a change that fails, such as the delete of
a filter that is not registered. -/
def FlushFails (s : State U) : Act U → Prop
  | .wait _ _ => s.poller.pending = [] ∨ (s.kernel.submit s.poller.pending).2 = true
  | _ => True

instance (s : State U) (act : Act U) : Decidable (FlushFails s act) := by
  unfold FlushFails
  split <;> infer_instance

/-- No event was thrown away. -/
structure Unharmed (s : State U) : Prop where
  discarded : s.discarded = []
  pc : ∀ room timed, s.pc ≠ .flushing room timed

/-- The flush returns at once, and `wait` goes on to its own `kevent` call with an array of the
caller's size. -/
theorem wait_cases (hfails : FlushFails s (.wait room timed)) :
    s.wait room timed = s ∨
      ((s.wait room timed).pc = .polling room timed ∧ (s.wait room timed).events = room ∧
        (s.wait room timed).discarded = s.discarded ∧ (s.wait room timed).raised = s.raised ∧
        (s.wait room timed).kernel.ready.Sublist s.kernel.ready) := by
  unfold State.wait
  split
  · exact .inl rfl
  · split
    · exact .inl rfl
    · split
      case isTrue => exact .inr ⟨rfl, rfl, rfl, rfl, List.Sublist.refl _⟩
      case isFalse hpending =>
        have hfailed := hfails.resolve_left hpending
        refine .inr ⟨?_, ?_, rfl, rfl, ready_submit_sublist s.kernel s.poller.pending⟩
        · simp only [State.flush, hfailed, if_true]
        · simp only [State.flush, hfailed, if_true]

theorem Unharmed.step {act : Act U} (h : Unharmed s) (hfails : FlushFails s act)
    (hstep : step s act = some s') : Unharmed s' := by
  cases act with
  | call call =>
    simp only [Batching.step] at hstep
    split at hstep
    · cases hstep
    · obtain ⟨poller, -, rfl⟩ := Option.map_eq_some_iff.mp hstep
      exact ⟨h.discarded, h.pc⟩
    · cases hstep
  | wait room timed =>
    simp only [Batching.step] at hstep
    split at hstep
    · cases hstep
      rcases wait_cases hfails with hsame | ⟨hpc, -, hdiscarded, -⟩
      · rw [hsame]
        exact h
      · exact ⟨hdiscarded.trans h.discarded, by simp [hpc]⟩
    · cases hstep
  | deliver batch =>
    simp only [Batching.step, State.deliver] at hstep
    split at hstep
    · cases hstep
    case h_2 room timed hpc => exact absurd hpc (h.pc room timed)
    · split at hstep <;> cases hstep
      exact ⟨h.discarded, by simp⟩
  | interrupt =>
    simp only [Batching.step, State.interrupt] at hstep
    split at hstep
    · cases hstep
    · cases hstep
      exact ⟨h.discarded, by simp⟩
    · cases hstep
      exact ⟨h.discarded, by simp⟩
  | ready fd filter =>
    simp only [Batching.step] at hstep
    split at hstep
    · cases hstep
      unfold State.raise
      split
      · exact h
      · exact ⟨h.discarded, h.pc⟩
    · cases hstep
  | wakeup =>
    cases hstep
    unfold State.raise
    split
    · exact h
    · exact ⟨h.discarded, h.pc⟩

theorem healthy_run {run : List (Act U)} (h : Accounted s ∧ Unharmed s)
    (hfails : Meets step FlushFails s run) (hrun : exec step s run = some s') :
    Accounted s' ∧ Unharmed s' :=
  exec_invariant_of_meets (I := fun m => Accounted m ∧ Unharmed m)
    (fun _ _ _ hm hfails hstep => ⟨hm.1.step hstep, hm.2.step hfails hstep⟩) h hfails hrun

/-- `wait` called again and again with an array of `room` entries, each call returning one of the
batches. -/
def rounds (room : Nat) (timed : Bool) (batches : List (List Source)) : List (Act U) :=
  batches.flatMap fun batch => [.wait room timed, .deliver batch]

theorem round_shortens {m : State U} (h : Accounted s) (hfails : FlushFails s (.wait room timed))
    (hwait : step s (.wait room timed) = some m) (hdeliver : step m (.deliver batch) = some s') :
    s'.kernel.ready.length ≤ s.kernel.ready.length - room ∧ s'.raised = s.raised := by
  have hm := h.step hwait
  simp only [step] at hwait
  split at hwait
  case h_2 => cases hwait
  case h_1 hidle =>
    cases hwait
    simp only [step, State.deliver] at hdeliver
    rcases wait_cases hfails with hsame | ⟨hpc, hevents, -, hraised, hsub⟩
    · -- nothing was asked for: there is no call to return from
      rw [hsame, hidle] at hdeliver
      cases hdeliver
    · rw [hpc] at hdeliver
      simp only at hdeliver
      split at hdeliver
      case isTrue hreports =>
        cases hdeliver
        have hlength := length_report hm hreports.1
        have hle := hsub.length_le
        rw [hevents] at hlength
        refine ⟨?_, hraised⟩
        show ((s.wait room timed).report batch).kernel.ready.length ≤ _
        omega
      case isFalse => cases hdeliver

theorem rounds_shorten {batches : List (List Source)} (h : Accounted s)
    (hfails : Meets step FlushFails s (rounds room timed batches))
    (hrun : exec step s (rounds room timed batches) = some s') :
    s'.kernel.ready.length ≤ s.kernel.ready.length - batches.length * room ∧
      s'.raised = s.raised := by
  induction batches generalizing s with
  | nil =>
    cases hrun
    simp
  | cons batch batches ih =>
    obtain ⟨m, hwait, hrun⟩ := exec_cons hrun
    obtain ⟨m', hdeliver, hrun⟩ := exec_cons hrun
    have hlater := ((meets_cons hwait).mp hfails).2
    have hrest := ((meets_cons hdeliver).mp hlater).2
    obtain ⟨hlength, hraised⟩ := round_shortens h hfails.1 hwait hdeliver
    obtain ⟨hlength', hraised'⟩ := ih ((h.step hwait).step hdeliver) hrest hrun
    refine ⟨?_, hraised'.trans hraised⟩
    rw [length_cons, Nat.succ_mul]
    omega

/-- **No readiness is lost.** In every run in which each submitted changelist holds a failing
change: no flush blocks and none takes an event; every event raised so far has been returned by a
`wait`, lost its filter to a submitted delete, or is still ready; and `wait` called often enough
for the ready list to fit into the callers' arrays returns all of those. -/
theorem batching_loses_no_readiness {s : State U} {run : List (Act U)}
    (hrun : exec step State.init run = some s) (hfails : Meets step FlushFails State.init run) :
    s.discarded = [] ∧ (∀ room timed, s.pc ≠ .flushing room timed) ∧
    s.raised ~ s.returned ++ s.dropped ++ s.kernel.ready ∧
    (∀ source ∈ s.dropped, ∃ fd filter, source = .socket fd filter ∧
      ⟨fd, filter, .delete⟩ ∈ s.submitted) ∧
    (∀ room timed batches s', exec step s (rounds room timed batches) = some s' →
      Meets step FlushFails s (rounds room timed batches) →
      s.kernel.ready.length ≤ batches.length * room → s.raised ~ s'.returned ++ s'.dropped) := by
  obtain ⟨haccounted, hunharmed⟩ :=
    healthy_run ⟨accounted_init, ⟨rfl, by simp [State.init]⟩⟩ hfails hrun
  have hperm := haccounted.perm
  rw [hunharmed.discarded, append_nil] at hperm
  refine ⟨hunharmed.discarded, hunharmed.pc, hperm, haccounted.deleted, ?_⟩
  intro room timed batches s' hrounds hmeets henough
  obtain ⟨haccounted', hunharmed'⟩ := healthy_run ⟨haccounted, hunharmed⟩ hmeets hrounds
  obtain ⟨hlength, hraised⟩ := rounds_shorten haccounted hmeets hrounds
  have hempty : s'.kernel.ready = [] := length_eq_zero_iff.mp (by omega)
  have hperm' := haccounted'.perm
  rw [hunharmed'.discarded, hempty, append_nil, append_nil, hraised] at hperm'
  exact hperm'

/-- A new connection is registered for reading, which also deletes a write filter it does not have;
it becomes readable while the thread is in `wait`. -/
def registersOne : List (Act Unit) :=
  [.call (.add 7 .Readable ()), .wait 4 true, .ready 7 .read]

theorem batching_registersOne :
    ∃ s ∈ exec step (State.init : State Unit) registersOne,
      s.pc = .polling 4 true ∧ s.raised = [.socket 7 .read] ∧ s.discarded = [] ∧
      s.raised ~ s.returned ++ s.dropped ++ s.kernel.ready := by
  have hends : ∃ s ∈ exec step (State.init : State Unit) registersOne,
      s.pc = .polling 4 true ∧ s.raised = [.socket 7 .read] := by decide +kernel
  obtain ⟨s, hrun, hpc, hraised⟩ := hends
  obtain ⟨hdiscarded, -, hperm, -⟩ := batching_loses_no_readiness hrun (by decide +kernel)
  exact ⟨s, hrun, hpc, hraised, hdiscarded, hperm⟩

def switchesInterest : List (Act Unit) :=
  [.call (.add 7 .Readable ()), .wait 1 true, .deliver [], .call (.mod 7 .Writable ()),
   .wait 1 true]

/-- **A flush blocks and throws an event away.** After the switch the thread waits without limit
although the caller asked for a timeout; the connection becomes writable, and the flush takes that
event off the ready list. The filter is registered, and no `wait` has returned its event. -/
theorem readiness_thrown_away :
    (∃ s ∈ exec step (State.init : State Unit) switchesInterest,
      s.pc = .flushing 1 true ∧ s.kernel.ready = []) ∧
    ∃ s ∈ exec step (State.init : State Unit)
        (switchesInterest ++ [.ready 7 .write, .deliver [.socket 7 .write]]),
      s.kernel.registered (7, .write) = true ∧ s.raised = [.socket 7 .write] ∧
      s.kernel.ready = [] ∧ s.returned = [] ∧ s.discarded = [.socket 7 .write] := by
  decide +kernel

end Muses.Batching
