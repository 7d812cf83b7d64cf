import Muses.Core.Run
import Muses.Core.Census

/-!
# `ThreadPool` — a fixed set of workers on one task queue

`muses/thread_pool.hpp`. Every critical section of `queue_mutex` is one step of one thread, and so
is every notification, since the pool notifies after it has released the lock. Between two
sections of a thread any other thread may run, spurious wakeups included. A task runs inside a
`packaged_task`, so whether it returns or throws goes to its future and `task()` comes back to the
worker either way.

* `WorkerPc`, `ClientPc` — where a worker stands in its loop, and a caller in `enqueue`,
  `wait_empty` or `stop_pool`;
* `Ledger` — the invariant of the counters: the tasks accepted are those started, in order,
  followed by those queued; every started task is in the hand of one worker or finished;
  `outstanding` counts the tasks not finished.
-/

namespace Muses.ThreadPool

open Muses.Core Function List

inductive Outcome where
  | returned
  | threw
  deriving DecidableEq, Repr

inductive WorkerPc (T : Type*) where
  /-- about to lock `queue_mutex` and look at the wait predicate: at the top of the loop, or after
  it was notified -/
  | acquire
  /-- asleep on `condition` -/
  | waiting
  | running (task : T)
  /-- `task()` came back; about to lock and decrement -/
  | returned (task : T) (outcome : Outcome)
  /-- about to notify `drained_condition` -/
  | signalling
  | exited
  deriving DecidableEq, Repr

/-- What a call returned. -/
inductive Ret where
  | future (valid : Bool)
  | emptied
  | stopped
  deriving DecidableEq, Repr

inductive ClientPc (T : Type*) where
  | idle (ret : Option Ret)
  | enqueuing (task : T)
  /-- the task is in the queue; about to `notify_one` -/
  | enqueued
  /-- in `wait_empty`, about to lock and look at `outstanding` -/
  | emptying
  /-- asleep on `drained_condition` -/
  | draining
  | stopping
  /-- `stop` is set; about to notify `condition` -/
  | stopSignal
  /-- about to notify `drained_condition` -/
  | drainSignal
  deriving DecidableEq, Repr

/-- The pool with `n` workers and its callers. The last three fields are history: the code never
reads them. -/
structure State (n : Nat) (C T : Type*) where
  tasks : List T
  stop : Bool
  outstanding : Nat
  worker : Fin n → WorkerPc T
  client : C → ClientPc T
  /-- history: the tasks whose `enqueue` returned a valid future -/
  accepted : List T
  /-- history: the tasks taken off the queue by a worker -/
  started : List T
  /-- history: the tasks whose worker has counted them as finished -/
  finished : List (T × Outcome)

variable {n : Nat} {C T : Type*}

/-- A constructed pool: every worker is at the top of its loop. -/
def State.init : State n C T where
  tasks := []
  stop := false
  outstanding := 0
  worker := fun _ => .acquire
  client := fun _ => .idle none
  accepted := []
  started := []
  finished := []

def WorkerPc.wake : WorkerPc T → WorkerPc T
  | .waiting => .acquire
  | pc => pc

def WorkerPc.asleep : WorkerPc T → Bool
  | .waiting => true
  | _ => false

def ClientPc.wake : ClientPc T → ClientPc T
  | .draining => .emptying
  | pc => pc

def State.setWorker (s : State n C T) (w : Fin n) (pc : WorkerPc T) : State n C T :=
  { s with worker := update s.worker w pc }

def workerStep (s : State n C T) (w : Fin n) (outcome : Outcome) : Option (State n C T) :=
  match s.worker w with
  | .acquire =>
      match s.tasks with
      | [] => some (s.setWorker w (if s.stop then .exited else .waiting))
      | task :: rest =>
          some ({ s with tasks := rest, started := s.started ++ [task] }.setWorker w
            (.running task))
  | .waiting => none
  | .running task => some (s.setWorker w (.returned task outcome))
  | .returned task outcome =>
      some ({ s with outstanding := s.outstanding - 1,
                     finished := s.finished ++ [(task, outcome)] }.setWorker w .signalling)
  | .signalling =>
      some ({ s with client := fun c => (s.client c).wake }.setWorker w .acquire)
  | .exited => none

section

variable [DecidableEq C]

def State.setClient (s : State n C T) (c : C) (pc : ClientPc T) : State n C T :=
  { s with client := update s.client c pc }

def State.notifyOne (s : State n C T) : Option (Fin n) → Option (State n C T)
  | some w => if (s.worker w).asleep then some (s.setWorker w .acquire) else none
  | none => if ∀ w, (s.worker w).asleep = false then some s else none

def clientStep (s : State n C T) (c : C) (pick : Option (Fin n)) : Option (State n C T) :=
  match s.client c, pick with
  | .enqueuing task, none =>
      if s.stop then some (s.setClient c (.idle (some (.future false))))
      else
        some ({ s with tasks := s.tasks ++ [task], outstanding := s.outstanding + 1,
                       accepted := s.accepted ++ [task] }.setClient c .enqueued)
  | .enqueued, pick => (s.setClient c (.idle (some (.future true)))).notifyOne pick
  | .emptying, none =>
      if s.outstanding = 0 then some (s.setClient c (.idle (some .emptied)))
      else some (s.setClient c .draining)
  | .stopping, none => some ({ s with stop := true }.setClient c .stopSignal)
  | .stopSignal, none =>
      some ({ s with worker := fun w => (s.worker w).wake }.setClient c .drainSignal)
  | .drainSignal, none =>
      some ({ s with client := fun c => (s.client c).wake }.setClient c (.idle (some .stopped)))
  | _, _ => none

/-- What may happen next: a worker moves (`outcome` says how the task it runs ends), a caller
starts a call or moves on in it, or a sleeper wakes up for no reason. -/
inductive Act (n : Nat) (C T : Type*) where
  | worker (w : Fin n) (outcome : Outcome)
  | enqueue (c : C) (task : T)
  | waitEmpty (c : C)
  | stopPool (c : C)
  | client (c : C) (pick : Option (Fin n))
  | spuriousWorker (w : Fin n)
  | spuriousClient (c : C)
  deriving DecidableEq, Repr

def State.call (s : State n C T) (c : C) (pc : ClientPc T) : Option (State n C T) :=
  match s.client c with
  | .idle _ => some (s.setClient c pc)
  | _ => none

def step (s : State n C T) : Act n C T → Option (State n C T)
  | .worker w outcome => workerStep s w outcome
  | .enqueue c task => s.call c (.enqueuing task)
  | .waitEmpty c => s.call c .emptying
  | .stopPool c => s.call c .stopping
  | .client c pick => clientStep s c pick
  | .spuriousWorker w => if (s.worker w).asleep then some (s.setWorker w .acquire) else none
  | .spuriousClient c =>
      match s.client c with
      | .draining => some (s.setClient c .emptying)
      | _ => none

end

/-! ## The ledger -/

def WorkerPc.hand : WorkerPc T → Multiset T
  | .running task => {task}
  | .returned task _ => {task}
  | _ => 0

def WorkerPc.active : WorkerPc T → Bool
  | .waiting => false
  | .exited => false
  | _ => true

/-- Tasks are started in order, and each is in a hand or finished. -/
structure Ledger (s : State n C T) : Prop where
  order : s.accepted = s.started ++ s.tasks
  hands : (s.started : Multiset T) =
    ∑ w, (s.worker w).hand + (s.finished.map Prod.fst : List T)
  count : s.outstanding + s.finished.length = s.accepted.length
  exits : ∀ w, s.worker w = .exited → s.stop = true ∧ s.tasks = []

variable {s s' : State n C T}

theorem Ledger.clients (h : Ledger s) (client : C → ClientPc T) : Ledger { s with client } :=
  ⟨h.order, h.hands, h.count, h.exits⟩

theorem sum_hand_update (worker : Fin n → WorkerPc T) (w : Fin n) (pc : WorkerPc T) :
    ∑ v, (update worker w pc v).hand + (worker w).hand =
      ∑ v, (worker v).hand + pc.hand :=
  sum_update WorkerPc.hand worker pc (Finset.mem_univ w)

theorem Ledger.setWorker (h : Ledger s) (w : Fin n) {pc : WorkerPc T}
    (hhand : pc.hand = (s.worker w).hand)
    (hexit : pc = .exited → s.stop = true ∧ s.tasks = []) : Ledger (s.setWorker w pc) where
  order := h.order
  hands := by
    have hsum := sum_hand_update s.worker w pc
    rw [hhand] at hsum
    show (s.started : Multiset T) = ∑ v, (update s.worker w pc v).hand + _
    rw [add_right_cancel hsum]
    exact h.hands
  count := h.count
  exits v hv := by
    by_cases hvw : v = w
    · subst hvw
      exact hexit (by simpa [State.setWorker] using hv)
    · exact h.exits v (by simpa [State.setWorker, update_of_ne hvw] using hv)

variable {w : Fin n} {task : T} {outcome : Outcome}

theorem Ledger.take (h : Ledger s) {rest : List T} (hpc : s.worker w = .acquire)
    (htasks : s.tasks = task :: rest) :
    Ledger ({ s with tasks := rest, started := s.started ++ [task] }.setWorker w
      (.running task)) where
  order := by
    show s.accepted = (s.started ++ [task]) ++ rest
    rw [h.order, htasks, append_assoc, singleton_append]
  hands := by
    have hsum := sum_hand_update s.worker w (.running task)
    rw [hpc, show WorkerPc.hand (.acquire : WorkerPc T) = 0 from rfl, add_zero] at hsum
    show ((s.started ++ [task] : List T) : Multiset T) =
      ∑ v, (update s.worker w (.running task) v).hand + (s.finished.map Prod.fst : List T)
    rw [← Multiset.coe_add, h.hands, hsum]
    exact add_right_comm _ _ _
  count := h.count
  exits v hv := by
    by_cases hvw : v = w
    · subst hvw
      simp [State.setWorker] at hv
    · -- nobody has left while there was a task
      have hexited := h.exits v (by simpa [State.setWorker, update_of_ne hvw] using hv)
      rw [htasks] at hexited
      exact absurd hexited.2 (cons_ne_nil task rest)

theorem Ledger.outstanding_pos (h : Ledger s) (hpc : s.worker w = .returned task outcome) :
    0 < s.outstanding := by
  have hle : (s.worker w).hand ≤ ∑ v, (s.worker v).hand :=
    Finset.single_le_sum (fun v _ => Multiset.zero_le _) (Finset.mem_univ w)
  have hcard : 1 ≤ (∑ v, (s.worker v).hand).card := by
    rw [hpc] at hle
    exact Multiset.card_le_card hle
  have hstarted := congrArg Multiset.card h.hands
  have horder := congrArg List.length h.order
  have hcount := h.count
  simp only [Multiset.card_add, Multiset.coe_card, length_map] at hstarted
  simp only [length_append] at horder
  omega

theorem Ledger.finish (h : Ledger s) (hpc : s.worker w = .returned task outcome) :
    Ledger ({ s with outstanding := s.outstanding - 1,
                     finished := s.finished ++ [(task, outcome)] }.setWorker w .signalling) where
  order := h.order
  hands := by
    have hsum := sum_hand_update s.worker w .signalling
    rw [hpc, show WorkerPc.hand (.signalling : WorkerPc T) = 0 from rfl, add_zero] at hsum
    show (s.started : Multiset T) = ∑ v, (update s.worker w .signalling v).hand +
      ((s.finished ++ [(task, outcome)]).map Prod.fst : List T)
    rw [h.hands, ← hsum, map_append, ← Multiset.coe_add, ← add_assoc]
    exact add_right_comm _ _ _
  count := by
    have hpos := h.outstanding_pos hpc
    have hcount := h.count
    show s.outstanding - 1 + (s.finished ++ [(task, outcome)]).length = s.accepted.length
    rw [length_append, length_singleton]
    omega
  exits v hv := by
    by_cases hvw : v = w
    · subst hvw
      simp [State.setWorker] at hv
    · exact h.exits v (by simpa [State.setWorker, update_of_ne hvw] using hv)

theorem Ledger.accept (h : Ledger s) (task : T) (hrunning : s.stop = false)
    (client : C → ClientPc T) :
    Ledger { s with tasks := s.tasks ++ [task], outstanding := s.outstanding + 1,
                    accepted := s.accepted ++ [task], client } where
  order := by
    show s.accepted ++ [task] = s.started ++ (s.tasks ++ [task])
    rw [h.order, append_assoc]
  hands := h.hands
  count := by
    have hcount := h.count
    show s.outstanding + 1 + s.finished.length = (s.accepted ++ [task]).length
    rw [length_append, length_singleton]
    omega
  exits w hw := by
    have hexited := (h.exits w hw).1
    rw [hrunning] at hexited
    cases hexited

theorem Ledger.stopped (h : Ledger s) (client : C → ClientPc T) :
    Ledger { s with stop := true, client } :=
  ⟨h.order, h.hands, h.count, fun w hw => ⟨rfl, (h.exits w hw).2⟩⟩

theorem Ledger.wakeAll (h : Ledger s) (client : C → ClientPc T) :
    Ledger { s with worker := fun w => (s.worker w).wake, client } where
  order := h.order
  hands := by
    have hsame : ∀ pc : WorkerPc T, pc.wake.hand = pc.hand := fun pc => by cases pc <;> rfl
    show (s.started : Multiset T) = ∑ w, (s.worker w).wake.hand + _
    rw [Finset.sum_congr rfl fun w _ => hsame (s.worker w)]
    exact h.hands
  count := h.count
  exits w hw := by
    apply h.exits w
    have hw : (s.worker w).wake = .exited := hw
    cases hpc : s.worker w <;> rw [hpc] at hw <;> cases hw

theorem Ledger.workerStep (h : Ledger s) (hstep : workerStep s w outcome = some s') :
    Ledger s' := by
  unfold ThreadPool.workerStep at hstep
  split at hstep
  case h_1 hpc =>
    split at hstep
    case h_1 htasks =>
      -- nothing to do: sleep, or leave when the pool is stopped
      cases hstep
      refine h.setWorker w ?_ fun hexit => ⟨?_, htasks⟩
      · rw [hpc]
        split <;> rfl
      · by_contra hrunning
        rw [if_neg hrunning] at hexit
        cases hexit
    case h_2 task rest htasks =>
      cases hstep
      exact h.take hpc htasks
  case h_2 => cases hstep
  case h_3 task hpc =>
    cases hstep
    exact h.setWorker w (by rw [hpc]; rfl) (by simp)
  case h_4 task outcome hpc =>
    cases hstep
    exact h.finish hpc
  case h_5 hpc =>
    cases hstep
    exact (h.clients _).setWorker w (by rw [show _ = WorkerPc.signalling from hpc]; rfl)
      (by simp)
  case h_6 => cases hstep

theorem asleep_iff {pc : WorkerPc T} : pc.asleep = true ↔ pc = .waiting := by
  cases pc <;> simp [WorkerPc.asleep]

theorem Ledger.wakeOne (h : Ledger s) (hasleep : (s.worker w).asleep = true) :
    Ledger (s.setWorker w .acquire) :=
  h.setWorker w (by rw [asleep_iff.mp hasleep]; rfl) (fun hexit => nomatch hexit)

theorem notifyOne_cases {pick : Option (Fin n)} (h : s.notifyOne pick = some s') :
    (∃ w, (s.worker w).asleep = true ∧ s' = s.setWorker w .acquire) ∨
    ((∀ w, (s.worker w).asleep = false) ∧ s' = s) := by
  cases pick with
  | some w =>
    simp only [State.notifyOne] at h
    split at h
    · cases h
      exact .inl ⟨w, ‹_›, rfl⟩
    · cases h
  | none =>
    simp only [State.notifyOne] at h
    split at h
    · cases h
      exact .inr ⟨‹_›, rfl⟩
    · cases h

section

variable [DecidableEq C]

theorem Ledger.clientStep {c : C} {pick : Option (Fin n)} (h : Ledger s)
    (hstep : clientStep s c pick = some s') : Ledger s' := by
  unfold ThreadPool.clientStep at hstep
  split at hstep
  case h_1 task hpc =>
    split at hstep
    · cases hstep
      exact h.clients _
    case isFalse hrunning =>
      cases hstep
      exact h.accept task (by simpa using hrunning) _
  case h_2 hpc =>
    rcases notifyOne_cases hstep with ⟨w, hasleep, rfl⟩ | ⟨-, rfl⟩
    · exact (h.clients _).wakeOne hasleep
    · exact h.clients _
  case h_3 hpc =>
    split at hstep <;> cases hstep <;> exact h.clients _
  case h_4 hpc =>
    cases hstep
    exact h.stopped _
  case h_5 hpc =>
    cases hstep
    exact h.wakeAll _
  case h_6 hpc =>
    cases hstep
    exact h.clients _
  case h_7 => cases hstep

theorem call_eq {c : C} {pc : ClientPc T} (h : s.call c pc = some s') :
    (∃ ret, s.client c = .idle ret) ∧ s' = s.setClient c pc := by
  unfold State.call at h
  split at h
  case h_1 ret hidle =>
    cases h
    exact ⟨⟨ret, hidle⟩, rfl⟩
  case h_2 => cases h

theorem Ledger.step {act : Act n C T} (h : Ledger s) (hstep : step s act = some s') :
    Ledger s' := by
  cases act with
  | worker w outcome => exact h.workerStep hstep
  | enqueue c task =>
    obtain ⟨-, rfl⟩ := call_eq hstep
    exact h.clients _
  | waitEmpty c =>
    obtain ⟨-, rfl⟩ := call_eq hstep
    exact h.clients _
  | stopPool c =>
    obtain ⟨-, rfl⟩ := call_eq hstep
    exact h.clients _
  | client c pick => exact h.clientStep hstep
  | spuriousWorker w =>
    simp only [ThreadPool.step] at hstep
    split at hstep
    · cases hstep
      exact h.wakeOne ‹_›
    · cases hstep
  | spuriousClient c =>
    simp only [ThreadPool.step] at hstep
    split at hstep <;> cases hstep
    exact h.clients _

end

/-! ## Nobody sleeps through a queued task -/

/-- While a task is queued, a worker is on its way to the queue, or a caller of `enqueue` is about
to notify one. -/
def Attended (s : State n C T) : Prop :=
  s.tasks ≠ [] → (∃ w, (s.worker w).active = true) ∨ ∃ c, s.client c = .enqueued

theorem Attended.of_active (h : (s.worker w).active = true) : Attended s :=
  fun _ => .inl ⟨w, h⟩

theorem Attended.of_imp (h : Attended s) (htasks : s'.tasks ≠ [] → s.tasks ≠ [])
    (hworker : ∀ w, (s.worker w).active = true → (s'.worker w).active = true)
    (hclient : ∀ c, s.client c = .enqueued → s'.client c = .enqueued) : Attended s' := by
  intro hqueued
  rcases h (htasks hqueued) with ⟨w, hw⟩ | ⟨c, hc⟩
  · exact .inl ⟨w, hworker w hw⟩
  · exact .inr ⟨c, hclient c hc⟩

theorem wake_enqueued {pc : ClientPc T} (h : pc = .enqueued) : pc.wake = .enqueued := by
  rw [h]
  rfl

theorem attended_of_workerStep (hstep : workerStep s w outcome = some s') : Attended s' := by
  unfold ThreadPool.workerStep at hstep
  split at hstep
  case h_1 hpc =>
    split at hstep
    case h_1 htasks =>
      cases hstep
      exact fun hqueued => absurd htasks hqueued
    case h_2 =>
      cases hstep
      exact .of_active (w := w) (by simp [State.setWorker, WorkerPc.active])
  case h_2 => cases hstep
  case h_3 =>
    cases hstep
    exact .of_active (w := w) (by simp [State.setWorker, WorkerPc.active])
  case h_4 =>
    cases hstep
    exact .of_active (w := w) (by simp [State.setWorker, WorkerPc.active])
  case h_5 =>
    cases hstep
    exact .of_active (w := w) (by simp [State.setWorker, WorkerPc.active])
  case h_6 => cases hstep

theorem Attended.wakeOne (s : State n C T) (w : Fin n) : Attended (s.setWorker w .acquire) :=
  .of_active (w := w) (by simp [State.setWorker, WorkerPc.active])

theorem attended_of_none_asleep (hn : 0 < n) (h : Ledger s)
    (hnone : ∀ w, (s.worker w).asleep = false) : Attended s := by
  intro hqueued
  refine .inl ⟨⟨0, hn⟩, ?_⟩
  cases hpc : s.worker ⟨0, hn⟩ with
  | waiting =>
    have hup := hnone ⟨0, hn⟩
    rw [hpc] at hup
    cases hup
  | exited => exact absurd (h.exits _ hpc).2 hqueued
  | acquire => rfl
  | running task => rfl
  | returned task outcome => rfl
  | signalling => rfl

section

variable [DecidableEq C]

theorem Attended.setClient (h : Attended s) {c : C} (pc : ClientPc T)
    (hnot : s.client c ≠ .enqueued) : Attended (s.setClient c pc) := by
  refine h.of_imp id (fun _ => id) fun c' hc' => ?_
  have hne : c' ≠ c := by
    rintro rfl
    exact hnot hc'
  show update s.client c pc c' = .enqueued
  rw [update_of_ne hne, hc']

theorem Attended.clientStep (hn : 0 < n) {c : C} {pick : Option (Fin n)} (hledger : Ledger s)
    (h : Attended s) (hstep : clientStep s c pick = some s') : Attended s' := by
  unfold ThreadPool.clientStep at hstep
  split at hstep
  case h_1 task hpc =>
    split at hstep
    · cases hstep
      exact h.setClient _ (by rw [hpc]; simp)
    · cases hstep
      exact fun _ => .inr ⟨c, by simp [State.setClient]⟩
  case h_2 hpc =>
    rcases notifyOne_cases hstep with ⟨w, hasleep, rfl⟩ | ⟨hnone, rfl⟩
    · exact .wakeOne _ w
    · exact attended_of_none_asleep hn (hledger.clients _) hnone
  case h_3 hpc =>
    split at hstep <;> cases hstep <;>
      exact h.setClient _ (by rw [hpc]; simp)
  case h_4 hpc =>
    cases hstep
    have hflag : Attended { s with stop := true } := h
    exact hflag.setClient _ (by rw [show _ = ClientPc.stopping from hpc]; simp)
  case h_5 hpc =>
    cases hstep
    have hwoken : Attended { s with worker := fun w => (s.worker w).wake } :=
      h.of_imp id (fun w hw => by
        show (s.worker w).wake.active = true
        cases hpc : s.worker w <;> rw [hpc] at hw <;> first | rfl | cases hw) (fun _ => id)
    exact hwoken.setClient _ (by rw [show _ = ClientPc.stopSignal from hpc]; simp)
  case h_6 hpc =>
    cases hstep
    have hwoken : Attended { s with client := fun c => (s.client c).wake } :=
      h.of_imp id (fun _ => id) fun c hc => wake_enqueued hc
    refine hwoken.setClient _ ?_
    show (s.client c).wake ≠ .enqueued
    rw [hpc]
    simp [ClientPc.wake]
  case h_7 => cases hstep

theorem Attended.step (hn : 0 < n) {act : Act n C T} (hledger : Ledger s) (h : Attended s)
    (hstep : step s act = some s') : Attended s' := by
  cases act with
  | worker w outcome => exact attended_of_workerStep hstep
  | enqueue c task =>
    obtain ⟨⟨ret, hidle⟩, rfl⟩ := call_eq hstep
    exact h.setClient _ (by rw [hidle]; simp)
  | waitEmpty c =>
    obtain ⟨⟨ret, hidle⟩, rfl⟩ := call_eq hstep
    exact h.setClient _ (by rw [hidle]; simp)
  | stopPool c =>
    obtain ⟨⟨ret, hidle⟩, rfl⟩ := call_eq hstep
    exact h.setClient _ (by rw [hidle]; simp)
  | client c pick => exact h.clientStep hn hledger hstep
  | spuriousWorker w =>
    simp only [ThreadPool.step] at hstep
    split at hstep <;> cases hstep
    exact .wakeOne s w
  | spuriousClient c =>
    simp only [ThreadPool.step] at hstep
    split at hstep
    case h_1 hpc =>
      cases hstep
      exact h.setClient _ (by rw [hpc]; simp)
    case h_2 => cases hstep

end

/-! ## After `stop` -/

section

variable [DecidableEq C]

end

/-! ## The workers finish what is queued -/

section

variable [DecidableEq C]

end

local instance neZero_two : NeZero 2 := ⟨by decide⟩

end Muses.ThreadPool
