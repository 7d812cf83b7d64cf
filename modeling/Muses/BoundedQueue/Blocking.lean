import Muses.Core.Monitor
import Muses.BoundedQueue.Ring

/-!
# `BoundedQueue::BlockingImpl` — the queue behind a mutex

The Block half of `muses/bounded_queue.hpp`. All its members are read and written under `mutex_`,
so a call is one turn with the lock, or several when it has to wait: `Muses.Core.Monitor` supplies
the threads, the wait queues of `not_full_` and `not_empty_`, the choice `notify_one` makes, the
spurious wakeups and the timeouts. What is modelled here is what a call does with the lock.

* `Fair` — the queue never holds more than its capacity, and what came out is what went in first.
-/

namespace Muses.BlockingImpl

open Muses.Core
open RingImpl (Ret)

structure Queue (T : Type*) where
  buffer : List T
  stopped : Bool
  /-- history: the items whose `push` returned true -/
  accepted : List T
  /-- history: the items handed out by `try_pop` and `wait_pop` -/
  delivered : List T
  deriving DecidableEq, Repr

/-- A constructed queue. -/
def Queue.init {T : Type*} : Queue T := ⟨[], false, [], []⟩

inductive Call (T : Type*) where
  | push (item : T)
  | tryPop
  | waitPop (timed : Bool)
  | stop
  deriving DecidableEq, Repr

inductive Cv where
  | notFull
  | notEmpty
  deriving DecidableEq, Repr

variable {Tid T : Type*}

def Queue.handOut (q : Queue T) (x : T) (xs : List T) : Turn (Queue T) Cv (Ret T) :=
  .leave { q with buffer := xs, delivered := q.delivered ++ [x] } (.one .notFull)
    (.popped (some x))

/-- What a call does with the lock. The wait predicate and what follows the wait are one turn:
a call that finds the predicate false sleeps and comes back here. -/
def turn (capacity : Nat) (q : Queue T) : Call T → Turn (Queue T) Cv (Ret T)
  | .push item =>
      if q.stopped then .leave q .quiet (.pushed false)
      else if q.buffer.length < capacity then
        .leave { q with buffer := q.buffer ++ [item], accepted := q.accepted ++ [item] }
          (.one .notEmpty) (.pushed true)
      else .sleep .notFull
  | .tryPop =>
      match q.buffer with
      | [] => .leave q .quiet (.popped none)
      | x :: xs => q.handOut x xs
  | .waitPop _ =>
      match q.buffer with
      | [] => if q.stopped then .leave q .quiet (.popped none) else .sleep .notEmpty
      | x :: xs => q.handOut x xs
  | .stop => .leave { q with stopped := true } .everyone .stopped

def expires : Call T → Option (Ret T)
  | .waitPop true => some (.popped none)
  | _ => none

def monitor (capacity : Nat) : Monitor (Queue T) (Call T) Cv (Ret T) where
  turn := turn capacity
  expires := expires

abbrev State (Tid T : Type*) := Monitor.State Tid (Queue T) (Call T) Cv (Ret T)

def State.init : State Tid T := Monitor.State.init Queue.init

def step [DecidableEq Tid] (capacity : Nat) (s : State Tid T)
    (label : Tid × Monitor.Act Tid (Call T)) : Option (State Tid T) :=
  (monitor capacity).step s label

/-! ## Bounded and in order -/

/-- Never over capacity, and what was accepted has been delivered in order or is in the buffer. -/
structure Fair (capacity : Nat) (q : Queue T) : Prop where
  bounded : q.buffer.length ≤ capacity
  fifo : q.accepted = q.delivered ++ q.buffer

variable {capacity : Nat} {q q' : Queue T} {call : Call T} {signal : Signal Cv} {ret : Ret T}

theorem turn_cases (h : turn capacity q call = .leave q' signal ret) :
    (q' = q ∧ signal = .quiet ∧ ((∃ item, call = .push item) ∨ (∃ timed, call = .waitPop timed) →
      q.stopped = true)) ∨
    (∃ item, call = .push item ∧ q.stopped = false ∧ q.buffer.length < capacity ∧
      signal = .one .notEmpty ∧
      q' = { q with buffer := q.buffer ++ [item], accepted := q.accepted ++ [item] }) ∨
    (∃ x xs, (call = .tryPop ∨ ∃ timed, call = .waitPop timed) ∧ q.buffer = x :: xs ∧
      signal = .one .notFull ∧
      q' = { q with buffer := xs, delivered := q.delivered ++ [x] }) ∨
    (call = .stop ∧ signal = .everyone ∧ q' = { q with stopped := true }) := by
  cases call with
  | push item =>
    simp only [turn] at h
    split at h
    case isTrue hstop =>
      cases h
      exact .inl ⟨rfl, rfl, fun _ => hstop⟩
    case isFalse hstop =>
      split at h
      · cases h
        exact .inr (.inl ⟨item, rfl, by simpa using hstop, ‹_›, rfl, rfl⟩)
      · cases h
  | tryPop =>
    simp only [turn] at h
    split at h
    · cases h
      exact .inl ⟨rfl, rfl, by rintro (⟨item, hcall⟩ | ⟨timed, hcall⟩) <;> cases hcall⟩
    · cases h
      exact .inr (.inr (.inl ⟨_, _, .inl rfl, ‹_›, rfl, rfl⟩))
  | waitPop timed =>
    simp only [turn] at h
    split at h
    · split at h
      case isTrue hstop =>
        cases h
        exact .inl ⟨rfl, rfl, fun _ => hstop⟩
      case isFalse => cases h
    · cases h
      exact .inr (.inr (.inl ⟨_, _, .inr ⟨timed, rfl⟩, ‹_›, rfl, rfl⟩))
  | stop =>
    cases h
    exact .inr (.inr (.inr ⟨rfl, rfl, rfl⟩))

theorem Fair.turn (h : Fair capacity q) (hturn : turn capacity q call = .leave q' signal ret) :
    Fair capacity q' := by
  have hfifo := h.fifo
  have hbounded := h.bounded
  rcases turn_cases hturn with ⟨rfl, -⟩ | ⟨item, -, -, hroom, -, rfl⟩ |
    ⟨x, xs, -, hbuf, -, rfl⟩ | ⟨-, -, rfl⟩
  · exact h
  · refine ⟨?_, ?_⟩
    · simp only [List.length_append, List.length_singleton]
      omega
    · simp only [hfifo, List.append_assoc]
  · refine ⟨?_, ?_⟩
    · simp only [hbuf, List.length_cons] at hbounded
      show xs.length ≤ capacity
      omega
    · simp only [hfifo, hbuf, List.append_assoc, List.singleton_append]
  · exact ⟨hbounded, hfifo⟩

theorem fair_run [DecidableEq Tid] {s : State Tid T} {run : List (Tid × Monitor.Act Tid (Call T))}
    (hrun : exec (step capacity) State.init run = some s) : Fair capacity s.shared :=
  Monitor.shared_invariant (M := monitor capacity)
    (fun _ _ _ _ _ hq hturn => Fair.turn hq hturn) ⟨Nat.zero_le _, rfl⟩ hrun

/-! ## Nobody is left asleep -/

def allowance (capacity : Nat) :
    Monitor.Allowance (monitor capacity : Monitor (Queue T) (Call T) Cv (Ret T)) Cv where
  kind
    | .push _ => some .notFull
    | .waitPop _ => some .notEmpty
    | _ => none
  room
    | .notFull, q => capacity - q.buffer.length
    | .notEmpty, q => q.buffer.length
  closed q := q.stopped = true
  of_sleep {q call cv} h := by
    change turn capacity q call = .sleep cv at h
    cases call with
    | push item =>
      simp only [turn] at h
      split at h
      · cases h
      · split at h
        · cases h
        · exact ⟨‹_›, .notFull, rfl, show capacity - q.buffer.length = 0 by omega⟩
    | tryPop =>
      simp only [turn, Queue.handOut] at h
      split at h <;> cases h
    | waitPop timed =>
      simp only [turn, Queue.handOut] at h
      split at h
      case h_1 hbuf =>
        split at h
        · cases h
        · exact ⟨‹_›, .notEmpty, rfl, show q.buffer.length = 0 by rw [hbuf]; rfl⟩
      case h_2 => cases h
    | stop => cases h
  of_leave {q call q' signal ret k} h hkind hopen := by
    rcases turn_cases h with ⟨rfl, -, hstop⟩ | ⟨item, rfl, -, hroom, -, rfl⟩ |
      ⟨x, xs, hcall, hbuf, -, rfl⟩ | ⟨rfl, -, -⟩
    · -- a call that can sleep and changed nothing found the queue stopped
      refine absurd (hstop ?_) hopen
      cases call with
      | push item => exact .inl ⟨item, rfl⟩
      | waitPop timed => exact .inr ⟨timed, rfl⟩
      | tryPop => cases hkind
      | stop => cases hkind
    · cases hkind
      show capacity - (q.buffer ++ [item]).length + 1 ≤ capacity - q.buffer.length
      simp only [List.length_append, List.length_singleton]
      omega
    · rcases hcall with rfl | ⟨timed, rfl⟩
      · cases hkind
      · cases hkind
        show xs.length + 1 ≤ q.buffer.length
        rw [hbuf]
        exact Nat.le_refl _
    · cases hkind
  of_close {q call q' signal ret} h hclosed := by
    rcases turn_cases h with ⟨rfl, -⟩ | ⟨item, -, -, -, -, rfl⟩ | ⟨x, xs, -, -, -, rfl⟩ |
      ⟨-, hall, -⟩
    · exact .inl hclosed
    · exact .inl hclosed
    · exact .inl hclosed
    · exact .inr hall

theorem signals_own (h : turn capacity q call = .leave q' signal ret) (cv : Cv) :
    (allowance capacity).room cv q' ≤ (allowance capacity).room cv q ∨ signal = .everyone ∨
    ((allowance capacity).room cv q' ≤ (allowance capacity).room cv q + 1 ∧
      signal = .one cv) := by
  rcases turn_cases h with ⟨rfl, -⟩ | ⟨item, -, -, hroom, rfl, rfl⟩ |
    ⟨x, xs, -, hbuf, rfl, rfl⟩ | ⟨-, rfl, -⟩
  · exact .inl (Nat.le_refl _)
  · cases cv with
    | notFull =>
      refine .inl (show capacity - (q.buffer ++ [item]).length ≤ capacity - q.buffer.length from ?_)
      simp only [List.length_append, List.length_singleton]
      omega
    | notEmpty =>
      refine .inr (.inr ⟨?_, rfl⟩)
      show (q.buffer ++ [item]).length ≤ q.buffer.length + 1
      simp
  · cases cv with
    | notFull =>
      refine .inr (.inr ⟨?_, rfl⟩)
      show capacity - xs.length ≤ capacity - q.buffer.length + 1
      rw [hbuf, List.length_cons]
      omega
    | notEmpty =>
      refine .inl (show xs.length ≤ q.buffer.length from ?_)
      rw [hbuf, List.length_cons]
      omega
  · exact .inr (.inl rfl)

theorem attended_run [DecidableEq Tid] {s : State Tid T}
    {run : List (Tid × Monitor.Act Tid (Call T))}
    (hrun : exec (step capacity) State.init run = some s) : (allowance capacity).Attended s := by
  refine Monitor.Allowance.attended_of_own_cv (M := monitor capacity) (fun q call cv hsleep => ?_)
    (fun _ _ _ _ _ hturn cv => signals_own hturn cv) (Monitor.synced_init _)
    (Monitor.Allowance.attended_init _) hrun
  change turn capacity q call = .sleep cv at hsleep
  cases call with
  | push item =>
    simp only [turn] at hsleep
    split at hsleep
    · cases hsleep
    · split at hsleep <;> cases hsleep
      rfl
  | tryPop =>
    simp only [turn, Queue.handOut] at hsleep
    split at hsleep <;> cases hsleep
  | waitPop timed =>
    simp only [turn, Queue.handOut] at hsleep
    split at hsleep
    · split at hsleep <;> cases hsleep
      rfl
    · cases hsleep
  | stop => cases hsleep

/-- **Bounded, in order, and nobody is stranded.** In every run of any number of threads: the
buffer holds at most `capacity` items; what has been handed out is an initial part of what was
accepted; and once no thread is inside the queue and none has been notified, a producer that
sleeps finds the queue full and not stopped, and a consumer that sleeps finds it empty and not
stopped. -/
theorem blocking_queue_strands_nobody [DecidableEq Tid] {capacity : Nat} {s : State Tid T}
    {run : List (Tid × Monitor.Act Tid (Call T))}
    (hrun : exec (step capacity) State.init run = some s) :
    s.shared.buffer.length ≤ capacity ∧
    s.shared.accepted = s.shared.delivered ++ s.shared.buffer ∧
    (Monitor.AtRest s →
      (∀ t cv item, s.pc t = .asleep cv (.push item) →
        ¬ s.shared.buffer.length < capacity ∧ s.shared.stopped = false) ∧
      (∀ t cv timed, s.pc t = .asleep cv (.waitPop timed) →
        s.shared.buffer = [] ∧ s.shared.stopped = false)) := by
  have hfair := fair_run hrun
  have hattended := attended_run hrun
  refine ⟨hfair.bounded, hfair.fifo, fun hrest =>
    ⟨fun t cv item hpc => ?_, fun t cv timed hpc => ?_⟩⟩
  · obtain ⟨hopen, hroom⟩ := hattended.room_eq_zero hrest hpc (k := .notFull) rfl
    have hroom : capacity - s.shared.buffer.length = 0 := hroom
    exact ⟨by omega, Bool.eq_false_iff.mpr hopen⟩
  · obtain ⟨hopen, hroom⟩ := hattended.room_eq_zero hrest hpc (k := .notEmpty) rfl
    exact ⟨List.length_eq_zero_iff.mp hroom, Bool.eq_false_iff.mpr hopen⟩

/-- Thread 0 fills a queue of capacity one, thread 1 has to wait with its item, thread 0 takes the
first item out and waits for another one; thread 1, notified, has pushed, and its signal has woken
thread 0, which popped and waits again. -/
def handOver : List (Fin 2 × Monitor.Act (Fin 2) (Call Nat)) :=
  [(0, .invoke (.push 7)), (0, .turn none), (1, .invoke (.push 8)), (1, .turn none),
   (0, .invoke .tryPop), (0, .turn (some 1)), (0, .invoke (.waitPop false)), (0, .turn none),
   (1, .turn (some 0)), (0, .turn none), (0, .invoke (.waitPop false)), (0, .turn none)]

theorem blocking_queue_handOver :
    ∃ s ∈ exec (step 1) (State.init : State (Fin 2) Nat) handOver,
      s.shared.delivered = [7, 8] ∧ s.shared.accepted = s.shared.delivered ++ s.shared.buffer ∧
      s.pc 0 = .asleep .notEmpty (.waitPop false) ∧
      s.shared.buffer = [] ∧ s.shared.stopped = false := by
  have hends : ∃ s ∈ exec (step 1) (State.init : State (Fin 2) Nat) handOver,
      Monitor.AtRest s ∧ s.shared.delivered = [7, 8] ∧
      s.pc 0 = .asleep .notEmpty (.waitPop false) := by decide +kernel
  obtain ⟨s, hrun, hrest, hdelivered, hpc⟩ := hends
  obtain ⟨-, hfifo, hstranded⟩ := blocking_queue_strands_nobody hrun
  exact ⟨s, hrun, hdelivered, hfifo, hpc, (hstranded hrest).2 0 .notEmpty false hpc⟩

end Muses.BlockingImpl
