import Muses.Core.Monitor

/-!
# `ThreadSafeQueue` — producers and consumers on one condition variable

`muses/queue.hpp`. Everything happens under `mutex`, so a call is one turn with the lock, or several
when it has to wait; the threads, the wait queue of `data_control_condition` and the choice that
`notify_one` makes come from `Muses.Core.Monitor`.

Producers and consumers wait on the same condition variable, and `try_pop` and `set_capacity` do
not signal it. So a thread can be left asleep although it could go on, in three ways
(`poppedQuietly`, `raisedQuietly`, `wrongWaiter`).

* `Considerate` — the runs in which none of the three happens.
-/

namespace Muses.ThreadSafeQueue

open Muses.Core

structure Queue (T : Type*) where
  dataQueue : List T
  capacity : Nat
  stopped : Bool
  deriving DecidableEq, Repr

def Queue.init {T : Type*} : Queue T := ⟨[], 4294967295, false⟩

inductive Call (T : Type*) where
  | setCapacity (cap : Nat)
  | push (newValue : T)
  | tryPop
  | waitAndPop
  | empty
  | stop
  deriving DecidableEq, Repr

inductive Ret (T : Type*) where
  | done
  | pushed (ok : Bool)
  | popped (out : Option T)
  | isEmpty (b : Bool)
  deriving DecidableEq, Repr

variable {Tid T : Type*}

def turn (q : Queue T) : Call T → Turn (Queue T) Unit (Ret T)
  | .setCapacity cap => .leave { q with capacity := cap } .quiet .done
  | .push newValue =>
      if q.stopped || q.dataQueue.length < q.capacity then
        if q.stopped then .leave q .quiet (.pushed false)
        else .leave { q with dataQueue := q.dataQueue ++ [newValue] } (.one ()) (.pushed true)
      else .sleep ()
  | .tryPop =>
      match q.dataQueue with
      | [] => .leave q .quiet (.popped none)
      | x :: xs => .leave { q with dataQueue := xs } .quiet (.popped (some x))
  | .waitAndPop =>
      match q.dataQueue with
      | [] => if q.stopped then .leave q .quiet (.popped none) else .sleep ()
      | x :: xs => .leave { q with dataQueue := xs } (.one ()) (.popped (some x))
  | .empty => .leave q .quiet (.isEmpty q.dataQueue.isEmpty)
  | .stop => .leave { q with stopped := true } .everyone .done

def monitor : Monitor (Queue T) (Call T) Unit (Ret T) where
  turn := turn
  expires _ := none

abbrev State (Tid T : Type*) := Monitor.State Tid (Queue T) (Call T) Unit (Ret T)

def State.init : State Tid T := Monitor.State.init Queue.init

def step [DecidableEq Tid] (s : State Tid T) (label : Tid × Monitor.Act Tid (Call T)) :
    Option (State Tid T) :=
  monitor.step s label

/-! ## Who waits for what -/

inductive Side where
  | producer
  | consumer
  deriving DecidableEq, Repr

def Call.side : Call T → Option Side
  | .push _ => some .producer
  | .waitAndPop => some .consumer
  | _ => none

def Queue.room (q : Queue T) : Side → Nat
  | .producer => q.capacity - q.dataQueue.length
  | .consumer => q.dataQueue.length

def waitsAs : Monitor.Pc (Call T) Unit (Ret T) → Option Side
  | .asleep _ call => call.side
  | _ => none

/-- Someone waits on this side. -/
def Waits (s : State Tid T) (side : Side) : Prop := ∃ u, waitsAs (s.pc u) = some side

/-- If anyone waits on this side, the notification goes to one of them. -/
def Reaches (s : State Tid T) (pick : Option Tid) (side : Side) : Prop :=
  Waits s side → ∃ u, pick = some u ∧ waitsAs (s.pc u) = some side

instance [Fintype Tid] (s : State Tid T) (side : Side) : Decidable (Waits s side) :=
  inferInstanceAs (Decidable (∃ u, waitsAs (s.pc u) = some side))

instance [Fintype Tid] [DecidableEq Tid] (s : State Tid T) (pick : Option Tid) (side : Side) :
    Decidable (Reaches s pick side) :=
  inferInstanceAs (Decidable (Waits s side → ∃ u, pick = some u ∧ waitsAs (s.pc u) = some side))

/-- A call that makes room or brings an item leaves no one waiting for it unwoken. -/
def ConsiderateCall (s : State Tid T) (pick : Option Tid) : Call T → Prop
  | .tryPop => s.shared.dataQueue = [] ∨ ¬ Waits s .producer
  | .setCapacity cap => cap ≤ s.shared.capacity ∨ ¬ Waits s .producer
  | .push _ =>
      s.shared.stopped = false → s.shared.dataQueue.length < s.shared.capacity →
        Reaches s pick .consumer
  | .waitAndPop => s.shared.dataQueue ≠ [] → Reaches s pick .producer
  | _ => True

/-- Every turn is one of a considerate call. -/
def Considerate (s : State Tid T) : Tid × Monitor.Act Tid (Call T) → Prop
  | (t, .turn pick) =>
      match s.pc t with
      | .entering call => ConsiderateCall s pick call
      | .woken call => ConsiderateCall s pick call
      | .expired call => ConsiderateCall s pick call
      | _ => True
  | _ => True

instance [Fintype Tid] [DecidableEq Tid] [DecidableEq T] (s : State Tid T) (pick : Option Tid)
    (call : Call T) : Decidable (ConsiderateCall s pick call) := by
  unfold ConsiderateCall
  split <;> infer_instance

instance [Fintype Tid] [DecidableEq Tid] [DecidableEq T] (s : State Tid T)
    (label : Tid × Monitor.Act Tid (Call T)) : Decidable (Considerate s label) := by
  unfold Considerate
  split
  · split <;> infer_instance
  · infer_instance

/-! ## Nobody is left asleep -/

theorem turn_cases {q q' : Queue T} {call : Call T} {signal : Signal Unit} {ret : Ret T}
    (h : turn q call = .leave q' signal ret) :
    (q' = q ∧ signal = .quiet ∧ (call.side.isSome → q.stopped = true)) ∨
    (∃ cap, call = .setCapacity cap ∧ signal = .quiet ∧ q' = { q with capacity := cap }) ∨
    (∃ v, call = .push v ∧ q.stopped = false ∧ q.dataQueue.length < q.capacity ∧
      signal = .one () ∧ q' = { q with dataQueue := q.dataQueue ++ [v] }) ∨
    (∃ x xs, q.dataQueue = x :: xs ∧ q' = { q with dataQueue := xs } ∧
      ((call = .tryPop ∧ signal = .quiet) ∨ (call = .waitAndPop ∧ signal = .one ()))) ∨
    (call = .stop ∧ signal = .everyone ∧ q' = { q with stopped := true }) := by
  cases call with
  | setCapacity cap =>
    cases h
    exact .inr (.inl ⟨cap, rfl, rfl, rfl⟩)
  | push v =>
    simp only [turn] at h
    split at h
    · rename_i hready
      split at h
      case isTrue hstop =>
        cases h
        exact .inl ⟨rfl, rfl, fun _ => hstop⟩
      case isFalse hstop =>
        cases h
        have hroom : q.dataQueue.length < q.capacity := by simpa [hstop] using hready
        exact .inr (.inr (.inl ⟨v, rfl, by simpa using hstop, hroom, rfl, rfl⟩))
    · cases h
  | tryPop =>
    simp only [turn] at h
    split at h
    · cases h
      exact .inl ⟨rfl, rfl, by simp [Call.side]⟩
    · cases h
      exact .inr (.inr (.inr (.inl ⟨_, _, ‹_›, rfl, .inl ⟨rfl, rfl⟩⟩)))
  | waitAndPop =>
    simp only [turn] at h
    split at h
    · split at h
      case isTrue hstop =>
        cases h
        exact .inl ⟨rfl, rfl, fun _ => hstop⟩
      case isFalse => cases h
    · cases h
      exact .inr (.inr (.inr (.inl ⟨_, _, ‹_›, rfl, .inr ⟨rfl, rfl⟩⟩)))
  | empty =>
    cases h
    exact .inl ⟨rfl, rfl, by simp [Call.side]⟩
  | stop =>
    cases h
    exact .inr (.inr (.inr (.inr ⟨rfl, rfl, rfl⟩)))

def allowance : Monitor.Allowance (monitor : Monitor (Queue T) (Call T) Unit (Ret T)) Side where
  kind := Call.side
  room side q := q.room side
  closed q := q.stopped = true
  of_sleep {q call cv} h := by
    change turn q call = .sleep cv at h
    cases call with
    | push v =>
      simp only [turn] at h
      split at h
      · split at h <;> cases h
      · rename_i hready
        simp only [Bool.or_eq_true, decide_eq_true_eq, not_or] at hready
        exact ⟨hready.1, .producer, rfl, show q.capacity - q.dataQueue.length = 0 by omega⟩
    | waitAndPop =>
      simp only [turn] at h
      split at h
      case h_1 hempty =>
        split at h
        · cases h
        · exact ⟨‹_›, .consumer, rfl, show q.dataQueue.length = 0 by rw [hempty]; rfl⟩
      case h_2 => cases h
    | tryPop =>
      simp only [turn] at h
      split at h <;> cases h
    | setCapacity cap => cases h
    | empty => cases h
    | stop => cases h
  of_leave {q call q' signal ret side} h hside hopen := by
    rcases turn_cases h with ⟨rfl, -, hstop⟩ | ⟨cap, rfl, -⟩ | ⟨v, rfl, -, hroom, -, rfl⟩ |
      ⟨x, xs, hitems, rfl, ⟨rfl, -⟩ | ⟨rfl, -⟩⟩ | ⟨rfl, -⟩
    · exact absurd (hstop (by rw [hside]; rfl)) hopen
    · cases hside
    · cases hside
      show q.capacity - (q.dataQueue ++ [v]).length + 1 ≤ q.capacity - q.dataQueue.length
      simp only [List.length_append, List.length_singleton]
      omega
    · cases hside
    · cases hside
      show xs.length + 1 ≤ q.dataQueue.length
      rw [hitems]
      exact Nat.le_refl _
    · cases hside
  of_close {q call q' signal ret} h hclosed := by
    rcases turn_cases h with ⟨rfl, -⟩ | ⟨cap, -, -, rfl⟩ | ⟨v, -, -, -, -, rfl⟩ |
      ⟨x, xs, -, rfl, -⟩ | ⟨-, hall, -⟩
    · exact .inl hclosed
    · exact .inl hclosed
    · exact .inl hclosed
    · exact .inl hclosed
    · exact .inr hall

theorem sleeps_iff {side : Side} {pc : Monitor.Pc (Call T) Unit (Ret T)} :
    allowance.Sleeps side pc ↔ waitsAs pc = some side := by
  constructor
  · rintro ⟨cv, call, rfl, hside⟩
    exact hside
  · intro h
    cases pc with
    | asleep cv call => exact ⟨cv, call, rfl, h⟩
    | idle ret => cases h
    | entering call => cases h
    | woken call => cases h
    | expired call => cases h

theorem Considerate.call {s : State Tid T} {t : Tid} {pick : Option Tid} {call : Call T}
    (h : Considerate s (t, .turn pick)) (hpc : (s.pc t).Runs call) :
    ConsiderateCall s pick call := by
  simp only [Considerate] at h
  rcases hpc with hpc | hpc | hpc <;> rw [hpc] at h <;> exact h

theorem serves_of_considerate {s : State Tid T} {label : Tid × Monitor.Act Tid (Call T)}
    (h : Considerate s label) : allowance.Serves s label := by
  obtain ⟨t, act⟩ := label
  cases act with
  | invoke call => trivial
  | spurious => trivial
  | expire => trivial
  | turn pick =>
    intro call q' signal ret hpc hturn side hsleeps
    have hcall := h.call hpc
    have hwaits : Waits s side := hsleeps.imp fun u hu => sleeps_iff.mp hu
    rcases turn_cases hturn with ⟨rfl, -⟩ | ⟨cap, rfl, -, rfl⟩ | ⟨v, rfl, hrun, hroom, -, rfl⟩ |
      ⟨x, xs, hitems, rfl, ⟨rfl, -⟩ | ⟨rfl, -⟩⟩ | ⟨rfl, hall, -⟩
    · exact .inl (Nat.le_refl _)
    · -- raising the capacity makes room for producers, and none sleeps
      cases side with
      | producer =>
        rcases hcall with hcap | hnone
        · refine .inl (show cap - s.shared.dataQueue.length ≤
            s.shared.capacity - s.shared.dataQueue.length from ?_)
          omega
        · exact absurd hwaits hnone
      | consumer => exact .inl (Nat.le_refl _)
    · cases side with
      | producer =>
        refine .inl (show s.shared.capacity - (s.shared.dataQueue ++ [v]).length ≤
          s.shared.capacity - s.shared.dataQueue.length from ?_)
        simp only [List.length_append, List.length_singleton]
        omega
      | consumer =>
        obtain ⟨u, hpick, hu⟩ := hcall hrun hroom hwaits
        refine .inr (.inr ⟨?_, u, hpick, sleeps_iff.mpr hu⟩)
        show (s.shared.dataQueue ++ [v]).length ≤ s.shared.dataQueue.length + 1
        simp
    · -- `try_pop` signals nobody
      cases side with
      | producer =>
        rcases hcall with hempty | hnone
        · rw [hitems] at hempty
          cases hempty
        · exact absurd hwaits hnone
      | consumer =>
        refine .inl (show xs.length ≤ s.shared.dataQueue.length from ?_)
        rw [hitems, List.length_cons]
        omega
    · cases side with
      | producer =>
        obtain ⟨u, hpick, hu⟩ := hcall (by rw [hitems]; exact List.cons_ne_nil x xs) hwaits
        refine .inr (.inr ⟨?_, u, hpick, sleeps_iff.mpr hu⟩)
        show s.shared.capacity - xs.length ≤ s.shared.capacity - s.shared.dataQueue.length + 1
        rw [hitems, List.length_cons]
        omega
      | consumer =>
        refine .inl (show xs.length ≤ s.shared.dataQueue.length from ?_)
        rw [hitems, List.length_cons]
        omega
    · exact .inr (.inl hall)

/-- **Nobody is stranded.** In every considerate run, once no thread is inside the queue and none
has been notified: a producer that sleeps finds the queue full and not stopped, and a consumer that
sleeps finds it empty and not stopped. -/
theorem thread_safe_queue_strands_nobody [DecidableEq Tid] {s : State Tid T}
    {run : List (Tid × Monitor.Act Tid (Call T))} (hrun : exec step State.init run = some s)
    (hconsiderate : Meets step Considerate State.init run) (hrest : Monitor.AtRest s) :
    (∀ t cv v, s.pc t = .asleep cv (.push v) →
      ¬ s.shared.dataQueue.length < s.shared.capacity ∧ s.shared.stopped = false) ∧
    (∀ t cv, s.pc t = .asleep cv .waitAndPop →
      s.shared.dataQueue = [] ∧ s.shared.stopped = false) := by
  have hattended : allowance.Attended s :=
    Monitor.Allowance.attended_run (M := monitor) (Monitor.Allowance.attended_init _)
      (hconsiderate.mono fun _ _ => serves_of_considerate) hrun
  refine ⟨fun t cv v hpc => ?_, fun t cv hpc => ?_⟩
  · obtain ⟨hopen, hroom⟩ := hattended.room_eq_zero hrest hpc (k := .producer) rfl
    have hroom : s.shared.capacity - s.shared.dataQueue.length = 0 := hroom
    exact ⟨by omega, Bool.eq_false_iff.mpr hopen⟩
  · obtain ⟨hopen, hroom⟩ := hattended.room_eq_zero hrest hpc (k := .consumer) rfl
    exact ⟨List.length_eq_zero_iff.mp hroom, Bool.eq_false_iff.mpr hopen⟩

local instance neZero_four : NeZero 4 := ⟨by decide⟩

/-- Two consumers wait; a push wakes one of them and a second push has to wait; the consumer takes
the item and its signal reaches the producer, whose push then wakes the other consumer. -/
def wellServed : List (Fin 4 × Monitor.Act (Fin 4) (Call Nat)) :=
  [(0, .invoke (.setCapacity 1)), (0, .turn none), (2, .invoke .waitAndPop), (2, .turn none),
   (3, .invoke .waitAndPop), (3, .turn none), (0, .invoke (.push 7)), (0, .turn (some 2)),
   (1, .invoke (.push 8)), (1, .turn none), (2, .turn (some 1)), (1, .turn (some 3)),
   (3, .turn none), (2, .invoke .waitAndPop), (2, .turn none)]

theorem thread_safe_queue_wellServed :
    ∃ s ∈ exec step (State.init : State (Fin 4) Nat) wellServed,
      s.pc 1 = .idle (some (.pushed true)) ∧ s.pc 2 = .asleep () .waitAndPop ∧
      s.shared.dataQueue = [] ∧ s.shared.stopped = false := by
  have hends : ∃ s ∈ exec step (State.init : State (Fin 4) Nat) wellServed,
      Monitor.AtRest s ∧ s.pc 1 = .idle (some (.pushed true)) ∧
      s.pc 2 = .asleep () .waitAndPop := by decide +kernel
  obtain ⟨s, hrun, hrest, hpushed, hpc⟩ := hends
  have hconsiderate : Meets step Considerate (State.init : State (Fin 4) Nat) wellServed := by
    decide +kernel
  exact ⟨s, hrun, hpushed, hpc,
    (thread_safe_queue_strands_nobody hrun hconsiderate hrest).2 2 () hpc⟩

/-! ## The three ways to be stranded -/

def poppedQuietly : List (Fin 4 × Monitor.Act (Fin 4) (Call Nat)) :=
  [(0, .invoke (.setCapacity 1)), (0, .turn none), (0, .invoke (.push 7)), (0, .turn none),
   (1, .invoke (.push 8)), (1, .turn none), (0, .invoke .tryPop), (0, .turn none)]

def raisedQuietly : List (Fin 4 × Monitor.Act (Fin 4) (Call Nat)) :=
  [(0, .invoke (.setCapacity 1)), (0, .turn none), (0, .invoke (.push 7)), (0, .turn none),
   (1, .invoke (.push 8)), (1, .turn none), (0, .invoke (.setCapacity 2)), (0, .turn none)]

/-- As `wellServed`, but the signal of the first `wait_and_pop` reaches the other consumer, which
finds the queue empty and sleeps again. -/
def wrongWaiter : List (Fin 4 × Monitor.Act (Fin 4) (Call Nat)) :=
  [(0, .invoke (.setCapacity 1)), (0, .turn none), (2, .invoke .waitAndPop), (2, .turn none),
   (3, .invoke .waitAndPop), (3, .turn none), (0, .invoke (.push 7)), (0, .turn (some 2)),
   (1, .invoke (.push 8)), (1, .turn none), (2, .turn (some 3)), (3, .turn none)]

/-- A producer sleeps although there is room, and nobody is left to wake it. -/
def Stranded (s : State (Fin 4) Nat) (t : Fin 4) : Prop :=
  Monitor.AtRest s ∧ waitsAs (s.pc t) = some .producer ∧
    s.shared.dataQueue.length < s.shared.capacity

instance (s : State (Fin 4) Nat) (t : Fin 4) : Decidable (Stranded s t) := by
  unfold Stranded
  infer_instance

/-- Each of the three runs ends with producer 1 stranded. -/
theorem producer_stranded_beside_room :
    (∃ s ∈ exec step (State.init : State (Fin 4) Nat) poppedQuietly, Stranded s 1) ∧
    (∃ s ∈ exec step (State.init : State (Fin 4) Nat) raisedQuietly, Stranded s 1) ∧
    (∃ s ∈ exec step (State.init : State (Fin 4) Nat) wrongWaiter, Stranded s 1) := by
  decide +kernel

end Muses.ThreadSafeQueue
