import Muses.BoundedQueue.Ring
import Muses.Core.Census

/-!
# The count of the ring's semaphore

`std::counting_semaphore<INT_MAX>` must not be released above `INT_MAX`. Every `push` that succeeds
releases one permit and every `stop` a quarter of the range, but only a `wait_pop` that had to park
takes one back, so the count follows the history of the calls and not the items in the ring.

* `Pc.dues` — the permits a call under way may still release;
* `roundTrips` — a thread that pushes and pops with `try_pop` only, and never gives a permit back.
-/

namespace Muses.RingImpl

open Muses.Core Function

variable {Tid T : Type*}

def intMax : Nat := 2147483647

def Pc.dues : Pc T → Nat
  | .idle _ | .popLoadPos _ | .popLoadSeq _ _ | .popCas _ _ | .popMove _ _ | .popReset _ _ _
  | .popStore _ _ _ | .waitCheck _ | .waitAcquire _ => 0
  | .stopStore | .stopRelease => stopPermits
  | _ => 1

def Act.dues : Act T → Nat
  | .push _ => 1
  | .stop => stopPermits
  | _ => 0

def Pc.releases : Pc T → Nat
  | .pushRelease => 1
  | .stopRelease => stopPermits
  | _ => 0

theorem Pc.releases_le_dues (c : Pc T) : c.releases ≤ c.dues := by
  cases c <;> simp [Pc.releases, Pc.dues]

section

variable [DecidableEq Tid] {cfg : Config} {s s' : State Tid T} {t : Tid}

/-- A step adds at most `due` to the permits and what the thread has yet to release. -/
def Pays (s : State Tid T) (t : Tid) (due : Nat) (s' : State Tid T) : Prop :=
  ∃ c, s'.pc = update s.pc t c ∧ s'.sem + c.dues ≤ s.sem + (s.pc t).dues + due

theorem pays_setPc {m : State Tid T} {c : Pc T} {due : Nat} (hpc : m.pc = s.pc)
    (hle : m.sem + c.dues ≤ s.sem + (s.pc t).dues + due) : Pays s t due (m.setPc t c) :=
  ⟨c, by simp [State.setPc, hpc], hle⟩

theorem step_pays {l : Tid × Act T} (h : step cfg s l = some s') : Pays s l.1 l.2.dues s' := by
  obtain ⟨t, a⟩ := l
  obtain ⟨c, m, hperforms, rfl⟩ := step_performs h
  generalize hpc : s.pc t = c₀ at hperforms
  cases hperforms with
  | @popNone flag k => exact pays_setPc rfl (by rw [hpc]; cases k <;> exact Nat.le_refl _)
  | _ => exact pays_setPc rfl (by simp [hpc, Pc.dues, Act.dues, State.storeData, State.storeSeq])

/-- Permits, with those yet to be released, are no more than the calls. -/
def Backed (s : State Tid T) (calls : Nat) : Prop :=
  ∃ total, Tally (fun u => (s.pc u).dues) total ∧ s.sem + total ≤ calls

theorem Backed.step {calls : Nat} (h : Backed s calls) {l : Tid × Act T}
    (hstep : RingImpl.step cfg s l = some s') : Backed s' (calls + l.2.dues) := by
  obtain ⟨total, htally, hle⟩ := h
  obtain ⟨c, hpc, hpays⟩ := step_pays hstep
  obtain ⟨total', htally', hmove⟩ := htally.move l.1 (fun u => (s'.pc u).dues) fun u hu => by
    simp only [hpc, update_of_ne hu]
  simp only [hpc, update_self] at hmove
  exact ⟨total', htally', by omega⟩

/-- The permits that the calls of a run may release in all: one for each `push`, and `stopPermits`
for each `stop`. -/
def duesOf (acts : List (Tid × Act T)) : Nat := (acts.map fun l => l.2.dues).sum

omit [DecidableEq Tid] in
theorem duesOf_concat (acts : List (Tid × Act T)) (l : Tid × Act T) :
    duesOf (acts ++ [l]) = duesOf acts + l.2.dues := by
  simp [duesOf]

theorem backed_of_run {acts : List (Tid × Act T)}
    (hrun : exec (step cfg) State.init acts = some s) : Backed s (duesOf acts) := by
  induction acts using List.reverseRecOn generalizing s with
  | nil =>
    cases hrun
    exact ⟨0, .zero fun _ => rfl, Nat.le_refl 0⟩
  | append_singleton acts l ih =>
    obtain ⟨m, hm, hstep⟩ := exec_of_concat hrun
    rw [duesOf_concat]
    exact (ih hm).step hstep

/-- **The semaphore count stays in range**, as long as the calls of the run can release no more than
`INT_MAX` permits in all: whatever the threads have done, a thread about to release `n` permits may
do so. -/
theorem semaphore_in_range {acts : List (Tid × Act T)}
    (hrun : exec (step cfg) State.init acts = some s) (hfew : duesOf acts ≤ intMax) (t : Tid) :
    s.sem + (s.pc t).releases ≤ intMax := by
  obtain ⟨total, ⟨threads, rfl, hout⟩, hle⟩ := backed_of_run hrun
  have hpart : (s.pc t).dues ≤ ∑ u ∈ threads, (s.pc u).dues := by
    by_cases ht : t ∈ threads
    · exact Finset.single_le_sum (f := fun u => (s.pc u).dues) (fun _ _ => Nat.zero_le _) ht
    · exact le_of_eq_of_le (hout t ht) (Nat.zero_le _)
  have hreleases := (s.pc t).releases_le_dues
  simp only at hle
  omega

end

/-- A consumer parks and takes the permit of the one `push`; then the queue is stopped. -/
def parksThenStops : List (Bool × Act Nat) :=
  [(false, .waitPop false) :: List.replicate 3 (false, .go false),
    (true, .push 1) :: List.replicate 7 (true, .go false), [(false, .go false)],
    [(true, .stop), (true, .go false)]].flatten

theorem semaphore_in_range_stopped :
    ∃ s : State Bool Nat, exec (step ⟨2, .dropNew⟩) State.init parksThenStops = some s ∧
      s.pc true = .stopRelease ∧ s.sem + (s.pc true).releases ≤ intMax := by
  have hends : ∃ s ∈ exec (step ⟨2, .dropNew⟩) (State.init : State Bool Nat) parksThenStops,
      s.pc true = .stopRelease := by decide +kernel
  obtain ⟨s, hrun, hpc⟩ := hends
  exact ⟨s, hrun, hpc, semaphore_in_range hrun (by decide +kernel) true⟩

/-! ## A thread that never parks -/

def roundTrip : List (Unit × Act Nat) :=
  ((), .push 0) :: List.replicate 7 ((), .go false) ++
    ((), .tryPop) :: List.replicate 6 ((), .go false)

def roundTrips : Nat → List (Unit × Act Nat)
  | 0 => []
  | n + 1 => roundTrips n ++ roundTrip

/-- `n` pushes and `n` `try_pop`s are over, and `n` permits have piled up. -/
structure Unparked (n : Nat) (s : State Unit Nat) : Prop where
  cell : s.ring 0 = ⟨n, none⟩
  enqueued : s.enqueuePos = n
  dequeued : s.dequeuePos = n
  running : s.stopped = false
  permits : s.sem = n
  idle : ∃ ret, s.pc () = .idle ret

theorem Unparked.roundTrip {n : Nat} {s : State Unit Nat} (h : Unparked n s) :
    ∃ s', exec (step ⟨1, .dropNew⟩) s roundTrip = some s' ∧ Unparked (n + 1) s' := by
  obtain ⟨hcell, henq, hdeq, hrun, hsem, ret, hidle⟩ := h
  have hslots : (⟨1, .dropNew⟩ : Config).slots = 1 := by decide
  have hmask : (⟨1, .dropNew⟩ : Config).mask = 0 := by decide
  simp only [RingImpl.roundTrip, List.replicate, List.cons_append, List.nil_append, exec, step,
    State.call, advance, pushStep, popStep, evictStep, waitStep, State.setPc, State.storeData,
    State.storeSeq, hcell, henq, hdeq, hrun, hsem, hidle, hslots, hmask, Nat.and_zero,
    update_self, Option.bind_some, Option.some_or, Option.none_or, if_true, sub_self,
    and_self, Bool.false_eq_true, if_false, Option.some.injEq, exists_eq_left']
  exact ⟨by simp, rfl, rfl, rfl, rfl, some (.popped (some 0)), by simp⟩

theorem unparked_roundTrips (n : Nat) :
    ∃ s, exec (step ⟨1, .dropNew⟩) State.init (roundTrips n) = some s ∧ Unparked n s := by
  induction n with
  | zero => exact ⟨_, rfl, rfl, rfl, rfl, rfl, rfl, none, rfl⟩
  | succ n ih =>
    obtain ⟨m, hm, hn⟩ := ih
    obtain ⟨s, hs, hnext⟩ := hn.roundTrip
    refine ⟨s, ?_, hnext⟩
    rw [roundTrips, exec_append, hm]
    exact hs

def pushing : List (Unit × Act Nat) := ((), .push 0) :: List.replicate 6 ((), .go false)

theorem Unparked.pushing {n : Nat} {s : State Unit Nat} (h : Unparked n s) :
    ∃ s', exec (step ⟨1, .dropNew⟩) s pushing = some s' ∧ s'.pc () = .pushRelease ∧
      s'.sem = n := by
  obtain ⟨hcell, henq, hdeq, hrun, hsem, ret, hidle⟩ := h
  have hmask : (⟨1, .dropNew⟩ : Config).mask = 0 := by decide
  simp only [RingImpl.pushing, List.replicate, exec, step, State.call, advance, pushStep,
    State.setPc, State.storeData, State.storeSeq, hcell, henq, hrun, hsem, hidle, hmask,
    Nat.and_zero, update_self, Option.bind_some, Option.some_or, if_true, sub_self,
    and_self, Bool.false_eq_true, if_false, Option.some.injEq, exists_eq_left']

theorem mem_roundTrips {n : Nat} {l : Unit × Act Nat} (h : l ∈ roundTrips n) :
    l.2 = .push 0 ∨ l.2 = .tryPop ∨ l.2 = .go false := by
  induction n with
  | zero => cases h
  | succ n ih =>
    rcases List.mem_append.mp h with h | h
    · exact ih h
    · simp only [roundTrip, List.replicate, List.cons_append, List.nil_append, List.mem_cons,
        List.not_mem_nil, or_false] at h
      rcases h with rfl | rfl | rfl | rfl | rfl | rfl | rfl | rfl | rfl | rfl | rfl | rfl | rfl |
        rfl | rfl <;> simp

/-- **Consuming with `try_pop` only uses the range up.** The ring never holds more than one item,
and after `INT_MAX` of them the next `push` is about to release a permit above `INT_MAX`. -/
theorem permits_pile_up :
    ∃ acts : List (Unit × Act Nat), (∀ l ∈ acts, l.2 = .push 0 ∨ l.2 = .tryPop ∨ l.2 = .go false) ∧
      ∃ s, exec (step ⟨1, .dropNew⟩) State.init acts = some s ∧ s.pc () = .pushRelease ∧
        intMax < s.sem + (s.pc ()).releases := by
  obtain ⟨m, hm, hn⟩ := unparked_roundTrips intMax
  obtain ⟨s, hs, hpc, hsem⟩ := hn.pushing
  refine ⟨roundTrips intMax ++ pushing, fun l hl => ?_, s, ?_, hpc, ?_⟩
  · rcases List.mem_append.mp hl with hl | hl
    · exact mem_roundTrips hl
    · have hstart : pushing <+: roundTrips 1 := by decide
      exact mem_roundTrips (hstart.subset hl)
  · rw [exec_append, hm]
    exact hs
  · rw [hpc, hsem]
    exact Nat.lt_succ_self intMax

end Muses.RingImpl
