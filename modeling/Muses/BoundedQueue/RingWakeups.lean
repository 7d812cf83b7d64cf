import Muses.BoundedQueue.RingFullness
import Muses.Core.Census

/-!
# Permits and items of the ring

`push` releases one permit for each item it has published, and a blocked `wait_pop` takes a permit
before it tries to pop. Permits and items are otherwise independent: a pop that finds an item at
once leaves the permit behind, and an eviction takes an item without one. What must not happen is
that a permit is spent and the item stays.

* `Pc.permit` — the threads that have a permit under way: a producer between its claim and its
  release, a consumer between its acquire and its claim.
-/

namespace Muses.RingImpl

open Muses.Core

variable {Tid T : Type*}

def Pc.permit : Pc T → Nat
  | .pushEmplace _ _ => 1
  | .pushStore _ => 1
  | .pushRelease => 1
  | .popLoadPos (.waitAgain _) => 1
  | .popLoadSeq (.waitAgain _) _ => 1
  | .popCas (.waitAgain _) _ => 1
  | _ => 0

def Pc.publishing : Pc T → Option Nat
  | .pushEmplace _ pos => some pos
  | .pushStore pos => some pos
  | _ => none

def Pc.resting : Pc T → Bool
  | .idle _ => true
  | .waitCheck _ => true
  | .waitAcquire _ => true
  | .stopStore => true
  | .stopRelease => true
  | _ => false

section

variable [DecidableEq Tid]

/-! ## One step, seen from the semaphore -/

/-- What a step does to items and permits: no item appears and no permit vanishes without the
other, except where a consumer finds nothing to spend its permit on. -/
inductive Exchange (cfg : Config) (s : State Tid T) (t : Tid) (s' : State Tid T) : Prop where
  | even (c : Pc T) (hpc : s'.pc = Function.update s.pc t c)
      (hle : s'.enqueuePos + s.dequeuePos + s.sem + (s.pc t).permit ≤
        s.enqueuePos + s'.dequeuePos + s'.sem + c.permit)
  | spent (timed : Bool) (pos : Nat) (hold : s.pc t = .popLoadSeq (.waitAgain timed) pos)
      (hseq : (s.ring (pos &&& cfg.mask)).sequence < pos + 1)
      (henq : s'.enqueuePos = s.enqueuePos) (hdeq : s'.dequeuePos = s.dequeuePos)

variable {cfg : Config} {s s' : State Tid T} {t : Tid}

variable {c : Pc T} {l : Tid × Act T}

/-- A step that moves no cursor and leaves the semaphore alone, to a program counter with the same
permit. -/
theorem exchange_of_same {m : State Tid T} (hpc : m.pc = s.pc)
    (henq : m.enqueuePos = s.enqueuePos) (hdeq : m.dequeuePos = s.dequeuePos)
    (hsem : m.sem = s.sem) (hpermit : c.permit = (s.pc t).permit) :
    Exchange cfg s t (m.setPc t c) := by
  refine .even c (by simp [State.setPc, hpc]) ?_
  change m.enqueuePos + s.dequeuePos + s.sem + (s.pc t).permit ≤
    s.enqueuePos + m.dequeuePos + m.sem + c.permit
  omega

theorem step_exchange (h : step cfg s l = some s') : Exchange cfg s l.1 s' := by
  obtain ⟨t, a⟩ := l
  obtain ⟨c, m, hperforms, rfl⟩ := step_performs h
  generalize hpc : s.pc t = c₀ at hperforms
  cases hperforms with
  | claimPut | release | evictClaim | acquire | stopRelease =>
    -- the claim of a push adds an item and the promise of a permit
    refine .even _ rfl ?_
    simp only [hpc, Pc.permit, State.setPc]
    omega
  | @popClaim flag k =>
    -- an item leaves the ring; its permit, if the consumer holds one, goes with it
    refine .even _ rfl ?_
    cases k <;> simp only [hpc, Pc.permit, State.setPc] <;> omega
  | @popNone flag k pos hseq =>
    cases k with
    | waitAgain timed => exact .spent timed pos hpc hseq rfl rfl
    | _ => exact exchange_of_same rfl rfl rfl rfl (by rw [hpc]; rfl)
  | @popLoad flag k | @popSee flag k | @popLate flag k | @popLose flag k =>
    exact exchange_of_same rfl rfl rfl rfl (by rw [hpc]; cases k <;> rfl)
  | _ => exact exchange_of_same rfl rfl rfl rfl (by rw [hpc]; rfl)

/-! ## Every item is covered by a permit -/

/-- A consumer that holds a permit reads the cell of a position that no producer has claimed and
not published. -/
def SpendsOnPublished (s : State Tid T) (l : Tid × Act T) : Prop :=
  match l.2, s.pc l.1 with
  | .go _, .popLoadSeq (.waitAgain _) pos => ∀ u, (s.pc u).publishing ≠ some pos
  | _, _ => True

instance [Fintype Tid] (s : State Tid T) (l : Tid × Act T) :
    Decidable (SpendsOnPublished s l) := by
  unfold SpendsOnPublished
  generalize l.2 = a
  generalize s.pc l.1 = c
  induction a using Act.casesOn with
  | go =>
    induction c using Pc.casesOn with
    | popLoadSeq caller => induction caller using PopCaller.casesOn <;> infer_instance
    | _ => infer_instance
  | _ => infer_instance

/-- The items in the ring are covered by the permits of the semaphore and those that the threads
of some finite set have under way. -/
def Covered (s : State Tid T) : Prop :=
  ∃ threads : Finset Tid,
    s.enqueuePos ≤ s.dequeuePos + s.sem + ∑ u ∈ threads, (s.pc u).permit

omit [DecidableEq Tid] in
theorem Sighted.publishing_of_ticket (h : Sighted cfg s) {u : Tid} {q : Nat}
    (hu : (s.pc u).role.ticket = some q) (hq : s.dequeuePos ≤ q) :
    (s.pc u).publishing = some q := by
  have hrole := h.inv.roles u
  change TicketRing.RoleOk cfg.slots s.protocol (s.pc u).role at hrole
  have hhead : s.protocol.head = s.dequeuePos := rfl
  cases hpc : s.pc u <;> rw [hpc] at hu hrole <;>
    simp only [Pc.role, TicketRing.Role.ticket, reduceCtorEq, Option.some.injEq] at hu <;>
    first | (rw [← hu]; rfl) | (have hclaimed := hrole.1; omega)

omit [DecidableEq Tid] in
/-- A `try_pop` that finds its cell not published stands before an empty ring, unless some thread
is about to publish it. -/
theorem Sighted.empty_of_unpublished (hp : 2 ≤ cfg.slots) (hs : Sighted cfg s) {k : PopCaller}
    {pos : Nat} (hpc : s.pc t = .popLoadSeq k pos)
    (hseq : (s.ring (pos &&& cfg.mask)).sequence < pos + 1)
    (hnobody : ∀ u, (s.pc u).publishing ≠ some pos) : s.enqueuePos = s.dequeuePos := by
  rw [cfg.and_mask] at hseq
  obtain ⟨hhead, hempty | ⟨u, hu⟩⟩ := TicketRing.empty_or_filling (by omega) hs.inv hs.attended
    (hs.popSeen t k pos hpc) hseq
  · exact hempty
  · exact absurd (hs.publishing_of_ticket hu (Nat.le_of_eq hhead.symm)) (hnobody u)

theorem Covered.step (hp : 2 ≤ cfg.slots) (hs : Sighted cfg s) (h : Covered s)
    (hspend : SpendsOnPublished s l) (hstep : RingImpl.step cfg s l = some s') : Covered s' := by
  obtain ⟨threads, hle⟩ := h
  cases step_exchange hstep with
  | even c hpc heven =>
    refine ⟨insert l.1 threads, ?_⟩
    have hmore : ∑ u ∈ threads, (s.pc u).permit ≤ ∑ u ∈ insert l.1 threads, (s.pc u).permit :=
      Finset.sum_le_sum_of_subset (Finset.subset_insert _ _)
    have hupd := sum_update Pc.permit s.pc c (Finset.mem_insert_self l.1 threads)
    rw [hpc]
    omega
  | spent timed pos hold hseq henq hdeq =>
    -- nothing to pop: the ring is empty, since nobody is about to publish this position
    obtain ⟨flag, hgo⟩ := step_go_of_busy hstep (by simp [hold])
    simp only [SpendsOnPublished, hgo, hold] at hspend
    have hnone := hs.empty_of_unpublished hp hold hseq hspend
    exact ⟨threads, by omega⟩

theorem keeps_covered (hp : 2 ≤ cfg.slots) (h : Sighted cfg s ∧ Covered s)
    (hspend : SpendsOnPublished s l) (hstep : step cfg s l = some s') :
    Sighted cfg s' ∧ Covered s' :=
  ⟨h.1.step hp hstep, h.2.step hp h.1 hspend hstep⟩

omit [DecidableEq Tid] in
theorem permit_of_resting (h : c.resting = true) : c.permit = 0 := by
  cases c <;> first | rfl | cases h

/-- **No wakeup is lost**, as long as permits are spent on published positions. In every state that
any threads reach on a ring of at least two cells, if no `push` or `try_pop` is under way and the
ring holds an item, then no consumer is blocked in `sem_.acquire()` on an empty semaphore. -/
theorem no_lost_wakeup (hcap : 2 ≤ cfg.capacity) {acts : List (Tid × Act T)}
    (hrun : exec (step cfg) State.init acts = some s)
    (hspend : Meets (step cfg) SpendsOnPublished State.init acts)
    (hrest : ∀ u, (s.pc u).resting = true) (hitem : s.dequeuePos < s.enqueuePos) :
    ∀ t timed, s.pc t = .waitAcquire timed → 0 < s.sem := by
  have hp := Config.two_le_slots hcap
  have hinit : Sighted cfg (State.init : State Tid T) ∧ Covered (State.init : State Tid T) :=
    ⟨sighted_init hp, ∅, Nat.zero_le _⟩
  obtain ⟨-, threads, hcover⟩ :=
    exec_invariant_of_meets (fun _ _ _ => keeps_covered hp) hinit hspend hrun
  -- at rest no permit is under way, so the semaphore alone covers the items
  have hnone : ∑ u ∈ threads, (s.pc u).permit = 0 :=
    Finset.sum_eq_zero fun u _ => permit_of_resting (hrest u)
  intro t timed _
  omega

end

def waitThenPush : List (Bool × Act Nat) :=
  (false, .waitPop false) :: List.replicate 3 (false, .go false) ++ pushAlone true 1

theorem no_lost_wakeup_waitThenPush :
    ∃ s : State Bool Nat, exec (step ⟨2, .dropNew⟩) State.init waitThenPush = some s ∧
      s.pc false = .waitAcquire false ∧ s.dequeuePos < s.enqueuePos ∧ 0 < s.sem := by
  have hends : ∃ s ∈ exec (step ⟨2, .dropNew⟩) (State.init : State Bool Nat) waitThenPush,
      (∀ u, (s.pc u).resting = true) ∧ s.pc false = .waitAcquire false ∧
        s.dequeuePos < s.enqueuePos := by decide +kernel
  obtain ⟨s, hrun, hrest, hpc, hitem⟩ := hends
  refine ⟨s, hrun, hpc, hitem, ?_⟩
  exact no_lost_wakeup (by decide) hrun (by decide +kernel) hrest hitem false false hpc

def spendsEarly : List (Fin 4 × Act Nat) :=
  (2, .waitPop false) :: List.replicate 3 (2, .go false) ++
  (3, .waitPop false) :: List.replicate 3 (3, .go false) ++
  (0, .push 7) :: List.replicate 4 (0, .go false) ++
  (1, .push 8) :: List.replicate 7 (1, .go false) ++
  List.replicate 4 (2, .go false) ++ List.replicate 3 (0, .go false) ++
  List.replicate 7 (2, .go false)

/-- The second permit is gone, the second item is not: thread 3 sleeps beside it. -/
theorem wakeup_lost_beside_item :
    ∃ s : State (Fin 4) Nat, exec (step ⟨2, .dropNew⟩) State.init spendsEarly = some s ∧
      (∀ u, (s.pc u).resting = true) ∧ s.dequeuePos < s.enqueuePos ∧
      s.pc 3 = .waitAcquire false ∧ s.sem = 0 ∧ s.stopped = false := by
  have hends : ∃ s ∈ exec (step ⟨2, .dropNew⟩) (State.init : State (Fin 4) Nat) spendsEarly,
      (∀ u, (s.pc u).resting = true) ∧ s.dequeuePos < s.enqueuePos ∧
      s.pc 3 = .waitAcquire false ∧ s.sem = 0 ∧ s.stopped = false := by decide +kernel
  obtain ⟨s, hrun, hstuck⟩ := hends
  exact ⟨s, hrun, hstuck⟩

end Muses.RingImpl
