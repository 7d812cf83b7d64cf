import Muses.Memory.Handles

/-!
# Objects in a pool

`release` gives a block back without running the destructor of the object in it, and
`destroy_pool` runs the destructor without looking for other handles. So it is up to the program
that every object is destroyed once and while nobody else refers to it.

* `Tidy` — the last handle to a block goes with `destroy_pool`, and no other handle does;
* `Kept` — no object that handles refer to has been destroyed, and every object whose block went
  back has been, once.
-/

namespace Muses.PoolPtr

open Muses.Core MemoryPool Function

namespace Scope

variable {outside : Nat → Nat} {s s' : Scope} {i u : Nat} {g : PoolPtr} {a : Op}

/-- Only `destroy_pool` lets the last handle of a value go, and it is called on no other. -/
def Tidy (s : Scope) (a : Op) : Prop :=
  match a with
  | .destroyPool i => ∀ u ∈ target (s.find i), s.count u = 1
  | a => ∀ i ∈ letting a, ∀ u ∈ target (s.find i), 1 < s.count u

instance (s : Scope) (a : Op) : Decidable (s.Tidy a) := by
  unfold Tidy
  induction a using Op.casesOn <;> infer_instance

/-- The destructor ran once for the values that are gone, and not yet for the others. -/
structure Kept (s : Scope) : Prop where
  gone : ∀ e ∈ s.gone, e.2 = 1
  alive : ∀ u, 0 < s.count u → s.runs u = 0

theorem Balanced.returning_eq (hs : Balanced outside s) (hi : s.find i = some g)
    (hu : g.ptr = some u) :
    s.returning g = if s.count u = 1 then [(u, s.runs u)] else [] := by
  have hbound := hs.bound g (List.mem_of_getElem? (find_eq_some.mp hi))
  obtain ⟨hd, hread, hmagic, hcount⟩ := hs.held.header (count_pos hi hu)
  have hone : hd.refcount = 1 ↔ s.count u = 1 := by omega
  simp [returning, hu, hbound, checkedHeader, hread, hmagic, hone]

theorem Kept.step (hk : Kept s) (hs : Balanced outside s) (htidy : s.Tidy a)
    (h : Effect outside s a s') : Kept s' := by
  cases h with
  | quiet h =>
    refine ⟨fun e he => hk.gone e (by simpa [h.gone] using he), fun u hu => ?_⟩
    rw [h.runs]
    exact hk.alive u (h.count u hu)
  | @lets i g hlet hi h =>
    have hmany (u : Nat) (hu : g.ptr = some u) : 1 < s.count u := by
      cases a <;> simp only [letting, reduceCtorEq] at hlet
      all_goals
        simp only [Tidy, letting, hlet, Option.mem_def, Option.some.injEq, forall_eq'] at htidy
        exact htidy u (by rw [hi]; exact hu)
    have hnone : s.returning g = [] := by
      cases hptr : g.ptr with
      | none => simp [returning, hptr]
      | some u =>
        have := hmany u hptr
        rw [hs.returning_eq hi hptr, if_neg (by omega)]
    refine ⟨fun e he => hk.gone e (by simpa [h.gone, hnone] using he), fun u hu => ?_⟩
    rw [h.runs]
    exact hk.alive u (h.count u hu)
  | @made user hs' hzero hruns hgone hcount =>
    refine ⟨fun e he => hk.gone e (hgone ▸ he), fun u hu => ?_⟩
    rw [hruns]
    by_cases hx : u = user
    · rw [hx, update_self]
    · rw [update_of_ne hx]
      rw [hcount u, if_neg (Ne.symm hx)] at hu
      exact hk.alive u hu
  | @ends i user g ha hi hptr hcount h =>
    subst ha
    have hone : s.count user = 1 := htidy user (by rw [hi]; exact hptr)
    have hs₁ : Balanced outside
        { s with runs := update s.runs user (s.runs user + 1) } := ⟨hs.held, hs.bound⟩
    have hleft := (hs₁.returning_eq hi hptr).trans (if_pos hone)
    have hruns : s.runs user = 0 := hk.alive user (by omega)
    simp only [update_self] at hleft
    refine ⟨fun e he => ?_, fun u hu => ?_⟩
    · rw [h.gone, hleft] at he
      rcases List.mem_cons.mp he with rfl | he
      · simp [hruns]
      · exact hk.gone e he
    · have hx : u ≠ user := by
        rintro rfl
        omega
      rw [h.runs]
      exact (update_of_ne hx _ _).trans (hk.alive u (h.count u hu))

end Scope

/-- **Every object is destroyed once.** In every state that a tidy program reaches, on a pool that
others may have used before and with fewer than `2 ^ 31` handles to a block: the destructor of an
object whose block went back to the pool had run exactly once by then, and that of an object that
handles refer to has not run. -/
theorem objects_destroyed_once {base arenaBytes : Nat} {classes : List Nat}
    (hclasses : ∀ c ∈ classes, c < 2 ^ 32)
    (hfew : (normalizeClasses classes).length < ESCAPED) {rs : List Request} {c : Clients}
    (hothers : exec Clients.step (.start base arenaBytes classes) rs = some c)
    (hsane : Meets Clients.step Clients.Sane (.start base arenaBytes classes) rs)
    {as : List Op} {s : Scope} (hrun : exec Scope.step (.start c.pool) as = some s)
    (hroom : Meets Scope.step Scope.Roomy (.start c.pool) as)
    (htidy : Meets Scope.step Scope.Tidy (.start c.pool) as) :
    (∀ e ∈ s.gone, e.2 = 1) ∧ ∀ u, 0 < s.count u → s.runs u = 0 := by
  obtain ⟨live, free, hl⟩ := run_ledger hclasses hfew hothers hsane
  have hinv : s.Balanced c.refs ∧ s.Kept := by
    refine exec_invariant_of_meets (I := fun s => s.Balanced c.refs ∧ s.Kept) ?_
      ⟨.start hl, by simp [Scope.start], by simp [Scope.start]⟩ (hroom.and htidy) hrun
    rintro s a s' ⟨hs, hk⟩ ⟨hroom, htidy⟩ hstep
    have heffect := hs.step hroom hstep
    exact ⟨heffect.balanced.1, hk.step hs htidy heffect⟩
  exact ⟨hinv.2.gone, hinv.2.alive⟩

def destroyedLast : List Op := [.make .above word [] false, .copy 0, .reset 1, .destroyPool 0]

theorem objects_destroyed_once_destroyedLast :
    ∃ s ∈ exec Scope.step (.start (.make 0 4096 [64])) destroyedLast,
      s.gone ≠ [] ∧ ∀ e ∈ s.gone, e.2 = 1 := by
  have hends : ∃ s ∈ exec Scope.step (.start (.make 0 4096 [64])) destroyedLast, s.gone ≠ [] := by
    decide +kernel
  obtain ⟨s, hrun, hgone⟩ := hends
  have hempty : exec Clients.step (.start 0 4096 [64]) [] = some (.start 0 4096 [64]) := rfl
  exact ⟨s, hrun, hgone, (objects_destroyed_once (by decide) (by decide) hempty trivial hrun
    (by decide +kernel) (by decide +kernel)).1⟩

/-- **Never, and too early.** The last handle to an object is destroyed, and the block goes back
without a run of the destructor; and a copied handle is given to `destroy_pool`, and the copy refers
to an object that is destroyed. -/
theorem objects_not_destroyed_once :
    (∃ s ∈ exec Scope.step (.start (.make 0 4096 [64]))
        [.make .above word [] false, .destroy 0], s.gone = [(32, 0)]) ∧
      ∃ s ∈ exec Scope.step (.start (.make 0 4096 [64]))
        [.make .above word [] false, .copy 0, .destroyPool 0], s.count 32 = 1 ∧ s.runs 32 = 1 := by
  decide +kernel

end Muses.PoolPtr
