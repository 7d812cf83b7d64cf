import Mathlib

/-!
# Resources that are lent out

Resources lie idle on shelves or are held by one borrower each. `Exclusive held idle` says that no
resource is in two places: `held i` is what borrower `i` has, `idle k` is the list on shelf `k`.
-/

namespace Muses.Core

open Function

/-- Nothing is held twice, held and idle, or idle twice. -/
structure Exclusive {ι κ ρ : Type*} (held : ι → Option ρ) (idle : κ → List ρ) : Prop where
  held_inj : ∀ i j r, held i = some r → held j = some r → i = j
  held_idle : ∀ i k r, held i = some r → r ∉ idle k
  idle_nodup : ∀ k, (idle k).Nodup
  idle_inj : ∀ k l r, r ∈ idle k → r ∈ idle l → k = l

namespace Exclusive

variable {ι κ ρ : Type*} [DecidableEq ι] [DecidableEq κ] {held : ι → Option ρ} {idle : κ → List ρ}
  {i : ι} {k : κ} {r : ρ}

omit [DecidableEq ι] [DecidableEq κ] in
theorem forgetAll (h : Exclusive held idle) {held' : ι → Option ρ}
    (hsub : ∀ i r, held' i = some r → held i = some r) : Exclusive held' idle where
  held_inj i j r hi hj := h.held_inj i j r (hsub i r hi) (hsub j r hj)
  held_idle i k r hi := h.held_idle i k r (hsub i r hi)
  idle_nodup := h.idle_nodup
  idle_inj := h.idle_inj

omit [DecidableEq κ] in
theorem forget (h : Exclusive held idle) (i : ι) :
    Exclusive (update held i none) idle := by
  apply h.forgetAll
  intro j r hj
  by_cases hji : j = i
  · simp [hji] at hj
  · simpa [hji] using hj

omit [DecidableEq κ] in
theorem fresh (h : Exclusive held idle) (hheld : ∀ j, held j ≠ some r) (hidle : ∀ k, r ∉ idle k) :
    Exclusive (update held i (some r)) idle where
  held_inj j l q hj hl := by
    by_cases hji : j = i <;> by_cases hli : l = i
    · rw [hji, hli]
    · simp only [hji, hli, update_self, ne_eq, not_false_eq_true,
        update_of_ne, Option.some.injEq] at hj hl
      exact absurd hl (hj ▸ hheld l)
    · simp only [hji, hli, update_self, ne_eq, not_false_eq_true,
        update_of_ne, Option.some.injEq] at hj hl
      exact absurd hj (hl ▸ hheld j)
    · simp only [hji, hli, ne_eq, not_false_eq_true, update_of_ne] at hj hl
      exact h.held_inj j l q hj hl
  held_idle j l q hj := by
    by_cases hji : j = i
    · simp only [hji, update_self, Option.some.injEq] at hj
      exact hj ▸ hidle l
    · simp only [hji, ne_eq, not_false_eq_true, update_of_ne] at hj
      exact h.held_idle j l q hj
  idle_nodup := h.idle_nodup
  idle_inj := h.idle_inj

omit [DecidableEq ι] in
theorem unshelve {rest : List ρ} (h : Exclusive held idle) (hk : idle k = r :: rest) :
    Exclusive held (update idle k rest) ∧
      (∀ j, held j ≠ some r) ∧ ∀ l, r ∉ update idle k rest l := by
  have hsub : ∀ l q, q ∈ update idle k rest l → q ∈ idle l := by
    intro l q hq
    by_cases hlk : l = k
    · subst hlk
      rw [update_self] at hq
      rw [hk]
      exact List.mem_cons_of_mem r hq
    · rwa [update_of_ne hlk] at hq
  have hmem : r ∈ idle k := hk ▸ List.mem_cons_self
  have hnodup := h.idle_nodup k
  rw [hk, List.nodup_cons] at hnodup
  refine ⟨⟨h.held_inj, fun j l q hj hq => h.held_idle j l q hj (hsub l q hq), fun l => ?_,
    fun l m q hl hm => h.idle_inj l m q (hsub l q hl) (hsub m q hm)⟩,
    fun j hj => h.held_idle j k r hj hmem, fun l hl => ?_⟩
  · by_cases hlk : l = k
    · rw [hlk, update_self]
      exact hnodup.2
    · rw [update_of_ne hlk]
      exact h.idle_nodup l
  · have hlk := h.idle_inj l k r (hsub l r hl) hmem
    rw [hlk, update_self] at hl
    exact hnodup.1 hl

theorem release (h : Exclusive held idle) (hi : held i = some r) :
    Exclusive (update held i none) (update idle k (idle k ++ [r])) where
  held_inj := (h.forget i).held_inj
  held_idle j l q hj hq := by
    by_cases hji : j = i
    · simp [hji] at hj
    · rw [update_of_ne hji] at hj
      by_cases hlk : l = k
      · rw [hlk, update_self, List.mem_append, List.mem_singleton] at hq
        rcases hq with hq | rfl
        · exact h.held_idle j k q hj hq
        · exact hji (h.held_inj j i q hj hi)
      · rw [update_of_ne hlk] at hq
        exact h.held_idle j l q hj hq
  idle_nodup l := by
    by_cases hlk : l = k
    · rw [hlk, update_self, List.nodup_append]
      refine ⟨h.idle_nodup k, List.nodup_singleton r, ?_⟩
      rintro q hq p hp rfl
      rw [List.mem_singleton.mp hp] at hq
      exact h.held_idle i k r hi hq
    · rw [update_of_ne hlk]
      exact h.idle_nodup l
  idle_inj l m q hl hm := by
    -- a resource that `i` held was on no shelf before
    have hold : ∀ l, q ∈ update idle k (idle k ++ [r]) l →
        (l = k ∧ q = r) ∨ q ∈ idle l := by
      intro l hl
      by_cases hlk : l = k
      · rw [hlk, update_self, List.mem_append, List.mem_singleton] at hl
        exact hl.elim (fun hl => .inr (hlk ▸ hl)) fun hq => .inl ⟨hlk, hq⟩
      · rw [update_of_ne hlk] at hl
        exact .inr hl
    rcases hold l hl with ⟨hlk, hq⟩ | hl <;> rcases hold m hm with ⟨hmk, hq'⟩ | hm
    · rw [hlk, hmk]
    · exact absurd (hq ▸ hm) (h.held_idle i m r hi)
    · exact absurd (hq' ▸ hl) (h.held_idle i l r hi)
    · exact h.idle_inj l m q hl hm

end Exclusive

end Muses.Core
