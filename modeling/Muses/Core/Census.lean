import Mathlib

/-!
# Counting threads by where they stand

The threads of a concurrent system are a function from thread names to places, and a step moves one
of them. Ways of counting, and what a step does to each:

* `Tally w total` — the weights of all threads, of which finitely many count, add up to `total`;
* `AtLeast n P pc` — at least `n` threads stand where `P` holds, without a bound on the threads.
-/

namespace Muses.Core

open Function

theorem sum_update {Tid α M : Type*} [DecidableEq Tid] [AddCommMonoid M] (weight : α → M)
    (pc : Tid → α) {t : Tid} (c : α) {threads : Finset Tid} (ht : t ∈ threads) :
    ∑ u ∈ threads, weight (update pc t c u) + weight (pc t) =
      ∑ u ∈ threads, weight (pc u) + weight c := by
  have hrest : ∑ u ∈ threads.erase t, weight (update pc t c u) =
      ∑ u ∈ threads.erase t, weight (pc u) := by
    apply Finset.sum_congr rfl
    intro u hu
    rw [update_of_ne (Finset.ne_of_mem_erase hu)]
  rw [← Finset.add_sum_erase threads (fun u => weight (update pc t c u)) ht,
    ← Finset.add_sum_erase threads (fun u => weight (pc u)) ht, hrest, update_self]
  rw [add_assoc, add_comm, add_comm (weight (pc t))]

/-- Only finitely many threads have a weight, and the weights add up to `total`. -/
def Tally {Tid M : Type*} [AddCommMonoid M] (w : Tid → M) (total : M) : Prop :=
  ∃ threads : Finset Tid, total = ∑ u ∈ threads, w u ∧ ∀ u, u ∉ threads → w u = 0

section Tally

variable {Tid M : Type*} [AddCommMonoid M] {w : Tid → M} {total : M}

theorem Tally.zero (h : ∀ u, w u = 0) : Tally w 0 := ⟨∅, rfl, fun u _ => h u⟩

theorem Tally.eq_zero (h : Tally w total) (hnone : ∀ u, w u = 0) : total = 0 := by
  obtain ⟨threads, rfl, -⟩ := h
  exact Finset.sum_eq_zero fun u _ => hnone u

theorem Tally.move (h : Tally w total) (t : Tid) (w' : Tid → M)
    (hrest : ∀ u, u ≠ t → w' u = w u) :
    ∃ total', Tally w' total' ∧ total' + w t = total + w' t := by
  classical
  obtain ⟨threads, rfl, hout⟩ := h
  have hmore : ∑ u ∈ insert t threads, w u = ∑ u ∈ threads, w u := by
    by_cases ht : t ∈ threads
    · rw [Finset.insert_eq_of_mem ht]
    · rw [Finset.sum_insert ht, hout t ht, zero_add]
  have hupd : w' = update w t (w' t) := by
    funext u
    by_cases hu : u = t
    · rw [hu, update_self]
    · rw [update_of_ne hu, hrest u hu]
  refine ⟨∑ u ∈ insert t threads, w' u, ⟨insert t threads, rfl, fun u hu => ?_⟩, ?_⟩
  · obtain ⟨hne, hu⟩ := not_or.mp (mt Finset.mem_insert.mpr hu)
    rw [hrest u hne, hout u hu]
  · have hsum := sum_update id w (w' t) (Finset.mem_insert_self t threads)
    rw [← hupd] at hsum
    rw [← hmore]
    exact hsum

end Tally

/-- At least `n` threads are where `P` holds. -/
def AtLeast {Tid α : Type*} (n : Nat) (P : α → Prop) (pc : Tid → α) : Prop :=
  ∃ ts : Finset Tid, n ≤ ts.card ∧ ∀ t ∈ ts, P (pc t)

section AtLeast

variable {Tid α : Type*} {P : α → Prop} {pc pc' : Tid → α} {m n : Nat}

theorem AtLeast.zero : AtLeast 0 P pc := ⟨∅, Nat.zero_le _, by simp⟩

theorem AtLeast.mono (h : AtLeast n P pc) (hmn : m ≤ n) : AtLeast m P pc := by
  obtain ⟨ts, hcard, hts⟩ := h
  exact ⟨ts, hmn.trans hcard, hts⟩

theorem AtLeast.eq_zero (h : AtLeast n P pc) (hnone : ∀ t, ¬ P (pc t)) : n = 0 := by
  obtain ⟨ts, hcard, hts⟩ := h
  have hempty : ts = ∅ := Finset.eq_empty_of_forall_notMem fun t ht => hnone t (hts t ht)
  rw [hempty, Finset.card_empty] at hcard
  omega

theorem AtLeast.of_imp (h : AtLeast n P pc) (himp : ∀ t, P (pc t) → P (pc' t)) :
    AtLeast n P pc' := by
  obtain ⟨ts, hcard, hts⟩ := h
  exact ⟨ts, hcard, fun t ht => himp t (hts t ht)⟩

theorem AtLeast.leave (h : AtLeast n P pc) (t : Tid)
    (himp : ∀ u, u ≠ t → P (pc u) → P (pc' u)) : AtLeast (n - 1) P pc' := by
  classical
  obtain ⟨ts, hcard, hts⟩ := h
  refine ⟨ts.erase t, ?_, fun u hu => ?_⟩
  · have := Finset.pred_card_le_card_erase (s := ts) (a := t)
    omega
  · have hu' := Finset.mem_erase.mp hu
    exact himp u hu'.1 (hts u hu'.2)

theorem AtLeast.join (h : AtLeast n P pc) (u : Tid) (hout : ¬ P (pc u)) (hin : P (pc' u))
    (himp : ∀ v, P (pc v) → P (pc' v)) : AtLeast (n + 1) P pc' := by
  classical
  obtain ⟨ts, hcard, hts⟩ := h
  have hnotin : u ∉ ts := fun hu => hout (hts u hu)
  refine ⟨insert u ts, ?_, fun v hv => ?_⟩
  · rw [Finset.card_insert_of_notMem hnotin]
    omega
  · rcases Finset.mem_insert.mp hv with rfl | hv
    · exact hin
    · exact himp v (hts v hv)

end AtLeast

theorem count_map_set {α β : Type*} [DecidableEq β] [BEq β] [LawfulBEq β] (f : α → β) {l : List α}
    {i : Nat} {v : α} (hi : l[i]? = some v) (w : α) (x : β) :
    ((l.set i w).map f).count x + (if f v = x then 1 else 0) =
      (l.map f).count x + if f w = x then 1 else 0 := by
  obtain ⟨hlt, rfl⟩ := List.getElem?_eq_some_iff.mp hi
  have hmap : (l.map f)[i]? = some (f l[i]) := by simp [hi]
  have hpos : f l[i] = x → 0 < (l.map f).count x := by
    rintro rfl
    exact List.count_pos_iff.mpr (List.mem_of_getElem? hmap)
  rw [List.map_set, List.count_set (by simpa using hlt)]
  simp only [List.getElem_map, beq_iff_eq]
  by_cases hx : f l[i] = x
  · have := hpos hx
    simp only [hx, if_true]
    omega
  · simp only [hx, if_false]
    omega

theorem count_map_swap {α β : Type*} [DecidableEq β] [BEq β] [LawfulBEq β] (f : α → β) {l : List α}
    {i j : Nat} {v w : α} (hij : i ≠ j) (hi : l[i]? = some v) (hj : l[j]? = some w) (x : β) :
    (((l.set i w).set j v).map f).count x = (l.map f).count x := by
  have hfirst := count_map_set f hi w x
  have hj' : (l.set i w)[j]? = some w := by rw [List.getElem?_set_ne hij, hj]
  have hsecond := count_map_set f hj' v x
  omega

end Muses.Core
