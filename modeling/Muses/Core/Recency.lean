import Mathlib

/-!
# Pairs in the order of their last use

A recency list holds at most one value for each key, the pair that was used last in front. It is
what a replacement policy by least recent use keeps, whatever the structure that represents it.

* `Under` — the list of a small store and that of a large one that are used alike: what the small
  one has, the large one has in the same order;
* `Under.use`, `Under.remove`, `Under.put` — the operations keep `Under`, even where they change one
  of the two lists only.
-/

namespace Muses.Core

open List

@[ext] structure Recency (K V : Type*) where
  pairs : List (K × V)
  nodup : (pairs.map Prod.fst).Nodup

namespace Recency

variable {K V : Type*}

def empty : Recency K V := ⟨[], .nil⟩

def length (r : Recency K V) : Nat := r.pairs.length

def dropLeast (r : Recency K V) : Recency K V where
  pairs := r.pairs.dropLast
  nodup := r.nodup.sublist ((dropLast_sublist _).map _)

section Keys

variable [DecidableEq K]

def find (r : Recency K V) (k : K) : Option V := (r.pairs.find? fun e => e.1 = k).map Prod.snd

def remove (r : Recency K V) (k : K) : Recency K V where
  pairs := r.pairs.filter fun e => e.1 ≠ k
  nodup := r.nodup.sublist (filter_sublist.map _)

def touch (r : Recency K V) (k : K) (v : V) : Recency K V where
  pairs := (k, v) :: r.pairs.filter fun e => e.1 ≠ k
  nodup := by
    refine nodup_cons.mpr ⟨?_, (r.remove k).nodup⟩
    simp

def use (r : Recency K V) (k : K) : Recency K V :=
  match r.find k with
  | none => r
  | some v => r.touch k v

/-- Put a pair in front, in a store of size `cap`: a new key drops the least recently used pair if
there is no room. -/
def put (cap : Nat) (r : Recency K V) (k : K) (v : V) : Recency K V :=
  if (r.find k).isSome ∨ r.length < cap then r.touch k v else r.dropLeast.touch k v

/-! ## Looking up -/

theorem mem_pairs_iff (r : Recency K V) (k : K) (v : V) : (k, v) ∈ r.pairs ↔ r.find k = some v := by
  constructor
  · intro hmem
    have hsome : (r.pairs.find? fun e => e.1 = k).isSome := by
      rw [find?_isSome]
      exact ⟨(k, v), hmem, by simp⟩
    obtain ⟨e, he⟩ := Option.isSome_iff_exists.mp hsome
    have hkey : e.1 = k := by simpa using find?_some he
    -- the keys are distinct, so that the pair that is found is this one
    have heq : e = (k, v) :=
      inj_on_of_nodup_map r.nodup (mem_of_find?_eq_some he) hmem hkey
    rw [find, he, heq]
    rfl
  · intro hfind
    obtain ⟨e, he, rfl⟩ := Option.map_eq_some_iff.mp hfind
    have hkey : e.1 = k := by simpa using find?_some he
    rw [← hkey]
    exact mem_of_find?_eq_some he

theorem find_eq_none_iff (r : Recency K V) (k : K) : r.find k = none ↔ ∀ e ∈ r.pairs, e.1 ≠ k := by
  simp [find]

theorem pairs_remove_of_none {r : Recency K V} {k : K} (h : r.find k = none) :
    (r.remove k).pairs = r.pairs :=
  filter_eq_self.mpr fun e he => by simpa using (find_eq_none_iff r k).mp h e he

theorem length_remove_of_some {r : Recency K V} {k : K} {v : V} (h : r.find k = some v) :
    (r.remove k).length + 1 = r.length := by
  have hmem := (mem_pairs_iff r k v).mpr h
  have hcount : (r.pairs.map Prod.fst).count k = 1 :=
    count_eq_one_of_mem r.nodup (mem_map_of_mem hmem)
  have hsplit := length_eq_length_filter_add (l := r.pairs) fun e => decide (e.1 ≠ k)
  have hone : (r.pairs.filter fun e => !decide (e.1 ≠ k)).length = 1 := by
    rw [← hcount, List.count, countP_map, countP_eq_length_filter]
    congr 2
    funext e
    simp [Bool.beq_eq_decide_eq]
  rw [hone] at hsplit
  exact hsplit.symm

theorem length_touch (r : Recency K V) (k : K) (v : V) :
    (r.touch k v).length = (r.remove k).length + 1 := rfl

section Put

variable {r : Recency K V} {k : K} {c : Nat} {v : V}

theorem mem_touch {e : K × V} (h : e ∈ (r.touch k v).pairs) : e = (k, v) ∨ e ∈ r.pairs :=
  (mem_cons.mp h).imp_right mem_of_mem_filter

theorem put_of_some {w : V} (h : r.find k = some w) : r.put c k v = r.touch k v :=
  if_pos (.inl (by simp [h]))

theorem put_of_lt (h : r.length < c) : r.put c k v = r.touch k v := if_pos (.inr h)

theorem put_of_full (h : r.find k = none) (hfull : ¬ r.length < c) :
    r.put c k v = r.dropLeast.touch k v :=
  if_neg (by simp [h, hfull])

theorem use_of_some (h : r.find k = some v) : r.use k = r.touch k v := by
  rw [use, h]

theorem use_of_none (h : r.find k = none) : r.use k = r := by
  rw [use, h]

theorem length_use (r : Recency K V) (k : K) : (r.use k).length = r.length := by
  cases h : r.find k with
  | none => rw [use_of_none h]
  | some v => rw [use_of_some h, length_touch, length_remove_of_some h]

theorem mem_use {e : K × V} (h : e ∈ (r.use k).pairs) : e ∈ r.pairs := by
  cases hfind : r.find k with
  | none => rwa [use_of_none hfind] at h
  | some v =>
    rw [use_of_some hfind] at h
    rcases mem_touch h with rfl | h
    · exact (mem_pairs_iff r k v).mpr hfind
    · exact h

theorem mem_put {e : K × V} (h : e ∈ (r.put c k v).pairs) : e = (k, v) ∨ e ∈ r.pairs := by
  unfold put at h
  split at h
  · exact mem_touch h
  · exact (mem_touch h).imp_right fun h => (dropLast_sublist _).subset h

theorem length_put_of_none (h : r.find k = none) (hc : 0 < c) (v : V) :
    (r.put c k v).length = max r.length (min (r.length + 1) c) := by
  by_cases hroom : r.length < c
  · have hsame : (r.remove k).length = r.length := congrArg List.length (pairs_remove_of_none h)
    rw [put_of_lt hroom, length_touch, hsame]
    omega
  · have hnone : r.dropLeast.find k = none :=
      (find_eq_none_iff _ k).mpr fun e he =>
        (find_eq_none_iff r k).mp h e ((dropLast_sublist _).subset he)
    have hsame : (r.dropLeast.remove k).length = r.length - 1 := by
      rw [length, pairs_remove_of_none hnone]
      exact length_dropLast
    rw [put_of_full h hroom, length_touch, hsame]
    omega

theorem length_put_le (hlen : r.length ≤ c) (hc : 0 < c) (k : K) (v : V) :
    (r.put c k v).length ≤ c := by
  cases hfind : r.find k with
  | some w =>
    have hone := length_remove_of_some hfind
    rw [put_of_some hfind, length_touch]
    omega
  | none =>
    rw [length_put_of_none hfind hc]
    omega

end Put

end Keys

/-! ## Two stores -/

/-- The list `r` of a store of size `c` and the list `R` of one of size `C`: what `r` has, `R` has
in the same order, and there is as much room in the large store as in the small one. -/
structure Under (c C : Nat) (r R : Recency K V) : Prop where
  sublist : r.pairs.Sublist R.pairs
  slack : c + R.length ≤ C + r.length

theorem Under.empty {c C : Nat} (h : c ≤ C) : Under c C (.empty : Recency K V) .empty :=
  ⟨.refl _, by simpa [length, Recency.empty] using h⟩

variable [DecidableEq K] {c C : Nat} {r R : Recency K V} {k : K} {v : V}

theorem Under.find (h : Under c C r R) (hfind : r.find k = some v) : R.find k = some v :=
  (mem_pairs_iff R k v).mp (h.sublist.subset ((mem_pairs_iff r k v).mpr hfind))

theorem Under.remove (h : Under c C r R) (k : K) : Under c C (r.remove k) (R.remove k) := by
  refine ⟨h.sublist.filter _, ?_⟩
  have hslack := h.slack
  cases hr : r.find k with
  | some v =>
    have hone := length_remove_of_some hr
    have hOne := length_remove_of_some (h.find hr)
    omega
  | none =>
    have hsame : (r.remove k).length = r.length := congrArg List.length (pairs_remove_of_none hr)
    have hle : (R.remove k).length ≤ R.length := filter_sublist.length_le
    omega

theorem Under.touch (h : Under c C r R) (k : K) (v : V) :
    Under c C (r.touch k v) (R.touch k v) := by
  refine ⟨(h.sublist.filter _).cons_cons _, ?_⟩
  have hslack := (h.remove k).slack
  rw [length_touch, length_touch]
  omega

theorem Under.touch_right (h : Under c C r R) (hr : r.find k = none) {w : V}
    (hR : R.find k = some w) (v : V) : Under c C r (R.touch k v) := by
  have hpairs := pairs_remove_of_none hr
  constructor
  · rw [← hpairs]
    exact (h.sublist.filter _).cons _
  · have hslack := h.slack
    rw [length_touch, length_remove_of_some hR]
    exact hslack

theorem Under.use (h : Under c C r R) (k : K) : Under c C (r.use k) (R.use k) := by
  cases hr : r.find k with
  | some v =>
    rw [use_of_some hr, use_of_some (h.find hr)]
    exact h.touch k v
  | none =>
    rw [use_of_none hr]
    cases hR : R.find k with
    | none =>
      rw [use_of_none hR]
      exact h
    | some w =>
      rw [use_of_some hR]
      exact h.touch_right hr hR w

omit [DecidableEq K] in
theorem Under.sublist_dropLeast (h : Under c C r R) :
    r.dropLeast.pairs.Sublist R.dropLeast.pairs := by
  have htail := h.sublist.reverse.tail
  rw [tail_reverse, tail_reverse, reverse_sublist] at htail
  exact htail

/-- **A pair is put into both**, and each makes room if it has none. -/
theorem Under.put (h : Under c C r R) (hc : 0 < c) (k : K) (v : V) :
    Under c C (r.put c k v) (R.put C k v) := by
  have hslack := h.slack
  have hle : r.length ≤ R.length := h.sublist.length_le
  cases hr : r.find k with
  | some w =>
    rw [put_of_some hr, put_of_some (h.find hr)]
    exact h.touch k v
  | none =>
    have hlen := length_put_of_none hr hc v
    have hsub : (r.dropLeast.remove k).pairs.Sublist (r.remove k).pairs :=
      (dropLast_sublist _).filter _
    cases hR : R.find k with
    | some w =>
      -- the large store had kept the key
      rw [put_of_some hR]
      refine ⟨?_, ?_⟩
      · refine .trans ?_ ((h.remove k).sublist.cons_cons (k, v))
        unfold Recency.put
        split
        · exact .refl _
        · exact hsub.cons_cons (k, v)
      · have hone := length_remove_of_some hR
        rw [length_touch, hone]
        omega
    | none =>
      have hLen := length_put_of_none hR (c := C) (by omega) v
      refine ⟨?_, by omega⟩
      by_cases hroom : r.length < c
      · -- there is room in the large store, too
        rw [put_of_lt hroom, put_of_lt (by omega)]
        exact (h.touch k v).sublist
      · rw [put_of_full hr hroom]
        by_cases hRoom : R.length < C
        · rw [put_of_lt hRoom]
          exact (hsub.trans (h.remove k).sublist).cons_cons (k, v)
        · rw [put_of_full hR hRoom]
          exact (h.sublist_dropLeast.filter _).cons_cons (k, v)

end Recency

end Muses.Core
