import Mathlib

/-!
# Searching a stream for a terminator

`find needle xs` is the position of the first occurrence of `needle` in `xs`, as
`std::string::find` computes it. On top of it stand *frames*, the pieces a stream falls into when
it is cut after each terminator:

* `find_eq_some_iff`, `find_eq_none_iff` — the specification of the search;
* `IsFrame`, `isFrame_take` — one piece, and that cutting behind the first hit gives one.
-/

namespace Muses.Core.Search

open List

variable {α : Type*} [DecidableEq α]

def find (needle : List α) : List α → Option Nat
  | [] => if needle = [] then some 0 else none
  | x :: xs => if needle <+: x :: xs then some 0 else (find needle xs).map (· + 1)

/-! ## The specification of the search -/

variable {needle xs front : List α} {i j : Nat} {c : α}

theorem find_eq_some_iff :
    find needle xs = some i ↔
      i ≤ xs.length ∧ needle <+: xs.drop i ∧ ∀ j < i, ¬ needle <+: xs.drop j := by
  induction xs generalizing i with
  | nil =>
    simp only [find, length_nil, drop_nil, prefix_nil]
    constructor
    · intro h
      split at h
      · cases h; simp_all
      · cases h
    · rintro ⟨hi, hn, -⟩
      simp_all
  | cons x xs ih =>
    simp only [find]
    split
    case isTrue h0 =>
      constructor
      · rintro ⟨⟩
        exact ⟨Nat.zero_le _, by simpa using h0, by simp⟩
      · rintro ⟨-, -, hmin⟩
        rcases Nat.eq_zero_or_pos i with rfl | hi
        · rfl
        · exact absurd (by simpa using h0) (hmin 0 hi)
    case isFalse h0 =>
      cases i with
      | zero => simp [h0]
      | succ i =>
        simp only [Option.map_eq_some_iff, Nat.add_right_cancel_iff, exists_eq_right, ih,
          length_cons, Nat.add_le_add_iff_right, drop_succ_cons]
        refine and_congr_right fun _ => and_congr_right fun _ => ⟨fun hmin j hj => ?_,
          fun hmin j hj => hmin (j + 1) (by omega)⟩
        cases j with
        | zero => simpa using h0
        | succ j => exact hmin j (by omega)

theorem find_eq_none_iff (hn : needle ≠ []) :
    find needle xs = none ↔ ∀ i, ¬ needle <+: xs.drop i := by
  constructor
  · intro h i hi
    -- were there any occurrence, the least one would be found
    classical
    have hex : ∃ i, needle <+: xs.drop i := ⟨i, hi⟩
    have hle : Nat.find hex ≤ xs.length := by
      by_contra hgt
      have hnil := Nat.find_spec hex
      rw [drop_eq_nil_of_le (by omega), prefix_nil] at hnil
      exact hn hnil
    have hsome := find_eq_some_iff.mpr ⟨hle, Nat.find_spec hex, fun j hj => Nat.find_min hex hj⟩
    simp [hsome] at h
  · intro h
    cases hf : find needle xs with
    | none => rfl
    | some i => exact absurd (find_eq_some_iff.mp hf).2.1 (h i)

theorem find_add_length_le (h : find needle xs = some i) : i + needle.length ≤ xs.length := by
  obtain ⟨hi, hpre, -⟩ := find_eq_some_iff.mp h
  have hlen := hpre.length_le
  rw [length_drop] at hlen
  omega

/-! ## Texts that grow -/

omit [DecidableEq α] in
theorem prefix_drop_append_iff (ys : List α) (hj : j + needle.length ≤ xs.length) :
    needle <+: (xs ++ ys).drop j ↔ needle <+: xs.drop j := by
  rw [drop_append_of_le_length (by omega)]
  constructor
  · intro h
    exact prefix_of_prefix_length_le h (prefix_append _ _)
      (by rw [length_drop]; omega)
  · intro h
    exact h.trans (prefix_append _ _)

theorem find_append (ys : List α) (h : find needle xs = some i) :
    find needle (xs ++ ys) = some i := by
  have hlen := find_add_length_le h
  obtain ⟨hi, hpre, hmin⟩ := find_eq_some_iff.mp h
  refine find_eq_some_iff.mpr ⟨by rw [length_append]; omega, ?_, fun j hj => ?_⟩
  · exact (prefix_drop_append_iff ys hlen).mpr hpre
  · rw [prefix_drop_append_iff ys (by omega)]
    exact hmin j hj

theorem find_drop {k : Nat} (hk : k ≤ xs.length) (hnone : ∀ j < k, ¬ needle <+: xs.drop j) :
    find needle xs = (find needle (xs.drop k)).map (k + ·) := by
  induction k generalizing xs with
  | zero => simp
  | succ k ih =>
    cases xs with
    | nil => simp at hk
    | cons x xs =>
      have h0 : ¬ needle <+: x :: xs := by simpa using hnone 0 (by omega)
      have ih := @ih xs (by simpa using hk) fun j hj => by
        simpa using hnone (j + 1) (by omega)
      simp only [find, h0, if_false, drop_succ_cons, ih, Option.map_map, Function.comp_def]
      congr 1
      funext i
      omega

omit [DecidableEq α] in
theorem not_prefix_drop_of_notMem (rest : List α) (h : c ∉ front) (hj : j < front.length) :
    ¬ (c :: needle) <+: (front ++ rest).drop j := by
  intro hpre
  rw [drop_append_of_le_length (by omega), drop_eq_getElem_cons hj, cons_append,
    cons_prefix_cons] at hpre
  exact h (hpre.1 ▸ getElem_mem hj)

theorem find_append_of_notMem (rest : List α) (h : c ∉ front) :
    find (c :: needle) (front ++ rest) = (find (c :: needle) rest).map (front.length + ·) := by
  have hskip := @find_drop _ _ (c :: needle) (front ++ rest) front.length
    (by rw [length_append]; omega) fun j hj => not_prefix_drop_of_notMem rest h hj
  rwa [drop_left] at hskip

theorem find_eq_none_of_notMem (h : c ∉ xs) : find (c :: needle) xs = none := by
  rw [find_eq_none_iff (cons_ne_nil _ _)]
  intro i hpre
  exact h (mem_of_mem_drop (hpre.subset mem_cons_self))

omit [DecidableEq α] in
theorem not_prefix_drop_of_separator (rest : List α) (hc : c ∉ needle) (hj : j ≤ front.length)
    (hfront : ¬ needle <+: front.drop j) : ¬ needle <+: (front ++ c :: rest).drop j := by
  intro hpre
  by_cases hlen : j + needle.length ≤ front.length
  · exact hfront ((prefix_drop_append_iff _ hlen).mp hpre)
  · -- the letter stands inside the occurrence
    have hin : front.length - j < needle.length := by omega
    have hget := hpre.getElem hin
    rw [getElem_drop, getElem_append_right (by omega)] at hget
    simp only [Nat.add_sub_cancel' hj, Nat.sub_self, getElem_cons_zero] at hget
    exact hc (hget ▸ getElem_mem hin)

theorem find_append_of_separator (rest : List α) (hc : c ∉ needle)
    (hfront : find needle front = none) :
    find needle (front ++ c :: rest) = (find needle rest).map (front.length + 1 + ·) := by
  have hn : needle ≠ [] := by
    rintro rfl
    cases front <;> simp [find] at hfront
  have hskip := @find_drop _ _ needle (front ++ c :: rest) (front.length + 1)
    (by rw [length_append, length_cons]; omega) fun j hj =>
      not_prefix_drop_of_separator rest hc (Nat.le_of_lt_succ hj)
        ((find_eq_none_iff hn).mp hfront j)
  rwa [drop_append, Nat.add_sub_cancel_left, drop_of_length_le (Nat.le_succ _),
    drop_one, tail_cons, nil_append] at hskip

/-- **Resuming a search.** After a miss in `xs` the search in `xs ++ ys` may start at any
position from which an occurrence would reach into `ys`. -/
theorem find_resume (ys : List α) {k : Nat} (hn : needle ≠ []) (hmiss : find needle xs = none)
    (hk : k + (needle.length - 1) ≤ xs.length ∨ k = 0) :
    find needle (xs ++ ys) = (find needle ((xs ++ ys).drop k)).map (k + ·) := by
  have hpos : 0 < needle.length := length_pos_iff.mpr hn
  rcases hk with hk | rfl
  · apply find_drop (by rw [length_append]; omega)
    intro j hj
    rw [prefix_drop_append_iff ys (by omega)]
    exact (find_eq_none_iff hn).mp hmiss j
  · simp

/-! ## Frames -/

/-- The needle stands at the end of the text and nowhere before. -/
def IsFrame (needle xs : List α) : Prop :=
  ∃ i, find needle xs = some i ∧ i + needle.length = xs.length

instance (needle xs : List α) : Decidable (IsFrame needle xs) :=
  match h : find needle xs with
  | none => .isFalse (by rintro ⟨i, hi, -⟩; simp [hi] at h)
  | some i =>
      if hlen : i + needle.length = xs.length then .isTrue ⟨i, h, hlen⟩
      else .isFalse (by rintro ⟨j, hj, hl⟩; rw [h] at hj; cases hj; exact hlen hl)

theorem isFrame_iff :
    IsFrame needle xs ↔
      needle <:+ xs ∧ ∀ j, j + needle.length < xs.length → ¬ needle <+: xs.drop j := by
  constructor
  · rintro ⟨i, hfind, hlen⟩
    obtain ⟨hi, hpre, hmin⟩ := find_eq_some_iff.mp hfind
    refine ⟨?_, fun j hj => hmin j (by omega)⟩
    rw [hpre.eq_of_length (by rw [length_drop]; omega)]
    exact drop_suffix _ _
  · rintro ⟨⟨pre, rfl⟩, hmin⟩
    refine ⟨pre.length, find_eq_some_iff.mpr ⟨by simp, by simp, fun j hj => hmin j ?_⟩, by simp⟩
    rw [length_append]
    omega

theorem isFrame_take (h : find needle xs = some i) :
    IsFrame needle (xs.take (i + needle.length)) := by
  have hlen := find_add_length_le h
  obtain ⟨hi, hpre, hmin⟩ := find_eq_some_iff.mp h
  have hcut : (xs.take (i + needle.length)).length = i + needle.length := by
    rw [length_take]; omega
  have hiff (j : Nat) (hj : j ≤ i) :
      needle <+: (xs.take (i + needle.length)).drop j ↔ needle <+: xs.drop j := by
    have hj' : j + needle.length ≤ (xs.take (i + needle.length)).length := by omega
    have := prefix_drop_append_iff (xs.drop (i + needle.length)) hj'
    rwa [take_append_drop, Iff.comm] at this
  refine ⟨i, find_eq_some_iff.mpr ⟨by omega, (hiff i (Nat.le_refl i)).mpr hpre, ?_⟩, hcut.symm⟩
  intro j hj
  rw [hiff j (by omega)]
  exact hmin j hj

theorem IsFrame.unique {ys s : List α} (hx : IsFrame needle xs) (hy : IsFrame needle ys)
    (hxs : xs <+: s) (hys : ys <+: s) : xs = ys := by
  obtain ⟨i, hi, hix⟩ := hx
  obtain ⟨j, hj, hjy⟩ := hy
  obtain ⟨u, rfl⟩ := hxs
  obtain ⟨v, hv⟩ := hys
  have hfi := find_append u hi
  have hfj := find_append v hj
  rw [hv, hfi, Option.some.injEq] at hfj
  have hlen : ys.length = xs.length := by omega
  exact (append_inj hv hlen).1.symm

theorem IsFrame.append_of_separator (hxs : IsFrame needle xs) (hc : c ∉ needle)
    (hfront : find needle front = none) : IsFrame needle (front ++ c :: xs) := by
  obtain ⟨i, hi, hlen⟩ := hxs
  refine ⟨front.length + 1 + i, ?_, ?_⟩
  · rw [find_append_of_separator xs hc hfront, hi]
    rfl
  · rw [length_append, length_cons, ← hlen]
    omega

theorem IsFrame.eq_of_prefix_of_find {frame : List α} (hframe : IsFrame needle frame)
    (hpre : xs <+: frame) (hfind : (find needle xs).isSome) : xs = frame := by
  obtain ⟨pos, hpos⟩ := Option.isSome_iff_exists.mp hfind
  have htake : xs.take (pos + needle.length) = frame :=
    (isFrame_take hpos).unique hframe ((List.take_prefix _ _).trans hpre) (prefix_refl _)
  have hle : _ ≤ _ := htake ▸ (List.take_prefix _ _).length_le
  exact hpre.eq_of_length (Nat.le_antisymm hpre.length_le hle)

/-- **A stream determines its frames.** Two lists of frames cut off the front of one stream agree
as far as the shorter one goes. -/
theorem frames_comparable {fs gs : List (List α)} {s : List α} (hf : ∀ f ∈ fs, IsFrame needle f)
    (hg : ∀ g ∈ gs, IsFrame needle g) (hfs : fs.flatten <+: s) (hgs : gs.flatten <+: s) :
    fs <+: gs ∨ gs <+: fs := by
  induction fs generalizing gs s with
  | nil => exact .inl nil_prefix
  | cons f fs ih =>
    cases gs with
    | nil => exact .inr nil_prefix
    | cons g gs =>
      simp only [flatten_cons] at hfs hgs
      have hfg : f = g := (hf f (by simp)).unique (hg g (by simp))
        ((prefix_append _ _).trans hfs) ((prefix_append _ _).trans hgs)
      subst hfg
      obtain ⟨s, rfl⟩ := (prefix_append _ _).trans hfs
      rw [prefix_append_right_inj] at hfs hgs
      have := ih (fun x hx => hf x (by simp [hx])) (fun x hx => hg x (by simp [hx])) hfs hgs
      simpa [cons_prefix_cons] using this

end Muses.Core.Search
