import Mathlib

/-!
# Maps ordered by key

`std::map`, as the list of its entries in the order in which it is iterated. The order is part of
the type, so that a map can only be built by the operations below.
-/

namespace Muses.Core

open List

structure OrderedMap (κ ν : Type) [LT κ] where
  entries : List (κ × ν)
  sorted : entries.Pairwise fun a b => a.1 < b.1

namespace OrderedMap

variable {κ ν : Type} [LT κ] [DecidableLT κ] [DecidableEq κ]

def empty : OrderedMap κ ν := ⟨[], .nil⟩

instance : Inhabited (OrderedMap κ ν) := ⟨empty⟩

instance [DecidableEq ν] : DecidableEq (OrderedMap κ ν) := fun a b =>
  decidable_of_iff (a.entries = b.entries) <| by
    cases a
    cases b
    simp

def filter (p : κ → Bool) (m : OrderedMap κ ν) : OrderedMap κ ν :=
  ⟨m.entries.filter fun e => p e.1, m.sorted.filter _⟩

def assignEntries (k : κ) (v : ν) : List (κ × ν) → List (κ × ν)
  | [] => [(k, v)]
  | e :: es =>
      if k < e.1 then (k, v) :: e :: es
      else if k = e.1 then (k, v) :: es
      else e :: assignEntries k v es

omit [DecidableLT κ] [DecidableEq κ] in
theorem nodup_keys [Std.Irrefl fun a b : κ => a < b] (m : OrderedMap κ ν) :
    (m.entries.map Prod.fst).Nodup := by
  refine pairwise_map.mpr (m.sorted.imp fun hlt heq => ?_)
  exact Std.lt_irrefl (heq ▸ hlt)

omit [LT κ] [DecidableLT κ] [DecidableEq κ] in
theorem nodup_of_keys {l : List (κ × ν)} (h : (l.map Prod.fst).Nodup) : l.Nodup :=
  List.Pairwise.of_map Prod.fst (fun _ _ hne heq => hne (heq ▸ rfl)) h

section Order

variable [Std.Irrefl fun a b : κ => a < b] [Std.Trichotomous fun a b : κ => a < b]
  [Trans (fun a b : κ => a < b) (fun a b : κ => a < b) (fun a b : κ => a < b)]

variable {e : κ × ν} {k : κ} {v : ν} {m : OrderedMap κ ν} {pairs : List (κ × ν)}

omit [Std.Trichotomous fun a b : κ => a < b] in
theorem mem_assignEntries {es : List (κ × ν)} (hs : es.Pairwise fun a b => a.1 < b.1) :
    e ∈ assignEntries k v es ↔ e = (k, v) ∨ e.1 ≠ k ∧ e ∈ es := by
  have hne {a b : κ} (hab : a < b) : b ≠ a := fun heq => Std.lt_irrefl (heq ▸ hab)
  induction es with
  | nil => simp [assignEntries]
  | cons head es ih =>
    obtain ⟨hhead, hs⟩ := pairwise_cons.mp hs
    simp only [assignEntries]
    split
    case isTrue hlt =>
      -- every key of the list lies above `k`
      have habove : ∀ e ∈ head :: es, e.1 ≠ k := by
        intro e he
        rcases mem_cons.mp he with rfl | he
        · exact hne hlt
        · exact hne (Std.lt_trans hlt (hhead e he))
      rw [mem_cons]
      exact or_congr_right ⟨fun he => ⟨habove e he, he⟩, And.right⟩
    case isFalse hlt =>
      split
      case isTrue hk =>
        rw [mem_cons, mem_cons]
        refine or_congr_right ⟨fun he => ⟨hk ▸ hne (hhead e he), .inr he⟩, ?_⟩
        rintro ⟨hek, rfl | he⟩
        · exact absurd hk.symm hek
        · exact he
      case isFalse hk =>
        simp only [mem_cons, ih hs]
        constructor
        · rintro (rfl | rfl | ⟨hek, he⟩)
          · exact .inr ⟨fun h => hk h.symm, .inl rfl⟩
          · exact .inl rfl
          · exact .inr ⟨hek, .inr he⟩
        · rintro (rfl | ⟨hek, rfl | he⟩)
          · exact .inr (.inl rfl)
          · exact .inl rfl
          · exact .inr (.inr ⟨hek, he⟩)

theorem sorted_assignEntries {es : List (κ × ν)} (hs : es.Pairwise fun a b => a.1 < b.1) :
    (assignEntries k v es).Pairwise fun a b => a.1 < b.1 := by
  induction es with
  | nil => exact pairwise_singleton _ _
  | cons head es ih =>
    obtain ⟨hhead, hrest⟩ := pairwise_cons.mp hs
    simp only [assignEntries]
    split
    case isTrue hlt =>
      refine pairwise_cons.mpr ⟨fun e he => ?_, hs⟩
      rcases mem_cons.mp he with rfl | he
      · exact hlt
      · exact Std.lt_trans hlt (hhead e he)
    case isFalse hlt =>
      split
      case isTrue hk =>
        exact pairwise_cons.mpr ⟨fun e he => hk ▸ hhead e he, hrest⟩
      case isFalse hk =>
        refine pairwise_cons.mpr ⟨fun e he => ?_, ih hrest⟩
        rcases (mem_assignEntries hrest).mp he with rfl | ⟨-, he⟩
        · exact ((Std.lt_trichotomy k head.1).resolve_left hlt).resolve_left hk
        · exact hhead e he

def assign (m : OrderedMap κ ν) (k : κ) (v : ν) : OrderedMap κ ν :=
  ⟨assignEntries k v m.entries, sorted_assignEntries m.sorted⟩

theorem mem_assign : e ∈ (m.assign k v).entries ↔ e = (k, v) ∨ e.1 ≠ k ∧ e ∈ m.entries :=
  mem_assignEntries m.sorted

def assignAll (m : OrderedMap κ ν) (pairs : List (κ × ν)) : OrderedMap κ ν :=
  pairs.foldl (fun m p => m.assign p.1 p.2) m

theorem mem_of_mem_assignAll (h : e ∈ (m.assignAll pairs).entries) : e ∈ pairs ∨ e ∈ m.entries := by
  induction pairs generalizing m with
  | nil => exact .inr h
  | cons p pairs ih =>
    rcases ih h with h | h
    · exact .inl (mem_cons_of_mem _ h)
    · rcases mem_assign.mp h with rfl | ⟨-, h⟩
      · exact .inl mem_cons_self
      · exact .inr h

theorem entries_assignAll_of_sorted (h : (m.entries ++ pairs).Pairwise fun a b => a.1 < b.1) :
    (m.assignAll pairs).entries = m.entries ++ pairs := by
  have hlast {es : List (κ × ν)} {k : κ} {v : ν} (hes : ∀ e ∈ es, e.1 < k) :
      assignEntries k v es = es ++ [(k, v)] := by
    induction es with
    | nil => rfl
    | cons e es ih =>
      obtain ⟨he, hes⟩ := forall_mem_cons.mp hes
      have hlt : ¬ k < e.1 := fun hk => Std.lt_irrefl (Std.lt_trans he hk)
      have hne : ¬ k = e.1 := fun hk => Std.lt_irrefl (hk ▸ he)
      simp only [assignEntries, hlt, hne, if_false, ih hes, cons_append]
  induction pairs generalizing m with
  | nil => exact (append_nil _).symm
  | cons p pairs ih =>
    have hentries : (m.assign p.1 p.2).entries = m.entries ++ [p] :=
      hlast fun e he => (pairwise_append.mp h).2.2 e he p mem_cons_self
    have hsplit : m.entries ++ p :: pairs = (m.assign p.1 p.2).entries ++ pairs := by
      rw [hentries, append_assoc, singleton_append]
    rw [hsplit]
    exact ih (hsplit ▸ h)

theorem assignAll_entries (m : OrderedMap κ ν) : assignAll .empty m.entries = m := by
  obtain ⟨entries, hsorted⟩ := m
  have hentries := @entries_assignAll_of_sorted κ ν _ _ _ _ _ _ .empty entries hsorted
  cases hall : assignAll .empty entries
  rw [hall] at hentries
  cases hentries
  rfl

theorem exists_mem_assignAll (h : e ∈ pairs) :
    ∃ e' ∈ (m.assignAll pairs).entries, e'.1 = e.1 ∧ e' ∈ pairs := by
  induction pairs using List.reverseRecOn with
  | nil => cases h
  | append_singleton pairs p ih =>
    have hlast : m.assignAll (pairs ++ [p]) = (m.assignAll pairs).assign p.1 p.2 :=
      foldl_concat ..
    by_cases hkey : e.1 = p.1
    · exact ⟨p, hlast ▸ mem_assign.mpr (.inl rfl), hkey.symm, by simp⟩
    · have he : e ∈ pairs := by
        rcases mem_append.mp h with h | h
        · exact h
        · exact absurd (congrArg Prod.fst (mem_singleton.mp h)) hkey
      obtain ⟨e', he', hkey', hmem⟩ := ih he
      exact ⟨e', hlast ▸ mem_assign.mpr (.inr ⟨hkey' ▸ hkey, he'⟩), hkey',
        mem_append_left _ hmem⟩

theorem subperm_filter_assignAll (p : κ → Bool) :
    ((assignAll .empty pairs).filter p).entries.Subperm (pairs.filter fun e => p e.1) := by
  refine subperm_of_subset (nodup_of_keys (nodup_keys _)) fun e he => ?_
  obtain ⟨he, hp⟩ := mem_filter.mp he
  rcases mem_of_mem_assignAll he with he | he
  · exact mem_filter.mpr ⟨he, hp⟩
  · cases he

/-- **The entries that pass a filter of the keys** are the pairs that do, exactly if no two of these
have the same key. -/
theorem perm_filter_assignAll_iff (p : κ → Bool) :
    ((assignAll .empty pairs).filter p).entries.Perm (pairs.filter fun e => p e.1) ↔
      ((pairs.filter fun e => p e.1).map Prod.fst).Nodup := by
  refine ⟨fun hperm => (hperm.map Prod.fst).nodup_iff.mp (nodup_keys _), fun h => ?_⟩
  refine (subperm_filter_assignAll p).antisymm (subperm_of_subset (nodup_of_keys h) ?_)
  intro e he
  obtain ⟨hmem, hp⟩ := mem_filter.mp he
  -- the pair that the map keeps for the key is the only one
  obtain ⟨e', he', hkey, hmem'⟩ := exists_mem_assignAll (m := .empty) hmem
  have hsame : e' = e := inj_on_of_nodup_map h (by simp [hmem', hkey, hp]) he hkey
  exact mem_filter.mpr ⟨hsame ▸ he', hp⟩

end Order

def find? (m : OrderedMap κ ν) (k : κ) : Option ν :=
  (m.entries.find? fun e => e.1 = k).map Prod.snd

section Lookup

variable [Std.Irrefl fun a b : κ => a < b]

omit [DecidableLT κ] in
theorem find?_eq_some_iff {m : OrderedMap κ ν} {k : κ} {v : ν} :
    m.find? k = some v ↔ (k, v) ∈ m.entries := by
  constructor
  · intro h
    obtain ⟨e, he, rfl⟩ := Option.map_eq_some_iff.mp h
    obtain rfl : e.1 = k := by simpa using find?_some he
    exact mem_of_find?_eq_some he
  · intro h
    -- no entry before this one has its key
    obtain ⟨before, after, hentries⟩ := append_of_mem h
    have hbefore : ∀ e ∈ before, e.1 ≠ k := by
      have hsorted := m.sorted
      rw [hentries] at hsorted
      intro e he hkey
      have hlt := (pairwise_append.mp hsorted).2.2 e he (k, v) mem_cons_self
      exact Std.lt_irrefl (hkey ▸ hlt)
    have hnone : before.find? (fun e => e.1 = k) = none :=
      find?_eq_none.mpr fun e he => by simpa using hbefore e he
    simp [find?, hentries, find?_append, hnone]

variable [Std.Trichotomous fun a b : κ => a < b]
  [Trans (fun a b : κ => a < b) (fun a b : κ => a < b) (fun a b : κ => a < b)]

theorem find?_assign {m : OrderedMap κ ν} {k k' : κ} {v : ν} :
    (m.assign k v).find? k' = if k' = k then some v else m.find? k' := by
  ext w
  rw [find?_eq_some_iff, mem_assign]
  split
  · next heq => simp [heq, eq_comm]
  · next hne => simp [hne, find?_eq_some_iff]

end Lookup

end OrderedMap

end Muses.Core
