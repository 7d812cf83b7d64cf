import Muses.BloomFilter.Membership

/-!
# What a call on one item does to the others

Items share slots, so a call on one item is seen by others. One more `add` is harmless: whatever is
called later, no counter is lower for it. A `remove` of an item that is not there is harmless only
while the item has its slots to itself.
-/

namespace Muses

open Muses.Core List

namespace CountingBloomFilter

variable {T : Type*} {m k s : Nat} {hash : T → UInt64}

def calls (hash : T → UInt64) (f : CountingBloomFilter) (ops : List (Op T)) :
    CountingBloomFilter :=
  ops.foldl (fun f op => (f.call hash op).1) f

theorem calls_append (f : CountingBloomFilter) (ops ops' : List (Op T)) :
    calls hash f (ops ++ ops') = calls hash (calls hash f ops) ops' := foldl_append ..

theorem stands_calls (hash : T → UInt64) (k : Nat) (heven : m % 2 = 0) (hm : 2 ≤ m)
    (ops : List (Op T)) : ∃ c, Stands m k (calls hash (make m k) ops) c := by
  induction ops using List.reverseRecOn with
  | nil => exact ⟨_, .make heven hm⟩
  | append_singleton ops op ih =>
    obtain ⟨c, h⟩ := ih
    rw [calls_append]
    exact ⟨_, (h.call hash op).1⟩

namespace Stands

variable {f : CountingBloomFilter} {c : Plain.Counters}

theorem getCounter (h : Stands m k f c) (hs : s < m) :
    (f.getCounter s).toNat = (c.getD s 0).val := by
  rw [← h.decode, getD_decode (hs.trans_eq h.slots.symm)]
  rfl

theorem probes (h : Stands m k f c) (x : T) : f.probes hash x = Plain.probes hash k m x := by
  rw [probes_eq, h.slots, h.hashes]

theorem probes_lt (h : Stands m k f c) (x : T) (hs : s ∈ Plain.probes hash k m x) : s < m := by
  rw [← h.probes] at hs
  exact h.slots ▸ h.packed.probes_lt hash x s hs

/-- **What a call does to a counter**: an `add` or a `remove` counts once for each probe of its item
that hits the slot. -/
theorem getD_call (h : Stands m k f c) (hash : T → UInt64) (hs : s < m) (op : Op T) :
    ((Plain.call hash k c op).1.getD s 0).val = match op with
      | .add y => min 15 ((c.getD s 0).val + (Plain.probes hash k m y).count s)
      | .remove y => (c.getD s 0).val - (Plain.probes hash k m y).count s
      | .contains _ => (c.getD s 0).val
      | .decay shift => (c.getD s 0).val >>> shift
      | .clear => 0 := by
  have hlt : s < c.length := hs.trans_eq h.length.symm
  cases op with
  | add y =>
    simp only [Plain.call, h.length]
    exact Plain.getD_add c _ hlt
  | remove y =>
    simp only [Plain.call, h.length]
    exact Plain.getD_remove (c, false) _ hlt
  | contains y => rfl
  | decay shift => simp [Plain.call, Plain.shiftRight, getD_eq_getElem?_getD, hlt]
  | clear => simp [Plain.call, getD_eq_getElem?_getD, hlt]

end Stands

/-! ## One more `add` -/

/-- Of two filters with `m` slots, no counter of the first is larger than in the second. -/
def Under (m k : Nat) (f f' : CountingBloomFilter) : Prop :=
  ∃ c c', Stands m k f c ∧ Stands m k f' c' ∧ ∀ s < m, (c.getD s 0).val ≤ (c'.getD s 0).val

variable {f f' : CountingBloomFilter}

theorem Under.call (h : Under m k f f') (op : Op T) :
    Under m k (f.call hash op).1 (f'.call hash op).1 := by
  obtain ⟨c, c', hc, hc', hle⟩ := h
  refine ⟨_, _, (hc.call hash op).1, (hc'.call hash op).1, fun s hs => ?_⟩
  have := hle s hs
  rw [hc.getD_call hash hs, hc'.getD_call hash hs]
  cases op with
  | add y =>
    simp only
    omega
  | remove y =>
    simp only
    omega
  | contains y => exact this
  | decay shift =>
    simp only [Nat.shiftRight_eq_div_pow]
    exact Nat.div_le_div_right this
  | clear => exact Nat.le_refl 0

theorem Under.calls (h : Under m k f f') (hash : T → UInt64) (ops : List (Op T)) :
    Under m k (calls hash f ops) (calls hash f' ops) := by
  induction ops generalizing f f' with
  | nil => exact h
  | cons op ops ih => exact ih (h.call op)

theorem Under.of_add {c : Plain.Counters} (h : Stands m k f c) (hash : T → UInt64) (x : T) :
    Under m k f (f.add hash x) := by
  refine ⟨c, _, h, (h.call hash (.add x)).1, fun s hs => ?_⟩
  have := (c.getD s 0).isLt
  rw [h.getD_call hash hs]
  simp only
  omega

theorem Under.getCounter_le (h : Under m k f f') (hs : s < m) :
    f.getCounter s ≤ f'.getCounter s := by
  obtain ⟨c, c', hc, hc', hle⟩ := h
  rw [UInt8.le_iff_toNat_le, hc.getCounter hs, hc'.getCounter hs]
  exact hle s hs

theorem Under.contains (h : Under m k f f') {y : T} (hy : f.contains hash y = true) :
    f'.contains hash y = true := by
  have hle {s : Nat} (hs : s < m) : f.getCounter s ≤ f'.getCounter s := h.getCounter_le hs
  obtain ⟨c, c', hc, hc', -⟩ := h
  simp only [CountingBloomFilter.contains, hc.probes, hc'.probes, all_eq_true,
    decide_eq_true_eq] at hy ⊢
  intro s hs hzero
  have := hle (hc.probes_lt y hs)
  rw [hzero] at this
  exact hy s hs (UInt8.le_zero_iff.mp this)

/-- **Extra insertions never hide an element.** Put one more `add` anywhere into a run of calls:
from then on every counter is at least what it was without it, and what was found is found. -/
theorem extra_add_never_hides (hash : T → UInt64) (heven : m % 2 = 0) (hm : 2 ≤ m) (k : Nat)
    (pre post : List (Op T)) (x : T) :
    (∀ s < m, (calls hash (make m k) (pre ++ post)).getCounter s ≤
      (calls hash (make m k) (pre ++ .add x :: post)).getCounter s) ∧
    ∀ y, (calls hash (make m k) (pre ++ post)).contains hash y = true →
      (calls hash (make m k) (pre ++ .add x :: post)).contains hash y = true := by
  obtain ⟨c, hc⟩ := stands_calls hash k heven hm pre
  have h := (Under.of_add hc hash x).calls hash post
  rw [calls_append, calls_append]
  exact ⟨fun s hs => h.getCounter_le hs, fun y hy => h.contains hy⟩

/-- An item shares its slots with one that is added too, and stays there after a `decay`. -/
theorem extra_add_never_hides_decayed :
    (∀ s < 8, (calls id (make 8 2) ([.add 1] ++ [.add 1, .decay 1])).getCounter s ≤
      (calls id (make 8 2) ([.add 1] ++ .add 2 :: [.add 1, .decay 1])).getCounter s) ∧
    ∀ y, (calls id (make 8 2) ([.add 1] ++ [.add 1, .decay 1])).contains id y = true →
      (calls id (make 8 2) ([.add 1] ++ .add 2 :: [.add 1, .decay 1])).contains id y = true :=
  extra_add_never_hides id (by decide) (by decide) 2 _ _ 2

/-! ## Removing what is not there -/

def Op.changes : Op T → Option T
  | .add y => some y
  | .remove y => some y
  | _ => none

/-- The probes of `x` are distinct, and no other element that `ops` change has one of them. -/
structure Alone (hash : T → UInt64) (m k : Nat) (x : T) (ops : List (Op T)) : Prop where
  own : (Plain.probes hash k m x).Nodup
  others : ∀ op ∈ ops, ∀ y, op.changes = some y → y ≠ x →
    ∀ s ∈ Plain.probes hash k m y, s ∉ Plain.probes hash k m x

/-- All counters of `x` are equal. -/
def Level (hash : T → UInt64) (m k : Nat) (x : T) (c : Plain.Counters) : Prop :=
  ∃ n, ∀ s ∈ Plain.probes hash k m x, (c.getD s 0).val = n

variable {x : T} {c : Plain.Counters} {ops : List (Op T)}

theorem Alone.count_eq (h : Alone hash m k x ops) {op : Op T} (hop : op ∈ ops) {y : T}
    (hy : op.changes = some y) :
    ∃ n, ∀ s ∈ Plain.probes hash k m x, (Plain.probes hash k m y).count s = n := by
  by_cases hxy : y = x
  · subst hxy
    exact ⟨1, fun s hs => count_eq_one_of_mem h.own hs⟩
  · refine ⟨0, fun s hs => count_eq_zero_of_not_mem fun hs' => ?_⟩
    exact h.others op hop y hy hxy s hs' hs

theorem Level.call (hc : Stands m k f c) (hlevel : Level hash m k x c)
    (h : Alone hash m k x ops) {op : Op T} (hop : op ∈ ops) :
    Level hash m k x (Plain.call hash k c op).1 := by
  obtain ⟨n, hn⟩ := hlevel
  have hcall {s : Nat} (hs : s ∈ Plain.probes hash k m x) :=
    hc.getD_call hash (hc.probes_lt x hs) op
  cases op with
  | add y =>
    obtain ⟨r, hr⟩ := h.count_eq hop (y := y) rfl
    exact ⟨min 15 (n + r), fun s hs => by simp only [hcall hs, hn s hs, hr s hs]⟩
  | remove y =>
    obtain ⟨r, hr⟩ := h.count_eq hop (y := y) rfl
    exact ⟨n - r, fun s hs => by simp only [hcall hs, hn s hs, hr s hs]⟩
  | contains y => exact ⟨n, hn⟩
  | decay shift => exact ⟨n >>> shift, fun s hs => by rw [hcall hs, hn s hs]⟩
  | clear => exact ⟨0, fun s hs => hcall hs⟩

theorem Alone.level (heven : m % 2 = 0) (hm : 2 ≤ m) (h : Alone hash m k x ops) :
    ∃ c, Stands m k (calls hash (make m k) ops) c ∧ Level hash m k x c := by
  suffices hall : ∀ done, done <+: ops →
      ∃ c, Stands m k (calls hash (make m k) done) c ∧ Level hash m k x c from
    hall ops prefix_rfl
  intro done
  induction done using List.reverseRecOn with
  | nil =>
    refine fun _ => ⟨_, .make heven hm, 0, fun s hs => ?_⟩
    simp [getD_eq_getElem?_getD, Stands.probes_lt (.make heven hm) x hs]
  | append_singleton done op ih =>
    intro hdone
    obtain ⟨c, hc, hlevel⟩ := ih ((prefix_append done [op]).trans hdone)
    have hop : op ∈ ops := hdone.subset (by simp)
    rw [calls_append]
    exact ⟨_, (hc.call hash op).1, hlevel.call hc h hop⟩

theorem foldl_removeAt_zero (f : CountingBloomFilter) (slots : List Nat)
    (h : ∀ s ∈ slots, f.getCounter s = 0) : slots.foldl removeAt (f, false) = (f, false) := by
  induction slots with
  | nil => rfl
  | cons s slots ih =>
    have hzero := h s mem_cons_self
    have hstep : removeAt (f, false) s = (f, false) := by
      simp [removeAt, hzero]
    rw [foldl_cons, hstep]
    exact ih fun t ht => h t (mem_cons_of_mem s ht)

/-- **Removing an absent element is a no-op**, for an element that has its slots to itself: after
any calls the filter that does not contain it returns false and is left as it is. -/
theorem remove_absent_noop (hash : T → UInt64) (heven : m % 2 = 0) (hm : 2 ≤ m) (k : Nat)
    (ops : List (Op T)) (x : T) (halone : Alone hash m k x ops)
    (habsent : (calls hash (make m k) ops).contains hash x = false) :
    (calls hash (make m k) ops).remove hash x = (calls hash (make m k) ops, false) := by
  obtain ⟨c, hc, n, hn⟩ := halone.level heven hm
  refine foldl_removeAt_zero _ _ fun s hs => ?_
  simp only [contains, hc.probes, all_eq_false, decide_eq_true_eq, not_not] at habsent
  rw [hc.probes] at hs
  obtain ⟨t, ht, hzero⟩ := habsent
  -- one of the slots is at zero, so all of them are
  have hlevel : (c.getD s 0).val = (c.getD t 0).val := (hn s hs).trans (hn t ht).symm
  rw [← hc.getCounter (hc.probes_lt x hs), ← hc.getCounter (hc.probes_lt x ht)] at hlevel
  exact (UInt8.toNat_inj.mp hlevel).trans hzero

/-- The element was there once, and another one still is. -/
theorem remove_absent_noop_removed :
    (calls id (make 8 2) [.add 2, .add 1, .remove 1]).contains id (1 : UInt64) = false ∧
    (calls id (make 8 2) [.add 2, .add 1, .remove 1]).remove id (1 : UInt64)
      = (calls id (make 8 2) [.add 2, .add 1, .remove 1], false) := by
  have halone : Alone id 8 2 (1 : UInt64) [.add 2, .add 1, .remove 1] := by
    refine ⟨by decide, fun op hop y hy hne => ?_⟩
    simp only [mem_cons, not_mem_nil, or_false] at hop
    rcases hop with rfl | rfl | rfl <;> cases hy
    · decide
    · exact absurd rfl hne
    · exact absurd rfl hne
  have habsent : (calls id (make 8 2) [.add 2, .add 1, .remove 1]).contains id (1 : UInt64)
      = false := by decide
  exact ⟨habsent, remove_absent_noop id (by decide) (by decide) 2 _ 1 halone habsent⟩

/-- With 2 added, 3 is absent but probes the slot 2 of it: its removal returns true, and 2 is
gone. -/
theorem remove_absent_hides_other :
    (calls id (make 8 2) [.add 2]).contains id (3 : UInt64) = false ∧
    (calls id (make 8 2) [.add 2]).contains id (2 : UInt64) = true ∧
    ((calls id (make 8 2) [.add 2]).remove id (3 : UInt64)).2 = true ∧
    ((calls id (make 8 2) [.add 2]).remove id (3 : UInt64)).1 ≠ calls id (make 8 2) [.add 2] ∧
    ((calls id (make 8 2) [.add 2]).remove id (3 : UInt64)).1.contains id (2 : UInt64) = false := by
  decide

end CountingBloomFilter

end Muses
