import Mathlib

/-!
# Byte-addressed memory with typed objects

A memory maps addresses to bytes. An object of a type `V` occupies a range of addresses, each of
which holds a *fragment* of the object; reading the object back succeeds exactly when every
fragment is still in place. Overwriting any byte of an object therefore destroys it, which is what
makes separation arguments about headers, links and payloads that share one address space honest.

* `Extent` — an address range, with `Extent.Disjoint`;
* `SameOn` — two memories agree on a range; every observation of a range only depends on it.
-/

namespace Muses.Core

inductive MemByte (V : Type*) where
  | raw (b : UInt8)
  | frag (v : V) (i : Nat)
  deriving DecidableEq

def MemByte.byte {V : Type*} : MemByte V → UInt8
  | .raw b => b
  | .frag _ _ => 0

abbrev Memory (V : Type*) := Nat → MemByte V

structure Extent where
  base : Nat
  len : Nat
  deriving DecidableEq, Repr

def Extent.Disjoint (e f : Extent) : Prop :=
  e.base + e.len ≤ f.base ∨ f.base + f.len ≤ e.base

instance (e f : Extent) : Decidable (e.Disjoint f) :=
  inferInstanceAs (Decidable (_ ∨ _))

def Extent.Within (e f : Extent) : Prop :=
  f.base ≤ e.base ∧ e.base + e.len ≤ f.base + f.len

variable {e f : Extent}

theorem Extent.Disjoint.symm (h : e.Disjoint f) : f.Disjoint e := Or.symm h

theorem Extent.Disjoint.mono {e' f' : Extent} (h : e.Disjoint f) (he : e'.Within e)
    (hf : f'.Within f) : e'.Disjoint f' := by
  unfold Extent.Disjoint Extent.Within at *
  omega

theorem Extent.Within.refl (e : Extent) : e.Within e := ⟨Nat.le_refl _, Nat.le_refl _⟩

theorem Extent.Within.trans {g : Extent} (h : e.Within f) (h' : f.Within g) : e.Within g := by
  unfold Extent.Within at *
  omega

namespace Memory

variable {V : Type*}

/-- The two memories have the same bytes in the extent. -/
def SameOn (m m' : Memory V) (e : Extent) : Prop :=
  ∀ x, e.base ≤ x → x < e.base + e.len → m x = m' x

def store (m : Memory V) (a n : Nat) (v : V) : Memory V := fun x =>
  if a ≤ x ∧ x < a + n then .frag v (x - a) else m x

def load [DecidableEq V] (m : Memory V) (a n : Nat) : Option V :=
  match m a with
  | .frag v 0 => if ∀ i < n, m (a + i) = .frag v i then some v else none
  | _ => none

def writeBytes (m : Memory V) (a : Nat) (xs : List UInt8) : Memory V := fun x =>
  if a ≤ x ∧ x < a + xs.length then .raw (xs.getD (x - a) 0) else m x

def readBytes (m : Memory V) (a n : Nat) : List UInt8 :=
  (List.range n).map fun i => (m (a + i)).byte

/-! ## What a write leaves alone -/

theorem SameOn.refl (m : Memory V) (e : Extent) : SameOn m m e := fun _ _ _ => rfl

variable {m m' : Memory V} {e : Extent} {n a : Nat}

theorem SameOn.trans {m'' : Memory V} (h : SameOn m m' e) (h' : SameOn m' m'' e) : SameOn m m'' e :=
  fun x hlo hhi => (h x hlo hhi).trans (h' x hlo hhi)

theorem SameOn.mono {f : Extent} (h : SameOn m m' f) (he : e.Within f) : SameOn m m' e :=
  fun x hlo hhi => h x (Nat.le_trans he.1 hlo) (Nat.lt_of_lt_of_le hhi he.2)

theorem store_sameOn {v : V} (h : Extent.Disjoint ⟨a, n⟩ e) : SameOn m (m.store a n v) e := by
  intro x hlo hhi
  have hout : ¬ (a ≤ x ∧ x < a + n) := by unfold Extent.Disjoint at h; simp only at h; omega
  simp [store, hout]

theorem writeBytes_sameOn {xs : List UInt8} (h : Extent.Disjoint ⟨a, xs.length⟩ e) :
    SameOn m (m.writeBytes a xs) e := by
  intro x hlo hhi
  have hout : ¬ (a ≤ x ∧ x < a + xs.length) := by
    unfold Extent.Disjoint at h; simp only at h; omega
  simp [writeBytes, hout]

/-! ## What a range determines -/

theorem load_congr [DecidableEq V] (hn : 0 < n) (h : SameOn m m' ⟨a, n⟩) :
    m.load a n = m'.load a n := by
  have hat (i : Nat) (hi : i < n) : m (a + i) = m' (a + i) := h (a + i) (by simp) (by simp; omega)
  have h0 : m a = m' a := by simpa using hat 0 hn
  have hiff (v : V) : (∀ i < n, m (a + i) = .frag v i) ↔ (∀ i < n, m' (a + i) = .frag v i) := by
    constructor <;> intro hall i hi
    · rw [← hat i hi]; exact hall i hi
    · rw [hat i hi]; exact hall i hi
  unfold load
  rw [← h0]
  split
  · simp only [hiff]
  · rfl

theorem readBytes_congr (h : SameOn m m' ⟨a, n⟩) : m.readBytes a n = m'.readBytes a n := by
  apply List.map_congr_left
  intro i hi
  rw [h (a + i) (by simp) (by simpa using hi)]

/-! ## Reading back -/

theorem load_store [DecidableEq V] (m : Memory V) (v : V) (hn : 0 < n) :
    (m.store a n v).load a n = some v := by
  have hat (i : Nat) (hi : i < n) : m.store a n v (a + i) = .frag v i := by
    simp [store, hi]
  have h0 : m.store a n v a = .frag v 0 := by simpa using hat 0 hn
  unfold load
  rw [h0]
  simp only [if_pos hat]

@[simp] theorem length_readBytes (m : Memory V) (a n : Nat) : (m.readBytes a n).length = n := by
  simp [readBytes]

theorem readBytes_writeBytes (m : Memory V) (a : Nat) (xs : List UInt8) :
    (m.writeBytes a xs).readBytes a xs.length = xs := by
  apply List.ext_getElem (by simp)
  intro i hi hi'
  simp [readBytes, writeBytes, MemByte.byte, hi']

theorem readBytes_add (m : Memory V) (a n k : Nat) :
    m.readBytes a (n + k) = m.readBytes a n ++ m.readBytes (a + n) k := by
  simp only [readBytes, List.range_add, List.map_append, List.map_map, Function.comp_def,
    Nat.add_assoc]

theorem readBytes_take (m : Memory V) (a : Nat) {k : Nat} (h : k ≤ n) :
    (m.readBytes a n).take k = m.readBytes a k := by
  obtain ⟨d, rfl⟩ := Nat.exists_eq_add_of_le h
  rw [readBytes_add, List.take_left' (by simp)]

theorem readBytes_drop (m : Memory V) (a : Nat) {k : Nat} (h : k ≤ n) :
    (m.readBytes a n).drop k = m.readBytes (a + k) (n - k) := by
  obtain ⟨d, rfl⟩ := Nat.exists_eq_add_of_le h
  rw [readBytes_add, List.drop_left' (by simp), Nat.add_sub_cancel_left]

theorem readBytes_writeBytes_append (m : Memory V) (a n : Nat) (xs : List UInt8) :
    (m.writeBytes (a + n) xs).readBytes a (n + xs.length) = m.readBytes a n ++ xs := by
  rw [readBytes_add, readBytes_writeBytes]
  congr 1
  refine (readBytes_congr (writeBytes_sameOn ?_)).symm
  unfold Extent.Disjoint
  simp only
  omega

end Memory

end Muses.Core
