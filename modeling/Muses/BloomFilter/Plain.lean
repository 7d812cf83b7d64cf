import Muses.BloomFilter
import Muses.Core.Nibble
import Muses.Core.Run

/-!
# The packed counters stand for plain ones

A `CountingBloomFilter` keeps its counters two to a byte. Here the same filter is written down over
a plain array of counters, and the packed one is shown to do what the plain one does, call by call.
-/

namespace Muses

open Muses.Core List

namespace CountingBloomFilter

variable {T : Type*} {f : CountingBloomFilter} {s t : Nat} {v : UInt8}

/-! ## Plain counters -/

namespace Plain

abbrev Counters := List (Fin 16)

instance neZero_sixteen : NeZero 16 := ⟨by decide⟩

def increment (c : Fin 16) : Fin 16 := ⟨min 15 (c + 1), by omega⟩

def decrement (c : Fin 16) : Fin 16 := ⟨c - 1, by omega⟩

def shiftRight (shift : Nat) (c : Fin 16) : Fin 16 :=
  ⟨c.val >>> shift, lt_of_le_of_lt (Nat.shiftRight_le _ _) c.isLt⟩

def probes (hash : T → UInt64) (numHashes numSlots : Nat) (item : T) : List Nat :=
  let (h1, h2) := hashes hash item
  (List.range numHashes).map fun i => (h1.toNat + i * h2.toNat) % 2 ^ 64 % numSlots

def add (c : Counters) (slots : List Nat) : Counters :=
  slots.foldl (fun c s => c.modify s increment) c

def removeAt : Counters × Bool → Nat → Counters × Bool
  | (c, changed), s => (c.modify s decrement, changed || c.getD s 0 != 0)

def remove (c : Counters) (slots : List Nat) : Counters × Bool := slots.foldl removeAt (c, false)

def contains (c : Counters) (slots : List Nat) : Bool := slots.all fun s => c.getD s 0 ≠ 0

def call (hash : T → UInt64) (numHashes : Nat) (c : Counters) : Op T → Counters × Option Bool
  | .add item => (add c (probes hash numHashes c.length item), none)
  | .remove item =>
      let (c', changed) := remove c (probes hash numHashes c.length item)
      (c', some changed)
  | .contains item => (c, some (contains c (probes hash numHashes c.length item)))
  | .decay shift => (c.map (shiftRight shift), none)
  | .clear => (c.map fun _ => 0, none)

end Plain

/-! ## Reading and writing a counter -/

/-- Two slots a byte, and at least one slot. -/
structure Packed (f : CountingBloomFilter) : Prop where
  pos : 0 < f.numSlots
  length : 2 * f.bytes.length = f.numSlots

variable {m k : Nat}

theorem Packed.make (heven : m % 2 = 0) (hm : 2 ≤ m) : (CountingBloomFilter.make m k).Packed := by
  refine ⟨by simp only [CountingBloomFilter.make]; omega, ?_⟩
  simp only [CountingBloomFilter.make, length_replicate]
  omega

theorem Packed.byte_lt (h : f.Packed) (hs : s < f.numSlots) : s / 2 < f.bytes.length := by
  have := h.length
  omega

theorem Packed.setCounter (h : f.Packed) (s : Nat) (v : UInt8) : (f.setCounter s v).Packed :=
  ⟨h.pos, by simpa [CountingBloomFilter.setCounter] using h.length⟩

theorem getCounter_eq (f : CountingBloomFilter) (s : Nat) :
    f.getCounter s = if s % 2 = 0 then Nibble.low (f.bytes.getD (s / 2) 0)
      else Nibble.high (f.bytes.getD (s / 2) 0) := rfl

theorem getCounter_lt (f : CountingBloomFilter) (s : Nat) : (f.getCounter s).toNat < 16 := by
  rw [getCounter_eq]
  split
  · rw [Nibble.toNat_low]
    omega
  · have := (f.bytes.getD (s / 2) 0).toNat_lt
    rw [Nibble.toNat_high]
    omega

theorem bytes_setCounter (f : CountingBloomFilter) (s : Nat) (v : UInt8) :
    (f.setCounter s v).bytes = f.bytes.set (s / 2)
      (if s % 2 = 0 then Nibble.setLow (f.bytes.getD (s / 2) 0) v
        else Nibble.setHigh (f.bytes.getD (s / 2) 0) v) := rfl

/-- **A write shows in its own slot, and in no other**: not in the other half of its byte either. -/
theorem getCounter_setCounter (hs : s / 2 < f.bytes.length) (v : UInt8) (t : Nat) :
    (f.setCounter s v).getCounter t = if t = s then Nibble.low v else f.getCounter t := by
  rw [getCounter_eq, getCounter_eq, bytes_setCounter]
  by_cases hbyte : t / 2 = s / 2
  · rw [hbyte]
    have hget : ∀ b : UInt8, (f.bytes.set (s / 2) b).getD (s / 2) 0 = b := fun b => by
      simp [getD_eq_getElem?_getD, hs]
    rw [hget]
    by_cases hslot : s % 2 = 0 <;> by_cases hslot' : t % 2 = 0
    · rw [if_pos hslot, if_pos hslot', if_pos (by omega), Nibble.low_setLow]
    · rw [if_pos hslot, if_neg hslot', if_neg (by omega), if_neg hslot', Nibble.high_setLow]
    · rw [if_neg hslot, if_pos hslot', if_neg (by omega), if_pos hslot', Nibble.low_setHigh]
    · rw [if_neg hslot, if_neg hslot', if_pos (by omega), Nibble.high_setHigh]
  · have hget : ∀ b : UInt8, (f.bytes.set (s / 2) b).getD (t / 2) 0 = f.bytes.getD (t / 2) 0 :=
      fun b => by simp [getD_eq_getElem?_getD, Ne.symm hbyte]
    have hne : t ≠ s := fun heq => hbyte (heq ▸ rfl)
    rw [hget, if_neg hne]

/-! ## Decoding -/

def counter (f : CountingBloomFilter) (s : Nat) : Fin 16 :=
  ⟨(f.getCounter s).toNat, f.getCounter_lt s⟩

def decode (f : CountingBloomFilter) : Plain.Counters := (List.range f.numSlots).map f.counter

@[simp] theorem length_decode (f : CountingBloomFilter) : f.decode.length = f.numSlots := by
  simp [decode]

theorem getD_decode (hs : s < f.numSlots) : f.decode.getD s 0 = f.counter s := by
  simp [decode, getD_eq_getElem?_getD, hs]

theorem getCounter_eq_zero_iff (f : CountingBloomFilter) (s : Nat) :
    f.getCounter s = 0 ↔ f.counter s = 0 := by
  rw [← UInt8.toNat_inj, Fin.ext_iff]
  rfl

theorem decode_setCounter (h : f.Packed) (hs : s < f.numSlots) (g : Fin 16 → Fin 16)
    (hv : v.toNat = g (f.counter s)) : (f.setCounter s v).decode = f.decode.modify s g := by
  have hbyte := h.byte_lt hs
  have hlow : Nibble.low v = v := Nibble.low_of_lt (hv ▸ (g _).isLt)
  refine ext_getElem (by simp [setCounter]) fun t ht ht' => ?_
  rw [getElem_modify]
  simp only [decode, getElem_map, getElem_range]
  ext
  simp only [counter, getCounter_setCounter hbyte, hlow]
  rcases eq_or_ne t s with rfl | hne
  · rw [if_pos rfl, if_pos rfl]
    exact hv
  · rw [if_neg hne, if_neg hne.symm]

theorem toNat_saturateInc (f : CountingBloomFilter) (s : Nat) :
    (saturateInc (f.getCounter s)).toNat = Plain.increment (f.counter s) := by
  have hlt := f.getCounter_lt s
  simp only [saturateInc, Plain.increment, counter]
  by_cases hmax : f.getCounter s ≥ counterMax
  · have hge : 15 ≤ (f.getCounter s).toNat := UInt8.le_iff_toNat_le.mp hmax
    rw [if_pos hmax]
    show 15 = _
    omega
  · have hlt : (f.getCounter s).toNat < 15 := UInt8.lt_iff_toNat_lt.mp (UInt8.not_le.mp hmax)
    rw [if_neg hmax, UInt8.toNat_add]
    show ((f.getCounter s).toNat + 1) % 2 ^ 8 = _
    omega

theorem toNat_pred (h : f.getCounter s > 0) :
    (f.getCounter s - 1).toNat = Plain.decrement (f.counter s) := by
  rw [UInt8.toNat_sub_of_le]
  · rfl
  · exact UInt8.le_iff_toNat_le.mpr (UInt8.lt_iff_toNat_lt.mp h)

/-! ## Call by call -/

/-- The bytes of `f` stand for the counters `c`. -/
structure Stands (m k : Nat) (f : CountingBloomFilter) (c : Plain.Counters) : Prop where
  packed : f.Packed
  slots : f.numSlots = m
  hashes : f.numHashes = k
  decode : f.decode = c

namespace Stands

variable {m k : Nat} {c : Plain.Counters}

theorem length (h : Stands m k f c) : c.length = m := by
  rw [← h.decode, length_decode, h.slots]

theorem setCounter (h : Stands m k f c) (hs : s < f.numSlots) (g : Fin 16 → Fin 16)
    (hv : v.toNat = g (f.counter s)) : Stands m k (f.setCounter s v) (c.modify s g) :=
  ⟨h.packed.setCounter s v, h.slots, h.hashes, h.decode ▸ decode_setCounter h.packed hs g hv⟩

theorem add (h : Stands m k f c) (slots : List Nat) (hlt : ∀ s ∈ slots, s < f.numSlots) :
    Stands m k (slots.foldl (fun f s => f.setCounter s (saturateInc (f.getCounter s))) f)
      (Plain.add c slots) := by
  induction slots generalizing f c with
  | nil => exact h
  | cons s slots ih =>
    have hs := hlt s mem_cons_self
    have hstep := h.setCounter hs Plain.increment (toNat_saturateInc f s)
    exact ih hstep fun t ht => hlt t (mem_cons_of_mem s ht)

theorem modify_zero {counters : Plain.Counters} (h : counters.getD s 0 = 0) :
    counters.modify s Plain.decrement = counters := by
  refine ext_getElem (by simp) fun t ht ht' => ?_
  rw [getElem_modify]
  split
  case isTrue heq =>
    subst heq
    have hzero : counters[s] = 0 := by simpa [getD_eq_getElem?_getD, ht'] using h
    rw [hzero]
    rfl
  case isFalse => rfl

theorem removeAt {p : CountingBloomFilter × Bool} {q : Plain.Counters × Bool}
    (h : Stands m k p.1 q.1) (hflag : p.2 = q.2) (hs : s < p.1.numSlots) :
    Stands m k (removeAt p s).1 (Plain.removeAt q s).1 ∧
      (CountingBloomFilter.removeAt p s).2 = (Plain.removeAt q s).2 ∧
      (CountingBloomFilter.removeAt p s).1.numSlots = p.1.numSlots := by
  obtain ⟨f, changed⟩ := p
  obtain ⟨c, _⟩ := q
  cases hflag
  have hdecode : f.decode = c := h.decode
  have hread : c.getD s 0 = f.counter s := hdecode ▸ getD_decode hs
  simp only [CountingBloomFilter.removeAt, Plain.removeAt]
  by_cases hpos : f.getCounter s > 0
  · have hne : (c.getD s 0 != 0) = true := by
      rw [hread, bne_iff_ne]
      intro hzero
      rw [(getCounter_eq_zero_iff f s).mpr hzero] at hpos
      exact absurd hpos (by decide)
    rw [if_pos hpos, hne, Bool.or_true]
    exact ⟨h.setCounter hs Plain.decrement (toNat_pred hpos), rfl, rfl⟩
  · have hzero : c.getD s 0 = 0 := by
      rw [hread, ← getCounter_eq_zero_iff]
      exact UInt8.toNat_inj.mp (Nat.le_zero.mp (UInt8.le_iff_toNat_le.mp (UInt8.not_lt.mp hpos)))
    rw [if_neg hpos, hzero, modify_zero hzero]
    exact ⟨h, by simp, rfl⟩

theorem remove {p : CountingBloomFilter × Bool} {q : Plain.Counters × Bool}
    (h : Stands m k p.1 q.1) (hflag : p.2 = q.2) (slots : List Nat)
    (hlt : ∀ s ∈ slots, s < p.1.numSlots) :
    Stands m k (slots.foldl CountingBloomFilter.removeAt p).1 (slots.foldl Plain.removeAt q).1 ∧
      (slots.foldl CountingBloomFilter.removeAt p).2 = (slots.foldl Plain.removeAt q).2 := by
  induction slots generalizing p q with
  | nil => exact ⟨h, hflag⟩
  | cons s slots ih =>
    obtain ⟨hstep, hflag, hsame⟩ := h.removeAt hflag (hlt s mem_cons_self)
    exact ih hstep hflag fun t ht => hsame ▸ hlt t (mem_cons_of_mem s ht)

theorem contains (h : Stands m k f c) (slots : List Nat) (hlt : ∀ s ∈ slots, s < f.numSlots) :
    (slots.all fun s => decide (f.getCounter s ≠ 0)) = Plain.contains c slots := by
  rw [Plain.contains, Bool.eq_iff_iff, all_eq_true, all_eq_true]
  refine forall₂_congr fun s hs => ?_
  rw [← h.decode, getD_decode (hlt s hs)]
  simp [getCounter_eq_zero_iff]

end Stands

/-! ## Decay -/

theorem getCounter_map (hs : s / 2 < f.bytes.length) (g : UInt8 → UInt8) :
    ({ f with bytes := f.bytes.map g } : CountingBloomFilter).getCounter s
      = if s % 2 = 0 then Nibble.low (g (f.bytes.getD (s / 2) 0))
        else Nibble.high (g (f.bytes.getD (s / 2) 0)) := by
  rw [getCounter_eq]
  simp [getD_eq_getElem?_getD, hs]

theorem toNat_shiftRight_ofNat (b : UInt8) {shift : Nat} (h : shift < 4) :
    (b >>> UInt8.ofNat shift).toNat = b.toNat >>> shift := by
  rw [UInt8.toNat_shiftRight, UInt8.toNat_ofNat']
  congr 1
  omega

theorem halves_decayByte {shift : Nat} (h : shift < 4) (b : UInt8) :
    Nibble.low (decayByte shift b) = Nibble.low b >>> UInt8.ofNat shift ∧
      Nibble.high (decayByte shift b) = Nibble.high b >>> UInt8.ofNat shift := by
  have hpack : decayByte shift b = Nibble.pack (Nibble.high b >>> UInt8.ofNat shift)
      (Nibble.low b >>> UInt8.ofNat shift) := rfl
  have hlow : (Nibble.low b >>> UInt8.ofNat shift).toNat < 16 := by
    rw [toNat_shiftRight_ofNat _ h, Nibble.toNat_low]
    exact lt_of_le_of_lt (Nat.shiftRight_le _ _) (by omega)
  have hhigh : (Nibble.high b >>> UInt8.ofNat shift).toNat < 16 := by
    have := b.toNat_lt
    rw [toNat_shiftRight_ofNat _ h, Nibble.toNat_high]
    exact lt_of_le_of_lt (Nat.shiftRight_le _ _) (by omega)
  rw [hpack, Nibble.low_pack, Nibble.high_pack, Nibble.low_of_lt hlow, Nibble.low_of_lt hhigh,
    Nibble.high_of_lt hlow]
  simp

namespace Stands

variable {m k : Nat} {c : Plain.Counters}

theorem map (h : Stands m k f c) {b : UInt8 → UInt8} {g : Fin 16 → Fin 16}
    (hlow : ∀ p (n : Fin 16), (Nibble.low p).toNat = n → (Nibble.low (b p)).toNat = g n)
    (hhigh : ∀ p (n : Fin 16), (Nibble.high p).toNat = n → (Nibble.high (b p)).toNat = g n) :
    Stands m k { f with bytes := f.bytes.map b } (c.map g) := by
  refine ⟨⟨h.packed.pos, by simpa using h.packed.length⟩, h.slots, h.hashes, ?_⟩
  rw [← h.decode]
  simp only [CountingBloomFilter.decode, map_map]
  refine map_congr_left fun s hs => Fin.ext ?_
  have hbyte := h.packed.byte_lt (mem_range.mp hs)
  have hcounter : (f.getCounter s).toNat = f.counter s := rfl
  simp only [Function.comp_apply]
  show (CountingBloomFilter.getCounter _ s).toNat = _
  rw [getCounter_map hbyte]
  rw [getCounter_eq] at hcounter
  by_cases hslot : s % 2 = 0
  · rw [if_pos hslot] at hcounter ⊢
    exact hlow _ _ hcounter
  · rw [if_neg hslot] at hcounter ⊢
    exact hhigh _ _ hcounter

theorem clear (h : Stands m k f c) : Stands m k f.clear (c.map fun _ => 0) :=
  h.map (fun _ _ _ => rfl) fun _ _ _ => rfl

theorem decay (h : Stands m k f c) (shift : Nat) :
    Stands m k (f.decay shift) (c.map (Plain.shiftRight shift)) := by
  unfold CountingBloomFilter.decay
  split
  case isTrue hzero =>
    have hid : Plain.shiftRight shift = id := by
      funext n
      simp [Plain.shiftRight, hzero]
    rw [hid, map_id]
    exact h
  case isFalse =>
    split
    case isTrue hbig =>
      have hconst : Plain.shiftRight shift = fun _ => 0 := by
        funext n
        have hpow : 2 ^ 4 ≤ 2 ^ shift := Nat.pow_le_pow_right (by omega) hbig
        refine Fin.ext ?_
        show n.val >>> shift = 0
        rw [Nat.shiftRight_eq_div_pow]
        exact Nat.div_eq_of_lt (lt_of_lt_of_le n.isLt hpow)
      rw [hconst]
      exact h.clear
    case isFalse hsmall =>
      have hlt : shift < 4 := by omega
      refine h.map (fun p n hn => ?_) fun p n hn => ?_
      · rw [(halves_decayByte hlt p).1, toNat_shiftRight_ofNat _ hlt, hn]
        rfl
      · rw [(halves_decayByte hlt p).2, toNat_shiftRight_ofNat _ hlt, hn]
        rfl

end Stands

/-! ## Runs -/

theorem slotOf_eq (f : CountingBloomFilter) (h1 h2 : UInt64) (i : Nat) :
    f.slotOf h1 h2 i = (h1.toNat + i * h2.toNat) % 2 ^ 64 % f.numSlots := by
  simp [slotOf, UInt64.toNat_add, UInt64.toNat_mul, UInt64.toNat_ofNat', Nat.mul_mod, Nat.add_mod]

theorem probes_eq (f : CountingBloomFilter) (hash : T → UInt64) (item : T) :
    f.probes hash item = Plain.probes hash f.numHashes f.numSlots item := by
  simp only [probes, Plain.probes]
  exact map_congr_left fun i _ => f.slotOf_eq _ _ i

theorem Packed.probes_lt (h : f.Packed) (hash : T → UInt64) (item : T) :
    ∀ s ∈ f.probes hash item, s < f.numSlots := by
  intro s hs
  obtain ⟨i, -, rfl⟩ := mem_map.mp hs
  exact Nat.mod_lt _ h.pos

theorem Stands.call {c : Plain.Counters} (h : Stands m k f c) (hash : T → UInt64) (op : Op T) :
    Stands m k (f.call hash op).1 (Plain.call hash k c op).1 ∧
      (f.call hash op).2 = (Plain.call hash k c op).2 := by
  have hprobes : ∀ item, Plain.probes hash k c.length item = f.probes hash item := fun item => by
    rw [probes_eq, h.length, h.hashes, h.slots]
  cases op with
  | add item =>
    simp only [Plain.call, hprobes]
    exact ⟨h.add _ (h.packed.probes_lt hash item), rfl⟩
  | remove item =>
    have hloop := Stands.remove (p := (f, false)) (q := (c, false)) h rfl _
      (h.packed.probes_lt hash item)
    simp only [Plain.call, hprobes]
    exact ⟨hloop.1, congrArg some hloop.2⟩
  | contains item =>
    simp only [Plain.call, hprobes]
    exact ⟨h, congrArg some (h.contains _ (h.packed.probes_lt hash item))⟩
  | decay shift => exact ⟨h.decay shift, rfl⟩
  | clear => exact ⟨h.clear, rfl⟩

theorem Stands.make (heven : m % 2 = 0) (hm : 2 ≤ m) :
    Stands m k (CountingBloomFilter.make m k) (List.replicate m 0) := by
  refine ⟨.make heven hm, rfl, rfl, ?_⟩
  have hbyte : ∀ i, (List.replicate (m / 2) (0 : UInt8)).getD i 0 = 0 := by
    intro i
    simp only [getD_eq_getElem?_getD, getElem?_replicate]
    split <;> rfl
  have hzero : ∀ s, (CountingBloomFilter.make m k).counter s = 0 := by
    intro s
    rw [← getCounter_eq_zero_iff, getCounter_eq, CountingBloomFilter.make, hbyte]
    split <;> rfl
  refine eq_replicate_iff.mpr ⟨length_decode _, fun n hn => ?_⟩
  obtain ⟨s, -, rfl⟩ := mem_map.mp hn
  exact hzero s

/-- **Packed counters refine plain counters.** Whatever the hash function, the number of hashes and
the even number of slots, every sequence of calls on a new filter returns what it returns on a plain
array of as many counters; the bytes decode to that array; and no item has a slot, or the byte of a
slot, outside of the filter. -/
theorem packed_refines_plain (hash : T → UInt64) {m : Nat} (heven : m % 2 = 0) (hm : 2 ≤ m)
    (k : Nat) (ops : List (Op T)) :
    ∃ f c rs, session (fun f op => some (call hash f op)) (make m k) ops = some (f, rs) ∧
      session (fun c op => some (Plain.call hash k c op)) (List.replicate m 0) ops = some (c, rs) ∧
      f.decode = c ∧ c.length = m ∧ f.bytes.length = m / 2 ∧
      ∀ item, ∀ s ∈ f.probes hash item, s < m ∧ s / 2 < f.bytes.length := by
  have hcall : ∀ (f : CountingBloomFilter) (c : Plain.Counters) (op : Op T), Stands m k f c →
      ∃ f' a c' b, some (call hash f op) = some (f', a) ∧
        some (Plain.call hash k c op) = some (c', b) ∧ a = b ∧ Stands m k f' c' := by
    intro f c op h
    obtain ⟨h', heq⟩ := h.call hash op
    exact ⟨_, _, _, _, rfl, rfl, heq, h'⟩
  obtain ⟨f, rs, c, rs', hf, hc, heq, h⟩ := session_lockstep hcall (.make heven hm) ops
  rw [List.forall₂_eq_eq_eq] at heq
  subst heq
  have hbytes : f.bytes.length = m / 2 := by
    have := h.packed.length
    have := h.slots
    omega
  refine ⟨f, c, rs, hf, hc, h.decode, h.length, hbytes, fun item s hs => ?_⟩
  have hlt := h.packed.probes_lt hash item s hs
  exact ⟨h.slots ▸ hlt, h.packed.byte_lt hlt⟩

/-- Two slots in one byte, and an item that is added more often than a counter can count. -/
theorem packed_refines_plain_oneByte :
    ∃ f c rs,
      session (fun f op => some (call id f op)) (make 2 3)
        (List.replicate 16 (.add 7) ++ [.remove 7, .decay 2, .contains 7]) = some (f, rs) ∧
      session (fun c op => some (Plain.call id 3 c op)) (List.replicate 2 0)
        (List.replicate 16 (.add 7) ++ [.remove 7, .decay 2, .contains 7]) = some (c, rs) ∧
      f.decode = c ∧ c.length = 2 ∧ f.bytes.length = 2 / 2 ∧
      ∀ item, ∀ s ∈ f.probes id item, s < 2 ∧ s / 2 < f.bytes.length :=
  packed_refines_plain id (by decide) (by decide) 3 _

end CountingBloomFilter

end Muses
