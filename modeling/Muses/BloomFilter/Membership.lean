import Muses.BloomFilter.Plain

/-!
# What the filter says of its items

A history of `add` and `remove` leaves every item with a net count, and every slot with a load: each
item loads a slot once for each of its probes that hits it. As long as no load is more than a
counter can hold, the counters are the loads; with adds only, they are the loads cut off at 15.
-/

namespace Muses

open Muses.Core List

namespace CountingBloomFilter

inductive Event (T : Type*) where
  | add (item : T)
  | remove (item : T)
  deriving DecidableEq

variable {T : Type*} {m k s : Nat}

namespace Event

def item : Event T → T
  | .add x => x
  | .remove x => x

def op : Event T → Op T
  | .add x => .add x
  | .remove x => .remove x

def sign : Event T → Int
  | .add _ => 1
  | .remove _ => -1

end Event

def after (hash : T → UInt64) (m k : Nat) (h : List (Event T)) : CountingBloomFilter :=
  h.foldl (fun f e => (f.call hash e.op).1) (make m k)

/-! ## Counts and loads -/

section Loads

variable [DecidableEq T]

def net (h : List (Event T)) (x : T) : Int := h.count (.add x) - h.count (.remove x)

def hits (hash : T → UInt64) (m k s : Nat) (x : T) : Nat := (Plain.probes hash k m x).count s

def load (hash : T → UInt64) (m k : Nat) (h : List (Event T)) (s : Nat) : Int :=
  ∑ x ∈ (h.map Event.item).toFinset, net h x * hits hash m k s x

theorem net_cons (e : Event T) (h : List (Event T)) (x : T) :
    net (e :: h) x = (if x = e.item then e.sign else 0) + net h x := by
  cases e with
  | add y =>
    by_cases hx : x = y
    · subst hx
      simp [net, Event.item, Event.sign]
      omega
    · simp [net, Event.item, hx, Ne.symm hx]
  | remove y =>
    by_cases hx : x = y
    · subst hx
      simp [net, Event.item, Event.sign]
      omega
    · simp [net, Event.item, hx, Ne.symm hx]

theorem sum_net (h : List (Event T)) (w : T → Int) {S : Finset T} (hS : ∀ e ∈ h, e.item ∈ S) :
    ∑ x ∈ S, net h x * w x = (h.map fun e => e.sign * w e.item).sum := by
  induction h with
  | nil => simp [net]
  | cons e h ih =>
    have hrest := ih fun e' he' => hS e' (mem_cons_of_mem e he')
    simp only [net_cons, add_mul, Finset.sum_add_distrib, hrest, map_cons, sum_cons,
      ite_mul, zero_mul, Finset.sum_ite_eq', hS e mem_cons_self, if_true]

theorem load_eq_sum (hash : T → UInt64) (m k : Nat) (h : List (Event T)) (s : Nat) :
    load hash m k h s = (h.map fun e => e.sign * (hits hash m k s e.item : Int)).sum :=
  sum_net h _ fun _ he => mem_toFinset.mpr (mem_map_of_mem he)

/-- **One more event** loads the slots of its item, or takes that load off again. -/
theorem load_concat (hash : T → UInt64) (m k : Nat) (h : List (Event T)) (e : Event T) (s : Nat) :
    load hash m k (h ++ [e]) s = load hash m k h s + e.sign * hits hash m k s e.item := by
  simp [load_eq_sum]

theorem load_le (hash : T → UInt64) (m k : Nat) (h : List (Event T)) (s : Nat) :
    load hash m k h s ≤ h.length * k := by
  rw [load_eq_sum]
  induction h with
  | nil => simp
  | cons e h ih =>
    have hhits : hits hash m k s e.item ≤ k :=
      le_of_le_of_eq count_le_length (by simp [Plain.probes])
    have hsign : e.sign * (hits hash m k s e.item : Int) ≤ k := by
      cases e with
      | add x => simpa [Event.sign] using hhits
      | remove x => simp only [Event.sign]; omega
    rw [map_cons, sum_cons, length_cons]
    push_cast
    linarith

theorem net_concat (h : List (Event T)) (e : Event T) (x : T) :
    net (h ++ [e]) x = net h x + if x = e.item then e.sign else 0 := by
  have hperm : net (h ++ [e]) x = net (e :: h) x := by
    simp only [net, (perm_append_singleton e h).count_eq]
  rw [hperm, net_cons, add_comm]

variable {h : List (Event T)}

theorem net_mul_hits_le_load (hash : T → UInt64) (m k : Nat) (hnet : ∀ x, 0 ≤ net h x) (s : Nat)
    (x : T) : net h x * hits hash m k s x ≤ load hash m k h s := by
  by_cases hx : x ∈ (h.map Event.item).toFinset
  · exact Finset.single_le_sum
      (f := fun x => net h x * (hits hash m k s x : Int))
      (fun y _ => mul_nonneg (hnet y) (Int.natCast_nonneg _)) hx
  · have hzero : net h x = 0 := by
      have hadd : Event.add x ∉ h := fun he =>
        hx (mem_toFinset.mpr (mem_map.mpr ⟨_, he, rfl⟩))
      have hremove : Event.remove x ∉ h := fun he =>
        hx (mem_toFinset.mpr (mem_map.mpr ⟨_, he, rfl⟩))
      simp [net, count_eq_zero_of_not_mem, hadd, hremove]
    rw [hzero, zero_mul]
    exact Finset.sum_nonneg fun y _ => mul_nonneg (hnet y) (Int.natCast_nonneg _)

/-- **A history that the counters can follow**: an item is removed only while its net count is
positive, and no load is ever over 15. -/
structure Fits (hash : T → UInt64) (m k : Nat) (h : List (Event T)) : Prop where
  present : ∀ p x, p ++ [.remove x] <+: h → 0 < net p x
  bounded : ∀ p, p <+: h → ∀ s, load hash m k p s ≤ 15

theorem Fits.of_prefix {hash : T → UInt64} {p : List (Event T)} (hfits : Fits hash m k h)
    (hp : p <+: h) : Fits hash m k p :=
  ⟨fun q x hq => hfits.present q x (hq.trans hp), fun q hq => hfits.bounded q (hq.trans hp)⟩

theorem Fits.net_nonneg {hash : T → UInt64} (hfits : Fits hash m k h) (x : T) : 0 ≤ net h x := by
  induction h using List.reverseRecOn with
  | nil => simp [net]
  | append_singleton h e ih =>
    have hbefore := ih (hfits.of_prefix (prefix_append h [e]))
    rw [net_concat]
    by_cases heq : x = e.item
    · rw [if_pos heq]
      cases e with
      | add y => exact add_nonneg hbefore zero_le_one
      | remove y =>
        have hpos := hfits.present h y prefix_rfl
        rw [heq]
        show 0 ≤ net h y + -1
        omega
    · rwa [if_neg heq, add_zero]

end Loads

/-! ## The counters of a plain filter -/

namespace Plain

theorem getD_modify (c : Counters) (t : Nat) (g : Fin 16 → Fin 16) (hs : s < c.length) :
    (c.modify t g).getD s 0 = if t = s then g (c.getD s 0) else c.getD s 0 := by
  simp [getD_eq_getElem?_getD, hs, getElem_modify]

/-- The slots of an item one higher each: a counter rises by the number of times it is among them,
to 15 at most. -/
theorem getD_add (c : Counters) (slots : List Nat) (hs : s < c.length) :
    ((add c slots).getD s 0).val = min 15 ((c.getD s 0).val + slots.count s) := by
  induction slots generalizing c with
  | nil =>
    have := (c.getD s 0).isLt
    simp only [add, foldl_nil, count_nil]
    omega
  | cons t slots ih =>
    have hrest := ih (c.modify t increment) (by simpa using hs)
    rw [getD_modify c t increment hs] at hrest
    show ((add (c.modify t increment) slots).getD s 0).val = _
    rw [hrest, count_cons]
    by_cases heq : t = s
    · simp only [heq, if_true, beq_self_eq_true, increment]
      omega
    · simp [heq]

/-- The slots of an item one lower each: a counter falls by the number of times it is among them, to
zero at least. -/
theorem getD_remove (q : Counters × Bool) (slots : List Nat) (hs : s < q.1.length) :
    ((slots.foldl removeAt q).1.getD s 0).val = (q.1.getD s 0).val - slots.count s := by
  induction slots generalizing q with
  | nil => simp
  | cons t slots ih =>
    have hrest := ih (removeAt q t) (by simpa [removeAt] using hs)
    rw [foldl_cons, hrest, count_cons]
    show ((q.1.modify t decrement).getD s 0).val - _ = _
    rw [getD_modify q.1 t decrement hs]
    by_cases heq : t = s
    · simp only [heq, if_true, beq_self_eq_true, decrement]
      omega
    · simp [heq]

def after (hash : T → UInt64) (m k : Nat) (h : List (Event T)) : Counters :=
  h.foldl (fun c e => (call hash k c e.op).1) (List.replicate m 0)

theorem after_concat (hash : T → UInt64) (m k : Nat) (h : List (Event T)) (e : Event T) :
    after hash m k (h ++ [e]) = (call hash k (after hash m k h) e.op).1 := foldl_concat ..

end Plain

theorem stands_after (hash : T → UInt64) (heven : m % 2 = 0) (hm : 2 ≤ m) (k : Nat)
    (h : List (Event T)) : Stands m k (after hash m k h) (Plain.after hash m k h) := by
  induction h using List.reverseRecOn with
  | nil => exact .make heven hm
  | append_singleton h e ih =>
    rw [Plain.after_concat, after, foldl_concat]
    exact (ih.call hash e.op).1

theorem Stands.unique {f g : CountingBloomFilter} {c : Plain.Counters} (hf : Stands m k f c)
    (hg : Stands m k g c) : f = g := by
  have hcounter : ∀ s < m, f.getCounter s = g.getCounter s := by
    intro s hs
    have heq : f.counter s = g.counter s := by
      rw [← getD_decode (hf.slots ▸ hs), ← getD_decode (hg.slots ▸ hs), hf.decode, hg.decode]
    have hval : (f.counter s).val = (g.counter s).val := by rw [heq]
    exact UInt8.toNat_inj.mp hval
  have hlen := hf.packed.length
  have hlen' := hg.packed.length
  rw [hf.slots] at hlen
  rw [hg.slots] at hlen'
  have hbytes : f.bytes = g.bytes := by
    refine ext_getElem (by omega) fun i hi hi' => ?_
    have hlow := hcounter (2 * i) (by omega)
    have hhigh := hcounter (2 * i + 1) (by omega)
    rw [getCounter_eq, getCounter_eq, if_pos (by omega), if_pos (by omega),
      show 2 * i / 2 = i by omega] at hlow
    rw [getCounter_eq, getCounter_eq, if_neg (by omega), if_neg (by omega),
      show (2 * i + 1) / 2 = i by omega] at hhigh
    rw [getD_eq_getElem _ _ hi, getD_eq_getElem _ _ hi'] at hlow hhigh
    exact Nibble.eq_of_halves hlow hhigh
  obtain ⟨_, _, _⟩ := f
  obtain ⟨_, _, _⟩ := g
  cases hbytes
  cases hf.slots.trans hg.slots.symm
  cases hf.hashes.trans hg.hashes.symm
  rfl

/-! ## Counters and loads -/

section Counters

variable {hash : T → UInt64} {h : List (Event T)}

theorem getCounter_after (heven : m % 2 = 0) (hm : 2 ≤ m) (h : List (Event T)) (hs : s < m) :
    ((after hash m k h).getCounter s).toNat = ((Plain.after hash m k h).getD s 0).val := by
  have hstands := stands_after hash heven hm k h
  rw [← hstands.decode, getD_decode (hs.trans_eq hstands.slots.symm)]
  rfl

theorem getD_after_add (heven : m % 2 = 0) (hm : 2 ≤ m) (hs : s < m) (x : T) :
    ((Plain.after hash m k (h ++ [.add x])).getD s 0).val
      = min 15 (((Plain.after hash m k h).getD s 0).val + hits hash m k s x) := by
  have hlen := (stands_after hash heven hm k h).length
  have hcall : Plain.after hash m k (h ++ [.add x])
      = Plain.add (Plain.after hash m k h) (Plain.probes hash k m x) := by
    rw [Plain.after_concat]
    simp only [Plain.call, Event.op, hlen]
  rw [hcall]
  exact Plain.getD_add _ _ (hs.trans_eq hlen.symm)

theorem getD_after_remove (heven : m % 2 = 0) (hm : 2 ≤ m) (hs : s < m) (x : T) :
    ((Plain.after hash m k (h ++ [.remove x])).getD s 0).val
      = ((Plain.after hash m k h).getD s 0).val - hits hash m k s x := by
  have hlen := (stands_after hash heven hm k h).length
  have hcall : Plain.after hash m k (h ++ [.remove x])
      = (Plain.remove (Plain.after hash m k h) (Plain.probes hash k m x)).1 := by
    rw [Plain.after_concat]
    simp only [Plain.call, Event.op, hlen]
  rw [hcall]
  exact Plain.getD_remove (Plain.after hash m k h, false) _ (hs.trans_eq hlen.symm)

theorem contains_of_load (heven : m % 2 = 0) (hm : 2 ≤ m) (x : T)
    (hload : ∀ s < m, 0 < hits hash m k s x → 0 < ((Plain.after hash m k h).getD s 0).val) :
    (after hash m k h).contains hash x = true := by
  have hstands := stands_after hash heven hm k h
  have hprobes : (after hash m k h).probes hash x = Plain.probes hash k m x := by
    rw [probes_eq, hstands.slots, hstands.hashes]
  have hlt := hstands.packed.probes_lt hash x
  rw [contains, hstands.contains _ hlt, Plain.contains, all_eq_true]
  intro s hs
  rw [hprobes] at hs
  have hpos := hload s (hstands.slots ▸ hlt s (hprobes ▸ hs)) (count_pos_iff.mpr hs)
  simpa using Fin.ne_of_gt (Fin.lt_def.mpr hpos)

theorem after_eq_of_counters (heven : m % 2 = 0) (hm : 2 ≤ m) {h' : List (Event T)}
    (hsame : ∀ s < m, ((Plain.after hash m k h).getD s 0).val
      = ((Plain.after hash m k h').getD s 0).val) : after hash m k h = after hash m k h' := by
  have hstands := stands_after hash heven hm k h
  have hstands' := stands_after hash heven hm k h'
  have heq : Plain.after hash m k h = Plain.after hash m k h' := by
    refine ext_getElem (hstands.length.trans hstands'.length.symm) fun s hs hs' => ?_
    have := hsame s (hstands.length ▸ hs)
    rw [getD_eq_getElem _ _ hs, getD_eq_getElem _ _ hs'] at this
    exact Fin.ext this
  exact hstands.unique (heq ▸ hstands')

variable [DecidableEq T]

/-- **The counters are the loads**, in a history that they can follow. -/
theorem counters_of_fits (heven : m % 2 = 0) (hm : 2 ≤ m) (hfits : Fits hash m k h)
    (hs : s < m) :
    (((Plain.after hash m k h).getD s 0).val : Int) = load hash m k h s := by
  induction h using List.reverseRecOn with
  | nil => simp [Plain.after, load, getD_eq_getElem?_getD, hs]
  | append_singleton h e ih =>
    have hbefore := ih (hfits.of_prefix (prefix_append h [e]))
    have hbound := hfits.bounded (h ++ [e]) prefix_rfl s
    rw [load_concat] at hbound ⊢
    cases e with
    | add x =>
      rw [getD_after_add heven hm hs]
      simp only [Event.item, Event.sign] at hbound ⊢
      omega
    | remove x =>
      -- the item that is removed is part of the load
      have hnet := (hfits.of_prefix (prefix_append h [_])).net_nonneg
      have hpos := hfits.present h x prefix_rfl
      have hle := net_mul_hits_le_load hash m k hnet s x
      have hone : (hits hash m k s x : Int) ≤ net h x * hits hash m k s x :=
        le_mul_of_one_le_left (Int.natCast_nonneg _) hpos
      rw [getD_after_remove heven hm hs]
      simp only [Event.item, Event.sign]
      omega

theorem net_adds (xs : List T) (x : T) : net (xs.map Event.add) x = xs.count x := by
  have hadd : (xs.map Event.add).count (.add x) = xs.count x :=
    count_map_of_injective xs _ (fun _ _ h => Event.add.inj h) x
  have hremove : (xs.map Event.add).count (.remove x) = 0 :=
    count_eq_zero_of_not_mem (by simp)
  rw [net, hadd, hremove]
  omega

theorem load_adds_nonneg (xs : List T) : 0 ≤ load hash m k (xs.map .add) s := by
  rw [load_eq_sum]
  refine sum_nonneg fun n hn => ?_
  obtain ⟨e, he, rfl⟩ := mem_map.mp hn
  obtain ⟨x, -, rfl⟩ := mem_map.mp he
  simp [Event.sign]

/-- **The counters are the loads cut off at 15**, if nothing is ever removed. -/
theorem counters_of_adds (hash : T → UInt64) (heven : m % 2 = 0) (hm : 2 ≤ m) (k : Nat)
    (xs : List T) (hs : s < m) :
    (((Plain.after hash m k (xs.map .add)).getD s 0).val : Int)
      = min 15 (load hash m k (xs.map .add) s) := by
  induction xs using List.reverseRecOn with
  | nil => simp [Plain.after, load, getD_eq_getElem?_getD, hs]
  | append_singleton xs x ih =>
    have hnonneg : 0 ≤ load hash m k (xs.map .add) s := load_adds_nonneg xs
    rw [map_append, map_singleton, getD_after_add heven hm hs, load_concat]
    simp only [Event.item, Event.sign]
    omega

end Counters

/-- **What is in the filter is never denied.** In a history that the counters can follow, every
counter is the load of its slot after every step, an item with a positive net count is found, and
the `remove` right after an `add` brings back the very filter from before. In a history of adds
only, every counter is the load cut off at 15, an added item is found, and the order of the adds
does not matter. -/
theorem bloom_no_false_negatives [DecidableEq T] (hash : T → UInt64) (heven : m % 2 = 0)
    (hm : 2 ≤ m) (k : Nat) :
    (∀ h, Fits hash m k h → ∀ p, p <+: h →
      (∀ s < m, (((after hash m k p).getCounter s).toNat : Int) = load hash m k p s) ∧
      (∀ x, 0 < net p x → (after hash m k p).contains hash x = true) ∧
      (∀ q x, p = q ++ [.add x, .remove x] → after hash m k p = after hash m k q)) ∧
    (∀ xs : List T,
      (∀ s < m, (((after hash m k (xs.map .add)).getCounter s).toNat : Int)
        = min 15 (load hash m k (xs.map .add) s)) ∧
      (∀ x ∈ xs, (after hash m k (xs.map .add)).contains hash x = true) ∧
      (∀ ys, xs.Perm ys → after hash m k (xs.map .add) = after hash m k (ys.map .add))) := by
  refine ⟨fun h hfits p hp => ?_, fun xs => ⟨fun s hs => ?_, fun x hx => ?_, fun ys hperm => ?_⟩⟩
  · have hfits := hfits.of_prefix hp
    refine ⟨fun s hs => ?_, fun x hx => ?_, ?_⟩
    · rw [getCounter_after heven hm p hs]
      exact counters_of_fits heven hm hfits hs
    · refine contains_of_load heven hm x fun s hs hhits => ?_
      have hload := net_mul_hits_le_load hash m k hfits.net_nonneg s x
      have hpos : 0 < net p x * hits hash m k s x := mul_pos hx (by exact_mod_cast hhits)
      have hcounter := counters_of_fits heven hm hfits hs
      omega
    · rintro q x rfl
      refine after_eq_of_counters heven hm fun s hs => ?_
      have hcounter := counters_of_fits heven hm hfits hs
      have hcounter' := counters_of_fits heven hm (hfits.of_prefix (prefix_append q _)) hs
      have hload : load hash m k (q ++ [.add x, .remove x]) s = load hash m k q s := by
        simp [load_eq_sum, Event.sign, Event.item]
      omega
  · rw [getCounter_after heven hm _ hs]
    exact counters_of_adds hash heven hm k xs hs
  · refine contains_of_load heven hm x fun s hs hhits => ?_
    have hnet : ∀ y, 0 ≤ net (xs.map Event.add) y := fun y => by
      rw [net_adds]
      exact Int.natCast_nonneg _
    have hload := net_mul_hits_le_load hash m k hnet s x
    have hpos : 0 < net (xs.map Event.add) x * hits hash m k s x := by
      rw [net_adds]
      exact mul_pos (by exact_mod_cast count_pos_iff.mpr hx) (by exact_mod_cast hhits)
    have hcounter := counters_of_adds hash heven hm k xs hs
    omega
  · refine after_eq_of_counters heven hm fun s hs => ?_
    have hcounter := counters_of_adds hash heven hm k xs hs
    have hcounter' := counters_of_adds hash heven hm k ys hs
    have hload : load hash m k (xs.map .add) s = load hash m k (ys.map .add) s := by
      rw [load_eq_sum, load_eq_sum]
      exact ((hperm.map _).map _).sum_eq
    omega

/-- One item is added twice, with both of its probes in one slot, and removed once. -/
theorem bloom_keeps_twice_added :
    Fits id 2 2 [.add 4, .add 4, .remove 4] ∧
      (after id 2 2 [.add 4, .add 4, .remove 4]).contains id 4 = true := by
  have hfits : Fits id 2 2 [.add (4 : UInt64), .add 4, .remove 4] := by
    constructor
    · intro p x hp
      rcases p with _ | ⟨a, _ | ⟨b, _ | ⟨c, p⟩⟩⟩
      · simp at hp
      · simp at hp
      · simp at hp
        obtain ⟨rfl, rfl, rfl⟩ := hp
        decide
      · simp at hp
    · intro p hp s
      have hlen : p.length ≤ 3 := hp.length_le
      have hload := load_le id 2 2 p s
      omega
  exact ⟨hfits, ((bloom_no_false_negatives id (by decide) (by decide) 2).1 _ hfits _
    prefix_rfl).2.1 4 (by decide)⟩

end CountingBloomFilter

end Muses
