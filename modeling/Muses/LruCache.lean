import Muses.Core.Recency
import Muses.Core.Run

/-!
# `LruCache` — a bounded cache that drops what was not used for the longest time

The model of `muses/lru_cache.hpp`: a doubly linked list of nodes, the most recently used in front,
and an index from keys to nodes. A node is known by its address, which is what an iterator of
`std::list` is; an operation is `none` when it follows an iterator that points at no node of the
list. Every method runs under the mutex of the cache from its first to its last line, so that the
calls of all threads form one sequence.
-/

namespace Muses

open Muses.Core Function List

structure NodeAllocator where
  new : List Nat → Nat
  new_fresh : ∀ used, new used ∉ used

def NodeAllocator.above : NodeAllocator where
  new used := used.foldr max 0 + 1
  new_fresh used h := absurd (le_max_of_le h le_rfl) (Nat.not_succ_le_self (used.foldr max 0))

structure LruCache.Node (K V : Type*) where
  it : Nat
  key : K
  value : V
  deriving DecidableEq

structure LruCache (K V : Type*) where
  entries : List (LruCache.Node K V)
  index : K → Option Nat
  maxEntries : Nat

namespace LruCache

variable {K V : Type*}

def make (maxEntries : Nat) : LruCache K V := ⟨[], fun _ => none, maxEntries⟩

/-! ## The methods -/

def deref (c : LruCache K V) (it : Nat) : Option (Node K V) := c.entries.find? fun n => n.it = it

def Node.write (it : Nat) (value : V) (n : Node K V) : Node K V :=
  if n.it = it then { n with value } else n

@[simp] theorem Node.key_write (it : Nat) (v : V) (n : Node K V) : (n.write it v).key = n.key := by
  unfold Node.write
  split <;> rfl

@[simp] theorem Node.it_write (it : Nat) (v : V) (n : Node K V) : (n.write it v).it = n.it := by
  unfold Node.write
  split <;> rfl

def assign (c : LruCache K V) (it : Nat) (value : V) : Option (LruCache K V) :=
  (c.deref it).map fun _ => { c with entries := c.entries.map (Node.write it value) }

def promote (c : LruCache K V) (it : Nat) : Option (LruCache K V) :=
  (c.deref it).map fun n => { c with entries := n :: c.entries.filter fun n => n.it ≠ it }

def size (c : LruCache K V) : Nat := c.entries.length

def capacity (c : LruCache K V) : Nat := c.maxEntries

def clear (c : LruCache K V) : LruCache K V := { c with entries := [], index := fun _ => none }

def contains (c : LruCache K V) (key : K) : Bool := (c.index key).isSome

def get (c : LruCache K V) (key : K) : Option (LruCache K V × Option V) :=
  match c.index key with
  | none => some (c, none)
  | some it => do
      let c ← c.promote it
      let n ← c.deref it
      return (c, some n.value)

variable [DecidableEq K]

def evictLruLocked (c : LruCache K V) : LruCache K V :=
  match c.entries.getLast? with
  | none => c
  | some back =>
      { c with entries := c.entries.dropLast, index := update c.index back.key none }

def emplaceFront (A : NodeAllocator) (c : LruCache K V) (key : K) (value : V) : LruCache K V :=
  let it := A.new (c.entries.map Node.it)
  { c with
    entries := ⟨it, key, value⟩ :: c.entries
    index := update c.index key (some it) }

def putLocked (A : NodeAllocator) (c : LruCache K V) (key : K) (value : V) :
    Option (LruCache K V) :=
  if c.maxEntries = 0 then some c
  else match c.index key with
    | some it => do
        let c ← c.assign it value
        c.promote it
    | none =>
        let c := if c.maxEntries ≤ c.size then c.evictLruLocked else c
        some (c.emplaceFront A key value)

def erase (c : LruCache K V) (key : K) : Option (LruCache K V × Bool) :=
  match c.index key with
  | none => some (c, false)
  | some it =>
      (c.deref it).map fun _ =>
        ({ c with
            entries := c.entries.filter fun n => n.it ≠ it
            index := update c.index key none }, true)

/-! ## Calls -/

inductive Op (K V : Type*) where
  | get (key : K)
  | put (key : K) (value : V)
  | contains (key : K)
  | erase (key : K)
  | clear
  | size

inductive Result (V : Type*) where
  | done
  | value (found : Option V)
  | flag (b : Bool)
  | count (n : Nat)
  deriving DecidableEq

def call (A : NodeAllocator) (c : LruCache K V) : Op K V → Option (LruCache K V × Result V)
  | .get key => (c.get key).map fun (c, found) => (c, .value found)
  | .put key value => (c.putLocked A key value).map fun c => (c, .done)
  | .contains key => some (c, .flag (c.contains key))
  | .erase key => (c.erase key).map fun (c, b) => (c, .flag b)
  | .clear => some (c.clear, .done)
  | .size => some (c, .count c.size)

/-- What a call is to do, to the pairs in the order of their last use: a `get` that hits and a `put`
are uses, a new key in a full cache drops the pair that was not used for the longest time, and a
cache of capacity 0 stays empty. -/
def Reference.call (cap : Nat) (r : Recency K V) : Op K V → Recency K V × Result V
  | .get key => (r.use key, .value (r.find key))
  | .put key value => (if cap = 0 then r else r.put cap key value, .done)
  | .contains key => (r, .flag (r.find key).isSome)
  | .erase key => (r.remove key, .flag (r.find key).isSome)
  | .clear => (.empty, .done)
  | .size => (r, .count r.length)

/-! ## List and index -/

/-- **List and index agree**: no key and no address occurs twice in the list, and the index leads
from a key to an address exactly when that is the address of the node of the key. -/
structure Linked (c : LruCache K V) : Prop where
  keys : (c.entries.map Node.key).Nodup
  its : (c.entries.map Node.it).Nodup
  index_iff : ∀ k it, c.index k = some it ↔ ∃ n ∈ c.entries, n.key = k ∧ n.it = it

def pairs (c : LruCache K V) : List (K × V) := c.entries.map fun n => (n.key, n.value)

omit [DecidableEq K] in
theorem Linked.make (cap : Nat) : (LruCache.make cap : LruCache K V).Linked :=
  ⟨.nil, .nil, by simp [LruCache.make]⟩

section Linked

variable {c : LruCache K V} {k : K} {it : Nat}

omit [DecidableEq K] in
theorem Linked.deref (h : c.Linked) (hk : c.index k = some it) :
    ∃ n ∈ c.entries, n.key = k ∧ n.it = it ∧ c.deref it = some n := by
  obtain ⟨n, hn, hkey, hit⟩ := (h.index_iff k it).mp hk
  have hsome : (c.deref it).isSome := by
    rw [LruCache.deref, find?_isSome]
    exact ⟨n, hn, by simpa using hit⟩
  obtain ⟨m, hm⟩ := Option.isSome_iff_exists.mp hsome
  have hit' : m.it = it := by simpa using find?_some hm
  have heq : m = n :=
    inj_on_of_nodup_map h.its (mem_of_find?_eq_some hm) hn (hit'.trans hit.symm)
  exact ⟨n, hn, hkey, hit, heq ▸ hm⟩

omit [DecidableEq K] in
theorem Linked.index_eq_none_iff (h : c.Linked) : c.index k = none ↔ ∀ e ∈ c.pairs, e.1 ≠ k := by
  simp only [Option.eq_none_iff_forall_ne_some, ne_eq, h.index_iff, LruCache.pairs, mem_map]
  constructor
  · rintro hnone e ⟨n, hn, rfl⟩ hkey
    exact hnone n.it ⟨n, hn, hkey, rfl⟩
  · rintro hnone it ⟨n, hn, hkey, -⟩
    exact hnone _ ⟨n, hn, rfl⟩ hkey

theorem Linked.filter_it (h : c.Linked) (hk : c.index k = some it) :
    (c.entries.filter fun n => n.it ≠ it) = c.entries.filter fun n => n.key ≠ k := by
  obtain ⟨n, hn, rfl, rfl⟩ := (h.index_iff k it).mp hk
  refine filter_congr fun m hm => ?_
  have hiff : m.it = n.it ↔ m.key = n.key :=
    ⟨fun heq => congrArg _ (inj_on_of_nodup_map h.its hm hn heq),
      fun heq => congrArg _ (inj_on_of_nodup_map h.keys hm hn heq)⟩
  simp [hiff]

theorem Linked.promote (h : c.Linked) (hk : c.index k = some it) :
    ∃ n, c.deref it = some n ∧ n.key = k ∧ n.it = it ∧
      c.promote it = some { c with entries := n :: c.entries.filter fun n => n.key ≠ k } ∧
      ({ c with entries := n :: c.entries.filter fun n => n.key ≠ k } : LruCache K V).Linked := by
  obtain ⟨n, hn, hkey, hit, hderef⟩ := h.deref hk
  have hfilter := h.filter_it hk
  refine ⟨n, hderef, hkey, hit, by rw [LruCache.promote, hderef, hfilter, Option.map_some], ?_⟩
  refine ⟨?_, ?_, fun k' it' => (h.index_iff k' it').trans ?_⟩
  · refine nodup_cons.mpr ⟨?_, h.keys.sublist (filter_sublist.map _)⟩
    simp [hkey]
  · refine nodup_cons.mpr ⟨?_, h.its.sublist (filter_sublist.map _)⟩
    rw [← hfilter]
    simp [hit]
  · -- the same nodes as before
    have hmem : ∀ m, m ∈ n :: (c.entries.filter fun n => n.key ≠ k) ↔ m ∈ c.entries := by
      intro m
      rw [mem_cons, mem_filter]
      constructor
      · rintro (rfl | hm)
        · exact hn
        · exact hm.1
      · intro hm
        rcases eq_or_ne m.key k with heq | hne
        · exact .inl (inj_on_of_nodup_map h.keys hm hn (heq.trans hkey.symm))
        · exact .inr ⟨hm, by simpa using hne⟩
    simp only [hmem]

theorem Linked.drop (h : c.Linked) (hk : c.index k = some it) :
    ({ c with
        entries := c.entries.filter fun n => n.it ≠ it
        index := update c.index k none } : LruCache K V).Linked := by
  rw [h.filter_it hk]
  refine ⟨h.keys.sublist (filter_sublist.map _), h.its.sublist (filter_sublist.map _), ?_⟩
  intro k' it'
  rcases eq_or_ne k' k with rfl | hne
  · simp only [update_self]
    constructor
    · nofun
    · rintro ⟨n, hn, rfl, -⟩
      simp at hn
  · simp only [update_of_ne hne, h.index_iff, mem_filter]
    constructor
    · rintro ⟨n, hn, rfl, rfl⟩
      exact ⟨n, ⟨hn, by simpa using hne⟩, rfl, rfl⟩
    · rintro ⟨n, ⟨hn, -⟩, rfl, rfl⟩
      exact ⟨n, hn, rfl, rfl⟩

theorem Linked.assign (h : c.Linked) (hk : c.index k = some it) (v : V) :
    ∃ c', c.assign it v = some c' ∧ c'.Linked ∧ c'.index = c.index ∧
      c'.maxEntries = c.maxEntries ∧ (∀ n ∈ c'.entries, n.it = it → n.value = v) ∧
      (c'.entries.filter fun n => n.key ≠ k) = c.entries.filter fun n => n.key ≠ k := by
  obtain ⟨n, -, -, -, hderef⟩ := h.deref hk
  have hlinked : ({ c with entries := c.entries.map (Node.write it v) } : LruCache K V).Linked := by
    refine ⟨?_, ?_, fun k' it' => (h.index_iff k' it').trans ?_⟩
    · simpa [comp_def] using h.keys
    · simpa [comp_def] using h.its
    · simp
  refine ⟨_, by rw [LruCache.assign, hderef, Option.map_some], hlinked, rfl, rfl, ?_, ?_⟩
  · intro m hm hit
    obtain ⟨m, -, rfl⟩ := mem_map.mp hm
    rw [Node.it_write] at hit
    simp [Node.write, hit]
  · -- the other nodes are not written
    rw [← h.filter_it hk, ← hlinked.filter_it hk, filter_map]
    simp only [comp_def, Node.it_write]
    refine (map_congr_left fun m hm => ?_).trans (map_id _)
    have hne : m.it ≠ it := by simpa using (mem_filter.mp hm).2
    exact if_neg hne

theorem Linked.emplaceFront (h : c.Linked) (hk : c.index k = none) (A : NodeAllocator) (v : V) :
    (c.emplaceFront A k v).Linked := by
  have hkeys : ∀ n ∈ c.entries, n.key ≠ k := fun n hn =>
    h.index_eq_none_iff.mp hk _ (mem_map_of_mem hn)
  refine ⟨nodup_cons.mpr ⟨?_, h.keys⟩, nodup_cons.mpr ⟨A.new_fresh _, h.its⟩, ?_⟩
  · simpa using hkeys
  · intro k' it'
    rcases eq_or_ne k' k with rfl | hne
    · simp only [LruCache.emplaceFront, update_self, Option.some.injEq]
      constructor
      · rintro rfl
        exact ⟨_, mem_cons_self, rfl, rfl⟩
      · rintro ⟨n, hn, hkey, rfl⟩
        rcases mem_cons.mp hn with rfl | hn
        · rfl
        · exact absurd hkey (hkeys n hn)
    · simp [LruCache.emplaceFront, update_of_ne hne, h.index_iff, hne.symm]

theorem Linked.evictLruLocked (h : c.Linked) :
    c.evictLruLocked.Linked ∧ c.evictLruLocked.pairs = c.pairs.dropLast ∧
      c.evictLruLocked.maxEntries = c.maxEntries := by
  unfold LruCache.evictLruLocked
  split
  case h_1 hlast =>
    have hnil := getLast?_eq_none_iff.mp hlast
    exact ⟨h, by simp [LruCache.pairs, hnil], rfl⟩
  case h_2 back hlast =>
    obtain ⟨front, hentries⟩ := getLast?_eq_some_iff.mp hlast
    have hindex : c.index back.key = some back.it :=
      (h.index_iff _ _).mpr ⟨back, by simp [hentries], rfl, rfl⟩
    have hits := h.its
    have hfront : (c.entries.filter fun n => n.it ≠ back.it) = c.entries.dropLast := by
      rw [hentries, map_append, nodup_append] at hits
      have hne : ∀ n ∈ front, n.it ≠ back.it := fun n hn =>
        hits.2.2 _ (mem_map_of_mem hn) _ (by simp)
      rw [hentries, filter_append, dropLast_concat,
        filter_eq_self.mpr fun n hn => by simpa using hne n hn]
      simp
    have hdrop := h.drop hindex
    rw [hfront] at hdrop
    exact ⟨hdrop, map_dropLast, rfl⟩

end Linked

/-! ## The reference -/

theorem Reference.length_call_le {cap : Nat} {r : Recency K V} (h : r.length ≤ cap) (op : Op K V) :
    (Reference.call cap r op).1.length ≤ cap := by
  cases op with
  | get key => exact (r.length_use key).trans_le h
  | put key value =>
    simp only [Reference.call]
    split
    case isTrue => exact h
    case isFalse hcap => exact Recency.length_put_le h (Nat.pos_of_ne_zero hcap) key value
  | erase key => exact le_trans filter_sublist.length_le h
  | clear => exact Nat.zero_le cap
  | contains _ | size => exact h

/-- The linked list and the map hold the pairs of `r`, in its order. -/
structure Refines (cap : Nat) (c : LruCache K V) (r : Recency K V) : Prop where
  linked : c.Linked
  pairs : c.pairs = r.pairs
  capacity : c.capacity = cap
  length_le : r.length ≤ cap

section Refines

variable {cap : Nat} {c : LruCache K V} {r : Recency K V} {k : K} {it : Nat}

omit [DecidableEq K] in
theorem Refines.size (h : Refines cap c r) : c.size = r.length := by
  rw [Recency.length, ← h.pairs, LruCache.pairs, length_map, LruCache.size]

omit [DecidableEq K] in
theorem Refines.map_filter (h : Refines cap c r) (p : K → Bool) :
    ((c.entries.filter fun n => p n.key).map fun n => (n.key, n.value))
      = r.pairs.filter fun e => p e.1 := by
  rw [← h.pairs, LruCache.pairs, filter_map]
  rfl

theorem Refines.find_none (h : Refines cap c r) (hk : c.index k = none) : r.find k = none := by
  rw [Recency.find_eq_none_iff, ← h.pairs]
  exact h.linked.index_eq_none_iff.mp hk

theorem Refines.find_some (h : Refines cap c r) (hk : c.index k = some it) {n : Node K V}
    (hn : c.deref it = some n) : r.find k = some n.value := by
  obtain ⟨m, hm, rfl, -, hderef⟩ := h.linked.deref hk
  rw [hderef] at hn
  cases hn
  rw [← Recency.mem_pairs_iff, ← h.pairs]
  exact mem_map_of_mem hm

theorem Refines.isSome_find (h : Refines cap c r) (k : K) : (r.find k).isSome = c.contains k := by
  unfold LruCache.contains
  cases hk : c.index k with
  | none => rw [h.find_none hk, Option.isSome_none, Option.isSome_none]
  | some it =>
    obtain ⟨n, -, -, -, hderef⟩ := h.linked.deref hk
    rw [h.find_some hk hderef, Option.isSome_some, Option.isSome_some]

theorem Refines.emplaceFront (h : Refines cap c r) (A : NodeAllocator) (v : V)
    (hk : c.index k = none) (hle : (r.touch k v).length ≤ cap) :
    Refines cap (c.emplaceFront A k v) (r.touch k v) := by
  refine ⟨h.linked.emplaceFront hk A v, ?_, h.capacity, hle⟩
  show (k, v) :: c.pairs = (k, v) :: (r.remove k).pairs
  rw [Recency.pairs_remove_of_none (h.find_none hk), h.pairs]

theorem Refines.get (h : Refines cap c r) (k : K) :
    ∃ c', c.get k = some (c', r.find k) ∧ Refines cap c' (r.use k) := by
  have hle := (r.length_use k).trans_le h.length_le
  cases hk : c.index k with
  | none =>
    have hnone := h.find_none hk
    rw [Recency.use_of_none hnone, hnone]
    exact ⟨c, by simp [LruCache.get, hk], h⟩
  | some it =>
    obtain ⟨n, hderef, hkey, hit, hpromote, hlinked⟩ := h.linked.promote hk
    have hfind := h.find_some hk hderef
    rw [Recency.use_of_some hfind] at hle ⊢
    rw [hfind]
    refine ⟨_, ?_, hlinked, ?_, h.capacity, hle⟩
    · simp [LruCache.get, hk, hpromote, LruCache.deref, hit]
    · show (n.key, n.value) :: _ = _
      rw [hkey, h.map_filter fun k' => k' ≠ k]
      rfl

theorem Refines.put (h : Refines cap c r) (A : NodeAllocator) (k : K) (v : V) :
    ∃ c', c.putLocked A k v = some c' ∧
      Refines cap c' (if cap = 0 then r else r.put cap k v) := by
  have hle := Reference.length_call_le h.length_le (.put k v)
  have hcap : c.maxEntries = cap := h.capacity
  simp only [Reference.call, putLocked, hcap] at hle ⊢
  split
  case isTrue => exact ⟨c, rfl, h⟩
  case isFalse hpos =>
    rw [if_neg hpos] at hle
    cases hk : c.index k with
    | some it =>
      obtain ⟨_, -, -, -, hfound⟩ := h.linked.deref hk
      rw [Recency.put_of_some (h.find_some hk hfound)] at hle ⊢
      obtain ⟨c₁, hassign, hlinked₁, hindex, hmax, hvalue, hrest⟩ := h.linked.assign hk v
      obtain ⟨n, hderef, hkey, hit, hpromote, hlinked⟩ := hlinked₁.promote (hindex ▸ hk)
      refine ⟨_, by simp [hassign, hpromote], hlinked, ?_, hmax.trans hcap, hle⟩
      show (n.key, n.value) :: _ = _
      rw [hkey, hvalue n (mem_of_find?_eq_some hderef) hit, hrest,
        h.map_filter fun k' => k' ≠ k]
      rfl
    | none =>
      have hnone := h.find_none hk
      refine ⟨_, rfl, ?_⟩
      split
      case isTrue hfull =>
        rw [h.size] at hfull
        rw [Recency.put_of_full hnone (by omega)] at hle ⊢
        obtain ⟨hevict, hpairs, hmax⟩ := h.linked.evictLruLocked
        refine Refines.emplaceFront ⟨hevict, ?_, hmax.trans hcap, ?_⟩ A v ?_ hle
        · rw [hpairs, h.pairs]
          rfl
        · exact le_trans (dropLast_sublist _).length_le h.length_le
        · rw [hevict.index_eq_none_iff, hpairs]
          intro e he
          exact h.linked.index_eq_none_iff.mp hk e ((dropLast_sublist _).subset he)
      case isFalse hroom =>
        rw [h.size] at hroom
        rw [Recency.put_of_lt (by omega)] at hle ⊢
        exact h.emplaceFront A v hk hle

theorem Refines.erase (h : Refines cap c r) (k : K) :
    ∃ c', c.erase k = some (c', (r.find k).isSome) ∧ Refines cap c' (r.remove k) := by
  have hle : (r.remove k).length ≤ cap := Reference.length_call_le h.length_le (.erase k)
  simp only [LruCache.erase, h.isSome_find, LruCache.contains]
  cases hk : c.index k with
  | none =>
    refine ⟨c, rfl, h.linked, ?_, h.capacity, hle⟩
    rw [Recency.pairs_remove_of_none (h.find_none hk)]
    exact h.pairs
  | some it =>
    obtain ⟨n, -, -, -, hderef⟩ := h.linked.deref hk
    simp only [hderef, Option.map_some]
    refine ⟨_, rfl, h.linked.drop hk, ?_, h.capacity, hle⟩
    rw [LruCache.pairs, h.linked.filter_it hk]
    exact h.map_filter fun k' => k' ≠ k

/-- **One call does what it is to do**, and follows no dangling iterator. -/
theorem Refines.call (h : Refines cap c r) (A : NodeAllocator) (op : Op K V) :
    ∃ c', c.call A op = some (c', (Reference.call cap r op).2) ∧
      Refines cap c' (Reference.call cap r op).1 := by
  cases op with
  | get k =>
    obtain ⟨c', hget, h'⟩ := h.get k
    exact ⟨c', by simp [LruCache.call, hget, Reference.call], h'⟩
  | put k v =>
    obtain ⟨c', hput, h'⟩ := h.put A k v
    exact ⟨c', by simp [LruCache.call, hput, Reference.call], h'⟩
  | contains k => exact ⟨c, by simp [LruCache.call, Reference.call, h.isSome_find], h⟩
  | erase k =>
    obtain ⟨c', herase, h'⟩ := h.erase k
    exact ⟨c', by simp [LruCache.call, herase, Reference.call], h'⟩
  | clear => exact ⟨c.clear, rfl, ⟨.nil, .nil, by simp [clear]⟩, rfl, h.capacity, Nat.zero_le _⟩
  | size => exact ⟨c, by simp [LruCache.call, Reference.call, h.size], h⟩

omit [DecidableEq K] in
theorem Refines.make (cap : Nat) : Refines cap (LruCache.make cap : LruCache K V) .empty :=
  ⟨.make cap, rfl, rfl, Nat.zero_le cap⟩

def Reference.session (cap : Nat) (r : Recency K V) (ops : List (Op K V)) :
    Option (Recency K V × List (Result V)) :=
  Core.session (fun r op => some (Reference.call cap r op)) r ops

theorem Refines.session (h : Refines cap c r) (A : NodeAllocator) (ops : List (Op K V)) :
    ∃ c' r' rs, session (LruCache.call A) c ops = some (c', rs) ∧
      Reference.session cap r ops = some (r', rs) ∧ Refines cap c' r' := by
  have hcall : ∀ (c : LruCache K V) (r : Recency K V) (op : Op K V), Refines cap c r →
      ∃ c' a r' b, LruCache.call A c op = some (c', a) ∧
        some (Reference.call cap r op) = some (r', b) ∧ a = b ∧ Refines cap c' r' := by
    intro c r op h
    obtain ⟨c', hcall, h'⟩ := h.call A op
    exact ⟨c', _, _, _, hcall, rfl, rfl, h'⟩
  obtain ⟨c', rs, r', rs', hrun, href, heq, h'⟩ := session_lockstep hcall h ops
  rw [List.forall₂_eq_eq_eq] at heq
  exact ⟨c', r', rs, hrun, heq ▸ href, h'⟩

end Refines

/-- **The cache refines its reference.** Whatever the allocator and the capacity, every sequence of
calls on a new cache runs to its end, never along a dangling iterator; list and index then hold the
same keys, the cache holds no more than its capacity, and all results, and the pairs that are left,
are those of the reference. -/
theorem lru_refines_reference (A : NodeAllocator) (cap : Nat) (ops : List (Op K V)) :
    ∃ c r rs, session (call A) (make cap) ops = some (c, rs) ∧
      Reference.session cap .empty ops = some (r, rs) ∧
      c.Linked ∧ c.pairs = r.pairs ∧ c.capacity = cap ∧ c.size ≤ c.capacity := by
  obtain ⟨c, r, rs, hrun, href, h⟩ := (Refines.make cap).session A ops
  exact ⟨c, r, rs, hrun, href, h.linked, h.pairs, h.capacity, by
    rw [h.size, h.capacity]
    exact h.length_le⟩

/-! ## Two capacities -/

/-- What the larger cache answers, where the smaller one finds something, is the same. -/
def Result.Under : Result V → Result V → Prop
  | .done, .done => True
  | .value found, .value found' => ∀ v, found = some v → found' = some v
  | .flag b, .flag b' => b = true → b' = true
  | .count n, .count n' => n ≤ n'
  | _, _ => False

/-- A smaller cache beside a larger one, after the same calls. -/
structure Beside (c C : Nat) (r R : Recency K V) : Prop where
  under : r.Under c C R
  small : r.length ≤ c
  large : R.length ≤ C

omit [DecidableEq K] in
theorem Beside.under_of_zero {C : Nat} {r R R' : Recency K V} (h : Beside 0 C r R)
    (hle : R'.length ≤ C) : r.Under 0 C R' := by
  have hnil : r.pairs = [] := eq_nil_of_length_eq_zero (Nat.le_zero.mp h.small)
  refine ⟨?_, ?_⟩
  · rw [hnil]
    exact nil_sublist _
  · omega

theorem Beside.call {c C : Nat} {r R : Recency K V} (h : Beside c C r R) (op : Op K V) :
    (Reference.call c r op).2.Under (Reference.call C R op).2 ∧
      Beside c C (Reference.call c r op).1 (Reference.call C R op).1 := by
  have hsmall := Reference.length_call_le h.small op
  have hlarge := Reference.length_call_le h.large op
  cases op with
  | get key => exact ⟨fun _ => h.under.find, h.under.use key, hsmall, hlarge⟩
  | put key value =>
    refine ⟨trivial, ?_, hsmall, hlarge⟩
    have hslack := h.under.slack
    have hlen : r.length ≤ R.length := h.under.sublist.length_le
    rcases Nat.eq_zero_or_pos c with rfl | hc
    · exact h.under_of_zero hlarge
    · simp only [Reference.call]
      rw [if_neg (by omega), if_neg (by omega)]
      exact h.under.put hc key value
  | contains key =>
    refine ⟨fun hfound => ?_, h⟩
    obtain ⟨v, hv⟩ := Option.isSome_iff_exists.mp hfound
    exact Option.isSome_iff_exists.mpr ⟨v, h.under.find hv⟩
  | erase key =>
    refine ⟨fun hfound => ?_, h.under.remove key, hsmall, hlarge⟩
    obtain ⟨v, hv⟩ := Option.isSome_iff_exists.mp hfound
    exact Option.isSome_iff_exists.mpr ⟨v, h.under.find hv⟩
  | clear =>
    have hle : c ≤ C := by
      have hslack := h.under.slack
      have hlen : r.length ≤ R.length := h.under.sublist.length_le
      omega
    exact ⟨trivial, .empty hle, hsmall, hlarge⟩
  | size => exact ⟨h.under.sublist.length_le, h⟩

/-- The pair is cached. -/
def Holds (c : LruCache K V) (k : K) (v : V) : Prop := (k, v) ∈ c.pairs

/-- **A larger cache never does worse.** The same calls on two new caches, one of capacity `c` and
one of capacity `C ≥ c`: all that the first one holds then, the second one holds with the same
value, and each call that found something in the first one found it in the second one. -/
theorem larger_cache_holds_more (A B : NodeAllocator) {c C : Nat} (hle : c ≤ C)
    (ops : List (Op K V)) :
    ∃ s l rs ls, session (call A) (make c) ops = some (s, rs) ∧
      session (call B) (make C) ops = some (l, ls) ∧
      (∀ k v, s.Holds k v → l.Holds k v) ∧ List.Forall₂ Result.Under rs ls := by
  obtain ⟨s, r, rs, hs, hr, hsr⟩ := (Refines.make c).session A ops
  obtain ⟨l, R, ls, hl, hR, hlR⟩ := (Refines.make C).session B ops
  have hcall : ∀ (r R : Recency K V) (op : Op K V), Beside c C r R →
      ∃ r' a R' b, some (Reference.call c r op) = some (r', a) ∧
        some (Reference.call C R op) = some (R', b) ∧ a.Under b ∧ Beside c C r' R' :=
    fun r R op h => ⟨_, _, _, _, rfl, rfl, h.call op⟩
  obtain ⟨r', rs', R', ls', hr', hR', hresults, h⟩ :=
    session_lockstep hcall ⟨.empty hle, Nat.zero_le c, Nat.zero_le C⟩ ops
  cases hr.symm.trans hr'
  cases hR.symm.trans hR'
  refine ⟨s, l, rs, ls, hs, hl, fun k v => ?_, hresults⟩
  unfold Holds
  rw [hsr.pairs, hlR.pairs]
  exact fun hmem => h.under.sublist.subset hmem

/-- Key 1 is read before key 3 comes in: the cache of capacity 2 keeps it, the one of capacity 1 had
lost it. -/
theorem larger_cache_keeps_read_key :
    ∃ s l : LruCache Nat Nat, ∃ rs ls,
      session (call .above) (make 1) [.put 1 10, .put 2 20, .get 1, .put 3 30] = some (s, rs) ∧
      session (call .above) (make 2) [.put 1 10, .put 2 20, .get 1, .put 3 30] = some (l, ls) ∧
      (∀ k v, s.Holds k v → l.Holds k v) ∧ List.Forall₂ Result.Under rs ls :=
  larger_cache_holds_more .above .above (by decide) _

end LruCache

end Muses
