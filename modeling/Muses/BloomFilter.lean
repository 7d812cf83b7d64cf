import Mathlib

/-!
# `CountingBloomFilter` — 4-bit counters, two to a byte

The model of `muses/bloom_filter.hpp`. The slot and hash counts come from a floating-point formula
in the constructor and are parameters here; `std::hash` is the parameter `hash`. Hash values are
64-bit words, so `h1 + i * h2` wraps around before it is reduced to a slot.
-/

namespace Muses

structure CountingBloomFilter where
  /-- two counters per byte: even slots in the low nibble, odd slots in the high nibble -/
  bytes : List UInt8
  numSlots : Nat
  numHashes : Nat
  deriving DecidableEq, Repr

namespace CountingBloomFilter

def counterMax : UInt8 := 15

/-- The low nibble of a byte. -/
def lowNibble : UInt8 := 0x0F

def make (numSlots numHashes : Nat) : CountingBloomFilter :=
  ⟨List.replicate (numSlots / 2) 0, numSlots, numHashes⟩

def hashes {T : Type*} (hash : T → UInt64) (item : T) : UInt64 × UInt64 :=
  let h1 := hash item
  let h2 : UInt64 := (h1 * (0x9E3779B97F4A7C15 : UInt64)) ^^^ (h1 >>> (32 : UInt64))
  (h1, if h2 = 0 then 0x517cc1b727220a95 else h2)

def slotOf (f : CountingBloomFilter) (h1 h2 : UInt64) (i : Nat) : Nat :=
  (h1 + UInt64.ofNat i * h2).toNat % f.numSlots

def getCounter (f : CountingBloomFilter) (slot : Nat) : UInt8 :=
  let packed : UInt8 := f.bytes.getD (slot / 2) 0
  if slot % 2 = 0 then packed &&& lowNibble else (packed >>> 4) &&& lowNibble

def setCounter (f : CountingBloomFilter) (slot : Nat) (val : UInt8) : CountingBloomFilter :=
  let packed : UInt8 := f.bytes.getD (slot / 2) 0
  let packed' : UInt8 :=
    if slot % 2 = 0 then (packed &&& (0xF0 : UInt8)) ||| (val &&& lowNibble)
    else (packed &&& lowNibble) ||| ((val &&& lowNibble) <<< (4 : UInt8))
  { f with bytes := f.bytes.set (slot / 2) packed' }

def saturateInc (c : UInt8) : UInt8 := if c ≥ counterMax then counterMax else c + 1

def probes {T : Type*} (f : CountingBloomFilter) (hash : T → UInt64) (item : T) : List Nat :=
  let (h1, h2) := hashes hash item
  (List.range f.numHashes).map (f.slotOf h1 h2)

def add {T : Type*} (f : CountingBloomFilter) (hash : T → UInt64) (item : T) :
    CountingBloomFilter :=
  (f.probes hash item).foldl (fun f idx => f.setCounter idx (saturateInc (f.getCounter idx))) f

def contains {T : Type*} (f : CountingBloomFilter) (hash : T → UInt64) (item : T) : Bool :=
  (f.probes hash item).all fun idx => f.getCounter idx ≠ 0

def removeAt : CountingBloomFilter × Bool → Nat → CountingBloomFilter × Bool
  | (f, changed), idx =>
      let c := f.getCounter idx
      if c > 0 then (f.setCounter idx (c - 1), true) else (f, changed)

def remove {T : Type*} (f : CountingBloomFilter) (hash : T → UInt64) (item : T) :
    CountingBloomFilter × Bool :=
  (f.probes hash item).foldl removeAt (f, false)

def decayByte (shift : Nat) (packed : UInt8) : UInt8 :=
  let hi : UInt8 := ((packed >>> (4 : UInt8)) &&& lowNibble) >>> UInt8.ofNat shift
  let lo : UInt8 := (packed &&& lowNibble) >>> UInt8.ofNat shift
  (hi <<< (4 : UInt8)) ||| lo

def decay (f : CountingBloomFilter) (shift : Nat) : CountingBloomFilter :=
  if shift = 0 then f
  else if shift ≥ 4 then { f with bytes := f.bytes.map fun _ => 0 }
  else { f with bytes := f.bytes.map (decayByte shift) }

def clear (f : CountingBloomFilter) : CountingBloomFilter :=
  { f with bytes := f.bytes.map fun _ => 0 }

inductive Op (T : Type*) where
  | add (item : T)
  | remove (item : T)
  | contains (item : T)
  | decay (shift : Nat)
  | clear

def call {T : Type*} (hash : T → UInt64) (f : CountingBloomFilter) :
    Op T → CountingBloomFilter × Option Bool
  | .add item => (f.add hash item, none)
  | .remove item => ((f.remove hash item).1, some (f.remove hash item).2)
  | .contains item => (f, some (f.contains hash item))
  | .decay shift => (f.decay shift, none)
  | .clear => (f.clear, none)

end CountingBloomFilter

end Muses
