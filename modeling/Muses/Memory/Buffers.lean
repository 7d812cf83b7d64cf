import Muses.Net.Reactor

/-!
# Programs over pooled buffers

Any number of `PooledBuffer` variables on one pool, and what a program does with them. Beside it
stands what the buffers are for: `Op.spec` is the same operation on byte strings, where a variable
without a value is one that was moved from or destroyed.
-/

namespace Muses.PooledBuffer

open Muses.Core

structure Buffers where
  pool : MemoryPool
  vars : List (Option PooledBuffer)

inductive Op where
  | make (G : GlobalAllocator) (initialCap : Nat)
  | append (i : Nat) (G : GlobalAllocator) (src : List UInt8)
  | reserve (i : Nat) (G : GlobalAllocator) (need : Nat)
  | resetForReuse (i : Nat)
  /-- `memmove` and `set_size`, as in `dispatch_to_worker` -/
  | removePrefix (i n : Nat)
  /-- a new variable, moved from `j` -/
  | moveConstruct (j : Nat)
  /-- the assignment `i = std::move(j)` -/
  | moveAssign (i j : Nat)
  | destroy (i : Nat)
  /-- the operation is begun, and `operator new` throws -/
  | throws (a : Op)

namespace Buffers

def start (p : MemoryPool) : Buffers := ⟨p, []⟩

def find (s : Buffers) (i : Nat) : Option PooledBuffer := s.vars[i]?.join

def put (s : Buffers) (i : Nat) (b : PooledBuffer) : Buffers :=
  { s with vars := s.vars.set i (some b) }

def push (s : Buffers) (b : PooledBuffer) : Buffers := { s with vars := s.vars ++ [some b] }

/-- The end of a variable. -/
def drop (s : Buffers) (i : Nat) : Buffers := { s with vars := s.vars.set i none }

def grownCap (b : PooledBuffer) (n : Nat) : Nat :=
  growCap (b.len + n) (b.len + n) (if b.cap = 0 then 4096 else b.cap)

def request (s : Buffers) : Op → Option (GlobalAllocator × Nat)
  | .make G initialCap => if initialCap = 0 then none else some (G, initialCap)
  | .append i G src =>
      (s.find i).bind fun b =>
        if b.len + src.length > b.cap then some (G, grownCap b src.length) else none
  | .reserve i G need => (s.find i).bind fun b => if need ≤ b.cap then none else some (G, need)
  | _ => none

def refuses (p : MemoryPool) (G : GlobalAllocator) (n : Nat) : Bool :=
  (p.allocate G n).isNone && (G.new p.inUse ((headerSize + n) % sizeRange)).isNone

def apply (s : Buffers) : Op → Option Buffers
  | .make G initialCap =>
      (PooledBuffer.make G s.pool initialCap).map fun (p, b) => { s with pool := p }.push b
  | .append i G src =>
      (s.find i).bind fun b =>
        (b.append G s.pool src).map fun (p, b', _) => { s with pool := p }.put i b'
  | .reserve i G need =>
      (s.find i).bind fun b =>
        (b.reserve G s.pool need).map fun (p, b') => { s with pool := p }.put i b'
  | .resetForReuse i => (s.find i).map fun b => s.put i b.resetForReuse
  | .removePrefix i n =>
      (s.find i).map fun b =>
        { s with pool := (Reactor.carve s.pool b n).1 }.put i (Reactor.carve s.pool b n).2
  | .moveConstruct j =>
      (s.find j).map fun b => (s.put j b.moveConstruct.2).push b.moveConstruct.1
  | .moveAssign i j =>
      if i = j then some s
      else
        (s.find i).bind fun dst =>
          (s.find j).bind fun src =>
            (dst.moveAssign s.pool src).map fun (p, dst', src') =>
              ({ s with pool := p }.put i dst').put j src'
  | .destroy i =>
      (s.find i).bind fun b => (b.destroy s.pool).map fun p => { s with pool := p }.drop i
  | .throws a =>
      (s.request a).bind fun (G, n) => if refuses s.pool G n then some s else none

/-- The buffer is there, and has a pool. -/
def Usable (s : Buffers) (i : Nat) : Prop := ∃ b ∈ s.find i, b.bound = true

instance (s : Buffers) (i : Nat) : Decidable (s.Usable i) :=
  inferInstanceAs (Decidable (∃ b ∈ s.find i, b.bound = true))

/-- The operation is on buffers that are there, and within them. -/
def Legal (s : Buffers) : Op → Prop
  | .make _ _ => True
  | .append i _ _ | .reserve i _ _ | .resetForReuse i | .moveConstruct i => s.Usable i
  | .removePrefix i n => s.Usable i ∧ ∀ b ∈ s.find i, n ≤ b.len
  | .moveAssign i j => (s.find i).isSome ∧ s.Usable j
  | .destroy i => (s.find i).isSome
  | .throws a => s.Legal a

instance decidableLegal (s : Buffers) : (a : Op) → Decidable (s.Legal a)
  | .make _ _ => .isTrue trivial
  | .append i _ _ => inferInstanceAs (Decidable (s.Usable i))
  | .reserve i _ _ => inferInstanceAs (Decidable (s.Usable i))
  | .resetForReuse i => inferInstanceAs (Decidable (s.Usable i))
  | .moveConstruct i => inferInstanceAs (Decidable (s.Usable i))
  | .removePrefix i n => inferInstanceAs (Decidable (s.Usable i ∧ ∀ b ∈ s.find i, n ≤ b.len))
  | .moveAssign i j => inferInstanceAs (Decidable ((s.find i).isSome ∧ s.Usable j))
  | .destroy i => inferInstanceAs (Decidable ((s.find i).isSome))
  | .throws a => decidableLegal s a

def step (s : Buffers) (a : Op) : Option Buffers := if s.Legal a then s.apply a else none

def content (p : MemoryPool) (v : Option PooledBuffer) : Option (List UInt8) :=
  (v.filter fun b => b.bound).map fun b => b.bytes p

def contents (s : Buffers) : List (Option (List UInt8)) := s.vars.map (content s.pool)

end Buffers

def Op.spec (vals : List (Option (List UInt8))) : Op → List (Option (List UInt8))
  | .make _ _ => vals ++ [some []]
  | .append i _ src => vals.set i (vals[i]?.join.map fun bytes => bytes ++ src)
  | .reserve _ _ _ => vals
  | .resetForReuse i => vals.set i (some [])
  | .removePrefix i n => vals.set i (vals[i]?.join.map fun bytes => bytes.drop n)
  | .moveConstruct j => vals.set j none ++ [vals[j]?.join]
  | .moveAssign i j => if i = j then vals else (vals.set i vals[j]?.join).set j none
  | .destroy i => vals.set i none
  | .throws _ => vals

def Op.touched : Op → List Nat
  | .append i _ _ | .reserve i _ _ | .resetForReuse i | .removePrefix i _ | .destroy i => [i]
  | .moveConstruct j => [j]
  | .moveAssign i j => [i, j]
  | .make _ _ | .throws _ => []

end Muses.PooledBuffer
