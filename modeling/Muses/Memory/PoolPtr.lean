import Muses.Core.Run
import Muses.Memory.Pool

/-!
# `PoolPtr` — counted handles to pool blocks

The model of `PoolPtr`, `make_pool` and `destroy_pool` in `muses/memory_pool.hpp`, and of programs
that use them: `Scope` is a pool together with the `PoolPtr` variables of a program, and `Op` is
what a program does with them. The variables stand outside the pool, and the operations are the
special members of the class, written with the order of retains and releases that they have.
-/

namespace Muses

open Muses.Core

structure PoolPtr where
  ptr : Option Nat
  bound : Bool
  deriving DecidableEq, Repr

/-- What is made in a pool: a C++ type, known by its size. No object takes more than half of the
address space. -/
structure ObjectType where
  size : Nat
  size_lt : size < 2 ^ 63

namespace PoolPtr

def null : PoolPtr := ⟨none, false⟩

def adopt (user : Nat) : PoolPtr := ⟨some user, true⟩

def reset (p : MemoryPool) (self : PoolPtr) : Option (MemoryPool × PoolPtr) :=
  match self.bound, self.ptr with
  | true, some user => (p.release user).map fun p' => (p', null)
  | _, _ => some (p, null)

def copyConstruct (p : MemoryPool) (other : PoolPtr) : Option (MemoryPool × PoolPtr) :=
  match other.bound, other.ptr with
  | true, some user => (p.retain user).map fun p' => (p', other)
  | _, _ => some (p, other)

def moveConstruct (other : PoolPtr) : PoolPtr × PoolPtr := (other, null)

/-! ## Programs -/

/-- The pool and the variables of a program, `none` for one that has been destroyed. The rest is
history: how often the destructor of the object at an address has run, and the objects whose block
went back to the pool, with that number. -/
structure Scope where
  pool : MemoryPool
  vars : List (Option PoolPtr)
  runs : Nat → Nat
  gone : List (Nat × Nat)

inductive Op where
  /-- a null handle -/
  | null
  /-- a handle from `make_pool`; the constructor leaves the bytes `image` and may then throw -/
  | make (G : GlobalAllocator) (T : ObjectType) (image : List UInt8) (throws : Bool)
  /-- a new variable, copied or moved from `j` -/
  | copy (j : Nat)
  | move (j : Nat)
  /-- assignments `i = j` and `i = std::move(j)` -/
  | copyAssign (i j : Nat)
  | moveAssign (i j : Nat)
  | reset (i : Nat)
  | destroy (i : Nat)
  | destroyPool (i : Nat)

namespace Scope

def start (p : MemoryPool) : Scope := ⟨p, [], fun _ => 0, []⟩

def find (s : Scope) (i : Nat) : Option PoolPtr := s.vars[i]?.join

def put (s : Scope) (i : Nat) (h : PoolPtr) : Scope := { s with vars := s.vars.set i (some h) }

def push (s : Scope) (h : PoolPtr) : Scope := { s with vars := s.vars ++ [some h] }

/-- The end of a variable. -/
def drop (s : Scope) (i : Nat) : Scope := { s with vars := s.vars.set i none }

def returning (s : Scope) (h : PoolPtr) : List (Nat × Nat) :=
  match h.bound, h.ptr with
  | true, some user =>
      if (s.pool.checkedHeader user).any fun hd => hd.refcount = 1 then [(user, s.runs user)]
      else []
  | _, _ => []

def reset (s : Scope) (i : Nat) : Option Scope :=
  (s.find i).bind fun h =>
    (h.reset s.pool).map fun (p, h') =>
      { s with pool := p, gone := s.returning h ++ s.gone }.put i h'

def share (s : Scope) (i j : Nat) : Option Scope :=
  (s.find j).bind fun other =>
    (other.copyConstruct s.pool).map fun (p, h) => { s with pool := p }.put i h

def transfer (s : Scope) (i j : Nat) : Option Scope :=
  (s.find j).map fun other => (s.put i other.moveConstruct.1).put j other.moveConstruct.2

def make (s : Scope) (G : GlobalAllocator) (T : ObjectType) (image : List UInt8) (throws : Bool) :
    Option Scope :=
  match s.pool.allocate G T.size with
  | none => if G.new s.pool.inUse ((headerSize + T.size) % sizeRange) = none then some s else none
  | some (p, mem) =>
      let p' := { p with mem := p.mem.writeBytes mem image }
      if throws then (p'.release mem).map fun p'' => { s with pool := p'' }
      else some ({ s with pool := p', runs := Function.update s.runs mem 0 }.push (adopt mem))

def destroyPool (s : Scope) (i : Nat) : Option Scope :=
  (s.find i).bind fun h =>
    match h.ptr with
    | some user => { s with runs := Function.update s.runs user (s.runs user + 1) }.reset i
    | none => some s

/-- The handles are there, and a value fits its type. -/
def Legal (s : Scope) : Op → Prop
  | .null => True
  | .make _ T image _ => image.length ≤ T.size
  | .copy j | .move j => (s.find j).isSome
  | .copyAssign i j | .moveAssign i j => (s.find i).isSome ∧ (s.find j).isSome
  | .reset i | .destroy i | .destroyPool i => (s.find i).isSome

instance (s : Scope) (a : Op) : Decidable (s.Legal a) := by
  unfold Legal
  split <;> infer_instance

/-- What an operation does. It does not come to an end when the magic check of the pool aborts the
program. -/
def apply (s : Scope) : Op → Option Scope
  | .null => some (s.push PoolPtr.null)
  | .make G T image throws => s.make G T image throws
  | .copy j =>
      (s.find j).bind fun other =>
        (other.copyConstruct s.pool).map fun (p, h) => { s with pool := p }.push h
  | .move j =>
      (s.find j).map fun other => (s.put j other.moveConstruct.2).push other.moveConstruct.1
  | .copyAssign i j =>
      if i = j then (s.find i).map fun _ => s else (s.reset i).bind fun s' => s'.share i j
  | .moveAssign i j =>
      if i = j then (s.find i).map fun _ => s else (s.reset i).bind fun s' => s'.transfer i j
  | .reset i => s.reset i
  | .destroy i => (s.reset i).map fun s' => s'.drop i
  | .destroyPool i => s.destroyPool i

def step (s : Scope) (a : Op) : Option Scope := if s.Legal a then s.apply a else none

def target (v : Option PoolPtr) : Option Nat := v.bind PoolPtr.ptr

def count (s : Scope) (user : Nat) : Nat := (s.vars.map target).count (some user)

end Scope

end PoolPtr

end Muses
