import Muses.Memory.Pool

/-!
# `PooledBuffer` — a growable byte buffer on a pool block

The model of `PooledBuffer` in `muses/memory_pool.hpp`. A buffer is a handle: the bytes live in
the pool's memory, so every operation that touches them takes the pool and returns it. `none` is
an exception or abort that leaves the operation (`operator new` threw, a magic check failed).
-/

namespace Muses

open Muses.Core

structure PooledBuffer where
  bound : Bool := false
  data : Option Nat := none
  cap : Nat := 0
  len : Nat := 0
  scanPos : Nat := 0
  deriving DecidableEq, Repr

namespace PooledBuffer

def releasePoolBlock (p : MemoryPool) (b : PooledBuffer) : Option (MemoryPool × PooledBuffer) :=
  let b' := { b with data := none, cap := 0 }
  match b.bound, b.data with
  | true, some d => (p.release d).map fun p' => (p', b')
  | _, _ => some (p, b')

def bytes (p : MemoryPool) (b : PooledBuffer) : List UInt8 :=
  match b.data with
  | some d => p.mem.readBytes d b.len
  | none => []

def reserve (G : GlobalAllocator) (p : MemoryPool) (b : PooledBuffer) (need : Nat) :
    Option (MemoryPool × PooledBuffer) :=
  if need ≤ b.cap then some (p, b)
  else
    (p.allocate G need).bind fun (p₁, fresh) =>
      let p₂ :=
        match b.data with
        | some d =>
            if 0 < b.len then { p₁ with mem := p₁.mem.writeBytes fresh (p₁.mem.readBytes d b.len) }
            else p₁
        | none => p₁
      (b.releasePoolBlock p₂).map fun (p₃, b') =>
        (p₃, { b' with data := some fresh, cap := need, len := b.len })

def make (G : GlobalAllocator) (p : MemoryPool) (initialCap : Nat) :
    Option (MemoryPool × PooledBuffer) :=
  reserve G p { bound := true } initialCap

/-- `while (newcap < want) newcap *= 2;` — `want` rounds are always enough from a positive
capacity. -/
def growCap (want : Nat) : Nat → Nat → Nat
  | 0, newcap => newcap
  | fuel + 1, newcap => if newcap < want then growCap want fuel (newcap * 2) else newcap

def append (G : GlobalAllocator) (p : MemoryPool) (b : PooledBuffer) (src : List UInt8) :
    Option (MemoryPool × PooledBuffer × Bool) :=
  let want := b.len + src.length
  let grown :=
    if want > b.cap then b.reserve G p (growCap want want (if b.cap = 0 then 4096 else b.cap))
    else some (p, b)
  grown.map fun (p', b') =>
    if b'.len + src.length > b'.cap then (p', b', false)
    else
      match b'.data with
      | some d =>
          ({ p' with mem := p'.mem.writeBytes (d + b'.len) src },
            { b' with len := b'.len + src.length }, true)
      | none => (p', { b' with len := b'.len + src.length }, true)

def setSize (b : PooledBuffer) (n : Nat) : PooledBuffer := { b with len := n }

def setScanPos (b : PooledBuffer) (n : Nat) : PooledBuffer := { b with scanPos := n }

def resetForReuse (b : PooledBuffer) : PooledBuffer := { b with len := 0, scanPos := 0 }

def shiftDown (p : MemoryPool) (b : PooledBuffer) (n k : Nat) : MemoryPool :=
  match b.data with
  | some d => { p with mem := p.mem.writeBytes d (p.mem.readBytes (d + n) k) }
  | none => p

def movedFrom : PooledBuffer := {}

def moveConstruct (src : PooledBuffer) : PooledBuffer × PooledBuffer := (src, movedFrom)

def moveAssign (p : MemoryPool) (dst src : PooledBuffer) :
    Option (MemoryPool × PooledBuffer × PooledBuffer) :=
  (dst.releasePoolBlock p).map fun (p', _) => (p', src, movedFrom)

def destroy (p : MemoryPool) (b : PooledBuffer) : Option MemoryPool :=
  (b.releasePoolBlock p).map Prod.fst

end PooledBuffer

end Muses
