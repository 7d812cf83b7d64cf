import Muses.Core.ByteMemory

/-!
# `MemoryPool` — size-classed allocation with reference counts

The model of `muses/memory_pool.hpp` up to `MemoryPool` itself. One flat address space holds the
arena and whatever the global allocator hands out; block headers and free-list links are objects
in it, payloads are plain bytes. Sizes are `size_t`: sums that the code computes in 64 bits are
reduced modulo `2 ^ 64`.

A function that may not return has an `Option` result: `allocate` is `none` when `operator new`
throws `std::bad_alloc`, `retain` and `release` are `none` when the magic check aborts the program.
-/

namespace Muses

open Muses.Core

def maxAlign : Nat := 16

def headerSize : Nat := 32

def linkSize : Nat := 8

def sizeRange : Nat := 2 ^ 64

structure GlobalAllocator where
  new : List Extent → Nat → Option Nat
  /-- fresh memory overlaps nothing that is in use -/
  new_fresh : ∀ used n a, new used n = some a → ∀ e ∈ used, Extent.Disjoint ⟨a, n⟩ e

/-- An allocator that always hands out the addresses above everything in use. -/
def GlobalAllocator.above : GlobalAllocator where
  new used _ := some ((used.map fun e => e.base + e.len).foldr max 0)
  new_fresh := by
    intro used n a h e he
    cases h
    simp only [Extent.Disjoint]
    right
    induction used with
    | nil => cases he
    | cons x xs ih =>
      simp only [List.map_cons, List.foldr_cons]
      rcases List.mem_cons.mp he with rfl | he
      · omega
      · have := ih he
        omega

def GlobalAllocator.favouring (address : Nat → Nat) : GlobalAllocator where
  new used n :=
    if ∀ e ∈ used, Extent.Disjoint ⟨address n, n⟩ e then some (address n)
    else GlobalAllocator.above.new used n
  new_fresh := by
    intro used n a h
    split at h
    · rename_i hfree
      cases h
      exact hfree
    · exact GlobalAllocator.above.new_fresh used n a h

namespace MemoryPool

def MAGIC : Nat := 0x4D555345

def ESCAPED : Nat := 0xFFFF

structure BlockHeader where
  magic : Nat
  sizeClass : Nat
  slotSize : Nat
  refcount : Int
  deriving DecidableEq, Repr

inductive Object where
  | header (h : BlockHeader)
  | link (next : Option Nat)
  deriving DecidableEq, Repr

structure Bin where
  head : Option Nat
  freeCount : Nat
  deriving DecidableEq, Repr

end MemoryPool

/-- The pool together with the memory it works on. `heap` is what the global allocator has handed
out and not got back; `carved` is history, the slot and the class of every block ever cut from the
arena. -/
structure MemoryPool where
  classes : List Nat
  bins : Nat → MemoryPool.Bin
  arenaBase : Nat
  arenaBytes : Nat
  bump : Nat
  live : Nat
  escaped : Nat
  mem : Memory MemoryPool.Object
  heap : List Extent
  carved : List (Nat × Nat)

namespace MemoryPool

def roundUp (n align : Nat) : Nat :=
  ((n + align - 1) % sizeRange) &&& (sizeRange - align)

/-! ## Construction -/

/-- The size classes the constructor keeps: the positive ones, sorted, without duplicates, and
never none. -/
def normalizeClasses (classes : List Nat) : List Nat :=
  match ((classes.filter (0 < ·)).insertionSort (· ≤ ·)).dedup with
  | [] => [64]
  | cs => cs

def allocateArena (classes : List Nat) (arenaBytes : Nat) : Nat :=
  let unit := roundUp (headerSize + classes.getLastD 64) maxAlign
  let count := arenaBytes / unit
  (if count = 0 then 1 else count) * unit

def make (base arenaBytes : Nat) (classes : List Nat) : MemoryPool where
  classes := normalizeClasses classes
  bins := fun _ => ⟨none, 0⟩
  arenaBase := base
  arenaBytes := allocateArena (normalizeClasses classes) arenaBytes
  bump := 0
  live := 0
  escaped := 0
  mem := fun _ => .raw 0
  heap := []
  carved := []

def defaultClasses : List Nat := [16, 32, 64, 128, 256, 512, 1024, 2048, 4096]

/-! ## Headers, links and free-lists -/

def headerOf (user : Nat) : Nat := user - headerSize

def readHeader (p : MemoryPool) (user : Nat) : Option BlockHeader :=
  match p.mem.load (headerOf user) headerSize with
  | some (.header h) => some h
  | _ => none

def writeHeader (p : MemoryPool) (user : Nat) (h : BlockHeader) : MemoryPool :=
  { p with mem := p.mem.store (headerOf user) headerSize (.header h) }

@[simp] theorem writeHeader_classes (p : MemoryPool) (user : Nat) (h : BlockHeader) :
    (p.writeHeader user h).classes = p.classes := by
  rw [writeHeader]

def initHeader (p : MemoryPool) (user idx slotSize : Nat) : MemoryPool :=
  p.writeHeader user ⟨MAGIC, idx, slotSize % 2 ^ 32, 1⟩

def readLink (p : MemoryPool) (slot : Nat) : Option (Option Nat) :=
  match p.mem.load slot linkSize with
  | some (.link next) => some next
  | _ => none

def pushFree (p : MemoryPool) (idx slot : Nat) : MemoryPool :=
  { p with
    mem := p.mem.store slot linkSize (.link (p.bins idx).head)
    bins := Function.update p.bins idx ⟨some slot, (p.bins idx).freeCount + 1⟩ }

/-- `pop_free`: the inner `none` is the null pointer, the outer one a head whose link was
overwritten, which the code would follow into nowhere. -/
def popFree (p : MemoryPool) (idx : Nat) : Option (MemoryPool × Option Nat) :=
  match (p.bins idx).head with
  | none => some (p, none)
  | some slot =>
      (p.readLink slot).map fun next =>
        let bin : Bin := ⟨next, (p.bins idx).freeCount - 1⟩
        ({ p with bins := Function.update p.bins idx bin }, some slot)

/-! ## Allocation -/

def pickClass (p : MemoryPool) (userBytes : Nat) : Nat :=
  p.classes.findIdx (userBytes ≤ ·)

def roundUpToClass (p : MemoryPool) (userBytes : Nat) : Nat :=
  (p.classes.find? (userBytes ≤ ·)).getD 0

def blockBytes (slotSize : Nat) : Nat := roundUp (headerSize + slotSize) maxAlign

def carveFromArena (p : MemoryPool) (idx slotSize : Nat) : Option (MemoryPool × Nat) :=
  if p.bump + blockBytes slotSize > p.arenaBytes then none
  else
    let slot := p.arenaBase + p.bump + headerSize
    some ({ p with bump := p.bump + blockBytes slotSize, carved := (slot, idx) :: p.carved }, slot)

def inUse (p : MemoryPool) : List Extent := ⟨p.arenaBase, p.arenaBytes⟩ :: p.heap

def allocateEscaped (G : GlobalAllocator) (p : MemoryPool) (bytes : Nat) :
    Option (MemoryPool × Nat) :=
  let size := (headerSize + bytes) % sizeRange
  (G.new p.inUse size).map fun raw =>
    let user := raw + headerSize
    let p' := { p with heap := ⟨raw, size⟩ :: p.heap }.initHeader user ESCAPED bytes
    ({ p' with live := p'.live + 1, escaped := p'.escaped + 1 }, user)

def takeSlot (p : MemoryPool) (idx : Nat) : Option (MemoryPool × Option Nat) :=
  (p.popFree idx).map fun (p', slot) =>
    match slot with
    | some slot => (p', some slot)
    | none =>
        match p'.carveFromArena idx (p.classes.getD idx 0) with
        | some (p'', slot) => (p'', some slot)
        | none => (p', none)

def allocate (G : GlobalAllocator) (p : MemoryPool) (bytes : Nat) : Option (MemoryPool × Nat) :=
  let need := p.roundUpToClass bytes
  let idx := p.pickClass bytes
  if idx ≥ p.classes.length ∨ need = 0 then p.allocateEscaped G bytes
  else
    (p.takeSlot idx).bind fun (p', slot) =>
      match slot with
      | none => p'.allocateEscaped G bytes
      | some slot =>
          let p'' := p'.initHeader slot idx (p.classes.getD idx 0)
          some ({ p'' with live := p''.live + 1 }, slot)

/-! ## References -/

def checkedHeader (p : MemoryPool) (user : Nat) : Option BlockHeader :=
  (p.readHeader user).filter fun h => h.magic = MAGIC

def wrapCount (n : Int) : Int := n.bmod (2 ^ 32)

def retain (p : MemoryPool) (user : Nat) : Option MemoryPool :=
  (p.checkedHeader user).map fun h =>
    p.writeHeader user { h with refcount := wrapCount (h.refcount + 1) }

def delete (p : MemoryPool) (raw : Nat) : MemoryPool :=
  { p with heap := p.heap.filter fun e => e.base ≠ raw }

def recycleToBin (p : MemoryPool) (user : Nat) (h : BlockHeader) : MemoryPool :=
  if h.sizeClass ≥ p.classes.length then p.delete (headerOf user)
  else (p.writeHeader user { h with magic := 0 }).pushFree h.sizeClass user

def release (p : MemoryPool) (user : Nat) : Option MemoryPool :=
  (p.checkedHeader user).map fun h =>
    let h' := { h with refcount := wrapCount (h.refcount - 1) }
    let p' := p.writeHeader user h'
    if h.refcount = 1 then
      let p'' := { p' with live := p'.live - 1 }
      if h.sizeClass = ESCAPED then { p'' with escaped := p''.escaped - 1 }.delete (headerOf user)
      else p''.recycleToBin user h'
    else p'

end MemoryPool

end Muses
