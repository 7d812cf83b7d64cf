import Muses.Memory.Layout
import Muses.Core.Run

/-!
# Clients of a memory pool

Clients allocate, retain and release, and write to what they have allocated. `Clients` is the pool
together with the references they hold; a client only ever gives back a reference it has.

* `Sane` — requests whose sum with the header size does not wrap around, and counts in the range
  of `int32_t`;
* `Ledger` — the arrangement of the blocks, the counters and the references agree.
-/

namespace Muses.MemoryPool

open Muses.Core Function List

structure Stats where
  live : Nat
  recycled : Nat
  escaped : Nat
  overflowDropped : Nat
  deriving DecidableEq, Repr

def stats (p : MemoryPool) : Stats where
  live := p.live
  recycled := ((List.range p.classes.length).map fun i => (p.bins i).freeCount).sum
  escaped := p.escaped
  overflowDropped := 0

def carvedExtent (p : MemoryPool) (c : Nat × Nat) : Extent :=
  ⟨headerOf c.1, blockBytes (p.classes.getD c.2 0)⟩

def arena (p : MemoryPool) : Extent := ⟨p.arenaBase, p.arenaBytes⟩

/-- The pool, and what its users hold: references to a block, and the size they asked for. -/
structure Clients where
  pool : MemoryPool
  refs : Nat → Nat
  asked : Nat → Nat

/-- What a client does next. Each `allocate` names the global allocator it may have to turn to, so
that one run sees any addresses. -/
inductive Request where
  | allocate (G : GlobalAllocator) (bytes : Nat)
  | retain (user : Nat)
  | release (user : Nat)
  | write (user off : Nat) (xs : List UInt8)

namespace Clients

def start (base arenaBytes : Nat) (classes : List Nat) : Clients :=
  ⟨.make base arenaBytes classes, fun _ => 0, fun _ => 0⟩

/-- One request. References are retained and released by those who hold one, and written is what
was asked for. An `allocate` that fails in `operator new` leaves everything as it was; other
failures are not steps. -/
def step (s : Clients) : Request → Option Clients
  | .allocate G bytes =>
      match s.pool.allocate G bytes with
      | some (p, user) =>
          some ⟨p, update s.refs user 1, update s.asked user bytes⟩
      | none =>
          if G.new s.pool.inUse ((headerSize + bytes) % sizeRange) = none then some s else none
  | .retain user =>
      if 0 < s.refs user then
        (s.pool.retain user).map fun p =>
          { s with pool := p, refs := update s.refs user (s.refs user + 1) }
      else none
  | .release user =>
      if 0 < s.refs user then
        (s.pool.release user).map fun p =>
          { s with pool := p, refs := update s.refs user (s.refs user - 1) }
      else none
  | .write user off xs =>
      if 0 < s.refs user ∧ off + xs.length ≤ s.asked user then
        some { s with pool := { s.pool with mem := s.pool.mem.writeBytes (user + off) xs } }
      else none

/-- No size that overflows with the header, and references that an `int32_t` can count. -/
def Sane (s : Clients) : Request → Prop
  | .allocate _ bytes => headerSize + bytes < sizeRange
  | .retain user => s.refs user + 1 < 2 ^ 31
  | _ => True

instance (s : Clients) (r : Request) : Decidable (s.Sane r) := by
  unfold Sane
  split <;> infer_instance

end Clients

/-! ## Counters and blocks -/

def Block.slot (b : Block) : Option (Nat × Nat) := b.cls.map fun i => (b.user, i)

/-- The counters of the pool count the blocks. -/
structure Counted (p : MemoryPool) (live free : List Block) : Prop where
  liveCount : p.live = live.length
  escapedCount : p.escaped = live.countP fun b => b.cls = none
  freeCount : ∀ i, (p.bins i).freeCount = free.countP fun b => b.cls = some i
  carved : p.carved ~ (live ++ free).filterMap Block.slot

/-- The blocks that were carved lie in the used part of the arena, apart from each other. -/
structure Tiled (p : MemoryPool) : Prop where
  within : ∀ c ∈ p.carved, (p.carvedExtent c).Within ⟨p.arenaBase, p.bump⟩
  disjoint : p.carved.Pairwise fun a b => (p.carvedExtent a).Disjoint (p.carvedExtent b)

variable {p p' : MemoryPool}

theorem popFree_some {i slot : Nat} (h : p.popFree i = some (p', some slot)) :
    ∃ next, p' =
      { p with bins := update p.bins i ⟨next, (p.bins i).freeCount - 1⟩ } := by
  unfold popFree at h
  cases hhead : (p.bins i).head with
  | none => simp [hhead] at h
  | some a =>
    simp only [hhead, Option.map_eq_some_iff, Prod.mk.injEq] at h
    obtain ⟨next, -, rfl, -⟩ := h
    exact ⟨next, rfl⟩

theorem carveFromArena_some {i c slot : Nat} (h : p.carveFromArena i c = some (p', slot)) :
    slot = p.arenaBase + p.bump + headerSize ∧
      p' = { p with bump := p.bump + blockBytes c, carved := (slot, i) :: p.carved } := by
  unfold carveFromArena at h
  split at h
  · cases h
  · cases h
    exact ⟨rfl, rfl⟩

theorem allocateEscaped_some {G : GlobalAllocator} {n user : Nat}
    (h : p.allocateEscaped G n = some (p', user)) :
    p'.live = p.live + 1 ∧ p'.escaped = p.escaped + 1 ∧ p'.bins = p.bins ∧ p'.carved = p.carved ∧
      p'.bump = p.bump ∧ p'.classes = p.classes ∧ p'.arenaBase = p.arenaBase := by
  obtain ⟨raw, -, heq⟩ := Option.map_eq_some_iff.mp h
  simp only [Prod.mk.injEq] at heq
  obtain ⟨rfl, -⟩ := heq
  exact ⟨rfl, rfl, rfl, rfl, rfl, rfl, rfl⟩

namespace Counted

variable {G : GlobalAllocator} {p p' : MemoryPool} {live free : List Block} {b : Block} {i : Nat}

theorem perm (h : Counted p live free) {live' free' : List Block} (hlive : live ~ live')
    (hfree : free ~ free') : Counted p live' free' where
  liveCount := h.liveCount.trans hlive.length_eq
  escapedCount := h.escapedCount.trans (hlive.countP_eq _)
  freeCount i := (h.freeCount i).trans (hfree.countP_eq _)
  carved := h.carved.trans ((hlive.append hfree).filterMap _)

theorem recycled (h : Counted p live (b :: free)) (hcls : b.cls = some i)
    (hpop : p.popFree i = some (p', some b.user)) (slotSize : Nat) :
    Counted (p'.handOut b.user i slotSize) (b :: live) free := by
  obtain ⟨next, rfl⟩ := popFree_some hpop
  refine ⟨?_, ?_, fun j => ?_, h.carved.trans (perm_middle.filterMap _)⟩
  · simpa [handOut] using h.liveCount
  · simpa [handOut, initHeader, writeHeader, hcls] using h.escapedCount
  · have hj := h.freeCount j
    by_cases hji : j = i
    · subst hji
      simp only [countP_cons, hcls, decide_true, if_true] at hj
      simp only [handOut, initHeader, writeHeader, update_self]
      omega
    · simpa [handOut, initHeader, writeHeader, update_of_ne hji, hcls, Ne.symm hji]
        using hj

theorem carve (h : Counted p live free) (hcls : b.cls = some i) {c : Nat}
    (hcarve : p.carveFromArena i c = some (p', b.user)) (slotSize : Nat) :
    Counted (p'.handOut b.user i slotSize) (b :: live) free := by
  obtain ⟨-, rfl⟩ := carveFromArena_some hcarve
  refine ⟨?_, ?_, h.freeCount, ?_⟩
  · simpa [handOut] using h.liveCount
  · simpa [handOut, initHeader, writeHeader, hcls] using h.escapedCount
  · simpa [handOut, initHeader, writeHeader, Block.slot, hcls] using h.carved

theorem escape (h : Counted p live free) {n user : Nat}
    (hesc : p.allocateEscaped G n = some (p', user)) :
    Counted p' (⟨user, n, none⟩ :: live) free := by
  obtain ⟨hlive, hescaped, hbins, hcarved, -⟩ := allocateEscaped_some hesc
  refine ⟨?_, ?_, ?_, ?_⟩
  · rw [hlive, h.liveCount, length_cons]
  · rw [hescaped, h.escapedCount]
    simp
  · rw [hbins]
    exact h.freeCount
  · rw [hcarved, cons_append, filterMap_cons_none rfl]
    exact h.carved

theorem deleteLast (h : Counted p (b :: live) free) (hcls : b.cls = none) (slotSize : Nat) :
    Counted (p.deleteLast b.user slotSize) live free := by
  refine ⟨?_, ?_, h.freeCount, ?_⟩
  · change p.live - 1 = live.length
    rw [h.liveCount, length_cons, Nat.add_sub_cancel]
  · change p.escaped - 1 = live.countP fun b => b.cls = none
    rw [h.escapedCount]
    simp [hcls]
  · change p.carved ~ _
    simpa [Block.slot, hcls] using h.carved

theorem recycleLast (h : Counted p (b :: live) free) (hcls : b.cls = some i) (slotSize : Nat) :
    Counted (p.recycleLast b.user i slotSize) live (b :: free) := by
  refine ⟨?_, ?_, fun j => ?_, h.carved.trans (perm_middle.symm.filterMap _)⟩
  · change p.live - 1 = live.length
    rw [h.liveCount, length_cons, Nat.add_sub_cancel]
  · change p.escaped = live.countP fun b => b.cls = none
    rw [h.escapedCount]
    simp [hcls]
  · have hj := h.freeCount j
    change (update p.bins i ⟨some b.user, (p.bins i).freeCount + 1⟩ j).freeCount = _
    by_cases hji : j = i
    · subst hji
      simp [hcls, hj]
    · simp [update_of_ne hji, hcls, Ne.symm hji, hj]

end Counted

namespace Tiled

variable {p p' : MemoryPool}

theorem congr (h : Tiled p) (hclasses : p'.classes = p.classes) (hbase : p'.arenaBase = p.arenaBase)
    (hbump : p'.bump = p.bump) (hcarved : p'.carved = p.carved) : Tiled p' := by
  constructor
  · rw [hcarved, hbase, hbump]
    intro c hc
    simpa only [carvedExtent, hclasses] using h.within c hc
  · rw [hcarved]
    simpa only [carvedExtent, hclasses] using h.disjoint

theorem writeHeader (h : Tiled p) (user : Nat) (hd : BlockHeader) :
    Tiled (p.writeHeader user hd) := by
  unfold MemoryPool.writeHeader
  exact h.congr rfl rfl rfl rfl

theorem handOut (h : Tiled p) (slot idx slotSize : Nat) :
    Tiled (p.handOut slot idx slotSize) := by
  unfold MemoryPool.handOut initHeader MemoryPool.writeHeader
  exact h.congr rfl rfl rfl rfl

theorem recycleLast (h : Tiled p) (user idx slotSize : Nat) :
    Tiled (p.recycleLast user idx slotSize) := by
  unfold MemoryPool.recycleLast pushFree MemoryPool.writeHeader
  exact h.congr rfl rfl rfl rfl

theorem deleteLast (h : Tiled p) (user slotSize : Nat) :
    Tiled (p.deleteLast user slotSize) := by
  unfold MemoryPool.deleteLast delete MemoryPool.writeHeader
  exact h.congr rfl rfl rfl rfl

theorem carve (h : Tiled p) {i slot : Nat}
    (hcarve : p.carveFromArena i (p.classes.getD i 0) = some (p', slot)) : Tiled p' := by
  obtain ⟨rfl, rfl⟩ := carveFromArena_some hcarve
  have hold (c : Nat × Nat) (hc : c ∈ p.carved) := h.within c hc
  constructor
  · intro c hc
    rcases mem_cons.mp hc with rfl | hc
    · simp only [carvedExtent, headerOf, Extent.Within]
      omega
    · have hin := hold c hc
      simp only [carvedExtent, Extent.Within] at hin ⊢
      omega
  · refine pairwise_cons.mpr ⟨fun c hc => ?_, h.disjoint⟩
    have hin := hold c hc
    simp only [carvedExtent, headerOf, Extent.Within, Extent.Disjoint] at hin ⊢
    omega

end Tiled

/-! ## The ledger -/

/-- The books of the pool: who holds which block, with how many references. -/
structure Ledger (s : Clients) (live free : List Block) : Prop where
  arranged : Arranged s.pool s.refs live free
  counted : Counted s.pool live free
  tiled : Tiled s.pool
  owned : ∀ u, 0 < s.refs u ↔ ∃ b ∈ live, b.user = u
  small : ∀ u, s.refs u < 2 ^ 31
  asked : ∀ b ∈ live, s.asked b.user ≤ b.len

namespace Ledger

variable {s s' : Clients} {live free : List Block} {b : Block}

theorem start (base arenaBytes : Nat) {classes : List Nat}
    (hok : ∀ c ∈ normalizeClasses classes, 0 < c ∧ c < 2 ^ 32)
    (hfew : (normalizeClasses classes).length ≤ ESCAPED) :
    Ledger (.start base arenaBytes classes) [] [] where
  arranged := .make base arenaBytes hok hfew
  counted := ⟨rfl, rfl, fun _ => rfl, .nil⟩
  tiled := ⟨by simp [Clients.start, make], .nil⟩
  owned := by simp [Clients.start]
  small := by simp [Clients.start]
  asked := by simp

theorem perm (h : Ledger s live free) {live' : List Block} (hperm : live ~ live') :
    Ledger s live' free where
  arranged := h.arranged.perm hperm
  counted := h.counted.perm hperm (.refl _)
  tiled := h.tiled
  owned u := by simpa only [hperm.mem_iff] using h.owned u
  small := h.small
  asked b hb := h.asked b (hperm.mem_iff.mpr hb)

theorem find (h : Ledger s live free) {user : Nat} (hu : 0 < s.refs user) :
    ∃ b rest, b.user = user ∧ live ~ b :: rest ∧ Ledger s (b :: rest) free := by
  obtain ⟨b, hb, huser⟩ := (h.owned user).mp hu
  have hperm := perm_cons_erase hb
  exact ⟨b, live.erase b, huser, hperm, h.perm hperm⟩

theorem user_ne (h : Ledger s (b :: live) free) {x : Block} (hx : x ∈ live) :
    x.user ≠ b.user :=
  ((pairwise_cons.mp h.arranged.disjoint).1 x (by simp [hx])).user_ne.symm

theorem exists_cons_user {u : Nat} (hu : u ≠ b.user) :
    (∃ x ∈ live, x.user = u) ↔ ∃ x ∈ b :: live, x.user = u := by
  simp [hu.symm]

variable {p' : MemoryPool} {n : Nat} {free' : List Block}

theorem added (h : Ledger s live free)
    (harranged : Arranged p' (update s.refs b.user 1) (b :: live) free')
    (hcounted : Counted p' (b :: live) free') (htiled : Tiled p') (hlen : n ≤ b.len) :
    Ledger ⟨p', update s.refs b.user 1, update s.asked b.user n⟩
      (b :: live) free' where
  arranged := harranged
  counted := hcounted
  tiled := htiled
  owned := by
    refine (forall_update_iff s.refs
      fun u m => 0 < m ↔ ∃ x ∈ b :: live, x.user = u).mpr ⟨by simp, fun u hu => ?_⟩
    rw [h.owned u]
    exact exists_cons_user hu
  small := (forall_update_iff s.refs fun _ m => m < 2 ^ 31).mpr
    ⟨by decide, fun u _ => h.small u⟩
  asked x hx := by
    change update s.asked b.user n x.user ≤ x.len
    rcases mem_cons.mp hx with rfl | hx
    · simpa using hlen
    · have hne : x.user ≠ b.user :=
        ((pairwise_cons.mp harranged.disjoint).1 x (by simp [hx])).user_ne.symm
      rw [update_of_ne hne]
      exact h.asked x hx

theorem refs_eq_zero (h : Ledger s live free) {refs' : Nat → Nat}
    (harranged : Arranged p' refs' (b :: live) free') : s.refs b.user = 0 := by
  by_contra hne
  obtain ⟨x, hx, huser⟩ := (h.owned b.user).mp (Nat.pos_of_ne_zero hne)
  exact ((pairwise_cons.mp harranged.disjoint).1 x (by simp [hx])).user_ne huser.symm

theorem entered (h : Ledger s live free)
    (harranged : Arranged p' (update s.refs b.user 1) (b :: live) free')
    (hcounted : Counted p' (b :: live) free') (htiled : Tiled p') (hlen : n ≤ b.len) :
    s.refs b.user = 0 ∧ ∃ live' free', Ledger
      ⟨p', update s.refs b.user 1, update s.asked b.user n⟩ live' free' :=
  ⟨h.refs_eq_zero harranged, _, _, h.added harranged hcounted htiled hlen⟩

/-- **Allocation** enters a block in the ledger, one that nobody held. -/
theorem allocate (h : Ledger s live free) {G : GlobalAllocator} {user : Nat}
    (hn : headerSize + n < sizeRange) (halloc : s.pool.allocate G n = some (p', user)) :
    s.refs user = 0 ∧ ∃ live' free',
      Ledger ⟨p', update s.refs user 1, update s.asked user n⟩ live' free' := by
  cases allocate_cases halloc with
  | recycled hi hpop =>
    obtain ⟨-, hclasses, b, free', rfl, hcls, hperm, harranged, hfresh⟩ := h.arranged.pop hpop
    have hlen := (hfresh.pooled _ hcls).2.1
    rw [hclasses] at hlen
    obtain ⟨next, rfl⟩ := popFree_some hpop
    have htiled : Tiled { s.pool with
        bins := update s.pool.bins (s.pool.pickClass n)
          ⟨next, (s.pool.bins (s.pool.pickClass n)).freeCount - 1⟩ } :=
      h.tiled.congr rfl rfl rfl rfl
    exact h.entered (harranged.handOut hfresh hcls _).1
      ((h.counted.perm (.refl _) hperm).recycled hcls hpop _) (htiled.handOut _ _ _)
      (Nat.le_trans (pickClass_fits hi) hlen)
  | carved hi hcarve =>
    obtain ⟨-, b, rfl, hcls, hlen, harranged, hfresh⟩ := h.arranged.carve hi hcarve
    exact h.entered (harranged.handOut hfresh hcls _).1
      (h.counted.carve hcls hcarve _) ((h.tiled.carve hcarve).handOut _ _ _)
      (Nat.le_trans (pickClass_fits hi) hlen)
  | escaped hesc =>
    obtain ⟨-, -, -, hcarved, hbump, hclasses, hbase⟩ := allocateEscaped_some hesc
    exact h.entered (b := ⟨user, n, none⟩) (h.arranged.allocateEscaped hn hesc).1
      (h.counted.escape hesc) (h.tiled.congr hclasses hbase hbump hcarved) (Nat.le_refl _)

theorem allocate_eq_none (h : Ledger s live free) {G : GlobalAllocator}
    (hnone : s.pool.allocate G n = none) :
    G.new s.pool.inUse ((headerSize + n) % sizeRange) = none := by
  have hescaped (hesc : s.pool.allocateEscaped G n = none) :
      G.new s.pool.inUse ((headerSize + n) % sizeRange) = none := by
    simpa [allocateEscaped] using hesc
  unfold MemoryPool.allocate at hnone
  simp only at hnone
  split at hnone
  · exact hescaped hnone
  · obtain ⟨p', slot, hpop⟩ := h.arranged.popFree_isSome (s.pool.pickClass n)
    cases slot with
    | some slot => simp [takeSlot, hpop] at hnone
    | none =>
      obtain rfl := popFree_none hpop
      cases hcarve : s.pool.carveFromArena (s.pool.pickClass n)
          (s.pool.classes.getD (s.pool.pickClass n) 0) with
      | some carved =>
        simp only [takeSlot, hpop, hcarve, Option.map_some, Option.bind_some] at hnone
        cases hnone
      | none =>
        simp only [takeSlot, hpop, hcarve, Option.map_some, Option.bind_some] at hnone
        exact hescaped hnone

theorem recount (h : Ledger s (b :: live) free) (slotSize : Nat) (hpos : 0 < n)
    (hsmall : n < 2 ^ 31) :
    Ledger { s with
      pool := s.pool.writeHeader b.user ⟨MAGIC, b.sizeClass, slotSize, n⟩,
      refs := update s.refs b.user n } (b :: live) free where
  arranged := h.arranged.recount slotSize n
  counted := ⟨h.counted.liveCount, h.counted.escapedCount, h.counted.freeCount, h.counted.carved⟩
  tiled := h.tiled.writeHeader b.user _
  owned := (forall_update_iff s.refs
    fun u m => 0 < m ↔ ∃ x ∈ b :: live, x.user = u).mpr
    ⟨by simp [hpos], fun u _ => h.owned u⟩
  small := (forall_update_iff s.refs fun _ m => m < 2 ^ 31).mpr
    ⟨hsmall, fun u _ => h.small u⟩
  asked := h.asked

theorem removed (h : Ledger s (b :: live) free) (harranged : Arranged p' s.refs live free')
    (hcounted : Counted p' live free') (htiled : Tiled p') :
    Ledger { s with pool := p', refs := update s.refs b.user 0 } live free' where
  arranged := harranged.congr_refs fun x hx => update_of_ne (h.user_ne hx) _ _
  counted := hcounted
  tiled := htiled
  owned := by
    refine (forall_update_iff s.refs
      fun u m => 0 < m ↔ ∃ x ∈ live, x.user = u).mpr ⟨?_, fun u hu => ?_⟩
    · simp only [Nat.lt_irrefl, false_iff]
      rintro ⟨x, hx, hxb⟩
      exact h.user_ne hx hxb
    · rw [h.owned u]
      exact (exists_cons_user hu).symm
  small := (forall_update_iff s.refs fun _ m => m < 2 ^ 31).mpr
    ⟨by decide, fun u _ => h.small u⟩
  asked x hx := h.asked x (mem_cons_of_mem _ hx)

/-- **Release.** While the clients hold a reference it succeeds, and what it leaves is again in
the ledger. -/
theorem release (h : Ledger s (b :: live) free) :
    ∃ p' live' free', s.pool.release b.user = some p' ∧
      Ledger { s with pool := p', refs := update s.refs b.user (s.refs b.user - 1) }
        live' free' := by
  have hpos : 0 < s.refs b.user := (h.owned b.user).mpr ⟨b, by simp, rfl⟩
  by_cases hone : s.refs b.user = 1
  · rw [hone]
    cases hcls : b.cls with
    | none =>
      obtain ⟨slotSize, hlast, harranged, -⟩ := h.arranged.release_escaped hone hcls
      exact ⟨_, live, free, hlast, h.removed harranged (h.counted.deleteLast hcls slotSize)
        (h.tiled.deleteLast b.user slotSize)⟩
    | some i =>
      obtain ⟨slotSize, hlast, harranged, -⟩ := h.arranged.release_pooled hone hcls
      exact ⟨_, live, b :: free, hlast, h.removed harranged (h.counted.recycleLast hcls slotSize)
        (h.tiled.recycleLast b.user i slotSize)⟩
  · have hsmall := h.small b.user
    obtain ⟨slotSize, hrel⟩ := h.arranged.release_shared (by omega) hsmall
    exact ⟨_, b :: live, free, hrel, h.recount slotSize (by omega) (by omega)⟩

theorem write (h : Ledger s (b :: live) free) {off : Nat} {xs : List UInt8}
    (hroom : off + xs.length ≤ s.asked b.user) :
    Ledger { s with pool := { s.pool with mem := s.pool.mem.writeBytes (b.user + off) xs } }
      (b :: live) free := by
  have hlen := h.asked b (by simp)
  have hin : Extent.Within ⟨b.user + off, xs.length⟩ b.payload := by
    simp only [Extent.Within, Block.payload]
    omega
  exact {
    arranged := (h.arranged.write (b := b) (by simp) hin).1
    counted := ⟨h.counted.liveCount, h.counted.escapedCount, h.counted.freeCount,
      h.counted.carved⟩
    tiled := h.tiled.congr rfl rfl rfl rfl
    owned := h.owned
    small := h.small
    asked := h.asked }

theorem step (h : Ledger s live free) {r : Request} (hsane : s.Sane r)
    (hstep : s.step r = some s') : ∃ live' free', Ledger s' live' free' := by
  cases r with
  | allocate G n =>
    simp only [Clients.step] at hstep
    split at hstep
    · rename_i p user halloc
      cases hstep
      exact (h.allocate hsane halloc).2
    · split at hstep <;> cases hstep
      exact ⟨live, free, h⟩
  | retain user =>
    simp only [Clients.step] at hstep
    split at hstep
    · rename_i hu
      obtain ⟨b, rest, rfl, -, hb⟩ := h.find hu
      obtain ⟨slotSize, hret⟩ := hb.arranged.retain hsane
      rw [hret] at hstep
      cases hstep
      exact ⟨_, _, hb.recount slotSize (Nat.succ_pos _) hsane⟩
    · cases hstep
  | release user =>
    simp only [Clients.step] at hstep
    split at hstep
    · rename_i hu
      obtain ⟨b, rest, rfl, -, hb⟩ := h.find hu
      obtain ⟨p', live', free', hrel, hledger⟩ := hb.release
      rw [hrel] at hstep
      cases hstep
      exact ⟨live', free', hledger⟩
    · cases hstep
  | write user off xs =>
    simp only [Clients.step] at hstep
    split at hstep
    · rename_i hu
      cases hstep
      obtain ⟨b, rest, rfl, -, hb⟩ := h.find hu.1
      exact ⟨_, _, hb.write hu.2⟩
    · cases hstep

end Ledger

/-! ## Admitted size classes -/

theorem pos_of_mem_normalizeClasses {classes : List Nat} {c : Nat}
    (h : c ∈ normalizeClasses classes) : 0 < c ∧ (c ∈ classes ∨ c = 64) := by
  unfold normalizeClasses at h
  split at h
  · rw [mem_singleton] at h
    exact ⟨by omega, Or.inr h⟩
  · rw [mem_dedup, mem_insertionSort, mem_filter] at h
    exact ⟨of_decide_eq_true h.2, Or.inl h.1⟩

/-- **In every state that sane requests reach**, from a pool with size classes of type `uint32_t`
and fewer of them than the mark of escaped blocks, the ledger is right. -/
theorem run_ledger {base arenaBytes : Nat} {classes : List Nat}
    (hclasses : ∀ c ∈ classes, c < 2 ^ 32)
    (hfew : (normalizeClasses classes).length < ESCAPED) {rs : List Request} {s : Clients}
    (hrun : exec Clients.step (.start base arenaBytes classes) rs = some s)
    (hsane : Meets Clients.step Clients.Sane (.start base arenaBytes classes) rs) :
    ∃ live free, Ledger s live free := by
  have hok (c : Nat) (hc : c ∈ normalizeClasses classes) : 0 < c ∧ c < 2 ^ 32 := by
    obtain ⟨hpos, hmem | rfl⟩ := pos_of_mem_normalizeClasses hc
    · exact ⟨hpos, hclasses c hmem⟩
    · exact ⟨hpos, by decide⟩
  refine exec_invariant_of_meets (I := fun s => ∃ live free, Ledger s live free) ?_
    ⟨[], [], Ledger.start base arenaBytes hok (Nat.le_of_lt hfew)⟩ hsane hrun
  rintro s r s' ⟨live, free, h⟩ hsane hstep
  exact h.step hsane hstep

end Muses.MemoryPool
