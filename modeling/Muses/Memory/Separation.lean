import Muses.Memory.Clients

/-!
# The blocks of a pool keep apart

What the ledger of a pool says about addresses: carved blocks lie inside the arena and beside each
other, each of them is live or waits in the free-list of its class, links stay inside their slots,
and live allocations do not overlap. Requests so large that the sum with the header size wraps
around break all of it.
-/

namespace Muses.MemoryPool

open Muses.Core List

def slotExtent (p : MemoryPool) (c : Nat × Nat) : Extent :=
  ⟨c.1, blockBytes (p.classes.getD c.2 0) - headerSize⟩

def Clients.allocation (s : Clients) (user : Nat) : Extent :=
  ⟨headerOf user, headerSize + s.asked user⟩

namespace Arranged

variable {p : MemoryPool} {refs : Nat → Nat} {live free : List Block}

theorem eq_of_user_eq (h : Arranged p refs live free) {a b : Block} (ha : a ∈ live ++ free)
    (hb : b ∈ live ++ free) (huser : a.user = b.user) : a = b := by
  by_contra hne
  exact Block.Apart.user_ne (h.disjoint_of_ne ha hb hne) huser

theorem nodup_user (h : Arranged p refs live free) :
    ((live ++ free).map Block.user).Nodup := by
  rw [List.Nodup, pairwise_map]
  exact h.disjoint.imp fun hab => hab.user_ne

theorem nodup_slotsOf (h : Arranged p refs live free) (i : Nat) : (slotsOf free i).Nodup := by
  have hfree : (free.map Block.user).Nodup := by
    have hall := h.nodup_user
    rw [map_append] at hall
    exact hall.of_append_right
  exact hfree.sublist (filter_sublist.map _)

theorem not_mem_slotsOf (h : Arranged p refs live free) {b : Block} (hb : b ∈ live) (i : Nat) :
    b.user ∉ slotsOf free i := by
  intro hmem
  obtain ⟨x, hx, huser⟩ := mem_map.mp hmem
  exact ((pairwise_append.mp h.disjoint).2.2 b hb x (mem_filter.mp hx).1).user_ne
    huser.symm

end Arranged

namespace Ledger

variable {s : Clients} {live free : List Block}

variable {slot cls : Nat}

theorem block_of_carved (h : Ledger s live free) (hc : (slot, cls) ∈ s.pool.carved) :
    ∃ b ∈ live ++ free, b.user = slot ∧ b.cls = some cls := by
  obtain ⟨b, hb, hslot⟩ := mem_filterMap.mp (h.counted.carved.mem_iff.mp hc)
  obtain ⟨i, hi, heq⟩ := Option.map_eq_some_iff.mp hslot
  cases heq
  exact ⟨b, hb, rfl, hi⟩

theorem live_or_free (h : Ledger s live free) (hc : (slot, cls) ∈ s.pool.carved) :
    (0 < s.refs slot ∧ ∀ i, slot ∉ slotsOf free i) ∨
      (s.refs slot = 0 ∧ (slotsOf free cls).count slot = 1 ∧
        ∀ i, i ≠ cls → slot ∉ slotsOf free i) := by
  obtain ⟨b, hb, rfl, hcls⟩ := h.block_of_carved hc
  rcases mem_append.mp hb with hlive | hfree
  · left
    exact ⟨(h.owned b.user).mpr ⟨b, hlive, rfl⟩, h.arranged.not_mem_slotsOf hlive⟩
  · right
    refine ⟨?_, ?_, ?_⟩
    · by_contra hpos
      obtain ⟨x, hx, huser⟩ := (h.owned b.user).mp (Nat.pos_of_ne_zero hpos)
      exact ((pairwise_append.mp h.arranged.disjoint).2.2 x hx b hfree).user_ne huser
    · apply count_eq_one_of_mem (h.arranged.nodup_slotsOf cls)
      exact mem_map.mpr ⟨b, mem_filter.mpr ⟨hfree, by simpa using hcls⟩, rfl⟩
    · intro i hi hmem
      obtain ⟨x, hx, huser⟩ := mem_map.mp hmem
      obtain ⟨hxfree, hxcls⟩ := mem_filter.mp hx
      -- the slot identifies its block, and the block its class
      have heq := h.arranged.eq_of_user_eq (mem_append_right _ hxfree) hb huser
      subst heq
      simp only [hcls, Option.some.injEq, decide_eq_true_eq] at hxcls
      exact hi hxcls.symm

theorem carved_of_free (h : Ledger s live free) {i : Nat} (hmem : slot ∈ slotsOf free i) :
    (slot, i) ∈ s.pool.carved := by
  obtain ⟨b, hb, rfl⟩ := mem_map.mp hmem
  obtain ⟨hfree, hcls⟩ := mem_filter.mp hb
  rw [h.counted.carved.mem_iff]
  refine mem_filterMap.mpr ⟨b, mem_append_right _ hfree, ?_⟩
  simp [Block.slot, of_decide_eq_true hcls]

theorem link_within (h : Ledger s live free) (hc : (slot, cls) ∈ s.pool.carved) :
    Extent.Within ⟨slot, linkSize⟩ (s.pool.slotExtent (slot, cls)) := by
  obtain ⟨b, hb, -, hcls⟩ := h.block_of_carved hc
  have hi := (h.arranged.pooled b hb cls hcls).1
  obtain ⟨hpos, hlt⟩ := h.arranged.classes_ok (s.pool.classes.getD cls 0) (by
    rw [getD_eq_getElem _ _ hi]
    exact getElem_mem hi)
  obtain ⟨-, hlink⟩ := blockBytes_ge hpos hlt
  simp only [slotExtent, Extent.Within]
  omega

theorem allocation_disjoint (h : Ledger s live free) {u v : Nat} (hu : 0 < s.refs u)
    (hv : 0 < s.refs v) (hne : u ≠ v) : (s.allocation u).Disjoint (s.allocation v) := by
  obtain ⟨a, ha, rfl⟩ := (h.owned u).mp hu
  obtain ⟨b, hb, rfl⟩ := (h.owned v).mp hv
  have hwithin (x : Block) (hx : x ∈ live) : (s.allocation x.user).Within x.ext := by
    have := h.asked x hx
    simp only [Clients.allocation, headerOf, Extent.Within, Block.ext]
    omega
  refine Extent.Disjoint.mono ?_ (hwithin a ha) (hwithin b hb)
  refine h.arranged.disjoint_of_ne (mem_append_left _ ha) (mem_append_left _ hb) ?_
  rintro rfl
  exact hne rfl

end Ledger

/-- **Separation.** From a pool with any arena and fewer than 65535 size classes of type
`uint32_t`, in every state that sane requests reach: the carved blocks lie inside the arena and
pairwise apart; each of them is live and on no free-list, or dead and exactly once on the free-list
of its own class; nothing else is on a free-list; a link stays inside its slot; and live
allocations do not overlap. -/
theorem pool_separation {base arenaBytes : Nat} {classes : List Nat}
    (hclasses : ∀ c ∈ classes, c < 2 ^ 32)
    (hfew : (normalizeClasses classes).length < ESCAPED) {rs : List Request} {s : Clients}
    (hrun : exec Clients.step (.start base arenaBytes classes) rs = some s)
    (hsane : Meets Clients.step Clients.Sane (.start base arenaBytes classes) rs) :
    (∀ c ∈ s.pool.carved, (s.pool.carvedExtent c).Within s.pool.arena) ∧
    s.pool.carved.Pairwise
      (fun a b => (s.pool.carvedExtent a).Disjoint (s.pool.carvedExtent b)) ∧
    (∃ lists : Nat → List Nat,
      (∀ i, Chain s.pool.mem (s.pool.bins i).head (lists i)) ∧
      (∀ i, ∀ slot ∈ lists i, (slot, i) ∈ s.pool.carved) ∧
      ∀ slot cls, (slot, cls) ∈ s.pool.carved →
        (0 < s.refs slot ∧ ∀ i, slot ∉ lists i) ∨
          (s.refs slot = 0 ∧ (lists cls).count slot = 1 ∧ ∀ i, i ≠ cls → slot ∉ lists i)) ∧
    (∀ slot cls, (slot, cls) ∈ s.pool.carved →
      Extent.Within ⟨slot, linkSize⟩ (s.pool.slotExtent (slot, cls))) ∧
    ∀ u v, 0 < s.refs u → 0 < s.refs v → u ≠ v →
      (s.allocation u).Disjoint (s.allocation v) := by
  obtain ⟨live, free, h⟩ := run_ledger hclasses hfew hrun hsane
  refine ⟨fun c hc => ?_, h.tiled.disjoint, ⟨slotsOf free, h.arranged.chain,
    fun _ _ => h.carved_of_free, fun _ _ => h.live_or_free⟩, fun _ _ => h.link_within,
    fun _ _ => h.allocation_disjoint⟩
  have hin := h.tiled.within c hc
  have hle := h.arranged.bump_le
  refine hin.trans ?_
  simp only [arena, Extent.Within]
  omega

/-- Two allocations in a pool of one class; the first is shared and then given back, and its slot
is handed out again. -/
def shareAndReuse : List Request :=
  [.allocate .above 10, .allocate .above 20, .retain 32, .release 32, .release 32,
    .allocate .above 64]

theorem pool_separation_shareAndReuse :
    ∃ s : Clients, exec Clients.step (.start 0 4096 [64]) shareAndReuse = some s ∧
      s.refs 32 = 1 ∧ s.refs 128 = 1 ∧ (s.allocation 32).Disjoint (s.allocation 128) := by
  have hall {s : Clients}
      (hrun : exec Clients.step (.start 0 4096 [64]) shareAndReuse = some s) :=
    pool_separation (by decide) (by decide) hrun (by decide +kernel)
  refine ⟨_, rfl, rfl, rfl, ?_⟩
  exact (hall rfl).2.2.2.2 32 128 (by decide) (by decide) (by decide)

/-! ## A request that wraps around -/

def around2MiB : GlobalAllocator :=
  .favouring fun n => if n = 16 then 2 ^ 21 - 16 else 2 ^ 21

/-- A large block, then a request for 16 bytes less than the range of `size_t`: with the header it
comes to 16 bytes, half a header. -/
def wrappingRequest : List Request :=
  [.allocate around2MiB 5000, .allocate around2MiB (2 ^ 64 - 16)]

/-- **Two live headers overlap**: the second one is written over the first, which is lost. -/
theorem wrapping_request_overlaps :
    ∃ s : Clients, exec Clients.step (.start 0 4096 [64]) wrappingRequest = some s ∧
      s.refs (2 ^ 21 + 32) = 1 ∧ s.refs (2 ^ 21 + 16) = 1 ∧
      ¬ Extent.Disjoint ⟨headerOf (2 ^ 21 + 32), headerSize⟩
        ⟨headerOf (2 ^ 21 + 16), headerSize⟩ ∧
      ¬ (s.allocation (2 ^ 21 + 32)).Disjoint (s.allocation (2 ^ 21 + 16)) ∧
      s.pool.readHeader (2 ^ 21 + 32) = none := by
  refine ⟨_, rfl, rfl, rfl, by decide, ?_, ?_⟩
  · decide +kernel
  · decide +kernel

/-! ## No allocation is short -/

/-- The `bytes` bytes at `user` lie inside the block that they belong to: behind the header of a
block carved from the arena, or of a block from the global allocator. -/
def Usable (p : MemoryPool) (user bytes : Nat) : Prop :=
  (∃ cls, (user, cls) ∈ p.carved ∧ Extent.Within ⟨user, bytes⟩ (p.slotExtent (user, cls))) ∨
    ∃ e ∈ p.heap, e.base + headerSize = user ∧ Extent.Within ⟨user, bytes⟩ e

theorem Ledger.usable_of_carved {s : Clients} {live free : List Block} (h : Ledger s live free)
    {p : MemoryPool} {user bytes : Nat} (hi : s.pool.pickClass bytes < s.pool.classes.length)
    (hclasses : p.classes = s.pool.classes) (hc : (user, s.pool.pickClass bytes) ∈ p.carved) :
    Usable p user bytes := by
  have hfits := pickClass_fits hi
  obtain ⟨hpos, hlt⟩ := h.arranged.classes_ok (s.pool.classes.getD (s.pool.pickClass bytes) 0) (by
    rw [getD_eq_getElem _ _ hi]
    exact getElem_mem hi)
  obtain ⟨hroom, -⟩ := blockBytes_ge hpos hlt
  refine .inl ⟨_, hc, ?_⟩
  simp only [slotExtent, hclasses, Extent.Within]
  omega

/-- **Allocation is never short**, for a size that leaves room for the header in a `size_t`. In
every state that sane requests reach, `allocate` fails because `operator new` does, or returns as
many usable bytes as it was asked for. -/
theorem allocation_never_short {base arenaBytes : Nat} {classes : List Nat}
    (hclasses : ∀ c ∈ classes, c < 2 ^ 32)
    (hfew : (normalizeClasses classes).length < ESCAPED) {rs : List Request} {s : Clients}
    (hrun : exec Clients.step (.start base arenaBytes classes) rs = some s)
    (hsane : Meets Clients.step Clients.Sane (.start base arenaBytes classes) rs)
    (G : GlobalAllocator) {bytes : Nat} (hbytes : headerSize + bytes < sizeRange) :
    (s.pool.allocate G bytes = none ∧ G.new s.pool.inUse (headerSize + bytes) = none) ∨
      ∃ p user, s.pool.allocate G bytes = some (p, user) ∧ Usable p user bytes := by
  obtain ⟨live, free, h⟩ := run_ledger hclasses hfew hrun hsane
  cases halloc : s.pool.allocate G bytes with
  | none =>
    have hnew := h.allocate_eq_none halloc
    rw [Nat.mod_eq_of_lt hbytes] at hnew
    exact .inl ⟨rfl, hnew⟩
  | some r =>
    obtain ⟨p, user⟩ := r
    refine .inr ⟨p, user, rfl, ?_⟩
    cases allocate_cases halloc with
    | recycled hi hpop =>
      obtain ⟨next, rfl⟩ := popFree_some hpop
      obtain ⟨-, -, b, free', rfl, hcls, hperm, -, -⟩ := h.arranged.pop hpop
      have hfree : b.user ∈ slotsOf free (s.pool.pickClass bytes) :=
        mem_map_of_mem (mem_filter.mpr ⟨hperm.mem_iff.mpr (by simp), by simpa using hcls⟩)
      exact h.usable_of_carved hi rfl (h.carved_of_free hfree)
    | carved hi hcarve =>
      obtain ⟨-, rfl⟩ := carveFromArena_some hcarve
      exact h.usable_of_carved hi rfl mem_cons_self
    | escaped hesc =>
      obtain ⟨raw, -, heq⟩ := Option.map_eq_some_iff.mp hesc
      cases heq
      refine .inr ⟨⟨raw, (headerSize + bytes) % sizeRange⟩, mem_cons_self, rfl, ?_⟩
      rw [Nat.mod_eq_of_lt hbytes]
      simp only [Extent.Within]
      omega

/-- The slot that was given back serves a request of exactly its size. -/
theorem allocation_never_short_shareAndReuse :
    ∃ s : Clients, exec Clients.step (.start 0 4096 [64]) shareAndReuse = some s ∧
      ((s.pool.allocate .above 64 = none ∧
        GlobalAllocator.above.new s.pool.inUse (headerSize + 64) = none) ∨
        ∃ p user, s.pool.allocate .above 64 = some (p, user) ∧ Usable p user 64) := by
  have hall {s : Clients}
      (hrun : exec Clients.step (.start 0 4096 [64]) shareAndReuse = some s) :=
    allocation_never_short (by decide) (by decide) hrun (by decide +kernel) .above
      (show headerSize + 64 < sizeRange by decide)
  exact ⟨_, rfl, hall rfl⟩

/-- A request for 32 bytes less than the range of `size_t`: with the header it comes to nothing, and
`operator new(0)` returns a block without a single usable byte. -/
theorem wrapping_request_short :
    ∃ p user, (Clients.start 0 4096 [64]).pool.allocate .above (2 ^ 64 - 32) = some (p, user) ∧
      p.carved = [] ∧ p.heap = [⟨user - headerSize, 0⟩] ∧ ¬ Usable p user (2 ^ 64 - 32) := by
  refine ⟨_, _, rfl, rfl, rfl, ?_⟩
  rintro (⟨cls, hmem, -⟩ | ⟨e, he, -, hin⟩)
  · cases hmem
  · cases mem_singleton.mp he
    have hend := hin.2
    simp only [headerSize, sizeRange] at hend
    omega

end Muses.MemoryPool
