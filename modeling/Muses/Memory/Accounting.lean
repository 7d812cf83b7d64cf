import Muses.Memory.Separation

/-!
# The counters of a pool

What the ledger of a pool says about `stats()` and about the last reference: the counters are the
numbers of live blocks, of live blocks from the global allocator and of slots on free-lists, and a
block is given back by the release that drops its last reference.
-/

namespace Muses.MemoryPool

open Muses.Core List

/-- The block is linked into a free list. -/
def OnFreeList (p : MemoryPool) (user : Nat) : Prop :=
  ∃ i l, Chain p.mem (p.bins i).head l ∧ user ∈ l

/-- The block was an escaped one, and its memory is given back. -/
def Deleted (p : MemoryPool) (user : Nat) : Prop :=
  (∀ i, (user, i) ∉ p.carved) ∧ ∀ e ∈ p.heap, e.base ≠ headerOf user

/-- The pool has the block back. -/
def Returned (p : MemoryPool) (user : Nat) : Prop := p.OnFreeList user ∨ p.Deleted user

theorem ncard_user {l : List Block} (h : (l.map Block.user).Nodup) :
    {u | ∃ b ∈ l, b.user = u}.ncard = l.length := by
  have hset : {u | ∃ b ∈ l, b.user = u} = ((l.map Block.user).toFinset : Set Nat) := by
    ext u
    simp
  rw [hset, Set.ncard_coe_finset, toFinset_card_of_nodup h, length_map]

theorem sum_length_slotsOf {n : Nat} {free : List Block}
    (h : ∀ b ∈ free, ∃ i < n, b.cls = some i) :
    ((List.range n).map fun i => (slotsOf free i).length).sum = free.length := by
  induction free with
  | nil => simp [slotsOf]
  | cons b free ih =>
    obtain ⟨j, hj, hcls⟩ := h b (by simp)
    have hsplit (i : Nat) : (slotsOf (b :: free) i).length =
        (slotsOf free i).length + if i = j then 1 else 0 := by
      by_cases hij : i = j
      · simp [slotsOf, hcls, hij]
      · simp [slotsOf, hcls, hij, Ne.symm hij]
    simp only [hsplit, sum_map_add, ih fun x hx => h x (by simp [hx]), length_cons]
    -- exactly one class below `n` is that of `b`
    have hone : ((List.range n).map fun i => if i = j then 1 else 0).sum = 1 := by
      rw [← sum_toFinset _ nodup_range]
      simp [hj]
    omega

namespace Ledger

variable {s : Clients} {live free : List Block} {b : Block}

theorem mem_carved (h : Ledger s live free) (hb : b ∈ live ++ free) {i : Nat}
    (hcls : b.cls = some i) : (b.user, i) ∈ s.pool.carved := by
  rw [h.counted.carved.mem_iff]
  exact mem_filterMap.mpr ⟨b, hb, by simp [Block.slot, hcls]⟩

theorem not_mem_carved (h : Ledger s live free) (hb : b ∈ live ++ free) (hcls : b.cls = none)
    (i : Nat) : (b.user, i) ∉ s.pool.carved := by
  intro hc
  obtain ⟨x, hx, huser, hxcls⟩ := h.block_of_carved hc
  cases h.arranged.eq_of_user_eq hx hb huser
  cases hcls.symm.trans hxcls

theorem stats_live (h : Ledger s live free) :
    s.pool.stats.live = {u | 0 < s.refs u}.ncard := by
  have hnodup := h.arranged.nodup_user
  rw [map_append] at hnodup
  simp only [h.owned, ncard_user hnodup.of_append_left]
  exact h.counted.liveCount

theorem stats_escaped (h : Ledger s live free) :
    s.pool.stats.escaped = {u | 0 < s.refs u ∧ ∀ i, (u, i) ∉ s.pool.carved}.ncard := by
  have hnodup := h.arranged.nodup_user
  rw [map_append] at hnodup
  have hset : {u | 0 < s.refs u ∧ ∀ i, (u, i) ∉ s.pool.carved} =
      {u | ∃ b ∈ live.filter fun b => b.cls = none, b.user = u} := by
    ext u
    simp only [Set.mem_ofPred_eq, h.owned, mem_filter, decide_eq_true_eq]
    constructor
    · rintro ⟨⟨b, hb, rfl⟩, hnot⟩
      refine ⟨b, ⟨hb, ?_⟩, rfl⟩
      by_contra hcls
      obtain ⟨i, hi⟩ := Option.ne_none_iff_exists'.mp hcls
      exact hnot i (h.mem_carved (mem_append_left _ hb) hi)
    · rintro ⟨b, ⟨hb, hcls⟩, rfl⟩
      exact ⟨⟨b, hb, rfl⟩, h.not_mem_carved (mem_append_left _ hb) hcls⟩
  rw [hset, ncard_user (hnodup.of_append_left.sublist (filter_sublist.map _)),
    ← countP_eq_length_filter]
  exact h.counted.escapedCount

theorem stats_recycled (h : Ledger s live free) :
    s.pool.stats.recycled =
      ((List.range s.pool.classes.length).map fun i => (slotsOf free i).length).sum := by
  have hcount (i : Nat) : (s.pool.bins i).freeCount = (slotsOf free i).length := by
    rw [h.counted.freeCount i, slotsOf, length_map, countP_eq_length_filter]
  simp only [stats, hcount]

theorem stats_recycled_eq (h : Ledger s live free) : s.pool.stats.recycled = free.length := by
  rw [h.stats_recycled]
  apply sum_length_slotsOf
  intro b hb
  obtain ⟨i, hi⟩ := Option.ne_none_iff_exists'.mp (h.arranged.freed b hb)
  exact ⟨i, (h.arranged.pooled b (mem_append_right _ hb) i hi).1, hi⟩

/-- **Carved is what is live and not escaped, and what is free.** -/
theorem length_carved (h : Ledger s live free) :
    s.pool.carved.length =
      (s.pool.stats.live - s.pool.stats.escaped) + s.pool.stats.recycled := by
  have hlive : (live.filterMap Block.slot).length + live.countP (fun b => b.cls = none) =
      live.length := by
    clear h
    induction live with
    | nil => rfl
    | cons b live ih => cases hcls : b.cls <;> simp [Block.slot, hcls] at ih ⊢ <;> omega
  have hfree : (free.filterMap Block.slot).length = free.length := by
    have hsome := h.arranged.freed
    clear h
    induction free with
    | nil => rfl
    | cons b free ih =>
      obtain ⟨i, hi⟩ := Option.ne_none_iff_exists'.mp (hsome b (by simp))
      simp [Block.slot, hi, ih fun x hx => hsome x (by simp [hx])]
  have hcarved := h.counted.carved.length_eq
  rw [filterMap_append, length_append, hfree] at hcarved
  have hl : s.pool.stats.live = live.length := h.counted.liveCount
  have he : s.pool.stats.escaped = _ := h.counted.escapedCount
  rw [h.stats_recycled_eq, hl, he]
  omega

/-! ### The last reference -/

theorem not_returned (h : Ledger s live free) (hb : b ∈ live) : ¬ s.pool.Returned b.user := by
  rintro (⟨i, l, hchain, hmem⟩ | ⟨hnot, hheap⟩)
  · rw [hchain.eq (h.arranged.chain i)] at hmem
    exact h.arranged.not_mem_slotsOf hb i hmem
  · cases hcls : b.cls with
    | none => exact hheap b.ext (h.arranged.escaped b hb hcls).1 rfl
    | some i => exact hnot i (h.mem_carved (mem_append_left _ hb) hcls)

theorem onFreeList {p : MemoryPool} {refs : Nat → Nat} (h : Arranged p refs live free)
    (hb : b ∈ free) : p.OnFreeList b.user := by
  obtain ⟨i, hi⟩ := Option.ne_none_iff_exists'.mp (h.freed b hb)
  refine ⟨i, slotsOf free i, h.chain i, ?_⟩
  exact mem_map.mpr ⟨b, mem_filter.mpr ⟨hb, by simpa using hi⟩, rfl⟩

/-- **Release returns the block exactly when it drops the last reference.** -/
theorem release_returned (h : Ledger s (b :: live) free) :
    ∃ p', s.pool.release b.user = some p' ∧ (p'.Returned b.user ↔ s.refs b.user = 1) := by
  have hpos : 0 < s.refs b.user := (h.owned b.user).mpr ⟨b, by simp, rfl⟩
  by_cases hone : s.refs b.user = 1
  · cases hcls : b.cls with
    | none =>
      obtain ⟨slotSize, hlast, -, -⟩ := h.arranged.release_escaped hone hcls
      refine ⟨_, hlast, iff_of_true (Or.inr ⟨h.not_mem_carved (by simp) hcls, ?_⟩) hone⟩
      intro e he
      exact of_decide_eq_true (mem_filter.mp he).2
    | some i =>
      obtain ⟨slotSize, hlast, harranged, -⟩ := h.arranged.release_pooled hone hcls
      exact ⟨_, hlast, iff_of_true (Or.inl (onFreeList harranged (by simp))) hone⟩
  · have hsmall := h.small b.user
    obtain ⟨slotSize, hrel⟩ := h.arranged.release_shared (by omega) hsmall
    refine ⟨_, hrel, iff_of_false ?_ hone⟩
    -- the block stays in the ledger, with one reference less
    exact (h.recount slotSize (n := s.refs b.user - 1) (by omega) (by omega)).not_returned (by simp)

theorem live_eq_nil (h : Ledger s live free) (hnone : ∀ u, s.refs u = 0) : live = [] := by
  rw [eq_nil_iff_forall_not_mem]
  intro b hb
  have hpos := (h.owned b.user).mpr ⟨b, hb, rfl⟩
  rw [hnone] at hpos
  exact Nat.lt_irrefl 0 hpos

end Ledger

/-- **Accounting.** In every state that sane requests reach, `live` counts the addresses with a
positive reference count, and their headers hold that count; `escaped` counts those among them that
were never carved; `recycled` is the length of all free-lists; and carved is what is live and not
escaped, and what is recycled. A release by somebody who holds a reference succeeds, and returns
the block exactly when the reference is the last. Without references everything is recycled. -/
theorem pool_accounting {base arenaBytes : Nat} {classes : List Nat}
    (hclasses : ∀ c ∈ classes, c < 2 ^ 32)
    (hfew : (normalizeClasses classes).length < ESCAPED) {rs : List Request} {s : Clients}
    (hrun : exec Clients.step (.start base arenaBytes classes) rs = some s)
    (hsane : Meets Clients.step Clients.Sane (.start base arenaBytes classes) rs) :
    s.pool.stats.live = {u | 0 < s.refs u}.ncard ∧
    (∀ u, 0 < s.refs u →
      ∃ hd, s.pool.readHeader u = some hd ∧ hd.magic = MAGIC ∧ hd.refcount = s.refs u) ∧
    s.pool.stats.escaped = {u | 0 < s.refs u ∧ ∀ i, (u, i) ∉ s.pool.carved}.ncard ∧
    (∃ lists : Nat → List Nat,
      (∀ i, Chain s.pool.mem (s.pool.bins i).head (lists i)) ∧
      s.pool.stats.recycled =
        ((List.range s.pool.classes.length).map fun i => (lists i).length).sum) ∧
    s.pool.carved.length =
      (s.pool.stats.live - s.pool.stats.escaped) + s.pool.stats.recycled ∧
    (∀ u, 0 < s.refs u →
      ∃ p', s.pool.release u = some p' ∧ (p'.Returned u ↔ s.refs u = 1)) ∧
    ((∀ u, s.refs u = 0) →
      s.pool.stats.live = 0 ∧ s.pool.stats.escaped = 0 ∧
        s.pool.stats.recycled = s.pool.carved.length) := by
  obtain ⟨live, free, h⟩ := run_ledger hclasses hfew hrun hsane
  refine ⟨h.stats_live, fun u hu => ?_, h.stats_escaped,
    ⟨slotsOf free, h.arranged.chain, h.stats_recycled⟩, h.length_carved, fun u hu => ?_,
    fun hnone => ?_⟩
  · obtain ⟨b, hb, rfl⟩ := (h.owned u).mp hu
    obtain ⟨hd, hread, hmagic, -, hcount⟩ := h.arranged.header b hb
    exact ⟨hd, hread, hmagic, hcount⟩
  · obtain ⟨b, rest, rfl, -, hb⟩ := h.find hu
    exact hb.release_returned
  · have hnil := h.live_eq_nil hnone
    subst hnil
    have hlive : s.pool.stats.live = 0 := h.counted.liveCount
    have hescaped : s.pool.stats.escaped = 0 := h.counted.escapedCount
    refine ⟨hlive, hescaped, ?_⟩
    rw [h.length_carved, hlive, hescaped]
    omega

def shareOnce : List Request :=
  [.allocate .above 10, .allocate .above 5000, .retain 32, .release 32]

theorem pool_accounting_shareOnce :
    ∃ s : Clients, exec Clients.step (.start 0 4096 [64]) shareOnce = some s ∧
      s.pool.stats = ⟨2, 0, 1, 0⟩ ∧ s.refs 32 = 1 ∧ {u | 0 < s.refs u}.ncard = 2 ∧
      ∃ p', s.pool.release 32 = some p' ∧ p'.Returned 32 := by
  have hall {s : Clients}
      (hrun : exec Clients.step (.start 0 4096 [64]) shareOnce = some s) :=
    pool_accounting (by decide) (by decide) hrun (by decide +kernel)
  refine ⟨_, rfl, rfl, rfl, (hall rfl).1.symm, ?_⟩
  obtain ⟨p', hrel, hlast⟩ := (hall rfl).2.2.2.2.2.1 32 (by decide)
  exact ⟨p', hrel, hlast.mpr rfl⟩

/-- **A reference that cannot be given back**: the request that wraps around has destroyed the
first header, and the release of the first block aborts. -/
theorem wrapping_request_unreleasable :
    ∃ s : Clients, exec Clients.step (.start 0 4096 [64]) wrappingRequest = some s ∧
      s.pool.stats.live = 2 ∧ s.refs (2 ^ 21 + 32) = 1 ∧
      s.pool.readHeader (2 ^ 21 + 32) = none ∧ s.pool.release (2 ^ 21 + 32) = none := by
  have hread {s : Clients}
      (hrun : exec Clients.step (.start 0 4096 [64]) wrappingRequest = some s) :
      s.pool.readHeader (2 ^ 21 + 32) = none := by
    cases hrun
    decide +kernel
  refine ⟨_, rfl, rfl, rfl, hread rfl, ?_⟩
  simp only [release, checkedHeader, hread rfl, Option.filter_none, Option.map_none]

end Muses.MemoryPool
