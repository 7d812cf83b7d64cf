import Muses.Memory.PooledBuffer

/-!
# Where the blocks of a pool lie

`Arranged p refs live free` says that the memory of the pool is made of the blocks `live`, which
callers hold, and `free`, which wait in the free-lists: their extents do not overlap, a live block
has an intact header that counts its references, and the link in each free block leads to the next
one of its class. `Layout` is the case of one reference to each block.

Every operation leaves the contents of all other live blocks alone.
-/

namespace Muses.MemoryPool

open Muses.Core Function List

/-- A block, known by the address of its payload. `cls` is the size class, or `none` for a block
from the global allocator. -/
structure Block where
  user : Nat
  len : Nat
  cls : Option Nat
  deriving DecidableEq, Repr

namespace Block

def ext (b : Block) : Extent := ⟨b.user - headerSize, headerSize + b.len⟩

def headerExt (b : Block) : Extent := ⟨b.user - headerSize, headerSize⟩

def payload (b : Block) : Extent := ⟨b.user, b.len⟩

def sizeClass (b : Block) : Nat := b.cls.getD ESCAPED

def Apart (a b : Block) : Prop := a.ext.Disjoint b.ext

instance : Std.Symm Apart := ⟨fun _ _ => Extent.Disjoint.symm⟩

theorem headerExt_within (b : Block) : b.headerExt.Within b.ext := by
  simp only [Extent.Within, headerExt, ext]
  omega

theorem payload_within (b : Block) (h : headerSize ≤ b.user) : b.payload.Within b.ext := by
  simp only [Extent.Within, payload, ext]
  omega

theorem link_within (b : Block) (h : linkSize ≤ b.len) :
    Extent.Within ⟨b.user, linkSize⟩ b.payload :=
  ⟨Nat.le_refl _, Nat.add_le_add_left h _⟩

theorem headerExt_disjoint_payload (b : Block) (h : headerSize ≤ b.user) :
    b.payload.Disjoint b.headerExt := by
  simp only [Extent.Disjoint, payload, headerExt]
  omega

theorem Apart.user_ne {a b : Block} (h : a.Apart b) : a.user ≠ b.user := by
  intro heq
  simp only [Apart, Extent.Disjoint, ext, headerSize, heq] at h
  omega

end Block

/-- The list that is linked through the blocks themselves. -/
inductive Chain (m : Memory Object) : Option Nat → List Nat → Prop where
  | nil : Chain m none []
  | cons {a : Nat} {next : Option Nat} {l : List Nat}
      (hlink : m.load a linkSize = some (.link next)) (htail : Chain m next l) :
      Chain m (some a) (a :: l)

theorem Chain.congr {m m' : Memory Object} {head : Option Nat} {l : List Nat}
    (h : Chain m head l) (hsame : ∀ a ∈ l, m.SameOn m' ⟨a, linkSize⟩) : Chain m' head l := by
  induction h with
  | nil => exact .nil
  | cons hlink _ ih =>
    refine .cons ?_ (ih fun a ha => hsame a (by simp [ha]))
    rw [← Memory.load_congr (by decide) (hsame _ (by simp))]
    exact hlink

theorem Chain.eq {m : Memory Object} {head : Option Nat} {l l' : List Nat}
    (h : Chain m head l) (h' : Chain m head l') : l = l' := by
  induction h generalizing l' with
  | nil =>
    cases h'
    rfl
  | cons hlink _ ih =>
    cases h' with
    | cons hlink' htail' =>
      cases hlink.symm.trans hlink'
      rw [ih htail']

def slotsOf (free : List Block) (i : Nat) : List Nat :=
  (free.filter fun b => b.cls = some i).map Block.user

/-- The header before the block has its class and its references. -/
def HeaderOk (p : MemoryPool) (b : Block) (n : Nat) : Prop :=
  ∃ h, p.readHeader b.user = some h ∧ h.magic = MAGIC ∧ h.sizeClass = b.sizeClass ∧ h.refcount = n

/-- The blocks in use and the free ones lie apart, with their headers and links in place. -/
structure Arranged (p : MemoryPool) (refs : Nat → Nat) (live free : List Block) : Prop where
  disjoint : (live ++ free).Pairwise Block.Apart
  placed : ∀ b ∈ live ++ free, headerSize ≤ b.user
  pooled : ∀ b ∈ live ++ free, ∀ i, b.cls = some i →
    i < p.classes.length ∧ p.classes.getD i 0 ≤ b.len ∧ linkSize ≤ b.len ∧
      b.ext.Within ⟨p.arenaBase, p.bump⟩
  escaped : ∀ b ∈ live, b.cls = none →
    b.ext ∈ p.heap ∧ b.ext.Disjoint ⟨p.arenaBase, p.arenaBytes⟩
  freed : ∀ b ∈ free, b.cls ≠ none
  header : ∀ b ∈ live, HeaderOk p b (refs b.user)
  chain : ∀ i, Chain p.mem (p.bins i).head (slotsOf free i)
  bump_le : p.bump ≤ p.arenaBytes
  classes_ok : ∀ c ∈ p.classes, 0 < c ∧ c < 2 ^ 32
  classes_few : p.classes.length ≤ ESCAPED

abbrev Layout (p : MemoryPool) (live free : List Block) : Prop :=
  Arranged p (fun _ => 1) live free

namespace Arranged

variable {p : MemoryPool} {refs : Nat → Nat} {live free : List Block}

variable {b : Block}

theorem disjoint_of_ne (h : Arranged p refs live free) {a : Block} (ha : a ∈ live ++ free)
    (hb : b ∈ live ++ free) (hne : a ≠ b) : a.ext.Disjoint b.ext :=
  h.disjoint.forall ha hb hne

theorem make (base arenaBytes : Nat) {classes : List Nat}
    (hok : ∀ c ∈ normalizeClasses classes, 0 < c ∧ c < 2 ^ 32)
    (hfew : (normalizeClasses classes).length ≤ ESCAPED) :
    Arranged (.make base arenaBytes classes) refs [] [] where
  disjoint := .nil
  placed := by simp
  pooled := by simp
  escaped := by simp
  freed := by simp
  header := by simp
  chain _ := .nil
  bump_le := Nat.zero_le _
  classes_ok := hok
  classes_few := hfew

/-! ## What the layout depends on -/

theorem frame (h : Arranged p refs live free) {m : Memory Object}
    (hlive : ∀ b ∈ live, p.mem.SameOn m b.headerExt)
    (hfree : ∀ b ∈ free, p.mem.SameOn m ⟨b.user, linkSize⟩) :
    Arranged { p with mem := m } refs live free where
  disjoint := h.disjoint
  placed := h.placed
  pooled := h.pooled
  escaped := h.escaped
  freed := h.freed
  header b hb := by
    obtain ⟨hd, hread, hok⟩ := h.header b hb
    refine ⟨hd, ?_, hok⟩
    unfold readHeader headerOf at hread ⊢
    rwa [← Memory.load_congr (by decide) (hlive b hb)]
  chain i := by
    refine (h.chain i).congr fun a ha => ?_
    obtain ⟨b, hb, rfl⟩ := mem_map.mp ha
    exact hfree b (mem_filter.mp hb).1
  bump_le := h.bump_le
  classes_ok := h.classes_ok
  classes_few := h.classes_few

theorem frame_outside (h : Arranged p refs live free) {m : Memory Object}
    (hsame : ∀ b ∈ live ++ free, p.mem.SameOn m b.ext) :
    Arranged { p with mem := m } refs live free := by
  refine h.frame (fun b hb => (hsame b (by simp [hb])).mono b.headerExt_within) fun b hb => ?_
  have hb' : b ∈ live ++ free := by simp [hb]
  -- a free block has a class, hence room for its link
  obtain ⟨i, hi⟩ := Option.ne_none_iff_exists'.mp (h.freed b hb)
  exact (hsame b hb').mono
    ((b.link_within (h.pooled b hb' i hi).2.2.1).trans (b.payload_within (h.placed b hb')))

/-- **Writing to a payload.** The layout stays, and so does every other live block. -/
theorem write (h : Arranged p refs live free) (hb : b ∈ live) {a : Nat} {xs : List UInt8}
    (hin : Extent.Within ⟨a, xs.length⟩ b.payload) :
    Arranged { p with mem := p.mem.writeBytes a xs } refs live free ∧
      ∀ x ∈ live, x ≠ b → p.mem.SameOn (p.mem.writeBytes a xs) x.ext := by
  have hb' : b ∈ live ++ free := by simp [hb]
  have hplaced := h.placed b hb'
  have hother (x : Block) (hx : x ∈ live ++ free) (hne : x ≠ b) :
      p.mem.SameOn (p.mem.writeBytes a xs) x.ext :=
    Memory.writeBytes_sameOn ((h.disjoint_of_ne hb' hx hne.symm).mono
      (hin.trans (b.payload_within hplaced)) (.refl _))
  refine ⟨h.frame (fun x hx => ?_) fun x hx => ?_, fun x hx => hother x (by simp [hx])⟩
  · by_cases hxb : x = b
    · subst hxb
      exact Memory.writeBytes_sameOn
        ((x.headerExt_disjoint_payload hplaced).mono hin (.refl _))
    · exact (hother x (by simp [hx]) hxb).mono x.headerExt_within
  · have hx' : x ∈ live ++ free := by simp [hx]
    have hxb : x ≠ b := by
      rintro rfl
      -- a block cannot be both live and free: it would not overlap itself
      exact ((pairwise_append.mp h.disjoint).2.2 x hb x hx).user_ne rfl
    obtain ⟨i, hi⟩ := Option.ne_none_iff_exists'.mp (h.freed x hx)
    exact (hother x hx' hxb).mono
      ((x.link_within (h.pooled x hx' i hi).2.2.1).trans (x.payload_within (h.placed x hx')))

theorem perm (h : Arranged p refs live free) {live' : List Block} (hperm : live ~ live') :
    Arranged p refs live' free := by
  have hall : live ++ free ~ live' ++ free := hperm.append_right free
  exact {
    disjoint := (hall.pairwise_iff fun h => Extent.Disjoint.symm h).mp h.disjoint
    placed := fun b hb => h.placed b (hall.mem_iff.mpr hb)
    pooled := fun b hb => h.pooled b (hall.mem_iff.mpr hb)
    escaped := fun b hb => h.escaped b (hperm.mem_iff.mpr hb)
    freed := h.freed
    header := fun b hb => h.header b (hperm.mem_iff.mpr hb)
    chain := h.chain
    bump_le := h.bump_le
    classes_ok := h.classes_ok
    classes_few := h.classes_few }

theorem congr_refs (h : Arranged p refs live free) {refs' : Nat → Nat}
    (hrefs : ∀ b ∈ live, refs' b.user = refs b.user) : Arranged p refs' live free :=
  { h with header := fun b hb => by rw [hrefs b hb]; exact h.header b hb }

/-! ## Blocks that change hands -/

/-- A block that can be handed out: apart from all others. -/
structure Fresh (p : MemoryPool) (live free : List Block) (b : Block) : Prop where
  placed : headerSize ≤ b.user
  pooled : ∀ i, b.cls = some i →
    i < p.classes.length ∧ p.classes.getD i 0 ≤ b.len ∧ linkSize ≤ b.len ∧
      b.ext.Within ⟨p.arenaBase, p.bump⟩
  escaped : b.cls = none → b.ext ∈ p.heap ∧ b.ext.Disjoint ⟨p.arenaBase, p.arenaBytes⟩
  apart : ∀ x ∈ live ++ free, b.Apart x

theorem tail (h : Arranged p refs (b :: live) free) :
    Arranged p refs live free ∧ Fresh p live free b := by
  have hsub : ∀ x ∈ live ++ free, x ∈ b :: live ++ free := fun x hx => by simp [hx]
  refine ⟨?_, ?_⟩
  · exact {
      disjoint := (pairwise_cons.mp h.disjoint).2
      placed := fun x hx => h.placed x (hsub x hx)
      pooled := fun x hx => h.pooled x (hsub x hx)
      escaped := fun x hx => h.escaped x (by simp [hx])
      freed := h.freed
      header := fun x hx => h.header x (by simp [hx])
      chain := h.chain
      bump_le := h.bump_le
      classes_ok := h.classes_ok
      classes_few := h.classes_few }
  · exact {
      placed := h.placed b (by simp)
      pooled := h.pooled b (by simp)
      escaped := h.escaped b (by simp)
      apart := (pairwise_cons.mp h.disjoint).1 }

theorem Fresh.sameOn_header {x : Block} (hb : b.Apart x) (m : Memory Object) (hd : Object) :
    m.SameOn (m.store (headerOf b.user) headerSize hd) x.ext :=
  Memory.store_sameOn (Extent.Disjoint.mono hb b.headerExt_within (.refl _))

theorem writeHeader (h : Arranged p refs live free) (hb : Fresh p live free b) (hd : BlockHeader) :
    Arranged (p.writeHeader b.user hd) refs live free :=
  h.frame_outside fun x hx => Fresh.sameOn_header (hb.apart x hx) p.mem (.header hd)

theorem enter (h : Arranged p refs live free) (hb : Fresh p live free b) (slotSize n : Nat) :
    Arranged (p.writeHeader b.user ⟨MAGIC, b.sizeClass, slotSize, n⟩)
      (update refs b.user n) (b :: live) free := by
  have h' := h.writeHeader hb ⟨MAGIC, b.sizeClass, slotSize, n⟩
  exact {
    disjoint := pairwise_cons.mpr ⟨hb.apart, h.disjoint⟩
    placed := by
      rintro x hx
      rcases mem_cons.mp hx with rfl | hx
      · exact hb.placed
      · exact h.placed x hx
    pooled := by
      rintro x hx
      rcases mem_cons.mp hx with rfl | hx
      · exact hb.pooled
      · exact h.pooled x hx
    escaped := by
      rintro x hx
      rcases mem_cons.mp hx with rfl | hx
      · exact hb.escaped
      · exact h.escaped x hx
    freed := h.freed
    header := by
      rintro x hx
      rcases mem_cons.mp hx with rfl | hx
      · refine ⟨⟨MAGIC, x.sizeClass, slotSize, n⟩, ?_, rfl, rfl, by simp⟩
        simp only [readHeader, MemoryPool.writeHeader]
        rw [Memory.load_store _ _ (by decide)]
      · rw [update_of_ne (hb.apart x (by simp [hx])).user_ne.symm]
        exact h'.header x hx
    chain := h'.chain
    bump_le := h.bump_le
    classes_ok := h.classes_ok
    classes_few := h.classes_few }

theorem push (h : Arranged p refs live free) (hb : Fresh p live free b) {i : Nat}
    (hcls : b.cls = some i) : Arranged (p.pushFree i b.user) refs live (b :: free) := by
  have hlink : Extent.Within ⟨b.user, linkSize⟩ b.ext :=
    (b.link_within (hb.pooled i hcls).2.2.1).trans (b.payload_within hb.placed)
  have hsame (x : Block) (hx : x ∈ live ++ free) :
      p.mem.SameOn (p.mem.store b.user linkSize (.link (p.bins i).head)) x.ext :=
    Memory.store_sameOn (Extent.Disjoint.mono (hb.apart x hx) hlink (.refl _))
  have h' := h.frame_outside hsame
  have hperm : live ++ b :: free ~ b :: (live ++ free) := perm_middle
  have hcons {P : Block → Prop} (h0 : P b) (hr : ∀ x ∈ live ++ free, P x) :
      ∀ x ∈ live ++ b :: free, P x := by
    intro x hx
    rcases mem_cons.mp (hperm.mem_iff.mp hx) with rfl | hx
    · exact h0
    · exact hr x hx
  exact {
    disjoint := (hperm.pairwise_iff fun h => Extent.Disjoint.symm h).mpr
      (pairwise_cons.mpr ⟨hb.apart, h.disjoint⟩)
    placed := hcons hb.placed h.placed
    pooled := hcons hb.pooled h.pooled
    escaped := h.escaped
    freed := by
      rintro x hx
      rcases mem_cons.mp hx with rfl | hx
      · simp [hcls]
      · exact h.freed x hx
    header := h'.header
    chain := by
      intro j
      by_cases hj : j = i
      · subst hj
        have hslots : slotsOf (b :: free) j = b.user :: slotsOf free j := by
          simp [slotsOf, hcls]
        simp only [pushFree, update_self, hslots]
        exact .cons (Memory.load_store _ _ (by decide)) (h'.chain j)
      · have hslots : slotsOf (b :: free) j = slotsOf free j := by
          simp [slotsOf, hcls, Ne.symm hj]
        simp only [pushFree, update_of_ne hj, hslots]
        exact h'.chain j
    bump_le := h.bump_le
    classes_ok := h.classes_ok
    classes_few := h.classes_few }

theorem popFree_isSome (h : Arranged p refs live free) (i : Nat) :
    ∃ p' slot, p.popFree i = some (p', slot) := by
  have hchain := h.chain i
  unfold popFree
  cases hhead : (p.bins i).head with
  | none => exact ⟨p, none, rfl⟩
  | some a =>
    rw [hhead] at hchain
    generalize slotsOf free i = l at hchain
    cases hchain with
    | cons hlink _ => simp [readLink, hlink]

theorem pop (h : Arranged p refs live free) {i slot : Nat} {p' : MemoryPool}
    (hpop : p.popFree i = some (p', some slot)) :
    p'.mem = p.mem ∧ p'.classes = p.classes ∧
      ∃ b free', b.user = slot ∧ b.cls = some i ∧ free ~ b :: free' ∧
        Arranged p' refs live free' ∧ Fresh p' live free' b := by
  unfold popFree at hpop
  cases hhead : (p.bins i).head with
  | none => simp [hhead] at hpop
  | some a =>
    simp only [hhead, Option.map_eq_some_iff, Prod.mk.injEq, Option.some.injEq] at hpop
    obtain ⟨next, hread, rfl, rfl⟩ := hpop
    have hchain := h.chain i
    rw [hhead] at hchain
    obtain ⟨l, hslots, hrest⟩ : ∃ l, slotsOf free i = a :: l ∧ Chain p.mem next l := by
      generalize slotsOf free i = l at hchain
      cases hchain with
      | cons hlink htail =>
        simp only [readLink, hlink, Option.some.injEq] at hread
        exact ⟨_, rfl, hread ▸ htail⟩
    -- the first slot of the class is some free block, with no block of the class before it
    obtain ⟨b, fs, hfilter, rfl, rfl⟩ := map_eq_cons_iff.mp hslots
    obtain ⟨l₁, l₂, rfl, hl₁, hb, rfl⟩ := filter_eq_cons_iff.mp hfilter
    have hcls : b.cls = some i := by simpa using hb
    have hperm : live ++ (l₁ ++ b :: l₂) ~ b :: (live ++ (l₁ ++ l₂)) := by
      rw [← append_assoc, ← append_assoc]
      exact perm_middle
    have hsub : ∀ x ∈ live ++ (l₁ ++ l₂), x ∈ live ++ (l₁ ++ b :: l₂) :=
      fun x hx => hperm.mem_iff.mpr (by simp [hx])
    have hpair := (hperm.pairwise_iff fun h => Extent.Disjoint.symm h).mp h.disjoint
    have hmem : b ∈ live ++ (l₁ ++ b :: l₂) := by simp
    refine ⟨rfl, rfl, b, l₁ ++ l₂, rfl, hcls, perm_middle, ?_, ?_⟩
    · exact {
        disjoint := (pairwise_cons.mp hpair).2
        placed := fun x hx => h.placed x (hsub x hx)
        pooled := fun x hx => h.pooled x (hsub x hx)
        escaped := h.escaped
        freed := fun x hx => h.freed x (by
          rcases mem_append.mp hx with hx | hx <;> simp [hx])
        header := h.header
        chain := by
          intro j
          by_cases hj : j = i
          · subst hj
            have hnone : l₁.filter (fun x => x.cls = some j) = [] :=
              filter_eq_nil_iff.mpr hl₁
            simpa [slotsOf, hnone] using hrest
          · have := h.chain j
            simpa [slotsOf, hcls, Ne.symm hj, update_of_ne hj] using this
        bump_le := h.bump_le
        classes_ok := h.classes_ok
        classes_few := h.classes_few }
    · exact {
        placed := h.placed b hmem
        pooled := h.pooled b hmem
        escaped := by simp [hcls]
        apart := (pairwise_cons.mp hpair).1 }

end Arranged

/-! ## Sizes -/

theorem and_align (x : Nat) (hx : x < 2 ^ 64) : x &&& (2 ^ 64 - 16) = x / 16 * 16 := by
  have hmask : 2 ^ 64 - 16 = (2 ^ 60 - 1) <<< 4 := by decide
  have hround : x / 16 * 16 = (x >>> 4) <<< 4 := by
    rw [Nat.shiftRight_eq_div_pow, Nat.shiftLeft_eq]
  rw [hmask, hround]
  apply Nat.eq_of_testBit_eq
  intro i
  simp only [Nat.testBit_and, Nat.testBit_shiftLeft, Nat.testBit_two_pow_sub_one,
    Nat.testBit_shiftRight]
  by_cases hi : 4 ≤ i
  · have hbit : ¬ i - 4 < 60 → x.testBit i = false := fun h =>
      Nat.testBit_lt_two_pow (Nat.lt_of_lt_of_le hx (Nat.pow_le_pow_right (by decide) (by omega)))
    by_cases hlt : i - 4 < 60
    · simp [hi, hlt, Nat.add_sub_cancel' hi]
    · simp [hi, hlt, Nat.add_sub_cancel' hi, hbit hlt]
  · simp [hi]

theorem blockBytes_ge {c : Nat} (hpos : 0 < c) (hlt : c < 2 ^ 32) :
    headerSize + c ≤ blockBytes c ∧ headerSize + linkSize ≤ blockBytes c := by
  have hsmall : (headerSize + c + maxAlign - 1) % sizeRange = c + 47 := by
    simp only [headerSize, maxAlign, sizeRange]
    omega
  have hround : blockBytes c = (c + 47) / 16 * 16 := by
    rw [blockBytes, roundUp, hsmall]
    exact and_align _ (by omega)
  rw [hround]
  simp only [headerSize, linkSize]
  omega

variable {p : MemoryPool}

theorem pickClass_fits {n : Nat} (h : p.pickClass n < p.classes.length) :
    n ≤ p.classes.getD (p.pickClass n) 0 := by
  rw [getD_eq_getElem _ _ h]
  exact of_decide_eq_true (findIdx_getElem (w := h))

/-! ## Allocating and releasing -/

def handOut (p : MemoryPool) (slot idx slotSize : Nat) : MemoryPool :=
  { p.initHeader slot idx slotSize with live := p.live + 1 }

def recycleLast (p : MemoryPool) (user idx slotSize : Nat) : MemoryPool :=
  (({ p.writeHeader user ⟨MAGIC, idx, slotSize, wrapCount (1 - 1)⟩ with
    live := p.live - 1 } : MemoryPool).writeHeader user
      ⟨0, idx, slotSize, wrapCount (1 - 1)⟩).pushFree idx user

def deleteLast (p : MemoryPool) (user slotSize : Nat) : MemoryPool :=
  ({ p.writeHeader user ⟨MAGIC, ESCAPED, slotSize, wrapCount (1 - 1)⟩ with
    live := p.live - 1, escaped := p.escaped - 1 } : MemoryPool).delete (headerOf user)

/-- The three ways to a block: from a free list, from the arena, from the heap. -/
inductive Allocation (G : GlobalAllocator) (p : MemoryPool) (n : Nat) : MemoryPool → Nat → Prop
  | recycled {p₁ : MemoryPool} {slot : Nat} (hi : p.pickClass n < p.classes.length)
      (hpop : p.popFree (p.pickClass n) = some (p₁, some slot)) :
      Allocation G p n
        (p₁.handOut slot (p.pickClass n) (p.classes.getD (p.pickClass n) 0)) slot
  | carved {p₁ : MemoryPool} {slot : Nat} (hi : p.pickClass n < p.classes.length)
      (hcarve : p.carveFromArena (p.pickClass n) (p.classes.getD (p.pickClass n) 0) =
        some (p₁, slot)) :
      Allocation G p n
        (p₁.handOut slot (p.pickClass n) (p.classes.getD (p.pickClass n) 0)) slot
  | escaped {p' : MemoryPool} {user : Nat} (hesc : p.allocateEscaped G n = some (p', user)) :
      Allocation G p n p' user

theorem popFree_none {p' : MemoryPool} {i : Nat} (h : p.popFree i = some (p', none)) : p' = p := by
  unfold popFree at h
  cases hhead : (p.bins i).head with
  | none => simpa [hhead, eq_comm] using h
  | some a => simp [hhead] at h

theorem allocate_cases {G : GlobalAllocator} {p' : MemoryPool} {n user : Nat}
    (h : p.allocate G n = some (p', user)) : Allocation G p n p' user := by
  unfold allocate at h
  simp only at h
  split at h
  · exact .escaped h
  rename_i hclass
  have hi : p.pickClass n < p.classes.length := by omega
  obtain ⟨⟨p₁, slot⟩, htake, hrest⟩ := Option.bind_eq_some_iff.mp h
  obtain ⟨⟨p₂, slot₂⟩, hpop, heq⟩ := Option.map_eq_some_iff.mp htake
  cases slot₂ with
  | some slot₂ =>
    simp only [Prod.mk.injEq] at heq
    obtain ⟨rfl, rfl⟩ := heq
    cases hrest
    exact .recycled hi hpop
  | none =>
    obtain rfl := popFree_none hpop
    simp only at heq
    split at heq <;> cases heq
    · rename_i slot₃ hcarve
      cases hrest
      exact .carved hi hcarve
    · exact .escaped hrest

namespace Arranged

variable {p p' : MemoryPool} {refs : Nat → Nat} {live free : List Block} {G : GlobalAllocator}

variable {i n : Nat} {b : Block}

theorem carve (h : Arranged p refs live free) {slot : Nat} (hi : i < p.classes.length)
    (hcarve : p.carveFromArena i (p.classes.getD i 0) = some (p', slot)) :
    p'.mem = p.mem ∧ ∃ b, b.user = slot ∧ b.cls = some i ∧ p.classes.getD i 0 ≤ b.len ∧
      Arranged p' refs live free ∧ Fresh p' live free b := by
  unfold carveFromArena at hcarve
  split at hcarve
  · cases hcarve
  rename_i hroom
  simp only [Option.some.injEq, Prod.mk.injEq] at hcarve
  obtain ⟨rfl, rfl⟩ := hcarve
  obtain ⟨hpos, hlt⟩ := h.classes_ok (p.classes.getD i 0) (by
    rw [getD_eq_getElem _ _ hi]; exact getElem_mem hi)
  obtain ⟨hslot, hlink⟩ := blockBytes_ge hpos hlt
  set size := blockBytes (p.classes.getD i 0) with hsize
  let b : Block := ⟨p.arenaBase + p.bump + headerSize, size - headerSize, some i⟩
  have hext : b.ext = ⟨p.arenaBase + p.bump, size⟩ := by
    simp only [Block.ext, b, Extent.mk.injEq]
    omega
  have hgrow : Extent.Within ⟨p.arenaBase, p.bump⟩ ⟨p.arenaBase, p.bump + size⟩ := by
    simp only [Extent.Within]
    omega
  refine ⟨rfl, b, rfl, rfl, by simp only [b]; omega, ?_, ?_⟩
  · exact { h with
      pooled := fun x hx j hj =>
        let ⟨h1, h2, h3, h4⟩ := h.pooled x hx j hj
        ⟨h1, h2, h3, h4.trans hgrow⟩
      bump_le := by simp only; omega }
  · refine ⟨by simp only [b]; omega, ?_, by simp [b], ?_⟩
    · rintro j hj
      obtain rfl : i = j := by simpa [b] using hj
      refine ⟨hi, by simp only [b]; omega, by simp only [b]; omega, ?_⟩
      rw [hext]
      simp only [Extent.Within]
      omega
    · intro x hx
      unfold Block.Apart
      rw [hext]
      cases hcls : x.cls with
      | some j =>
        have := (h.pooled x hx j hcls).2.2.2
        simp only [Extent.Within, Extent.Disjoint] at this ⊢
        omega
      | none =>
        have hxlive : x ∈ live := by
          rcases mem_append.mp hx with hx | hx
          · exact hx
          · exact absurd hcls (h.freed x hx)
        have := (h.escaped x hxlive hcls).2
        simp only [Extent.Disjoint] at this ⊢
        omega

theorem escape (h : Arranged p refs live free) {raw : Nat} (hn : headerSize + n < sizeRange)
    (hnew : G.new p.inUse ((headerSize + n) % sizeRange) = some raw) :
    Arranged { p with heap := ⟨raw, (headerSize + n) % sizeRange⟩ :: p.heap } refs live free ∧
      Fresh { p with heap := ⟨raw, (headerSize + n) % sizeRange⟩ :: p.heap } live free
        ⟨raw + headerSize, n, none⟩ := by
  rw [Nat.mod_eq_of_lt hn] at hnew ⊢
  have hfresh := G.new_fresh _ _ _ hnew
  have hext : Block.ext ⟨raw + headerSize, n, none⟩ = ⟨raw, headerSize + n⟩ := by
    simp [Block.ext]
  refine ⟨{ h with
    escaped := fun x hx hcls =>
      let ⟨h1, h2⟩ := h.escaped x hx hcls
      ⟨mem_cons_of_mem _ h1, h2⟩ }, by simp, by simp, fun _ => ?_, ?_⟩
  · rw [hext]
    exact ⟨mem_cons_self, hfresh _ (by simp [inUse])⟩
  · intro x hx
    unfold Block.Apart
    rw [hext]
    cases hcls : x.cls with
    | some j =>
      have hin := (h.pooled x hx j hcls).2.2.2
      have harena := hfresh ⟨p.arenaBase, p.arenaBytes⟩ (by simp [inUse])
      have hle := h.bump_le
      simp only [Extent.Within, Extent.Disjoint] at hin harena ⊢
      omega
    | none =>
      have hxlive : x ∈ live := by
        rcases mem_append.mp hx with hx | hx
        · exact hx
        · exact absurd hcls (h.freed x hx)
      exact hfresh _ (by simp [inUse, (h.escaped x hxlive hcls).1])

theorem handOut (h : Arranged p refs live free) (hb : Fresh p live free b) (hcls : b.cls = some i)
    (slotSize : Nat) :
    Arranged (p.handOut b.user i slotSize) (update refs b.user 1) (b :: live) free ∧
      ∀ x ∈ live, p.mem.SameOn (p.handOut b.user i slotSize).mem x.ext := by
  have hsize : b.sizeClass = i := by simp [Block.sizeClass, hcls]
  have henter := h.enter hb (slotSize % 2 ^ 32) 1
  rw [hsize] at henter
  refine ⟨{ henter with }, fun x hx => ?_⟩
  exact Fresh.sameOn_header (hb.apart x (by simp [hx])) _ _

theorem allocateEscaped (h : Arranged p refs live free) {user : Nat}
    (hn : headerSize + n < sizeRange) (halloc : p.allocateEscaped G n = some (p', user)) :
    Arranged p' (update refs user 1) (⟨user, n, none⟩ :: live) free ∧
      ∀ x ∈ live, p.mem.SameOn p'.mem x.ext := by
  obtain ⟨raw, hnew, heq⟩ := Option.map_eq_some_iff.mp halloc
  simp only [Prod.mk.injEq] at heq
  obtain ⟨rfl, rfl⟩ := heq
  obtain ⟨hlayout, hfresh⟩ := h.escape hn hnew
  have henter := hlayout.enter hfresh (n % 2 ^ 32) 1
  refine ⟨{ henter with }, fun x hx => ?_⟩
  exact Fresh.sameOn_header (hfresh.apart x (by simp [hx])) _ _

/-- **Allocation.** A new live block, large enough, that overlaps nothing; the others keep their
contents. -/
theorem allocate (h : Arranged p refs live free) {user : Nat} (hn : headerSize + n < sizeRange)
    (halloc : p.allocate G n = some (p', user)) :
    ∃ b free', b.user = user ∧ n ≤ b.len ∧
      Arranged p' (update refs user 1) (b :: live) free' ∧
      ∀ x ∈ live, p.mem.SameOn p'.mem x.ext := by
  cases allocate_cases halloc with
  | recycled hi hpop =>
    obtain ⟨hmem, hclasses, b, free', rfl, hcls, -, hlayout, hfresh⟩ := h.pop hpop
    have hlen := (hfresh.pooled _ hcls).2.1
    rw [hclasses] at hlen
    obtain ⟨hlayout', hsame⟩ := hlayout.handOut hfresh hcls (p.classes.getD (p.pickClass n) 0)
    exact ⟨b, free', rfl, Nat.le_trans (pickClass_fits hi) hlen, hlayout', hmem ▸ hsame⟩
  | carved hi hcarve =>
    obtain ⟨hmem, b, rfl, hcls, hlen, hlayout, hfresh⟩ := h.carve hi hcarve
    obtain ⟨hlayout', hsame⟩ := hlayout.handOut hfresh hcls (p.classes.getD (p.pickClass n) 0)
    exact ⟨b, free, rfl, Nat.le_trans (pickClass_fits hi) hlen, hlayout', hmem ▸ hsame⟩
  | escaped hesc =>
    obtain ⟨hlayout, hsame⟩ := h.allocateEscaped hn hesc
    exact ⟨_, free, rfl, Nat.le_refl _, hlayout, hsame⟩

/-! ### Reference counts -/

theorem checkedHeader (h : Arranged p refs (b :: live) free) :
    ∃ slotSize, p.checkedHeader b.user = some ⟨MAGIC, b.sizeClass, slotSize, refs b.user⟩ := by
  obtain ⟨⟨magic, sizeClass, slotSize, refcount⟩, hread, hmagic, hsize, hcount⟩ :=
    h.header b (by simp)
  simp only at hmagic hsize hcount
  subst hmagic hsize hcount
  exact ⟨slotSize, by simp [MemoryPool.checkedHeader, hread]⟩

theorem recount (h : Arranged p refs (b :: live) free) (slotSize n : Nat) :
    Arranged (p.writeHeader b.user ⟨MAGIC, b.sizeClass, slotSize, n⟩)
      (update refs b.user n) (b :: live) free := by
  obtain ⟨htail, hfresh⟩ := h.tail
  exact htail.enter hfresh slotSize n

theorem wrapCount_of_lt (h : n < 2 ^ 31) : wrapCount n = n := by
  unfold wrapCount
  rw [Int.bmod_eq_of_le] <;> omega

/-- **Retain** adds a reference, while the count is below the range of its type. -/
theorem retain (h : Arranged p refs (b :: live) free) (hsmall : refs b.user + 1 < 2 ^ 31) :
    ∃ slotSize, p.retain b.user =
      some (p.writeHeader b.user ⟨MAGIC, b.sizeClass, slotSize, (refs b.user + 1 : Nat)⟩) := by
  obtain ⟨slotSize, hread⟩ := h.checkedHeader
  have hcount : wrapCount ((refs b.user : Int) + 1) = ((refs b.user + 1 : Nat) : Int) :=
    wrapCount_of_lt hsmall
  exact ⟨slotSize, by simp only [MemoryPool.retain, hread, Option.map_some, hcount]⟩

theorem release_shared (h : Arranged p refs (b :: live) free) (hmany : 1 < refs b.user)
    (hsmall : refs b.user < 2 ^ 31) :
    ∃ slotSize, p.release b.user =
      some (p.writeHeader b.user ⟨MAGIC, b.sizeClass, slotSize, (refs b.user - 1 : Nat)⟩) := by
  obtain ⟨slotSize, hread⟩ := h.checkedHeader
  refine ⟨slotSize, ?_⟩
  have hcount : wrapCount ((refs b.user : Int) - 1) = ((refs b.user - 1 : Nat) : Int) := by
    rw [← wrapCount_of_lt (show refs b.user - 1 < 2 ^ 31 by omega)]
    congr 1
    omega
  have hnot : ¬ ((refs b.user : Int) = 1) := by omega
  simp only [MemoryPool.release, hread, Option.map_some, hnot, if_false, hcount]

/-- **Release of the last reference to a block of the global allocator.** -/
theorem release_escaped (h : Arranged p refs (b :: live) free) (hone : refs b.user = 1)
    (hcls : b.cls = none) :
    ∃ slotSize, p.release b.user = some (p.deleteLast b.user slotSize) ∧
      Arranged (p.deleteLast b.user slotSize) refs live free ∧
      ∀ x ∈ live, p.mem.SameOn (p.deleteLast b.user slotSize).mem x.ext := by
  obtain ⟨htail, hfresh⟩ := h.tail
  obtain ⟨slotSize, hread⟩ := h.checkedHeader
  have hesc : b.sizeClass = ESCAPED := by simp [Block.sizeClass, hcls]
  have happart (x : Block) (hx : x ∈ live) : b.Apart x := hfresh.apart x (by simp [hx])
  have hread' : p.checkedHeader b.user = some ⟨MAGIC, ESCAPED, slotSize, 1⟩ := by
    rw [hread, hone, hesc]
    rfl
  refine ⟨slotSize, ?_, ?_, fun x hx => Fresh.sameOn_header (happart x hx) _ _⟩
  · simp only [MemoryPool.release, hread', Option.map_some, if_true]
    rfl
  · have hwrite := htail.writeHeader hfresh ⟨MAGIC, ESCAPED, slotSize, wrapCount (1 - 1)⟩
    refine { hwrite with escaped := ?_ }
    intro x hx hxcls
    obtain ⟨hheap, harena⟩ := hwrite.escaped x hx hxcls
    refine ⟨?_, harena⟩
    -- another block starts elsewhere, so `operator delete` does not touch its extent
    have hbase : x.ext.base ≠ headerOf b.user := by
      have := happart x hx
      simp only [Block.Apart, Extent.Disjoint, Block.ext, headerOf, headerSize] at this ⊢
      omega
    exact mem_filter.mpr ⟨hheap, by simpa using hbase⟩

theorem release_pooled (h : Arranged p refs (b :: live) free) (hone : refs b.user = 1)
    (hcls : b.cls = some i) :
    ∃ slotSize, p.release b.user = some (p.recycleLast b.user i slotSize) ∧
      Arranged (p.recycleLast b.user i slotSize) refs live (b :: free) ∧
      ∀ x ∈ live, p.mem.SameOn (p.recycleLast b.user i slotSize).mem x.ext := by
  obtain ⟨htail, hfresh⟩ := h.tail
  obtain ⟨slotSize, hread⟩ := h.checkedHeader
  obtain ⟨hi, -, hlink, -⟩ := hfresh.pooled i hcls
  have hi' : b.sizeClass = i := by simp [Block.sizeClass, hcls]
  have hne : i ≠ ESCAPED := by
    have := h.classes_few
    omega
  have hlt : ¬ i ≥ p.classes.length := by omega
  have happart (x : Block) (hx : x ∈ live) : b.Apart x := hfresh.apart x (by simp [hx])
  have hsame (x : Block) (hx : x ∈ live) (hd : Object) (m : Memory Object) :
      m.SameOn (m.store (headerOf b.user) headerSize hd) x.ext :=
    Fresh.sameOn_header (happart x hx) m hd
  have hread' : p.checkedHeader b.user = some ⟨MAGIC, i, slotSize, 1⟩ := by
    rw [hread, hone, hi']
    rfl
  refine ⟨slotSize, ?_, ?_, fun x hx => ?_⟩
  · simp only [MemoryPool.release, hread', Option.map_some, hne, if_true, if_false,
      recycleToBin, writeHeader_classes, hlt]
    rfl
  · have hwrite := (htail.writeHeader hfresh ⟨MAGIC, i, slotSize, wrapCount (1 - 1)⟩).writeHeader
      { hfresh with } ⟨0, i, slotSize, wrapCount (1 - 1)⟩
    have hpush := hwrite.push { hfresh with } hcls
    exact { hpush with }
  · have hlinked : Extent.Within ⟨b.user, linkSize⟩ b.ext :=
      (b.link_within hlink).trans (b.payload_within hfresh.placed)
    exact ((hsame x hx _ _).trans (hsame x hx _ _)).trans
      (Memory.store_sameOn (Extent.Disjoint.mono (happart x hx) hlinked (.refl _)))

end Arranged

namespace Layout

variable {p p' : MemoryPool} {live free : List Block} {G : GlobalAllocator}

theorem allocate (h : Layout p live free) {n user : Nat} (hn : headerSize + n < sizeRange)
    (halloc : p.allocate G n = some (p', user)) :
    ∃ b free', b.user = user ∧ n ≤ b.len ∧ Layout p' (b :: live) free' ∧
      ∀ x ∈ live, p.mem.SameOn p'.mem x.ext := by
  obtain ⟨b, free', huser, hlen, hlayout, hsame⟩ := Arranged.allocate h hn halloc
  rw [update_eq_self user (fun _ => 1)] at hlayout
  exact ⟨b, free', huser, hlen, hlayout, hsame⟩

theorem release {b : Block} (h : Layout p (b :: live) free)
    (hrel : p.release b.user = some p') :
    ∃ free', Layout p' live free' ∧ ∀ x ∈ live, p.mem.SameOn p'.mem x.ext := by
  cases hcls : b.cls with
  | none =>
    obtain ⟨slotSize, hlast, hlayout, hsame⟩ := h.release_escaped rfl hcls
    cases hlast.symm.trans hrel
    exact ⟨free, hlayout, hsame⟩
  | some i =>
    obtain ⟨slotSize, hlast, hlayout, hsame⟩ := h.release_pooled rfl hcls
    cases hlast.symm.trans hrel
    exact ⟨b :: free, hlayout, hsame⟩

end Layout

end Muses.MemoryPool
