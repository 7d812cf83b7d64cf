import Muses.Core.Census
import Muses.Memory.Accounting
import Muses.Memory.Buffers
import Muses.Memory.Ownership

/-!
# Pooled buffers are byte strings

A program over `PooledBuffer` variables is a client of the pool that holds one reference to the
block of each buffer, and never two to one block.
-/

namespace Muses

open Muses.Core MemoryPool Function List

namespace MemoryPool

/-- The bytes of a block that its class, or the request to the global allocator, gives to the
user. -/
def UsableSize (p : MemoryPool) (user size : Nat) : Prop :=
  (∃ i, (user, i) ∈ p.carved ∧ size = p.classes.getD i 0) ∨
    ⟨headerOf user, headerSize + size⟩ ∈ p.heap

/-- The block's bytes and its size are the same in `p'`. -/
structure Clients.Spares (s : Clients) (p' : MemoryPool) (v : Nat) : Prop where
  bytes : s.pool.mem.SameOn p'.mem ⟨v, s.asked v⟩
  usable : ∀ size, s.pool.UsableSize v size → p'.UsableSize v size

theorem Clients.Spares.trans {s s₁ : Clients} {p' : MemoryPool} {v : Nat}
    (h : s.Spares s₁.pool v) (h' : s₁.Spares p' v) (hasked : s₁.asked v = s.asked v) :
    s.Spares p' v :=
  ⟨h.bytes.trans (hasked ▸ h'.bytes), fun size husable => h'.usable size (h.usable size husable)⟩

theorem Clients.Spares.readBytes_eq {s : Clients} {p' : MemoryPool} {v n : Nat}
    (h : s.Spares p' v) (hn : n ≤ s.asked v) :
    p'.mem.readBytes v n = s.pool.mem.readBytes v n := by
  have hin : Extent.Within ⟨v, n⟩ ⟨v, s.asked v⟩ := ⟨Nat.le_refl _, Nat.add_le_add_left hn _⟩
  exact (Memory.readBytes_congr (h.bytes.mono hin)).symm

namespace Ledger

variable {s : Clients} {live free : List Block} {b : Block} {G : GlobalAllocator} {p' : MemoryPool}
  {n user v : Nat}

theorem sameOn_asked (h : Ledger s live free) (hb : b ∈ live)
    (hsame : s.pool.mem.SameOn p'.mem b.ext) :
    s.pool.mem.SameOn p'.mem ⟨b.user, s.asked b.user⟩ := by
  have hpay : Extent.Within ⟨b.user, s.asked b.user⟩ b.payload :=
    ⟨Nat.le_refl _, Nat.add_le_add_left (h.asked b hb) _⟩
  exact hsame.mono (hpay.trans (b.payload_within (h.arranged.placed b (by simp [hb]))))

theorem allocate_grows (h : Ledger s live free) (hn : headerSize + n < sizeRange)
    (halloc : s.pool.allocate G n = some (p', user)) :
    p'.classes = s.pool.classes ∧ (∀ c ∈ s.pool.carved, c ∈ p'.carved) ∧
      (∀ e ∈ s.pool.heap, e ∈ p'.heap) ∧ ∃ size, p'.UsableSize user size ∧ n ≤ size := by
  cases allocate_cases halloc with
  | recycled hi hpop =>
    obtain ⟨-, -, b, free', rfl, hcls, hperm, -, -⟩ := h.arranged.pop hpop
    obtain ⟨next, rfl⟩ := popFree_some hpop
    have hcarved := h.mem_carved (b := b)
      (mem_append_right _ (hperm.mem_iff.mpr mem_cons_self)) hcls
    exact ⟨rfl, fun _ hc => hc, fun _ he => he, _, .inl ⟨_, hcarved, rfl⟩, pickClass_fits hi⟩
  | carved hi hcarve =>
    obtain ⟨-, rfl⟩ := carveFromArena_some hcarve
    exact ⟨rfl, fun _ hc => mem_cons_of_mem _ hc, fun _ he => he, _,
      .inl ⟨_, mem_cons_self, rfl⟩, pickClass_fits hi⟩
  | escaped hesc =>
    obtain ⟨raw, -, heq⟩ := Option.map_eq_some_iff.mp hesc
    simp only [Prod.mk.injEq] at heq
    obtain ⟨rfl, rfl⟩ := heq
    refine ⟨rfl, fun _ hc => hc, fun _ he => mem_cons_of_mem _ he, n, .inr ?_, Nat.le_refl _⟩
    have hsize : (headerSize + n) % sizeRange = headerSize + n := Nat.mod_eq_of_lt hn
    simp [initHeader, writeHeader, headerOf, hsize]

theorem allocate_spares (h : Ledger s live free) (hn : headerSize + n < sizeRange)
    (halloc : s.pool.allocate G n = some (p', user)) (hv : 0 < s.refs v) : s.Spares p' v := by
  obtain ⟨hclasses, hcarved, hheap, -⟩ := h.allocate_grows hn halloc
  obtain ⟨-, -, -, -, -, hsame⟩ := h.arranged.allocate hn halloc
  obtain ⟨b, hb, rfl⟩ := (h.owned v).mp hv
  refine ⟨h.sameOn_asked hb (hsame b hb), fun size husable => ?_⟩
  rcases husable with ⟨i, hc, rfl⟩ | he
  · exact .inl ⟨i, hcarved _ hc, by rw [hclasses]⟩
  · exact .inr (hheap _ he)

/-- **The last reference to a block is released**: the others are spared. -/
theorem release_last (h : Ledger s live free) (hone : s.refs user = 1) :
    ∃ p' live' free', s.pool.release user = some p' ∧
      Ledger { s with pool := p', refs := update s.refs user 0 } live' free' ∧
      ∀ v, v ≠ user → 0 < s.refs v → s.Spares p' v := by
  obtain ⟨b, rest, rfl, -, hb⟩ := h.find (by omega : 0 < s.refs user)
  obtain ⟨p', live', free', hrel, hl⟩ := hb.release
  rw [hone] at hl
  have hfields : (∀ x ∈ rest, s.pool.mem.SameOn p'.mem x.ext) ∧ p'.classes = s.pool.classes ∧
      p'.carved = s.pool.carved ∧ ∀ e ∈ s.pool.heap, e.base ≠ headerOf b.user → e ∈ p'.heap := by
    cases hcls : b.cls with
    | none =>
      obtain ⟨slotSize, hlast, -, hsame⟩ := hb.arranged.release_escaped hone hcls
      cases hlast.symm.trans hrel
      exact ⟨hsame, rfl, rfl, fun e he hne => mem_filter.mpr ⟨he, by simpa using hne⟩⟩
    | some i =>
      obtain ⟨slotSize, hlast, -, hsame⟩ := hb.arranged.release_pooled hone hcls
      cases hlast.symm.trans hrel
      exact ⟨hsame, rfl, rfl, fun e he _ => he⟩
  obtain ⟨hsame, hclasses, hcarved, hheap⟩ := hfields
  refine ⟨p', live', free', hrel, hl, fun v hv hpos => ?_⟩
  obtain ⟨x, hx, rfl⟩ := (hb.owned v).mp hpos
  have hxrest : x ∈ rest := by
    rcases mem_cons.mp hx with rfl | hx
    · exact absurd rfl hv
    · exact hx
  refine ⟨hb.sameOn_asked hx (hsame x hxrest), fun size husable => ?_⟩
  rcases husable with ⟨i, hc, rfl⟩ | he
  · exact .inl ⟨i, hcarved ▸ hc, by rw [hclasses]⟩
  · refine .inr (hheap _ he fun hbase => hv ?_)
    -- headers lie right below their blocks, so one header is the other's
    have hplaced := hb.arranged.placed x (by simp [hxrest])
    have hplaced' := hb.arranged.placed b (by simp)
    simp only [headerOf] at hbase
    omega

theorem write_spares (h : Ledger s live free) {off : Nat} {xs : List UInt8}
    (hroom : off + xs.length ≤ s.asked user) (hu : 0 < s.refs user) :
    (∃ live' free', Ledger
      { s with pool := { s.pool with mem := s.pool.mem.writeBytes (user + off) xs } } live' free') ∧
    ∀ v, v ≠ user → 0 < s.refs v →
      s.Spares { s.pool with mem := s.pool.mem.writeBytes (user + off) xs } v := by
  obtain ⟨b, rest, rfl, -, hb⟩ := h.find hu
  refine ⟨⟨_, _, hb.write hroom⟩, fun v hv hpos => ?_⟩
  obtain ⟨x, hx, rfl⟩ := (hb.owned v).mp hpos
  have hin : Extent.Within ⟨b.user + off, xs.length⟩ b.payload := by
    have := hb.asked b (by simp)
    simp only [Extent.Within, Block.payload]
    omega
  have hsame := (hb.arranged.write (b := b) (by simp) hin).2 x hx
    fun heq => hv (congrArg Block.user heq)
  exact ⟨hb.sameOn_asked hx hsame, fun size husable => husable⟩

end Ledger

end MemoryPool

namespace PooledBuffer.Buffers

/-! ## Sound programs -/

def target (v : Option PooledBuffer) : Option Nat := v.bind PooledBuffer.data

def count (s : Buffers) (user : Nat) : Nat := (s.vars.map target).count (some user)

/-- Length within capacity, capacity within the block; no block, no capacity. -/
structure Shaped (asked : Nat → Nat) (b : PooledBuffer) : Prop where
  len_le : b.len ≤ b.cap
  block : ∀ u, b.data = some u → b.bound = true ∧ b.cap ≤ asked u
  bare : b.data = none → b.cap = 0

/-- Every buffer has its block for itself, and fits into it. -/
structure Sound (s : Buffers) (asked : Nat → Nat) : Prop where
  ledger : ∃ live free, Ledger ⟨s.pool, s.count, asked⟩ live free
  single : ∀ u, s.count u ≤ 1
  shaped : ∀ b, some b ∈ s.vars → Shaped asked b
  usable : ∀ u, 0 < s.count u → ∃ size, s.pool.UsableSize u size ∧ asked u ≤ size

/-- An operation on one buffer: `v` before, `w` after; the blocks of the others are spared. -/
structure Swap (s : Buffers) (asked : Nat → Nat) (v : Option PooledBuffer) (p' : MemoryPool)
    (w : Option PooledBuffer) (asked' : Nat → Nat) : Prop where
  ledger : ∃ live free, Ledger ⟨p', fun u => s.count u - (if target v = some u then 1 else 0) +
    (if target w = some u then 1 else 0), asked'⟩ live free
  keeps : ∀ u, 0 < s.count u → asked' u = asked u
  spares : ∀ u, 0 < s.count u → target v ≠ some u →
    Clients.Spares ⟨s.pool, s.count, asked⟩ p' u
  shaped : ∀ b, w = some b → Shaped asked' b
  usable : ∀ u, target w = some u → ∃ size, p'.UsableSize u size ∧ asked' u ≤ size
  fresh : ∀ u, target w = some u → target v = some u ∨ s.count u = 0

variable {s s' : Buffers} {asked asked' : Nat → Nat} {v w : Option PooledBuffer}
  {b b' : PooledBuffer} {p' : MemoryPool} {i j u : Nat}

@[simp] theorem target_some (b : PooledBuffer) : target (some b) = b.data := rfl

theorem find_eq_some : s.find i = some b ↔ s.vars[i]? = some (some b) :=
  Option.join_eq_some_iff

theorem count_pos (hi : s.vars[i]? = some v) (hu : target v = some u) : 0 < s.count u :=
  count_pos_iff.mpr (mem_map.mpr ⟨v, mem_of_getElem? hi, hu⟩)

theorem Shaped.congr (h : Shaped asked b) (hkeeps : ∀ u, b.data = some u → asked' u = asked u) :
    Shaped asked' b where
  len_le := h.len_le
  block u hu := ⟨(h.block u hu).1, hkeeps u hu ▸ (h.block u hu).2⟩
  bare := h.bare

theorem Shaped.bytes_eq (h : Shaped asked b)
    (hspares : ∀ u, b.data = some u → Clients.Spares ⟨s.pool, s.count, asked⟩ p' u) :
    b.bytes p' = b.bytes s.pool := by
  cases hdata : b.data with
  | none => simp [bytes, hdata]
  | some u =>
    simp only [bytes, hdata]
    exact (hspares u hdata).readBytes_eq (Nat.le_trans h.len_le (h.block u hdata).2)

theorem content_of_bound (p : MemoryPool) (hbound : b.bound = true) :
    content p (some b) = some (b.bytes p) := by
  simp [content, hbound]

theorem contents_getElem? (hi : s.vars[i]? = some v) :
    s.contents[i]? = some (content s.pool v) := by
  simp [contents, hi]

theorem set_same {α : Type} {l : List α} {x : α} (hi : l[i]? = some x) : l.set i x = l := by
  obtain ⟨hlt, rfl⟩ := List.getElem?_eq_some_iff.mp hi
  exact List.set_getElem_self hlt

theorem shaped_movedFrom : Shaped asked movedFrom :=
  ⟨Nat.le_refl 0, by simp [movedFrom], fun _ => rfl⟩

theorem content_movedFrom (p : MemoryPool) : content p (some movedFrom) = none := rfl

theorem contents_join (hi : s.vars[i]? = some v) : s.contents[i]?.join = content s.pool v := by
  rw [contents_getElem? hi, Option.join_some]

def written (p : MemoryPool) (b : PooledBuffer) (src : List UInt8) : MemoryPool :=
  match b.data with
  | some d => { p with mem := p.mem.writeBytes (d + b.len) src }
  | none => p

theorem append_eq {G : GlobalAllocator} {p p₁ : MemoryPool} {b₁ : PooledBuffer} {src : List UInt8}
    (hgrown : (if b.len + src.length > b.cap then b.reserve G p (grownCap b src.length)
      else some (p, b)) = some (p₁, b₁))
    (hroom : b₁.len + src.length ≤ b₁.cap) :
    b.append G p src =
      some (written p₁ b₁ src, { b₁ with len := b₁.len + src.length }, true) := by
  simp only [grownCap] at hgrown
  simp only [PooledBuffer.append, hgrown, Option.map_some, Nat.not_lt.mpr hroom, if_false, written]
  obtain hdata | ⟨d, hdata⟩ := Option.eq_none_or_eq_some b₁.data <;> rw [hdata]

namespace Sound

theorem target_ne (hs : Sound s asked) (hij : j ≠ i) (hi : s.vars[i]? = some v)
    (hj : s.vars[j]? = some w) (hu : target w = some u) : target v ≠ some u := by
  intro hv
  -- without the variable `i` the block still has one owner
  have hset := count_map_set target hi none (some u)
  have hj' : (s.vars.set i none)[j]? = some w := by rw [getElem?_set_ne hij.symm, hj]
  have hpos : 0 < ((s.vars.set i none).map target).count (some u) :=
    count_pos_iff.mpr (mem_map.mpr ⟨w, mem_of_getElem? hj', hu⟩)
  have hone := hs.single u
  simp only [hv, if_true] at hset
  have hnone : target none ≠ some u := by simp [target]
  rw [if_neg hnone] at hset
  change _ = s.count u + 0 at hset
  omega

/-- **One variable changes**, and the contents of the others do not. -/
theorem set (hs : Sound s asked) (hi : s.vars[i]? = some v) (h : Swap s asked v p' w asked') :
    Sound ⟨p', s.vars.set i w⟩ asked' ∧
      contents ⟨p', s.vars.set i w⟩ = s.contents.set i (content p' w) := by
  have hcount (u : Nat) : count ⟨p', s.vars.set i w⟩ u =
      s.count u - (if target v = some u then 1 else 0) + if target w = some u then 1 else 0 := by
    have hset := count_map_set target hi w (some u)
    have hpos : target v = some u → 0 < s.count u := count_pos hi
    change count ⟨p', s.vars.set i w⟩ u + _ = s.count u + _ at hset
    by_cases hv : target v = some u
    · have := hpos hv
      simp only [hv, if_true] at hset ⊢
      omega
    · simp only [hv, if_false] at hset ⊢
      omega
  refine ⟨⟨?_, fun u => ?_, fun b hb => ?_, fun u hu => ?_⟩, ?_⟩
  · obtain ⟨live, free, hl⟩ := h.ledger
    exact ⟨live, free, (funext hcount : count _ = _) ▸ hl⟩
  · have hone := hs.single u
    rw [hcount u]
    by_cases hw : target w = some u
    · rcases h.fresh u hw with hv | hzero
      · simp only [hv, hw, if_true]
        omega
      · simp only [hw, if_true]
        omega
    · simp only [hw, if_false]
      omega
  · rcases mem_or_eq_of_mem_set hb with hb | rfl
    · obtain ⟨j, hj⟩ := mem_iff_getElem?.mp hb
      exact (hs.shaped b hb).congr fun u hu => h.keeps u (count_pos hj hu)
    · exact h.shaped b rfl
  · by_cases hw : target w = some u
    · exact h.usable u hw
    · have hu' : 0 < s.count u ∧ target v ≠ some u := by
        rw [hcount u, if_neg hw] at hu
        have hone := hs.single u
        refine ⟨by omega, fun hv => ?_⟩
        simp only [hv, if_true] at hu
        omega
      obtain ⟨size, husable, hle⟩ := hs.usable u hu'.1
      exact ⟨size, (h.spares u hu'.1 hu'.2).usable size husable, h.keeps u hu'.1 ▸ hle⟩
  · refine ext_getElem? fun j => ?_
    by_cases hij : i = j
    · subst hij
      obtain ⟨hlt, -⟩ := List.getElem?_eq_some_iff.mp hi
      simp [contents, hlt]
    · simp only [contents, List.getElem?_map, List.getElem?_set_ne hij]
      cases hj : s.vars[j]? with
      | none => rfl
      | some x =>
        cases x with
        | none => rfl
        | some b =>
          have hspares (u : Nat) (hu : b.data = some u) :
              Clients.Spares ⟨s.pool, s.count, asked⟩ p' u :=
            h.spares u (count_pos hj hu) (hs.target_ne (Ne.symm hij) hi hj hu)
          have hb := (hs.shaped b (mem_of_getElem? hj)).bytes_eq hspares
          simp [content, Option.filter, hb]

/-! ### The pool calls of the operations -/

theorem ledger_back (hi : s.vars[i]? = some v) (hw : target w = target v) {live free : List Block}
    (hl : Ledger ⟨p', s.count, asked'⟩ live free) :
    ∃ live free, Ledger ⟨p', fun u => s.count u - (if target v = some u then 1 else 0) +
      (if target w = some u then 1 else 0), asked'⟩ live free := by
  refine ⟨live, free, ?_⟩
  convert hl using 2
  funext u
  have hpos : target v = some u → 0 < s.count u := count_pos hi
  rw [hw]
  split
  · have := hpos ‹_›
    omega
  · rfl

variable {n : Nat}

theorem resize (hs : Sound s asked) (hi : s.vars[i]? = some (some b)) (pos : Nat) (hn : n ≤ b.cap) :
    Swap s asked (some b) s.pool (some { b with len := n, scanPos := pos }) asked where
  ledger := by
    obtain ⟨live, free, hl⟩ := hs.ledger
    exact ledger_back hi rfl hl
  keeps _ _ := rfl
  spares _ _ _ := ⟨.refl _ _, fun _ h => h⟩
  shaped x hx := by
    have hb := hs.shaped b (mem_of_getElem? hi)
    cases hx
    exact ⟨hn, hb.block, hb.bare⟩
  usable u hu := hs.usable u (count_pos hi hu)
  fresh _ hu := .inl hu

theorem write (hs : Sound s asked) (hi : s.vars[i]? = some (some b)) {d : Nat}
    (hd : b.data = some d) {off : Nat} {xs : List UInt8} (pos : Nat)
    (hroom : off + xs.length ≤ b.cap) (hn : n ≤ b.cap) :
    Swap s asked (some b) { s.pool with mem := s.pool.mem.writeBytes (d + off) xs }
      (some { b with len := n, scanPos := pos }) asked := by
  have hb := hs.shaped b (mem_of_getElem? hi)
  have hpos : 0 < s.count d := count_pos hi hd
  obtain ⟨live, free, hl⟩ := hs.ledger
  obtain ⟨⟨live', free', hl'⟩, hspares⟩ :=
    hl.write_spares (Nat.le_trans hroom (hb.block d hd).2) hpos
  exact {
    ledger := ledger_back hi rfl hl'
    keeps := fun _ _ => rfl
    spares := fun u hu hne => hspares u (fun heq => hne (heq ▸ hd)) hu
    shaped := (hs.resize hi pos hn).shaped
    usable := fun u hu => hs.usable u (count_pos hi hu)
    fresh := fun _ hu => .inl hu }

theorem giveBack (hs : Sound s asked) (hi : s.vars[i]? = some (some b)) :
    ∃ p', b.releasePoolBlock s.pool = some (p', { b with data := none, cap := 0 }) ∧
      ∀ w, target w = none → (∀ x, w = some x → Shaped asked x) →
        Swap s asked (some b) p' w asked := by
  have hb := hs.shaped b (mem_of_getElem? hi)
  obtain ⟨live, free, hl⟩ := hs.ledger
  cases hdata : b.data with
  | none =>
    refine ⟨s.pool, by simp [releasePoolBlock, hdata], fun w hw hshaped => ?_⟩
    exact {
      ledger := ledger_back hi (by rw [hw, target_some, hdata]) hl
      keeps := fun _ _ => rfl
      spares := fun _ _ _ => ⟨.refl _ _, fun _ h => h⟩
      shaped := hshaped
      usable := by simp [hw]
      fresh := by simp [hw] }
  | some d =>
    have hpos : 0 < s.count d := count_pos hi hdata
    have hone : s.count d = 1 := Nat.le_antisymm (hs.single d) hpos
    obtain ⟨p', live', free', hrel, hl', hspares⟩ := hl.release_last hone
    refine ⟨p', by simp [releasePoolBlock, hdata, (hb.block d hdata).1, hrel],
      fun w hw hshaped => ?_⟩
    have hcount : (fun u => s.count u - (if target (some b) = some u then 1 else 0) +
        if target w = some u then 1 else 0) = update s.count d 0 := by
      funext u
      by_cases hu : u = d
      · simp [hu, hw, hdata, hone]
      · simp [hu, Ne.symm hu, hw, hdata]
    exact {
      ledger := hcount ▸ ⟨live', free', hl'⟩
      keeps := fun _ _ => rfl
      spares := fun u hu hne => hspares u (fun heq => hne (heq ▸ hdata)) hu
      shaped := hshaped
      usable := by simp [hw]
      fresh := by simp [hw] }

theorem copy {p₁ : MemoryPool} {refs : Nat → Nat} {live free : List Block} {d fresh : Nat}
    (hl : Ledger ⟨p₁, refs, asked⟩ live free) (hfresh : 0 < refs fresh)
    (hroom : b.len ≤ asked fresh) :
    ∃ p₂, (if 0 < b.len then
        { p₁ with mem := p₁.mem.writeBytes fresh (p₁.mem.readBytes d b.len) } else p₁) = p₂ ∧
      (∃ live free, Ledger ⟨p₂, refs, asked⟩ live free) ∧
      (∀ v, v ≠ fresh → 0 < refs v → Clients.Spares ⟨p₁, refs, asked⟩ p₂ v) ∧
      (∀ size, p₁.UsableSize fresh size → p₂.UsableSize fresh size) ∧
      p₂.mem.readBytes fresh b.len = p₁.mem.readBytes d b.len := by
  by_cases hlen : 0 < b.len
  · have hxs : 0 + (p₁.mem.readBytes d b.len).length ≤ asked fresh := by simpa using hroom
    obtain ⟨hl', hspares⟩ := hl.write_spares hxs hfresh
    refine ⟨_, if_pos hlen, hl', hspares, fun _ h => h, ?_⟩
    have hread := p₁.mem.readBytes_writeBytes fresh (p₁.mem.readBytes d b.len)
    rwa [Memory.length_readBytes] at hread
  · obtain hzero : b.len = 0 := by omega
    exact ⟨p₁, if_neg hlen, ⟨live, free, hl⟩, fun _ _ _ => ⟨.refl _ _, fun _ h => h⟩,
      fun _ h => h, by simp [hzero, Memory.readBytes]⟩

theorem regrow (hs : Sound s asked) (hi : s.vars[i]? = some (some b)) {G : GlobalAllocator}
    {need fresh : Nat} {p₁ : MemoryPool} (hneed : headerSize + need < sizeRange)
    (hgrow : ¬ need ≤ b.cap) (hbound : b.bound = true)
    (halloc : s.pool.allocate G need = some (p₁, fresh)) :
    ∃ p', b.reserve G s.pool need = some (p', { b with data := some fresh, cap := need }) ∧
      Swap s asked (some b) p' (some { b with data := some fresh, cap := need })
        (update asked fresh need) ∧
      { b with data := some fresh, cap := need }.bytes p' = b.bytes s.pool := by
  have hb := hs.shaped b (mem_of_getElem? hi)
  have hlen := hb.len_le
  obtain ⟨live, free, hl⟩ := hs.ledger
  obtain ⟨hzero, live₁, free₁, hl₁⟩ := hl.allocate hneed halloc
  obtain ⟨-, -, -, size, husable, hsize⟩ := hl.allocate_grows hneed halloc
  change s.count fresh = 0 at hzero
  have hspares₁ (v : Nat) (hv : 0 < s.count v) := hl.allocate_spares (v := v) hneed halloc hv
  have hkeeps (u : Nat) (hu : 0 < s.count u) : update asked fresh need u = asked u :=
    update_of_ne (fun heq => by rw [heq, hzero] at hu; omega) _ _
  have hshaped : Shaped (update asked fresh need)
      { b with data := some fresh, cap := need } :=
    ⟨by change b.len ≤ need; omega, fun u hu => by cases hu; simp [hbound], nofun⟩
  cases hdata : b.data with
  | none =>
    obtain hempty : b.len = 0 := Nat.le_zero.mp (hb.bare hdata ▸ hlen)
    have hcount : (fun u => s.count u - (if target (some b) = some u then 1 else 0) +
        if some fresh = some u then 1 else 0) = update s.count fresh 1 := by
      funext u
      by_cases hu : u = fresh
      · simp [hu, hdata, hzero]
      · simp [hu, Ne.symm hu, hdata]
    refine ⟨p₁, by simp [PooledBuffer.reserve, hgrow, halloc, hdata, releasePoolBlock], ?_,
      by simp [bytes, hdata, hempty, Memory.readBytes]⟩
    exact {
      ledger := by
        refine ⟨live₁, free₁, ?_⟩
        convert hl₁ using 2
        exact hcount
      keeps := hkeeps
      spares := fun u hu _ => hspares₁ u hu
      shaped := fun x hx => by cases hx; exact hshaped
      usable := fun u hu => by cases hu; exact ⟨size, husable, by simpa using hsize⟩
      fresh := fun u hu => by cases hu; exact .inr hzero }
  | some d =>
    have hpos : 0 < s.count d := count_pos hi hdata
    have hone : s.count d = 1 := Nat.le_antisymm (hs.single d) hpos
    have hne : d ≠ fresh := by
      rintro rfl
      omega
    have hheld : 0 < update s.count fresh 1 fresh := by simp
    have hroom : b.len ≤ update asked fresh need fresh := by
      rw [update_self]
      omega
    obtain ⟨p₂, hp₂, ⟨live₂, free₂, hl₂⟩, hspares₂, husable₂, hcopy⟩ :=
      copy (d := d) hl₁ hheld hroom
    have hlast : update s.count fresh 1 d = 1 := by rw [update_of_ne hne, hone]
    obtain ⟨p₃, live₃, free₃, hrel, hl₃, hspares₃⟩ := hl₂.release_last hlast
    have hfresh := hspares₃ fresh hne.symm hheld
    have hcount : (fun u => s.count u - (if target (some b) = some u then 1 else 0) +
        if some fresh = some u then 1 else 0) =
        update (update s.count fresh 1) d 0 := by
      funext u
      by_cases hu : u = d
      · subst hu
        simp [hdata, hone, Ne.symm hne]
      · by_cases hu' : u = fresh
        · simp [hu', hdata, hzero, hne, Ne.symm hne]
        · simp [hu, hu', Ne.symm hu, Ne.symm hu', hdata]
    refine ⟨p₃, ?_, ?_, ?_⟩
    · simp only [PooledBuffer.reserve, hgrow, if_false, halloc, Option.bind_some, hdata, hp₂,
        releasePoolBlock, hbound, hrel, Option.map_some]
    · exact {
        ledger := by
          refine ⟨live₃, free₃, ?_⟩
          convert hl₃ using 2
          exact hcount
        keeps := hkeeps
        spares := fun u hu hud => by
          have hu₁ : u ≠ fresh := by
            rintro rfl
            omega
          have hu₂ : 0 < update s.count fresh 1 u := by
            rwa [update_of_ne hu₁]
          have hud' : u ≠ d := fun heq => hud (heq ▸ hdata)
          exact ((hspares₁ u hu).trans (hspares₂ u hu₁ hu₂) (hkeeps u hu)).trans
            (hspares₃ u hud' hu₂) (hkeeps u hu)
        shaped := fun x hx => by cases hx; exact hshaped
        usable := fun u hu => by
          cases hu
          exact ⟨size, hfresh.usable size (husable₂ size husable), by simpa using hsize⟩
        fresh := fun u hu => by cases hu; exact .inr hzero }
    · have hback : p₃.mem.readBytes fresh b.len = p₂.mem.readBytes fresh b.len :=
        hfresh.readBytes_eq hroom
      have hold : p₁.mem.readBytes d b.len = s.pool.mem.readBytes d b.len :=
        (hspares₁ d hpos).readBytes_eq (Nat.le_trans hlen (hb.block d hdata).2)
      simp only [bytes, hdata]
      rw [hback, hcopy, hold]

/-! ### Growing operations -/

theorem refuses_of_none (hs : Sound s asked) {G : GlobalAllocator}
    (hnone : s.pool.allocate G n = none) : refuses s.pool G n = true := by
  obtain ⟨live, free, hl⟩ := hs.ledger
  simp [refuses, hnone, hl.allocate_eq_none hnone]

/-- **`reserve`** leaves the contents alone and makes room, or throws. -/
theorem reserve (hs : Sound s asked) (hi : s.vars[i]? = some (some b)) (hbound : b.bound = true)
    (G : GlobalAllocator) {need : Nat} (hneed : headerSize + need < sizeRange) :
    (∃ p' b' asked', b.reserve G s.pool need = some (p', b') ∧
      Sound ⟨p', s.vars.set i (some b')⟩ asked' ∧
      contents ⟨p', s.vars.set i (some b')⟩ = s.contents ∧ b'.bytes p' = b.bytes s.pool ∧
      b'.bound = true ∧ b'.len = b.len ∧ need ≤ b'.cap) ∨
    (¬ need ≤ b.cap ∧ refuses s.pool G need = true ∧ b.reserve G s.pool need = none) := by
  by_cases hgrow : need ≤ b.cap
  · refine .inl ⟨s.pool, b, asked, by simp [PooledBuffer.reserve, hgrow], ?_, ?_, rfl, hbound, rfl,
      hgrow⟩
    · rw [set_same hi]
      exact hs
    · rw [set_same hi]
  · cases halloc : s.pool.allocate G need with
    | none =>
      exact .inr ⟨hgrow, hs.refuses_of_none halloc, by simp [PooledBuffer.reserve, hgrow, halloc]⟩
    | some allocated =>
      obtain ⟨p₁, fresh⟩ := allocated
      obtain ⟨p', hres, hswap, hbytes⟩ := hs.regrow hi hneed hgrow hbound halloc
      obtain ⟨hs', hcontents⟩ := hs.set hi hswap
      refine .inl ⟨p', _, _, hres, hs', ?_, hbytes, hbound, rfl, Nat.le_refl _⟩
      have hcontent := content_of_bound p' (b := { b with data := some fresh, cap := need }) hbound
      rw [hcontents, hcontent, hbytes]
      exact set_same ((contents_getElem? hi).trans (by rw [content_of_bound _ hbound]))

theorem appendInPlace (hs : Sound s asked) (hi : s.vars[i]? = some (some b))
    (hbound : b.bound = true) {src : List UInt8} (hroom : b.len + src.length ≤ b.cap) :
    Sound ⟨written s.pool b src, s.vars.set i (some { b with len := b.len + src.length })⟩ asked ∧
      contents ⟨written s.pool b src, s.vars.set i (some { b with len := b.len + src.length })⟩ =
        s.contents.set i (some (b.bytes s.pool ++ src)) := by
  obtain hdata | ⟨d, hdata⟩ := Option.eq_none_or_eq_some b.data
  · have hbare := (hs.shaped b (mem_of_getElem? hi)).bare hdata
    obtain rfl : src = [] := eq_nil_of_length_eq_zero (by omega)
    have hpool : written s.pool b [] = s.pool := by simp [written, hdata]
    obtain ⟨hs', hcontents⟩ := hs.set hi (hs.resize hi b.scanPos hroom)
    rw [hpool]
    refine ⟨hs', hcontents.trans ?_⟩
    rw [content_of_bound]
    · simp [bytes, hdata]
    · exact hbound
  · have hpool : written s.pool b src =
        { s.pool with mem := s.pool.mem.writeBytes (d + b.len) src } := by simp [written, hdata]
    obtain ⟨hs', hcontents⟩ := hs.set hi (hs.write hi hdata b.scanPos hroom hroom)
    rw [hpool]
    refine ⟨hs', hcontents.trans ?_⟩
    rw [content_of_bound]
    · simp only [bytes, hdata]
      rw [Memory.readBytes_writeBytes_append]
    · exact hbound

theorem append (hs : Sound s asked) (hi : s.vars[i]? = some (some b)) (hbound : b.bound = true)
    (G : GlobalAllocator) {src : List UInt8} (hsmall : b.len + src.length < 2 ^ 62) :
    (∃ p' b' ok asked', b.append G s.pool src = some (p', b', ok) ∧
      Sound ⟨p', s.vars.set i (some b')⟩ asked' ∧
      contents ⟨p', s.vars.set i (some b')⟩ = s.contents.set i (some (b.bytes s.pool ++ src))) ∨
    (b.len + src.length > b.cap ∧ refuses s.pool G (grownCap b src.length) = true ∧
      b.append G s.pool src = none) := by
  by_cases hgrow : b.len + src.length > b.cap
  · obtain ⟨hge, hle⟩ := growCap_spec (b.len + src.length) b.cap
    have hneed : headerSize + grownCap b src.length < sizeRange := by
      simp only [grownCap, headerSize, sizeRange]
      omega
    rcases hs.reserve hi hbound G hneed with
      ⟨p₁, b₁, asked₁, hres, hs₁, hcontents₁, hbytes, hbound₁, hlen, hcap⟩ | ⟨-, hrefuses, hnone⟩
    · have hroom : b₁.len + src.length ≤ b₁.cap := by
        have hwant : b.len + src.length ≤ grownCap b src.length := hge
        omega
      obtain ⟨hlt, -⟩ := List.getElem?_eq_some_iff.mp hi
      obtain ⟨hs', hcontents⟩ := hs₁.appendInPlace (List.getElem?_set_self hlt) hbound₁ hroom
      simp only [List.set_set] at hs' hcontents
      refine .inl ⟨_, _, _, _, append_eq (by rw [if_pos hgrow]; exact hres) hroom, hs', ?_⟩
      rw [hcontents, hcontents₁, hbytes]
    · refine .inr ⟨hgrow, hrefuses, ?_⟩
      simp only [grownCap] at hnone
      simp only [PooledBuffer.append, if_pos hgrow, hnone, Option.map_none]
  · obtain ⟨hs', hcontents⟩ := hs.appendInPlace hi hbound (Nat.le_of_not_lt hgrow)
    exact .inl ⟨_, _, _, _, append_eq (if_neg hgrow) (Nat.le_of_not_lt hgrow), hs', hcontents⟩

/-! ### The other operations -/

theorem carve (hs : Sound s asked) (hi : s.vars[i]? = some (some b)) (hbound : b.bound = true)
    (hn : n ≤ b.len) :
    Sound ⟨(Reactor.carve s.pool b n).1, s.vars.set i (some (Reactor.carve s.pool b n).2)⟩ asked ∧
      contents ⟨(Reactor.carve s.pool b n).1, s.vars.set i (some (Reactor.carve s.pool b n).2)⟩ =
        s.contents.set i (some ((b.bytes s.pool).drop n)) := by
  have hlen := (hs.shaped b (mem_of_getElem? hi)).len_le
  have hleft : b.len - n ≤ b.cap := by omega
  have hbuf : (Reactor.carve s.pool b n).2 = { b with len := b.len - n, scanPos := 0 } := rfl
  rw [hbuf]
  by_cases hshift : 0 < b.len - n ∧ 0 < n
  · obtain ⟨d, hdata⟩ : ∃ d, b.data = some d := by
      rw [← Option.ne_none_iff_exists']
      intro hnone
      have := (hs.shaped b (mem_of_getElem? hi)).bare hnone
      omega
    have hpool : (Reactor.carve s.pool b n).1 = { s.pool with
        mem := s.pool.mem.writeBytes (d + 0) (s.pool.mem.readBytes (d + n) (b.len - n)) } := by
      simp only [Reactor.carve, if_pos hshift, shiftDown, hdata, Nat.add_zero]
    have hroom : 0 + (s.pool.mem.readBytes (d + n) (b.len - n)).length ≤ b.cap := by
      simp only [Memory.length_readBytes]
      omega
    obtain ⟨hs', hcontents⟩ := hs.set hi (hs.write hi hdata 0 hroom hleft)
    rw [hpool]
    refine ⟨hs', hcontents.trans ?_⟩
    rw [content_of_bound]
    · have hread := s.pool.mem.readBytes_writeBytes d (s.pool.mem.readBytes (d + n) (b.len - n))
      rw [Memory.length_readBytes] at hread
      simp only [bytes, hdata, Nat.add_zero, hread]
      rw [Memory.readBytes_drop _ _ hn]
    · exact hbound
  · have hpool : (Reactor.carve s.pool b n).1 = s.pool := by
      simp only [Reactor.carve, if_neg hshift]
    obtain ⟨hs', hcontents⟩ := hs.set hi (hs.resize hi 0 hleft)
    rw [hpool]
    refine ⟨hs', hcontents.trans ?_⟩
    rw [content_of_bound]
    · -- nothing to shift: either nothing is left, or nothing was taken
      rcases Nat.eq_zero_or_pos n with rfl | hpos
      · simp [bytes]
      · have hzero : b.len - n = 0 := by omega
        have hdrop : (b.bytes s.pool).drop n = [] := by
          apply drop_eq_nil_of_le
          cases hdata : b.data with
          | none => simp [bytes, hdata]
          | some d =>
            simp only [bytes, hdata, Memory.length_readBytes]
            omega
        rw [hdrop]
        cases b.data <;> simp [bytes, hzero, Memory.readBytes]
    · exact hbound

theorem rearrange (hs : Sound s asked) {vars : List (Option PooledBuffer)}
    (hcount : ∀ u, (vars.map target).count (some u) = s.count u)
    (hmem : ∀ b, some b ∈ vars → some b ∈ s.vars ∨ b.data = none ∧ b.cap = 0 ∧ b.len = 0) :
    Sound ⟨s.pool, vars⟩ asked where
  ledger := by
    obtain ⟨live, free, hl⟩ := hs.ledger
    exact ⟨live, free, (funext hcount : count ⟨s.pool, vars⟩ = s.count) ▸ hl⟩
  single u := (hcount u).trans_le (hs.single u)
  shaped b hb := by
    rcases hmem b hb with hb | ⟨hdata, hcap, hlen⟩
    · exact hs.shaped b hb
    · exact ⟨by omega, by simp [hdata], fun _ => hcap⟩
  usable u hu := hs.usable u ((hcount u).symm ▸ hu)

theorem push (hs : Sound s asked) (hdata : b.data = none) (hcap : b.cap = 0) (hlen : b.len = 0) :
    Sound ⟨s.pool, s.vars ++ [some b]⟩ asked := by
  refine hs.rearrange (fun u => ?_) fun x hx => ?_
  · simp [count, hdata]
  · rcases mem_append.mp hx with hx | hx
    · exact .inl hx
    · cases mem_singleton.mp hx
      exact .inr ⟨hdata, hcap, hlen⟩

theorem make (hs : Sound s asked) (G : GlobalAllocator) (hn : headerSize + n < sizeRange) :
    (∃ p' b' asked', PooledBuffer.make G s.pool n = some (p', b') ∧
      Sound ⟨p', s.vars ++ [some b']⟩ asked' ∧
      contents ⟨p', s.vars ++ [some b']⟩ = s.contents ++ [some []]) ∨
    (n ≠ 0 ∧ refuses s.pool G n = true ∧ PooledBuffer.make G s.pool n = none) := by
  have hs₀ : Sound ⟨s.pool, s.vars ++ [some { bound := true }]⟩ asked := hs.push rfl rfl rfl
  have hi : (s.vars ++ [some { bound := true }])[s.vars.length]? =
      some (some ({ bound := true } : PooledBuffer)) := by simp
  rcases hs₀.reserve hi rfl G hn with
    ⟨p', b', asked', hres, hs', hcontents, -⟩ | ⟨hgrow, hrefuses, hnone⟩
  · have hset : (s.vars ++ [some ({ bound := true } : PooledBuffer)]).set s.vars.length (some b') =
        s.vars ++ [some b'] := by simp
    rw [hset] at hs' hcontents
    refine .inl ⟨p', b', asked', hres, hs', hcontents.trans ?_⟩
    simp [contents, content, bytes]
  · exact .inr ⟨by simpa [Nat.le_zero] using hgrow, hrefuses, hnone⟩

theorem resetForReuse (hs : Sound s asked) (hi : s.vars[i]? = some (some b))
    (hbound : b.bound = true) :
    Sound (s.put i b.resetForReuse) asked ∧
      (s.put i b.resetForReuse).contents = s.contents.set i (some []) := by
  obtain ⟨hs', hcontents⟩ := hs.set hi (hs.resize hi 0 (Nat.zero_le b.cap))
  refine ⟨hs', hcontents.trans ?_⟩
  rw [content_of_bound]
  · cases b.data <;> simp [bytes, Memory.readBytes]
  · exact hbound

theorem destroy (hs : Sound s asked) (hi : s.vars[i]? = some (some b)) :
    ∃ p', b.destroy s.pool = some p' ∧ Sound ⟨p', s.vars.set i none⟩ asked ∧
      contents ⟨p', s.vars.set i none⟩ = s.contents.set i none := by
  obtain ⟨p', hrel, hswap⟩ := hs.giveBack hi
  refine ⟨p', by simp [PooledBuffer.destroy, hrel], hs.set hi (hswap none rfl ?_)⟩
  simp

theorem moveConstruct (hs : Sound s asked) (hj : s.vars[j]? = some (some b)) :
    Sound ((s.put j movedFrom).push b) asked ∧
      ((s.put j movedFrom).push b).contents = s.contents.set j none ++ [s.contents[j]?.join] := by
  refine ⟨hs.rearrange (fun u => ?_) fun x hx => ?_, ?_⟩
  · have hset := count_map_set target hj (some movedFrom) (some u)
    have hnone : target (some movedFrom) ≠ some u := by simp [movedFrom]
    rw [if_neg hnone] at hset
    change _ = s.count u + 0 at hset
    simp only [put, map_append, count_append, map_cons, map_nil,
      count_singleton, beq_iff_eq]
    omega
  · rcases mem_append.mp hx with hx | hx
    · rcases mem_or_eq_of_mem_set hx with hx | heq
      · exact .inl hx
      · cases heq
        exact .inr ⟨rfl, rfl, rfl⟩
    · rw [mem_singleton.mp hx]
      exact .inl (mem_of_getElem? hj)
  · rw [contents_join hj]
    simp [contents, put, Buffers.push, map_set, content_movedFrom]

/-- **The move assignment** gives the block of the destination back, and that of the source changes
hands. -/
theorem moveAssign {dst src : PooledBuffer} (hs : Sound s asked) (hij : i ≠ j)
    (hi : s.vars[i]? = some (some dst)) (hj : s.vars[j]? = some (some src)) :
    ∃ p', dst.moveAssign s.pool src = some (p', src, movedFrom) ∧
      Sound (({ s with pool := p' }.put i src).put j movedFrom) asked ∧
      (({ s with pool := p' }.put i src).put j movedFrom).contents =
        (s.contents.set i s.contents[j]?.join).set j none := by
  obtain ⟨p', hrel, hswap⟩ := hs.giveBack hi
  refine ⟨p', by simp [PooledBuffer.moveAssign, hrel], ?_⟩
  -- between the two halves the destination is as if it had been moved from
  have hswap' := hswap (some movedFrom) rfl fun x hx => by cases hx; exact shaped_movedFrom
  obtain ⟨hs₁, hcontents₁⟩ := hs.set hi hswap'
  rw [content_movedFrom] at hcontents₁
  obtain ⟨hlt, -⟩ := List.getElem?_eq_some_iff.mp hi
  have hi₁ : (s.vars.set i (some movedFrom))[i]? = some (some movedFrom) :=
    List.getElem?_set_self hlt
  have hj₁ : (s.vars.set i (some movedFrom))[j]? = some (some src) := by
    rw [getElem?_set_ne hij, hj]
  have hvars : ((s.vars.set i (some movedFrom)).set i (some src)).set j (some movedFrom) =
      (s.vars.set i (some src)).set j (some movedFrom) := by rw [set_set]
  constructor
  · refine hs₁.rearrange (fun u => ?_) fun x hx => ?_
    · have hswapped := count_map_swap target hij hi₁ hj₁ (some u)
      rw [hvars] at hswapped
      exact hswapped
    · change some x ∈ (s.vars.set i (some src)).set j (some movedFrom) at hx
      rw [← hvars] at hx
      rcases mem_or_eq_of_mem_set hx with hx | heq
      · rcases mem_or_eq_of_mem_set hx with hx | heq
        · exact .inl hx
        · exact .inl (heq ▸ mem_of_getElem? hj₁)
      · cases heq
        exact .inr ⟨rfl, rfl, rfl⟩
  · have hjoin : s.contents[j]?.join = content p' (some src) := by
      rw [← getElem?_set_ne hij, ← hcontents₁]
      exact contents_join hj₁
    have hfirst : (s.vars.map (content p')).set i none = s.contents.set i none := by
      rw [← hcontents₁, contents, map_set, content_movedFrom]
    have hsecond : (s.vars.map (content p')).set i (content p' (some src)) =
        s.contents.set i (content p' (some src)) := by
      have := congrArg (fun l => l.set i (content p' (some src))) hfirst
      simpa only [set_set] using this
    simp only [contents, put, map_set, content_movedFrom]
    rw [hsecond, ← hjoin]
    rfl

end Sound

/-! ## Whole programs -/

/-- No size of the operation wraps around: a capacity leaves room for the header, and no contents
have `2 ^ 62` bytes. -/
def Small (s : Buffers) : Op → Prop
  | .make _ n | .reserve _ _ n => headerSize + n < sizeRange
  | .append i _ src => ∀ b ∈ s.find i, b.len + src.length < 2 ^ 62
  | _ => True

instance (s : Buffers) (a : Op) : Decidable (s.Small a) := by
  unfold Small
  split <;> infer_instance

variable {a : Op}

theorem throws_of_request {G : GlobalAllocator} {n : Nat} (hreq : s.request a = some (G, n))
    (hrefuses : refuses s.pool G n = true) : s.apply (.throws a) = some s := by
  simp only [Buffers.apply, hreq, Option.bind_some, hrefuses, if_true]

theorem eq_of_throws (h : s.apply (.throws a) = some s') : s' = s := by
  obtain ⟨⟨G, n⟩, -, hthrow⟩ := Option.bind_eq_some_iff.mp h
  dsimp only at hthrow
  split at hthrow
  · exact (Option.some.inj hthrow).symm
  · exact absurd hthrow nofun

theorem Usable.vars (h : s.Usable i) : ∃ b, s.vars[i]? = some (some b) ∧ b.bound = true := by
  obtain ⟨b, hfind, hbound⟩ := h
  exact ⟨b, find_eq_some.mp hfind, hbound⟩

theorem step_eq_some : s.step a = some s' ↔ s.Legal a ∧ s.apply a = some s' := by
  simp [step]

namespace Sound

/-- **One operation.** It does to the contents what it does to byte strings, or it throws and
leaves them alone. -/
theorem apply (hs : Sound s asked) {a : Op} (hlegal : s.Legal a) (hsmall : s.Small a) :
    (∃ s' asked', s.apply a = some s' ∧ Sound s' asked' ∧ s'.contents = a.spec s.contents) ∨
      (s.apply a = none ∧ (s.apply (.throws a) = some s ∨ ∃ a', a = .throws a')) := by
  cases a with
  | make G n =>
    rcases hs.make G hsmall with ⟨p', b', asked', hmake, hs', hcontents⟩ | ⟨hn, hrefuses, hnone⟩
    · refine .inl ⟨_, asked', ?_, hs', hcontents⟩
      simp only [Buffers.apply, hmake, Option.map_some]
      rfl
    · refine .inr ⟨by simp only [Buffers.apply, hnone, Option.map_none], .inl ?_⟩
      exact throws_of_request (by simp only [request, hn, if_false]) hrefuses
  | append i G src =>
    obtain ⟨b, hi, hbound⟩ := Usable.vars hlegal
    have hfind := find_eq_some.mpr hi
    rcases hs.append hi hbound G (hsmall b hfind) with
      ⟨p', b', ok, asked', happend, hs', hcontents⟩ | ⟨hgrow, hrefuses, hnone⟩
    · refine .inl ⟨⟨p', s.vars.set i (some b')⟩, asked', ?_, hs', ?_⟩
      · simp only [Buffers.apply, hfind, Option.bind_some, happend, Option.map_some]
        rfl
      · simp only [Op.spec, contents_join hi, content_of_bound _ hbound, Option.map_some, hcontents]
    · refine .inr ⟨by simp only [Buffers.apply, hfind, Option.bind_some, hnone, Option.map_none],
        .inl ?_⟩
      exact throws_of_request (by simp only [request, hfind, Option.bind_some, hgrow, if_true])
        hrefuses
  | reserve i G need =>
    obtain ⟨b, hi, hbound⟩ := Usable.vars hlegal
    have hfind := find_eq_some.mpr hi
    rcases hs.reserve hi hbound G hsmall with
      ⟨p', b', asked', hres, hs', hcontents, -⟩ | ⟨hgrow, hrefuses, hnone⟩
    · refine .inl ⟨⟨p', s.vars.set i (some b')⟩, asked', ?_, hs', hcontents⟩
      simp only [Buffers.apply, hfind, Option.bind_some, hres, Option.map_some]
      rfl
    · refine .inr ⟨by simp only [Buffers.apply, hfind, Option.bind_some, hnone, Option.map_none],
        .inl ?_⟩
      exact throws_of_request (by simp only [request, hfind, Option.bind_some, hgrow, if_false])
        hrefuses
  | resetForReuse i =>
    obtain ⟨b, hi, hbound⟩ := Usable.vars hlegal
    have hfind := find_eq_some.mpr hi
    exact .inl ⟨_, asked, by simp only [Buffers.apply, hfind, Option.map_some],
      hs.resetForReuse hi hbound⟩
  | removePrefix i n =>
    obtain ⟨b, hi, hbound⟩ := Usable.vars hlegal.1
    have hfind := find_eq_some.mpr hi
    obtain ⟨hs', hcontents⟩ := hs.carve hi hbound (hlegal.2 b hfind)
    refine .inl ⟨_, asked, by simp only [Buffers.apply, hfind, Option.map_some]; rfl, hs', ?_⟩
    simp only [Op.spec, contents_join hi, content_of_bound _ hbound, Option.map_some, hcontents]
  | moveConstruct j =>
    obtain ⟨b, hj, -⟩ := Usable.vars hlegal
    have hfind := find_eq_some.mpr hj
    exact .inl ⟨_, asked, by simp only [Buffers.apply, hfind, Option.map_some]; rfl,
      hs.moveConstruct hj⟩
  | moveAssign i j =>
    by_cases hij : i = j
    · exact .inl ⟨s, asked, by simp only [Buffers.apply, if_pos hij], hs,
        by simp only [Op.spec, if_pos hij]⟩
    · obtain ⟨dst, hdst⟩ := Option.isSome_iff_exists.mp hlegal.1
      obtain ⟨src, hj, -⟩ := Usable.vars hlegal.2
      have hsrc := find_eq_some.mpr hj
      obtain ⟨p', hassign, hs', hcontents⟩ := hs.moveAssign hij (find_eq_some.mp hdst) hj
      refine .inl ⟨_, asked, ?_, hs', by simp only [Op.spec, if_neg hij, hcontents]⟩
      simp only [Buffers.apply, if_neg hij, hdst, hsrc, Option.bind_some, hassign, Option.map_some]
  | destroy i =>
    obtain ⟨b, hfind⟩ := Option.isSome_iff_exists.mp hlegal
    obtain ⟨p', hdestroy, hs', hcontents⟩ := hs.destroy (find_eq_some.mp hfind)
    refine .inl ⟨_, asked, ?_, hs', hcontents⟩
    simp only [Buffers.apply, hfind, Option.bind_some, hdestroy, Option.map_some]
    rfl
  | throws a =>
    cases happly : s.apply (.throws a) with
    | none => exact .inr ⟨rfl, .inr ⟨a, rfl⟩⟩
    | some s' =>
      cases eq_of_throws happly
      exact .inl ⟨s, asked, rfl, hs, rfl⟩

theorem start {base arenaBytes : Nat} {classes : List Nat} (hclasses : ∀ c ∈ classes, c < 2 ^ 32)
    (hfew : (normalizeClasses classes).length < ESCAPED) :
    Sound (.start (.make base arenaBytes classes)) fun _ => 0 where
  ledger := by
    have hnothing : exec Clients.step (.start base arenaBytes classes) [] =
        some (.start base arenaBytes classes) := rfl
    exact run_ledger hclasses hfew hnothing trivial
  single _ := Nat.zero_le _
  shaped := by simp [Buffers.start]
  usable u hu := absurd hu (Nat.lt_irrefl 0)

/-- **A whole program** goes side by side with its byte strings. -/
theorem run {as : List Op} (hs : Sound s asked) (hrun : exec Buffers.step s as = some s')
    (hsmall : Meets Buffers.step Small s as) :
    (∃ asked', Sound s' asked') ∧ s'.contents = as.foldl Op.spec s.contents := by
  have hsim : ∀ vals (t : Buffers) a t', (vals = t.contents ∧ ∃ asked, Sound t asked) →
      t.Small a → t.step a = some t' →
      ∃ vals', some (Op.spec vals a) = some vals' ∧ vals' = t'.contents ∧
        ∃ asked, Sound t' asked := by
    rintro vals t a t' ⟨rfl, asked, ht⟩ hsmall hstep
    obtain ⟨hlegal, happly⟩ := step_eq_some.mp hstep
    rcases ht.apply hlegal hsmall with ⟨t₁, asked₁, h₁, ht₁, hcontents⟩ | ⟨hnone, -⟩
    · cases happly.symm.trans h₁
      exact ⟨_, rfl, hcontents.symm, asked₁, ht₁⟩
    · rw [hnone] at happly
      exact absurd happly nofun
  obtain ⟨vals, hexec, hvals, hsound⟩ := exec_simulates hsim ⟨rfl, asked, hs⟩ hsmall hrun
  rw [exec_total] at hexec
  exact ⟨hsound, hvals.symm.trans (Option.some.inj hexec).symm⟩

theorem owned (hs : Sound s asked) (hi : s.vars[i]? = some (some b)) (hu : b.data = some u) :
    (∃ size, s.pool.UsableSize u size ∧ b.cap ≤ size) ∧
    (∃ hd, s.pool.readHeader u = some hd ∧ hd.magic = MAGIC ∧ hd.refcount = 1) ∧
    ¬ s.pool.Returned u ∧ ∀ j b', s.vars[j]? = some (some b') → b'.data = some u → j = i := by
  have hpos : 0 < s.count u := count_pos hi hu
  obtain ⟨size, husable, hsize⟩ := hs.usable u hpos
  have hcap := ((hs.shaped b (mem_of_getElem? hi)).block u hu).2
  obtain ⟨live, free, hl⟩ := hs.ledger
  obtain ⟨x, hx, rfl⟩ := (hl.owned u).mp hpos
  obtain ⟨hd, hread, hmagic, -, hcount⟩ := hl.arranged.header x hx
  have hone : s.count x.user = 1 := Nat.le_antisymm (hs.single _) hpos
  refine ⟨⟨size, husable, Nat.le_trans hcap hsize⟩, ⟨hd, hread, hmagic, ?_⟩, hl.not_returned hx,
    fun j b' hj hu' => ?_⟩
  · rw [hcount]
    exact congrArg Nat.cast hone
  · by_contra hne
    exact hs.target_ne hne hi hj hu' hu

end Sound

theorem spec_getElem? (a : Op) (vals : List (Option (List UInt8))) (hi : i < vals.length)
    (hne : i ∉ a.touched) : (a.spec vals)[i]? = vals[i]? := by
  cases a with
  | make G n => exact getElem?_append_left hi
  | reserve i G need => rfl
  | throws a => rfl
  | append j _ _ | resetForReuse j | removePrefix j _ | destroy j =>
    exact getElem?_set_ne fun heq => hne (mem_singleton.mpr heq.symm)
  | moveConstruct j =>
    have hset : (vals.set j none)[i]? = vals[i]? :=
      getElem?_set_ne fun heq => hne (mem_singleton.mpr heq.symm)
    rw [← hset]
    exact getElem?_append_left (by simpa using hi)
  | moveAssign j k =>
    simp only [Op.touched, mem_cons, not_mem_nil, or_false, not_or] at hne
    simp only [Op.spec]
    split
    · rfl
    · rw [getElem?_set_ne (Ne.symm hne.2), getElem?_set_ne (Ne.symm hne.1)]

/-! ## Buffers are byte strings -/

/-- **Buffers are byte strings.** On a fresh pool, whatever a program does with its buffers: their
contents are those of byte strings under the same operations. Each buffer is within its capacity,
which is within the usable size of a live block with one reference, and no other buffer is on that
block. Every operation succeeds or throws, and leaves the contents of other buffers alone. When all
buffers are destroyed, no block is live. -/
theorem buffers_are_byte_strings {base arenaBytes : Nat} {classes : List Nat}
    (hclasses : ∀ c ∈ classes, c < 2 ^ 32)
    (hfew : (normalizeClasses classes).length < ESCAPED) {as : List Op} {s : Buffers}
    (hrun : exec Buffers.step (.start (.make base arenaBytes classes)) as = some s)
    (hsmall : Meets Buffers.step Small (.start (.make base arenaBytes classes)) as) :
    s.contents = as.foldl Op.spec [] ∧
    (∀ i b, s.find i = some b → b.len ≤ b.cap ∧ (b.data = none → b.cap = 0) ∧
      ∀ u, b.data = some u →
        (∃ size, s.pool.UsableSize u size ∧ b.cap ≤ size) ∧
        (∃ hd, s.pool.readHeader u = some hd ∧ hd.magic = MAGIC ∧ hd.refcount = 1) ∧
        ¬ s.pool.Returned u ∧ ∀ j b', s.find j = some b' → b'.data = some u → j = i) ∧
    (∀ a, s.Legal a → s.Small a → (∀ a', a ≠ .throws a') →
      (∃ s', s.step a = some s' ∧ s'.contents = a.spec s.contents ∧
        ∀ i < s.vars.length, i ∉ a.touched → s'.contents[i]? = s.contents[i]?) ∨
      (s.step a = none ∧ s.step (.throws a) = some s)) ∧
    ((∀ i, s.find i = none) → s.pool.stats.live = 0) := by
  obtain ⟨⟨asked, hs⟩, hcontents⟩ := (Sound.start hclasses hfew).run hrun hsmall
  refine ⟨hcontents, fun i b hfind => ?_, fun a hlegal hsmall hcall => ?_, fun hnone => ?_⟩
  · have hi := find_eq_some.mp hfind
    have hshaped := hs.shaped b (mem_of_getElem? hi)
    refine ⟨hshaped.len_le, hshaped.bare, fun u hu => ?_⟩
    obtain ⟨husable, hheader, hlive, honly⟩ := hs.owned hi hu
    exact ⟨husable, hheader, hlive, fun j b' hj => honly j b' (find_eq_some.mp hj)⟩
  · rcases hs.apply hlegal hsmall with
      ⟨s', asked', happly, -, hspec⟩ | ⟨hnone, hthrows | ⟨a', ha'⟩⟩
    · refine .inl ⟨s', step_eq_some.mpr ⟨hlegal, happly⟩, hspec, fun i hi hne => ?_⟩
      rw [hspec, spec_getElem? a _ (by simpa [contents] using hi) hne]
    · exact .inr ⟨by simp [step, hnone], step_eq_some.mpr ⟨hlegal, hthrows⟩⟩
    · exact absurd ha' (hcall a')
  · obtain ⟨live, free, hl⟩ := hs.ledger
    have hzero (u : Nat) : s.count u = 0 := by
      refine count_eq_zero.mpr fun hmem => ?_
      obtain ⟨v, hv, htarget⟩ := mem_map.mp hmem
      obtain ⟨i, hi⟩ := mem_iff_getElem?.mp hv
      have hfind : s.find i = v := by simp [find, hi]
      rw [← hfind, hnone i] at htarget
      exact absurd htarget nofun
    simpa [hzero] using hl.stats_live

def filledAndMoved : List Op :=
  [.make .above 4, .make .above 4, .append 0 .above [1, 2, 3], .append 1 .above [4, 5],
    .append 0 .above [6, 7], .removePrefix 0 2, .moveConstruct 0, .resetForReuse 1]

theorem buffers_are_byte_strings_filledAndMoved :
    ∃ s ∈ exec Buffers.step (.start (.make 0 4096 [8])) filledAndMoved,
      s.contents = [none, some [], some [3, 6, 7]] ∧
      ∃ s' ∈ exec Buffers.step s [.destroy 0, .destroy 1, .destroy 2], s'.pool.stats.live = 0 := by
  have hends : ∃ s ∈ exec Buffers.step (.start (.make 0 4096 [8])) filledAndMoved,
      ∃ s' ∈ exec Buffers.step s [.destroy 0, .destroy 1, .destroy 2],
        s'.vars = [none, none, none] := by decide +kernel
  obtain ⟨s, hrun, s', hrest, hvars⟩ := hends
  obtain ⟨hcontents, -⟩ := buffers_are_byte_strings (by decide) (by decide) hrun (by decide +kernel)
  have hwhole : exec Buffers.step (.start (.make 0 4096 [8]))
      (filledAndMoved ++ [.destroy 0, .destroy 1, .destroy 2]) = some s' := by
    rw [exec_append, hrun]
    exact hrest
  obtain ⟨-, -, -, hlive⟩ :=
    buffers_are_byte_strings (by decide) (by decide) hwhole (by decide +kernel)
  refine ⟨s, hrun, hcontents.trans (by decide), s', hrest, hlive fun i => ?_⟩
  rw [find, hvars]
  rcases i with _ | _ | _ | i <;> rfl

def wrappingReserve : List Op :=
  [.make around2MiB 5000, .append 0 around2MiB [1], .make around2MiB 0,
    .reserve 1 around2MiB (2 ^ 64 - 16), .append 1 around2MiB (List.replicate 17 2)]

/-- **A buffer that writes into another one**: the block of the second buffer has 16 bytes, header
included, and what is appended there ends up in the first buffer. -/
theorem wrapping_reserve_overwrites :
    ∃ s ∈ exec Buffers.step (.start (.make 0 4096 [64])) wrappingReserve,
      s.contents = [some [2], some (List.replicate 17 2)] ∧
      wrappingReserve.foldl Op.spec [] = [some [1], some (List.replicate 17 2)] := by
  decide +kernel

end PooledBuffer.Buffers

end Muses
