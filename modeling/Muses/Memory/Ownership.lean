import Muses.Memory.Layout

/-!
# Buffers that own their blocks

`Owns p bufs` says that each of the buffers `bufs` has a block of the pool to itself. The lemmas
below are all a user of `PooledBuffer` needs: what an operation does to the bytes of its own buffer
is the corresponding operation on byte strings, and the bytes of every other buffer stay as they
are, however blocks are allocated, copied and recycled underneath.
-/

namespace Muses.PooledBuffer

open Muses.Core MemoryPool List

/-- The buffer lies in the block `k`. -/
structure Fits (b : PooledBuffer) (k : Block) : Prop where
  bound : b.bound = true
  data : b.data = some k.user
  len_le : b.len ≤ b.cap
  cap_pos : 0 < b.cap
  cap_le : b.cap ≤ k.len
  cap_lt : b.cap < 2 ^ 40

/-- Each buffer has a block of its own. -/
def Owns (p : MemoryPool) (bufs : List PooledBuffer) : Prop :=
  ∃ ks free, Layout p ks free ∧ List.Forall₂ Fits bufs ks

variable {p p' : MemoryPool} {b b' : PooledBuffer} {bufs : List PooledBuffer}
  {G : GlobalAllocator}

theorem Owns.perm {bufs' : List PooledBuffer} (h : Owns p bufs) (hperm : bufs ~ bufs') :
    Owns p bufs' := by
  obtain ⟨ks, free, hlayout, hfits⟩ := h
  obtain ⟨ks', hfits', hks⟩ := perm_comp_forall₂ hperm.symm hfits
  exact ⟨ks', free, hlayout.perm hks.symm, hfits'⟩

/-! ## Bytes -/

theorem Fits.bytes {k : Block} (h : Fits b k) : b.bytes p = p.mem.readBytes k.user b.len := by
  simp [PooledBuffer.bytes, h.data]

theorem Fits.within {k : Block} (h : Fits b k) : Extent.Within ⟨k.user, b.len⟩ k.payload :=
  ⟨Nat.le_refl _, Nat.add_le_add_left (Nat.le_trans h.len_le h.cap_le) _⟩

theorem Owns.length_bytes (h : Owns p (b :: bufs)) : (b.bytes p).length = b.len := by
  obtain ⟨ks, free, -, hfits⟩ := h
  cases hfits with
  | cons hfit _ => simp [hfit.bytes]

theorem bytes_same {ks : List Block} (hfits : List.Forall₂ Fits bufs ks)
    (hplaced : ∀ k ∈ ks, headerSize ≤ k.user) (hsame : ∀ k ∈ ks, p.mem.SameOn p'.mem k.ext) :
    ∀ x ∈ bufs, x.bytes p' = x.bytes p := by
  induction hfits with
  | nil => simp
  | @cons x k bufs ks hfit _ ih =>
    intro y hy
    rcases mem_cons.mp hy with rfl | hy
    · rw [hfit.bytes, hfit.bytes]
      refine (Memory.readBytes_congr ((hsame k (by simp)).mono ?_)).symm
      exact hfit.within.trans (k.payload_within (hplaced k (by simp)))
    · exact ih (fun k hk => hplaced k (by simp [hk])) (fun k hk => hsame k (by simp [hk])) y hy

/-! ## Destroying -/

theorem Owns.destroy (h : Owns p (b :: bufs)) (hdes : b.destroy p = some p') :
    Owns p' bufs ∧ ∀ x ∈ bufs, x.bytes p' = x.bytes p := by
  obtain ⟨ks, free, hlayout, hfits⟩ := h
  cases hfits with
  | @cons _ k _ ks hfit hrest =>
    have hrel : p.release k.user = some p' := by
      simpa [PooledBuffer.destroy, releasePoolBlock, hfit.bound, hfit.data] using hdes
    obtain ⟨free', hlayout', hsame⟩ := hlayout.release hrel
    have hplaced (x : Block) (hx : x ∈ ks) : headerSize ≤ x.user :=
      hlayout.placed x (by simp [hx])
    exact ⟨⟨ks, free', hlayout', hrest⟩, bytes_same hrest hplaced hsame⟩

/-! ## Writing in place -/

theorem Owns.write (h : Owns p (b :: bufs)) {d : Nat} (hd : b.data = some d) {off : Nat}
    {xs : List UInt8} (hroom : off + xs.length ≤ b.cap) :
    Owns { p with mem := p.mem.writeBytes (d + off) xs } (b :: bufs) ∧
      ∀ x ∈ bufs, x.bytes { p with mem := p.mem.writeBytes (d + off) xs } = x.bytes p := by
  obtain ⟨ks, free, hlayout, hfits⟩ := h
  cases hfits with
  | @cons _ k _ ks hfit hrest =>
    obtain rfl : k.user = d := by simpa [hfit.data] using hd
    have hin : Extent.Within ⟨k.user + off, xs.length⟩ k.payload := by
      have := hfit.cap_le
      simp only [Extent.Within, Block.payload]
      omega
    obtain ⟨hlayout', hsame⟩ := hlayout.write (b := k) (by simp) hin
    have hplaced (x : Block) (hx : x ∈ ks) : headerSize ≤ x.user :=
      hlayout.placed x (by simp [hx])
    refine ⟨⟨k :: ks, free, hlayout', .cons hfit hrest⟩, bytes_same hrest hplaced fun x hx => ?_⟩
    refine hsame x (by simp [hx]) ?_
    rintro rfl
    have := (pairwise_cons.mp hlayout.disjoint).1 x (by simp [hx])
    simp only [Block.Apart, Extent.Disjoint, Block.ext, headerSize] at this
    omega

theorem Owns.resize (h : Owns p (b :: bufs)) (n pos : Nat) (hn : n ≤ b.cap) :
    Owns p ({ b with len := n, scanPos := pos } :: bufs) := by
  obtain ⟨ks, free, hlayout, hfits⟩ := h
  cases hfits with
  | @cons _ k _ ks hfit hrest =>
    exact ⟨k :: ks, free, hlayout, .cons { hfit with len_le := hn } hrest⟩

theorem Owns.len_le_cap (h : Owns p (b :: bufs)) : b.len ≤ b.cap := by
  obtain ⟨ks, free, -, hfits⟩ := h
  cases hfits with
  | cons hfit _ => exact hfit.len_le

theorem Owns.rescan (h : Owns p (b :: bufs)) (pos : Nat) :
    Owns p ({ b with scanPos := pos } :: bufs) :=
  h.resize b.len pos h.len_le_cap

/-! ## Growing -/

theorem growCap_ge {want fuel cap : Nat} (h : want ≤ cap * 2 ^ fuel) :
    want ≤ growCap want fuel cap := by
  induction fuel generalizing cap with
  | zero => simpa [growCap] using h
  | succ fuel ih =>
    simp only [growCap]
    split
    · apply ih
      rw [Nat.pow_succ'] at h
      rwa [Nat.mul_assoc]
    · omega

theorem growCap_le (want fuel cap : Nat) : growCap want fuel cap ≤ max cap (2 * want) := by
  induction fuel generalizing cap with
  | zero => simp [growCap]
  | succ fuel ih =>
    simp only [growCap]
    split
    · exact Nat.le_trans (ih _) (by omega)
    · omega

theorem growCap_spec (want cap : Nat) :
    want ≤ growCap want want (if cap = 0 then 4096 else cap) ∧
      growCap want want (if cap = 0 then 4096 else cap) ≤ max (max cap 4096) (2 * want) := by
  refine ⟨growCap_ge ?_, Nat.le_trans (growCap_le _ _ _) (by split <;> omega)⟩
  have hpos : 1 ≤ if cap = 0 then 4096 else cap := by split <;> omega
  calc want ≤ 2 ^ want := Nat.le_of_lt Nat.lt_two_pow_self
    _ = 1 * 2 ^ want := (Nat.one_mul _).symm
    _ ≤ _ := Nat.mul_le_mul_right _ hpos

theorem Owns.make (h : Owns p bufs) {n : Nat} (hpos : 0 < n) (hn : n < 2 ^ 40)
    (hmake : make G p n = some (p', b)) :
    Owns p' (b :: bufs) ∧ b.len = 0 ∧ b.scanPos = 0 ∧ ∀ x ∈ bufs, x.bytes p' = x.bytes p := by
  obtain ⟨ks, free, hlayout, hfits⟩ := h
  simp only [PooledBuffer.make, reserve, Nat.not_le.mpr hpos, if_false, releasePoolBlock,
    Option.map_some, Option.bind_eq_some_iff, Option.some.injEq, Prod.exists,
    Prod.mk.injEq] at hmake
  obtain ⟨p₁, user, halloc, rfl, rfl⟩ := hmake
  obtain ⟨k, free', rfl, hlen, hlayout', hsame⟩ := hlayout.allocate (by
    simp only [headerSize, sizeRange]; omega) halloc
  refine ⟨⟨k :: ks, free', hlayout', .cons ⟨rfl, rfl, ?_, ?_, hlen, hn⟩ hfits⟩, rfl, rfl,
    bytes_same hfits (fun x hx => hlayout.placed x (by simp [hx])) hsame⟩
  · exact Nat.zero_le _
  · exact hpos

theorem Owns.reserve (h : Owns p (b :: bufs)) {need : Nat} (hneed : need < 2 ^ 40)
    (hres : b.reserve G p need = some (p', b')) :
    Owns p' (b' :: bufs) ∧ b'.bytes p' = b.bytes p ∧ b'.len = b.len ∧ b'.scanPos = b.scanPos ∧
      need ≤ b'.cap ∧ ∀ x ∈ bufs, x.bytes p' = x.bytes p := by
  unfold PooledBuffer.reserve at hres
  split at hres
  · rename_i hle
    simp only [Option.some.injEq, Prod.mk.injEq] at hres
    obtain ⟨rfl, rfl⟩ := hres
    exact ⟨h, rfl, rfl, rfl, hle, fun _ _ => rfl⟩
  rename_i hgrow
  obtain ⟨ks, free, hlayout, hfits⟩ := h
  cases hfits with
  | @cons _ k _ ks hfit hrest =>
    obtain ⟨⟨p₁, fresh⟩, halloc, hres⟩ := Option.bind_eq_some_iff.mp hres
    obtain ⟨k', free₁, rfl, hlen, hlayout₁, hsame₁⟩ := hlayout.allocate (by
      simp only [headerSize, sizeRange]; omega) halloc
    have hplaced (x : Block) (hx : x ∈ k' :: k :: ks) : headerSize ≤ x.user :=
      hlayout₁.placed x (mem_append_left _ hx)
    -- the copy
    set p₂ : MemoryPool :=
      if 0 < b.len then
        { p₁ with mem := p₁.mem.writeBytes k'.user (p₁.mem.readBytes k.user b.len) }
      else p₁ with hp₂
    obtain ⟨hlayout₂, hsame₂, hcopy⟩ : Layout p₂ (k' :: k :: ks) free₁ ∧
        (∀ x ∈ k :: ks, p₁.mem.SameOn p₂.mem x.ext) ∧
        p₂.mem.readBytes k'.user b.len = p₁.mem.readBytes k.user b.len := by
      rw [hp₂]
      split
      · have hin : Extent.Within ⟨k'.user, (p₁.mem.readBytes k.user b.len).length⟩ k'.payload := by
          have := hfit.len_le
          simp only [Extent.Within, Block.payload, Memory.length_readBytes]
          omega
        obtain ⟨hl, hs⟩ := hlayout₁.write (b := k') (by simp) hin
        refine ⟨hl, fun x hx => hs x (mem_cons_of_mem _ hx) ?_, ?_⟩
        · rintro rfl
          have := (pairwise_cons.mp hlayout₁.disjoint).1 x (mem_append_left _ hx)
          simp only [Block.Apart, Extent.Disjoint, Block.ext, headerSize] at this
          omega
        · have := p₁.mem.readBytes_writeBytes k'.user (p₁.mem.readBytes k.user b.len)
          rwa [Memory.length_readBytes] at this
      · rename_i hzero
        obtain hzero : b.len = 0 := by omega
        exact ⟨hlayout₁, fun _ _ => .refl _ _, by simp [hzero, Memory.readBytes]⟩
    -- giving the old block back
    simp only [hfit.data, ← hp₂, releasePoolBlock, hfit.bound, Option.map_map,
      Option.map_eq_some_iff, Function.comp_apply, Prod.mk.injEq] at hres
    obtain ⟨p₃, hrel, rfl, rfl⟩ := hres
    obtain ⟨free₃, hlayout₃, hsame₃⟩ :=
      Layout.release (hlayout₂.perm (List.Perm.swap k k' ks)) hrel
    have hread : p₃.mem.readBytes k'.user b.len = p.mem.readBytes k.user b.len := by
      have hk' : Extent.Within ⟨k'.user, b.len⟩ k'.ext := by
        have hfit' : b.len ≤ k'.len := by have := hfit.len_le; omega
        have hpay : Extent.Within ⟨k'.user, b.len⟩ k'.payload :=
          ⟨Nat.le_refl _, Nat.add_le_add_left hfit' _⟩
        exact hpay.trans (k'.payload_within (hplaced k' (by simp)))
      rw [← Memory.readBytes_congr ((hsame₃ k' (by simp)).mono hk'), hcopy]
      refine (Memory.readBytes_congr ((hsame₁ k (by simp)).mono ?_)).symm
      exact hfit.within.trans (k.payload_within (hplaced k (by simp)))
    refine ⟨⟨k' :: ks, free₃, hlayout₃, .cons ⟨rfl, rfl, ?_, ?_, hlen, hneed⟩ hrest⟩, ?_,
      rfl, rfl, Nat.le_refl _, ?_⟩
    · exact Nat.le_trans hfit.len_le (Nat.le_of_not_le hgrow)
    · exact Nat.lt_of_lt_of_le hfit.cap_pos (Nat.le_of_not_le hgrow)
    · rw [hfit.bytes, ← hread]
      rfl
    · refine bytes_same hrest (fun x hx => hplaced x (by simp [hx])) fun x hx => ?_
      exact ((hsame₁ x (by simp [hx])).trans (hsame₂ x (by simp [hx]))).trans
        (hsame₃ x (by simp [hx]))

/-- **Appending.** The buffer grows if it has to; the new bytes stand behind the old ones. -/
theorem Owns.append (h : Owns p (b :: bufs)) {src : List UInt8} {ok : Bool}
    (hlen : b.len + src.length < 2 ^ 32) (happ : b.append G p src = some (p', b', ok)) :
    ok = true ∧ Owns p' (b' :: bufs) ∧ b'.bytes p' = b.bytes p ++ src ∧
      b'.len = b.len + src.length ∧ b'.scanPos = b.scanPos ∧
      ∀ x ∈ bufs, x.bytes p' = x.bytes p := by
  obtain ⟨⟨p₁, b₁⟩, hgrown, hwrite⟩ := Option.map_eq_some_iff.mp happ
  obtain ⟨hown₁, hbytes₁, hlen₁, hscan₁, hroom, hothers₁⟩ : Owns p₁ (b₁ :: bufs) ∧
      b₁.bytes p₁ = b.bytes p ∧ b₁.len = b.len ∧ b₁.scanPos = b.scanPos ∧
      b.len + src.length ≤ b₁.cap ∧ ∀ x ∈ bufs, x.bytes p₁ = x.bytes p := by
    split at hgrown
    · obtain ⟨hge, hle⟩ := growCap_spec (b.len + src.length) b.cap
      have hcap : b.cap < 2 ^ 40 := by
        obtain ⟨ks, free, -, hfits⟩ := h
        cases hfits with
        | cons hfit _ => exact hfit.cap_lt
      obtain ⟨h1, h2, h3, h4, h5, h6⟩ := h.reserve (by omega) hgrown
      exact ⟨h1, h2, h3, h4, Nat.le_trans hge h5, h6⟩
    · rename_i hfits
      simp only [Option.some.injEq, Prod.mk.injEq] at hgrown
      obtain ⟨rfl, rfl⟩ := hgrown
      exact ⟨h, rfl, rfl, rfl, by omega, fun _ _ => rfl⟩
  have hroom' : b₁.len + src.length ≤ b₁.cap := by omega
  obtain ⟨d, hd⟩ : ∃ d, b₁.data = some d := by
    obtain ⟨ks, free, -, hfits⟩ := hown₁
    cases hfits with
    | cons hfit _ => exact ⟨_, hfit.data⟩
  simp only [Nat.not_lt.mpr hroom', if_false, hd, Prod.mk.injEq] at hwrite
  obtain ⟨rfl, rfl, rfl⟩ := hwrite
  obtain ⟨hown₂, hothers₂⟩ := hown₁.write hd hroom'
  refine ⟨rfl, ?_, ?_, by rw [hlen₁], hscan₁, fun x hx => (hothers₂ x hx).trans (hothers₁ x hx)⟩
  · rw [← hd]
    exact hown₂.resize _ b₁.scanPos hroom'
  · rw [← hbytes₁]
    simp only [PooledBuffer.bytes, hd]
    exact Memory.readBytes_writeBytes_append _ _ _ _

end Muses.PooledBuffer
