import Muses.Core.Census
import Muses.Memory.Accounting
import Muses.Memory.PoolPtr

/-!
# Handles and reference counts

Programs over `PoolPtr` variables are clients of the pool who hold one reference for each variable
that refers to a block.

* `Balanced` — the handles of a program are in that ledger, and none of them dangles;
* `Balanced.apply` — every operation succeeds, keeps the balance, and gives the blocks back whose
  last handle let go.
-/

namespace Muses

open Muses.Core MemoryPool Function Option

/-! ## References of others and of handles -/

namespace MemoryPool

/-- The ledger is right when others hold `outside` and the handles `n` references to each address,
and no block has references of both kinds. -/
structure Held (outside : Nat → Nat) (p : MemoryPool) (n : Nat → Nat) : Prop where
  ledger : ∃ asked live free, Ledger ⟨p, fun u => outside u + n u, asked⟩ live free
  apart : ∀ u, 0 < n u → outside u = 0

namespace Held

variable {outside n : Nat → Nat} {p p' : MemoryPool} {u : Nat}

theorem of_ledger {c : Clients} {live free : List Block} (h : Ledger c live free) :
    Held c.refs c.pool fun _ => 0 :=
  ⟨⟨c.asked, live, free, h⟩, by simp⟩

theorem congr (h : Held outside p n) {n' : Nat → Nat} (hn : n' = n) : Held outside p n' := hn ▸ h

theorem add_update (outside n : Nat → Nat) (u m : Nat) :
    update (fun v => outside v + n v) u (outside u + m) =
      fun v => outside v + update n u m v := by
  funext v
  by_cases hv : v = u
  · subst hv
    simp
  · simp [update_of_ne hv]

theorem update_apart (h : Held outside p n) {m : Nat} (hm : 0 < m → outside u = 0) :
    ∀ v, 0 < update n u m v → outside v = 0 :=
  (forall_update_iff n fun v k => 0 < k → outside v = 0).mpr
    ⟨hm, fun v _ => h.apart v⟩

theorem header (h : Held outside p n) (hu : 0 < n u) :
    ∃ hd, p.readHeader u = some hd ∧ hd.magic = MAGIC ∧ hd.refcount = n u := by
  obtain ⟨asked, live, free, hl⟩ := h.ledger
  obtain ⟨b, hb, rfl⟩ := (hl.owned u).mp (Nat.lt_of_lt_of_le hu (Nat.le_add_left _ _))
  obtain ⟨hd, hread, hmagic, -, hcount⟩ := hl.arranged.header b hb
  refine ⟨hd, hread, hmagic, ?_⟩
  simpa [h.apart b.user hu] using hcount

theorem small (h : Held outside p n) (u : Nat) : n u < 2 ^ 31 := by
  obtain ⟨asked, live, free, hl⟩ := h.ledger
  exact Nat.lt_of_le_of_lt (Nat.le_add_left _ _) (hl.small u)

theorem not_returned (h : Held outside p n) (hu : 0 < n u) : ¬ p.Returned u := by
  obtain ⟨asked, live, free, hl⟩ := h.ledger
  obtain ⟨b, hb, rfl⟩ := (hl.owned u).mp (Nat.lt_of_lt_of_le hu (Nat.le_add_left _ _))
  exact hl.not_returned hb

theorem release (h : Held outside p n) (hu : 0 < n u) :
    ∃ p', p.release u = some p' ∧ Held outside p' (update n u (n u - 1)) ∧
      (n u = 1 → p'.Returned u) := by
  obtain ⟨asked, live, free, hl⟩ := h.ledger
  have hrefs : 0 < outside u + n u := by omega
  obtain ⟨b, rest, rfl, -, hb⟩ := hl.find hrefs
  obtain ⟨p', live', free', hrel, hl'⟩ := hb.release
  obtain ⟨p'', hrel', hret⟩ := hb.release_returned
  obtain rfl : p' = p'' := Option.some.inj (hrel.symm.trans hrel')
  have hout := h.apart b.user hu
  refine ⟨p', hrel, ⟨⟨asked, live', free', ?_⟩, h.update_apart fun _ => hout⟩, fun hone => ?_⟩
  · rw [← add_update, hout, Nat.zero_add]
    simpa [hout] using hl'
  · exact hret.mpr (by simp [hout, hone])

/-- **A handle is copied.** A block that has been returned stays so. -/
theorem retain (h : Held outside p n) (hu : 0 < n u) (hroom : n u + 1 < 2 ^ 31) :
    ∃ p', p.retain u = some p' ∧ Held outside p' (update n u (n u + 1)) ∧
      ∀ v, p.Returned v → p'.Returned v := by
  obtain ⟨asked, live, free, hl⟩ := h.ledger
  have hrefs : 0 < outside u + n u := by omega
  obtain ⟨b, rest, rfl, -, hb⟩ := hl.find hrefs
  have hout := h.apart b.user hu
  obtain ⟨slotSize, hret⟩ := hb.arranged.retain (by simpa [hout] using hroom)
  simp only [hout, Nat.zero_add] at hret
  have hl' := hb.recount slotSize (n := n b.user + 1) (Nat.succ_pos _) hroom
  refine ⟨_, hret, ⟨⟨asked, b :: rest, free, ?_⟩, h.update_apart fun _ => hout⟩, ?_⟩
  · rw [← add_update, hout, Nat.zero_add]
    exact hl'
  · -- the free-lists, the history of the arena and the heap stay as they are
    rintro v (⟨i, l, hchain, hv⟩ | hdeleted)
    · rw [hchain.eq (hb.arranged.chain i)] at hv
      exact .inl ⟨i, slotsOf free i, hl'.arranged.chain i, hv⟩
    · exact .inr hdeleted

/-- **An object is made**: the block is new, and the constructor writes what was asked for. -/
theorem allocate (h : Held outside p n) {G : GlobalAllocator} {size : Nat} {image : List UInt8}
    (hsize : headerSize + size < sizeRange) (himage : image.length ≤ size)
    (halloc : p.allocate G size = some (p', u)) :
    n u = 0 ∧
      Held outside { p' with mem := p'.mem.writeBytes u image } (update n u 1) := by
  obtain ⟨asked, live, free, hl⟩ := h.ledger
  obtain ⟨hzero, live', free', hl'⟩ := hl.allocate hsize halloc
  obtain ⟨hout, hn⟩ := Nat.add_eq_zero_iff.mp hzero
  have hpos : 0 < update (fun v => outside v + n v) u 1 u := by simp
  obtain ⟨b, rest, hb, -, hl'⟩ := hl'.find hpos
  subst hb
  have hroom : 0 + image.length ≤ update asked b.user size b.user := by
    simpa using himage
  have hwritten := hl'.write hroom
  have hrefs : update (fun v => outside v + n v) b.user 1 =
      fun v => outside v + update n b.user 1 v := by
    rw [← add_update, hout, Nat.zero_add]
  simp only [hrefs] at hwritten
  exact ⟨hn, ⟨_, _, _, hwritten⟩, h.update_apart fun _ => hout⟩

theorem stats_live (h : Held outside p n) (hnone : ∀ u, n u = 0) :
    p.stats.live = {u | 0 < outside u}.ncard := by
  obtain ⟨asked, live, free, hl⟩ := h.ledger
  simpa [hnone] using hl.stats_live

end Held

end MemoryPool

namespace PoolPtr

namespace Scope

/-! ## Counting the variables of a program -/

variable {outside : Nat → Nat} {s s' : Scope} {i j u : Nat} {h : PoolPtr}

@[simp] theorem target_some (h : PoolPtr) : target (some h) = h.ptr := rfl

@[simp] theorem ptr_null : PoolPtr.null.ptr = none := rfl

theorem find_eq_some : s.find i = some h ↔ s.vars[i]? = some (some h) :=
  join_eq_some_iff

theorem count_pos (hi : s.find i = some h) (hu : h.ptr = some u) : 0 < s.count u := by
  refine List.count_pos_iff.mpr (List.mem_map.mpr ⟨some h, ?_, hu⟩)
  exact List.mem_of_getElem? (find_eq_some.mp hi)

theorem count_keep {l : List (Option PoolPtr)} {v w : Option PoolPtr} (hi : l[i]? = some v)
    (hw : target w = target v) (x : Nat) :
    ((l.set i w).map target).count (some x) = (l.map target).count (some x) := by
  have hset := count_map_set target hi w (some x)
  rw [hw] at hset
  omega

theorem count_push (s : Scope) (h : PoolPtr) (x : Nat) :
    (s.push h).count x = s.count x + if h.ptr = some x then 1 else 0 := by
  simp [count, push, target, List.count_singleton]

/-! ## Room for counts -/

/-- A copy is made while the block has fewer than `2 ^ 31 - 1` handles, unless the handle that it
replaces is one of them. -/
def Roomy (s : Scope) : Op → Prop
  | .copy j => ∀ u ∈ target (s.find j), s.count u + 1 < 2 ^ 31
  | .copyAssign i j =>
      ∀ u ∈ target (s.find j), target (s.find i) = some u ∨ s.count u + 1 < 2 ^ 31
  | _ => True

instance (s : Scope) (a : Op) : Decidable (s.Roomy a) := by
  unfold Roomy
  induction a using Op.casesOn <;> infer_instance

/-! ## The balance -/

theorem reset_eq {p : MemoryPool} {h' : PoolPtr} (hi : s.find i = some h)
    (hreset : h.reset s.pool = some (p, h')) :
    s.reset i = some ({ s with pool := p, gone := s.returning h ++ s.gone }.put i h') := by
  simp [Scope.reset, hi, hreset]

theorem share_eq {p : MemoryPool} {h' : PoolPtr} (hj : s.find j = some h)
    (hcopy : h.copyConstruct s.pool = some (p, h')) :
    s.share i j = some ({ s with pool := p }.put i h') := by
  simp [Scope.share, hj, hcopy]

/-- Each reference of a block is a handle's or one of `outside`. -/
structure Balanced (outside : Nat → Nat) (s : Scope) : Prop where
  held : Held outside s.pool s.count
  bound : ∀ h, some h ∈ s.vars → h.bound = h.ptr.isSome

/-- Handles were let go: `left` are the values that have ended, and their blocks are back. -/
structure After (outside : Nat → Nat) (s s' : Scope) (left : List (Nat × Nat)) : Prop where
  balanced : Balanced outside s'
  runs : s'.runs = s.runs
  gone : s'.gone = left ++ s.gone
  count : ∀ u, 0 < s'.count u → 0 < s.count u
  returned : ∀ u, 0 < s.count u → s'.count u = 0 → s'.pool.Returned u

def letting : Op → Option Nat
  | .reset i | .destroy i => some i
  | .copyAssign i j | .moveAssign i j => if i = j then none else some i
  | _ => none

/-- **What an operation does**: nothing to existing blocks, a block let go by one handle, a new
object, or the end of one. -/
inductive Effect (outside : Nat → Nat) (s : Scope) (a : Op) (s' : Scope) : Prop where
  | quiet (h : After outside s s' [])
  | lets {i : Nat} {g : PoolPtr} (hlet : letting a = some i) (hi : s.find i = some g)
      (h : After outside s s' (s.returning g))
  | made {user : Nat} (hs' : Balanced outside s') (hzero : s.count user = 0)
      (hruns : s'.runs = update s.runs user 0) (hgone : s'.gone = s.gone)
      (hcount : ∀ u, s'.count u = s.count u + if user = u then 1 else 0)
  | ends {i user : Nat} {g : PoolPtr} (ha : a = .destroyPool i) (hi : s.find i = some g)
      (hptr : g.ptr = some user) (hcount : s'.count user + 1 = s.count user)
      (h : After outside { s with runs := update s.runs user (s.runs user + 1) } s'
        ({ s with runs := update s.runs user (s.runs user + 1) }.returning g))

namespace Balanced

theorem start {c : Clients} {live free : List Block} (h : Ledger c live free) :
    Balanced c.refs (.start c.pool) :=
  ⟨.of_ledger h, by simp [Scope.start]⟩

theorem bound_set (hs : Balanced outside s) {w : Option PoolPtr}
    (hw : ∀ h, w = some h → h = PoolPtr.null ∨ some h ∈ s.vars) :
    ∀ h, some h ∈ s.vars.set i w → h.bound = h.ptr.isSome := by
  intro h hmem
  rcases List.mem_or_eq_of_mem_set hmem with hmem | heq
  · exact hs.bound h hmem
  · rcases hw h heq.symm with rfl | hold
    · rfl
    · exact hs.bound h hold

/-- **`reset`.** It succeeds, leaves a null handle, and gives the block back whose last handle this
was. -/
theorem reset (hs : Balanced outside s) (hi : s.find i = some h) :
    ∃ s', s.reset i = some s' ∧ After outside s s' (s.returning h) ∧
      s'.find i = some PoolPtr.null ∧ (∀ j, j ≠ i → s'.find j = s.find j) ∧
      ∀ u, s'.count u + (if h.ptr = some u then 1 else 0) = s.count u := by
  have hcell := find_eq_some.mp hi
  obtain ⟨hlt, -⟩ := List.getElem?_eq_some_iff.mp hcell
  have hbound := hs.bound h (List.mem_of_getElem? hcell)
  have hnull := hs.bound_set (i := i) (w := some PoolPtr.null)
    fun h heq => .inl (Option.some.inj heq).symm
  have hcount (u : Nat) : ((s.vars.set i (some PoolPtr.null)).map target).count (some u) +
      (if h.ptr = some u then 1 else 0) = s.count u :=
    count_map_set target hcell (some PoolPtr.null) (some u)
  obtain ⟨p', hreset, hheld, hreturned⟩ : ∃ p', h.reset s.pool = some (p', PoolPtr.null) ∧
      Held outside p'
        (fun u => ((s.vars.set i (some PoolPtr.null)).map target).count (some u)) ∧
      ∀ u, h.ptr = some u → s.count u = 1 → p'.Returned u := by
    cases hptr : h.ptr with
    | none =>
      simp only [hptr, reduceCtorEq, if_false, Nat.add_zero] at hcount
      exact ⟨s.pool, by simp [PoolPtr.reset, hptr], hs.held.congr (funext hcount), by simp⟩
    | some user =>
      obtain ⟨p', hrel, hheld, hreturned⟩ := hs.held.release (count_pos hi hptr)
      refine ⟨p', by simp [PoolPtr.reset, hptr, hbound, hrel], hheld.congr (funext fun u => ?_), ?_⟩
      · have hu := hcount u
        by_cases hx : u = user
        · subst hx
          simp only [hptr, if_true] at hu
          rw [update_self]
          omega
        · simpa [hptr, hx, Ne.symm hx] using hu
      · rintro u heq
        cases heq
        exact hreturned
  refine ⟨_, reset_eq hi hreset, ⟨⟨hheld, hnull⟩, rfl, rfl, fun u hu => ?_, fun u hu hzero => ?_⟩,
    find_eq_some.mpr (List.getElem?_set_self hlt),
    fun j hj => congrArg Option.join (List.getElem?_set_ne hj.symm), hcount⟩
  · exact Nat.lt_of_lt_of_le hu (Nat.le.intro (hcount u))
  · have hu' := hcount u
    change ((s.vars.set i (some PoolPtr.null)).map target).count (some u) = 0 at hzero
    rw [hzero, Nat.zero_add] at hu'
    split at hu'
    · exact hreturned u ‹_› hu'.symm
    · omega

theorem copyConstruct (hs : Balanced outside s) (hj : s.find j = some h)
    (hroom : ∀ u, h.ptr = some u → s.count u + 1 < 2 ^ 31) :
    ∃ p', h.copyConstruct s.pool = some (p', h) ∧
      Held outside p' (fun x => s.count x + if h.ptr = some x then 1 else 0) ∧
      ∀ u, s.pool.Returned u → p'.Returned u := by
  have hbound := hs.bound h (List.mem_of_getElem? (find_eq_some.mp hj))
  cases hptr : h.ptr with
  | none =>
    exact ⟨s.pool, by simp [PoolPtr.copyConstruct, hptr], by simpa using hs.held, fun _ hu => hu⟩
  | some user =>
    obtain ⟨p', hret, hheld, hreturned⟩ := hs.held.retain (count_pos hj hptr) (hroom user hptr)
    refine ⟨p', by simp [PoolPtr.copyConstruct, hptr, hbound, hret], hheld.congr ?_, hreturned⟩
    funext x
    by_cases hx : x = user
    · simp [hx]
    · simp [hx, Ne.symm hx]

/-- **The copy in an assignment** goes to a variable that is null. -/
theorem share (hs : Balanced outside s) (hi : s.find i = some PoolPtr.null)
    (hj : s.find j = some h) (hroom : ∀ u, h.ptr = some u → s.count u + 1 < 2 ^ 31) :
    ∃ s', s.share i j = some s' ∧ Balanced outside s' ∧ s'.runs = s.runs ∧ s'.gone = s.gone ∧
      (∀ u, s'.count u = s.count u + if h.ptr = some u then 1 else 0) ∧
      ∀ u, s.pool.Returned u → s'.pool.Returned u := by
  obtain ⟨p', hcopy, hheld, hreturned⟩ := hs.copyConstruct hj hroom
  have hmem := List.mem_of_getElem? (find_eq_some.mp hj)
  have hcount (u : Nat) : ((s.vars.set i (some h)).map target).count (some u) =
      s.count u + if h.ptr = some u then 1 else 0 := 
    count_map_set target (find_eq_some.mp hi) (some h) (some u)
  exact ⟨_, share_eq hj hcopy, ⟨hheld.congr (funext hcount),
    hs.bound_set fun _ heq => .inr (Option.some.inj heq ▸ hmem)⟩, rfl, rfl, hcount, hreturned⟩

/-- **The move in an assignment** goes to a variable that is null, too. -/
theorem transfer (hs : Balanced outside s) (hne : i ≠ j) (hi : s.find i = some PoolPtr.null)
    (hj : s.find j = some h) :
    ∃ s', s.transfer i j = some s' ∧ Balanced outside s' ∧ s'.runs = s.runs ∧ s'.gone = s.gone ∧
      (∀ u, s'.count u = s.count u) ∧ s'.pool = s.pool := by
  have hcount (u : Nat) : ((s.put i h).put j PoolPtr.null).count u = s.count u :=
    count_map_swap target hne (find_eq_some.mp hi) (find_eq_some.mp hj) (some u)
  refine ⟨(s.put i h).put j PoolPtr.null, by simp [Scope.transfer, hj, PoolPtr.moveConstruct],
    ⟨hs.held.congr (funext hcount), fun g hg => ?_⟩, rfl, rfl, hcount, rfl⟩
  have hmem := List.mem_of_getElem? (find_eq_some.mp hj)
  rcases List.mem_or_eq_of_mem_set hg with hg | heq
  · exact hs.bound_set (fun _ heq => .inr (Option.some.inj heq ▸ hmem)) g hg
  · cases heq
    rfl

theorem push (hs : Balanced outside s) {p : MemoryPool} (runs : Nat → Nat)
    (hbound : h.bound = h.ptr.isSome)
    (hheld : Held outside p fun x => s.count x + if h.ptr = some x then 1 else 0) :
    Balanced outside ({ s with pool := p, runs := runs }.push h) where
  held := hheld.congr (funext fun x => count_push { s with pool := p, runs := runs } h x)
  bound g hg := by
    rcases List.mem_append.mp hg with hg | hg
    · exact hs.bound g hg
    · cases List.mem_singleton.mp hg
      exact hbound

theorem quiet (hs' : Balanced outside s') (hruns : s'.runs = s.runs) (hgone : s'.gone = s.gone)
    (hcount : ∀ u, 0 < s'.count u ↔ 0 < s.count u) : After outside s s' [] where
  balanced := hs'
  runs := hruns
  gone := hgone
  count u := (hcount u).mp
  returned u hu hzero := absurd ((hcount u).mpr hu) (by omega)

theorem make (hs : Balanced outside s) (G : GlobalAllocator) (T : ObjectType) {image : List UInt8}
    (himage : image.length ≤ T.size) (throws : Bool) :
    ∃ s', s.make G T image throws = some s' ∧ Effect outside s (.make G T image throws) s' := by
  have hsize : headerSize + T.size < sizeRange := by
    have := T.size_lt
    simp only [headerSize, sizeRange]
    omega
  cases halloc : s.pool.allocate G T.size with
  | none =>
    obtain ⟨asked, live, free, hl⟩ := hs.held.ledger
    exact ⟨s, by simp [Scope.make, halloc, hl.allocate_eq_none halloc],
      .quiet (quiet hs rfl rfl fun _ => .rfl)⟩
  | some allocated =>
    obtain ⟨p, mem⟩ := allocated
    obtain ⟨hzero, hheld⟩ := hs.held.allocate hsize himage halloc
    cases throws with
    | true =>
      obtain ⟨p', hrel, hheld', -⟩ := hheld.release (u := mem) (by simp)
      have hback : update (update s.count mem 1) mem
          (update s.count mem 1 mem - 1) = s.count := by
        rw [update_idem, update_self, update_eq_self_iff, hzero]
      exact ⟨{ s with pool := p' }, by simp [Scope.make, halloc, hrel],
        .quiet (quiet ⟨hheld'.congr hback.symm, hs.bound⟩ rfl rfl fun _ => .rfl)⟩
    | false =>
      have hone : (fun x => s.count x + if (adopt mem).ptr = some x then 1 else 0) =
          update s.count mem 1 := by
        funext x
        by_cases hx : x = mem
        · simp [hx, hzero, adopt]
        · simp [hx, Ne.symm hx, adopt]
      refine ⟨_, by simp only [Scope.make, halloc]; rfl,
        .made (hs.push _ rfl (hheld.congr hone)) hzero rfl rfl fun u => ?_⟩
      rw [count_push]
      simp [adopt, count]

theorem apply (hs : Balanced outside s) {a : Op} (hlegal : s.Legal a) (hroom : s.Roomy a) :
    ∃ s', s.apply a = some s' ∧ Effect outside s a s' := by
  cases a with
  | null =>
    refine ⟨_, rfl, .quiet (quiet (hs.push _ rfl (by simpa using hs.held)) rfl rfl fun u => ?_)⟩
    rw [count_push]
    simp [count]
  | make G T image throws => exact hs.make G T hlegal throws
  | copy j =>
    obtain ⟨h, hj⟩ := isSome_iff_exists.mp hlegal
    simp only [Roomy, hj] at hroom
    obtain ⟨p', hcopy, hheld, -⟩ := hs.copyConstruct hj hroom
    have hbound := hs.bound h (List.mem_of_getElem? (find_eq_some.mp hj))
    refine ⟨_, by simp only [Scope.apply, hj, hcopy, bind_some, map_some],
      .quiet (quiet (hs.push s.runs hbound hheld) rfl rfl fun u => ?_)⟩
    rw [count_push]
    split
    · exact iff_of_true (Nat.succ_pos _) (count_pos hj ‹_›)
    · exact .rfl
  | move j =>
    obtain ⟨h, hj⟩ := isSome_iff_exists.mp hlegal
    have hcell := find_eq_some.mp hj
    have hcount (u : Nat) : ((s.put j PoolPtr.null).push h).count u = s.count u := by
      rw [count_push]
      exact count_map_set target hcell (some PoolPtr.null) (some u)
    refine ⟨(s.put j PoolPtr.null).push h,
      by simp only [Scope.apply, hj, map_some, PoolPtr.moveConstruct],
      .quiet (quiet ⟨hs.held.congr (funext hcount), fun g hg => ?_⟩ rfl rfl
        fun u => by rw [hcount u])⟩
    rcases List.mem_append.mp hg with hg | hg
    · exact hs.bound_set (fun _ heq => .inl (Option.some.inj heq).symm) g hg
    · cases List.mem_singleton.mp hg
      exact hs.bound h (List.mem_of_getElem? hcell)
  | copyAssign i j =>
    obtain ⟨⟨g, hi⟩, ⟨h, hj⟩⟩ := hlegal.imp isSome_iff_exists.mp isSome_iff_exists.mp
    by_cases hij : i = j
    · exact ⟨s, by simp [Scope.apply, hij, hj], .quiet (quiet hs rfl rfl fun _ => .rfl)⟩
    obtain ⟨s₁, hreset, hafter, hnull, hrest, hcount₁⟩ := hs.reset hi
    have hj₁ : s₁.find j = some h := (hrest j (Ne.symm hij)).trans hj
    have hroom₁ (u : Nat) (hu : h.ptr = some u) : s₁.count u + 1 < 2 ^ 31 := by
      have hcount := hcount₁ u
      have hsmall := hs.held.small u
      simp only [Roomy, hi, hj, target_some] at hroom
      rcases hroom u hu with hsame | hlt
      · simp only [hsame, if_true] at hcount
        omega
      · omega
    obtain ⟨s₂, hshare, hs₂, hruns, hgone, hcount₂, hreturned⟩ :=
      hafter.balanced.share hnull hj₁ hroom₁
    refine ⟨s₂, by simp [Scope.apply, hij, hreset, hshare], .lets (if_neg hij) hi
      ⟨hs₂, hruns.trans hafter.runs, hgone.trans hafter.gone, fun u hu => ?_,
        fun u hu hzero => ?_⟩⟩
    · rw [hcount₂ u] at hu
      split at hu
      · exact count_pos hj ‹_›
      · exact hafter.count u hu
    · have := hcount₂ u
      exact hreturned u (hafter.returned u hu (by omega))
  | moveAssign i j =>
    obtain ⟨⟨g, hi⟩, ⟨h, hj⟩⟩ := hlegal.imp isSome_iff_exists.mp isSome_iff_exists.mp
    by_cases hij : i = j
    · exact ⟨s, by simp [Scope.apply, hij, hj], .quiet (quiet hs rfl rfl fun _ => .rfl)⟩
    obtain ⟨s₁, hreset, hafter, hnull, hrest, -⟩ := hs.reset hi
    have hj₁ : s₁.find j = some h := (hrest j (Ne.symm hij)).trans hj
    obtain ⟨s₂, htransfer, hs₂, hruns, hgone, hcount₂, hpool⟩ :=
      hafter.balanced.transfer hij hnull hj₁
    refine ⟨s₂, by simp [Scope.apply, hij, hreset, htransfer], .lets (if_neg hij) hi
      ⟨hs₂, hruns.trans hafter.runs, hgone.trans hafter.gone,
        fun u hu => hafter.count u (hcount₂ u ▸ hu), fun u hu hzero => ?_⟩⟩
    rw [hpool]
    exact hafter.returned u hu ((hcount₂ u).symm.trans hzero)
  | reset i =>
    obtain ⟨h, hi⟩ := isSome_iff_exists.mp hlegal
    obtain ⟨s', hreset, hafter, -⟩ := hs.reset hi
    exact ⟨s', hreset, .lets rfl hi hafter⟩
  | destroy i =>
    obtain ⟨h, hi⟩ := isSome_iff_exists.mp hlegal
    obtain ⟨s', hreset, hafter, hnull, -⟩ := hs.reset hi
    have hcount (u : Nat) : (s'.drop i).count u = s'.count u :=
      count_keep (w := none) (find_eq_some.mp hnull) rfl u
    exact ⟨s'.drop i, by simp [Scope.apply, hreset], .lets rfl hi
      ⟨⟨hafter.balanced.held.congr (funext hcount), hafter.balanced.bound_set (by simp)⟩,
        hafter.runs, hafter.gone, fun u hu => hafter.count u (hcount u ▸ hu),
        fun u hu hzero => hafter.returned u hu ((hcount u).symm.trans hzero)⟩⟩
  | destroyPool i =>
    obtain ⟨h, hi⟩ := isSome_iff_exists.mp hlegal
    cases hptr : h.ptr with
    | none =>
      exact ⟨s, by simp [Scope.apply, Scope.destroyPool, hi, hptr],
        .quiet (quiet hs rfl rfl fun _ => .rfl)⟩
    | some user =>
      have hrun (r : Nat → Nat) : Balanced outside { s with runs := r } := ⟨hs.held, hs.bound⟩
      obtain ⟨s', hreset, hafter, -, -, hcount⟩ :=
        (hrun (update s.runs user (s.runs user + 1))).reset hi
      have hless := hcount user
      simp only [hptr, if_true] at hless
      exact ⟨s', by simp only [Scope.apply, Scope.destroyPool, hi, bind_some, hptr, hreset],
        .ends rfl hi hptr hless hafter⟩

end Balanced

/-! ## Whole programs -/

theorem step_eq_some {a : Op} : s.step a = some s' ↔ s.Legal a ∧ s.apply a = some s' := by
  simp [step]

theorem Effect.balanced {a : Op} (h : Effect outside s a s') :
    Balanced outside s' ∧ ∀ u, 0 < s.count u → s'.count u = 0 → s'.pool.Returned u := by
  cases h with
  | quiet h => exact ⟨h.balanced, h.returned⟩
  | lets _ _ h => exact ⟨h.balanced, h.returned⟩
  | made hs' _ _ _ hcount =>
    refine ⟨hs', fun u hu hzero => ?_⟩
    have := hcount u
    omega
  | ends _ _ _ _ h => exact ⟨h.balanced, h.returned⟩

theorem Balanced.step (hs : Balanced outside s) {a : Op} (hroom : s.Roomy a)
    (hstep : s.step a = some s') : Effect outside s a s' := by
  obtain ⟨hlegal, happly⟩ := step_eq_some.mp hstep
  obtain ⟨s'', happly', heffect⟩ := hs.apply hlegal hroom
  cases happly.symm.trans happly'
  exact heffect

theorem run_balanced (hs : Balanced outside s) {as : List Op}
    (hrun : exec Scope.step s as = some s') (hroom : Meets Scope.step Roomy s as) :
    Balanced outside s' :=
  exec_invariant_of_meets (fun _ _ _ hs hroom hstep => (hs.step hroom hstep).balanced.1) hs hroom
    hrun

end Scope

/-- **Handles are counted.** A program runs on a pool that others may have used before, and makes
fewer than `2 ^ 31` handles to a block. In every state it reaches, the header of a block with
handles holds their number and the block is not returned; every operation succeeds, and a block that
had handles is returned by it exactly when it has none left; and without handles as many blocks are
live as before the program. -/
theorem handles_counted {base arenaBytes : Nat} {classes : List Nat}
    (hclasses : ∀ c ∈ classes, c < 2 ^ 32)
    (hfew : (normalizeClasses classes).length < ESCAPED) {rs : List Request} {c : Clients}
    (hothers : exec Clients.step (.start base arenaBytes classes) rs = some c)
    (hsane : Meets Clients.step Clients.Sane (.start base arenaBytes classes) rs)
    {as : List Op} {s : Scope} (hrun : exec Scope.step (.start c.pool) as = some s)
    (hroom : Meets Scope.step Scope.Roomy (.start c.pool) as) :
    (∀ u, 0 < s.count u →
      (∃ hd, s.pool.readHeader u = some hd ∧ hd.magic = MAGIC ∧ hd.refcount = s.count u) ∧
        ¬ s.pool.Returned u) ∧
    (∀ a, s.Legal a → s.Roomy a →
      ∃ s', s.step a = some s' ∧ ∀ u, 0 < s.count u → (s'.pool.Returned u ↔ s'.count u = 0)) ∧
    ((∀ u, s.count u = 0) → s.pool.stats.live = c.pool.stats.live) := by
  obtain ⟨live, free, hl⟩ := run_ledger hclasses hfew hothers hsane
  have hs : s.Balanced c.refs := Scope.run_balanced (.start hl) hrun hroom
  refine ⟨fun u hu => ⟨hs.held.header hu, hs.held.not_returned hu⟩, fun a hlegal hroom => ?_,
    fun hnone => (hs.held.stats_live hnone).trans hl.stats_live.symm⟩
  obtain ⟨s', happly, heffect⟩ := hs.apply hlegal hroom
  obtain ⟨hs', hreturned⟩ := heffect.balanced
  refine ⟨s', Scope.step_eq_some.mpr ⟨hlegal, happly⟩, fun u hu => ⟨fun hret => ?_, hreturned u hu⟩⟩
  by_contra hne
  exact hs'.held.not_returned (Nat.pos_of_ne_zero hne) hret

def word : ObjectType := ⟨8, by decide⟩

def passedOn : List Op := [.make .above word [1, 2] false, .copy 0, .move 0, .reset 1]

theorem handles_counted_passedOn :
    ∃ s ∈ exec Scope.step (.start (.make 0 4096 [64])) passedOn, s.count 32 = 1 ∧
      ∃ s' ∈ s.step (.destroy 2), s'.pool.Returned 32 := by
  have hends : ∃ s ∈ exec Scope.step (.start (.make 0 4096 [64])) passedOn,
      s.count 32 = 1 ∧ s.Legal (.destroy 2) ∧ ∃ s' ∈ s.step (.destroy 2), s'.count 32 = 0 := by
    decide +kernel
  obtain ⟨s, hrun, hone, hlegal, s₁, hstep₁, hzero⟩ := hends
  have hempty : exec Clients.step (.start 0 4096 [64]) [] = some (.start 0 4096 [64]) := rfl
  obtain ⟨-, hstep, -⟩ :=
    handles_counted (by decide) (by decide) hempty trivial hrun (by decide +kernel)
  obtain ⟨s', hstep', hreturned⟩ := hstep (.destroy 2) hlegal trivial
  cases hstep₁.symm.trans hstep'
  exact ⟨s, hrun, hone, s₁, hstep₁, (hreturned 32 (by omega)).mpr hzero⟩

/-! ## Too many handles -/

theorem exec_copies (n : Nat) {s : Scope} {u cls size m : Nat} (hfind : s.find 0 = some (adopt u))
    (hread : s.pool.readHeader u = some ⟨MAGIC, cls, size, wrapCount m⟩) :
    ∃ s', exec Scope.step s (List.replicate n (.copy 0)) = some s' ∧ s'.count u = s.count u + n ∧
      s'.pool.readHeader u = some ⟨MAGIC, cls, size, wrapCount (m + n : Nat)⟩ := by
  induction n generalizing s m with
  | zero => exact ⟨s, rfl, rfl, hread⟩
  | succ n ih =>
    have hcount : wrapCount (wrapCount m + 1) = wrapCount (m + 1 : Nat) := by
      simp [wrapCount]
    have hret : s.pool.retain u =
        some (s.pool.writeHeader u ⟨MAGIC, cls, size, wrapCount (m + 1 : Nat)⟩) := by
      simp [retain, checkedHeader, hread, hcount]
    set s₁ : Scope :=
      { s with pool := s.pool.writeHeader u ⟨MAGIC, cls, size, wrapCount (m + 1 : Nat)⟩ }.push
        (adopt u) with hs₁
    have hstep : s.step (.copy 0) = some s₁ := by
      refine Scope.step_eq_some.mpr ⟨by simp [Scope.Legal, hfind], ?_⟩
      simp only [Scope.apply, hfind, bind_some, PoolPtr.copyConstruct, adopt, hret,
        map_some, hs₁]
    have hfind₁ : s₁.find 0 = some (adopt u) := by
      have hcell := Scope.find_eq_some.mp hfind
      obtain ⟨hlt, -⟩ := List.getElem?_eq_some_iff.mp hcell
      exact Scope.find_eq_some.mpr ((List.getElem?_append_left hlt).trans hcell)
    have hread₁ : s₁.pool.readHeader u = some ⟨MAGIC, cls, size, wrapCount (m + 1 : Nat)⟩ := by
      simp [hs₁, Scope.push, readHeader, writeHeader, Memory.load_store, headerSize]
    obtain ⟨s', hrun, hcount', hread'⟩ := ih hfind₁ hread₁
    refine ⟨s', (exec_cons_of_step _ hstep).trans hrun, ?_, ?_⟩
    · have hpush : s₁.count u = s.count u + 1 := by
        rw [hs₁, Scope.count_push]
        simp [adopt, Scope.count]
      omega
    · rw [hread', Nat.add_assoc, Nat.add_comm 1]

/-- **The count wraps around.** With `2 ^ 31` handles to a block its header holds a negative
number. -/
theorem counter_wraps :
    ∃ s, exec Scope.step (.start (.make 0 4096 [64]))
        (.make .above word [] false :: List.replicate (2 ^ 31 - 1) (.copy 0)) = some s ∧
      s.count 32 = 2 ^ 31 ∧
      ∃ hd, s.pool.readHeader 32 = some hd ∧ hd.refcount = -2 ^ 31 := by
  have hfirst : ∃ s ∈ Scope.step (.start (.make 0 4096 [64])) (.make .above word [] false),
      s.find 0 = some (adopt 32) ∧ s.count 32 = 1 ∧
        s.pool.readHeader 32 = some ⟨MAGIC, 0, 64, wrapCount (1 : Nat)⟩ := by decide +kernel
  obtain ⟨s, hstep, hfind, hone, hread⟩ := hfirst
  obtain ⟨s', hrun, hcount, hread'⟩ := exec_copies (2 ^ 31 - 1) hfind hread
  refine ⟨s', (exec_cons_of_step _ hstep).trans hrun, by omega, _, hread', ?_⟩
  decide +kernel

end PoolPtr

end Muses
