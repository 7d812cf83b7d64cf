import Muses.Memory.Ownership
import Muses.Net.Protocol

/-!
# The connection map and its buffers

The reactor's states are well formed (`Wf`): the flat map is sorted by descriptor, every entry
carries its own descriptor, every read buffer owns a block of the pool, and a connection no worker
is busy with has no complete request in its buffer. `State.view` is the abstraction to
`Muses.Net.Protocol`.
-/

namespace Muses

open Muses.Core MemoryPool Function List

def Connection.abs (p : MemoryPool) (c : Connection) : Reactor.Conn where
  id := c.id
  buf := c.readBuf.bytes p
  dispatched := c.dispatched
  writing := c.writing
  writeBuf := c.writeBuf
  writeOff := c.writeOff
  keepAlive := c.keepAliveAfterWrite
  origin := c.writeOrigin

namespace Reactor

/-! ## The flat map as a list -/

theorem insertShift_eq (p : MemoryPool) (carry : Fd × Connection) (l : List (Fd × Connection)) :
    insertShift p carry l = some (p, carry :: l) := by
  induction l generalizing carry with
  | nil => rfl
  | cons next rest ih => simp [insertShift, ih, PooledBuffer.moveAssign,
      PooledBuffer.releasePoolBlock, PooledBuffer.movedFrom]

theorem eraseShift_eq (p : MemoryPool) (gap : Connection) (l : List (Fd × Connection)) :
    eraseShift p gap l = (gap.readBuf.destroy p).map fun p' => (p', l) := by
  induction l generalizing p gap with
  | nil => rfl
  | cons entry rest ih =>
    obtain ⟨fd, next⟩ := entry
    -- only the first gap holds a block; every later one is a moved-from buffer
    have hlater (p' : MemoryPool) :
        eraseShift p' { next with readBuf := PooledBuffer.movedFrom } rest = some (p', rest) := by
      rw [ih]
      rfl
    simp only [eraseShift, PooledBuffer.moveAssign, PooledBuffer.destroy, Option.bind_map,
      comp_def, hlater, Option.map_some, Option.map_map]
    cases gap.readBuf.releasePoolBlock p <;> rfl

variable {p p' : MemoryPool} {fd : Fd} {l l' : List (Fd × Connection)} {conn : Connection}

def keys (l : List (Fd × Connection)) : List Fd := l.map Prod.fst

theorem lookup_eq_some_iff (hs : (keys l).Nodup) :
    l.lookup fd = some conn ↔ (fd, conn) ∈ l := by
  rw [List.lookup_eq_some_iff]
  constructor
  · rintro ⟨l₁, l₂, rfl, -⟩
    simp
  · intro hmem
    obtain ⟨l₁, l₂, rfl⟩ := append_of_mem hmem
    refine ⟨l₁, l₂, rfl, fun e he => ?_⟩
    have := (nodup_append.mp (by simpa [keys] using hs)).2.2 e.1
      (mem_map_of_mem he) fd (by simp)
    simpa using Ne.symm this

theorem lookup_eq_none_iff : l.lookup fd = none ↔ fd ∉ keys l := by
  simp only [List.lookup_eq_none_iff, keys, List.mem_map, not_exists, not_and]
  constructor
  · intro h e he heq
    simpa [heq] using h e he
  · intro h e he
    simpa using fun heq => h e he (Eq.symm heq)

theorem lookup_perm (hs : (keys l).Nodup) (hperm : l ~ l') (fd : Fd) :
    l'.lookup fd = l.lookup fd := by
  have hs' : (keys l').Nodup := (hperm.map Prod.fst).nodup_iff.mp hs
  ext conn
  rw [lookup_eq_some_iff hs, lookup_eq_some_iff hs', hperm.mem_iff]

theorem erase_eq (hs : (keys l).Nodup) (hfind : l.lookup fd = some conn)
    (h : erase p fd l = some (p', l')) :
    conn.readBuf.destroy p = some p' ∧ l ~ (fd, conn) :: l' ∧ l'.Sublist l := by
  induction l generalizing l' with
  | nil => simp at hfind
  | cons entry rest ih =>
    obtain ⟨k, c⟩ := entry
    simp only [erase] at h
    split at h
    case isTrue hk =>
      obtain rfl : k = fd := hk
      obtain rfl : c = conn := by simpa [List.lookup] using hfind
      rw [eraseShift_eq] at h
      simp only [Option.map_eq_some_iff, Prod.mk.injEq] at h
      obtain ⟨_, hdes, rfl, rfl⟩ := h
      exact ⟨hdes, .refl _, sublist_cons_self _ _⟩
    case isFalse hk =>
      have hne : (fd == k) = false := by simpa using Ne.symm hk
      simp only [List.lookup, hne] at hfind
      simp only [Option.map_eq_some_iff, Prod.exists, Prod.mk.injEq] at h
      obtain ⟨_, rest', hrest, rfl, rfl⟩ := h
      obtain ⟨hdes, hperm, hsub⟩ := ih (nodup_cons.mp hs).2 hfind hrest
      exact ⟨hdes, (hperm.cons _).trans (.swap _ _ _), hsub.cons_cons _⟩

theorem emplace_present (hs : (keys l).Pairwise (· < ·)) (hfind : fd ∈ keys l)
    (h : emplace p fd conn l = some (p', l')) :
    conn.readBuf.destroy p = some p' ∧ l' = l := by
  induction l generalizing l' with
  | nil => simp [keys] at hfind
  | cons entry rest ih =>
    simp only [keys, map_cons, pairwise_cons, mem_cons] at hs hfind
    simp only [emplace] at h
    split at h
    · rename_i hlt
      rcases hfind with rfl | hmem
      · exact absurd hlt (Nat.lt_irrefl _)
      · exact absurd (hs.1 fd hmem) (Nat.lt_asymm hlt)
    · split at h
      · simp only [Option.map_eq_some_iff, Prod.mk.injEq] at h
        obtain ⟨_, hdes, rfl, rfl⟩ := h
        exact ⟨hdes, rfl⟩
      · rename_i hne
        simp only [Option.map_eq_some_iff, Prod.exists, Prod.mk.injEq] at h
        obtain ⟨_, rest', hrest, rfl, rfl⟩ := h
        obtain ⟨hdes, rfl⟩ := ih hs.2 (hfind.resolve_left hne) hrest
        exact ⟨hdes, rfl⟩

theorem emplace_absent (hs : (keys l).Pairwise (· < ·)) (hfind : fd ∉ keys l)
    (h : emplace p fd conn l = some (p', l')) :
    p' = p ∧ l' ~ (fd, conn) :: l ∧ (keys l').Pairwise (· < ·) := by
  induction l generalizing l' with
  | nil =>
    simp only [emplace, insertShift_eq, Option.some.injEq, Prod.mk.injEq] at h
    obtain ⟨rfl, rfl⟩ := h
    exact ⟨rfl, .refl _, by simp [keys]⟩
  | cons entry rest ih =>
    simp only [keys, map_cons, pairwise_cons, mem_cons, not_or] at hs hfind
    simp only [emplace] at h
    split at h
    · rename_i hlt
      simp only [insertShift_eq, Option.some.injEq, Prod.mk.injEq] at h
      obtain ⟨rfl, rfl⟩ := h
      refine ⟨rfl, .refl _, ?_⟩
      simp only [keys, map_cons, pairwise_cons, mem_cons]
      refine ⟨?_, hs⟩
      rintro k (rfl | hk)
      · exact hlt
      · exact Nat.lt_trans hlt (hs.1 k hk)
    · rename_i hge
      simp only [hfind.1, if_false, Option.map_eq_some_iff, Prod.exists, Prod.mk.injEq] at h
      obtain ⟨_, rest', hrest, rfl, rfl⟩ := h
      obtain ⟨rfl, hperm, hsorted⟩ := ih hs.2 hfind.2 hrest
      refine ⟨rfl, (hperm.cons _).trans (.swap _ _ _), ?_⟩
      simp only [keys, map_cons, pairwise_cons]
      refine ⟨fun k hk => ?_, hsorted⟩
      have hk' : k ∈ keys ((fd, conn) :: rest) := (hperm.map Prod.fst).mem_iff.mp hk
      simp only [keys, map_cons, mem_cons] at hk'
      rcases hk' with rfl | hk'
      · exact Nat.lt_of_le_of_ne (Nat.le_of_not_lt hge) (Ne.symm hfind.1)
      · exact hs.1 k hk'

theorem keys_nodup (hs : (keys l).Pairwise (· < ·)) : (keys l).Nodup := hs.imp Nat.ne_of_lt

def others (l : List (Fd × Connection)) (fd : Fd) : List (Fd × Connection) :=
  l.filter fun e => e.1 ≠ fd

theorem mem_others {e : Fd × Connection} : e ∈ others l fd ↔ e ∈ l ∧ e.1 ≠ fd := by
  simp [others]

def overwrite (l : List (Fd × Connection)) (fd : Fd) (conn : Connection) :
    List (Fd × Connection) :=
  l.map fun e => if e.1 = fd then (fd, conn) else e

theorem keys_overwrite (conn : Connection) : keys (overwrite l fd conn) = keys l := by
  simp only [keys, overwrite, map_map]
  apply map_congr_left
  intro e _
  simp only [comp_apply]
  split <;> simp_all

theorem overwrite_perm (hs : (keys l).Nodup) (hfd : fd ∈ keys l) (conn : Connection) :
    overwrite l fd conn ~ (fd, conn) :: others l fd := by
  induction l with
  | nil => simp [keys] at hfd
  | cons entry rest ih =>
    obtain ⟨k, c⟩ := entry
    simp only [keys, map_cons, nodup_cons, mem_cons] at hs hfd
    by_cases hk : k = fd
    · subst hk
      have hrest : ∀ e ∈ rest, e.1 ≠ k := by
        rintro e he rfl
        exact hs.1 (mem_map_of_mem he)
      have hmap : overwrite rest k conn = rest := by
        unfold overwrite
        conv_rhs => rw [← map_id rest]
        apply map_congr_left
        intro e he
        simp [hrest e he]
      have hfilter : others rest k = rest := filter_eq_self.mpr (by simpa using hrest)
      simp only [overwrite, others, map_cons, if_true] at hmap hfilter ⊢
      rw [hmap, filter_cons_of_neg (by simp), hfilter]
    · have hrest := ih hs.2 (hfd.resolve_left (Ne.symm hk))
      simp only [overwrite, others, map_cons, hk, if_false] at hrest ⊢
      rw [filter_cons_of_pos (by simpa using hk)]
      exact (hrest.cons _).trans (.swap _ _ _)

theorem overwrite_self (hs : (keys l).Nodup) (hfind : l.lookup fd = some conn) :
    overwrite l fd conn = l := by
  unfold overwrite
  conv_rhs => rw [← map_id l]
  apply map_congr_left
  intro e he
  split
  case isTrue h =>
    obtain ⟨k, c⟩ := e
    obtain rfl : k = fd := h
    have := (lookup_eq_some_iff hs).mpr he
    simp_all
  case isFalse => rfl

theorem perm_others (hs : (keys l).Nodup) (hfind : l.lookup fd = some conn) :
    l ~ (fd, conn) :: others l fd := by
  have hmem := (lookup_eq_some_iff hs).mp hfind
  have := overwrite_perm hs (mem_map_of_mem hmem) conn
  rwa [overwrite_self hs hfind] at this

/-! ## Well-formed states -/

/-- A small buffer, scanned as far as it says, without a request unless one is dispatched. -/
structure ConnOk (p : MemoryPool) (c : Connection) : Prop where
  len_le : c.readBuf.len ≤ connectionMaxRequest
  scan_le : c.readBuf.scanPos ≤ c.readBuf.len - 3
  incomplete : c.dispatched = false → Search.find terminator (c.readBuf.bytes p) = none

def buffers (l : List (Fd × Connection)) : List PooledBuffer := l.map fun e => e.2.readBuf

theorem buffers_perm (h : l ~ l') : buffers l ~ buffers l' := h.map _

/-- Every entry has its descriptor and its own block. -/
structure Wf (s : State) : Prop where
  sorted : (keys s.connections).Pairwise (· < ·)
  own_fd : ∀ e ∈ s.connections, e.2.fd = e.1
  owns : PooledBuffer.Owns s.pool (buffers s.connections)
  conns : ∀ e ∈ s.connections, ConnOk s.pool e.2

def State.view (s : State) : View where
  world := s.world
  conns fd := (s.find fd).map fun c => c.abs s.pool
  focus := none

theorem abs_congr (h : conn.readBuf.bytes p' = conn.readBuf.bytes p) :
    conn.abs p' = conn.abs p := by
  simp [Connection.abs, h]

theorem ConnOk.congr (hok : ConnOk p conn)
    (h : conn.readBuf.bytes p' = conn.readBuf.bytes p) : ConnOk p' conn :=
  ⟨hok.len_le, hok.scan_le, by rw [h]; exact hok.incomplete⟩

/-- `Wf` while the entry of `fd` is being worked on outside the map. -/
structure Held (s : State) (fd : Fd) (p : MemoryPool) (conn : Connection) : Prop where
  sorted : (keys s.connections).Pairwise (· < ·)
  entry : fd ∈ keys s.connections
  own_fd : ∀ e ∈ others s.connections fd, e.2.fd = e.1
  conn_fd : conn.fd = fd
  owns : PooledBuffer.Owns p (conn.readBuf :: buffers (others s.connections fd))
  conns : ∀ e ∈ others s.connections fd, ConnOk s.pool e.2
  same : ∀ b ∈ buffers (others s.connections fd), b.bytes p = b.bytes s.pool

def State.held (s : State) (w : World) (fd : Fd) (p : MemoryPool) (conn : Connection)
    (ph : Phase) : View where
  world := w
  conns := update s.view.conns fd (some (conn.abs p))
  focus := some (fd, ph)

variable {s s' : State}

theorem put_connections (s : State) (w : World) (p : MemoryPool) (fd : Fd) (conn : Connection) :
    (s.put w p fd conn).connections = overwrite s.connections fd conn := rfl

theorem Wf.hold (h : Wf s) (hfind : s.find fd = some conn) : Held s fd s.pool conn := by
  have hnodup := keys_nodup h.sorted
  have hmem := (lookup_eq_some_iff hnodup).mp hfind
  exact {
    sorted := h.sorted
    entry := mem_map_of_mem hmem
    own_fd := fun e he => h.own_fd e (mem_others.mp he).1
    conn_fd := h.own_fd _ hmem
    owns := h.owns.perm (buffers_perm (perm_others hnodup hfind))
    conns := fun e he => h.conns e (mem_others.mp he).1
    same := fun _ _ => rfl }

theorem Wf.put_self (h : Wf s) (hfind : s.find fd = some conn) :
    s.put s.world s.pool fd conn = s := by
  have hself := overwrite_self (keys_nodup h.sorted) hfind
  cases s
  simp only [State.put, State.setConn, State.mk.injEq, and_true, true_and]
  exact hself

namespace Held

theorem put (h : Held s fd p conn) (hok : ConnOk p conn) (w : World) :
    Wf (s.put w p fd conn) := by
  have hnodup := keys_nodup h.sorted
  have hperm : overwrite s.connections fd conn ~ (fd, conn) :: others s.connections fd :=
    overwrite_perm hnodup h.entry conn
  have hall {P : Fd × Connection → Prop} (h0 : P (fd, conn))
      (hr : ∀ e ∈ others s.connections fd, P e) : ∀ e ∈ overwrite s.connections fd conn, P e := by
    intro e he
    rcases mem_cons.mp (hperm.mem_iff.mp he) with rfl | he
    · exact h0
    · exact hr e he
  exact {
    sorted := by
      rw [put_connections, keys_overwrite]
      exact h.sorted
    own_fd := hall h.conn_fd h.own_fd
    owns := h.owns.perm (buffers_perm hperm.symm)
    conns := hall hok fun e he => (h.conns e he).congr (h.same _ (mem_map_of_mem he)) }

theorem find_put (h : Held s fd p conn) (w : World) : (s.put w p fd conn).find fd = some conn := by
  have hnodup := keys_nodup h.sorted
  have hperm := overwrite_perm hnodup h.entry conn
  refine (lookup_eq_some_iff ?_).mpr (hperm.mem_iff.mpr (by simp))
  rw [put_connections, keys_overwrite]
  exact hnodup

theorem find_put_of_ne (h : Held s fd p conn) (w : World) {g : Fd} (hg : g ≠ fd) :
    (s.put w p fd conn).find g = s.find g := by
  have hnodup := keys_nodup h.sorted
  have hnodup' : (keys (overwrite s.connections fd conn)).Nodup := by rwa [keys_overwrite]
  ext c
  simp only [State.find, put_connections]
  rw [lookup_eq_some_iff hnodup, lookup_eq_some_iff hnodup',
    (overwrite_perm hnodup h.entry conn).mem_iff, mem_cons, mem_others]
  simp [hg]

theorem abs_same (h : Held s fd p conn) {g : Fd} (hg : g ≠ fd) :
    ((s.find g).map fun c => c.abs p) = s.view.conns g := by
  simp only [State.view]
  cases hfind : s.find g with
  | none => rfl
  | some c =>
    have hmem := (lookup_eq_some_iff (keys_nodup h.sorted)).mp hfind
    have := h.same _ (mem_map_of_mem (mem_others.mpr ⟨hmem, hg⟩))
    simp [abs_congr this]

theorem view_put (h : Held s fd p conn) (w : World) (ph : Phase) :
    (s.put w p fd conn).view = (s.held w fd p conn ph).look none := by
  simp only [State.view, State.held, View.look, View.mk.injEq]
  refine ⟨rfl, ?_, trivial⟩
  funext g
  by_cases hg : g = fd
  · subst hg
    rw [h.find_put, update_self]
    rfl
  · rw [h.find_put_of_ne w hg, update_of_ne hg]
    exact h.abs_same hg

theorem erase (h : Held s fd p conn) (w : World) (ph : Phase)
    (herased : (s.put w p fd conn).eraseConn fd = some s') :
    Wf s' ∧ s'.view = ((s.held w fd p conn ph).dropConn fd).look none := by
  have hnodup := keys_nodup h.sorted
  have hnodup' : (keys (overwrite s.connections fd conn)).Nodup := by rwa [keys_overwrite]
  simp only [State.eraseConn, Option.map_eq_some_iff, Prod.exists] at herased
  obtain ⟨p', l, herase, rfl⟩ := herased
  obtain ⟨hdes, hperm, hsub⟩ := erase_eq hnodup' (h.find_put w) herase
  have hrest : l ~ others s.connections fd :=
    (perm_cons _).mp (hperm.symm.trans (overwrite_perm hnodup h.entry conn))
  obtain ⟨howns, hbytes⟩ := h.owns.destroy hdes
  have hsame (e : Fd × Connection) (he : e ∈ others s.connections fd) :
      e.2.readBuf.bytes p' = e.2.readBuf.bytes s.pool :=
    (hbytes _ (mem_map_of_mem he)).trans (h.same _ (mem_map_of_mem he))
  have hsorted' : (keys (overwrite s.connections fd conn)).Pairwise (· < ·) := by
    rw [keys_overwrite]
    exact h.sorted
  have hsorted : (keys l).Pairwise (· < ·) := hsorted'.sublist (hsub.map Prod.fst)
  refine ⟨⟨hsorted, fun e he => h.own_fd e (hrest.mem_iff.mp he),
    howns.perm (buffers_perm hrest.symm), fun e he => ?_⟩, ?_⟩
  · exact (h.conns e (hrest.mem_iff.mp he)).congr (hsame e (hrest.mem_iff.mp he))
  · simp only [State.view, State.held, View.dropConn, View.look, View.mk.injEq]
    refine ⟨rfl, ?_, trivial⟩
    funext g
    rw [update_idem]
    by_cases hg : g = fd
    · subst hg
      have hnone : l.lookup g = none := lookup_eq_none_iff.mpr fun hmem => by
        obtain ⟨e, he, rfl⟩ := mem_map.mp hmem
        exact (mem_others.mp (hrest.mem_iff.mp he)).2 rfl
      simp [State.find, hnone]
    · rw [update_of_ne hg]
      have hfind : l.lookup g = s.connections.lookup g := by
        ext c
        rw [lookup_eq_some_iff (keys_nodup hsorted), lookup_eq_some_iff hnodup, hrest.mem_iff,
          mem_others]
        simp [hg]
      simp only [State.find, hfind]
      cases hc : s.connections.lookup g with
      | none => rfl
      | some c =>
        have hmem := (lookup_eq_some_iff hnodup).mp hc
        simp [abs_congr (hsame _ (mem_others.mpr ⟨hmem, hg⟩))]

theorem close (h : Held s fd p conn) (w : World) (ph : Phase)
    (hclose : (s.put w p fd conn).closeConnection fd = some s') :
    Wf s' ∧ s'.view =
      (((s.held w fd p conn ph).setWorld (w.close fd conn.id)).dropConn fd).look none := by
  simp only [State.closeConnection, h.find_put] at hclose
  exact h.erase (w.close fd conn.id) ph hclose

end Held

theorem held_self (hfind : s.find fd = some conn) (ph : Phase) :
    s.held s.world fd s.pool conn ph = s.view.look (some (fd, ph)) := by
  have hconns : s.view.conns fd = some (conn.abs s.pool) := by simp [State.view, hfind]
  simp only [State.held, View.look, ← hconns, update_eq_self]
  rfl

theorem Wf.emplace (h : Wf s) (hfind : s.find fd = none)
    (howns : PooledBuffer.Owns p (conn.readBuf :: buffers s.connections))
    (hsame : ∀ b ∈ buffers s.connections, b.bytes p = b.bytes s.pool) (hfd : conn.fd = fd)
    (hok : ConnOk p conn) (hemp : Reactor.emplace p fd conn s.connections = some (p', l))
    (w : World) :
    Wf { s with world := w, pool := p', connections := l } ∧
      State.view { s with world := w, pool := p', connections := l } =
        (s.view.setWorld w).setConn fd (conn.abs p) := by
  have habsent : fd ∉ keys s.connections := lookup_eq_none_iff.mp hfind
  obtain ⟨rfl, hperm, hsorted⟩ := emplace_absent h.sorted habsent hemp
  have hnodup := keys_nodup hsorted
  refine ⟨⟨hsorted, ?_, howns.perm (buffers_perm hperm.symm), ?_⟩, ?_⟩
  · intro e he
    rcases mem_cons.mp (hperm.mem_iff.mp he) with rfl | he
    · exact hfd
    · exact h.own_fd e he
  · intro e he
    rcases mem_cons.mp (hperm.mem_iff.mp he) with rfl | he
    · exact hok
    · exact (h.conns e he).congr (hsame _ (mem_map_of_mem he))
  · simp only [State.view, View.setWorld, View.setConn, View.mk.injEq]
    refine ⟨trivial, ?_, trivial⟩
    funext g
    rw [State.find, lookup_perm ((hperm.map Prod.fst).nodup_iff.mp hnodup) hperm.symm]
    by_cases hg : g = fd
    · subst hg
      simp [List.lookup]
    · have hne : (g == fd) = false := by simpa using hg
      simp only [List.lookup, hne, update_of_ne hg, State.find]
      cases hc : s.connections.lookup g with
      | none => rfl
      | some c =>
        have hmem := (lookup_eq_some_iff (keys_nodup h.sorted)).mp hc
        simp [abs_congr (hsame _ (mem_map_of_mem hmem))]

theorem Wf.repool (h : Wf s) (howns : PooledBuffer.Owns p (buffers s.connections))
    (hsame : ∀ b ∈ buffers s.connections, b.bytes p = b.bytes s.pool) (w : World) :
    Wf { s with world := w, pool := p } ∧
      State.view { s with world := w, pool := p } = s.view.setWorld w := by
  refine ⟨⟨h.sorted, h.own_fd, howns, fun e he =>
    (h.conns e he).congr (hsame _ (mem_map_of_mem he))⟩, ?_⟩
  simp only [State.view, View.setWorld, View.mk.injEq]
  refine ⟨trivial, ?_, trivial⟩
  funext g
  simp only [State.find]
  cases hc : s.connections.lookup g with
  | none => rfl
  | some c =>
    have hmem := (lookup_eq_some_iff (keys_nodup h.sorted)).mp hc
    simp [abs_congr (hsame _ (mem_map_of_mem hmem))]

/-! ## Cutting off a request -/

theorem carve_spec {b : PooledBuffer} {bufs : List PooledBuffer} {n : Nat}
    (h : PooledBuffer.Owns p (b :: bufs)) (hn : n ≤ b.len) :
    frontBytes p b n = (b.bytes p).take n ∧
      PooledBuffer.Owns (carve p b n).1 ((carve p b n).2 :: bufs) ∧
      (carve p b n).2.bytes (carve p b n).1 = (b.bytes p).drop n ∧
      ∀ x ∈ bufs, x.bytes (carve p b n).1 = x.bytes p := by
  obtain ⟨d, hd, hcap⟩ : ∃ d, b.data = some d ∧ b.len ≤ b.cap := by
    obtain ⟨ks, free, -, hfits⟩ := h
    cases hfits with
    | cons hfit _ => exact ⟨_, hfit.data, hfit.len_le⟩
  have hbytes : b.bytes p = p.mem.readBytes d b.len := by simp [PooledBuffer.bytes, hd]
  refine ⟨?_, ?_⟩
  · rw [hbytes, Memory.readBytes_take _ _ hn]
    simp [frontBytes, hd]
  rw [hbytes, Memory.readBytes_drop _ _ hn]
  simp only [carve, PooledBuffer.setSize, PooledBuffer.setScanPos, PooledBuffer.shiftDown, hd]
  split
  case isTrue hshift =>
    have hroom : 0 + (p.mem.readBytes (d + n) (b.len - n)).length ≤ b.cap := by
      simp only [Memory.length_readBytes]
      omega
    obtain ⟨howns, hsame⟩ := h.write hd hroom
    refine ⟨?_, ?_, hsame⟩
    · have := howns.resize (b.len - n) 0 (by omega)
      simpa [hd] using this
    · have := p.mem.readBytes_writeBytes d (p.mem.readBytes (d + n) (b.len - n))
      simpa [PooledBuffer.bytes, hd] using this
  case isFalse hstay =>
    refine ⟨?_, ?_, fun _ _ => rfl⟩
    · have := h.resize (b.len - n) 0 (by omega)
      simpa [hd] using this
    · -- nothing to shift: either nothing is left, or nothing was taken
      simp only [PooledBuffer.bytes]
      rcases Nat.eq_zero_or_pos n with rfl | hpos
      · simp
      · have hzero : b.len - n = 0 := by omega
        simp [hzero, Memory.readBytes]

end Reactor

end Muses
