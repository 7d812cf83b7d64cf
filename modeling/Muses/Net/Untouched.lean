import Muses.Net.Refinement

/-!
# What the handlers of connections leave alone

The handlers reach the world through `read`, `write`, `close`, the poller and the queue of the
workers. A part of the world that none of these changes is left alone by all of them, and none of
them adds a connection.

* `Untouched f` — the calls leave the part `f` of the world alone;
* `Spared f s s'` — from `s` to `s'`, `f` is left alone and no connection is added.
-/

namespace Muses.Reactor

open Muses.Core Option

variable {α : Type}

/-- The loop's calls leave this part of the world as it is. -/
structure Untouched (f : World → α) : Prop where
  sysRead : ∀ {w w' : World} {fd : Fd} {id : ConnId} {r : World.ReadResult},
    w.sysRead fd id r = some w' → f w' = f w
  sysWrite : ∀ {w w' : World} {fd : Fd} {o : Origin} {data : List UInt8} {r : World.WriteResult},
    w.sysWrite fd o data r = some w' → f w' = f w
  close : ∀ (w : World) (fd : Fd) (c : ConnId), f (w.close fd c) = f w
  arm : ∀ (w : World) (fd : Fd) (m : EventMask) (ok : Bool), f (w.arm fd m ok) = f w
  enqueue : ∀ (w : World) (fd : Fd) (id : ConnId) (request : List UInt8),
    f (w.enqueue fd id request) = f w

/-! ## Loops of system calls -/

section Loops

variable {f : World → α} {w : World} {fd : Fd}

theorem Untouched.readLoop (hf : Untouched f) {G : GlobalAllocator}
    {onData : World → MemoryPool → Nat → Connection → Connection × Bool} {p : MemoryPool}
    {conn : Connection} {got : Bool} {rs : List World.ReadResult}
    {r : World × MemoryPool × Connection × ReadEnd}
    (h : readLoop G fd onData w p conn got rs = some r) : f r.1 = f w := by
  induction rs generalizing w p conn got with
  | nil => cases h
  | cons r₀ rs ih =>
    obtain ⟨w₁, hread, h⟩ := bind_eq_some_iff.mp h
    have hw := hf.sysRead hread
    cases r₀ with
    | data bs =>
      obtain ⟨⟨p₁, buf, ok⟩, -, h⟩ := bind_eq_some_iff.mp h
      simp only at h
      split at h
      · cases h
        exact hw
      · exact (ih h).trans hw
    | eintr => exact (ih h).trans hw
    | eof | eagain | error =>
      cases h
      exact hw

theorem Untouched.tryWrite (hf : Untouched f) {o : Origin} {data : List UInt8} {total : Nat}
    {ws : List World.WriteResult} {r : World × Option Nat}
    (h : tryWrite fd o data w total ws = some r) : f r.1 = f w := by
  induction ws generalizing w total with
  | nil =>
    simp only [Reactor.tryWrite] at h
    split at h <;> cases h
    rfl
  | cons r₀ ws ih =>
    simp only [Reactor.tryWrite] at h
    split at h
    · obtain ⟨w₁, hwrite, h⟩ := bind_eq_some_iff.mp h
      have hw := hf.sysWrite hwrite
      cases r₀ with
      | wrote | eintr => exact (ih h).trans hw
      | eagain | error =>
        cases h
        exact hw
    · cases h
      rfl

theorem Untouched.closeEntries (hf : Untouched f) (w : World) (l : List (Fd × Connection)) :
    f (closeEntries w l) = f w := by
  induction l generalizing w with
  | nil => rfl
  | cons entry rest ih => exact (ih (w.close entry.1 entry.2.id)).trans (hf.close _ _ _)

end Loops

/-! ## The size of the map -/

section Size

variable {p : MemoryPool} {fd : Fd} {l : List (Fd × Connection)}
  {r : MemoryPool × List (Fd × Connection)}

theorem length_insertShift {carry : Fd × Connection} (h : insertShift p carry l = some r) :
    r.2.length = l.length + 1 := by
  induction l generalizing p carry r with
  | nil =>
    cases h
    rfl
  | cons next rest ih =>
    obtain ⟨⟨p₁, rest'⟩, hrest, h⟩ := bind_eq_some_iff.mp h
    obtain ⟨⟨p₂, buf, left⟩, -, rfl⟩ := map_eq_some_iff.mp h
    simp only [List.length_cons, ih hrest]

theorem length_emplace {conn : Connection} (h : emplace p fd conn l = some r) :
    r.2.length ≤ l.length + 1 := by
  induction l generalizing r with
  | nil => exact (length_insertShift h).le
  | cons entry rest ih =>
    simp only [emplace] at h
    split at h
    · exact (length_insertShift h).le
    · split at h
      · obtain ⟨p', -, rfl⟩ := map_eq_some_iff.mp h
        simp
      · obtain ⟨⟨p', rest'⟩, hrest, rfl⟩ := map_eq_some_iff.mp h
        simpa using ih hrest

theorem length_eraseShift {gap : Connection} (h : eraseShift p gap l = some r) :
    r.2.length = l.length := by
  induction l generalizing p gap r with
  | nil =>
    obtain ⟨p', -, rfl⟩ := map_eq_some_iff.mp h
    rfl
  | cons next rest ih =>
    obtain ⟨⟨p₁, buf, left⟩, -, h⟩ := bind_eq_some_iff.mp h
    obtain ⟨⟨p₂, rest'⟩, hrest, rfl⟩ := map_eq_some_iff.mp h
    simp only [List.length_cons, ih hrest]

theorem length_erase (h : erase p fd l = some r) : r.2.length ≤ l.length := by
  induction l generalizing r with
  | nil =>
    cases h
    exact Nat.le_refl _
  | cons entry rest ih =>
    simp only [erase] at h
    split at h
    · rw [length_eraseShift h, List.length_cons]
      exact Nat.le_succ _
    · obtain ⟨⟨p', rest'⟩, hrest, rfl⟩ := map_eq_some_iff.mp h
      simpa using ih hrest

end Size

/-! ## The handlers -/

/-- The part of the world is the same, and there are no more connections than before. -/
structure Spared (f : World → α) (s s' : State) : Prop where
  part : f s'.world = f s.world
  size : s'.connections.length ≤ s.connections.length

namespace Spared

variable {f : World → α} {G : GlobalAllocator} {cfg : Config} {s s' s'' : State} {w : World}
  {p : MemoryPool} {fd : Fd} {conn : Connection} {io : Io}

theorem refl : Spared f s s := ⟨rfl, Nat.le_refl _⟩

theorem trans (h : Spared f s s') (h' : Spared f s' s'') : Spared f s s'' :=
  ⟨h'.part.trans h.part, Nat.le_trans h'.size h.size⟩

theorem world (h : f w = f s.world) : Spared f s { s with world := w } := ⟨h, Nat.le_refl _⟩

theorem put (h : f w = f s.world) : Spared f s (s.put w p fd conn) :=
  ⟨h, by simp [State.put, State.setConn]⟩

theorem setConn : Spared f s (s.setConn fd conn) := ⟨rfl, by simp [State.setConn]⟩

theorem eraseConn (h : s.eraseConn fd = some s') : Spared f s s' := by
  obtain ⟨r, herase, rfl⟩ := map_eq_some_iff.mp h
  exact ⟨rfl, length_erase herase⟩

theorem closeConnection (hf : Untouched f) (h : s.closeConnection fd = some s') :
    Spared f s s' := by
  unfold State.closeConnection at h
  split at h
  · cases h
    exact .refl
  · rename_i conn _
    have hclose : Spared f s { s with world := s.world.close fd conn.id } :=
      .world (hf.close _ _ _)
    exact hclose.trans (.eraseConn h)

theorem dispatchToWorker (hf : Untouched f) : Spared f s (s.dispatchToWorker fd conn) :=
  .put (hf.enqueue _ _ _ _)

theorem checkBufferedRequest (hf : Untouched f) : Spared f s (s.checkBufferedRequest conn) := by
  unfold State.checkBufferedRequest
  split
  · exact .refl
  · split
    · exact .refl
    · split
      · exact .dispatchToWorker hf
      · exact .refl

theorem finishResponse (hf : Untouched f) (h : s.finishResponse G conn io = some s') :
    Spared f s s' := by
  unfold State.finishResponse at h
  split at h
  · obtain ⟨⟨w, p, conn', e⟩, hdrain, h⟩ := bind_eq_some_iff.mp h
    have hput : Spared f s (s.put w p conn.fd conn') :=
      .put ((hf.readLoop hdrain).trans (hf.arm _ _ _ _))
    cases e with
    | close => exact hput.trans (.closeConnection hf h)
    | drained =>
      cases h
      exact hput.trans (.checkBufferedRequest hf)
  · exact Spared.setConn.trans (.closeConnection hf h)

theorem settleWrite (hf : Untouched f) (h : s.settleWrite G conn io = some s') : Spared f s s' := by
  unfold State.settleWrite at h
  split at h
  · exact .finishResponse hf h
  · cases h
    exact .put (hf.arm _ _ _ _)

theorem continueWrite (hf : Untouched f) (h : s.continueWrite G conn io = some s') :
    Spared f s s' := by
  unfold State.continueWrite at h
  split at h
  · obtain ⟨⟨w, wrote⟩, hwrite, h⟩ := bind_eq_some_iff.mp h
    have hw := hf.tryWrite hwrite
    cases wrote with
    | none => exact (Spared.put hw).trans (.closeConnection hf h)
    | some wrote => exact (Spared.world hw).trans (.settleWrite hf h)
  · exact .settleWrite hf h

theorem onClientEvent (hf : Untouched f) {mask : EventMask}
    (h : s.onClientEvent G fd mask io = some s') : Spared f s s' := by
  unfold State.onClientEvent at h
  split at h
  · exact .closeConnection hf h
  · split at h
    · -- a writable event continues the parked write, or nothing
      split at h
      · split at h
        · exact .continueWrite hf h
        · cases h
          exact .refl
      · cases h
        exact .refl
    · split at h
      · cases h
        exact .refl
      · split at h
        · cases h
          exact .refl
        · split at h
          · cases h
            exact .refl
          · obtain ⟨⟨w, p, conn', e⟩, hread, h⟩ := bind_eq_some_iff.mp h
            have hput : Spared f s (s.put w p fd conn') := .put (hf.readLoop hread)
            cases e with
            | close => exact hput.trans (.closeConnection hf h)
            | drained got =>
              cases got <;> cases h
              · exact hput
              · exact hput.trans (.dispatchToWorker hf)

theorem drainHandback (hf : Untouched f) {hb : WorkerHandback}
    (h : s.drainHandback G hb io = some s') : Spared f s s' := by
  unfold State.drainHandback at h
  split at h
  · cases h
    exact .refl
  · split at h
    · exact .closeConnection hf h
    · exact .continueWrite hf h

theorem closeAll (hf : Untouched f) {fds : List Fd} (h : s.closeAll fds = some s') :
    Spared f s s' := by
  induction fds generalizing s with
  | nil =>
    cases h
    exact .refl
  | cons fd fds ih =>
    obtain ⟨s₁, hone, hrest⟩ := bind_eq_some_iff.mp h
    exact (Spared.closeConnection hf hone).trans (ih hrest)

theorem sweepIdleConnections (hf : Untouched f) (h : s.sweepIdleConnections cfg = some s') :
    Spared f s s' := by
  unfold State.sweepIdleConnections at h
  split at h
  · cases h
    exact .refl
  · exact .closeAll hf h

theorem sweepIpRate (cfg : Config) (s : State) : Spared f s (s.sweepIpRate cfg) := by
  unfold State.sweepIpRate
  split
  · exact .refl
  · split <;> exact ⟨rfl, Nat.le_refl _⟩

end Spared

theorem Untouched.register {f : World → α} (hf : Untouched f) {cfg : Config} {s s' : State}
    {fd : Fd} {ip : UInt32} {id : ConnId} {now : Nat} {addOk : Bool}
    (h : s.register cfg fd ip id now addOk = some s') :
    f s'.world = f s.world ∧ s'.connections.length ≤ s.connections.length + 1 := by
  obtain ⟨⟨p₁, fresh⟩, -, h⟩ := bind_eq_some_iff.mp h
  obtain ⟨⟨p₂, buf, left⟩, -, h⟩ := bind_eq_some_iff.mp h
  obtain ⟨⟨p₃, conns⟩, hemplace, h⟩ := bind_eq_some_iff.mp h
  have hsize := length_emplace hemplace
  simp only at h hsize
  split at h
  · cases h
    exact ⟨hf.arm _ _ _ _, hsize⟩
  · have herase : Spared f _ s' := .eraseConn h
    exact ⟨herase.part.trans (hf.close _ _ _), Nat.le_trans herase.size hsize⟩

end Muses.Reactor
