import Muses.Net.Connections

/-!
# The reactor refines the connection protocol

Every step of the reactor keeps its states well formed and is, seen through `State.view`, a
sequence of moves of `Muses.Net.Protocol`.
-/

namespace Muses.Reactor

open Muses.Core Function Option List

variable {cfg : Config} {A : Assume} {s s' : State} {fd : Fd} {p p' : MemoryPool}
  {conn conn' : Connection} {w w' : World} {G : GlobalAllocator}

namespace Moves

variable {v : View}

theorem refl : Moves cfg A v v := Relation.ReflTransGen.refl

theorem one {v' : View} (h : Move cfg A v v') : Moves cfg A v v' := Relation.ReflTransGen.single h

theorem trans {v' v'' : View} (h : Moves cfg A v v') (h' : Moves cfg A v' v'') :
    Moves cfg A v v'' := Relation.ReflTransGen.trans h h'

end Moves

/-! ## The held view -/

theorem held_conns (s : State) (w : World) (fd : Fd) (p : MemoryPool) (conn : Connection)
    (ph : Phase) : (s.held w fd p conn ph).conns fd = some (conn.abs p) := by
  simp [State.held]

theorem held_setConn (ph : Phase) {c : Conn} (hc : c = conn'.abs p') :
    ((s.held w fd p conn ph).setWorld w').setConn fd c = s.held w' fd p' conn' ph := by
  subst hc
  simp [State.held, View.setWorld, View.setConn]

theorem held_turn (ph ph' : Phase) {c : Conn} (hc : c = conn'.abs p') :
    (((s.held w fd p conn ph).setWorld w').setConn fd c).look (some (fd, ph')) =
      s.held w' fd p' conn' ph' := by
  rw [held_setConn ph hc]
  rfl

/-! ## Reading -/

/-- What is done with new bytes changes nothing but the time and the scan position. -/
def Scans (onData : World → MemoryPool → Nat → Connection → Connection × Bool) : Prop :=
  ∀ w p n c, ∃ pos t, (onData w p n c).1 =
    { c with lastActive := t, readBuf := { c.readBuf with scanPos := pos } }

/-- `J` is kept by the read loop. -/
structure LoopInv (onData : World → MemoryPool → Nat → Connection → Connection × Bool)
    (J : List UInt8 → Nat → Bool → List World.ReadResult → Prop) : Prop where
  data : ∀ w p c old bs got rs, c.readBuf.bytes p = old ++ bs →
    c.readBuf.len = (old ++ bs).length → J old c.readBuf.scanPos got (.data bs :: rs) →
    J (old ++ bs) (onData w p old.length c).1.readBuf.scanPos
      (got || (onData w p old.length c).2) rs
  eintr : ∀ bytes pos got rs, J bytes pos got (.eintr :: rs) → J bytes pos got rs

/-- Where the read loop ends. -/
structure LoopEnd (cfg : Config) (A : Assume) (s : State) (fd : Fd)
    (J : List UInt8 → Nat → Bool → List World.ReadResult → Prop) (w : World) (p : MemoryPool)
    (conn : Connection) (w' : World) (p' : MemoryPool) (conn' : Connection) (e : ReadEnd) :
    Prop where
  held : Held s fd p' conn'
  abs : conn'.abs p' = { conn.abs p with buf := conn'.readBuf.bytes p' }
  moves : Moves cfg A (s.held w fd p conn .serve) (s.held w' fd p' conn' .serve)
  drained : ∀ g, e = .drained g → conn'.readBuf.len ≤ connectionMaxRequest ∧
    (∃ k, w'.fds fd = some k ∧ (w'.socks k).rx = []) ∧
    ∃ rs, J (conn'.readBuf.bytes p') conn'.readBuf.scanPos g (.eagain :: rs)

theorem readLoop_moves {onData : World → MemoryPool → Nat → Connection → Connection × Bool}
    {J : List UInt8 → Nat → Bool → List World.ReadResult → Prop}
    (hscan : Scans onData) (hJ : LoopInv onData J) {got : Bool} {rs : List World.ReadResult}
    {e : ReadEnd} (h : Held s fd p conn) (hlen : conn.readBuf.len ≤ connectionMaxRequest)
    (hinv : J (conn.readBuf.bytes p) conn.readBuf.scanPos got rs)
    (hloop : readLoop G fd onData w p conn got rs = some (w', p', conn', e)) :
    LoopEnd cfg A s fd J w p conn w' p' conn' e := by
  induction rs generalizing w p conn got with
  | nil => simp [readLoop] at hloop
  | cons r rs ih =>
    obtain ⟨w₁, hread, hrest⟩ := bind_eq_some_iff.mp hloop
    clear hloop
    cases r with
    | data bs =>
      obtain ⟨k, hfd, hne, hchunk, hpre, hw₁⟩ := World.sysRead_data hread
      simp only at hrest
      obtain ⟨⟨p₁, buf, ok⟩, happ, hrest⟩ := bind_eq_some_iff.mp hrest
      have hsmall : conn.readBuf.len + bs.length < 2 ^ 32 := by
        simp only [connectionMaxRequest, World.readChunk] at hlen hchunk
        omega
      obtain ⟨rfl, howns, hbytes, hbuflen, hbufscan, hsame⟩ := h.owns.append hsmall happ
      set conn₁ : Connection := { conn with readBuf := buf } with hconn₁
      have hheld₁ : Held s fd p₁ conn₁ :=
        { h with
          owns := howns
          same := fun b hb => (hsame b hb).trans (h.same b hb) }
      have habs₁ : conn₁.abs p₁ = { conn.abs p with buf := (conn.abs p).buf ++ bs } := by
        simp [Connection.abs, hconn₁, hbytes]
      have hmove : Moves cfg A (s.held w fd p conn .serve) (s.held w₁ fd p₁ conn₁ .serve) := by
        have hstep : Move cfg A _ _ := .consume fd (conn.abs p) bs rfl
          (held_conns s w fd p conn .serve) hread
        rw [held_setConn .serve habs₁.symm] at hstep
        exact .one hstep
      split at hrest
      · -- an oversized request: the loop ends here
        simp only [Option.some.injEq, Prod.mk.injEq] at hrest
        obtain ⟨rfl, rfl, rfl, rfl⟩ := hrest
        exact ⟨hheld₁, by simp [Connection.abs, hconn₁], hmove, by simp⟩
      rename_i hsize
      obtain ⟨pos, t, hon⟩ := hscan w₁ p₁ conn.readBuf.len conn₁
      set conn₂ : Connection := (onData w₁ p₁ conn.readBuf.len conn₁).1 with hconn₂
      have hlenbytes : (conn.readBuf.bytes p).length = conn.readBuf.len := h.owns.length_bytes
      have hstep := hJ.data w₁ p₁ conn₁ (conn.readBuf.bytes p) bs got rs hbytes (by
        simp [hconn₁, hbuflen, hlenbytes]) (by simpa [hconn₁, hbufscan] using hinv)
      rw [hlenbytes, ← hbytes, ← hconn₂] at hstep
      have hbytes₂ : conn₂.readBuf.bytes p₁ = buf.bytes p₁ := by
        rw [hon]
        rfl
      have habs₂ : conn₂.abs p₁ = conn₁.abs p₁ := by
        simp [Connection.abs, hon, PooledBuffer.bytes]
      have hheld₂ : Held s fd p₁ conn₂ :=
        { hheld₁ with
          conn_fd := by rw [hon]; exact hheld₁.conn_fd
          owns := by rw [hon]; exact hheld₁.owns.rescan pos }
      have hend := ih hheld₂ (by rw [hon]; exact Nat.le_of_not_lt fun hlt => hsize (.inr hlt))
        (by rw [hbytes₂]; exact hstep) hrest
      have hview : s.held w₁ fd p₁ conn₂ .serve = s.held w₁ fd p₁ conn₁ .serve := by
        simp [State.held, habs₂]
      refine ⟨hend.held, ?_, hmove.trans (hview ▸ hend.moves), hend.drained⟩
      rw [hend.abs, habs₂, habs₁]
    | eof =>
      cases hrest
      obtain rfl := World.sysRead_other (by simp) hread
      exact ⟨h, rfl, .refl, by simp⟩
    | eagain =>
      cases hrest
      obtain rfl := World.sysRead_other (by simp) hread
      refine ⟨h, rfl, .refl, fun g hg => ⟨hlen, World.sysRead_eagain hread, rs, ?_⟩⟩
      cases hg
      exact hinv
    | eintr =>
      obtain rfl := World.sysRead_other (by simp) hread
      exact ih h hlen (hJ.eintr _ _ _ _ hinv) hrest
    | error =>
      cases hrest
      obtain rfl := World.sysRead_other (by simp) hread
      exact ⟨h, rfl, .refl, by simp⟩

/-- Nothing is read any more once a request is complete. -/
def StopsAtTerminator : List UInt8 → List World.ReadResult → Prop
  | _, [] => True
  | bytes, .data bs :: rs =>
      Search.find terminator bytes = none ∧ StopsAtTerminator (bytes ++ bs) rs
  | bytes, _ :: rs => StopsAtTerminator bytes rs

instance StopsAtTerminator.decidable :
    ∀ (bytes : List UInt8) (rs : List World.ReadResult), Decidable (StopsAtTerminator bytes rs)
  | _, [] => .isTrue trivial
  | bytes, .data bs :: rs =>
      have := StopsAtTerminator.decidable (bytes ++ bs) rs
      inferInstanceAs (Decidable (_ ∧ _))
  | bytes, .eof :: rs => StopsAtTerminator.decidable bytes rs
  | bytes, .eagain :: rs => StopsAtTerminator.decidable bytes rs
  | bytes, .eintr :: rs => StopsAtTerminator.decidable bytes rs
  | bytes, .error :: rs => StopsAtTerminator.decidable bytes rs

def State.reading (s : State) : Option Connection :=
  match s.world.pc with
  | .batch (e :: _) =>
      if e.mask.closed || e.mask.writable || !e.mask.readable then none
      else (s.find e.fd).filter fun conn => !conn.dispatched
  | _ => none

/-- The scan of `on_client_event`: before a terminator is seen, `scan_pos` lags three bytes behind
the end; afterwards it is some position behind a terminator, and the first one if the reads stop
there. -/
structure ScanInv (A : Assume) (bytes : List UInt8) (pos : Nat) (got : Bool)
    (rs : List World.ReadResult) : Prop where
  searching : got = false → Search.find terminator bytes = none ∧ pos ≤ bytes.length - 3
  found : got = true → 0 < pos ∧ pos ≤ bytes.length ∧ 4 ≤ bytes.length
  clean : A.clean = true → StopsAtTerminator bytes rs
  first : A.clean = true → got = true →
    ∃ i, Search.find terminator bytes = some i ∧ pos = i + 4

theorem scans_scanData : Scans scanData := by
  intro w p n c
  simp only [scanData, scanNew]
  split <;> exact ⟨_, w.clock, rfl⟩

theorem scanData_inv (A : Assume) : LoopInv scanData (ScanInv A) where
  eintr bytes pos got rs h := ⟨h.searching, h.found, h.clean, h.first⟩
  data := by
    intro w p c old bs got rs hbytes hlen h
    have hnil : terminator ≠ [] := by decide
    have hclean : A.clean = true → StopsAtTerminator (old ++ bs) rs := fun hA => (h.clean hA).2
    simp only [scanData, scanNew, hbytes]
    cases got with
    | false =>
      obtain ⟨hmiss, hpos⟩ := h.searching rfl
      have hfrom : max (old.length - 3) c.readBuf.scanPos = old.length - 3 := by omega
      have hresume := Search.find_resume bs hnil hmiss
        (show old.length - 3 + (terminator.length - 1) ≤ old.length ∨ old.length - 3 = 0 by
          simp only [terminator, length_cons, length_nil]; omega)
      rw [hfrom]
      cases hfind : Search.find terminator ((old ++ bs).drop (old.length - 3)) with
      | none =>
        simp only [hfind, map_none] at hresume
        exact ⟨fun _ => ⟨hresume, by simp [PooledBuffer.setScanPos, hlen]⟩, by simp, hclean,
          by simp⟩
      | some i =>
        simp only [hfind, map_some] at hresume
        have hend := Search.find_add_length_le hresume
        simp only [terminator, length_cons, length_nil] at hend
        refine ⟨by simp, fun _ => ?_, hclean, fun _ _ => ⟨_, hresume, rfl⟩⟩
        simp only [PooledBuffer.setScanPos]
        omega
    | true =>
      obtain ⟨hpos, hle, hfour⟩ := h.found rfl
      have hmore : old.length ≤ (old ++ bs).length := by simp
      -- a clean run reads nothing more once a terminator is there
      have hstop : A.clean = true → False := fun hA => by
        obtain ⟨i, hi, -⟩ := h.first hA rfl
        have := (h.clean hA).1
        simp [hi] at this
      cases hfind : Search.find terminator
          ((old ++ bs).drop (max (old.length - 3) c.readBuf.scanPos)) with
      | none =>
        refine ⟨by simp, fun _ => ?_, hclean, fun hA => (hstop hA).elim⟩
        simp only [PooledBuffer.setScanPos, hlen]
        omega
      | some i =>
        have hend := Search.find_add_length_le hfind
        simp only [terminator, length_cons, length_nil, length_drop] at hend
        refine ⟨by simp, fun _ => ?_, hclean, fun hA => (hstop hA).elim⟩
        simp only [PooledBuffer.setScanPos]
        omega

theorem drain_inv :
    LoopInv (fun _ _ _ conn => (conn, false)) fun bytes pos _ _ => pos ≤ bytes.length - 3 where
  eintr _ _ _ _ h := h
  data _ _ c old bs _ _ _ _ h := by
    change c.readBuf.scanPos ≤ _
    rw [length_append]
    omega

/-! ## Dispatching -/

theorem put_put (s : State) (w w' : World) (p p' : MemoryPool) (fd : Fd)
    (conn conn' : Connection) : (s.put w p fd conn).put w' p' fd conn' = s.put w' p' fd conn' := by
  simp only [State.put, State.setConn, List.map_map]
  congr 1
  apply List.map_congr_left
  intro e _
  simp only [comp_apply]
  split <;> simp_all

theorem dispatch_moves (h : Held s fd p conn) (hpos : 0 < conn.readBuf.scanPos)
    (hle : conn.readBuf.scanPos ≤ conn.readBuf.len)
    (hlen : conn.readBuf.len ≤ connectionMaxRequest)
    (hA : A.clean = true →
      Search.IsFrame terminator ((conn.readBuf.bytes p).take conn.readBuf.scanPos)) :
    Wf ((s.put w p fd conn).dispatchToWorker fd conn) ∧
      Moves cfg A (s.held w fd p conn .serve)
        ((s.put w p fd conn).dispatchToWorker fd conn).view := by
  obtain ⟨hfront, howns, hbytes, hsame⟩ := carve_spec h.owns hle
  set n := conn.readBuf.scanPos with hn
  set p₁ := (carve p conn.readBuf n).1 with hp₁
  set conn₁ : Connection :=
    { conn with dispatched := true, readBuf := (carve p conn.readBuf n).2 } with hconn₁
  set w₁ := w.enqueue fd conn.id ((conn.readBuf.bytes p).take n) with hw₁
  have hstate : (s.put w p fd conn).dispatchToWorker fd conn = s.put w₁ p₁ fd conn₁ := by
    have hreq : (if conn.readBuf.scanPos = 0 then conn.readBuf.len else conn.readBuf.scanPos) = n :=
      if_neg (Nat.ne_of_gt hpos)
    simp only [State.dispatchToWorker, hreq, put_put]
    rw [show (s.put w p fd conn).pool = p from rfl, show (s.put w p fd conn).world = w from rfl,
      hfront]
  have hheld : Held s fd p₁ conn₁ :=
    { h with
      conn_fd := h.conn_fd
      owns := howns
      same := fun b hb => (hsame b hb).trans (h.same b hb) }
  have hok : ConnOk p₁ conn₁ := by
    refine ⟨?_, Nat.zero_le _, by simp [hconn₁]⟩
    simp only [hconn₁, carve, PooledBuffer.setSize, PooledBuffer.setScanPos]
    omega
  rw [hstate]
  refine ⟨hheld.put hok w₁, .one ?_⟩
  have hmove : Move cfg A _ _ := .dispatch fd (conn.abs p) n rfl (held_conns s w fd p conn .serve)
    hpos (by simpa [Connection.abs, h.owns.length_bytes] using hle) hA
  have habs : { conn.abs p with dispatched := true, buf := (conn.abs p).buf.drop n } =
      conn₁.abs p₁ := by
    simp [Connection.abs, hconn₁, hbytes]
  rw [held_setConn .serve habs] at hmove
  rw [hheld.view_put w₁ .serve]
  exact hmove

theorem checkBuffered_moves (h : Held s fd p conn) (hdisp : conn.dispatched = false)
    (hlen : conn.readBuf.len ≤ connectionMaxRequest)
    (hscan : conn.readBuf.scanPos ≤ conn.readBuf.len - 3)
    (hdrained : ∃ k, w.fds fd = some k ∧ (w.socks k).rx = []) :
    Wf ((s.put w p fd conn).checkBufferedRequest conn) ∧
      Moves cfg A (s.held w fd p conn .serve)
        ((s.put w p fd conn).checkBufferedRequest conn).view := by
  obtain ⟨k, hfd, hrx⟩ := hdrained
  have hbytes : (conn.readBuf.bytes p).length = conn.readBuf.len := h.owns.length_bytes
  have hpool : (s.put w p fd conn).pool = p := rfl
  cases hfind : Search.find terminator (conn.readBuf.bytes p) with
  | none =>
    have hsame : (s.put w p fd conn).checkBufferedRequest conn = s.put w p fd conn := by
      simp [State.checkBufferedRequest, hdisp, hpool, hfind]
    rw [hsame, h.view_put w .serve]
    exact ⟨h.put ⟨hlen, hscan, fun _ => hfind⟩ w, .one (.rest fd (conn.abs p) k rfl
      (held_conns s w fd p conn .serve) hfind hfd hrx)⟩
  | some i =>
    have hend := Search.find_add_length_le hfind
    simp only [terminator, length_cons, length_nil, hbytes] at hend
    have hfour : ¬ conn.readBuf.len < 4 := by omega
    set conn₁ : Connection := { conn with readBuf := conn.readBuf.setScanPos (i + 4) } with hconn₁
    have hsame : (s.put w p fd conn).checkBufferedRequest conn =
        (s.put w p fd conn₁).dispatchToWorker fd conn₁ := by
      have hfd₁ := h.conn_fd
      subst hfd₁
      simp only [State.checkBufferedRequest, hdisp, hfour, hpool, hfind, if_false,
        Bool.false_eq_true, State.dispatchToWorker, put_put]
      rfl
    have hheld : Held s fd p conn₁ := { h with owns := h.owns.rescan (i + 4) }
    have hview : s.held w fd p conn .serve = s.held w fd p conn₁ .serve := rfl
    rw [hsame, hview]
    refine dispatch_moves hheld (Nat.succ_pos _) hend hlen fun _ => ?_
    exact Search.isFrame_take hfind

/-! ## Closing -/

theorem close_moves (h : Held s fd p conn) (ph : Phase)
    (hclose : (s.put w p fd conn).closeConnection fd = some s')
    (hA : A.noEarlyClose = true → s'.world.Alive) {conn₀ : Connection} {p₀ : MemoryPool}
    (hid : conn₀.id = conn.id) :
    Wf s' ∧ Moves cfg A (s.held w fd p₀ conn₀ ph) s'.view := by
  obtain ⟨hwf, hview⟩ := h.close w ph hclose
  have hworld : s'.world = w.close fd conn.id := congrArg View.world hview
  refine ⟨hwf, .one ?_⟩
  have hmove : Move cfg A _ _ := .close fd (conn₀.abs p₀) (.inr ⟨ph, rfl⟩)
    (held_conns s w fd p₀ conn₀ ph) fun hearly t ht hconn => by
      have halive := hA hearly
      rw [hworld] at halive
      refine halive t ht ?_
      simp only [World.close, mem_append, mem_singleton]
      exact .inr (hconn.trans hid)
  rw [hview]
  simp only [State.held, View.setWorld, View.dropConn, View.look, update_idem,
    Connection.abs, hid] at hmove ⊢
  exact hmove

/-! ## Writing -/

theorem tryWrite_moves {ws : List World.WriteResult} {total : Nat} {res : Option Nat}
    (hwrite : tryWrite fd conn.writeOrigin conn.writeBuf w total ws = some (w', res)) :
    ∃ t, (∀ n, res = some n → n = t) ∧
      Moves cfg A (s.held w fd p { conn with writeOff := total } .write)
        (s.held w' fd p { conn with writeOff := t } .write) := by
  induction ws generalizing w total with
  | nil =>
    simp only [tryWrite] at hwrite
    split at hwrite
    · cases hwrite
    · cases hwrite
      exact ⟨total, by simp, .refl⟩
  | cons r rs ih =>
    simp only [tryWrite] at hwrite
    split at hwrite
    case isFalse =>
      cases hwrite
      exact ⟨total, by simp, .refl⟩
    case isTrue =>
      obtain ⟨w₁, hsys, hrest⟩ := bind_eq_some_iff.mp hwrite
      cases r with
      | wrote n =>
        obtain ⟨t, hres, hmoves⟩ := ih hrest
        refine ⟨t, hres, .trans (.one ?_) hmoves⟩
        have hview : ((s.held w fd p { conn with writeOff := total } .write).setWorld w₁).setConn fd
            { conn.abs p with writeOff := total + n } =
              s.held w₁ fd p { conn with writeOff := total + n } .write :=
          held_setConn .write rfl
        rw [← hview]
        exact .emit fd (Connection.abs p { conn with writeOff := total }) n rfl
          (held_conns s w fd p _ .write) hsys
      | eagain =>
        cases hrest
        obtain rfl := World.sysWrite_other (by simp) hsys
        exact ⟨total, by simp, .refl⟩
      | eintr =>
        obtain rfl := World.sysWrite_other (by simp) hsys
        exact ih hrest
      | error =>
        cases hrest
        obtain rfl := World.sysWrite_other (by simp) hsys
        exact ⟨total, by simp, .refl⟩

theorem Held.setWorld (h : Held s fd p conn) (w : World) : Held { s with world := w } fd p conn :=
  { h with }

theorem turnaround_moves (h : Held s fd p conn) (hdisp : conn.dispatched = false)
    (hlen : conn.readBuf.len ≤ connectionMaxRequest)
    (hscan : conn.readBuf.scanPos ≤ conn.readBuf.len - 3) {rs : List World.ReadResult}
    {e : ReadEnd}
    (hend : (match e with
      | .close => (s.put w' p' fd conn').closeConnection fd
      | .drained _ => some ((s.put w' p' fd conn').checkBufferedRequest conn')) = some s')
    (hdrain : drainIntoBuffer G w p conn rs = some (w', p', conn', e))
    (hA : A.noEarlyClose = true → s'.world.Alive) :
    Wf s' ∧ Moves cfg A (s.held w fd p conn .serve) s'.view := by
  have hbytes : (conn.readBuf.bytes p).length = conn.readBuf.len := h.owns.length_bytes
  rw [drainIntoBuffer, h.conn_fd] at hdrain
  have hscans : Scans fun _ _ _ conn => (conn, false) :=
    fun _ _ _ c => ⟨c.readBuf.scanPos, c.lastActive, rfl⟩
  have hloop : LoopEnd cfg A s fd _ w p conn w' p' conn' e :=
    readLoop_moves hscans drain_inv h hlen (by rwa [hbytes]) hdrain
  cases e with
  | close =>
    obtain ⟨hwf, hmoves⟩ := close_moves hloop.held .serve hend hA rfl
    exact ⟨hwf, hloop.moves.trans hmoves⟩
  | drained g =>
    cases hend
    obtain ⟨hlen', hdrained, _, hscan'⟩ := hloop.drained g rfl
    rw [hloop.held.owns.length_bytes] at hscan'
    have hdisp' : conn'.dispatched = false := (congrArg Conn.dispatched hloop.abs).trans hdisp
    obtain ⟨hwf, hmoves⟩ := checkBuffered_moves hloop.held hdisp' hlen' hscan' hdrained
    exact ⟨hwf, hloop.moves.trans hmoves⟩

variable {io : Io} {fds : List Fd} {a : Act} {as : List Act}

theorem settleWrite_moves (h : Held s fd s.pool conn) (hok : ConnOk s.pool conn)
    (hset : s.settleWrite G conn io = some s') (hpoll : A.polled = true → io.modOk = true)
    (hA : A.noEarlyClose = true → s'.world.Alive) :
    Wf s' ∧ Moves cfg A (s.held s.world fd s.pool conn .write) s'.view := by
  have hfd := h.conn_fd
  unfold State.settleWrite at hset
  split at hset
  case isTrue hdone =>
    unfold State.finishResponse at hset
    split at hset
    case isTrue hkeep =>
      simp only [hfd] at hset
      obtain ⟨⟨w', p', conn', e⟩, hdrain, hend⟩ := bind_eq_some_iff.mp hset
      set conn₁ : Connection :=
        { conn with
          fd := fd, writing := false, writeBuf := [], writeOff := 0, dispatched := false
          lastActive := s.world.clock } with hconn₁
      have hheld : Held s fd s.pool conn₁ := { h with conn_fd := rfl }
      obtain ⟨hwf, hmoves⟩ := turnaround_moves hheld rfl hok.len_le hok.scan_le hend hdrain hA
      refine ⟨hwf, .trans (.one ?_) hmoves⟩
      rw [← held_turn .write .serve (show _ = conn₁.abs s.pool from rfl)]
      exact .turn fd (conn.abs s.pool) io.modOk rfl (held_conns s _ fd s.pool conn .write) hdone
        hkeep hpoll
    case isFalse hclose =>
      simp only [hfd] at hset
      have hheld : Held s fd s.pool
          { conn with fd := fd, writing := false, writeBuf := [], writeOff := 0 } :=
        { h with conn_fd := rfl }
      exact close_moves hheld .write hset hA rfl
  case isFalse hmore =>
    simp only [hfd] at hset
    cases hset
    set conn₁ : Connection := { conn with fd := fd, writing := true } with hconn₁
    have hheld : Held s fd s.pool conn₁ := { h with conn_fd := rfl }
    refine ⟨hheld.put ⟨hok.len_le, hok.scan_le, hok.incomplete⟩ _, .one ?_⟩
    rw [hheld.view_put _ .write, ← held_setConn .write (show _ = conn₁.abs s.pool from rfl)]
    exact .park fd (conn.abs s.pool) io.modOk rfl (held_conns s _ fd s.pool conn .write)
      (Nat.lt_of_not_le hmore) hpoll

theorem continueWrite_moves (h : Held s fd s.pool conn) (hok : ConnOk s.pool conn)
    (hcont : s.continueWrite G conn io = some s') (hpoll : A.polled = true → io.modOk = true)
    (hA : A.noEarlyClose = true → s'.world.Alive) :
    Wf s' ∧ Moves cfg A (s.held s.world fd s.pool conn .write) s'.view := by
  have hfd := h.conn_fd
  unfold State.continueWrite at hcont
  split at hcont
  case isFalse => exact settleWrite_moves h hok hcont hpoll hA
  case isTrue =>
    obtain ⟨⟨w', wrote⟩, hwrite, hrest⟩ := bind_eq_some_iff.mp hcont
    rw [hfd] at hwrite
    obtain ⟨t, ht, hmoves⟩ : ∃ t, (∀ n, wrote = some n → n = t) ∧
        Moves cfg A (s.held s.world fd s.pool conn .write)
          (s.held w' fd s.pool { conn with writeOff := t } .write) := tryWrite_moves hwrite
    cases wrote with
    | none =>
      simp only [hfd] at hrest
      have hheld : Held s fd s.pool { conn with fd := fd, writing := false } :=
        { h with conn_fd := rfl }
      obtain ⟨hwf, hclose⟩ : Wf s' ∧
          Moves cfg A (s.held w' fd s.pool { conn with writeOff := t } .write) s'.view :=
        close_moves hheld .write hrest hA rfl
      exact ⟨hwf, hmoves.trans hclose⟩
    | some n =>
      obtain rfl := ht n rfl
      set conn₁ : Connection := { conn with lastActive := w'.clock, writeOff := n } with hconn₁
      have hheld : Held { s with world := w' } fd s.pool conn₁ :=
        { h.setWorld w' with conn_fd := hfd, owns := h.owns }
      obtain ⟨hwf, hsettle⟩ : Wf s' ∧ Moves cfg A (s.held w' fd s.pool conn₁ .write) s'.view :=
        settleWrite_moves hheld ⟨hok.len_le, hok.scan_le, hok.incomplete⟩ hrest hpoll hA
      exact ⟨hwf, hmoves.trans hsettle⟩

/-! ## The handlers of the loop -/

theorem Wf.setWorld (h : Wf s) (w : World) : Wf { s with world := w } := { h with }

theorem onClientEvent_moves (hwf : Wf s) {e : PollEvent} {evs : List PollEvent}
    (hpc : s.world.pc = .batch (e :: evs))
    (hev : (s.setPc (.batch evs)).onClientEvent G e.fd e.mask io = some s')
    (hpoll : A.polled = true → io.modOk = true) (hclean : A.clean = true → ∀ conn ∈ s.reading,
      StopsAtTerminator (conn.readBuf.bytes s.pool) io.reads)
    (hA : A.noEarlyClose = true → s'.world.Alive) : Wf s' ∧ Moves cfg A s.view s'.view := by
  set s₁ := s.setPc (.batch evs) with hs₁
  have hwf₁ : Wf s₁ := hwf.setWorld _
  have hconns (c : Conn) (hc : s.view.conns e.fd = some c) :
      ∃ conn, s₁.find e.fd = some conn ∧ conn.abs s₁.pool = c := map_eq_some_iff.mp hc
  -- doing nothing about the event
  have hskip (hig : s.view.Ignores e) : Wf s₁ ∧ Moves cfg A s.view s₁.view :=
    ⟨hwf₁, .one (.skip e evs rfl hpc hig)⟩
  -- turning to the connection
  have htake (conn : Connection) (ph : Phase) (hfind : s₁.find e.fd = some conn)
      (hph : View.Phase.admits (conn.abs s.pool) ph) :
      Moves cfg A s.view (s₁.held s₁.world e.fd s₁.pool conn ph) := by
    rw [held_self hfind ph]
    exact .one (.take e evs (conn.abs s.pool) ph rfl hpc (map_eq_some_iff.mpr
      ⟨conn, hfind, rfl⟩) hph)
  unfold State.onClientEvent at hev
  split at hev
  case isTrue hclosed =>
    cases hfind : s₁.find e.fd with
    | none =>
      simp only [State.closeConnection, hfind, Option.some.injEq] at hev
      subst hev
      refine hskip fun c hc => ?_
      obtain ⟨conn, hconn, -⟩ := hconns c hc
      simp [hfind] at hconn
    | some conn =>
      rw [← hwf₁.put_self hfind] at hev
      obtain ⟨hwf', hmoves⟩ := close_moves (hwf₁.hold hfind) .shut hev hA rfl
      exact ⟨hwf', (htake conn .shut hfind trivial).trans hmoves⟩
  case isFalse hopen =>
  have hopen : e.mask.closed = false := by simpa using hopen
  split at hev
  case isTrue hwritable =>
    have hignore : Wf s₁ ∧ Moves cfg A s.view s₁.view :=
      hskip fun c _ => ⟨hopen, .inr (.inl hwritable)⟩
    cases hfind : s₁.find e.fd with
    | none =>
      simp only [hfind, Option.some.injEq] at hev
      exact hev ▸ hignore
    | some conn =>
      simp only [hfind] at hev
      split at hev
      case isTrue hwriting =>
        obtain ⟨hwf', hmoves⟩ := continueWrite_moves (hwf₁.hold hfind)
          (hwf₁.conns _ ((lookup_eq_some_iff (keys_nodup hwf₁.sorted)).mp hfind)) hev hpoll hA
        exact ⟨hwf', (htake conn .write hfind hwriting).trans hmoves⟩
      case isFalse =>
        simp only [Option.some.injEq] at hev
        exact hev ▸ hignore
  case isFalse hunwritable =>
  split at hev
  case isTrue hsilent =>
    simp only [Option.some.injEq] at hev
    exact hev ▸ hskip fun c _ => ⟨hopen, .inl hsilent⟩
  case isFalse hloud =>
  cases hfind : s₁.find e.fd with
  | none =>
    simp only [hfind, Option.some.injEq] at hev
    subst hev
    refine hskip fun c hc => ?_
    obtain ⟨conn, hconn, -⟩ := hconns c hc
    simp [hfind] at hconn
  | some conn =>
    simp only [hfind] at hev
    split at hev
    case isTrue hdisp =>
      simp only [Option.some.injEq] at hev
      subst hev
      refine hskip fun c hc => ⟨hopen, .inr (.inr ?_)⟩
      obtain ⟨conn', hconn, rfl⟩ := hconns c hc
      obtain rfl : conn = conn' := by simpa [hfind] using hconn
      exact hdisp
    case isFalse hdisp =>
      have hdisp : conn.dispatched = false := by simpa using hdisp
      have hheld := hwf₁.hold hfind
      have hok := hwf₁.conns _ ((lookup_eq_some_iff (keys_nodup hwf₁.sorted)).mp hfind)
      obtain ⟨⟨w', p', conn', en⟩, hread, hend⟩ := bind_eq_some_iff.mp hev
      have hreading : conn ∈ s.reading := by
        have hfind' : s.find e.fd = some conn := hfind
        simp only [Bool.not_eq_true, Bool.not_eq_false] at hunwritable hloud
        simp [State.reading, hpc, hopen, hunwritable, hloud, hfind', hdisp]
      have hinv : ScanInv A (conn.readBuf.bytes s₁.pool) conn.readBuf.scanPos false io.reads :=
        ⟨fun _ => ⟨hok.incomplete hdisp, by rw [hheld.owns.length_bytes]; exact hok.scan_le⟩,
          by simp, fun hc => hclean hc conn hreading, by simp⟩
      have hloop : LoopEnd cfg A s₁ e.fd _ s₁.world s₁.pool conn w' p' conn' en :=
        readLoop_moves scans_scanData (scanData_inv A) hheld hok.len_le hinv hread
      have hbytes := hloop.held.owns.length_bytes
      have hstart := htake conn .serve hfind hdisp
      cases en with
      | close =>
        obtain ⟨hwf', hmoves⟩ := close_moves hloop.held .serve hend hA rfl
        exact ⟨hwf', (hstart.trans hloop.moves).trans hmoves⟩
      | drained got =>
        obtain ⟨hlen', hdrained, rs, hscan⟩ := hloop.drained got rfl
        cases got with
        | true =>
          simp only [Option.some.injEq] at hend
          subst hend
          obtain ⟨hpos, hle, -⟩ := hscan.found rfl
          rw [hbytes] at hle
          obtain ⟨hwf', hmoves⟩ := dispatch_moves hloop.held hpos hle hlen' fun hc => by
            obtain ⟨i, hi, hpos⟩ := hscan.first hc rfl
            rw [hpos]
            exact Search.isFrame_take hi
          exact ⟨hwf', (hstart.trans hloop.moves).trans hmoves⟩
        | false =>
          simp only [Option.some.injEq] at hend
          subst hend
          obtain ⟨hnone, hpos⟩ := hscan.searching rfl
          rw [hbytes] at hpos
          obtain ⟨k, hfd, hrx⟩ := hdrained
          refine ⟨hloop.held.put ⟨hlen', hpos, fun _ => hnone⟩ w',
            (hstart.trans hloop.moves).trans (.one ?_)⟩
          rw [hloop.held.view_put w' .serve]
          exact .rest e.fd (conn'.abs p') k rfl (held_conns _ _ _ _ _ _) hnone hfd hrx

theorem drainHandback_moves (hwf : Wf s) {hb : WorkerHandback} {rest : List WorkerHandback}
    (hout : s.world.outbox = hb :: rest)
    (hdrain : State.drainHandback G { s with world := { s.world with outbox := rest } } hb io =
      some s') (hpoll : A.polled = true → io.modOk = true)
    (hA : A.noEarlyClose = true → s'.world.Alive) : Wf s' ∧ Moves cfg A s.view s'.view := by
  set s₁ : State := { s with world := { s.world with outbox := rest } } with hs₁
  have hwf₁ : Wf s₁ := hwf.setWorld _
  unfold State.drainHandback at hdrain
  cases hfind : s₁.find hb.fd with
  | none =>
    simp only [hfind, Option.some.injEq] at hdrain
    subst hdrain
    exact ⟨hwf₁, .one (.discard hb rest rfl hout (map_eq_none_iff.mpr hfind))⟩
  | some conn =>
    have hconn : s.view.conns hb.fd = some (conn.abs s.pool) :=
      map_eq_some_iff.mpr ⟨conn, hfind, rfl⟩
    have hheld := hwf₁.hold hfind
    simp only [hfind] at hdrain
    split at hdrain
    case isTrue =>
      rw [← hwf₁.put_self hfind] at hdrain
      obtain ⟨hwf', hmoves⟩ := close_moves hheld .shut hdrain hA rfl
      refine ⟨hwf', .trans (.one ?_) hmoves⟩
      rw [held_self hfind .shut]
      exact .deny hb rest (conn.abs s.pool) rfl hout hconn
    case isFalse =>
      have hok := hwf₁.conns _ ((lookup_eq_some_iff (keys_nodup hwf₁.sorted)).mp hfind)
      unfold State.beginWrite at hdrain
      set conn₁ : Connection :=
        { conn with
          writeBuf := hb.response, writeOff := 0, keepAliveAfterWrite := hb.keepAlive
          writeOrigin := hb.origin } with hconn₁
      have hheld₁ : Held s₁ hb.fd s₁.pool conn₁ := { hheld with }
      obtain ⟨hwf', hmoves⟩ := continueWrite_moves hheld₁
        ⟨hok.len_le, hok.scan_le, hok.incomplete⟩ hdrain hpoll hA
      exact ⟨hwf', .trans (.one (.answer hb rest (conn.abs s.pool) rfl hout hconn)) hmoves⟩

/-! ## Sweeping -/

theorem closeConnection_alive (hclose : s.closeConnection fd = some s') (h : s'.world.Alive) :
    s.world.Alive := by
  unfold State.closeConnection at hclose
  split at hclose
  · cases hclose
    exact h
  · simp only [State.eraseConn, map_eq_some_iff] at hclose
    obtain ⟨r, -, rfl⟩ := hclose
    exact fun t ht hmem => h t ht (mem_append_left _ hmem)

theorem closeAll_alive (hclose : s.closeAll fds = some s') (h : s'.world.Alive) :
    s.world.Alive := by
  induction fds generalizing s with
  | nil => cases hclose; exact h
  | cons fd fds ih =>
    obtain ⟨s₁, hone, hrest⟩ := bind_eq_some_iff.mp hclose
    exact closeConnection_alive hone (ih hrest)

theorem closeConnection_moves (hwf : Wf s) (hclose : s.closeConnection fd = some s')
    (hA : A.noEarlyClose = true → s'.world.Alive) : Wf s' ∧ Moves cfg A s.view s'.view := by
  cases hfind : s.find fd with
  | none =>
    simp only [State.closeConnection, hfind, Option.some.injEq] at hclose
    exact hclose ▸ ⟨hwf, .refl⟩
  | some conn =>
    have hheld := hwf.hold hfind
    rw [← hwf.put_self hfind] at hclose
    obtain ⟨hwf', hview⟩ := hheld.close s.world .shut hclose
    have hworld : s'.world = s.world.close fd conn.id := congrArg View.world hview
    refine ⟨hwf', .one ?_⟩
    rw [hview, held_self hfind .shut]
    refine .close fd (conn.abs s.pool) (.inl rfl) (map_eq_some_iff.mpr ⟨conn, hfind, rfl⟩)
      fun hearly t ht hconn => ?_
    have halive := hA hearly
    rw [hworld] at halive
    refine halive t ht ?_
    simp only [World.close, mem_append, mem_singleton]
    exact .inr hconn

theorem closeAll_moves (hwf : Wf s) (hclose : s.closeAll fds = some s')
    (hA : A.noEarlyClose = true → s'.world.Alive) : Wf s' ∧ Moves cfg A s.view s'.view := by
  induction fds generalizing s with
  | nil => cases hclose; exact ⟨hwf, .refl⟩
  | cons fd fds ih =>
    obtain ⟨s₁, hone, hrest⟩ := bind_eq_some_iff.mp hclose
    obtain ⟨hwf₁, hmoves₁⟩ : Wf s₁ ∧ Moves cfg A s.view s₁.view :=
      closeConnection_moves hwf hone fun h => closeAll_alive hrest (hA h)
    obtain ⟨hwf₂, hmoves₂⟩ := ih hwf₁ hrest
    exact ⟨hwf₂, hmoves₁.trans hmoves₂⟩

theorem closeAll_pc (hclose : s.closeAll fds = some s') : s'.world.pc = s.world.pc := by
  induction fds generalizing s with
  | nil => cases hclose; rfl
  | cons fd fds ih =>
    obtain ⟨s₁, hone, hrest⟩ := bind_eq_some_iff.mp hclose
    rw [ih hrest]
    unfold State.closeConnection at hone
    split at hone
    · cases hone
      rfl
    · simp only [State.eraseConn, map_eq_some_iff] at hone
      obtain ⟨r, -, rfl⟩ := hone
      rfl

theorem sweep_moves (hwf : Wf s) (hsweep : s.sweepIdleConnections cfg = some s')
    (hpc : s.world.pc = .sweeping)
    (hA : A.noEarlyClose = true → ((s'.sweepIpRate cfg).setPc .wait).world.Alive) :
    Wf ((s'.sweepIpRate cfg).setPc .wait) ∧
      Moves cfg A s.view ((s'.sweepIpRate cfg).setPc .wait).view := by
  have hworld : (s'.sweepIpRate cfg).world = s'.world := by
    unfold State.sweepIpRate
    split
    · rfl
    · split <;> rfl
  have halive : A.noEarlyClose = true → s'.world.Alive := fun h => by
    have := hA h
    simp only [State.setPc, hworld] at this
    exact this
  obtain ⟨hwf', hmoves, hpc⟩ : Wf s' ∧ Moves cfg A s.view s'.view ∧
      s'.world.pc = .sweeping := by
    unfold State.sweepIdleConnections at hsweep
    split at hsweep
    · cases hsweep
      exact ⟨hwf, .refl, hpc⟩
    · obtain ⟨hwf', hmoves⟩ := closeAll_moves hwf hsweep halive
      exact ⟨hwf', hmoves, (closeAll_pc hsweep).trans hpc⟩
  have hgoto : Move cfg A s'.view (s'.view.setPc .wait) :=
    .goto .wait rfl (by simp) (.inl (by simp [State.view, hpc, Loop.events]))
  have hview : ((s'.sweepIpRate cfg).setPc .wait).view = s'.view.setPc .wait := by
    unfold State.sweepIpRate
    split
    · rfl
    · split <;> rfl
  refine ⟨?_, hview ▸ hmoves.trans (.one hgoto)⟩
  unfold State.sweepIpRate
  split
  · exact { hwf' with }
  · split <;> exact { hwf' with }

/-! ## Accepting -/

theorem ipGate_same (cfg : Config) (s : State) (ip : UInt32) (now : Nat) :
    ∃ bl win, (s.ipGate cfg ip now).1 = { s with ipBlacklist := bl, ipConnectWindows := win } := by
  unfold State.ipGate
  split
  · split
    · exact ⟨s.ipBlacklist, s.ipConnectWindows, rfl⟩
    · obtain ⟨win, hwin⟩ : ∃ win, (s.ipRateExceeded cfg ip now).1 =
          { s with ipConnectWindows := win } := ⟨_, rfl⟩
      by_cases hex : (s.ipRateExceeded cfg ip now).2 = true
      · exact ⟨_, win, by simp only [hex, if_true, hwin]; rfl⟩
      · exact ⟨s.ipBlacklist, win, by simp only [hex, if_false, hwin, Bool.false_eq_true]⟩
  · exact ⟨s.ipBlacklist, s.ipConnectWindows, rfl⟩

theorem eraseConn_view (hwf : Wf s) (hfind : s.find fd = some conn)
    (herase : s.eraseConn fd = some s') : Wf s' ∧ s'.view = s.view.dropConn fd := by
  rw [← hwf.put_self hfind] at herase
  obtain ⟨hwf', hview⟩ := (hwf.hold hfind).erase s.world .shut herase
  rw [held_self hfind] at hview
  exact ⟨hwf', hview⟩

theorem register_moves (hwf : Wf s) {v : View} {ip : UInt32} {now : Nat} {addOk : Bool}
    (hreg : s.register cfg fd ip v.world.accepted now addOk = some s')
    (hview : s.view = v.setWorld (v.world.opened fd)) (hfocus : v.focus = none)
    (hfd : v.world.fds fd = none) (hlisten : fd ≠ cfg.listenFd)
    (hfresh : A.fresh = true → v.world.Quiet fd) (hpoll : A.polled = true → addOk = true)
    (hpc : v.world.pc ≠ .stopped) : Wf s' ∧ Moves cfg A v s'.view := by
  have hworld : s.world = v.world.opened fd := congrArg View.world hview
  have hconns : s.view.conns = v.conns := by rw [hview]; rfl
  have hset (w : World) : s.view.setWorld w = v.setWorld w := by rw [hview]; rfl
  obtain ⟨⟨p₁, buf⟩, hmake, hreg₁⟩ := bind_eq_some_iff.mp hreg
  obtain ⟨howns, hlen, hscan, hsame⟩ := hwf.owns.make (by decide) (by decide) hmake
  have hassign : PooledBuffer.moveAssign p₁ PooledBuffer.movedFrom buf =
      some (p₁, buf, PooledBuffer.movedFrom) := rfl
  simp only [hassign, bind_some] at hreg₁
  obtain ⟨⟨p₂, l⟩, hemp, hadded⟩ := bind_eq_some_iff.mp hreg₁
  set conn : Connection :=
    { fd := fd, readBuf := buf, lastActive := now, clientIp := ip,
      id := v.world.accepted } with hconn
  have hbytes : buf.bytes p₁ = [] := by
    rw [← length_eq_zero_iff, howns.length_bytes, hlen]
  have habs : conn.abs p₁ = { id := v.world.accepted } := by simp [Connection.abs, hconn, hbytes]
  cases hfind : s.find fd with
  | none =>
    have hnone : v.conns fd = none := by rw [← hconns]; simp [State.view, hfind]
    have hok : ConnOk p₁ conn := by
      refine ⟨?_, ?_, fun _ => ?_⟩
      · simp [hconn, hlen]
      · simp [hconn, hscan]
      · simp only [hconn, hbytes]
        rfl
    have hput := hwf.emplace hfind howns hsame rfl hok hemp
    split at hadded
    case isTrue =>
      cases hadded
      obtain ⟨hwf', hview'⟩ := hput (s.world.arm fd .Readable true)
      refine ⟨hwf', .one ?_⟩
      rw [hview', hset, habs, hworld]
      exact .enroll fd hfd hlisten hfocus hnone hfresh hpc
    case isFalse hadd =>
      obtain ⟨hwf', hview'⟩ := hput (s.world.close fd v.world.accepted)
      have hfind' : State.find { s with
          world := s.world.close fd v.world.accepted, pool := p₂, connections := l } fd =
          some conn := by
        have habsent : fd ∉ keys s.connections := lookup_eq_none_iff.mp hfind
        obtain ⟨-, hperm, hsorted⟩ := emplace_absent hwf.sorted habsent hemp
        exact (lookup_eq_some_iff (keys_nodup hsorted)).mpr (hperm.mem_iff.mpr (by simp))
      obtain ⟨hwf'', hview''⟩ := eraseConn_view hwf' hfind' hadded
      refine ⟨hwf'', .one ?_⟩
      have hdrop : ((v.setWorld ((v.world.opened fd).close fd v.world.accepted)).setConn fd
          { id := v.world.accepted }).dropConn fd =
            (v.setWorld ((v.world.opened fd).close fd v.world.accepted)).dropConn fd := by
        simp [View.setConn, View.dropConn]
      rw [hview'', hview', hset, habs, hworld, hdrop]
      exact .misfit fd hfd hfocus (by
        cases hA : A.polled with
        | false => rfl
        | true => exact absurd (hpoll hA) hadd)
  | some c =>
    have hmem : fd ∈ keys s.connections :=
      mem_map_of_mem ((lookup_eq_some_iff (keys_nodup hwf.sorted)).mp hfind)
    have hsome : v.conns fd = some (c.abs s.pool) := by
      rw [← hconns]; simp [State.view, hfind]
    obtain ⟨hdes, rfl⟩ := emplace_present hwf.sorted hmem hemp
    obtain ⟨howns', hsame'⟩ := howns.destroy hdes
    have hput := hwf.repool howns' fun b hb => (hsame' b hb).trans (hsame b hb)
    split at hadded
    case isTrue =>
      cases hadded
      obtain ⟨hwf', hview'⟩ := hput (s.world.arm fd .Readable true)
      refine ⟨hwf', .one ?_⟩
      rw [hview', hset, hworld]
      exact .clash fd _ hfd hlisten hfocus hsome hfresh
    case isFalse hadd =>
      obtain ⟨hwf', hview'⟩ := hput (s.world.close fd v.world.accepted)
      have hfind' : State.find { s with
          world := s.world.close fd v.world.accepted, pool := p₂ } fd = some c := hfind
      obtain ⟨hwf'', hview''⟩ := eraseConn_view hwf' hfind' hadded
      refine ⟨hwf'', .one ?_⟩
      rw [hview'', hview', hset, hworld]
      exact .misfit fd hfd hfocus (by
        cases hA : A.polled with
        | false => rfl
        | true => exact absurd (hpoll hA) hadd)

theorem acceptRound_moves (hwf : Wf s) {now accepted : Nat} {evs : List PollEvent}
    {r : AcceptResult} (hpc : s.world.pc = .accepting now accepted evs)
    (hacc : s.acceptRound cfg now accepted evs r = some s')
    (hfresh : A.fresh = true → ∀ fd ip ok, r = .conn fd ip ok → s.world.Quiet fd)
    (hpoll : A.polled = true → ∀ fd ip ok, r = .conn fd ip ok → ok = true) :
    Wf s' ∧ Moves cfg A s.view s'.view := by
  have hgoto (pc : Loop) (hgo : pc ≠ .stopped) (hevs : pc.events = evs) :
      Move cfg A s.view (s.view.setPc pc) :=
    .goto pc rfl hgo (.inl (by rw [hevs]; simp [State.view, hpc, Loop.events]))
  unfold State.acceptRound at hacc
  split at hacc
  · cases hacc
  cases r with
  | eagain =>
    simp only at hacc
    split at hacc
    · cases hacc
      exact ⟨hwf.setWorld _, .one (hgoto _ (by simp) rfl)⟩
    · cases hacc
  | eintr => cases hacc; exact ⟨hwf.setWorld _, .one (hgoto _ (by simp) rfl)⟩
  | error => cases hacc; exact ⟨hwf.setWorld _, .one (hgoto _ (by simp) rfl)⟩
  | conn fd ip addOk =>
    simp only at hacc
    split at hacc
    case isFalse => cases hacc
    case isTrue hguard =>
      obtain ⟨-, hfd, hlisten⟩ := hguard
      set pc : Loop := .accepting now (accepted + 1) evs with hpc'
      set s₁ : State := State.setPc { s with world := s.world.opened fd } pc with hs₁
      obtain ⟨bl, win, hgate⟩ := ipGate_same cfg s₁ ip now
      have hwf₁ : Wf (s₁.ipGate cfg ip now).1 := by rw [hgate]; exact { hwf with }
      have hview : (s₁.ipGate cfg ip now).1.view =
          (s.view.setPc pc).setWorld ((s.view.setPc pc).world.opened fd) := by rw [hgate]; rfl
      have hstart : Moves cfg A s.view (s.view.setPc pc) := .one (hgoto pc (by simp [hpc']) rfl)
      split at hacc
      case isTrue =>
        cases hacc
        refine ⟨hwf₁.setWorld _, hstart.trans (.one ?_)⟩
        rw [hgate]
        exact .refuse fd hfd rfl
      case isFalse =>
        obtain ⟨hwf', hmoves⟩ := register_moves hwf₁ hacc hview rfl hfd hlisten
          (fun h => hfresh h fd ip addOk rfl) (fun h => hpoll h fd ip addOk rfl) (by simp [hpc'])
        exact ⟨hwf', hstart.trans hmoves⟩

/-! ## Stopping -/

theorem destroyAll_owns {l : List (Fd × Connection)} (h : PooledBuffer.Owns p (buffers l))
    (hdes : destroyAll p l = some p') : PooledBuffer.Owns p' [] := by
  induction l generalizing p with
  | nil => cases hdes; exact h
  | cons entry rest ih =>
    obtain ⟨p₁, hone, hrest⟩ := bind_eq_some_iff.mp hdes
    exact ih (h.destroy hone).1 hrest

def closeEntries (w : World) (l : List (Fd × Connection)) : World :=
  l.foldl (fun w entry => w.close entry.1 entry.2.id) w

theorem closeEntries_spec (w : World) (l : List (Fd × Connection)) :
    (closeEntries w l).tokens = w.tokens ∧ ∀ c ∈ w.closes, c ∈ (closeEntries w l).closes := by
  induction l generalizing w with
  | nil => exact ⟨rfl, fun _ h => h⟩
  | cons entry rest ih =>
    obtain ⟨htok, hcl⟩ := ih (w.close entry.1 entry.2.id)
    exact ⟨htok, fun c hc => hcl c (mem_append_left _ hc)⟩

theorem closeEntries_moves {l : List (Fd × Connection)} {v : View} (hnodup : (keys l).Nodup)
    (hconns : ∀ fd, v.conns fd = (l.lookup fd).map fun c => c.abs p) (hfocus : v.focus = none)
    (hA : A.noEarlyClose = true → (closeEntries v.world l).Alive) :
    Moves cfg A v ⟨closeEntries v.world l, fun _ => none, none⟩ := by
  induction l generalizing v with
  | nil =>
    have hv : v = ⟨v.world, fun _ => none, none⟩ := by
      cases v
      simp only [View.mk.injEq, true_and] at hfocus ⊢
      exact ⟨funext hconns, hfocus⟩
    rw [hv]
    exact .refl
  | cons entry rest ih =>
    obtain ⟨fd, conn⟩ := entry
    have hhead : v.conns fd = some (conn.abs p) := by simp [hconns, List.lookup]
    have hclose : Move cfg A v _ :=
        .close fd (conn.abs p) (.inl hfocus) hhead fun hearly t ht heq => by
      obtain ⟨htok, hcl⟩ := closeEntries_spec (v.world.close fd conn.id) rest
      have halive : (closeEntries (v.world.close fd conn.id) rest).Alive := hA hearly
      refine halive t (by rw [htok]; exact ht) (hcl _ ?_)
      simp only [World.close, mem_append, mem_singleton]
      exact .inr heq
    refine .trans (.one hclose) (ih (nodup_cons.mp hnodup).2 (fun g => ?_) rfl hA)
    by_cases hg : g = fd
    · subst hg
      have hnone : rest.lookup g = none := lookup_eq_none_iff.mpr (nodup_cons.mp hnodup).1
      simp [View.dropConn, View.look, hnone]
    · have hne : (g == fd) = false := by simpa using hg
      simp [View.dropConn, View.look, View.setWorld, update_of_ne hg, hconns, List.lookup,
        hne]

theorem closeEntries_stopped (w : World) (l : List (Fd × Connection)) :
    closeEntries { w with outboxStopped := true, pc := .stopped } l =
      { closeEntries w l with outboxStopped := true, pc := .stopped } := by
  induction l generalizing w with
  | nil => rfl
  | cons entry rest ih => exact ih (w.close entry.1 entry.2.id)

theorem closeEntries_pc (w : World) (l : List (Fd × Connection)) :
    (closeEntries w l).pc = w.pc := by
  induction l generalizing w with
  | nil => rfl
  | cons entry rest ih => exact ih (w.close entry.1 entry.2.id)

theorem finishStop_moves (hwf : Wf s) (hpc : s.world.pc = .exited)
    (hstop : s.finishStop = some s') (hA : A.noEarlyClose = true → s'.world.Alive) :
    Wf s' ∧ Moves cfg A s.view s'.view := by
  obtain ⟨p', hdes, rfl⟩ := map_eq_some_iff.mp hstop
  refine ⟨⟨by simp [keys], by simp, destroyAll_owns hwf.owns hdes, by simp⟩, ?_⟩
  have hworld := closeEntries_stopped s.world s.connections
  have halive : A.noEarlyClose = true → (closeEntries s.world s.connections).Alive := fun h => by
    have := hA h
    change (closeEntries _ s.connections).Alive at this
    rwa [hworld] at this
  refine .trans (closeEntries_moves (keys_nodup hwf.sorted) (fun _ => rfl) rfl halive) (.one ?_)
  change Move cfg A ⟨closeEntries s.world s.connections, fun _ => none, none⟩
    ⟨closeEntries { s.world with outboxStopped := true, pc := .stopped } s.connections,
      fun _ => none, none⟩
  rw [hworld]
  exact .stopOutbox rfl ((closeEntries_pc _ _).trans hpc) fun _ => rfl

/-! ## The worker threads -/

theorem start_moves {n : Nat} (h : s.world.start n = some w) :
    Moves cfg A s.view (s.view.setWorld w) := by
  unfold World.start at h
  split at h
  · rename_i job rest hq
    split at h
    · cases h
      exact .one (.start job rest hq)
    · cases h
  · cases h

theorem finish_moves {i : Nat} {o : World.HandlerOutcome}
    (h : s.world.finish cfg.outboxSlots i o = some w)
    (hroom : A.noReject = true → o.result ≠ none → s.world.outboxRoom cfg.outboxSlots = true)
    (hend : A.noDie = true → o ≠ .throwsOther) :
    Moves cfg A s.view (s.view.setWorld w) := by
  unfold World.finish at h
  split at h
  case h_1 job hi =>
    cases ho : o.result with
    | none =>
      simp only [ho, Option.some.injEq] at h
      subst h
      refine .one (.die i job hi ?_)
      cases hA : A.noDie with
      | false => rfl
      | true =>
        cases o with
        | throwsOther => exact absurd rfl (hend hA)
        | returns r => cases ho
        | throwsStd => cases ho
    | some r =>
      simp only [ho] at h
      split at h
      case isTrue =>
        cases h
        exact .one (.handback i job r hi)
      case isFalse hfull =>
        cases h
        refine .one (.reject i job r hi ?_)
        cases hA : A.noReject with
        | false => rfl
        | true => exact absurd (hroom hA (by simp [ho])) hfull
  case h_2 => cases h

theorem closeRejected_moves {i : Nat} (h : s.world.closeRejected i = some w)
    (hA : A.noEarlyClose = false) : Moves cfg A s.view (s.view.setWorld w) := by
  unfold World.closeRejected at h
  split at h
  · rename_i job hi
    cases h
    exact .one (.closeRejected i job hi rfl hA)
  · cases h

/-! ## Assumptions on a run -/

/-- `accept` returns no descriptor number for which a task, a busy worker or a handback of an
earlier connection is still on its way. -/
def AcceptsQuiet (s : State) : Act → Prop
  | .accept (.conn fd _ _) => s.world.Quiet fd
  | _ => True

/-- The outbox has room when a worker pushes its handback. -/
def PushesFit (cfg : Config) (s : State) : Act → Prop
  | .finish _ o => o.result ≠ none → s.world.outboxRoom cfg.outboxSlots = true
  | _ => True

/-- A handler throws nothing but `std::exception`s. -/
def HandlersEnd (_ : State) : Act → Prop
  | .finish _ o => o ≠ .throwsOther
  | _ => True

/-- No connection is closed between the dispatch of a request and the draining of its handback,
neither by the reactor nor by a worker whose handback was rejected. -/
def ClosesDrained (cfg : Config) (s : State) : Act → Prop
  | .closeRejected _ => False
  | a => ∀ s' ∈ step cfg s a, s'.world.Alive

theorem ClosesDrained.alive (h : ClosesDrained cfg s a) (hstep : step cfg s a = some s') :
    s'.world.Alive := by
  unfold ClosesDrained at h
  split at h
  · exact h.elim
  · exact h s' hstep

/-- No read of `on_client_event` goes on behind the end of a request. -/
def ReadsClean (s : State) : Act → Prop
  | .event io => ∀ conn ∈ s.reading, StopsAtTerminator (conn.readBuf.bytes s.pool) io.reads
  | _ => True

/-- No `add` or `mod` of the poller fails. -/
def PollerTakes (_ : State) : Act → Prop
  | .event io => io.modOk = true
  | .drain io => io.modOk = true
  | .accept (.conn _ _ addOk) => addOk = true
  | _ => True

instance (s : State) (a : Act) : Decidable (AcceptsQuiet s a) := by
  unfold AcceptsQuiet
  split <;> infer_instance

instance (cfg : Config) (s : State) (a : Act) : Decidable (PushesFit cfg s a) := by
  unfold PushesFit
  split <;> infer_instance

instance (s : State) (a : Act) : Decidable (HandlersEnd s a) := by
  unfold HandlersEnd
  split <;> infer_instance

instance (cfg : Config) (s : State) (a : Act) : Decidable (ClosesDrained cfg s a) := by
  unfold ClosesDrained
  split <;> infer_instance

instance (s : State) (a : Act) : Decidable (ReadsClean s a) := by
  unfold ReadsClean
  split <;> infer_instance

instance (s : State) (a : Act) : Decidable (PollerTakes s a) := by
  unfold PollerTakes
  split <;> infer_instance

/-- The step satisfies the conditions of `A`. -/
structure Assume.Holds (A : Assume) (cfg : Config) (s : State) (a : Act) : Prop where
  fresh : A.fresh = true → AcceptsQuiet s a
  noReject : A.noReject = true → PushesFit cfg s a
  noDie : A.noDie = true → HandlersEnd s a
  noEarlyClose : A.noEarlyClose = true → ClosesDrained cfg s a
  clean : A.clean = true → ReadsClean s a
  polled : A.polled = true → PollerTakes s a

/-! ## The whole system -/

theorem loopStep_moves (hwf : Wf s) (hloop : loopStep cfg s s.world.pc a = some s')
    (hstep : step cfg s a = some s') (hA : A.Holds cfg s a) :
    Wf s' ∧ Moves cfg A s.view s'.view := by
  have halive : A.noEarlyClose = true → s'.world.Alive := fun h => (hA.noEarlyClose h).alive hstep
  generalize hpc : s.world.pc = pc at hloop
  unfold loopStep at hloop
  split at hloop
  case h_1 evs =>
    split at hloop
    · rename_i hguard
      cases hloop
      exact ⟨hwf.setWorld _, .one (.poll evs rfl hpc (all_eq_true.mp hguard.2.2))⟩
    · cases hloop
  case h_2 =>
    split at hloop
    · cases hloop
      exact ⟨hwf, .refl⟩
    · cases hloop
  case h_3 =>
    split at hloop
    · cases hloop
    · cases hloop
      exact ⟨hwf.setWorld _, .one (.goto .exited rfl (by simp) (.inl (by
        simp [State.view, hpc, Loop.events])))⟩
  case h_4 e evs =>
    split at hloop
    · rename_i hlisten
      cases hloop
      exact ⟨hwf.setWorld _, .one (.goto _ rfl (by simp) (.inr ⟨e, hlisten, by
        simp [State.view, hpc, Loop.events]⟩))⟩
    · cases hloop
  case h_5 e evs io =>
    split at hloop
    · cases hloop
    · exact onClientEvent_moves hwf hpc hloop hA.polled hA.clean halive
  case h_6 io =>
    split at hloop
    · rename_i hb rest hout
      exact drainHandback_moves hwf hout hloop hA.polled halive
    · cases hloop
  case h_7 =>
    cases hloop
    exact ⟨hwf.setWorld _, .one (.goto .sweeping rfl (by simp) (.inl (by
      simp [State.view, hpc, Loop.events])))⟩
  case h_8 now accepted evs r =>
    refine acceptRound_moves hwf hpc hloop (fun h fd ip ok hr => ?_) fun h fd ip ok hr => ?_
    · have := hA.fresh h
      rwa [hr] at this
    · have := hA.polled h
      rwa [hr] at this
  case h_9 now accepted evs =>
    split at hloop
    · cases hloop
      exact ⟨hwf.setWorld _, .one (.goto (.batch evs) rfl (by simp) (.inl (by
        simp [State.view, hpc, Loop.events])))⟩
    · cases hloop
  case h_10 =>
    obtain ⟨s₁, hsweep, rfl⟩ := map_eq_some_iff.mp hloop
    exact sweep_moves hwf hsweep hpc halive
  case h_11 => exact finishStop_moves hwf hpc hloop halive
  case h_12 => cases hloop

/-- **One step.** Every step of the reactor keeps its states well formed and is a sequence of moves
of the connection protocol. -/
theorem step_moves (hwf : Wf s) (hstep : step cfg s a = some s') (hA : A.Holds cfg s a) :
    Wf s' ∧ Moves cfg A s.view s'.view := by
  have hloop := hstep
  unfold step at hloop
  split at hloop
  case h_1 d => cases hloop; exact ⟨hwf.setWorld _, .one (.env _ _ _ _)⟩
  case h_2 => cases hloop; exact ⟨hwf.setWorld _, .one (.env _ _ _ _)⟩
  case h_3 fd bs =>
    obtain ⟨w, hw, rfl⟩ := map_eq_some_iff.mp hloop
    exact ⟨hwf.setWorld _, .one (.arrive fd bs hw)⟩
  case h_4 fd =>
    obtain ⟨w, hw, rfl⟩ := map_eq_some_iff.mp hloop
    exact ⟨hwf.setWorld _, .one (.hangup fd hw)⟩
  case h_5 =>
    obtain ⟨w, hw, rfl⟩ := map_eq_some_iff.mp hloop
    exact ⟨hwf.setWorld _, start_moves hw⟩
  case h_6 i o =>
    obtain ⟨w, hw, rfl⟩ := map_eq_some_iff.mp hloop
    exact ⟨hwf.setWorld _, finish_moves hw hA.noReject hA.noDie⟩
  case h_7 i =>
    obtain ⟨w, hw, rfl⟩ := map_eq_some_iff.mp hloop
    refine ⟨hwf.setWorld _, closeRejected_moves hw ?_⟩
    cases h : A.noEarlyClose with
    | false => rfl
    | true => exact (hA.noEarlyClose h).elim
  case h_8 => cases hloop; exact ⟨hwf.setWorld _, .one (.env _ _ _ _)⟩
  case h_9 => exact loopStep_moves hwf hloop hstep hA

theorem run_moves (hwf : Wf s) (hrun : exec (step cfg) s as = some s')
    (hmeets : Meets (step cfg) (A.Holds cfg) s as) : Wf s' ∧ Moves cfg A s.view s'.view := by
  refine exec_invariant_of_meets (I := fun t => Wf t ∧ Moves cfg A s.view t.view)
    (fun t a t' ⟨hwf, hmoves⟩ hA hstep => ?_) ⟨hwf, .refl⟩ hmeets hrun
  obtain ⟨hwf', hmoves'⟩ := step_moves hwf hstep hA
  exact ⟨hwf', hmoves.trans hmoves'⟩

theorem run_moves_always (hwf : Wf s) (hrun : exec (step cfg) s as = some s') :
    Wf s' ∧ Moves cfg {} s.view s'.view := by
  refine run_moves hwf hrun (meets_of_forall (fun s a => ?_) _ _)
  constructor <;> simp

theorem init_wf (cfg : Config) : Wf (State.init cfg) where
  sorted := .nil
  own_fd := by simp [State.init]
  owns := ⟨[], [], .make _ _ (by decide) (by decide), .nil⟩
  conns := by simp [State.init]

theorem run_invariant {I : View → Prop} (hinit : I .init)
    (hmove : ∀ u u', I u → Move cfg A u u' → I u')
    (hrun : exec (step cfg) (.init cfg) as = some s')
    (hmeets : Meets (step cfg) (A.Holds cfg) (.init cfg) as) : I s'.view :=
  (run_moves (init_wf cfg) hrun hmeets).2.invariant hmove hinit

theorem run_invariant_always {I : View → Prop} (hinit : I .init)
    (hmove : ∀ u u', I u → Move cfg {} u u' → I u')
    (hrun : exec (step cfg) (.init cfg) as = some s') : I s'.view :=
  (run_moves_always (init_wf cfg) hrun).2.invariant hmove hinit

end Muses.Reactor
