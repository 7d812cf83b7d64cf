import Muses.Net.Refinement

/-!
# The cursors of a read buffer

A connection's read buffer has three numbers: `scan_pos`, up to which it was searched, its size and
its capacity. Here they are seen from any state that a run of the reactor reaches.
-/

namespace Muses.Reactor

open Muses.Core

variable {cfg : Config} {s : State} {fd : Fd} {conn : Connection} {acts : List Act}

/-- **The incremental scan is the full search.** Take any state that a run reaches, any connection
in it that is not dispatched, and reads of which each returns bytes only while there is no
terminator yet. When the loop of `on_client_event` has made them it has reported a terminator just
if a search of the whole buffer finds one, and at the same place. -/
theorem scan_equals_search (hrun : exec (step cfg) (State.init cfg) acts = some s)
    (hfind : s.find fd = some conn) (hidle : conn.dispatched = false) {w w' : World}
    {rs : List World.ReadResult} (hstops : StopsAtTerminator (conn.readBuf.bytes s.pool) rs)
    {p' : MemoryPool} {conn' : Connection} {got : Bool}
    (hloop : readAndScan cfg.allocator fd w s.pool conn rs = some (w', p', conn', .drained got)) :
    match Search.find terminator (conn'.readBuf.bytes p') with
    | none => got = false
    | some i => got = true ∧ conn'.readBuf.scanPos = i + 4 := by
  have hwf := (run_moves_always (init_wf cfg) hrun).1
  have hok := hwf.conns _ ((lookup_eq_some_iff (keys_nodup hwf.sorted)).mp hfind)
  have hheld := hwf.hold hfind
  have hinv : ScanInv { clean := true } (conn.readBuf.bytes s.pool) conn.readBuf.scanPos false rs :=
    { searching := fun _ => ⟨hok.incomplete hidle, hheld.owns.length_bytes ▸ hok.scan_le⟩
      found := by simp
      clean := fun _ => hstops
      first := by simp }
  have hleft : LoopEnd cfg {} s fd (ScanInv { clean := true }) w s.pool conn w' p' conn' _ :=
    readLoop_moves scans_scanData (scanData_inv _) hheld hok.len_le hinv hloop
  obtain ⟨-, -, rs', hend⟩ := hleft.drained got rfl
  cases got with
  | false => rw [(hend.searching rfl).1]
  | true =>
    obtain ⟨i, hi, hpos⟩ := hend.first rfl rfl
    rw [hi]
    exact ⟨rfl, hpos⟩

def splitTerminator : List Act :=
  acceptAt 5 ++ readAt 5 [13, 10] [.data [13, 10], .eagain] ++ [.arrive 5 [13, 10]]

def splitReads : List World.ReadResult := [.data [13], .data [10], .eagain]

theorem scan_equals_search_split :
    ∃ s ∈ exec (step .sample) (State.init .sample) splitTerminator, ∃ conn ∈ s.find 5,
      ∃ r ∈ readAndScan Config.sample.allocator 5 s.world s.pool conn splitReads,
        r.2.2.2 = .drained true ∧ r.2.2.1.readBuf.scanPos = 4 := by
  have hends : ∃ s ∈ exec (step .sample) (State.init .sample) splitTerminator, ∃ conn ∈ s.find 5,
      conn.dispatched = false ∧ StopsAtTerminator (conn.readBuf.bytes s.pool) splitReads ∧
      ∃ r ∈ readAndScan Config.sample.allocator 5 s.world s.pool conn splitReads,
        r.2.2.2 = .drained true ∧
        Search.find terminator (r.2.2.1.readBuf.bytes r.2.1) = some 0 := by decide +kernel
  obtain ⟨s, hrun, conn, hfind, hidle, hstops, ⟨w', p', conn', e⟩, hloop, rfl, hzero⟩ := hends
  have hscan := scan_equals_search hrun hfind hidle hstops hloop
  simp only at hzero
  rw [hzero] at hscan
  exact ⟨s, hrun, conn, hfind, _, hloop, rfl, hscan.2⟩

/-! ## Indices -/

/-- The scan of the bytes behind `prevLen` starts inside the buffer, and the buffer ends inside its
block: `size - scan_from` does not wrap around. -/
def InRange (prevLen : Nat) (b : PooledBuffer) : Prop :=
  max (prevLen - 3) b.scanPos ≤ b.len ∧ b.len ≤ b.cap

instance (prevLen : Nat) (b : PooledBuffer) : Decidable (InRange prevLen b) :=
  inferInstanceAs (Decidable (_ ∧ _))

theorem reserve_cursors {G : GlobalAllocator} {p p' : MemoryPool} {b b' : PooledBuffer} {need : Nat}
    (h : b.reserve G p need = some (p', b')) : b'.len = b.len ∧ b'.scanPos = b.scanPos := by
  unfold PooledBuffer.reserve at h
  split at h
  · cases h
    exact ⟨rfl, rfl⟩
  · obtain ⟨⟨p₁, fresh⟩, -, hrest⟩ := Option.bind_eq_some_iff.mp h
    obtain ⟨⟨p₂, b₂⟩, hrelease, heq⟩ := Option.map_eq_some_iff.mp hrest
    cases heq
    refine ⟨rfl, ?_⟩
    unfold PooledBuffer.releasePoolBlock at hrelease
    split at hrelease
    · obtain ⟨p₃, -, heq⟩ := Option.map_eq_some_iff.mp hrelease
      cases heq
      rfl
    · cases hrelease
      rfl

theorem append_cursors {G : GlobalAllocator} {p p' : MemoryPool} {b b' : PooledBuffer}
    {src : List UInt8} (h : b.append G p src = some (p', b', true)) :
    b'.len = b.len + src.length ∧ b'.len ≤ b'.cap ∧ b'.scanPos = b.scanPos := by
  obtain ⟨⟨p₁, b₁⟩, hgrown, hwrite⟩ := Option.map_eq_some_iff.mp h
  have hsame : b₁.len = b.len ∧ b₁.scanPos = b.scanPos := by
    split at hgrown
    · exact reserve_cursors hgrown
    · cases hgrown
      exact ⟨rfl, rfl⟩
  simp only at hwrite
  split at hwrite
  · cases hwrite
  · rename_i hroom
    rw [← hsame.1, ← hsame.2]
    split at hwrite <;> cases hwrite <;> exact ⟨rfl, by simpa using hroom, rfl⟩

theorem scanNew_cursors (p : MemoryPool) (n : Nat) (b : PooledBuffer) :
    (scanNew p n b).1.scanPos ≤ (scanNew p n b).1.len := by
  have hbytes : (b.bytes p).length ≤ b.len := by
    unfold PooledBuffer.bytes
    split <;> simp
  unfold scanNew
  simp only
  split
  · rename_i i hfind
    have hend := Search.find_add_length_le hfind
    simp only [terminator, List.length_cons, List.length_nil, List.length_drop] at hend
    simp only [PooledBuffer.setScanPos]
    omega
  · simp [PooledBuffer.setScanPos]

/-- **The loop only sees buffers in range**: it may do anything else with all others. -/
theorem readLoop_congr {G : GlobalAllocator}
    {f : World → MemoryPool → Nat → Connection → Connection × Bool}
    (hsame : ∀ w p n c, InRange n c.readBuf → f w p n c = scanData w p n c)
    {w : World} {p : MemoryPool} {got : Bool} {rs : List World.ReadResult}
    (hscan : conn.readBuf.scanPos ≤ conn.readBuf.len) :
    readLoop G fd f w p conn got rs = readLoop G fd scanData w p conn got rs := by
  induction rs generalizing w p conn got with
  | nil => rfl
  | cons r rs ih =>
    simp only [readLoop]
    refine Option.bind_congr fun w' _ => ?_
    cases r with
    | data bs =>
      refine Option.bind_congr fun r happ => ?_
      obtain ⟨p', buf, ok⟩ := r
      simp only
      split
      · rfl
      · rename_i hgo
        obtain rfl : ok = true := by simpa using (not_or.mp hgo).1
        obtain ⟨hlen, hcap, hpos⟩ := append_cursors happ
        have hrange : InRange conn.readBuf.len buf := by
          refine ⟨?_, hcap⟩
          omega
        rw [hsame w' p' _ { conn with readBuf := buf } hrange]
        exact ih (scanNew_cursors p' conn.readBuf.len buf)
    | eof => rfl
    | eagain => rfl
    | eintr => exact ih hscan
    | error => rfl

/-- The positions are within the buffer, and it is small. -/
structure Sound (b : PooledBuffer) : Prop where
  scan_le : b.scanPos ≤ b.len
  len_le : b.len ≤ b.cap
  small : b.len ≤ connectionMaxRequest

/-- What `dispatch_to_worker` needs to take the bytes before `scan_pos`, and not the whole buffer,
off a buffer: `size - req_len` does not wrap around, and what is copied and moved lies inside. -/
structure Cuttable (b : PooledBuffer) : Prop extends Sound b where
  found : 1 ≤ b.scanPos

theorem Held.sound {p : MemoryPool} (h : Held s fd p conn)
    (hscan : conn.readBuf.scanPos ≤ (conn.readBuf.bytes p).length)
    (hsmall : conn.readBuf.len ≤ connectionMaxRequest) : Sound conn.readBuf :=
  ⟨h.owns.length_bytes ▸ hscan, h.owns.len_le_cap, hsmall⟩

/-- **The indices into a read buffer are safe**, in every state of every run and in every call of a
handler from there. The cursors of each connection are in order. The loop of `on_client_event` only
scans in range, as it could do anything else with a buffer out of range, and enters
`dispatch_to_worker` with a buffer that can be cut; so does `check_buffered_request` after
`drain_into_buffer`. -/
theorem buffer_indices_safe (hrun : exec (step cfg) (State.init cfg) acts = some s)
    (hfind : s.find fd = some conn) :
    Sound conn.readBuf ∧
    (conn.dispatched = false → ∀ w rs,
      (∀ other : Connection × Bool,
        readLoop cfg.allocator fd
          (fun w p n c => if InRange n c.readBuf then scanData w p n c else other)
          w s.pool conn false rs = readAndScan cfg.allocator fd w s.pool conn rs) ∧
      ∀ w' p' conn' got,
        readAndScan cfg.allocator fd w s.pool conn rs = some (w', p', conn', .drained got) →
        Sound conn'.readBuf ∧ (got = true → Cuttable conn'.readBuf)) ∧
    ∀ c : Connection, c.fd = fd → c.readBuf = conn.readBuf → ∀ w rs w' p' c' got,
      drainIntoBuffer cfg.allocator w s.pool c rs = some (w', p', c', .drained got) →
      Sound c'.readBuf ∧ ∀ i, Search.find terminator (c'.readBuf.bytes p') = some i →
        Cuttable (c'.readBuf.setScanPos (i + 4)) := by
  have hwf := (run_moves_always (init_wf cfg) hrun).1
  have hok := hwf.conns _ ((lookup_eq_some_iff (keys_nodup hwf.sorted)).mp hfind)
  have hheld := hwf.hold hfind
  have hscan : conn.readBuf.scanPos ≤ (conn.readBuf.bytes s.pool).length - 3 :=
    hheld.owns.length_bytes ▸ hok.scan_le
  have hsound : Sound conn.readBuf := hheld.sound (by omega) hok.len_le
  refine ⟨hsound, fun hidle w rs => ⟨fun other => ?_, fun w' p' conn' got hloop => ?_⟩,
    fun c hfd hbuf w rs w' p' c' got hloop => ?_⟩
  · exact readLoop_congr (fun _ _ _ _ hrange => if_pos hrange) hsound.scan_le
  · have hinv : ScanInv {} (conn.readBuf.bytes s.pool) conn.readBuf.scanPos false rs :=
      ⟨fun _ => ⟨hok.incomplete hidle, hscan⟩, by simp, by simp, by simp⟩
    have hleft : LoopEnd cfg {} s fd (ScanInv {}) w s.pool conn w' p' conn' _ :=
      readLoop_moves scans_scanData (scanData_inv _) hheld hok.len_le hinv hloop
    obtain ⟨hsmall, -, rs', hend⟩ := hleft.drained got rfl
    cases got with
    | false =>
      have hpos := (hend.searching rfl).2
      exact ⟨hleft.held.sound (by omega) hsmall, by simp⟩
    | true =>
      obtain ⟨hone, hpos, -⟩ := hend.found rfl
      have hcut := hleft.held.sound hpos hsmall
      exact ⟨hcut, fun _ => ⟨hcut, hone⟩⟩
  · have hheld' : Held s fd s.pool c := { hheld with conn_fd := hfd, owns := hbuf ▸ hheld.owns }
    subst hfd
    have hleft : LoopEnd cfg {} s c.fd _ w s.pool c w' p' c' _ :=
      readLoop_moves (fun _ _ _ c => ⟨c.readBuf.scanPos, c.lastActive, rfl⟩) drain_inv hheld'
        (hbuf ▸ hok.len_le) (hbuf ▸ hscan) hloop
    obtain ⟨hsmall, -, rs', hpos⟩ := hleft.drained got rfl
    have hsound' := hleft.held.sound (by omega) hsmall
    refine ⟨hsound', fun i hi => ⟨⟨?_, hsound'.len_le, hsmall⟩, by simp [PooledBuffer.setScanPos]⟩⟩
    have hend := Search.find_add_length_le hi
    rw [hleft.held.owns.length_bytes] at hend
    exact hend

theorem buffer_indices_safe_split :
    ∃ s ∈ exec (step .sample) (State.init .sample) splitTerminator, ∃ conn ∈ s.find 5,
      ∃ r ∈ readAndScan Config.sample.allocator 5 s.world s.pool conn splitReads,
        Sound conn.readBuf ∧ Cuttable r.2.2.1.readBuf := by
  have hends : ∃ s ∈ exec (step .sample) (State.init .sample) splitTerminator, ∃ conn ∈ s.find 5,
      conn.dispatched = false ∧
      ∃ r ∈ readAndScan Config.sample.allocator 5 s.world s.pool conn splitReads,
        r.2.2.2 = .drained true := by decide +kernel
  obtain ⟨s, hrun, conn, hfind, hidle, ⟨w', p', conn', e⟩, hloop, rfl⟩ := hends
  obtain ⟨hsound, hread, -⟩ := buffer_indices_safe hrun hfind
  have hcut := ((hread hidle s.world splitReads).2 w' p' conn' true hloop).2 rfl
  exact ⟨s, hrun, conn, hfind, _, hloop, hsound, hcut⟩

end Muses.Reactor
