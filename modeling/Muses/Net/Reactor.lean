import Muses.BloomFilter
import Muses.Core.Search
import Muses.Memory.PooledBuffer
import Muses.Net.World

/-!
# `Reactor` — the event loop

The model of `muses/net/reactor.hpp`: the reactor thread with its connection map, memory pool and
connection limits, its worker threads, and the kernel of `Muses.Net.World`. One label of `step` is
one call of a handler by the loop, one round of `accept_all`, one handback taken from the outbox,
one step of a worker thread or one event of the network. The results of the system calls made on
the way are part of the label.

A handler is `none` when the results it was given do not fit the calls it makes (a `read` that
returns bytes which never arrived, a missing `EAGAIN`), and when the code would not return from it
(`operator new` throws, a magic check of the pool aborts).
-/

namespace Muses

open Muses.Core

structure Connection where
  fd : Fd
  readBuf : PooledBuffer
  /-- a worker is processing this connection -/
  dispatched : Bool := false
  writeBuf : List UInt8 := []
  writeOff : Nat := 0
  keepAliveAfterWrite : Bool := false
  /-- a partial write is parked -/
  writing : Bool := false
  lastActive : Nat
  clientIp : UInt32 := 0
  id : ConnId
  writeOrigin : Origin := ⟨id, 0⟩
  deriving DecidableEq, Repr

namespace Reactor

structure RateWindow where
  windowStart : Nat
  count : Nat
  deriving DecidableEq, Repr

/-- What the constructor is given, and what lies outside the library: the global allocator,
`std::hash`, the address of the pool's arena and the size of the blacklist. -/
structure Config where
  listenFd : Fd
  workers : Nat
  /-- slots of the outbox's ring -/
  outboxSlots : Nat
  idleTimeout : Nat
  maxConnections : Nat
  ipRatePerSec : Nat
  allocator : GlobalAllocator
  hash : UInt32 → UInt64
  arenaBase : Nat
  blacklistSlots : Nat
  blacklistHashes : Nat

/-- The reactor's members that change, with everything around it. `connections` is the flat map,
sorted by descriptor. -/
structure State where
  world : World
  connections : List (Fd × Connection)
  pool : MemoryPool
  ipBlacklist : CountingBloomFilter
  ipConnectWindows : UInt32 → Option RateWindow
  lastIpDecay : Nat

def State.init (cfg : Config) : State where
  world := .init
  connections := []
  pool := .make cfg.arenaBase (2 ^ 20) MemoryPool.defaultClasses
  ipBlacklist := .make cfg.blacklistSlots cfg.blacklistHashes
  ipConnectWindows := fun _ => none
  lastIpDecay := 0

def second : Nat := 10 ^ 9

def connectionMaxRequest : Nat := 64 * 1024

def acceptBatch : Nat := 128

def maxEvents : Nat := 64

def terminator : List UInt8 := [13, 10, 13, 10]

/-! ## The flat map

`std::flat_map` keeps its values in a vector, so inserting and erasing moves the connections
behind the place, and with each its read buffer. -/

def insertShift (p : MemoryPool) (carry : Fd × Connection) :
    List (Fd × Connection) → Option (MemoryPool × List (Fd × Connection))
  | [] =>
      let buf := (PooledBuffer.moveConstruct carry.2.readBuf).1
      some (p, [(carry.1, { carry.2 with readBuf := buf })])
  | next :: rest =>
      (insertShift p next rest).bind fun (p', rest') =>
        (PooledBuffer.moveAssign p' PooledBuffer.movedFrom carry.2.readBuf).map
          fun (p'', buf, _) => (p'', (carry.1, { carry.2 with readBuf := buf }) :: rest')

def emplace (p : MemoryPool) (fd : Fd) (conn : Connection) :
    List (Fd × Connection) → Option (MemoryPool × List (Fd × Connection))
  | [] => insertShift p (fd, conn) []
  | entry :: rest =>
      if fd < entry.1 then insertShift p (fd, conn) (entry :: rest)
      else if fd = entry.1 then (conn.readBuf.destroy p).map fun p' => (p', entry :: rest)
      else (emplace p fd conn rest).map fun (p', rest') => (p', entry :: rest')

def eraseShift (p : MemoryPool) (gap : Connection) :
    List (Fd × Connection) → Option (MemoryPool × List (Fd × Connection))
  | [] => (gap.readBuf.destroy p).map fun p' => (p', [])
  | (fd, next) :: rest =>
      (PooledBuffer.moveAssign p gap.readBuf next.readBuf).bind fun (p', buf, left) =>
        (eraseShift p' { next with readBuf := left } rest).map
          fun (p'', rest') => (p'', (fd, { next with readBuf := buf }) :: rest')

def erase (p : MemoryPool) (fd : Fd) :
    List (Fd × Connection) → Option (MemoryPool × List (Fd × Connection))
  | [] => some (p, [])
  | entry :: rest =>
      if entry.1 = fd then eraseShift p entry.2 rest
      else (erase p fd rest).map fun (p', rest') => (p', entry :: rest')

def destroyAll (p : MemoryPool) : List (Fd × Connection) → Option MemoryPool
  | [] => some p
  | entry :: rest => (entry.2.readBuf.destroy p).bind fun p' => destroyAll p' rest

namespace State

def find (s : State) (fd : Fd) : Option Connection := s.connections.lookup fd

def setConn (s : State) (fd : Fd) (conn : Connection) : State :=
  { s with
    connections := s.connections.map fun entry => if entry.1 = fd then (fd, conn) else entry }

def put (s : State) (w : World) (p : MemoryPool) (fd : Fd) (conn : Connection) : State :=
  { s.setConn fd conn with world := w, pool := p }

def eraseConn (s : State) (fd : Fd) : Option State :=
  (erase s.pool fd s.connections).map fun (p, conns) =>
    { s with pool := p, connections := conns }

def closeConnection (s : State) (fd : Fd) : Option State :=
  match s.find fd with
  | none => some s
  | some conn => { s with world := s.world.close fd conn.id }.eraseConn fd

end State

/-! ## Reading -/

inductive ReadEnd where
  | close
  | drained (gotComplete : Bool)
  deriving DecidableEq, Repr

/-- The loop `on_client_event` and `drain_into_buffer` share: read to `EAGAIN`, append, refuse an
oversized request. They differ in `onData`, what is done with a connection that got new bytes
behind the first `prevLen`. -/
def readLoop (G : GlobalAllocator) (fd : Fd)
    (onData : World → MemoryPool → Nat → Connection → Connection × Bool) :
    World → MemoryPool → Connection → Bool → List World.ReadResult →
      Option (World × MemoryPool × Connection × ReadEnd)
  | _, _, _, _, [] => none
  | w, p, conn, got, r :: rs =>
      (w.sysRead fd conn.id r).bind fun w' =>
        match r with
        | .data bs =>
            (conn.readBuf.append G p bs).bind fun (p', buf, ok) =>
              let conn' := { conn with readBuf := buf }
              if ok = false ∨ buf.len > connectionMaxRequest then some (w', p', conn', .close)
              else
                let (conn'', hit) := onData w' p' conn.readBuf.len conn'
                readLoop G fd onData w' p' conn'' (got || hit) rs
        | .eof => some (w', p, conn, .close)
        | .eagain => some (w', p, conn, .drained got)
        | .eintr => readLoop G fd onData w' p conn got rs
        | .error => some (w', p, conn, .close)

/-- The incremental scan of `on_client_event`: new bytes plus an overlap of three, from
`scan_pos` on. -/
def scanNew (p : MemoryPool) (prevLen : Nat) (b : PooledBuffer) : PooledBuffer × Bool :=
  let scanFrom := max (prevLen - 3) b.scanPos
  match Search.find terminator ((b.bytes p).drop scanFrom) with
  | some i => (b.setScanPos (scanFrom + i + 4), true)
  | none => (b.setScanPos (b.len - 3), false)

def scanData (w : World) (p : MemoryPool) (prevLen : Nat) (conn : Connection) :
    Connection × Bool :=
  let (buf, hit) := scanNew p prevLen conn.readBuf
  ({ conn with lastActive := w.clock, readBuf := buf }, hit)

def readAndScan (G : GlobalAllocator) (fd : Fd) (w : World) (p : MemoryPool) (conn : Connection)
    (rs : List World.ReadResult) : Option (World × MemoryPool × Connection × ReadEnd) :=
  readLoop G fd scanData w p conn false rs

def drainIntoBuffer (G : GlobalAllocator) (w : World) (p : MemoryPool) (conn : Connection)
    (rs : List World.ReadResult) : Option (World × MemoryPool × Connection × ReadEnd) :=
  readLoop G conn.fd (fun _ _ _ conn => (conn, false)) w p conn false rs

/-! ## Dispatching -/

def frontBytes (p : MemoryPool) (b : PooledBuffer) (n : Nat) : List UInt8 :=
  match b.data with
  | some d => p.mem.readBytes d n
  | none => []

def carve (p : MemoryPool) (b : PooledBuffer) (n : Nat) : MemoryPool × PooledBuffer :=
  let leftover := b.len - n
  (if 0 < leftover ∧ 0 < n then b.shiftDown p n leftover else p,
    (b.setSize leftover).setScanPos 0)

def State.dispatchToWorker (s : State) (fd : Fd) (conn : Connection) : State :=
  let b := conn.readBuf
  let reqLen := if b.scanPos = 0 then b.len else b.scanPos
  let request := frontBytes s.pool b reqLen
  let (p, buf) := carve s.pool b reqLen
  s.put (s.world.enqueue fd conn.id request) p fd
    { conn with dispatched := true, readBuf := buf }

def State.checkBufferedRequest (s : State) (conn : Connection) : State :=
  if conn.dispatched then s
  else if conn.readBuf.len < 4 then s
  else
    match Search.find terminator (conn.readBuf.bytes s.pool) with
    | some i => s.dispatchToWorker conn.fd { conn with readBuf := conn.readBuf.setScanPos (i + 4) }
    | none => s

/-! ## Writing -/

structure Io where
  writes : List World.WriteResult := []
  modOk : Bool := true
  reads : List World.ReadResult := []
  deriving DecidableEq, Repr

def tryWrite (fd : Fd) (o : Origin) (data : List UInt8) :
    World → Nat → List World.WriteResult → Option (World × Option Nat)
  | w, total, [] => if total < data.length then none else some (w, some total)
  | w, total, r :: rs =>
      if total < data.length then
        (w.sysWrite fd o (data.drop total) r).bind fun w' =>
          match r with
          | .wrote n => tryWrite fd o data w' (total + n) rs
          | .eagain => some (w', some total)
          | .eintr => tryWrite fd o data w' total rs
          | .error => some (w', none)
      else some (w, some total)

namespace State

def finishResponse (G : GlobalAllocator) (s : State) (conn : Connection) (io : Io) :
    Option State :=
  if conn.keepAliveAfterWrite then
    let conn := { conn with lastActive := s.world.clock, dispatched := false }
    let w := s.world.arm conn.fd .Readable io.modOk
    (drainIntoBuffer G w s.pool conn io.reads).bind fun (w', p, conn', e) =>
      let s' := s.put w' p conn.fd conn'
      match e with
      | .close => s'.closeConnection conn.fd
      | .drained _ => some (s'.checkBufferedRequest conn')
  else (s.setConn conn.fd conn).closeConnection conn.fd

def settleWrite (G : GlobalAllocator) (s : State) (conn : Connection) (io : Io) : Option State :=
  if conn.writeOff ≥ conn.writeBuf.length then
    s.finishResponse G { conn with writing := false, writeBuf := [], writeOff := 0 } io
  else
    some (s.put (s.world.arm conn.fd .Writable io.modOk) s.pool conn.fd
      { conn with writing := true })

def continueWrite (G : GlobalAllocator) (s : State) (conn : Connection) (io : Io) :
    Option State :=
  if conn.writeOff < conn.writeBuf.length then
    (tryWrite conn.fd conn.writeOrigin conn.writeBuf s.world conn.writeOff io.writes).bind
      fun (w, wrote) =>
        match wrote with
        | none => (s.put w s.pool conn.fd { conn with writing := false }).closeConnection conn.fd
        | some wrote =>
            { s with world := w }.settleWrite G
              { conn with lastActive := w.clock, writeOff := wrote } io
  else s.settleWrite G conn io

def beginWrite (G : GlobalAllocator) (s : State) (conn : Connection) (hb : WorkerHandback)
    (io : Io) : Option State :=
  s.continueWrite G
    { conn with
      writeBuf := hb.response
      writeOff := 0
      keepAliveAfterWrite := hb.keepAlive
      writeOrigin := hb.origin } io

/-! ## The handlers of the loop -/

def onClientEvent (G : GlobalAllocator) (s : State) (fd : Fd) (mask : EventMask) (io : Io) :
    Option State :=
  if mask.closed then s.closeConnection fd
  else if mask.writable then
    match s.find fd with
    | some conn => if conn.writing then s.continueWrite G conn io else some s
    | none => some s
  else if mask.readable = false then some s
  else
    match s.find fd with
    | none => some s
    | some conn =>
        if conn.dispatched then some s
        else
          (readAndScan G fd s.world s.pool conn io.reads).bind fun (w, p, conn', e) =>
            let s' := s.put w p fd conn'
            match e with
            | .close => s'.closeConnection fd
            | .drained true => some (s'.dispatchToWorker fd conn')
            | .drained false => some s'

def drainHandback (G : GlobalAllocator) (s : State) (hb : WorkerHandback) (io : Io) :
    Option State :=
  match s.find hb.fd with
  | none => some s
  | some conn =>
      if hb.response = [] ∧ hb.keepAlive = false then s.closeConnection hb.fd
      else s.beginWrite G conn hb io

def closeAll (s : State) : List Fd → Option State
  | [] => some s
  | fd :: fds => (s.closeConnection fd).bind fun s' => s'.closeAll fds

def sweepIdleConnections (cfg : Config) (s : State) : Option State :=
  if cfg.idleTimeout = 0 then some s
  else
    let idle := s.connections.filter fun entry =>
      s.world.clock - entry.2.lastActive > cfg.idleTimeout * second
    s.closeAll (idle.map Prod.fst)

def sweepIpRate (cfg : Config) (s : State) : State :=
  if cfg.ipRatePerSec = 0 then s
  else if s.world.clock - s.lastIpDecay < 10 * second then s
  else
    { s with
      lastIpDecay := s.world.clock
      ipBlacklist := s.ipBlacklist.decay 1
      ipConnectWindows := fun ip =>
        (s.ipConnectWindows ip).filter fun win => s.world.clock - win.windowStart ≤ 2 * second }

def ipRateExceeded (cfg : Config) (s : State) (ip : UInt32) (now : Nat) : State × Bool :=
  let win := (s.ipConnectWindows ip).getD ⟨0, 0⟩
  let win := if now - win.windowStart ≥ second then ⟨now, 0⟩ else win
  let win : RateWindow := { win with count := win.count + 1 }
  ({ s with ipConnectWindows := Function.update s.ipConnectWindows ip (some win) },
    win.count > cfg.ipRatePerSec)

def ipGate (cfg : Config) (s : State) (ip : UInt32) (now : Nat) : State × Bool :=
  if cfg.ipRatePerSec ≠ 0 ∧ ip ≠ 0 then
    if s.ipBlacklist.contains cfg.hash ip then (s, true)
    else
      let (s', exceeded) := s.ipRateExceeded cfg ip now
      if exceeded then ({ s' with ipBlacklist := s'.ipBlacklist.add cfg.hash ip }, true)
      else (s', false)
  else (s, false)

/-- The registration part of `accept_all`: read buffer, map entry, poller. The new connection is
`id`; when the map already has an entry for `fd`, that entry stays. -/
def register (cfg : Config) (s : State) (fd : Fd) (ip : UInt32) (id : ConnId) (now : Nat)
    (addOk : Bool) : Option State :=
  (PooledBuffer.make cfg.allocator s.pool 4096).bind fun (p, fresh) =>
    (PooledBuffer.moveAssign p PooledBuffer.movedFrom fresh).bind fun (p, buf, _) =>
      let conn : Connection :=
        { fd := fd, readBuf := buf, lastActive := now, clientIp := ip, id := id }
      (emplace p fd conn s.connections).bind fun (p, conns) =>
        let s' := { s with pool := p, connections := conns }
        if addOk then some { s' with world := s'.world.arm fd .Readable true }
        else { s' with world := s'.world.close fd id }.eraseConn fd

end State

inductive AcceptResult where
  | conn (fd : Fd) (ip : UInt32) (addOk : Bool)
  | eagain
  | eintr
  | error
  deriving DecidableEq, Repr

namespace State

def setPc (s : State) (pc : Loop) : State := { s with world := { s.world with pc := pc } }

def acceptRound (cfg : Config) (s : State) (now accepted : Nat) (evs : List PollEvent)
    (r : AcceptResult) : Option State :=
  if accepted ≥ acceptBatch ∨
      (cfg.maxConnections ≠ 0 ∧ s.connections.length ≥ cfg.maxConnections) then none
  else
    match r with
    | .eagain => if s.world.backlog = 0 then some (s.setPc (.batch evs)) else none
    | .eintr => some (s.setPc (.accepting now (accepted + 1) evs))
    | .error => some (s.setPc (.batch evs))
    | .conn fd ip addOk =>
        if s.world.backlog ≠ 0 ∧ s.world.fds fd = none ∧ fd ≠ cfg.listenFd then
          let id := s.world.accepted
          let s := { s with world := s.world.opened fd }.setPc (.accepting now (accepted + 1) evs)
          let (s, refused) := s.ipGate cfg ip now
          if refused then some { s with world := s.world.close fd id }
          else s.register cfg fd ip id now addOk
        else none

def finishStop (s : State) : Option State :=
  let w := { s.world with outboxStopped := true, pc := .stopped }
  let w := s.connections.foldl (fun w entry => w.close entry.1 entry.2.id) w
  (destroyAll s.pool s.connections).map fun p =>
    { s with world := w, pool := p, connections := [] }

end State

/-! ## The whole system -/

inductive Act where
  /-- time passes -/
  | tick (d : Nat)
  /-- a client connects, sends, closes its side -/
  | connect
  | arrive (fd : Fd) (bs : List UInt8)
  | hangup (fd : Fd)
  /-- the worker threads -/
  | start
  | finish (i : Nat) (o : World.HandlerOutcome)
  | closeRejected (i : Nat)
  /-- the reactor thread -/
  | poll (evs : List PollEvent)
  | pollFailed
  | acceptAll
  | accept (r : AcceptResult)
  | acceptCap
  | event (io : Io)
  | drain (io : Io)
  | drained
  | sweep
  | leave
  | finishStop
  /-- another thread calls `stop` -/
  | stop
  deriving DecidableEq, Repr

/-- One round of the loop body for the reactor thread, from its position in the loop. -/
def loopStep (cfg : Config) (s : State) : Loop → Act → Option State
  | .wait, .poll evs =>
      if s.world.running ∧ evs.length ≤ maxEvents ∧ evs.all (s.world.reports cfg.listenFd) then
        some { s with world := s.world.deliver cfg.listenFd evs }
      else none
  | .wait, .pollFailed => if s.world.running then some s else none
  | .wait, .leave => if s.world.running then none else some (s.setPc .exited)
  | .batch (e :: evs), .acceptAll =>
      if e.fd = cfg.listenFd then some (s.setPc (.accepting s.world.clock 0 evs)) else none
  | .batch (e :: evs), .event io =>
      if e.fd = cfg.listenFd then none
      else (s.setPc (.batch evs)).onClientEvent cfg.allocator e.fd e.mask io
  | .batch [], .drain io =>
      match s.world.outbox with
      | hb :: rest =>
          { s with world := { s.world with outbox := rest } }.drainHandback cfg.allocator hb io
      | [] => none
  | .batch [], .drained => some (s.setPc .sweeping)
  | .accepting now accepted evs, .accept r => s.acceptRound cfg now accepted evs r
  | .accepting _ accepted evs, .acceptCap =>
      if accepted ≥ acceptBatch ∨
          (cfg.maxConnections ≠ 0 ∧ s.connections.length ≥ cfg.maxConnections) then
        some (s.setPc (.batch evs))
      else none
  | .sweeping, .sweep => (s.sweepIdleConnections cfg).map fun s' => (s'.sweepIpRate cfg).setPc .wait
  | .exited, .finishStop => s.finishStop
  | _, _ => none

/-- A step of a client, a worker or the loop, in any order. -/
def step (cfg : Config) (s : State) (a : Act) : Option State :=
  let lift (w : Option World) : Option State := w.map fun w' => { s with world := w' }
  match a with
  | .tick d => some { s with world := { s.world with clock := s.world.clock + d } }
  | .connect =>
      some { s with world := { s.world with backlog := s.world.backlog + 1, listenEdge := true } }
  | .arrive fd bs => lift (s.world.arrive fd bs)
  | .hangup fd => lift (s.world.hangup fd)
  | .start => lift (s.world.start cfg.workers)
  | .finish i o => lift (s.world.finish cfg.outboxSlots i o)
  | .closeRejected i => lift (s.world.closeRejected i)
  | .stop => some { s with world := { s.world with running := false } }
  | _ => loopStep cfg s s.world.pc a

/-! ## Pieces of concrete runs -/

def Config.sample : Config where
  listenFd := 3
  workers := 1
  outboxSlots := 2
  idleTimeout := 30
  maxConnections := 10000
  ipRatePerSec := 0
  allocator := .above
  hash := fun ip => ip.toUInt64
  arenaBase := 64
  blacklistSlots := 2
  blacklistHashes := 1

def acceptAt (fd : Fd) : List Act :=
  [.connect, .poll [⟨3, .Readable⟩], .acceptAll, .accept (.conn fd 1 true), .accept .eagain,
    .drained, .sweep]

def readAt (fd : Fd) (bytes : List UInt8) (reads : List World.ReadResult) : List Act :=
  [.arrive fd bytes, .poll [⟨fd, .Readable⟩], .event { reads := reads }, .drained, .sweep]

def requestAt (fd : Fd) : List Act := readAt fd terminator [.data terminator, .eagain]

end Reactor

end Muses
