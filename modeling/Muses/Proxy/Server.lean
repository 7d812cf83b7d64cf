import Muses.Net.World
import Muses.Proxy.Rewrite

/-!
# `ProxyServer` — the event loop and its client coroutines

The model of `muses/net_components/proxy.hpp`. A client coroutine is a program counter that names
the `co_await` it is in, with the locals that are still needed there; `readUntil`, `readN` and
`writeAllAsync` are the loops of the helpers it awaits. All coroutines run on the loop's thread:
at most one is `active`, and it stays so until it awaits a descriptor or ends.

One label of `step` is one system call of the active coroutine together with the code up to the
next one, one step of the loop between two coroutines, or one event of the network. The results of
system calls are part of the label.

Descriptor numbers are reused, so each connection also has a `ConnId` of its own; the coroutine of
a client is known by the connection it serves. Fields marked as history do not exist in the
program.
-/

namespace Muses.Proxy

open Muses.Core Text Search HttpContext Http Function
open World (ReadResult WriteResult readChunk)

structure Config where
  listenFd : Fd
  routes : List ProxyRoute
  maxRetries : UInt32
  upstreamCooldown : Nat

structure UpstreamHealth where
  healthy : Bool := true
  unhealthySince : Nat := 0
  deriving DecidableEq, Repr

structure Conn where
  upstream : Bool := false
  /-- received and not yet read -/
  rx : Bytes := []
  /-- the peer has closed its side -/
  fin : Bool := false
  /-- history: what the peer has sent and what has been read, since the connection was opened or
  last taken from a pool -/
  sent : Bytes := []
  got : Bytes := []
  deriving DecidableEq, Repr

/-! ## The awaited helpers -/

/-- How a round of a helper's loop ends: with another round, with a suspension, with its result. -/
inductive Round (σ α : Type) where
  | again (s : σ)
  | await (s : σ)
  | done (a : α)
  deriving DecidableEq, Repr

def readUntil (delimiter buf : Bytes) : ReadResult → Round Bytes Bytes
  | .data bs =>
      if (find delimiter (buf ++ bs)).isSome then .done (buf ++ bs) else .again (buf ++ bs)
  | .eof => .done buf
  | .eagain => .await buf
  | .eintr => .again buf
  | .error => .done buf

def readN (n : Nat) (buf : Bytes) : ReadResult → Round Bytes Bytes
  | .data bs => if (buf ++ bs).length < n then .again (buf ++ bs) else .done (buf ++ bs)
  | .eof => .done buf
  | .eagain => .await buf
  | .eintr => .again buf
  | .error => .done buf

def readNLimit (n : Nat) (buf : Bytes) : Nat := min (n - buf.length) readChunk

def writeAllAsync (data : Bytes) (off : Nat) : WriteResult → Round Nat Bool
  | .wrote n => if off + n < data.length then .again (off + n) else .done true
  | .eagain => .await off
  | .eintr => .again off
  | .error => .done false

def lastChunk : Bytes := [48, 13, 10, 13, 10]

def bodyCap : Nat := 16 * 1024 * 1024

/-! ## Client coroutines -/

structure Exchange where
  info : HttpInfo
  route : ProxyRoute
  fwd : Bytes
  deriving DecidableEq

inductive Part where
  /-- `read_until(up_fd, "\r\n")` in the chunked loop -/
  | chunkLine (chunkbuf : Bytes)
  /-- `read_n(up_fd, 4096)` in the chunked loop -/
  | chunk (chunkbuf : Bytes)
  /-- `read_n(up_fd, want)` of a body with a length -/
  | sized (body : Bytes) (want : Nat)
  /-- `read_n(up_fd, 4096)` of a body that ends with the connection -/
  | rest (body : Bytes)
  deriving DecidableEq, Repr

/-- What was collected of the body before this part. -/
def Part.before : Part → Bytes
  | .chunkLine cb => cb
  | .chunk cb => cb
  | .sized body _ => body
  | .rest body => body

/-- Where `serve_client` is, with its local variables. -/
inductive Pc where
  | readHead (buf : Bytes)
  | readBody (info : HttpInfo) (body : Bytes) (want : Nat) (buf : Bytes)
  /-- writing a 502, after which the coroutine ends -/
  | refusing (resp : Bytes) (off : Nat)
  /-- about to call `acquire_upstream` -/
  | acquiring (x : Exchange) (attempt : UInt32)
  | connecting (x : Exchange) (attempt : UInt32) (fd : Fd)
  | forwarding (x : Exchange) (attempt : UInt32) (fd : Fd) (off : Nat)
  | readUpHead (x : Exchange) (attempt : UInt32) (fd : Fd) (buf : Bytes)
  | readUp (x : Exchange) (attempt : UInt32) (fd : Fd) (resp : Bytes) (part : Part) (buf : Bytes)
  | answering (x : Exchange) (resp : Bytes) (off : Nat)
  /-- at its final suspension -/
  | finished
  deriving DecidableEq

/-- The upstream descriptor that the coroutine holds. -/
def Pc.upFd : Pc → Option Fd
  | .connecting _ _ fd => some fd
  | .forwarding _ _ fd _ => some fd
  | .readUpHead _ _ fd _ => some fd
  | .readUp _ _ fd _ _ _ => some fd
  | _ => none

structure Frame where
  client : Fd
  pc : Pc
  /-- suspended until this descriptor is ready -/
  waiting : Option Fd := none
  /-- history: the number of requests answered before the current one -/
  index : Nat := 0
  deriving DecidableEq

/-- One attempt to send a request upstream: which request of the client it was, and what has been
written so far. -/
structure Forward where
  index : Nat
  text : Bytes
  deriving DecidableEq, Repr

def Forward.extend (bs : Bytes) : List Forward → List Forward
  | g :: gs => { g with text := g.text ++ bs } :: gs
  | [] => []

/-! ## The state -/

structure Event where
  fd : Fd
  mask : EventMask
  userdata : Option ConnId
  deriving DecidableEq, Repr

inductive Loop where
  | wait
  | batch (evs : List Event)
  /-- inside `accept_clients`, after `accepted` rounds -/
  | accepting (accepted : Nat) (evs : List Event)
  /-- the first `resume` of the coroutine just created -/
  | spawning (id : ConnId) (accepted : Nat) (evs : List Event)
  | exited
  | stopped
  deriving DecidableEq, Repr

structure State where
  /-- `steady_clock`, in nanoseconds -/
  clock : Nat
  /-- connections waiting to be accepted -/
  backlog : Nat
  fds : Fd → Option ConnId
  conns : ConnId → Conn
  /-- history: connections opened so far, by `accept` and by `connect` -/
  opened : Nat
  /-- the poller's registrations -/
  interest : Fd → Option (EventMask × ConnId)
  /-- frames that have not been destroyed, and the one that runs -/
  frames : ConnId → Option Frame
  active : Option ConnId
  liveTasks : Fd → Option ConnId
  pools : Bytes → List Fd
  health : Bytes → UpstreamHealth
  running : Bool
  pc : Loop
  /-- history: the attempts made for each client, the newest first -/
  forwards : ConnId → List Forward

/-- Right after `start`. -/
def State.init : State where
  clock := 0
  backlog := 0
  fds := fun _ => none
  conns := fun _ => {}
  opened := 0
  interest := fun _ => none
  frames := fun _ => none
  active := none
  liveTasks := fun _ => none
  pools := fun _ => []
  health := fun _ => {}
  running := true
  pc := .wait
  forwards := fun _ => []

namespace State

/-! ## System calls -/

def setConn (s : State) (c : ConnId) (k : Conn) : State :=
  { s with conns := update s.conns c k }

/-- `read(fd, chunk, limit)`. The kernel hands out a nonempty piece of what has arrived, says
`EAGAIN` only when there is nothing to read, and reports the end of the stream only behind the
last byte. An error is possible at any time, and is all that a closed descriptor gives. -/
def sysRead (s : State) (fd : Fd) (limit : Nat) (r : ReadResult) : Option State :=
  match s.fds fd, r with
  | some c, .data bs =>
      let k := s.conns c
      if bs ≠ [] ∧ bs.length ≤ limit ∧ bs <+: k.rx then
        some (s.setConn c { k with rx := k.rx.drop bs.length, got := k.got ++ bs })
      else none
  | some c, .eof => if (s.conns c).rx = [] ∧ (s.conns c).fin then some s else none
  | some c, .eagain => if (s.conns c).rx = [] ∧ (s.conns c).fin = false then some s else none
  | some _, .eintr => some s
  | _, .error => some s
  | none, _ => none

def writeAllowed (s : State) (fd : Fd) (data : Bytes) : WriteResult → Bool
  | .wrote n => (s.fds fd).isSome && decide (0 < n) && decide (n ≤ data.length)
  | .error => true
  | _ => (s.fds fd).isSome

def close (s : State) (fd : Fd) : State :=
  { s with
    fds := update s.fds fd none
    interest := update s.interest fd none }

def openConn (s : State) (fd : Fd) (upstream : Bool) : State :=
  { s with
    fds := update s.fds fd (some s.opened)
    conns := update s.conns s.opened { upstream := upstream }
    opened := s.opened + 1 }

/-! ## Moving a coroutine -/

def goto (s : State) (id : ConnId) (f : Frame) (pc : Pc) : State :=
  { s with frames := update s.frames id (some { f with pc := pc }) }

def finish (s : State) (id : ConnId) (f : Frame) : State :=
  { s.goto id f .finished with active := none }

/-- `co_await IoAwaiter{poller, fd, mask}`. The kernel refuses a descriptor that is registered
already; the coroutine is suspended in any case. -/
def awaitIo (s : State) (id : ConnId) (f : Frame) (fd : Fd) (mask : EventMask) (addOk : Bool)
    (pc : Pc) : State :=
  { s with
    frames := update s.frames id (some { f with pc := pc, waiting := some fd })
    active := none
    interest :=
      if addOk ∧ (s.fds fd).isSome ∧ s.interest fd = none then
        update s.interest fd (some (mask, id))
      else s.interest }

def proceed {σ α : Type} (s : State) (id : ConnId) (f : Frame) (fd : Fd) (mask : EventMask)
    (addOk : Bool) (pc : σ → Pc) (k : State → α → State) : Round σ α → State
  | .again v => s.goto id f (pc v)
  | .await v => s.awaitIo id f fd mask addOk (pc v)
  | .done a => k s a

/-! ## Pools and health -/

def releaseUpstream (s : State) (key : Bytes) (fd : Fd) (reusable : Bool) : State :=
  if reusable then
    if (s.pools key).length ≥ 64 then s.close fd
    else { s with pools := update s.pools key (s.pools key ++ [fd]) }
  else s.close fd

def isHealthy (cfg : Config) (s : State) (key : Bytes) : Bool × State :=
  let h := s.health key
  if h.healthy then (true, s)
  else if s.clock - h.unhealthySince > cfg.upstreamCooldown then
    (true, { s with health := update s.health key { h with healthy := true } })
  else (false, s)

def markUnhealthy (s : State) (key : Bytes) : State :=
  { s with health := update s.health key ⟨false, s.clock⟩ }

/-! ## `serve_client`, from one system call to the next -/

def refuse (s : State) (id : ConnId) (f : Frame) (reason : String) : State :=
  s.goto id f (.refusing
    (buildResponse 502 (ascii "Bad Gateway") (ascii "text/plain") (ascii reason) false) 0)

def beginAttempt (cfg : Config) (s : State) (id : ConnId) (f : Frame) (x : Exchange)
    (attempt : UInt32) : State :=
  if attempt ≤ cfg.maxRetries then s.goto id f (.acquiring x attempt)
  else s.refuse id f "upstream failed"

def failAttempt (cfg : Config) (s : State) (id : ConnId) (f : Frame) (x : Exchange)
    (attempt : UInt32) : State :=
  (s.markUnhealthy x.route.key).beginAttempt cfg id f x (attempt + 1)

def afterBody (cfg : Config) (s : State) (id : ConnId) (f : Frame) (info : HttpInfo)
    (body : Bytes) : State :=
  match selectRoute cfg.routes info.url with
  | none => s.refuse id f "no route"
  | some route =>
      let (healthy, s) := s.isHealthy cfg route.key
      if healthy then s.beginAttempt cfg id f ⟨info, route, fwdRequest info body⟩ 0
      else s.refuse id f "upstream unavailable"

/-- `read_until` has returned `head`. Everything behind the empty line counts as body. Entering
`read_n` may throw in `reserve`, and the exception ends the coroutine. -/
def afterHead (cfg : Config) (s : State) (id : ConnId) (f : Frame) (head : Bytes)
    (reserveOk : Bool) : State :=
  match find blankLine head with
  | none => s.finish id f
  | some pos =>
      let info := parseRequest head
      let bodyLen := bodyLength (headerGet info.headers contentLength)
      let body := head.drop (pos + 4)
      if body.length < bodyLen then
        if reserveOk then s.goto id f (.readBody info body (bodyLen - body.length) [])
        else s.finish id f
      else s.afterBody cfg id f info body

def startForward (s : State) (id : ConnId) (f : Frame) (x : Exchange) (attempt : UInt32)
    (fd : Fd) : State :=
  { s with forwards := update s.forwards id (⟨f.index, []⟩ :: s.forwards id) }.goto id f
    (.forwarding x attempt fd 0)

def afterResponse (s : State) (id : ConnId) (f : Frame) (x : Exchange) (fd : Fd) (resp : Bytes) :
    State :=
  (s.releaseUpstream x.route.key fd true).goto id f (.answering x resp 0)

def enterReadN (s : State) (id : ConnId) (f : Frame) (x : Exchange) (attempt : UInt32) (fd : Fd)
    (resp : Bytes) (part : Part) (reserveOk : Bool) : State :=
  if reserveOk then s.goto id f (.readUp x attempt fd resp part []) else s.finish id f

def chunkLoop (s : State) (id : ConnId) (f : Frame) (x : Exchange) (attempt : UInt32) (fd : Fd)
    (resp chunkbuf : Bytes) (reserveOk : Bool) : State :=
  if (find lastChunk chunkbuf).isSome then s.afterResponse id f x fd (resp ++ chunkbuf)
  else if (find crlf chunkbuf).isNone then
    s.goto id f (.readUp x attempt fd resp (.chunkLine chunkbuf) [])
  else s.enterReadN id f x attempt fd resp (.chunk chunkbuf) reserveOk

def afterUpHead (cfg : Config) (s : State) (id : ConnId) (f : Frame) (x : Exchange)
    (attempt : UInt32) (fd : Fd) (head : Bytes) (reserveOk : Bool) : State :=
  match find blankLine head with
  | none => (s.close fd).failAttempt cfg id f x attempt
  | some pos =>
      let info := parseRequest head
      let resp := head.take (pos + 4)
      let body := head.drop (pos + 4)
      let te := headerGet info.headers transferEncoding
      let cl := headerGet info.headers contentLength
      if (find (ascii "chunked") te).isSome then
        s.chunkLoop id f x attempt fd resp body reserveOk
      else if cl ≠ [] then
        if body.length < bodyLength cl then
          s.enterReadN id f x attempt fd resp (.sized body (bodyLength cl - body.length)) reserveOk
        else s.afterResponse id f x fd (resp ++ body)
      else s.enterReadN id f x attempt fd resp (.rest body) reserveOk

def afterPart (s : State) (id : ConnId) (f : Frame) (x : Exchange) (attempt : UInt32) (fd : Fd)
    (resp : Bytes) (part : Part) (reserveOk : Bool) (more : Bytes) : State :=
  match part with
  | .chunkLine cb => s.chunkLoop id f x attempt fd resp (cb ++ more) reserveOk
  | .chunk cb =>
      if more = [] then s.afterResponse id f x fd (resp ++ cb)
      else if (cb ++ more).length > bodyCap then s.afterResponse id f x fd (resp ++ (cb ++ more))
      else s.chunkLoop id f x attempt fd resp (cb ++ more) reserveOk
  | .sized body _ => s.afterResponse id f x fd (resp ++ (body ++ more))
  | .rest body =>
      if more = [] then s.afterResponse id f x fd (resp ++ body)
      else if (body ++ more).length > bodyCap then
        s.afterResponse id f x fd (resp ++ (body ++ more))
      else s.enterReadN id f x attempt fd resp (.rest (body ++ more)) reserveOk

def afterAnswer (s : State) (id : ConnId) (f : Frame) (x : Exchange) (ok : Bool) : State :=
  if ok && x.info.wantsKeepAlive then s.goto id { f with index := f.index + 1 } (.readHead [])
  else s.finish id f

end State

def Part.limit : Part → Bytes → Nat
  | .chunkLine _, _ => readChunk
  | .sized _ want, buf => readNLimit want buf
  | .chunk _, buf => readNLimit 4096 buf
  | .rest _, buf => readNLimit 4096 buf

def Part.round : Part → Bytes → ReadResult → Round Bytes Bytes
  | .chunkLine _, buf => readUntil crlf buf
  | .sized _ want, buf => readN want buf
  | .chunk _, buf => readN 4096 buf
  | .rest _, buf => readN 4096 buf

inductive ConnectResult where
  | noSocket
  | refused
  | connected (fd : Fd)
  | inProgress (fd : Fd)
  deriving DecidableEq, Repr

inductive Call where
  | read (r : ReadResult)
  | write (r : WriteResult)
  /-- `acquire_upstream` finds a pooled descriptor -/
  | reuse
  | connect (r : ConnectResult)
  /-- `getsockopt(SO_ERROR)` after the wait -/
  | connectDone (ok : Bool)
  deriving DecidableEq, Repr

/-- A system call of the active coroutine; whether the poller takes its descriptor if it suspends,
and whether there is memory if it enters `read_n`. -/
structure Io where
  call : Call
  addOk : Bool := true
  reserveOk : Bool := true
  deriving DecidableEq, Repr

namespace State

def openUpstream (cfg : Config) (s : State) (fd : Fd) : Option State :=
  if s.fds fd = none ∧ fd ≠ cfg.listenFd then some (s.openConn fd true) else none

def newRound (s : State) (fd : Fd) : State :=
  { s with
    conns := fun c =>
      if s.fds fd = some c then { s.conns c with sent := [], got := [] } else s.conns c }

def acquireUpstream (cfg : Config) (s : State) (id : ConnId) (f : Frame) (x : Exchange)
    (attempt : UInt32) (io : Io) : Option State :=
  match s.pools x.route.key, io.call with
  | fd :: rest, .reuse =>
      let s := { s with pools := update s.pools x.route.key rest }
      some ((s.newRound fd).startForward id f x attempt fd)
  | [], .connect .noSocket => some (s.failAttempt cfg id f x attempt)
  | [], .connect .refused => some (s.failAttempt cfg id f x attempt)
  | [], .connect (.connected fd) =>
      (s.openUpstream cfg fd).map fun s => s.startForward id f x attempt fd
  | [], .connect (.inProgress fd) =>
      (s.openUpstream cfg fd).map fun s =>
        s.awaitIo id f fd .Writable io.addOk (.connecting x attempt fd)
  | _, _ => none

def logForward (s : State) (id : ConnId) (bs : Bytes) : State :=
  { s with forwards := update s.forwards id (Forward.extend bs (s.forwards id)) }

def forwardRound (cfg : Config) (s : State) (id : ConnId) (f : Frame) (x : Exchange)
    (attempt : UInt32) (fd : Fd) (off : Nat) (r : WriteResult) (addOk : Bool) : Option State :=
  if s.writeAllowed fd (x.fwd.drop off) r then
    let s :=
      match r with
      | .wrote n => s.logForward id ((x.fwd.drop off).take n)
      | _ => s
    some <| s.proceed id f fd .Writable addOk (.forwarding x attempt fd)
      (fun s ok =>
        if ok then s.goto id f (.readUpHead x attempt fd [])
        else (s.close fd).failAttempt cfg id f x attempt)
      (writeAllAsync x.fwd off r)
  else none

def answerRound (s : State) (id : ConnId) (f : Frame) (data : Bytes) (off : Nat)
    (r : WriteResult) (addOk : Bool) (pc : Nat → Pc) (k : State → Bool → State) : Option State :=
  if s.writeAllowed f.client (data.drop off) r then
    some (s.proceed id f f.client .Writable addOk pc k (writeAllAsync data off r))
  else none

def runFrame (cfg : Config) (s : State) (id : ConnId) (f : Frame) (io : Io) : Option State :=
  match f.pc, io.call with
  | .readHead buf, .read r =>
      (s.sysRead f.client readChunk r).map fun s =>
        s.proceed id f f.client .Readable io.addOk .readHead
          (fun s head => s.afterHead cfg id f head io.reserveOk) (readUntil blankLine buf r)
  | .readBody info body want buf, .read r =>
      (s.sysRead f.client (readNLimit want buf) r).map fun s =>
        s.proceed id f f.client .Readable io.addOk (.readBody info body want)
          (fun s rest => s.afterBody cfg id f info (body ++ rest)) (readN want buf r)
  | .refusing resp off, .write r =>
      s.answerRound id f resp off r io.addOk (.refusing resp) fun s _ => s.finish id f
  | .acquiring x attempt, _ => s.acquireUpstream cfg id f x attempt io
  | .connecting x attempt fd, .connectDone ok =>
      some (if ok then s.startForward id f x attempt fd
        else (s.close fd).failAttempt cfg id f x attempt)
  | .forwarding x attempt fd off, .write r =>
      s.forwardRound cfg id f x attempt fd off r io.addOk
  | .readUpHead x attempt fd buf, .read r =>
      (s.sysRead fd readChunk r).map fun s =>
        s.proceed id f fd .Readable io.addOk (.readUpHead x attempt fd)
          (fun s head => s.afterUpHead cfg id f x attempt fd head io.reserveOk)
          (readUntil blankLine buf r)
  | .readUp x attempt fd resp part buf, .read r =>
      (s.sysRead fd (part.limit buf) r).map fun s =>
        s.proceed id f fd .Readable io.addOk (.readUp x attempt fd resp part)
          (fun s more => s.afterPart id f x attempt fd resp part io.reserveOk more)
          (part.round buf r)
  | .answering x resp off, .write r =>
      s.answerRound id f resp off r io.addOk (.answering x resp) fun s ok =>
        s.afterAnswer id f x ok
  | _, _ => none

/-! ## The loop -/

def setLoop (s : State) (pc : Loop) : State := { s with pc := pc }

/-- An event the poller may report: one on the listening descriptor, or a hangup or readiness
that a registration asks for. -/
def reports (cfg : Config) (s : State) (e : Fd × EventMask) : Bool :=
  e.1 = cfg.listenFd ||
    match s.interest e.1 with
    | some (m, _) =>
        e.2.closed || ((!e.2.readable || m.readable) && (!e.2.writable || m.writable))
    | none => false

def toEvent (s : State) (e : Fd × EventMask) : Event :=
  ⟨e.1, e.2, (s.interest e.1).map Prod.snd⟩

/-- `resume_handle`: the registration is removed, then the coroutine runs. Resuming one that is
not suspended, or that is gone, is undefined. -/
def resumeHandle (s : State) (fd : Fd) (id : ConnId) : Option State :=
  match s.frames id with
  | some f =>
      if f.waiting.isSome then
        some { s with
          interest := update s.interest fd none
          frames := update s.frames id (some { f with waiting := none })
          active := some id }
      else none
  | none => none

def spawn (s : State) (fd : Fd) (accepted : Nat) (evs : List Event) : State :=
  let id := s.opened
  { s.openConn fd false with
    backlog := s.backlog - 1
    frames := update s.frames id (some { client := fd, pc := .readHead [] })
    active := some id
    pc := .spawning id accepted evs }

def destroyTask (s : State) (task : Option ConnId) : State :=
  match task with
  | some id => { s with frames := update s.frames id none }
  | none => s

/-- The first `resume` has returned: a finished coroutine is dropped and its descriptor closed,
another one becomes a live task. -/
def spawned (s : State) (id : ConnId) : Option State :=
  (s.frames id).map fun f =>
    if f.pc = .finished then (s.close f.client).destroyTask (some id)
    else
      let s := s.destroyTask (s.liveTasks f.client)
      { s with liveTasks := update s.liveTasks f.client (some id) }

def isDone (s : State) (id : ConnId) : Bool :=
  match s.frames id with
  | some f => f.pc = .finished
  | none => false

def reapFinishedTasks (s : State) : State :=
  { s with
    liveTasks := fun fd => (s.liveTasks fd).filter fun id => !s.isDone id
    frames := fun id =>
      (s.frames id).filter fun f => !(s.isDone id && s.liveTasks f.client = some id) }

def finishStop (cfg : Config) (s : State) : State :=
  let pooled (fd : Fd) : Bool := cfg.routes.any fun r => (s.pools r.key).contains fd
  { s with
    frames := fun id => (s.frames id).filter fun f => !(s.liveTasks f.client = some id)
    liveTasks := fun _ => none
    fds := fun fd => if pooled fd then none else s.fds fd
    interest := fun fd => if pooled fd then none else s.interest fd
    pools := fun _ => []
    pc := .stopped }

end State

inductive AcceptResult where
  | conn (fd : Fd)
  | eagain
  | eintr
  | error
  deriving DecidableEq, Repr

def maxEvents : Nat := 128

def acceptBatch : Nat := 128

inductive Act where
  /-- time passes -/
  | tick (d : Nat)
  /-- a client connects; the peer of `fd` sends, or closes its side -/
  | connect
  | arrive (fd : Fd) (bs : Bytes)
  | hangup (fd : Fd)
  /-- the active coroutine -/
  | run (io : Io)
  /-- the loop -/
  | poll (evs : List (Fd × EventMask))
  | pollFailed
  | acceptClients
  | accept (r : AcceptResult)
  | acceptCap
  | spawned
  | resume
  | skip
  | reap
  | leave
  | finishStop
  /-- another thread calls `stop` -/
  | stop
  deriving DecidableEq, Repr

/-- One step of the loop while no coroutine runs. -/
def loopStep (cfg : Config) (s : State) : Loop → Act → Option State
  | .wait, .poll evs =>
      if s.running ∧ evs.length ≤ maxEvents ∧ (evs.map Prod.fst).Nodup ∧ evs.all (s.reports cfg)
      then some (s.setLoop (.batch (evs.map s.toEvent)))
      else none
  | .wait, .pollFailed => if s.running then some s else none
  | .wait, .leave => if s.running then none else some (s.setLoop .exited)
  | .batch (e :: evs), .acceptClients =>
      if e.fd = cfg.listenFd ∧ e.userdata = none then some (s.setLoop (.accepting 0 evs)) else none
  | .batch (e :: evs), .resume =>
      match e.userdata with
      | some id => (s.setLoop (.batch evs)).resumeHandle e.fd id
      | none => none
  | .batch (e :: evs), .skip =>
      if e.fd ≠ cfg.listenFd ∧ e.userdata = none then some (s.setLoop (.batch evs)) else none
  | .batch [], .reap => some (s.reapFinishedTasks.setLoop .wait)
  | .accepting accepted evs, .accept r =>
      if accepted < acceptBatch then
        match r with
        | .eagain => if s.backlog = 0 then some (s.setLoop (.batch evs)) else none
        | .eintr => some (s.setLoop (.accepting (accepted + 1) evs))
        | .error => some (s.setLoop (.batch evs))
        | .conn fd =>
            if s.backlog ≠ 0 ∧ s.fds fd = none ∧ fd ≠ cfg.listenFd then
              some (s.spawn fd (accepted + 1) evs)
            else none
      else none
  | .accepting accepted evs, .acceptCap =>
      if accepted < acceptBatch then none else some (s.setLoop (.batch evs))
  | .spawning id accepted evs, .spawned =>
      (s.spawned id).map fun s => s.setLoop (.accepting accepted evs)
  | .exited, .finishStop => some (s.finishStop cfg)
  | _, _ => none

def State.arrive (s : State) (fd : Fd) (bs : Bytes) : Option State :=
  (s.fds fd).bind fun c =>
    let k := s.conns c
    if bs ≠ [] ∧ k.fin = false then
      some (s.setConn c { k with rx := k.rx ++ bs, sent := k.sent ++ bs })
    else none

def State.hangup (s : State) (fd : Fd) : Option State :=
  (s.fds fd).map fun c => s.setConn c { s.conns c with fin := true }

/-- A step of a peer, the loop or the coroutine that is running. -/
def step (cfg : Config) (s : State) (a : Act) : Option State :=
  match a with
  | .tick d => some { s with clock := s.clock + d }
  | .connect => some { s with backlog := s.backlog + 1 }
  | .arrive fd bs => s.arrive fd bs
  | .hangup fd => s.hangup fd
  | .stop => some { s with running := false }
  | .run io =>
      s.active.bind fun id => (s.frames id).bind fun f => s.runFrame cfg id f io
  | a => if s.active = none then loopStep cfg s s.pc a else none

/-! ## Pieces of concrete runs -/

def Config.sample : Config where
  listenFd := 3
  routes := [⟨ascii "/", ascii "up", 80⟩]
  maxRetries := 0
  upstreamCooldown := 10

def acceptClient : List Act :=
  [.connect, .poll [(3, .Readable)], .acceptClients, .accept (.conn 4)]

def waitsForRequest : List Act :=
  acceptClient ++ [.run { call := .read .eagain }, .spawned, .accept .eagain, .reap]

def Act.reads (bs : Bytes) : Act := .run { call := .read (.data bs) }

def Act.writes (n : Nat) : Act := .run { call := .write (.wrote n) }

def Act.connects (fd : Fd) : Act := .run { call := .connect (.connected fd) }

end Muses.Proxy
