import Muses.Proxy.Server

/-!
# The protocol of the proxy's coroutines

The proxy seen without its event loop: descriptors and the connections behind them, the client
coroutines, the pools. A `Move` is one thing that can happen to a `View`: a peer sends or closes,
a coroutine is created or destroyed, reads or writes a piece, goes on to its next `co_await`, takes
a connection from a pool or puts one there. `Muses.Proxy.Refinement` shows that every step of the
proxy is a sequence of moves; the properties of the proxy are then invariants of moves.

* `Turn` — the transitions of a coroutine that touch no descriptor;
* `Complete` — when a coroutine takes a response for complete.
-/

namespace Muses.Proxy

open Muses.Core Text Search HttpContext Http Function
open World (readChunk)

/-! ## Program counters -/

namespace Pc

def exchange : Pc → Option Exchange
  | .acquiring x _ => some x
  | .connecting x _ _ => some x
  | .forwarding x _ _ _ => some x
  | .readUpHead x _ _ _ => some x
  | .readUp x _ _ _ _ _ => some x
  | .answering x _ _ => some x
  | _ => none

def taken : Pc → Bytes
  | .readUpHead _ _ _ buf => buf
  | .readUp _ _ _ resp part buf => resp ++ (part.before ++ buf)
  | _ => []

def answer : Pc → Option Bytes
  | .answering _ resp _ => some resp
  | _ => none

def push (bs : Bytes) : Pc → Pc
  | .readHead buf => .readHead (buf ++ bs)
  | .readBody info body want buf => .readBody info body want (buf ++ bs)
  | .readUpHead x attempt fd buf => .readUpHead x attempt fd (buf ++ bs)
  | .readUp x attempt fd resp part buf => .readUp x attempt fd resp part (buf ++ bs)
  | pc => pc

def limit : Pc → Nat
  | .readHead _ => readChunk
  | .readBody _ _ want buf => readNLimit want buf
  | .readUpHead _ _ _ _ => readChunk
  | .readUp _ _ _ _ part buf => part.limit buf
  | _ => 0

def source (client : Fd) : Pc → Option Fd
  | .readHead _ => some client
  | .readBody _ _ _ _ => some client
  | .readUpHead _ _ fd _ => some fd
  | .readUp _ _ fd _ _ _ => some fd
  | _ => none

@[simp] theorem upFd_push (bs : Bytes) (pc : Pc) : (pc.push bs).upFd = pc.upFd := by
  cases pc <;> rfl

theorem source_cases {client fd : Fd} {pc : Pc} (h : pc.source client = some fd) :
    (client = fd ∧ pc.upFd = none) ∨ pc.upFd = some fd := by
  cases pc with
  | readHead | readBody => exact .inl ⟨Option.some.inj h, rfl⟩
  | readUpHead | readUp => exact .inr h
  | _ => cases h

theorem taken_push {client fd : Fd} {pc : Pc} (bs : Bytes) (hsrc : pc.source client = some fd)
    (hup : pc.upFd = some fd) : (pc.push bs).taken = pc.taken ++ bs := by
  cases pc <;> simp_all [source, upFd, push, taken]

end Pc

/-! ## Views -/

structure Task where
  client : Fd
  pc : Pc
  index : Nat
  deriving DecidableEq

def Frame.task (f : Frame) : Task := ⟨f.client, f.pc, f.index⟩

/-- The proxy without its poller and clock: connections, coroutines and pools. -/
structure View where
  fds : Fd → Option ConnId
  conns : ConnId → Conn
  opened : Nat
  tasks : ConnId → Option Task
  pools : Bytes → List Fd
  forwards : ConnId → List Forward

def State.view (s : State) : View where
  fds := s.fds
  conns := s.conns
  opened := s.opened
  tasks := Option.map Frame.task ∘ s.frames
  pools := s.pools
  forwards := s.forwards

namespace View

@[simps]
def init : View where
  fds _ := none
  conns _ := {}
  opened := 0
  tasks _ := none
  pools _ := []
  forwards _ := []

@[simps]
def set (v : View) (id : ConnId) (t : Task) : View :=
  { v with tasks := update v.tasks id (some t) }

@[simps]
def setConn (v : View) (c : ConnId) (k : Conn) : View :=
  { v with conns := update v.conns c k }

@[simps]
def close (v : View) (fd : Fd) : View := { v with fds := update v.fds fd none }

@[simps]
def openConn (v : View) (fd : Fd) (upstream : Bool) : View :=
  { v with
    fds := update v.fds fd (some v.opened)
    conns := update v.conns v.opened { upstream := upstream }
    opened := v.opened + 1 }

@[simps]
def setPool (v : View) (key : Bytes) (fds : List Fd) : View :=
  { v with pools := update v.pools key fds }

@[simps]
def setForwards (v : View) (id : ConnId) (gs : List Forward) : View :=
  { v with forwards := update v.forwards id gs }

@[simps]
def newRound (v : View) (fd : Fd) : View :=
  { v with
    conns := fun c =>
      if v.fds fd = some c then { v.conns c with sent := [], got := [] } else v.conns c }

@[simps]
def reap (v : View) (keep : ConnId → Bool) : View :=
  { v with tasks := fun id => if keep id then v.tasks id else none }

@[simps]
def stop (v : View) (pooled : Fd → Bool) : View :=
  { v with
    fds := fun fd => if pooled fd then none else v.fds fd
    pools := fun _ => [] }

def held (v : View) (id : ConnId) : Option Fd := (v.tasks id).bind fun t => t.pc.upFd

/-- The peer has closed, and everything is read. -/
def AtEnd (v : View) (fd : Fd) : Prop :=
  ∃ c, v.fds fd = some c ∧ (v.conns c).rx = [] ∧ (v.conns c).fin = true

end View

/-! ## Moves -/

/-- What is assumed about a run, beyond that it is one: what the peers send, how they close, what
a `read` of a coroutine returns, and when it may meet the end of the stream or fail. -/
structure Assume where
  arrive : View → Fd → Bytes → Prop := fun _ _ _ => True
  hangup : View → Fd → Prop := fun _ _ => True
  read : View → ConnId → Bytes → Prop := fun _ _ _ => True
  eof : View → ConnId → Prop := fun _ _ => True
  error : View → ConnId → Prop := fun _ _ => True

def announced (head : Bytes) : Nat :=
  bodyLength (headerGet (parseRequest head).headers contentLength)

def isChunked (head : Bytes) : Bool :=
  (find (ascii "chunked") (headerGet (parseRequest head).headers transferEncoding)).isSome

def isSized (head : Bytes) : Bool :=
  !isChunked head && decide (headerGet (parseRequest head).headers contentLength ≠ [])

def View.Ended (v : View) (A : Assume) (id : ConnId) (fd : Fd) : Prop :=
  (v.AtEnd fd ∧ A.eof v id) ∨ A.error v id

/-- How the rest of a response is read behind its head. -/
inductive Plan (head body : Bytes) : Part → Prop where
  | chunkLine (hchunked : isChunked head = true) (hlast : find lastChunk body = none) :
      Plan head body (.chunkLine body)
  | chunk (hchunked : isChunked head = true) (hlast : find lastChunk body = none)
      (hline : (find crlf body).isSome) : Plan head body (.chunk body)
  | sized (hsized : isSized head = true) (hlen : body.length < announced head) :
      Plan head body (.sized body (announced head - body.length))
  | rest (hchunked : isChunked head = false) (hsized : isSized head = false) :
      Plan head body (.rest body)

/-- What becomes of a part with more bytes. -/
inductive Part.Next (more : Bytes) : Part → Part → Prop where
  | chunkLine {part : Part} {cb : Bytes} (hpart : part = .chunkLine cb ∨ part = .chunk cb)
      (hlast : find lastChunk (cb ++ more) = none) : Next more part (.chunkLine (cb ++ more))
  | chunk {part : Part} {cb : Bytes} (hpart : part = .chunkLine cb ∨ part = .chunk cb)
      (hlast : find lastChunk (cb ++ more) = none) (hline : (find crlf (cb ++ more)).isSome) :
      Next more part (.chunk (cb ++ more))
  | rest {body : Bytes} : Next more (.rest body) (.rest (body ++ more))

/-- Where a coroutine may go. -/
inductive Turn (A : Assume) (v : View) (id : ConnId) (t : Task) : Pc → Prop where
  | finish : Turn A v id t .finished
  | refuse (resp : Bytes) (off : Nat) : Turn A v id t (.refusing resp off)
  | wantBody {head : Bytes} {pos : Nat} (hpc : t.pc = .readHead head)
      (hpos : find blankLine head = some pos)
      (hlen : (head.drop (pos + 4)).length < announced head) :
      Turn A v id t (.readBody (parseRequest head) (head.drop (pos + 4))
        (announced head - (head.drop (pos + 4)).length) [])
  | routeHead {head : Bytes} {pos : Nat} (route : ProxyRoute) (hpc : t.pc = .readHead head)
      (hpos : find blankLine head = some pos)
      (hlen : announced head ≤ (head.drop (pos + 4)).length) :
      Turn A v id t (.acquiring
        ⟨parseRequest head, route, fwdRequest (parseRequest head) (head.drop (pos + 4))⟩ 0)
  | routeBody {info : HttpInfo} {body buf : Bytes} {want : Nat} (route : ProxyRoute)
      (hpc : t.pc = .readBody info body want buf)
      (hend : want ≤ buf.length ∨ v.Ended A id t.client) :
      Turn A v id t (.acquiring ⟨info, route, fwdRequest info (body ++ buf)⟩ 0)
  | retry {x : Exchange} {a : UInt32} (a' : UInt32) (hpc : t.pc = .acquiring x a) :
      Turn A v id t (.acquiring x a')
  | written {x : Exchange} {a : UInt32} {fd : Fd} {off : Nat} (hpc : t.pc = .forwarding x a fd off)
      (hoff : x.fwd.length ≤ off) : Turn A v id t (.readUpHead x a fd [])
  | plan {x : Exchange} {a : UInt32} {fd : Fd} {head : Bytes} {pos : Nat} {part : Part}
      (hpc : t.pc = .readUpHead x a fd head) (hpos : find blankLine head = some pos)
      (hplan : Plan head (head.drop (pos + 4)) part) :
      Turn A v id t (.readUp x a fd (head.take (pos + 4)) part [])
  | nextPart {x : Exchange} {a : UInt32} {fd : Fd} {resp buf : Bytes} {part part' : Part}
      (hpc : t.pc = .readUp x a fd resp part buf) (hnext : Part.Next buf part part') :
      Turn A v id t (.readUp x a fd resp part' [])
  | answer {x : Exchange} {resp : Bytes} {off : Nat} (off' : Nat)
      (hpc : t.pc = .answering x resp off) : Turn A v id t (.answering x resp off')

/-- The response has been read to what the proxy takes for its end. -/
inductive Complete (A : Assume) (v : View) (id : ConnId) : Pc → Prop where
  | chunkedHead {x : Exchange} {a : UInt32} {fd : Fd} {head : Bytes} {pos : Nat}
      (hpos : find blankLine head = some pos) (hchunked : isChunked head = true)
      (hlast : (find lastChunk (head.drop (pos + 4))).isSome) :
      Complete A v id (.readUpHead x a fd head)
  | sizedHead {x : Exchange} {a : UInt32} {fd : Fd} {head : Bytes} {pos : Nat}
      (hpos : find blankLine head = some pos) (hsized : isSized head = true)
      (hlen : announced head ≤ (head.drop (pos + 4)).length) :
      Complete A v id (.readUpHead x a fd head)
  | lastChunkRead {x : Exchange} {a : UInt32} {fd : Fd} {resp cb buf : Bytes} {part : Part}
      (hpart : part = .chunkLine cb ∨ part = .chunk cb)
      (hlast : (find lastChunk (cb ++ buf)).isSome) :
      Complete A v id (.readUp x a fd resp part buf)
  | sized {x : Exchange} {a : UInt32} {fd : Fd} {resp body buf : Bytes} {want : Nat}
      (hend : want ≤ buf.length ∨ v.Ended A id fd) :
      Complete A v id (.readUp x a fd resp (.sized body want) buf)
  /-- nothing more came -/
  | dry {x : Exchange} {a : UInt32} {fd : Fd} {resp before : Bytes} {part : Part}
      (hpart : part = .chunk before ∨ part = .rest before) (hend : v.Ended A id fd) :
      Complete A v id (.readUp x a fd resp part [])
  /-- the safety cap -/
  | cap {x : Exchange} {a : UInt32} {fd : Fd} {resp before buf : Bytes} {part : Part}
      (hpart : part = .chunk before ∨ part = .rest before)
      (hcap : bodyCap < (before ++ buf).length) :
      Complete A v id (.readUp x a fd resp part buf)

/-- The proxy as its connections see it: peers, loop and coroutines. -/
inductive Move (cfg : Config) (A : Assume) : View → View → Prop where
  -- the peers
  | arrive {v : View} {fd : Fd} {c : ConnId} {bs : Bytes} (hfd : v.fds fd = some c) (hne : bs ≠ [])
      (hopen : (v.conns c).fin = false) (hA : A.arrive v fd bs) :
      Move cfg A v (v.setConn c { v.conns c with
        rx := (v.conns c).rx ++ bs, sent := (v.conns c).sent ++ bs })
  | hangup {v : View} {fd : Fd} {c : ConnId} (hfd : v.fds fd = some c) (hA : A.hangup v fd) :
      Move cfg A v (v.setConn c { v.conns c with fin := true })
  -- the loop
  | spawn {v : View} (fd : Fd) (hfd : v.fds fd = none) (hlisten : fd ≠ cfg.listenFd) :
      Move cfg A v ((v.openConn fd false).set v.opened ⟨fd, .readHead [], 0⟩)
  | discard {v : View} {id : ConnId} {t : Task} (hid : v.tasks id = some t) :
      Move cfg A v ((v.close t.client).reap (· ≠ id))
  | reap {v : View} (keep : ConnId → Bool) : Move cfg A v (v.reap keep)
  | stop {v : View} :
      Move cfg A v (v.stop fun fd => cfg.routes.any fun r => (v.pools r.key).contains fd)
  -- a coroutine
  | turn {v : View} {id : ConnId} {t : Task} {pc : Pc} (hid : v.tasks id = some t)
      (hturn : Turn A v id t pc) : Move cfg A v (v.set id { t with pc := pc })
  | read {v : View} {id : ConnId} {t : Task} {fd : Fd} {c : ConnId} {bs : Bytes}
      (hid : v.tasks id = some t) (hsrc : t.pc.source t.client = some fd) (hfd : v.fds fd = some c)
      (hne : bs ≠ []) (hlimit : bs.length ≤ t.pc.limit) (hrx : bs <+: (v.conns c).rx)
      (hA : A.read v id bs) :
      Move cfg A v ((v.setConn c { v.conns c with
        rx := (v.conns c).rx.drop bs.length, got := (v.conns c).got ++ bs }).set id
          { t with pc := t.pc.push bs })
  | write {v : View} {id : ConnId} {t : Task} {x : Exchange} {a : UInt32} {fd : Fd} {off n : Nat}
      (hid : v.tasks id = some t) (hpc : t.pc = .forwarding x a fd off)
      (hn : off + n ≤ x.fwd.length) :
      Move cfg A v ((v.setForwards id
        (Forward.extend ((x.fwd.drop off).take n) (v.forwards id))).set id
          { t with pc := .forwarding x a fd (off + n) })
  | next {v : View} {id : ConnId} {t : Task} {x : Exchange} {resp : Bytes} {off : Nat}
      (hid : v.tasks id = some t) (hpc : t.pc = .answering x resp off) :
      Move cfg A v (v.set id { t with pc := .readHead [], index := t.index + 1 })
  -- a coroutine and its upstream connection
  | reuse {v : View} {id : ConnId} {t : Task} {x : Exchange} {a : UInt32} {fd : Fd}
      {rest : List Fd} (hid : v.tasks id = some t) (hpc : t.pc = .acquiring x a)
      (hpool : v.pools x.route.key = fd :: rest) :
      Move cfg A v (((v.setPool x.route.key rest).newRound fd).set id
        { t with pc := .connecting x a fd })
  | connect {v : View} {id : ConnId} {t : Task} {x : Exchange} {a : UInt32} {fd : Fd}
      (hid : v.tasks id = some t) (hpc : t.pc = .acquiring x a) (hfd : v.fds fd = none) :
      Move cfg A v ((v.openConn fd true).set id { t with pc := .connecting x a fd })
  | start {v : View} {id : ConnId} {t : Task} {x : Exchange} {a : UInt32} {fd : Fd}
      (hid : v.tasks id = some t) (hpc : t.pc = .connecting x a fd) :
      Move cfg A v ((v.setForwards id (⟨t.index, []⟩ :: v.forwards id)).set id
        { t with pc := .forwarding x a fd 0 })
  | fail {v : View} {id : ConnId} {t : Task} {x : Exchange} {fd : Fd} (a : UInt32)
      (hid : v.tasks id = some t) (hx : t.pc.exchange = some x) (hup : t.pc.upFd = some fd) :
      Move cfg A v ((v.close fd).set id { t with pc := .acquiring x a })
  | release {v : View} {id : ConnId} {t : Task} {x : Exchange} {fd : Fd}
      (hid : v.tasks id = some t) (hx : t.pc.exchange = some x) (hup : t.pc.upFd = some fd)
      (hcomplete : Complete A v id t.pc) :
      Move cfg A v ((v.setPool x.route.key (v.pools x.route.key ++ [fd])).set id
        { t with pc := .answering x t.pc.taken 0 })
  /-- the pool is full -/
  | overflow {v : View} {id : ConnId} {t : Task} {x : Exchange} {fd : Fd}
      (hid : v.tasks id = some t) (hx : t.pc.exchange = some x) (hup : t.pc.upFd = some fd)
      (hcomplete : Complete A v id t.pc) :
      Move cfg A v ((v.close fd).set id { t with pc := .answering x t.pc.taken 0 })

/-- What a move can do to the program counter of one coroutine. -/
inductive Goes (A : Assume) (v : View) (id : ConnId) (t : Task) : Pc → Prop where
  | stay : Goes A v id t t.pc
  | turn {pc : Pc} (hturn : Turn A v id t pc) : Goes A v id t pc
  | read {fd : Fd} {bs : Bytes} (hsrc : t.pc.source t.client = some fd)
      (hlimit : bs.length ≤ t.pc.limit) (hA : A.read v id bs) : Goes A v id t (t.pc.push bs)
  | complete {x : Exchange} {fd : Fd} (hup : t.pc.upFd = some fd)
      (hcomplete : Complete A v id t.pc) : Goes A v id t (.answering x t.pc.taken 0)
  /-- it has nothing of a response -/
  | start {pc : Pc} (hpc : pc.source t.client = none ∨ pc = .readHead [])
      (hanswer : pc.answer = none) : Goes A v id t pc

/-- After a move, a coroutine is new or has gone on from where it was. -/
theorem Move.goes {cfg : Config} {A : Assume} {v v' : View} (h : Move cfg A v v') {id : ConnId}
    {t' : Task} (ht' : v'.tasks id = some t') :
    t'.pc = .readHead [] ∨ ∃ t, v.tasks id = some t ∧ Goes A v id t t'.pc := by
  -- the coroutine that moves, and all the others
  have hset {w : View} {j : ConnId} {u u' : Task} (htasks : w.tasks = v.tasks)
      (hj : v.tasks j = some u) (hgoes : Goes A v j u u'.pc)
      (ht : (w.set j u').tasks id = some t') :
      t'.pc = .readHead [] ∨ ∃ t, v.tasks id = some t ∧ Goes A v id t t'.pc := by
    right
    by_cases hij : id = j
    · subst hij
      obtain rfl : u' = t' := by simpa using ht
      exact ⟨u, hj, hgoes⟩
    · exact ⟨t', by simpa [hij, htasks] using ht, .stay⟩
  cases h with
  | arrive | hangup | stop => exact .inr ⟨t', ht', .stay⟩
  | spawn fd hfd hlisten =>
    by_cases hid : id = v.opened
    · subst hid
      obtain rfl : (⟨fd, .readHead [], 0⟩ : Task) = t' := by simpa using ht'
      exact .inl rfl
    · exact .inr ⟨t', by simpa [hid] using ht', .stay⟩
  | discard hid | reap keep =>
    simp only [View.reap_tasks, Option.ite_none_right_eq_some] at ht'
    exact .inr ⟨t', ht'.2, .stay⟩
  | turn hid hturn => exact hset rfl hid (.turn hturn) ht'
  | read hid hsrc hfd hne hlimit hrx hA => exact hset rfl hid (.read hsrc hlimit hA) ht'
  | write hid hpc | start hid hpc | reuse hid hpc | connect hid hpc | fail a hid =>
    exact hset rfl hid (.start (.inl rfl) rfl) ht'
  | next hid hpc => exact hset rfl hid (.start (.inr rfl) rfl) ht'
  | release hid hx hup hcomplete | overflow hid hx hup hcomplete =>
    exact hset rfl hid (.complete hup hcomplete) ht'

def Moves (cfg : Config) (A : Assume) : View → View → Prop := Relation.ReflTransGen (Move cfg A)

theorem Moves.invariant {cfg : Config} {A : Assume} {I : View → Prop} {v v' : View}
    (h : Moves cfg A v v') (hmove : ∀ u u', I u → Move cfg A u u' → I u') (hI : I v) : I v' :=
  path_invariant h hmove hI

end Muses.Proxy
