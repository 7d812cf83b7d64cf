import Muses.Net.Reactor

/-!
# The connection protocol of the reactor

The reactor seen without its memory pool: every entry of the connection map is a `Conn` whose read
buffer is a plain byte string. A `Move` is one thing that can happen to a `View`: a worker or the
network takes a step, a handler picks a connection, reads bytes for it, writes bytes of its
response, parks it, dispatches its next request, closes it. `Muses.Net.Refinement` shows that every
step of the reactor is a sequence of moves; the properties of the reactor are then invariants of
moves.

While a handler works on a connection, the view's `focus` names the descriptor and the phase it is
in. Between the steps of the reactor nothing is in focus.
-/

namespace Muses.Reactor

open Muses.Core Function

structure Conn where
  id : ConnId
  buf : List UInt8 := []
  dispatched : Bool := false
  writing : Bool := false
  writeBuf : List UInt8 := []
  writeOff : Nat := 0
  keepAlive : Bool := false
  origin : Origin := ⟨id, 0⟩
  deriving DecidableEq, Repr

inductive Phase where
  /-- read, then dispatch what is complete; the connection is not dispatched -/
  | serve
  /-- write the response in `writeBuf` -/
  | write
  /-- close -/
  | shut
  deriving DecidableEq, Repr

/-- The reactor without its buffers: the entries, and the one the loop is at work on. -/
structure View where
  world : World
  conns : Fd → Option Conn
  focus : Option (Fd × Phase)

namespace View

/-- Before the first connection. -/
@[simps world conns focus]
def init : View where
  world := .init
  conns _ := none
  focus := none

@[simps world conns focus]
def setWorld (v : View) (w : World) : View := { v with world := w }

@[simps world conns focus]
def setPc (v : View) (pc : Loop) : View := { v with world := { v.world with pc := pc } }

@[simps world conns focus]
def setConn (v : View) (fd : Fd) (c : Conn) : View :=
  { v with conns := update v.conns fd (some c) }

@[simps world conns focus]
def dropConn (v : View) (fd : Fd) : View :=
  { v with conns := update v.conns fd none }

@[simps world conns focus]
def look (v : View) (focus : Option (Fd × Phase)) : View := { v with focus := focus }

def phase (v : View) (fd : Fd) : Option Phase :=
  v.focus.bind fun f => if f.1 = fd then some f.2 else none

variable {v : View} {fd : Fd}

@[simp] theorem phase_eq_some {ph : Phase} : v.phase fd = some ph ↔ v.focus = some (fd, ph) := by
  unfold phase
  cases hf : v.focus with
  | none => simp
  | some f =>
    obtain ⟨g, ph'⟩ := f
    by_cases hg : g = fd <;> simp [hg]

/-- The loop is at work on `fd`, in phase `ph`. -/
def On (v : View) (fd : Fd) (ph : Option Phase) : Prop := v.focus = ph.map (Prod.mk fd)

theorem on_none (h : v.focus = none) : v.On fd none := h

theorem on_some {ph : Phase} (h : v.focus = some (fd, ph)) : v.On fd (some ph) := h

theorem on_of_close (h : v.focus = none ∨ ∃ ph, v.focus = some (fd, ph)) : ∃ ph, v.On fd ph := by
  rcases h with h | ⟨ph, h⟩
  · exact ⟨none, h⟩
  · exact ⟨some ph, h⟩

theorem On.phase {ph : Option Phase} (h : v.On fd ph) : v.phase fd = ph := by
  rw [View.phase, h]
  cases ph <;> simp

theorem On.phase_of_ne {g : Fd} {ph : Option Phase} (h : v.On fd ph) (hg : g ≠ fd) :
    v.phase g = none := by
  rw [View.phase, h]
  cases ph <;> simp [hg.symm]

/-- `P` holds of every entry. -/
def Each (v : View) (P : World → Fd → Conn → Option Phase → Prop) : Prop :=
  ∀ fd c, v.conns fd = some c → P v.world fd c (v.phase fd)

section Each

variable {P : World → Fd → Conn → Option Phase → Prop} {v v' : View} {fd : Fd}
  {ph ph' : Option Phase} {c : Conn}

theorem Each.on (h : v.Each P) (hon : v.On fd ph) (hc : v.conns fd = some c) :
    P v.world fd c ph :=
  hon.phase ▸ h fd c hc

theorem Each.frame (h : v.Each P) (hconns : v'.conns = v.conns) (hfocus : v'.focus = v.focus)
    (hP : ∀ g d ph, P v.world g d ph → P v'.world g d ph) : v'.Each P := by
  intro g d hd
  rw [phase, hfocus]
  exact hP g d _ (h g d (hconns ▸ hd))

/-- A change that concerns one descriptor: what remains is `P` of its entry `e`, and that the other
entries bear the change. -/
theorem Each.update {e : Option Conn} (h : v.Each P) (hon : v.On fd ph) (hon' : v'.On fd ph')
    (hconns : v'.conns = update v.conns fd e)
    (hother : ∀ g d, g ≠ fd → v.conns g = some d → P v.world g d none → P v'.world g d none)
    (hat : ∀ d, e = some d → P v'.world fd d ph') : v'.Each P := by
  intro g d hd
  rw [hconns] at hd
  by_cases hg : g = fd
  · subst hg
    rw [update_self] at hd
    exact hon'.phase ▸ hat d hd
  · rw [update_of_ne hg] at hd
    have hold := h g d hd
    rw [hon.phase_of_ne hg] at hold
    rw [hon'.phase_of_ne hg]
    exact hother g d hg hd hold

theorem same_entry (v : View) (fd : Fd) : v.conns = update v.conns fd (v.conns fd) :=
  (update_eq_self fd v.conns).symm

end Each

/-- An event that makes the loop do nothing. -/
def Ignores (v : View) (e : PollEvent) : Prop :=
  ∀ c, v.conns e.fd = some c →
    e.mask.closed = false ∧
      (e.mask.readable = false ∨ e.mask.writable = true ∨ c.dispatched = true)

def Phase.admits (c : Conn) : Phase → Prop
  | .serve => c.dispatched = false
  | .write => c.writing = true
  | .shut => True

end View

/-- What is assumed about a run, beyond that it is one. Each assumption only restricts the moves
named with it. -/
structure Assume where
  /-- `accept` returns no number for which a task, a busy worker or a handback is on its way -/
  fresh : Bool := false
  /-- no handback is pushed while the outbox is full or stopped -/
  noReject : Bool := false
  /-- a handler call ends with a result or a `std::exception` -/
  noDie : Bool := false
  /-- no connection is closed between a dispatch and the draining of its handback -/
  noEarlyClose : Bool := false
  /-- `on_client_event` reads nothing more once the buffer holds a terminator -/
  clean : Bool := false
  /-- `add` and `mod` succeed -/
  polled : Bool := false

/-- One move of the protocol. -/
inductive Move (cfg : Config) (A : Assume) : View → View → Prop where
  -- time and clients
  | env {v} (clock backlog : Nat) (listenEdge running : Bool) :
      Move cfg A v (v.setWorld { v.world with
        clock := clock, backlog := backlog, listenEdge := listenEdge, running := running })
  | arrive {v w} (fd : Fd) (bs : List UInt8) (h : v.world.arrive fd bs = some w) :
      Move cfg A v (v.setWorld w)
  | hangup {v w} (fd : Fd) (h : v.world.hangup fd = some w) : Move cfg A v (v.setWorld w)
  -- the worker threads
  | start {v} (job : Job) (rest : List Job) (hq : v.world.queue = job :: rest) :
      Move cfg A v (v.setWorld { v.world with
        queue := rest, busy := v.world.busy ++ [.handling job] })
  | die {v} (i : Nat) (job : Job) (hi : v.world.busy[i]? = some (.handling job))
      (hA : A.noDie = false) :
      Move cfg A v (v.setWorld { v.world with busy := v.world.busy.eraseIdx i })
  | handback {v} (i : Nat) (job : Job) (r : HandlerResult)
      (hi : v.world.busy[i]? = some (.handling job)) :
      Move cfg A v (v.setWorld { v.world with
        results := update v.world.results job.origin (some r)
        busy := v.world.busy.eraseIdx i
        outbox := v.world.outbox ++ [⟨job.fd, r.keepAlive, r.response, job.origin⟩] })
  | reject {v} (i : Nat) (job : Job) (r : HandlerResult)
      (hi : v.world.busy[i]? = some (.handling job)) (hA : A.noReject = false) :
      Move cfg A v (v.setWorld { v.world with
        results := update v.world.results job.origin (some r)
        busy := v.world.busy.set i (.closing job) })
  | closeRejected {v} (i : Nat) (job : Job) (hi : v.world.busy[i]? = some (.closing job))
      (hfocus : v.focus = none) (hA : A.noEarlyClose = false) :
      Move cfg A v (v.setWorld { v.world.close job.fd job.origin.conn with
        busy := v.world.busy.eraseIdx i })
  -- the loop
  | goto {v} (pc : Loop) (hfocus : v.focus = none) (hgo : pc ≠ .stopped)
      (hpc : pc.events = v.world.pc.events ∨
        ∃ e, e.fd = cfg.listenFd ∧ v.world.pc.events = e :: pc.events) :
      Move cfg A v (v.setPc pc)
  | poll {v} (evs : List PollEvent) (hfocus : v.focus = none) (hpc : v.world.pc = .wait)
      (hrep : ∀ e ∈ evs, v.world.reports cfg.listenFd e = true) :
      Move cfg A v (v.setWorld (v.world.deliver cfg.listenFd evs))
  | stopOutbox {v} (hfocus : v.focus = none) (hpc : v.world.pc = .exited)
      (hnone : ∀ fd, v.conns fd = none) :
      Move cfg A v (v.setWorld { v.world with outboxStopped := true, pc := .stopped })
  -- a handler turns to a connection
  | skip {v} (e : PollEvent) (evs : List PollEvent) (hfocus : v.focus = none)
      (hpc : v.world.pc = .batch (e :: evs)) (hskip : v.Ignores e) :
      Move cfg A v (v.setPc (.batch evs))
  | take {v} (e : PollEvent) (evs : List PollEvent) (c : Conn) (ph : Phase)
      (hfocus : v.focus = none) (hpc : v.world.pc = .batch (e :: evs))
      (hc : v.conns e.fd = some c) (hph : View.Phase.admits c ph) :
      Move cfg A v ((v.setPc (.batch evs)).look (some (e.fd, ph)))
  | discard {v} (hb : WorkerHandback) (rest : List WorkerHandback) (hfocus : v.focus = none)
      (hout : v.world.outbox = hb :: rest) (hc : v.conns hb.fd = none) :
      Move cfg A v (v.setWorld { v.world with outbox := rest })
  | deny {v} (hb : WorkerHandback) (rest : List WorkerHandback) (c : Conn) (hfocus : v.focus = none)
      (hout : v.world.outbox = hb :: rest) (hc : v.conns hb.fd = some c) :
      Move cfg A v ((v.setWorld { v.world with outbox := rest }).look (some (hb.fd, .shut)))
  | answer {v} (hb : WorkerHandback) (rest : List WorkerHandback) (c : Conn)
      (hfocus : v.focus = none) (hout : v.world.outbox = hb :: rest) (hc : v.conns hb.fd = some c) :
      Move cfg A v (((v.setWorld { v.world with outbox := rest }).setConn hb.fd
        { c with writeBuf := hb.response, writeOff := 0, keepAlive := hb.keepAlive,
                 origin := hb.origin }).look (some (hb.fd, .write)))
  -- a handler works on the connection in focus
  | consume {v w} (fd : Fd) (c : Conn) (bs : List UInt8) (hfocus : v.focus = some (fd, .serve))
      (hc : v.conns fd = some c) (hread : v.world.sysRead fd c.id (.data bs) = some w) :
      Move cfg A v ((v.setWorld w).setConn fd { c with buf := c.buf ++ bs })
  | emit {v w} (fd : Fd) (c : Conn) (n : Nat) (hfocus : v.focus = some (fd, .write))
      (hc : v.conns fd = some c)
      (hwrite : v.world.sysWrite fd c.origin (c.writeBuf.drop c.writeOff) (.wrote n) = some w) :
      Move cfg A v ((v.setWorld w).setConn fd { c with writeOff := c.writeOff + n })
  | park {v} (fd : Fd) (c : Conn) (ok : Bool) (hfocus : v.focus = some (fd, .write))
      (hc : v.conns fd = some c) (hoff : c.writeOff < c.writeBuf.length)
      (hA : A.polled = true → ok = true) :
      Move cfg A v (((v.setWorld (v.world.arm fd .Writable ok)).setConn fd
        { c with writing := true }).look none)
  | turn {v} (fd : Fd) (c : Conn) (ok : Bool) (hfocus : v.focus = some (fd, .write))
      (hc : v.conns fd = some c) (hoff : c.writeBuf.length ≤ c.writeOff)
      (hkeep : c.keepAlive = true) (hA : A.polled = true → ok = true) :
      Move cfg A v (((v.setWorld (v.world.arm fd .Readable ok)).setConn fd
        { c with dispatched := false, writing := false, writeBuf := [], writeOff := 0 }).look
          (some (fd, .serve)))
  | rest {v} (fd : Fd) (c : Conn) (k : ConnId) (hfocus : v.focus = some (fd, .serve))
      (hc : v.conns fd = some c) (hnone : Search.find terminator c.buf = none)
      (hfd : v.world.fds fd = some k) (hrx : (v.world.socks k).rx = []) :
      Move cfg A v (v.look none)
  | dispatch {v} (fd : Fd) (c : Conn) (n : Nat) (hfocus : v.focus = some (fd, .serve))
      (hc : v.conns fd = some c) (hpos : 0 < n) (hn : n ≤ c.buf.length)
      (hA : A.clean = true → Search.IsFrame terminator (c.buf.take n)) :
      Move cfg A v (((v.setWorld (v.world.enqueue fd c.id (c.buf.take n))).setConn fd
        { c with dispatched := true, buf := c.buf.drop n }).look none)
  | close {v} (fd : Fd) (c : Conn)
      (hfocus : v.focus = none ∨ ∃ ph, v.focus = some (fd, ph)) (hc : v.conns fd = some c)
      (hA : A.noEarlyClose = true → ∀ t ∈ v.world.tokens, t.2.conn ≠ c.id) :
      Move cfg A v (((v.setWorld (v.world.close fd c.id)).dropConn fd).look none)
  -- `accept` has returned a descriptor
  | refuse {v} (fd : Fd) (hfd : v.world.fds fd = none) (hfocus : v.focus = none) :
      Move cfg A v (v.setWorld ((v.world.opened fd).close fd v.world.accepted))
  | enroll {v} (fd : Fd) (hfd : v.world.fds fd = none) (hlisten : fd ≠ cfg.listenFd)
      (hfocus : v.focus = none) (hc : v.conns fd = none) (hA : A.fresh = true → v.world.Quiet fd)
      (hpc : v.world.pc ≠ .stopped) :
      Move cfg A v ((v.setWorld ((v.world.opened fd).arm fd .Readable true)).setConn fd
        { id := v.world.accepted })
  | clash {v} (fd : Fd) (c : Conn) (hfd : v.world.fds fd = none) (hlisten : fd ≠ cfg.listenFd)
      (hfocus : v.focus = none) (hc : v.conns fd = some c)
      (hA : A.fresh = true → v.world.Quiet fd) :
      Move cfg A v (v.setWorld ((v.world.opened fd).arm fd .Readable true))
  | misfit {v} (fd : Fd) (hfd : v.world.fds fd = none) (hfocus : v.focus = none)
      (hA : A.polled = false) :
      Move cfg A v ((v.setWorld ((v.world.opened fd).close fd v.world.accepted)).dropConn fd)

def Moves (cfg : Config) (A : Assume) : View → View → Prop := Relation.ReflTransGen (Move cfg A)

theorem Moves.invariant {cfg : Config} {A : Assume} {I : View → Prop} {v v' : View}
    (h : Moves cfg A v v') (hmove : ∀ u u', I u → Move cfg A u u' → I u') (hI : I v) : I v' :=
  path_invariant h hmove hI

end Muses.Reactor
