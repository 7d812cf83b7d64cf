import Muses.Core.Run

/-!
# The reactor's surroundings

What the reactor thread, its workers and the kernel share: open descriptors and the sockets behind
them, the poller's registrations, the thread pool's queue, the outbox, the position of the reactor
thread in its loop. The connection map and the memory pool, which only the reactor thread touches,
come in `Muses.Net.Reactor`.

Descriptor numbers are reused by the kernel, so every accepted connection also has a number of its
own that is never reused, its `ConnId`. These numbers, and the fields marked as history, do not
exist in the program: the code never reads them, they only let properties say which connection a
byte, a job or a `close` belongs to.
-/

namespace Muses

open Function List


abbrev Fd := Nat

abbrev ConnId := Nat

structure EventMask where
  readable : Bool := false
  writable : Bool := false
  closed : Bool := false
  deriving DecidableEq, Repr

namespace EventMask

def Readable : EventMask := { readable := true }

def Writable : EventMask := { writable := true }

def Closed : EventMask := { closed := true }

def serves (m : EventMask) : Bool := m.closed || (m.readable && !m.writable)

end EventMask

structure PollEvent where
  fd : Fd
  mask : EventMask
  deriving DecidableEq, Repr

@[ext]
structure Origin where
  conn : ConnId
  index : Nat
  deriving DecidableEq, Repr

structure Socket where
  /-- received and not yet read -/
  rx : List UInt8 := []
  /-- the peer has closed its side -/
  fin : Bool := false
  /-- history: everything read so far -/
  taken : List UInt8 := []
  /-- history: everything written so far, one entry per successful `write` -/
  tx : List (Origin × List UInt8) := []
  deriving DecidableEq, Repr

/-- `HandlerResult`. -/
structure HandlerResult where
  response : List UInt8
  keepAlive : Bool
  deriving DecidableEq, Repr

structure Job where
  fd : Fd
  request : List UInt8
  origin : Origin
  deriving DecidableEq, Repr

/-- A worker thread inside a task: in the handler, or about to close the descriptor because its
handback was rejected. -/
inductive Worker where
  | handling (job : Job)
  | closing (job : Job)
  deriving DecidableEq, Repr

def Worker.job : Worker → Job
  | .handling job => job
  | .closing job => job

structure WorkerHandback where
  fd : Fd
  keepAlive : Bool
  response : List UInt8
  origin : Origin
  deriving DecidableEq, Repr

inductive Loop where
  /-- about to test `running_` and call `wait` -/
  | wait
  /-- events still to handle; with none left, inside `drain_outbox` -/
  | batch (evs : List PollEvent)
  /-- inside `accept_all`, entered at time `now`, after `accepted` rounds -/
  | accepting (now accepted : Nat) (evs : List PollEvent)
  /-- about to sweep -/
  | sweeping
  /-- the loop was left, `stop` continues -/
  | exited
  | stopped
  deriving DecidableEq, Repr

/-- The events of the current batch that are still to be handled. -/
def Loop.events : Loop → List PollEvent
  | .batch evs => evs
  | .accepting _ _ evs => evs
  | _ => []

/-- All that is outside the loop: sockets, poller, workers and the outbox. -/
structure World where
  /-- `steady_clock`, in nanoseconds -/
  clock : Nat
  /-- connections waiting to be accepted, and the pending edge of the listening descriptor -/
  backlog : Nat
  listenEdge : Bool
  fds : Fd → Option ConnId
  socks : ConnId → Socket
  /-- the poller's registrations, and the `Readable` edges raised and not yet delivered -/
  interest : Fd → Option EventMask
  edges : Fd → Bool
  /-- the thread pool: queued tasks and busy threads -/
  queue : List Job
  busy : List Worker
  outbox : List WorkerHandback
  outboxStopped : Bool
  running : Bool
  pc : Loop
  /-- history: connections accepted so far -/
  accepted : Nat
  /-- history: for each `close`, the connection it was meant for -/
  closes : List ConnId
  /-- history: what was read for each entry of the connection map, and the requests dispatched
  from it -/
  received : ConnId → List UInt8
  requests : ConnId → List (List UInt8)
  /-- history: what the handler made of each request -/
  results : Origin → Option HandlerResult

namespace World

/-- Right after `start`. -/
def init : World where
  clock := 0
  backlog := 0
  listenEdge := false
  fds := fun _ => none
  socks := fun _ => {}
  interest := fun _ => none
  edges := fun _ => false
  queue := []
  busy := []
  outbox := []
  outboxStopped := false
  running := true
  pc := .wait
  accepted := 0
  closes := []
  received := fun _ => []
  requests := fun _ => []
  results := fun _ => none

def unread (w : World) (fd : Fd) : Bool :=
  match w.fds fd with
  | some c => !(w.socks c).rx.isEmpty || (w.socks c).fin
  | none => false

def armed (w : World) (fd : Fd) : Bool :=
  match w.interest fd with
  | some m => m.readable
  | none => false

def setSock (w : World) (c : ConnId) (k : Socket) : World :=
  { w with socks := update w.socks c k }

/-! ## System calls -/

inductive ReadResult where
  | data (bs : List UInt8)
  | eof
  | eagain
  | eintr
  | error
  deriving DecidableEq, Repr

def readChunk : Nat := 4096

/-- `read(fd, buf, 4096)` on behalf of connection `id`. The kernel hands out a nonempty piece of
what has arrived, says `EAGAIN` only when there is nothing to read, and reports the end of the
stream only behind the last byte. An error is possible at any time, and is all that a closed
descriptor gives. -/
def sysRead (w : World) (fd : Fd) (id : ConnId) (r : ReadResult) : Option World :=
  match w.fds fd, r with
  | some c, .data bs =>
      if bs ≠ [] ∧ bs.length ≤ readChunk ∧ bs <+: (w.socks c).rx then
        some { w.setSock c { w.socks c with
                  rx := (w.socks c).rx.drop bs.length
                  taken := (w.socks c).taken ++ bs } with
          received := update w.received id (w.received id ++ bs) }
      else none
  | some c, .eof => if (w.socks c).rx = [] ∧ (w.socks c).fin then some w else none
  | some c, .eagain => if (w.socks c).rx = [] ∧ (w.socks c).fin = false then some w else none
  | some _, .eintr => some w
  | _, .error => some w
  | none, _ => none

/-- What `write` returns; `error` stands for every result that is neither progress nor `EAGAIN`
nor `EINTR`. -/
inductive WriteResult where
  | wrote (n : Nat)
  | eagain
  | eintr
  | error
  deriving DecidableEq, Repr

def sysWrite (w : World) (fd : Fd) (o : Origin) (data : List UInt8) (r : WriteResult) :
    Option World :=
  match w.fds fd, r with
  | some c, .wrote n =>
      if 0 < n ∧ n ≤ data.length then
        some (w.setSock c { w.socks c with tx := (w.socks c).tx ++ [(o, data.take n)] })
      else none
  | some _, .eagain => some w
  | some _, .eintr => some w
  | _, .error => some w
  | none, _ => none

/-- `close(fd)`, meant for connection `c`. The kernel drops the registration with the descriptor,
so a `del` before it adds nothing. -/
def close (w : World) (fd : Fd) (c : ConnId) : World :=
  { w with
    fds := update w.fds fd none
    interest := update w.interest fd none
    edges := update w.edges fd false
    closes := w.closes ++ [c] }

def arm (w : World) (fd : Fd) (m : EventMask) (ok : Bool) : World :=
  if ok && (w.fds fd).isSome then
    { w with
      interest := update w.interest fd (some m)
      edges := update w.edges fd (m.readable && w.unread fd) }
  else w

def opened (w : World) (fd : Fd) : World :=
  { w with
    backlog := w.backlog - 1
    fds := update w.fds fd (some w.accepted)
    accepted := w.accepted + 1 }

/-! ## The network -/

def raise (w : World) (fd : Fd) : World :=
  { w with edges := update w.edges fd (w.edges fd || w.armed fd) }

def arrive (w : World) (fd : Fd) (bs : List UInt8) : Option World :=
  (w.fds fd).bind fun c =>
    if bs ≠ [] ∧ (w.socks c).fin = false then
      some ((w.setSock c { w.socks c with rx := (w.socks c).rx ++ bs }).raise fd)
    else none

def hangup (w : World) (fd : Fd) : Option World :=
  (w.fds fd).map fun c => (w.setSock c { w.socks c with fin := true }).raise fd

/-- An event the poller may report: a hangup or error on a registered descriptor, or readiness
the registration asks for. -/
def reports (w : World) (listenFd : Fd) (e : PollEvent) : Bool :=
  e.fd = listenFd ||
    match w.interest e.fd with
    | some m =>
        e.mask.closed || ((!e.mask.readable || m.readable) && (!e.mask.writable || m.writable))
    | none => false

def deliver (w : World) (listenFd : Fd) (evs : List PollEvent) : World :=
  { w with
    listenEdge := w.listenEdge && !(evs.any fun e => e.fd = listenFd)
    edges := fun fd => w.edges fd && !(evs.any fun e => e.fd = fd && e.mask.readable)
    pc := .batch evs }

/-! ## The worker threads -/

inductive HandlerOutcome where
  | returns (r : HandlerResult)
  | throwsStd
  | throwsOther
  deriving DecidableEq, Repr

/-- What the task makes of it: no response and no keep-alive for a `std::exception`. Another
exception leaves the task; the packaged task keeps it and no handback is made. -/
def HandlerOutcome.result : HandlerOutcome → Option HandlerResult
  | .returns r => some r
  | .throwsStd => some ⟨[], false⟩
  | .throwsOther => none

def start (w : World) (workers : Nat) : Option World :=
  match w.queue with
  | job :: rest =>
      if w.busy.length < workers then
        some { w with queue := rest, busy := w.busy ++ [.handling job] }
      else none
  | [] => none

def outboxRoom (w : World) (slots : Nat) : Bool :=
  !w.outboxStopped && decide (w.outbox.length < slots)

def finish (w : World) (slots i : Nat) (o : HandlerOutcome) : Option World :=
  match w.busy[i]? with
  | some (.handling job) =>
      match o.result with
      | none => some { w with busy := w.busy.eraseIdx i }
      | some r =>
          let w' := { w with results := update w.results job.origin (some r) }
          if w.outboxRoom slots then
            some { w' with
              busy := w.busy.eraseIdx i
              outbox := w.outbox ++ [⟨job.fd, r.keepAlive, r.response, job.origin⟩] }
          else some { w' with busy := w.busy.set i (.closing job) }
  | _ => none

def closeRejected (w : World) (i : Nat) : Option World :=
  match w.busy[i]? with
  | some (.closing job) =>
      some { w.close job.fd job.origin.conn with busy := w.busy.eraseIdx i }
  | _ => none

def enqueue (w : World) (fd : Fd) (id : ConnId) (request : List UInt8) : World :=
  { w with
    queue := w.queue ++ [⟨fd, request, ⟨id, (w.requests id).length⟩⟩]
    requests := update w.requests id (w.requests id ++ [request]) }

/-- The descriptor and the connection of everything that is on its way from a dispatch to
`drain_outbox`: queued tasks, busy threads, handbacks. -/
def tokens (w : World) : List (Fd × Origin) :=
  w.queue.map (fun j => (j.fd, j.origin)) ++ w.busy.map (fun t => (t.job.fd, t.job.origin)) ++
    w.outbox.map (fun h => (h.fd, h.origin))

/-- No request of `fd` is on its way. -/
def Quiet (w : World) (fd : Fd) : Prop := ∀ t ∈ w.tokens, t.1 ≠ fd

instance (w : World) (fd : Fd) : Decidable (w.Quiet fd) :=
  inferInstanceAs (Decidable (∀ t ∈ w.tokens, t.1 ≠ fd))

section Tokens

variable {w : World}

theorem subperm_of_perm_cons {α : Type} {t : α} {l l' : List α} (h : l ~ t :: l') : l' <+~ l :=
  List.Subperm.cons_self.trans h.symm.subperm

theorem nodup_map_of_subperm {α β : Type} {f : α → β} {l l' : List α} (hsub : l' <+~ l)
    (h : (l.map f).Nodup) : (l'.map f).Nodup := by
  obtain ⟨m, hperm, hsub⟩ := hsub
  exact ((hperm.map f).nodup_iff).mp (h.sublist (hsub.map f))

theorem tokens_enqueue (w : World) (fd : Fd) (id : ConnId) (request : List UInt8) :
    (w.enqueue fd id request).tokens ~ (fd, ⟨id, (w.requests id).length⟩) :: w.tokens := by
  simp only [tokens, enqueue, map_append, map_cons, map_nil, append_assoc]
  exact perm_middle

theorem tokens_start {job : Job} {rest : List Job} (h : w.queue = job :: rest) :
    tokens { w with queue := rest, busy := w.busy ++ [.handling job] } ~ w.tokens := by
  simp only [tokens, h, map_append, map_cons, map_nil, append_assoc,
    cons_append, nil_append]
  refine (List.Perm.append_left _ perm_middle).trans ?_
  exact perm_middle

variable {i : Nat}

theorem tokens_eraseIdx {t : Worker} (h : w.busy[i]? = some t) :
    w.tokens ~ (t.job.fd, t.job.origin) :: tokens { w with busy := w.busy.eraseIdx i } := by
  obtain ⟨hi, rfl⟩ := List.getElem?_eq_some_iff.mp h
  have hbusy := (List.getElem_cons_eraseIdx_perm hi).symm.map
    fun t : Worker => (t.job.fd, t.job.origin)
  simp only [tokens, append_assoc]
  refine (List.Perm.append_left _ (hbusy.append_right _)).trans ?_
  simp only [map_cons, cons_append]
  exact perm_middle

theorem tokens_set {t : Worker} (u : Worker) (h : w.busy[i]? = some t) (hjob : u.job = t.job) :
    tokens { w with busy := w.busy.set i u } = w.tokens := by
  obtain ⟨hi, rfl⟩ := List.getElem?_eq_some_iff.mp h
  have hmap : (w.busy.set i u).map (fun t : Worker => (t.job.fd, t.job.origin)) =
      w.busy.map fun t => (t.job.fd, t.job.origin) := by
    rw [map_set, hjob]
    refine ext_getElem (by simp) fun j hj hj' => ?_
    rw [getElem_set]
    split
    · subst_vars; simp
    · rfl
  simp only [tokens, hmap]

theorem tokens_push (w : World) (hb : WorkerHandback) :
    tokens { w with outbox := w.outbox ++ [hb] } ~ (hb.fd, hb.origin) :: w.tokens := by
  simp only [tokens, map_append, map_cons, map_nil, ← append_assoc]
  exact perm_append_singleton _ _

theorem tokens_pop {hb : WorkerHandback} {rest : List WorkerHandback}
    (h : w.outbox = hb :: rest) :
    w.tokens ~ (hb.fd, hb.origin) :: tokens { w with outbox := rest } := by
  simp only [tokens, h, map_cons]
  exact perm_middle

theorem mem_tokens_pop {hb : WorkerHandback} {rest : List WorkerHandback} {t : Fd × Origin}
    (h : w.outbox = hb :: rest) (ht : t ∈ w.tokens) (hne : t.1 ≠ hb.fd) :
    t ∈ tokens { w with outbox := rest } := by
  rcases mem_cons.mp ((tokens_pop h).subset ht) with rfl | ht
  · exact absurd rfl hne
  · exact ht

theorem tokens_handback {job : Job} (h : w.busy[i]? = some (.handling job)) (r : HandlerResult) :
    tokens { w with
      busy := w.busy.eraseIdx i
      outbox := w.outbox ++ [⟨job.fd, r.keepAlive, r.response, job.origin⟩] } ~ w.tokens :=
  (tokens_push { w with busy := w.busy.eraseIdx i } _).trans (tokens_eraseIdx h).symm

end Tokens

/-- No request of a closed connection is on its way. -/
def Alive (w : World) : Prop := ∀ t ∈ w.tokens, t.2.conn ∉ w.closes

instance (w : World) : Decidable w.Alive :=
  inferInstanceAs (Decidable (∀ t ∈ w.tokens, t.2.conn ∉ w.closes))

/-! ## Fields that an operation leaves alone -/

section Fields

variable (w : World) (fd : Fd) (c : ConnId)

@[simp] theorem tokens_close : (w.close fd c).tokens = w.tokens := rfl

@[simp] theorem tokens_opened : (w.opened fd).tokens = w.tokens := rfl

@[simp] theorem tokens_setSock (k : Socket) : (w.setSock c k).tokens = w.tokens := rfl

@[simp] theorem tokens_raise : (w.raise fd).tokens = w.tokens := rfl

variable (m : EventMask) (ok : Bool)

@[simp] theorem arm_fds : (w.arm fd m ok).fds = w.fds := by
  unfold arm; split <;> rfl

@[simp] theorem arm_socks : (w.arm fd m ok).socks = w.socks := by
  unfold arm; split <;> rfl

@[simp] theorem arm_tokens : (w.arm fd m ok).tokens = w.tokens := by
  unfold arm; split <;> rfl

@[simp] theorem arm_accepted : (w.arm fd m ok).accepted = w.accepted := by
  unfold arm; split <;> rfl

@[simp] theorem arm_closes : (w.arm fd m ok).closes = w.closes := by
  unfold arm; split <;> rfl

@[simp] theorem arm_received : (w.arm fd m ok).received = w.received := by
  unfold arm; split <;> rfl

@[simp] theorem arm_requests : (w.arm fd m ok).requests = w.requests := by
  unfold arm; split <;> rfl

@[simp] theorem arm_results : (w.arm fd m ok).results = w.results := by
  unfold arm; split <;> rfl

@[simp] theorem arm_busy : (w.arm fd m ok).busy = w.busy := by
  unfold arm; split <;> rfl

@[simp] theorem arm_queue : (w.arm fd m ok).queue = w.queue := by
  unfold arm; split <;> rfl

@[simp] theorem arm_outbox : (w.arm fd m ok).outbox = w.outbox := by
  unfold arm; split <;> rfl

@[simp] theorem arm_pc : (w.arm fd m ok).pc = w.pc := by
  unfold arm; split <;> rfl

end Fields

structure SameWork (w w' : World) : Prop where
  queue : w'.queue = w.queue
  busy : w'.busy = w.busy
  outbox : w'.outbox = w.outbox
  requests : w'.requests = w.requests
  results : w'.results = w.results

theorem SameWork.tokens {w w' : World} (h : SameWork w w') : w'.tokens = w.tokens := by
  rw [World.tokens, h.queue, h.busy, h.outbox, World.tokens]

theorem SameWork.trans {w w' w'' : World} (h : SameWork w w') (h' : SameWork w' w'') :
    SameWork w w'' where
  queue := h'.queue.trans h.queue
  busy := h'.busy.trans h.busy
  outbox := h'.outbox.trans h.outbox
  requests := h'.requests.trans h.requests
  results := h'.results.trans h.results

theorem sameWork_arm (w : World) (fd : Fd) (m : EventMask) (ok : Bool) :
    SameWork w (w.arm fd m ok) :=
  ⟨arm_queue .., arm_busy .., arm_outbox .., arm_requests .., arm_results ..⟩

theorem sameWork_opened (w : World) (fd : Fd) : SameWork w (w.opened fd) :=
  ⟨rfl, rfl, rfl, rfl, rfl⟩

theorem sameWork_close (w : World) (fd : Fd) (c : ConnId) : SameWork w (w.close fd c) :=
  ⟨rfl, rfl, rfl, rfl, rfl⟩

/-! ## What a system call did -/

section Inversion

variable {w w' : World} {fd : Fd} {id : ConnId}

variable {bs data : List UInt8} {o : Origin}

theorem sysRead_data (h : w.sysRead fd id (.data bs) = some w') :
    ∃ c, w.fds fd = some c ∧ bs ≠ [] ∧ bs.length ≤ readChunk ∧ bs <+: (w.socks c).rx ∧
      w' = { w.setSock c { w.socks c with
                rx := (w.socks c).rx.drop bs.length
                taken := (w.socks c).taken ++ bs } with
        received := update w.received id (w.received id ++ bs) } := by
  unfold sysRead at h
  cases hfd : w.fds fd with
  | none => simp [hfd] at h
  | some c =>
    simp only [hfd] at h
    split at h
    · rename_i hguard
      cases h
      exact ⟨c, rfl, hguard.1, hguard.2.1, hguard.2.2, rfl⟩
    · cases h

theorem sysRead_other {r : ReadResult} (hr : ∀ bs, r ≠ .data bs)
    (h : w.sysRead fd id r = some w') : w' = w := by
  unfold sysRead at h
  cases r with
  | data bs => exact absurd rfl (hr bs)
  | eof | eagain | eintr | error =>
    cases hfd : w.fds fd <;> simp [hfd] at h <;> simp_all

theorem sysRead_eagain (h : w.sysRead fd id .eagain = some w') :
    ∃ c, w.fds fd = some c ∧ (w.socks c).rx = [] := by
  unfold sysRead at h
  cases hfd : w.fds fd with
  | none => simp [hfd] at h
  | some c =>
    simp only [hfd] at h
    split at h
    · rename_i hguard
      exact ⟨c, rfl, hguard.1⟩
    · cases h

theorem sysWrite_wrote {n : Nat} (h : w.sysWrite fd o data (.wrote n) = some w') :
    ∃ c, w.fds fd = some c ∧ 0 < n ∧ n ≤ data.length ∧
      w' = w.setSock c { w.socks c with tx := (w.socks c).tx ++ [(o, data.take n)] } := by
  unfold sysWrite at h
  cases hfd : w.fds fd with
  | none => simp [hfd] at h
  | some c =>
    simp only [hfd] at h
    split at h
    · rename_i hguard
      cases h
      exact ⟨c, rfl, hguard.1, hguard.2, rfl⟩
    · cases h

theorem sysWrite_other {r : WriteResult} (hr : ∀ n, r ≠ .wrote n)
    (h : w.sysWrite fd o data r = some w') : w' = w := by
  unfold sysWrite at h
  cases r with
  | wrote n => exact absurd rfl (hr n)
  | eagain | eintr | error =>
    cases hfd : w.fds fd <;> simp [hfd] at h <;> simp_all

theorem arrive_eq (h : w.arrive fd bs = some w') :
    ∃ c, w.fds fd = some c ∧
      w' = (w.setSock c { w.socks c with rx := (w.socks c).rx ++ bs }).raise fd := by
  obtain ⟨c, hfd, h⟩ := Option.bind_eq_some_iff.mp h
  split at h
  · cases h
    exact ⟨c, hfd, rfl⟩
  · cases h

theorem hangup_eq (h : w.hangup fd = some w') :
    ∃ c, w.fds fd = some c ∧ w' = (w.setSock c { w.socks c with fin := true }).raise fd := by
  obtain ⟨c, hfd, rfl⟩ := Option.map_eq_some_iff.mp h
  exact ⟨c, hfd, rfl⟩

theorem sysRead_sameWork (h : w.sysRead fd id (.data bs) = some w') : SameWork w w' := by
  obtain ⟨c, -, -, -, -, rfl⟩ := sysRead_data h
  exact ⟨rfl, rfl, rfl, rfl, rfl⟩

theorem sysRead_tx (h : w.sysRead fd id (.data bs) = some w') (k : ConnId) :
    (w'.socks k).tx = (w.socks k).tx := by
  obtain ⟨c, -, -, -, -, rfl⟩ := sysRead_data h
  by_cases hk : k = c <;> simp [setSock, hk]

theorem arrive_tx (h : w.arrive fd bs = some w') (k : ConnId) :
    (w'.socks k).tx = (w.socks k).tx := by
  obtain ⟨c, -, rfl⟩ := arrive_eq h
  by_cases hk : k = c <;> simp [setSock, raise, hk]

theorem arrive_taken (h : w.arrive fd bs = some w') (k : ConnId) :
    (w'.socks k).taken = (w.socks k).taken := by
  obtain ⟨c, -, rfl⟩ := arrive_eq h
  by_cases hk : k = c <;> simp [setSock, raise, hk]

theorem hangup_taken (h : w.hangup fd = some w') (k : ConnId) :
    (w'.socks k).taken = (w.socks k).taken := by
  obtain ⟨c, -, rfl⟩ := hangup_eq h
  by_cases hk : k = c <;> simp [setSock, raise, hk]

theorem sysWrite_taken {n : Nat} (h : w.sysWrite fd o data (.wrote n) = some w') (k : ConnId) :
    (w'.socks k).taken = (w.socks k).taken := by
  obtain ⟨c, -, -, -, rfl⟩ := sysWrite_wrote h
  by_cases hk : k = c <;> simp [setSock, hk]

theorem hangup_tx (h : w.hangup fd = some w') (k : ConnId) :
    (w'.socks k).tx = (w.socks k).tx := by
  obtain ⟨c, -, rfl⟩ := hangup_eq h
  by_cases hk : k = c <;> simp [setSock, raise, hk]

end Inversion

end World

end Muses
