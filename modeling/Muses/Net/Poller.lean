import Muses.Net.World

/-!
# The two pollers

`muses/net/kqueue_poller.hpp` and `muses/net/epoll_poller.hpp`, each with the part of the kernel it
talks to. `KQueuePoller` keeps two filters for each descriptor and buffers its changes until the
next `wait`; `EpollPoller` keeps one mask and applies every change at once.

The descriptors passed in are open ones of the caller's, never the poller's own, so `epoll_ctl`
fails for one reason only: the descriptor is, or is not, in the interest list. `kevent` fails a
change when it deletes a filter that is not there; the other changes of the list still apply.
-/

namespace Muses

open Muses.Core Function

/-! ## The kernel queue -/

inductive Filter where
  | read
  | write
  deriving DecidableEq, Repr

inductive ChangeFlags where
  | add
  | delete
  deriving DecidableEq, Repr

structure Change where
  fd : Fd
  filter : Filter
  flags : ChangeFlags
  deriving DecidableEq, Repr

inductive Source where
  | socket (fd : Fd) (filter : Filter)
  | user
  deriving DecidableEq, Repr

structure Kqueue where
  registered : Fd × Filter → Bool
  ready : List Source

namespace Kqueue

def init : Kqueue := ⟨fun _ => false, []⟩

def change (k : Kqueue) (c : Change) : Kqueue × Bool :=
  match c.flags with
  | .add => ({ k with registered := update k.registered (c.fd, c.filter) true }, false)
  | .delete =>
      if k.registered (c.fd, c.filter) then
        ({ registered := update k.registered (c.fd, c.filter) false
           ready := k.ready.filter (· ≠ .socket c.fd c.filter) }, false)
      else (k, true)

def submit (k : Kqueue) : List Change → Kqueue × Bool
  | [] => (k, false)
  | c :: cs => (((k.change c).1.submit cs).1, (k.change c).2 || ((k.change c).1.submit cs).2)

theorem submit_append (k : Kqueue) (cs ds : List Change) :
    (k.submit (cs ++ ds)).1 = ((k.submit cs).1.submit ds).1 := by
  induction cs generalizing k with
  | nil => rfl
  | cons c cs ih => exact ih (k.change c).1

theorem registered_change (k : Kqueue) (c : Change) :
    (k.change c).1.registered =
      update k.registered (c.fd, c.filter) (decide (c.flags = .add)) := by
  unfold change
  split
  case h_1 hflags => simp [hflags]
  case h_2 hflags =>
    split
    case isTrue => simp [hflags]
    case isFalse hnone =>
      -- the failed delete leaves a filter that was not there
      have hnone : k.registered (c.fd, c.filter) = false := by simpa using hnone
      simp [hflags, ← hnone]

end Kqueue

/-! ## The kqueue back end -/

/-- The calls of the interface that change what is registered, and the next `wait`, which flushes
what is buffered. -/
inductive PollerCall (U : Type*) where
  | add (fd : Fd) (mask : EventMask) (userdata : U)
  | mod (fd : Fd) (mask : EventMask) (userdata : U)
  | del (fd : Fd)
  | flush
  deriving DecidableEq, Repr

structure KQueuePoller (U : Type*) where
  /-- `kq_ != -1` -/
  valid : Bool
  fds : Fd → Option U
  pending : List Change
  kernel : Kqueue
  /-- history: what `add`, `mod` and `del` returned -/
  replies : List Bool

namespace KQueuePoller

variable {U : Type*}

def init (valid : Bool) : KQueuePoller U := ⟨valid, fun _ => none, [], Kqueue.init, []⟩

def bufferChange (p : KQueuePoller U) (fd : Fd) (filter : Filter) (flags : ChangeFlags) :
    KQueuePoller U :=
  { p with pending := p.pending ++ [⟨fd, filter, flags⟩] }

/-- Wanted filters are added, the others deleted. -/
def apply (p : KQueuePoller U) (fd : Fd) (mask : EventMask) : KQueuePoller U :=
  (p.bufferChange fd .read (if mask.readable then .add else .delete)).bufferChange fd .write
    (if mask.writable then .add else .delete)

def add (p : KQueuePoller U) (fd : Fd) (mask : EventMask) (userdata : U) : KQueuePoller U × Bool :=
  if !p.valid then (p, false)
  else ({ p with fds := update p.fds fd (some userdata) }.apply fd mask, true)

def mod (p : KQueuePoller U) (fd : Fd) (mask : EventMask) (userdata : U) : KQueuePoller U × Bool :=
  if !p.valid then (p, false)
  else
    match p.fds fd with
    | none => (p, false)
    | some _ => ({ p with fds := update p.fds fd (some userdata) }.apply fd mask, true)

def del (p : KQueuePoller U) (fd : Fd) : KQueuePoller U × Bool :=
  if !p.valid then (p, false)
  else
    match p.fds fd with
    | none => (p, false)
    | some _ =>
        (({ p with fds := update p.fds fd none }.bufferChange fd .read
          .delete).bufferChange fd .write .delete, true)

def flushPending (p : KQueuePoller U) : KQueuePoller U :=
  { p with kernel := (p.kernel.submit p.pending).1, pending := [] }

def step (p : KQueuePoller U) : PollerCall U → Option (KQueuePoller U)
  | .add fd mask userdata => some { (p.add fd mask userdata).1 with
      replies := p.replies ++ [(p.add fd mask userdata).2] }
  | .mod fd mask userdata => some { (p.mod fd mask userdata).1 with
      replies := p.replies ++ [(p.mod fd mask userdata).2] }
  | .del fd => some { (p.del fd).1 with replies := p.replies ++ [(p.del fd).2] }
  | .flush => some p.flushPending

end KQueuePoller

/-! ## The epoll back end -/

def epollIn : UInt32 := 0x1
def epollOut : UInt32 := 0x4
def epollEt : UInt32 := 0x80000000

structure EpollPoller (U : Type*) where
  /-- `epfd_ != -1` -/
  valid : Bool
  fds : Fd → Option U
  interest : Fd → Option UInt32
  /-- history: what `add`, `mod` and `del` returned -/
  replies : List Bool

namespace EpollPoller

variable {U : Type*}

def init (valid : Bool) : EpollPoller U := ⟨valid, fun _ => none, fun _ => none, []⟩

def toEpoll (m : EventMask) : UInt32 :=
  let e : UInt32 := 0
  let e := if m.readable then e ||| epollIn else e
  let e := if m.writable then e ||| epollOut else e
  e ||| epollEt

/-- `epoll_ctl(EPOLL_CTL_ADD)`, which fails with `EEXIST`, … -/
def ctlAdd (p : EpollPoller U) (fd : Fd) (events : UInt32) : Option (EpollPoller U) :=
  if (p.interest fd).isSome then none
  else some { p with interest := update p.interest fd (some events) }

def ctlMod (p : EpollPoller U) (fd : Fd) (events : UInt32) : Option (EpollPoller U) :=
  if (p.interest fd).isSome then
    some { p with interest := update p.interest fd (some events) }
  else none

def ctlDel (p : EpollPoller U) (fd : Fd) : Option (EpollPoller U) :=
  if (p.interest fd).isSome then some { p with interest := update p.interest fd none }
  else none

def add (p : EpollPoller U) (fd : Fd) (mask : EventMask) (userdata : U) : EpollPoller U × Bool :=
  if !p.valid then (p, false)
  else
    match p.ctlAdd fd (toEpoll mask) with
    | none => (p, false)
    | some p' => ({ p' with fds := update p'.fds fd (some userdata) }, true)

def mod (p : EpollPoller U) (fd : Fd) (mask : EventMask) (userdata : U) : EpollPoller U × Bool :=
  if !p.valid then (p, false)
  else
    match p.ctlMod fd (toEpoll mask) with
    | none => (p, false)
    | some p' =>
        match p'.fds fd with
        | none => (p', true)
        | some _ => ({ p' with fds := update p'.fds fd (some userdata) }, true)

def del (p : EpollPoller U) (fd : Fd) : EpollPoller U × Bool :=
  if !p.valid then (p, false)
  else
    let p := { p with fds := update p.fds fd none }
    match p.ctlDel fd with
    | none => (p, false)
    | some p' => (p', true)

def step (p : EpollPoller U) : PollerCall U → Option (EpollPoller U)
  | .add fd mask userdata => some { (p.add fd mask userdata).1 with
      replies := p.replies ++ [(p.add fd mask userdata).2] }
  | .mod fd mask userdata => some { (p.mod fd mask userdata).1 with
      replies := p.replies ++ [(p.mod fd mask userdata).2] }
  | .del fd => some { (p.del fd).1 with replies := p.replies ++ [(p.del fd).2] }
  | .flush => some p

end EpollPoller

/-! ## The two agree -/

section

variable {U : Type*}

def EventMask.wants (m : EventMask) : Filter → Bool
  | .read => m.readable
  | .write => m.writable

def EpollPoller.wants (p : EpollPoller U) (fd : Fd) (filter : Filter) : Bool :=
  match p.interest fd, filter with
  | none, _ => false
  | some events, .read => events &&& epollIn != 0
  | some events, .write => events &&& epollOut != 0

def KQueuePoller.wants (p : KQueuePoller U) (fd : Fd) (filter : Filter) : Bool :=
  p.flushPending.kernel.registered (fd, filter)

theorem toEpoll_wants (m : EventMask) :
    (EpollPoller.toEpoll m &&& epollIn != 0) = m.readable ∧
    (EpollPoller.toEpoll m &&& epollOut != 0) = m.writable := by
  obtain ⟨readable, writable, closed⟩ := m
  cases readable <;> cases writable <;> cases closed <;> decide

theorem KQueuePoller.wants_bufferChange (p : KQueuePoller U) (fd : Fd) (filter : Filter)
    (flags : ChangeFlags) (fd' : Fd) (filter' : Filter) :
    (p.bufferChange fd filter flags).wants fd' filter' =
      if (fd', filter') = (fd, filter) then decide (flags = .add) else p.wants fd' filter' := by
  show (p.kernel.submit (p.pending ++ [⟨fd, filter, flags⟩])).1.registered (fd', filter') = _
  rw [Kqueue.submit_append]
  show (((p.kernel.submit p.pending).1.change ⟨fd, filter, flags⟩).1).registered (fd', filter') = _
  rw [Kqueue.registered_change]
  exact update_apply _ _ _ _

theorem KQueuePoller.wants_apply (p : KQueuePoller U) (fd : Fd) (mask : EventMask) (fd' : Fd)
    (filter : Filter) :
    (p.apply fd mask).wants fd' filter =
      if fd' = fd then mask.wants filter else p.wants fd' filter := by
  unfold apply
  rw [wants_bufferChange, wants_bufferChange]
  by_cases hfd : fd' = fd
  · subst hfd
    cases filter with
    | read => cases hmask : mask.readable <;> simp [EventMask.wants, hmask]
    | write => cases hmask : mask.writable <;> simp [EventMask.wants, hmask]
  · simp [hfd]

theorem KQueuePoller.wants_delete (p : KQueuePoller U) (fd fd' : Fd) (filter : Filter) :
    ((p.bufferChange fd .read .delete).bufferChange fd .write .delete).wants fd' filter =
      if fd' = fd then false else p.wants fd' filter := by
  rw [wants_bufferChange, wants_bufferChange]
  by_cases hfd : fd' = fd
  · subst hfd
    cases filter <;> simp
  · simp [hfd]

/-- Both pollers answer alike and wait for the same. -/
structure Agrees (e : EpollPoller U) (k : KQueuePoller U) : Prop where
  valid : e.valid = k.valid
  fds : e.fds = k.fds
  listed : ∀ fd, (e.interest fd).isSome = (k.fds fd).isSome
  wants : ∀ fd filter, e.wants fd filter = k.wants fd filter
  replies : e.replies = k.replies

theorem agrees_init (valid : Bool) :
    Agrees (EpollPoller.init valid : EpollPoller U) (KQueuePoller.init valid) where
  valid := rfl
  fds := rfl
  listed _ := rfl
  wants _ _ := rfl
  replies := rfl

variable {e : EpollPoller U} {k : KQueuePoller U}

theorem Agrees.reply (h : Agrees e k) {replies replies' : List Bool}
    (hreplies : replies = replies') : Agrees { e with replies } { k with replies := replies' } :=
  ⟨h.valid, h.fds, h.listed, h.wants, hreplies⟩

/-- Both take the mask and the userdata for the descriptor: what `add` and `mod` do when they
succeed. -/
theorem Agrees.assign (h : Agrees e k) (fd : Fd) (mask : EventMask) (userdata : U) :
    Agrees
      { e with interest := update e.interest fd (some (EpollPoller.toEpoll mask))
               fds := update e.fds fd (some userdata) }
      ({ k with fds := update k.fds fd (some userdata) }.apply fd mask) where
  valid := h.valid
  fds := congrArg (fun f => update f fd (some userdata)) h.fds
  listed fd' := by
    show (update e.interest fd _ fd').isSome = (update k.fds fd _ fd').isSome
    by_cases hfd : fd' = fd
    · subst hfd
      simp
    · simp [update_of_ne hfd, h.listed]
  wants fd' filter := by
    rw [KQueuePoller.wants_apply]
    have hmask := toEpoll_wants mask
    by_cases hfd : fd' = fd
    · subst hfd
      cases filter with
      | read => simpa [EpollPoller.wants, EventMask.wants] using hmask.1
      | write => simpa [EpollPoller.wants, EventMask.wants] using hmask.2
    · rw [if_neg hfd]
      show _ = k.wants fd' filter
      rw [← h.wants]
      simp [EpollPoller.wants, update_of_ne hfd]
  replies := h.replies

theorem Agrees.erase (h : Agrees e k) (fd : Fd) :
    Agrees
      { e with interest := update e.interest fd none
               fds := update e.fds fd none }
      (({ k with fds := update k.fds fd none }.bufferChange fd .read .delete).bufferChange
        fd .write .delete) where
  valid := h.valid
  fds := congrArg (fun f => update f fd none) h.fds
  listed fd' := by
    show (update e.interest fd _ fd').isSome = (update k.fds fd _ fd').isSome
    by_cases hfd : fd' = fd
    · subst hfd
      simp
    · simp [update_of_ne hfd, h.listed]
  wants fd' filter := by
    rw [KQueuePoller.wants_delete]
    by_cases hfd : fd' = fd
    · subst hfd
      simp [EpollPoller.wants]
    · rw [if_neg hfd]
      show _ = k.wants fd' filter
      rw [← h.wants]
      simp [EpollPoller.wants, update_of_ne hfd]
  replies := h.replies

/-- No descriptor is added twice. -/
def AddsFresh (k : KQueuePoller U) : PollerCall U → Prop
  | .add fd _ _ => k.fds fd = none
  | _ => True

instance [DecidableEq U] (k : KQueuePoller U) (call : PollerCall U) :
    Decidable (AddsFresh k call) := by
  unfold AddsFresh
  split <;> infer_instance

theorem Agrees.add (h : Agrees e k) {fd : Fd} (mask : EventMask) (userdata : U)
    (hfresh : k.fds fd = none) :
    (e.add fd mask userdata).2 = (k.add fd mask userdata).2 ∧
      Agrees (e.add fd mask userdata).1 (k.add fd mask userdata).1 := by
  have hlisted : (e.interest fd).isSome = false := by rw [h.listed, hfresh]; rfl
  cases hvalid : k.valid with
  | false => simp [EpollPoller.add, KQueuePoller.add, h.valid, hvalid, h]
  | true =>
    simpa [EpollPoller.add, KQueuePoller.add, EpollPoller.ctlAdd, h.valid, hvalid, hlisted]
      using h.assign fd mask userdata

theorem Agrees.mod (h : Agrees e k) (fd : Fd) (mask : EventMask) (userdata : U) :
    (e.mod fd mask userdata).2 = (k.mod fd mask userdata).2 ∧
      Agrees (e.mod fd mask userdata).1 (k.mod fd mask userdata).1 := by
  have hlisted := h.listed fd
  have hfds := congrFun h.fds fd
  cases hvalid : k.valid with
  | false => simp [EpollPoller.mod, KQueuePoller.mod, h.valid, hvalid, h]
  | true =>
    cases hfd : k.fds fd with
    | none =>
      rw [hfd] at hlisted
      simp [EpollPoller.mod, KQueuePoller.mod, EpollPoller.ctlMod, h.valid, hvalid, hlisted, hfd, h]
    | some old =>
      rw [hfd] at hlisted hfds
      simpa [EpollPoller.mod, KQueuePoller.mod, EpollPoller.ctlMod, h.valid, hvalid, hlisted, hfd,
        hfds] using h.assign fd mask userdata

theorem Agrees.del (h : Agrees e k) (fd : Fd) :
    (e.del fd).2 = (k.del fd).2 ∧ Agrees (e.del fd).1 (k.del fd).1 := by
  have hlisted := h.listed fd
  have hfds := congrFun h.fds fd
  cases hvalid : k.valid with
  | false => simp [EpollPoller.del, KQueuePoller.del, h.valid, hvalid, h]
  | true =>
    cases hfd : k.fds fd with
    | none =>
      -- erasing an entry that is not there changes nothing
      rw [hfd] at hlisted hfds
      have hsame : update e.fds fd none = e.fds := by
        rw [← hfds]
        exact update_eq_self fd e.fds
      have hkeep : Agrees { e with fds := update e.fds fd none } k :=
        ⟨h.valid, hsame.trans h.fds, h.listed, h.wants, h.replies⟩
      simpa [EpollPoller.del, KQueuePoller.del, EpollPoller.ctlDel, h.valid, hvalid, hlisted, hfd]
        using hkeep
    | some old =>
      rw [hfd] at hlisted
      simpa [EpollPoller.del, KQueuePoller.del, EpollPoller.ctlDel, h.valid, hvalid, hlisted, hfd]
        using h.erase fd

theorem Agrees.step {k' : KQueuePoller U} {call : PollerCall U} (h : Agrees e k)
    (hfresh : AddsFresh k call) (hstep : k.step call = some k') :
    ∃ e', e.step call = some e' ∧ Agrees e' k' := by
  cases call with
  | add fd mask userdata =>
    cases hstep
    obtain ⟨hreply, hnext⟩ := h.add mask userdata hfresh
    exact ⟨_, rfl, hnext.reply (by rw [h.replies, hreply])⟩
  | mod fd mask userdata =>
    cases hstep
    obtain ⟨hreply, hnext⟩ := h.mod fd mask userdata
    exact ⟨_, rfl, hnext.reply (by rw [h.replies, hreply])⟩
  | del fd =>
    cases hstep
    obtain ⟨hreply, hnext⟩ := h.del fd
    exact ⟨_, rfl, hnext.reply (by rw [h.replies, hreply])⟩
  | flush =>
    cases hstep
    exact ⟨e, rfl, h.valid, h.fds, h.listed, h.wants, h.replies⟩

/-- **The two back ends agree.** For every sequence of `add`, `mod` and `del`, with flushes of the
kqueue side anywhere in between, in which `add` is only called for descriptors that are not
registered: the calls returned the same, and once the kqueue side has flushed, both have the same
descriptors registered, with the same userdata and the same Readable and Writable interest. -/
theorem pollers_agree {valid : Bool} {calls : List (PollerCall U)} {k : KQueuePoller U}
    (hrun : exec KQueuePoller.step (KQueuePoller.init valid) calls = some k)
    (hfresh : Meets KQueuePoller.step AddsFresh (KQueuePoller.init valid) calls) :
    ∃ e, exec EpollPoller.step (EpollPoller.init valid) calls = some e ∧
      e.replies = k.replies ∧
      (∀ fd, e.fds fd = k.flushPending.fds fd) ∧
      (∀ fd, (e.interest fd).isSome = (k.flushPending.fds fd).isSome) ∧
      (∀ fd filter, e.wants fd filter = k.flushPending.kernel.registered (fd, filter)) := by
  have hsim : ∀ (e : EpollPoller U) k call k', Agrees e k → AddsFresh k call →
      KQueuePoller.step k call = some k' → ∃ e', EpollPoller.step e call = some e' ∧ Agrees e' k' :=
    fun _ _ _ _ h hfresh hstep => h.step hfresh hstep
  obtain ⟨e, he, hagrees⟩ := exec_simulates hsim (agrees_init valid) hfresh hrun
  exact ⟨e, he, hagrees.replies, fun fd => congrFun hagrees.fds fd, hagrees.listed, hagrees.wants⟩

end

/-- A descriptor is added, switched to Writable, deleted and, its number being reused, added again;
another one was never registered. -/
def reused : List (PollerCall Nat) :=
  [.add 5 .Readable 1, .mod 5 .Writable 2, .flush, .del 5, .add 5 .Readable 3,
   .mod 9 .Readable 4, .del 9]

theorem pollers_agree_reused :
    ∃ k e, exec KQueuePoller.step (KQueuePoller.init true) reused = some k ∧
      exec EpollPoller.step (EpollPoller.init true) reused = some e ∧
      e.replies = [true, true, true, true, false, false] ∧
      e.fds 5 = some 3 ∧ e.wants 5 .read = true ∧ e.wants 5 .write = false := by
  have hends : ∃ k ∈ exec KQueuePoller.step (KQueuePoller.init true) reused,
      k.replies = [true, true, true, true, false, false] ∧ k.flushPending.fds 5 = some 3 ∧
      k.flushPending.kernel.registered (5, .read) = true ∧
      k.flushPending.kernel.registered (5, .write) = false := by decide +kernel
  obtain ⟨k, hrun, hreplies, hdata, hread, hwrite⟩ := hends
  obtain ⟨e, he, hsame, hfds, -, hwants⟩ := pollers_agree hrun (by decide +kernel)
  refine ⟨k, e, hrun, he, hsame.trans hreplies, (hfds 5).trans hdata, ?_, ?_⟩
  · rw [hwants, hread]
  · rw [hwants, hwrite]

end Muses
