import Muses.Task
import Muses.Proxy.Coroutine

/-!
# The proxy with the frames of its coroutines

`Muses.Proxy.Server` keeps the frame of a client coroutine and those of the helpers it awaits in one
record, and the poller's `userdata` names the client. Here the frames are the ones of `Muses.Task`:
`Sys` runs the two side by side. Each step of the proxy comes with what it does to the frames: the
tasks that are awaited and that return (`script`), the handles that `wait` hands out and that
`resume_handle` resumes, the tasks that are destroyed.
-/

namespace Muses.Proxy

open Muses.Core Search HttpContext Http
open Coro (Handle Machine Op)

/-! ## What a step does to the frames -/

/-- How many frames of helpers there are above the one of `serve_client`: `acquire_upstream` and
`connect_upstream`, or the one that reads or writes. -/
def Pc.depth : Pc → Nat
  | .acquiring _ _ => 0
  | .finished => 0
  | .connecting _ _ _ => 2
  | _ => 1

def Round.isDone {σ α : Type} : Round σ α → Bool
  | .done _ => true
  | _ => false

def Pc.returns (pc : Pc) (io : Io) : Bool :=
  match pc, io.call with
  | .readHead buf, .read r => (readUntil blankLine buf r).isDone
  | .readBody _ _ want buf, .read r => (readN want buf r).isDone
  | .refusing resp off, .write w => (writeAllAsync resp off w).isDone
  | .connecting _ _ _, .connectDone _ => true
  | .forwarding x _ _ off, .write w => (writeAllAsync x.fwd off w).isDone
  | .readUpHead _ _ _ buf, .read r => (readUntil blankLine buf r).isDone
  | .readUp _ _ _ _ part buf, .read r => (part.round buf r).isDone
  | .answering _ resp off, .write w => (writeAllAsync resp off w).isDone
  | _, _ => false

/-- `acquire_upstream` takes a pooled descriptor, or awaits `connect_upstream`; both return unless
the connection is not yet there. -/
def acquireOps : Call → List Op
  | .reuse => [.call, .ret]
  | .connect (.inProgress _) => [.call, .call]
  | _ => [.call, .call, .ret, .ret]

def Pc.throws (pc : Pc) (io : Io) : Bool :=
  match pc, io.call with
  | .readHead buf, .read r => (find blankLine (buf ++ readBytes r)).isSome
  | .readUpHead _ _ _ _, _ => true
  | .readUp _ _ _ _ _ _, _ => true
  | _, _ => false

def Pc.leave (pc : Pc) (io : Io) : List Op :=
  match pc with
  | .acquiring _ _ => acquireOps io.call
  | pc => if pc.returns io then List.replicate pc.depth .ret else []

def Pc.enter (pc : Pc) (io : Io) (pc' : Pc) : List Op :=
  match pc' with
  | .finished => if pc.throws io then [.call, .ret] else []
  | .connecting _ _ _ => []
  | pc' =>
      match pc with
      | .acquiring _ _ => List.replicate pc'.depth .call
      | pc => if pc.returns io then List.replicate pc'.depth .call else []

def Frame.pause (f : Frame) (io : Io) : List Op :=
  match f.waiting with
  | some fd => [.awaitIo fd io.addOk]
  | none => if f.pc = .finished then [.finish] else []

/-- What the active coroutine, with the record `f` before the step and `f'` behind it, does to the
frames. -/
def script (f : Frame) (io : Io) (f' : Frame) : List Op :=
  f.pc.leave io ++ f.pc.enter io f'.pc ++ f'.pause io

/-! ## The proxy and the frames -/

structure Sys where
  proxy : State
  machine : Machine
  /-- the handle in the `Task` of each client -/
  root : ConnId → Handle
  /-- the events that are still to be processed, with their `userdata` -/
  pending : List (Fd × Option Handle)

namespace Sys

def init : Sys where
  proxy := .init
  machine := .init
  root := fun _ => 0
  pending := []

/-- `serve_client` is created and resumed, and awaits `read_until` at once. -/
def start (alloc : Machine → Handle) (σ : Sys) : Option Machine :=
  let h := alloc σ.machine
  ((σ.machine.create h).bind fun m => m.resume h).bind fun m => m.call (alloc m)

def run (alloc : Machine → Handle) (σ : Sys) (io : Io) (s' : State) : Option Machine :=
  match σ.proxy.active with
  | some id =>
      match σ.proxy.frames id, s'.frames id with
      | some f, some f' => exec (Op.step alloc) σ.machine (script f io f')
      | _, _ => none
  | none => none

def live (σ : Sys) (id : ConnId) : Bool :=
  match σ.proxy.frames id with
  | some f => σ.proxy.liveTasks f.client = some id
  | none => false

def dropTasks (σ : Sys) (ids : List ConnId) : Option Machine :=
  ids.foldlM (fun m id => m.dropTask (σ.root id)) σ.machine

/-- `task.resume()` has returned. A task that is done is dropped; another one is moved into the map,
over the one that may be there. -/
def spawned (σ : Sys) : Option Machine :=
  match σ.proxy.pc with
  | .spawning id _ _ =>
      if σ.machine.isDone (σ.root id) then σ.machine.dropTask (σ.root id)
      else
        match (σ.proxy.frames id).bind fun f => σ.proxy.liveTasks f.client with
        | some old => σ.machine.dropTask (σ.root old)
        | none => some σ.machine
  | _ => none

def step (cfg : Config) (alloc : Machine → Handle) (σ : Sys) (a : Act) : Option Sys :=
  (Proxy.step cfg σ.proxy a).bind fun s' =>
    match a with
    | .run io => (σ.run alloc io s').map fun m => { σ with proxy := s', machine := m }
    | .poll evs =>
        some { σ with
          proxy := s', pending := evs.map fun e => (e.1, σ.machine.userdata e.1) }
    | .acceptClients => some { σ with proxy := s', pending := σ.pending.tail }
    | .skip => some { σ with proxy := s', pending := σ.pending.tail }
    | .resume =>
        match σ.pending with
        | (fd, some h) :: rest =>
            ((σ.machine.del fd).resume h).map fun m =>
              { σ with proxy := s', machine := m, pending := rest }
        | _ => none
    | .accept (.conn _) =>
        (σ.start alloc).map fun m =>
          { σ with
            proxy := s'
            machine := m
            root := Function.update σ.root σ.proxy.opened (alloc σ.machine) }
    | .spawned => σ.spawned.map fun m => { σ with proxy := s', machine := m }
    | .reap =>
        (σ.dropTasks ((List.range σ.proxy.opened).filter fun id =>
          σ.live id && σ.machine.isDone (σ.root id))).map fun m =>
            { σ with proxy := s', machine := m }
    | .finishStop =>
        (σ.dropTasks ((List.range σ.proxy.opened).filter fun id => σ.live id)).map fun m =>
          { σ with proxy := s', machine := m }
    | _ => some { σ with proxy := s' }

end Sys

/-! ## The script fits the records -/

section Script

variable {cfg : Config} {s s' : State} {id : ConnId} {f f' : Frame} {io : Io}

theorem climb_replicate_ret (d : Nat) (ops : List Op) :
    Op.climb d (List.replicate d .ret ++ ops) = Op.climb 0 ops := by
  induction d with
  | zero => rfl
  | succ d ih => exact ih

theorem climb_replicate_call (d n : Nat) :
    Op.climb d (List.replicate n .call) = some (d + n) := by
  induction n generalizing d with
  | zero => rfl
  | succ n ih =>
    show Op.climb (d + 1) (List.replicate n .call) = _
    rw [ih]
    congr 1
    omega

theorem proceed_stays {σ α : Type} {round : Round σ α} {fd : Fd} {mask : EventMask} {ok : Bool}
    {pc : σ → Pc} {k : State → α → State} (hround : round.isDone = false)
    (hid' : (s.proceed id f fd mask ok pc k round).frames id = some f')
    (hpc : ∀ v, (pc v).depth = f.pc.depth ∧ pc v ≠ .finished) :
    f'.pc.depth = f.pc.depth ∧ f'.pc ≠ .finished := by
  cases round with
  | again v =>
    obtain rfl : { f with pc := pc v } = f' := by simpa [State.proceed, State.goto] using hid'
    exact hpc v
  | await v =>
    obtain rfl : { f with pc := pc v, waiting := some fd } = f' := by
      simpa [State.proceed, State.awaitIo] using hid'
    exact hpc v
  | done a => cases hround

theorem runFrame_stays (hrun : s.runFrame cfg id f io = some s') (hid' : s'.frames id = some f')
    (hacquire : ∀ x a, f.pc ≠ .acquiring x a) (hret : f.pc.returns io = false) :
    f'.pc.depth = f.pc.depth ∧ f'.pc ≠ .finished := by
  unfold State.runFrame at hrun
  split at hrun
  · next buf r hpc hcall =>
    obtain ⟨s₁, -, rfl⟩ := Option.map_eq_some_iff.mp hrun
    exact proceed_stays (by simpa [Pc.returns, hpc, hcall] using hret) hid'
      fun v => ⟨by rw [hpc]; rfl, nofun⟩
  · next info body want buf r hpc hcall =>
    obtain ⟨s₁, -, rfl⟩ := Option.map_eq_some_iff.mp hrun
    exact proceed_stays (by simpa [Pc.returns, hpc, hcall] using hret) hid'
      fun v => ⟨by rw [hpc]; rfl, nofun⟩
  · next resp off w hpc hcall =>
    obtain ⟨-, hrun⟩ := Option.ite_none_right_eq_some.mp hrun
    cases hrun
    exact proceed_stays (by simpa [Pc.returns, hpc, hcall] using hret) hid'
      fun v => ⟨by rw [hpc]; rfl, nofun⟩
  · next x a hpc => exact absurd hpc (hacquire x a)
  · next hpc hcall => simp [Pc.returns, hpc, hcall] at hret
  · next x a fd off w hpc hcall =>
    obtain ⟨-, hrun⟩ := Option.ite_none_right_eq_some.mp hrun
    cases hrun
    exact proceed_stays (by simpa [Pc.returns, hpc, hcall] using hret) hid'
      fun v => ⟨by rw [hpc]; rfl, nofun⟩
  · next x a fd buf r hpc hcall =>
    obtain ⟨s₁, -, rfl⟩ := Option.map_eq_some_iff.mp hrun
    exact proceed_stays (by simpa [Pc.returns, hpc, hcall] using hret) hid'
      fun v => ⟨by rw [hpc]; rfl, nofun⟩
  · next x a fd resp part buf r hpc hcall =>
    obtain ⟨s₁, -, rfl⟩ := Option.map_eq_some_iff.mp hrun
    exact proceed_stays (by simpa [Pc.returns, hpc, hcall] using hret) hid'
      fun v => ⟨by rw [hpc]; rfl, nofun⟩
  · next x resp off w hpc hcall =>
    obtain ⟨-, hrun⟩ := Option.ite_none_right_eq_some.mp hrun
    cases hrun
    exact proceed_stays (by simpa [Pc.returns, hpc, hcall] using hret) hid'
      fun v => ⟨by rw [hpc]; rfl, nofun⟩
  · cases hrun

theorem runFrame_inProgress {x : Exchange} {a : UInt32} {fd : Fd} (hpc : f.pc = .acquiring x a)
    (hcall : io.call = .connect (.inProgress fd)) (hrun : s.runFrame cfg id f io = some s')
    (hid' : s'.frames id = some f') : f'.pc = .connecting x a fd := by
  simp only [State.runFrame, hpc, State.acquireUpstream, hcall] at hrun
  cases hpool : s.pools x.route.key with
  | nil =>
    rw [hpool] at hrun
    obtain ⟨s₁, -, rfl⟩ := Option.map_eq_some_iff.mp hrun
    simp only [State.awaitIo, Function.update_self, Option.some.injEq] at hid'
    rw [← hid']
  | cons g rest =>
    rw [hpool] at hrun
    cases hrun

theorem Pc.leave_eq {pc : Pc} (h : ∀ x a, pc ≠ .acquiring x a) (io : Io) :
    pc.leave io = if pc.returns io then List.replicate pc.depth .ret else [] := by
  cases pc with
  | acquiring x a => exact absurd rfl (h x a)
  | _ => rfl

theorem Pc.enter_eq {pc pc' : Pc} (h : ∀ x a, pc ≠ .acquiring x a) (io : Io)
    (hfin : pc' ≠ .finished) (hconn : ∀ x a fd, pc' ≠ .connecting x a fd) :
    pc.enter io pc' = if pc.returns io then List.replicate pc'.depth .call else [] := by
  cases pc' with
  | finished => exact absurd rfl hfin
  | connecting x a fd => exact absurd rfl (hconn x a fd)
  | _ =>
    cases pc with
    | acquiring x a => exact absurd rfl (h x a)
    | _ => rfl

theorem Pc.enter_acquiring {pc' : Pc} (x : Exchange) (a : UInt32) (io : Io)
    (hfin : pc' ≠ .finished) (hconn : ∀ x a fd, pc' ≠ .connecting x a fd) :
    (Pc.acquiring x a).enter io pc' = List.replicate pc'.depth .call := by
  cases pc' with
  | finished => exact absurd rfl hfin
  | connecting x a fd => exact absurd rfl (hconn x a fd)
  | _ => rfl

theorem script_climb (hungry : f.pc.Hungry) (hrun : s.runFrame cfg id f io = some s')
    (hid' : s'.frames id = some f') :
    Op.climb f.pc.depth (f.pc.leave io ++ f.pc.enter io f'.pc) = some f'.pc.depth := by
  obtain ⟨-, g, hg, -, hnext⟩ := (runFrame_leads hungry hrun).frames
  obtain rfl : f' = g := Option.some.inj (hid'.symm.trans hg)
  by_cases hacquire : ∃ x a, f.pc = .acquiring x a
  · obtain ⟨x, a, hpc⟩ := hacquire
    rw [hpc] at hnext ⊢
    have hfin : f'.pc ≠ .finished := by
      rcases hnext with hnext | ⟨-, hend⟩
      · exact hnext.ne_finished
      · cases hend
    by_cases hconn : ∃ y b fd, f'.pc = .connecting y b fd
    · obtain ⟨y, b, fd, hpc'⟩ := hconn
      rw [hpc'] at hnext ⊢
      obtain ⟨-, hcall⟩ := hnext.resolve_right nofun
      simp only [Pc.leave, hcall]
      rfl
    · rw [Pc.enter_acquiring x a io hfin fun y b fd h => hconn ⟨y, b, fd, h⟩]
      have hleave : ∀ ops, Op.climb 0 (acquireOps io.call ++ ops) = Op.climb 0 ops := by
        intro ops
        unfold acquireOps
        split
        · rfl
        · next fd hcall =>
          exact absurd ⟨x, a, fd, runFrame_inProgress hpc hcall hrun hid'⟩ hconn
        · rfl
      exact (hleave _).trans ((climb_replicate_call 0 _).trans (by rw [Nat.zero_add]))
  · have hnot : ∀ x a, f.pc ≠ .acquiring x a := fun x a h => hacquire ⟨x, a, h⟩
    have hconn : ∀ y b fd, f'.pc ≠ .connecting y b fd := by
      rintro y b fd hpc'
      rw [hpc'] at hnext
      exact hnot y b (hnext.resolve_right fun h => nomatch h.1).1
    rw [Pc.leave_eq hnot]
    cases hret : f.pc.returns io with
    | false =>
      obtain ⟨hdepth, hfin⟩ := runFrame_stays hrun hid' hnot hret
      rw [Pc.enter_eq hnot io hfin hconn, hret, hdepth]
      rfl
    | true =>
      simp only [if_true, climb_replicate_ret]
      by_cases hfin : f'.pc = .finished
      · rw [hfin]
        simp only [Pc.enter]
        split <;> rfl
      · rw [Pc.enter_eq hnot io hfin hconn, hret, if_pos rfl, climb_replicate_call, Nat.zero_add]

end Script

end Muses.Proxy
