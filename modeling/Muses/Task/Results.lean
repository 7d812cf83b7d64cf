import Muses.Task

/-!
# What a `co_await` of a `Task` yields

The promise of a `Task<T>` keeps the value that the coroutine returned or the exception that left
it, that of a `Task<void>` the exception. `await_resume` asks the first for a value and the second
for nothing: a `Task<T>` that has failed is reported as `std::bad_variant_access`, whatever the
exception was, and a `Task<void>` that has failed as one that has returned.

A nest of coroutines that await each other is a `Body`, a tree in which `next` says how the awaiting
coroutine goes on from what its `co_await` expression did. `step` runs it with a stack of awaiting
coroutines; `Body.outcome` is its meaning if `co_await` hid nothing.

* `Promise`, `awaitResume_eq_iff` — what an awaiting coroutine is told;
* `Tracks`, `frames_follow` — the stack is the chain of frames of `Muses.Task`.
-/

namespace Muses.Coro

open Muses.Core

/-! ## Promises -/

inductive Kind where
  | value
  | void
  deriving DecidableEq, Repr

abbrev Kind.Result (V : Type) : Kind → Type
  | .value => V
  | .void => Unit

inductive Exc (E : Type) where
  | thrown (e : E)
  /-- `std::bad_variant_access` -/
  | badVariantAccess
  deriving DecidableEq, Repr

/-- How a coroutine ends, or a `co_await` expression: with a value or with an exception. -/
abbrev Ending (V E : Type) (k : Kind) : Type := Except (Exc E) (k.Result V)

inductive Variant (V E : Type) where
  | monostate
  | value (v : V)
  | exception (e : Exc E)
  deriving DecidableEq, Repr

def Promise (V E : Type) : Kind → Type
  | .value => Variant V E
  | .void => Option (Exc E)

namespace Promise

variable {V E : Type} {k : Kind}

def init : (k : Kind) → Promise V E k
  | .value => Variant.monostate
  | .void => none

def returnValue : {k : Kind} → Promise V E k → k.Result V → Promise V E k
  | .value, _, v => Variant.value v
  | .void, p, _ => p

def unhandledException : {k : Kind} → Promise V E k → Exc E → Promise V E k
  | .value, _, e => Variant.exception e
  | .void, _, e => some e

def awaitResume : {k : Kind} → Promise V E k → Ending V E k
  | .value, Variant.value v => .ok v
  | .value, _ => .error .badVariantAccess
  | .void, _ => .ok ()

def ofEnding : Ending V E k → Promise V E k
  | .ok v => (init k).returnValue v
  | .error e => (init k).unhandledException e

def stored : {k : Kind} → Promise V E k → Option (Ending V E k)
  | .value, Variant.value v => some (.ok v)
  | .value, Variant.exception e => some (.error e)
  | .value, Variant.monostate => none
  | .void, some e => some (.error e)
  | .void, none => some (.ok ())

theorem stored_ofEnding (o : Ending V E k) : (ofEnding o).stored = some o := by
  cases k <;> cases o <;> rfl

end Promise

/-- An end that `await_resume` reports as it was: the coroutine has returned, or it is a `Task<T>`
and the exception was the one that is reported in any case. -/
def Crosses {V E : Type} : {k : Kind} → Ending V E k → Prop
  | _, .ok _ => True
  | .value, .error e => e = .badVariantAccess
  | .void, .error _ => False

instance {V E : Type} [DecidableEq E] {k : Kind} (o : Ending V E k) : Decidable (Crosses o) := by
  unfold Crosses
  split <;> infer_instance

/-- **What `await_resume` says is true** exactly for these ends. -/
theorem awaitResume_eq_iff {V E : Type} {k : Kind} (o : Ending V E k) :
    (Promise.ofEnding o).awaitResume = o ↔ Crosses o := by
  cases k with
  | value =>
    cases o with
    | ok v => exact iff_of_true rfl trivial
    | error e =>
      show Except.error Exc.badVariantAccess = Except.error e ↔ e = Exc.badVariantAccess
      rw [Except.error.injEq, eq_comm]
  | void =>
    cases o with
    | ok v => exact iff_of_true rfl trivial
    | error e => exact iff_of_false nofun id

/-! ## Nests of coroutines -/

inductive Body (V E : Type) : Kind → Type where
  | ret {k : Kind} (v : k.Result V) : Body V E k
  | throw {k : Kind} (e : Exc E) : Body V E k
  | await {k k' : Kind} (callee : Body V E k') (next : Ending V E k' → Body V E k) : Body V E k
  /-- `co_await` of an `IoAwaiter` -/
  | io {k : Kind} (fd : Fd) (next : Body V E k) : Body V E k

/-- The coroutines that await one of kind `k`, up to an outermost one of kind `r`. -/
inductive Awaiters (V E : Type) (r : Kind) : Kind → Type where
  | root : Awaiters V E r r
  | awaiter {k k' : Kind} (next : Ending V E k → Body V E k') (up : Awaiters V E r k') :
      Awaiters V E r k

inductive Config (V E : Type) (r : Kind) where
  | running {k : Kind} (body : Body V E k) (up : Awaiters V E r k)
  /-- suspended until the descriptor is ready -/
  | waiting {k : Kind} (fd : Fd) (body : Body V E k) (up : Awaiters V E r k)
  /-- the outermost coroutine is at its final suspension -/
  | done (promise : Promise V E r)

/-- History: an awaited task has ended, and this is what its `co_await` did. -/
structure Observation (V E : Type) where
  kind : Kind
  ended : Ending V E kind
  seen : Ending V E kind

/-- A body and those that await it, without addresses. -/
structure Nest (V E : Type) (r : Kind) where
  config : Config V E r
  history : List (Observation V E) := []

inductive Signal where
  | run
  | resume
  deriving DecidableEq, Repr

section

variable {V E : Type} {r k : Kind}

def leave (ended : Ending V E k) (history : List (Observation V E)) :
    Awaiters V E r k → Nest V E r
  | .root => ⟨.done (.ofEnding ended), history⟩
  | .awaiter next up =>
      let seen := (Promise.ofEnding ended).awaitResume
      ⟨.running (next seen) up, ⟨k, ended, seen⟩ :: history⟩

def Nest.step : Nest V E r → Signal → Option (Nest V E r)
  | ⟨.running (.ret v) up, history⟩, .run => some (leave (.ok v) history up)
  | ⟨.running (.throw e) up, history⟩, .run => some (leave (.error e) history up)
  | ⟨.running (.await callee next) up, history⟩, .run =>
      some ⟨.running callee (.awaiter next up), history⟩
  | ⟨.running (.io fd body) up, history⟩, .run => some ⟨.waiting fd body up, history⟩
  | ⟨.waiting _ body up, history⟩, .resume => some ⟨.running body up, history⟩
  | _, _ => none

def Nest.start (body : Body V E r) : Nest V E r := ⟨.running body .root, []⟩

/-! ## The meaning of a nest -/

def Body.outcome : {k : Kind} → Body V E k → Ending V E k
  | _, .ret v => .ok v
  | _, .throw e => .error e
  | _, .await callee next => (next callee.outcome).outcome
  | _, .io _ next => next.outcome

def Awaiters.outcome : {k : Kind} → Awaiters V E r k → Ending V E k → Ending V E r
  | _, .root, o => o
  | _, .awaiter next up, o => up.outcome (next o).outcome

def Config.outcome : Config V E r → Option (Ending V E r)
  | .running body up => some (up.outcome body.outcome)
  | .waiting _ body up => some (up.outcome body.outcome)
  | .done promise => promise.stored

def Awaiters.isRoot : Awaiters V E r k → Bool
  | .root => true
  | .awaiter _ _ => false

/-- No exception leaves an awaited coroutine in this step, except for one that its awaiter is told
as it was. -/
def Contained (s : Nest V E r) (_ : Signal) : Prop :=
  match s.config with
  | @Config.running _ _ _ k (.throw e) up => up.isRoot = false → Crosses (.error e : Ending V E k)
  | _ => True

instance [DecidableEq E] (s : Nest V E r) (a : Signal) : Decidable (Contained s a) := by
  unfold Contained
  split <;> infer_instance

/-- Each result was seen as it ended, and the whole ends with `o`. -/
structure Transparent (o : Ending V E r) (s : Nest V E r) : Prop where
  history : ∀ x ∈ s.history, x.seen = x.ended
  outcome : s.config.outcome = some o

theorem leave_transparent {o : Ending V E k} {up : Awaiters V E r k}
    {history : List (Observation V E)} (hhistory : ∀ x ∈ history, x.seen = x.ended)
    (hcross : up.isRoot = false → Crosses o) : Transparent (up.outcome o) (leave o history up) := by
  cases up with
  | root => exact ⟨hhistory, Promise.stored_ofEnding o⟩
  | awaiter next up =>
    have hseen := (awaitResume_eq_iff o).mpr (hcross rfl)
    constructor
    · intro x hx
      rcases List.mem_cons.mp hx with rfl | hx
      · exact hseen
      · exact hhistory x hx
    · simp only [leave, Config.outcome, Awaiters.outcome, hseen]

variable {s : Nest V E r} {m : Machine}

theorem Transparent.step {o : Ending V E r} {s' : Nest V E r} {a : Signal} (h : Transparent o s)
    (hcontained : Contained s a) (hstep : s.step a = some s') : Transparent o s' := by
  obtain ⟨config, history⟩ := s
  obtain ⟨hhistory, houtcome⟩ := h
  cases config with
  | done promise => cases a <;> cases hstep
  | waiting fd body up =>
    cases a with
    | run => cases hstep
    | resume =>
      cases hstep
      exact ⟨hhistory, houtcome⟩
  | running body up =>
    cases a with
    | resume => cases body <;> cases hstep
    | run =>
      cases houtcome
      cases body with
      | ret v =>
        cases hstep
        exact leave_transparent hhistory fun _ => trivial
      | throw e =>
        cases hstep
        exact leave_transparent hhistory hcontained
      | await callee next | io fd body =>
        cases hstep
        exact ⟨hhistory, rfl⟩

/-! ## The end of a nest -/

theorem exec_leave (body : Body V E k) (up : Awaiters V E r k)
    (history : List (Observation V E)) :
    ∃ acts o history', exec Nest.step ⟨.running body up, history⟩ acts =
      some (leave o history' up) := by
  induction body generalizing history with
  | ret v => exact ⟨[.run], .ok v, history, rfl⟩
  | throw e => exact ⟨[.run], .error e, history, rfl⟩
  | await callee next ihcallee ihnext =>
    obtain ⟨acts, o, history', hcallee⟩ := ihcallee (.awaiter next up) history
    obtain ⟨acts', o', history'', hnext⟩ := ihnext (Promise.ofEnding o).awaitResume up
      (⟨_, o, (Promise.ofEnding o).awaitResume⟩ :: history')
    refine ⟨.run :: (acts ++ acts'), o', history'', ?_⟩
    rw [exec_cons_of_step _ (by rfl), exec_append, hcallee]
    exact hnext
  | io fd body ih =>
    obtain ⟨acts, o, history', hrun⟩ := ih up history
    refine ⟨.run :: .resume :: acts, o, history', ?_⟩
    rw [exec_cons_of_step _ (by rfl), exec_cons_of_step _ (by rfl)]
    exact hrun

theorem exec_done (up : Awaiters V E r k) (o : Ending V E k) (history : List (Observation V E)) :
    ∃ acts promise history', exec Nest.step (leave o history up) acts =
      some ⟨.done promise, history'⟩ := by
  induction up generalizing history with
  | root => exact ⟨[], _, history, rfl⟩
  | awaiter next up ih =>
    obtain ⟨acts, o', history', hrun⟩ := exec_leave (next (Promise.ofEnding o).awaitResume) up
      (⟨_, o, (Promise.ofEnding o).awaitResume⟩ :: history)
    obtain ⟨acts', promise, history'', hrest⟩ := ih o' history'
    refine ⟨acts ++ acts', promise, history'', ?_⟩
    rw [leave, exec_append, hrun]
    exact hrest

theorem Nest.ends (s : Nest V E r) :
    ∃ acts promise history, exec Nest.step s acts = some ⟨.done promise, history⟩ := by
  obtain ⟨config, history⟩ := s
  have hrunning {k : Kind} (body : Body V E k) (up : Awaiters V E r k) :
      ∃ acts promise history', exec Nest.step ⟨.running body up, history⟩ acts =
        some ⟨.done promise, history'⟩ := by
    obtain ⟨acts, o, history', hrun⟩ := exec_leave body up history
    obtain ⟨acts', promise, history'', hrest⟩ := exec_done up o history'
    exact ⟨acts ++ acts', promise, history'', by rw [exec_append, hrun]; exact hrest⟩
  cases config with
  | running body up => exact hrunning body up
  | waiting fd body up =>
    obtain ⟨acts, promise, history', hrun⟩ := hrunning body up
    exact ⟨.resume :: acts, promise, history', by rw [exec_cons_of_step _ (by rfl)]; exact hrun⟩
  | done promise => exact ⟨[], promise, history, rfl⟩

/-! ## Frames -/

def Awaiters.depth : {k : Kind} → Awaiters V E r k → Nat
  | _, .root => 0
  | _, .awaiter _ up => up.depth + 1

/-- What a step does to the frames: `co_await` of a task, the end of one, the end of the outermost
one, `co_await` of an `IoAwaiter`, `resume`. -/
def Config.frameStep (alloc : Machine → Handle) (m : Machine) :
    Config V E r → Signal → Option Machine
  | .running (.await _ _) _, .run => m.call (alloc m)
  | .running (.io fd _) _, .run => m.awaitIo fd true
  | .running (.ret _) up, .run => if up.isRoot then m.finalSuspend else m.ret
  | .running (.throw _) up, .run => if up.isRoot then m.finalSuspend else m.ret
  | .waiting fd _ _, .resume => (m.userdata fd).bind m.resume
  | _, _ => none

/-- The frames at `hs` are those of the nest. -/
def Tracks (m : Machine) (hs : List Handle) : Config V E r → Prop
  | .running _ up => Stack m hs ∧ hs.length = up.depth + 1
  | .waiting fd _ up => Chain m none (.io fd) hs ∧ m.current = none ∧ hs.Nodup ∧
      hs.length ≤ m.created ∧ m.userdata fd = hs.head? ∧ hs.length = up.depth + 1
  | .done _ => Chain m none .done hs ∧ m.current = none ∧ hs.length = 1

theorem Tracks.leave {hs : List Handle} {up : Awaiters V E r k} (hm : Stack m hs)
    (hlen : hs.length = up.depth + 1) (o : Ending V E k) (history : List (Observation V E)) :
    ∃ m' hs', (if up.isRoot then m.finalSuspend else m.ret) = some m' ∧
      Tracks m' hs' (Coro.leave o history up).config ∧ Shift m hs m' hs' := by
  obtain ⟨h, hs, rfl⟩ := List.exists_cons_of_ne_nil hm.ne
  cases up with
  | root =>
    obtain rfl : hs = [] := List.eq_nil_of_length_eq_zero (by simpa [Awaiters.depth] using hlen)
    obtain ⟨m', hfinal, hchain, hidle, hshift, -⟩ := hm.finish
    exact ⟨m', [h], hfinal, ⟨hchain, hidle, rfl⟩, hshift⟩
  | awaiter next up =>
    have hlen : hs.length = up.depth + 1 := by simpa [Awaiters.depth] using hlen
    obtain ⟨m', hret, hm', hshift, -⟩ := hm.ret (List.ne_nil_of_length_eq_add_one hlen)
    exact ⟨m', hs, hret, ⟨hm', hlen⟩, hshift⟩

/-- **The stack of a nest is a chain of frames**, and no step of it is undefined there. -/
theorem Tracks.step {alloc : Machine → Handle} (halloc : Allocates alloc) {hs : List Handle}
    {s' : Nest V E r} {a : Signal} (hb : m.Bounded) (h : Tracks m hs s.config)
    (hstep : s.step a = some s') :
    ∃ m' hs', s.config.frameStep alloc m a = some m' ∧ Tracks m' hs' s'.config ∧
      Shift m hs m' hs' := by
  obtain ⟨config, history⟩ := s
  cases config with
  | done promise => cases a <;> cases hstep
  | waiting fd body up =>
    cases a with
    | run => cases hstep
    | resume =>
      cases hstep
      obtain ⟨hchain, hidle, hnodup, hdepth, hdata, hlen⟩ := h
      obtain ⟨j, hs, rfl⟩ := List.exists_cons_of_ne_nil (List.ne_nil_of_length_eq_add_one hlen)
      obtain ⟨m', hresume, hm', hshift, -⟩ := hchain.resume hnodup hdepth hidle
      refine ⟨m', j :: hs, ?_, ⟨hm', hlen⟩, hshift⟩
      simpa [Config.frameStep, hdata] using hresume
  | running body up =>
    obtain ⟨hm, hlen⟩ := h
    cases a with
    | resume => cases body <;> cases hstep
    | run =>
      cases body with
      | ret v =>
        cases hstep
        exact Tracks.leave hm hlen (.ok v) history
      | throw e =>
        cases hstep
        exact Tracks.leave hm hlen (.error e) history
      | await callee next =>
        cases hstep
        obtain ⟨n, hn⟩ := hb
        obtain ⟨m', hcall, hm', hshift, -⟩ := hm.call (halloc m ⟨n, hn n (le_refl n)⟩)
        exact ⟨m', _, hcall, ⟨hm', by simp [hlen, Awaiters.depth]⟩, hshift⟩
      | io fd body =>
        cases hstep
        obtain ⟨m', hawait, hchain, hidle, hshift, hdata⟩ := hm.awaitIo fd true
        refine ⟨m', hs, hawait, ⟨hchain, hidle, hm.nodup, hm.depth.trans hshift.created, ?_, hlen⟩,
          hshift⟩
        rw [hdata, if_pos rfl, Function.update_self]

def Nest.stepWithFrames (alloc : Machine → Handle) (p : Nest V E r × Machine) (a : Signal) :
    Option (Nest V E r × Machine) :=
  (p.1.step a).bind fun s => (p.1.config.frameStep alloc p.2 a).map fun m => (s, m)

/-- **The frames follow every run of a nest.** At each moment the frames that have come about are
those of the chain: at every other address there is what was there at the start. -/
theorem frames_follow {alloc : Machine → Handle} (halloc : Allocates alloc) {h : Handle}
    (hm : Stack m [h]) (hb : m.Bounded) {body : Body V E r} {acts : List Signal}
    (hrun : exec Nest.step (.start body) acts = some s) :
    ∃ m' hs', exec (Nest.stepWithFrames alloc) (.start body, m) acts = some (s, m') ∧
      Tracks m' hs' s.config ∧ hs'.getLast? = some h ∧
      ∀ j, j ∉ hs' → m'.frames j = m.frames j := by
  let R (p : Nest V E r × Machine) (s : Nest V E r) : Prop :=
    p.1 = s ∧ ∃ hs, Tracks p.2 hs s.config ∧ Shift m [h] p.2 hs
  have hsim (p : Nest V E r × Machine) (s : Nest V E r) (a : Signal) (s' : Nest V E r)
      (hR : R p s) (_ : True) (hstep : s.step a = some s') :
      ∃ p', Nest.stepWithFrames alloc p a = some p' ∧ R p' s' := by
    obtain ⟨t, m₁⟩ := p
    obtain ⟨rfl, hs, htracks, hshift⟩ := hR
    obtain ⟨m', hs', hframes, htracks', hshift'⟩ :=
      Tracks.step halloc (hshift.bounded hb) htracks hstep
    exact ⟨(s', m'), by simp [Nest.stepWithFrames, hstep, hframes], rfl, hs', htracks',
      hshift.trans hshift'⟩
  have hstart : R (.start body, m) (.start body) := ⟨rfl, [h], ⟨hm, rfl⟩, .refl m [h]⟩
  obtain ⟨⟨t, m'⟩, hexec, rfl, hs', htracks, hshift⟩ :=
    exec_simulates hsim hstart (meets_of_forall (fun _ _ => trivial) _ _) hrun
  exact ⟨m', hs', hexec, htracks, hshift.root, fun j => hshift.outside⟩

def oneFrame : Machine :=
  { Machine.init.set 0 ⟨.running, none⟩ with current := some 0, created := 1 }

def readsFirst : Body Nat Nat .void :=
  .await (.io 4 (.ret 7) : Body Nat Nat .value) fun _ => .ret ()

theorem frames_follow_readsFirst :
    ∃ alloc m', ∃ s : Nest Nat Nat .void, ∃ hs', Tracks m' hs' s.config ∧
      (∀ j, j ∉ hs' → m'.frames j = oneFrame.frames j) ∧
      exec (Nest.stepWithFrames alloc) (.start readsFirst, oneFrame) [.run, .run, .resume, .run] =
        some (s, m') := by
  have halloc : Allocates fun m => Classical.epsilon fun h => m.frames h = none :=
    fun _ hfree => Classical.epsilon_spec hfree
  have hm : Stack oneFrame [0] := ⟨⟨rfl, trivial⟩, rfl, by simp, by simp, Nat.le_refl _⟩
  have hb : oneFrame.Bounded := ⟨1, fun h hh => Function.update_of_ne (Nat.ne_of_gt hh) _ _⟩
  have hends : ∃ s, exec Nest.step (.start readsFirst) [.run, .run, .resume, .run] = some s :=
    ⟨_, rfl⟩
  obtain ⟨s, hrun⟩ := hends
  obtain ⟨m', hs', hexec, htracks, -, houtside⟩ := frames_follow halloc hm hb hrun
  exact ⟨_, m', s, hs', htracks, houtside, hexec⟩

/-! ## Exceptions -/

/-- **An await tells how the task ended**, at every depth of a nest of `Task<T>` and `Task<void>`,
in every run in which exceptions are contained. The nest comes to its end, and what its outermost
coroutine leaves in the promise is what the nest means. -/
theorem await_transparent {body : Body V E r} {acts : List Signal} {s : Nest V E r}
    (hmeets : Meets Nest.step Contained (.start body) acts)
    (hrun : exec Nest.step (.start body) acts = some s) :
    (∀ x ∈ s.history, x.seen = x.ended) ∧ s.config.outcome = some body.outcome ∧
      ∃ acts' promise history, exec Nest.step s acts' = some ⟨.done promise, history⟩ := by
  have hstart : Transparent body.outcome (.start body) := ⟨nofun, rfl⟩
  obtain ⟨hhistory, houtcome⟩ := exec_invariant_of_meets
    (fun _ _ _ h hcontained hstep => Transparent.step h hcontained hstep) hstart hmeets hrun
  exact ⟨hhistory, houtcome, s.ends⟩

end

def failsAsReported : Body Nat Nat .value :=
  .await (.io 4 (.throw .badVariantAccess) : Body Nat Nat .value) fun
    | .ok v => .ret v
    | .error _ => .await (.ret () : Body Nat Nat .void) fun _ => .throw (.thrown 7)

theorem await_transparent_failsAsReported :
    ∃ s ∈ exec Nest.step (.start failsAsReported) [.run, .run, .resume, .run, .run, .run, .run],
      (∀ x ∈ s.history, x.seen = x.ended) ∧ s.config.outcome = some (.error (.thrown 7)) ∧
        ∃ acts' promise history, exec Nest.step s acts' = some ⟨.done promise, history⟩ := by
  have hmeets : Meets Nest.step Contained (.start failsAsReported)
      [.run, .run, .resume, .run, .run, .run, .run] := by decide
  exact ⟨_, rfl, await_transparent hmeets rfl⟩

def awaitsFailure (k : Kind) : Body Nat Nat .void :=
  .await (.throw (.thrown 7) : Body Nat Nat k) fun
    | .ok _ => .ret ()
    | .error e => .throw e

/-- The exception of a `Task<T>` comes out as another one, and that of a `Task<void>` not at all. -/
theorem exception_lost_in_await :
    (∃ s ∈ exec Nest.step (.start (awaitsFailure .value)) [.run, .run],
      s.history = [⟨.value, .error (.thrown 7), .error .badVariantAccess⟩]) ∧
    ∃ s ∈ exec Nest.step (.start (awaitsFailure .void)) [.run, .run],
      s.history = [⟨.void, .error (.thrown 7), .ok ()⟩] :=
  ⟨⟨_, rfl, rfl⟩, ⟨_, rfl, rfl⟩⟩

end Muses.Coro
