import Muses.ThreadPool

/-!
# Shutting a reactor down while jobs are under way

`Reactor::stop` and `~Reactor` of `muses/net/reactor.hpp` beside the worker jobs of
`dispatch_to_worker`. The workers are those of `Muses.ThreadPool`; a job computes a response, pushes
it into `outbox_` and calls `poller_->wakeup()`. `stop` joins the reactor thread, stops the outbox
and resets `poller_`. The destructor then destroys the members in reverse order of declaration:
`poller_`, `outbox_`, and at last `workers_`, whose destructor lets the workers run what is still
queued and joins them.

* `JobPc` — where a job stands; being inside a call of a member is a place of its own;
* `State.uses` — history: every time a job enters or leaves a call of a member, and whether that
  member was there;
* `ResetsIdle` — `poller_.reset()` is reached only when no job is queued or running.
-/

namespace Muses.Shutdown

open Muses.Core Function

inductive Member where
  | outbox
  | poller
  deriving DecidableEq, Repr

inductive JobPc where
  /-- in `handler_` -/
  | computing
  /-- inside `outbox_.push` -/
  | pushing
  /-- the response is handed back; about to call `poller_->wakeup()` -/
  | handedBack
  /-- inside `poller_->wakeup()` -/
  | waking
  | over
  deriving DecidableEq, Repr

/-- The callers of the pool: the reactor thread enqueues, the destructor stops. -/
inductive Caller where
  | loop
  | owner
  deriving DecidableEq, Repr

/-- Where the owner of the reactor stands. `inDestructor` says whether `stop` was called by the
destructor. -/
inductive OwnerPc where
  | serving
  /-- `running_` is false and the reactor thread is woken; joining it -/
  | joining (inDestructor : Bool)
  /-- about to `outbox_.stop()` -/
  | stoppingOutbox (inDestructor : Bool)
  /-- the connections are closed; about to `poller_.reset()` -/
  | resetting (inDestructor : Bool)
  | stopped
  /-- about to destroy `poller_`, then `outbox_`, then `workers_` -/
  | destroyingPoller
  | destroyingOutbox
  | destroyingWorkers
  /-- in `~ThreadPool`: in `stop_pool`, then joining the workers -/
  | stoppingWorkers
  | joiningWorkers
  | destroyed
  deriving DecidableEq, Repr

/-- The reactor, as far as jobs and shutdown go. A job is the descriptor it answers. -/
structure State (n : Nat) where
  pool : ThreadPool.State n Caller Nat
  /-- where the job that a worker runs stands -/
  job : Fin n → JobPc
  owner : OwnerPc
  running : Bool
  loopExited : Bool
  outboxStopped : Bool
  /-- the member has not been reset or destroyed -/
  live : Member → Bool
  /-- history: the uses by jobs, and whether the member was there -/
  uses : List (Member × Bool)

variable {n : Nat}

/-- After `start`. -/
def State.init : State n where
  pool := ThreadPool.State.init
  job := fun _ => .over
  owner := .serving
  running := true
  loopExited := false
  outboxStopped := false
  live := fun _ => true
  uses := []

def State.setJob (s : State n) (w : Fin n) (pc : JobPc) : State n :=
  { s with job := update s.job w pc }

def State.use (s : State n) (m : Member) : State n := { s with uses := s.uses ++ [(m, s.live m)] }

def State.lose (s : State n) (m : Member) : State n :=
  { s with live := update s.live m false }

/-- The next step of the job that worker `w` runs. `flag` says, in the handler, that an exception
gets past the `catch`, and in `push`, that the outbox is full. A job that could not hand its
response back closes the descriptor and is over. -/
def jobStep (s : State n) (w : Fin n) (flag : Bool) : Option (State n) :=
  match s.pool.worker w, s.job w with
  | .running _, .computing =>
      some (if flag then s.setJob w .over else (s.use .outbox).setJob w .pushing)
  | .running _, .pushing =>
      some ((s.use .outbox).setJob w (if s.outboxStopped || flag then .over else .handedBack))
  | .running _, .handedBack => some ((s.use .poller).setJob w .waking)
  | .running _, .waking => some ((s.use .poller).setJob w .over)
  | _, _ => none

/-- The next step of worker `w` outside its job. Taking a job off the queue starts it, and a job is
left only when it is over. -/
def workerStep (s : State n) (w : Fin n) (outcome : ThreadPool.Outcome) : Option (State n) :=
  match s.pool.worker w, s.job w with
  | .running _, .over =>
      (ThreadPool.step s.pool (.worker w outcome)).map fun pool => { s with pool }
  | .running _, _ => none
  | _, _ => (ThreadPool.step s.pool (.worker w outcome)).map fun pool =>
      { s with pool, job := update s.job w .computing }

def ownerStep (s : State n) : Option (State n) :=
  match s.owner with
  | .joining d => if s.loopExited then some { s with owner := .stoppingOutbox d } else none
  | .stoppingOutbox d => some { s with outboxStopped := true, owner := .resetting d }
  | .resetting d => some { s.lose .poller with owner := if d then .destroyingPoller else .stopped }
  | .destroyingPoller => some { s.lose .poller with owner := .destroyingOutbox }
  | .destroyingOutbox => some { s.lose .outbox with owner := .destroyingWorkers }
  | .destroyingWorkers => (ThreadPool.step s.pool (.stopPool .owner)).map fun pool =>
      { s with pool, owner := .stoppingWorkers }
  | .stoppingWorkers =>
      match s.pool.client .owner with
      | .idle _ => some { s with owner := .joiningWorkers }
      | _ => (ThreadPool.step s.pool (.client .owner none)).map fun pool => { s with pool }
  | .joiningWorkers =>
      if ∀ w, s.pool.worker w = .exited then some { s with owner := .destroyed } else none
  | .serving => none
  | .stopped => none
  | .destroyed => none

inductive Act (n : Nat) where
  /-- the reactor thread calls `dispatch_to_worker`, moves on in it, or leaves its loop -/
  | dispatch (fd : Nat)
  | loop (pick : Option (Fin n))
  | exitLoop
  | worker (w : Fin n) (outcome : ThreadPool.Outcome)
  | job (w : Fin n) (flag : Bool)
  | spurious (w : Fin n)
  | stop
  | destroy
  | owner
  deriving DecidableEq, Repr

/-- One step of one thread. -/
def step (s : State n) : Act n → Option (State n)
  | .dispatch fd =>
      if s.loopExited then none
      else (ThreadPool.step s.pool (.enqueue .loop fd)).map fun pool => { s with pool }
  | .loop pick => (ThreadPool.step s.pool (.client .loop pick)).map fun pool => { s with pool }
  | .exitLoop =>
      match s.running, s.pool.client .loop with
      | false, .idle _ => some { s with loopExited := true }
      | _, _ => none
  | .worker w outcome => workerStep s w outcome
  | .job w flag => jobStep s w flag
  | .spurious w => (ThreadPool.step s.pool (.spuriousWorker w)).map fun pool => { s with pool }
  | .stop =>
      match s.owner with
      | .serving => some { s with running := false, owner := .joining false }
      | .stopped => some s
      | _ => none
  | .destroy =>
      match s.owner with
      | .serving => some { s with running := false, owner := .joining true }
      | .stopped => some { s with owner := .destroyingPoller }
      | _ => none
  | .owner => ownerStep s

/-! ## What a step of the pool leaves alone -/

section

variable {C T : Type*} [DecidableEq C] {p p' : ThreadPool.State n C T}

variable {act : ThreadPool.Act n C T}

theorem client_of_step (hstep : ThreadPool.step p act = some p') (c : C) :
    p'.client c = p.client c ∨ p'.client c = (p.client c).wake ∨
      (∃ pick, act = .client c pick) ∨ (∃ task, act = .enqueue c task) ∨ act = .waitEmpty c ∨
      act = .stopPool c := by
  have hset (s : ThreadPool.State n C T) (c' pc) (hne : c' ≠ c) :
      (s.setClient c' pc).client c = s.client c :=
    update_of_ne hne.symm _ _
  cases act with
  | worker w outcome =>
    simp only [ThreadPool.step, ThreadPool.workerStep] at hstep
    split at hstep
    · split at hstep <;> cases hstep <;> exact .inl rfl
    · cases hstep
    · cases hstep
      exact .inl rfl
    · cases hstep
      exact .inl rfl
    · cases hstep
      exact .inr (.inl rfl)
    · cases hstep
  | enqueue c' task =>
    by_cases hc : c' = c
    · subst hc
      exact .inr (.inr (.inr (.inl ⟨task, rfl⟩)))
    · obtain ⟨-, rfl⟩ := ThreadPool.call_eq hstep
      exact .inl (hset p c' _ hc)
  | waitEmpty c' =>
    by_cases hc : c' = c
    · subst hc
      exact .inr (.inr (.inr (.inr (.inl rfl))))
    · obtain ⟨-, rfl⟩ := ThreadPool.call_eq hstep
      exact .inl (hset p c' _ hc)
  | stopPool c' =>
    by_cases hc : c' = c
    · subst hc
      exact .inr (.inr (.inr (.inr (.inr rfl))))
    · obtain ⟨-, rfl⟩ := ThreadPool.call_eq hstep
      exact .inl (hset p c' _ hc)
  | client c' pick =>
    by_cases hc : c' = c
    · subst hc
      exact .inr (.inr (.inl ⟨pick, rfl⟩))
    · simp only [ThreadPool.step, ThreadPool.clientStep] at hstep
      split at hstep
      · split at hstep <;> cases hstep <;> exact .inl (hset _ c' _ hc)
      · rcases ThreadPool.notifyOne_cases hstep with ⟨w, -, rfl⟩ | ⟨-, rfl⟩ <;>
          exact .inl (hset _ c' _ hc)
      · split at hstep <;> cases hstep <;> exact .inl (hset _ c' _ hc)
      · cases hstep
        exact .inl (hset _ c' _ hc)
      · cases hstep
        exact .inl (hset _ c' _ hc)
      · cases hstep
        exact .inr (.inl (hset _ c' _ hc))
      · cases hstep
  | spuriousWorker w =>
    simp only [ThreadPool.step] at hstep
    split at hstep <;> cases hstep
    exact .inl rfl
  | spuriousClient c' =>
    simp only [ThreadPool.step] at hstep
    split at hstep
    case h_1 hpc =>
      cases hstep
      by_cases hc : c' = c
      · subst hc
        exact .inr (.inl (by simp [ThreadPool.State.setClient, hpc, ThreadPool.ClientPc.wake]))
      · exact .inl (hset p c' _ hc)
    case h_2 => cases hstep

def runs : ThreadPool.WorkerPc T → Bool
  | .running _ => true
  | _ => false

/-- No task waits or runs. -/
def Calm (p : ThreadPool.State n C T) : Prop := p.tasks = [] ∧ ∀ w, runs (p.worker w) = false

omit [DecidableEq C] in
theorem Calm.setWorker (h : Calm p) (w : Fin n) {pc : ThreadPool.WorkerPc T}
    (hpc : runs pc = false) : Calm (p.setWorker w pc) := by
  refine ⟨h.1, fun v => ?_⟩
  by_cases hvw : v = w
  · subst hvw
    simpa [ThreadPool.State.setWorker] using hpc
  · simpa [ThreadPool.State.setWorker, update_of_ne hvw] using h.2 v

theorem Calm.step (h : Calm p)
    (hnot : ∀ c pick task, act = .client c pick → p.client c ≠ .enqueuing task)
    (hstep : ThreadPool.step p act = some p') : Calm p' := by
  cases act with
  | worker w outcome =>
    simp only [ThreadPool.step, ThreadPool.workerStep] at hstep
    split at hstep
    · rw [h.1] at hstep
      cases hstep
      refine h.setWorker w ?_
      split <;> rfl
    · cases hstep
    · cases hstep
      exact h.setWorker w rfl
    · cases hstep
      exact Calm.setWorker (p := { p with outstanding := _, finished := _ }) h w rfl
    · cases hstep
      exact Calm.setWorker (p := { p with client := _ }) h w rfl
    · cases hstep
  | enqueue c task =>
    obtain ⟨-, rfl⟩ := ThreadPool.call_eq hstep
    exact h
  | waitEmpty c =>
    obtain ⟨-, rfl⟩ := ThreadPool.call_eq hstep
    exact h
  | stopPool c =>
    obtain ⟨-, rfl⟩ := ThreadPool.call_eq hstep
    exact h
  | client c pick =>
    simp only [ThreadPool.step, ThreadPool.clientStep] at hstep
    split at hstep
    case h_1 task hpc => exact absurd hpc (hnot c none task rfl)
    · rcases ThreadPool.notifyOne_cases hstep with ⟨w, -, rfl⟩ | ⟨-, rfl⟩
      · exact Calm.setWorker (p := p.setClient c _) h w rfl
      · exact h
    · split at hstep <;> cases hstep <;> exact h
    · cases hstep
      exact h
    · cases hstep
      refine ⟨h.1, fun w => ?_⟩
      have hw := h.2 w
      show runs (p.worker w).wake = false
      cases hpc : p.worker w <;> rw [hpc] at hw <;> first | rfl | cases hw
    · cases hstep
      exact h
    · cases hstep
  | spuriousWorker w =>
    simp only [ThreadPool.step] at hstep
    split at hstep <;> cases hstep
    exact h.setWorker w rfl
  | spuriousClient c =>
    simp only [ThreadPool.step] at hstep
    split at hstep <;> cases hstep
    exact h

theorem enqueuing_of_step {c : C} {task : T} (hstep : ThreadPool.step p act = some p')
    (hafter : p'.client c = .enqueuing task) :
    p.client c = .enqueuing task ∨ act = .enqueue c task := by
  rcases client_of_step hstep c with hsame | hwoken | ⟨pick, rfl⟩ | ⟨task', rfl⟩ | rfl | rfl
  · exact .inl (hsame.symm.trans hafter)
  · rw [hwoken] at hafter
    cases hpc : p.client c <;> rw [hpc] at hafter <;> cases hafter
    exact .inl rfl
  · simp only [ThreadPool.step, ThreadPool.clientStep] at hstep
    split at hstep
    · split at hstep <;> cases hstep <;> simp [ThreadPool.State.setClient] at hafter
    · rcases ThreadPool.notifyOne_cases hstep with ⟨w, -, rfl⟩ | ⟨-, rfl⟩ <;>
        simp [ThreadPool.State.setClient, ThreadPool.State.setWorker] at hafter
    · split at hstep <;> cases hstep <;> simp [ThreadPool.State.setClient] at hafter
    · cases hstep
      simp [ThreadPool.State.setClient] at hafter
    · cases hstep
      simp [ThreadPool.State.setClient] at hafter
    · cases hstep
      simp [ThreadPool.State.setClient] at hafter
    · cases hstep
  · obtain ⟨-, rfl⟩ := ThreadPool.call_eq hstep
    simp only [ThreadPool.State.setClient, update_self,
      ThreadPool.ClientPc.enqueuing.injEq] at hafter
    exact .inr (by rw [hafter])
  · obtain ⟨-, rfl⟩ := ThreadPool.call_eq hstep
    simp [ThreadPool.State.setClient] at hafter
  · obtain ⟨-, rfl⟩ := ThreadPool.call_eq hstep
    simp [ThreadPool.State.setClient] at hafter

theorem idle_of_step {c : C} {ret : Option ThreadPool.Ret} (hidle : p.client c = .idle ret)
    (hstep : ThreadPool.step p act = some p') (henqueue : ∀ task, act ≠ .enqueue c task)
    (hempty : act ≠ .waitEmpty c) (hstop : act ≠ .stopPool c) : p'.client c = .idle ret := by
  rcases client_of_step hstep c with hsame | hwoken | ⟨pick, rfl⟩ | ⟨task, hact⟩ | hact | hact
  · rw [hsame, hidle]
  · rw [hwoken, hidle]
    rfl
  · simp [ThreadPool.step, ThreadPool.clientStep, hidle] at hstep
  · exact absurd hact (henqueue task)
  · exact absurd hact hempty
  · exact absurd hact hstop

end

/-! ## Every use finds its member -/

def OwnerPc.joined : OwnerPc → Bool
  | .serving => false
  | .joining _ => false
  | _ => true

def OwnerPc.reset : OwnerPc → Bool
  | .serving => false
  | .joining _ => false
  | .stoppingOutbox _ => false
  | .resetting _ => false
  | _ => true

/-- The pool of threads is idle when the poller and the outbox are reset. -/
def ResetsIdle (s : State n) : Act n → Prop
  | .owner =>
      match s.owner with
      | .resetting _ => Calm s.pool
      | _ => True
  | _ => True

instance (s : State n) (act : Act n) : Decidable (ResetsIdle s act) := by
  unfold ResetsIdle Calm
  split
  · split <;> infer_instance
  · infer_instance

/-- Nothing was used after its end. -/
structure Safe (s : State n) : Prop where
  uses : ∀ use ∈ s.uses, use.2 = true
  order : s.live .outbox = false → s.live .poller = false
  calm : s.live .poller = false → s.loopExited = true ∧ Calm s.pool
  lost : s.owner.reset = true → s.live .poller = false
  joined : s.owner.joined = true → s.loopExited = true
  quiet : s.loopExited = true → ∃ ret, s.pool.client .loop = .idle ret
  owner : ∀ task, s.pool.client .owner ≠ .enqueuing task

theorem safe_init : Safe (State.init : State n) where
  uses _ huse := nomatch huse
  order hlive := nomatch hlive
  calm hlive := nomatch hlive
  lost howner := nomatch howner
  joined howner := nomatch howner
  quiet hexited := nomatch hexited
  owner task := by simp [State.init, ThreadPool.State.init]

variable {s s' : State n} {w : Fin n}

theorem Safe.pool (h : Safe s) {act : ThreadPool.Act n Caller Nat}
    {pool : ThreadPool.State n Caller Nat} (hstep : ThreadPool.step s.pool act = some pool)
    (howner : ∀ task, act ≠ .enqueue .owner task) (hloop : s.loopExited = true →
      (∀ task, act ≠ .enqueue .loop task) ∧ act ≠ .waitEmpty .loop ∧ act ≠ .stopPool .loop)
    (job : Fin n → JobPc) : Safe { s with pool, job } where
  uses := h.uses
  order := h.order
  calm hlive := by
    obtain ⟨hexited, hcalm⟩ := h.calm hlive
    obtain ⟨ret, hidle⟩ := h.quiet hexited
    refine ⟨hexited, hcalm.step (fun c pick task _ hpc => ?_) hstep⟩
    cases c with
    | loop =>
      rw [hidle] at hpc
      cases hpc
    | owner => exact h.owner task hpc
  lost := h.lost
  joined := h.joined
  quiet hexited := by
    obtain ⟨ret, hidle⟩ := h.quiet hexited
    obtain ⟨henqueue, hempty, hstop⟩ := hloop hexited
    exact ⟨ret, idle_of_step hidle hstep henqueue hempty hstop⟩
  owner task hpc := by
    rcases enqueuing_of_step hstep hpc with hbefore | hact
    · exact h.owner task hbefore
    · exact howner task hact

theorem Safe.live (h : Safe s) {task : Nat} (hpc : s.pool.worker w = .running task) (m : Member) :
    s.live m = true := by
  have hpoller : s.live .poller = true := by
    by_contra hdead
    have hnot := (h.calm (by simpa using hdead)).2.2 w
    rw [hpc] at hnot
    cases hnot
  cases m with
  | poller => exact hpoller
  | outbox =>
    by_contra hdead
    rw [h.order (by simpa using hdead)] at hpoller
    cases hpoller

theorem Safe.use (h : Safe s) {task : Nat} (hpc : s.pool.worker w = .running task) (m : Member) :
    Safe (s.use m) where
  uses use huse := by
    rcases List.mem_append.mp huse with hold | hnew
    · exact h.uses use hold
    · rw [List.mem_singleton.mp hnew]
      exact h.live hpc m
  order := h.order
  calm := h.calm
  lost := h.lost
  joined := h.joined
  quiet := h.quiet
  owner := h.owner

theorem Safe.setJob (h : Safe s) (w : Fin n) (pc : JobPc) : Safe (s.setJob w pc) :=
  ⟨h.uses, h.order, h.calm, h.lost, h.joined, h.quiet, h.owner⟩

theorem Safe.jobStep {flag : Bool} (h : Safe s) (hstep : jobStep s w flag = some s') : Safe s' := by
  unfold Shutdown.jobStep at hstep
  split at hstep
  case h_1 task hpc _ =>
    cases hstep
    split
    · exact h.setJob w _
    · exact (h.use hpc _).setJob w _
  case h_2 task hpc _ =>
    cases hstep
    exact (h.use hpc _).setJob w _
  case h_3 task hpc _ =>
    cases hstep
    exact (h.use hpc _).setJob w _
  case h_4 task hpc _ =>
    cases hstep
    exact (h.use hpc _).setJob w _
  case h_5 => cases hstep

theorem Safe.setOwner (h : Safe s) {owner : OwnerPc}
    (hlost : owner.reset = true → s.live .poller = false)
    (hjoined : owner.joined = true → s.loopExited = true) : Safe { s with owner } :=
  ⟨h.uses, h.order, h.calm, hlost, hjoined, h.quiet, h.owner⟩

theorem Safe.losePoller (h : Safe s) (hexited : s.loopExited = true) (hcalm : Calm s.pool) :
    Safe (s.lose .poller) where
  uses := h.uses
  order _ := by simp [State.lose]
  calm _ := ⟨hexited, hcalm⟩
  lost _ := by simp [State.lose]
  joined := h.joined
  quiet := h.quiet
  owner := h.owner

theorem Safe.loseOutbox (h : Safe s) (hpoller : s.live .poller = false) :
    Safe (s.lose .outbox) where
  uses := h.uses
  order _ := by simpa [State.lose] using hpoller
  calm _ := h.calm hpoller
  lost _ := by simpa [State.lose] using hpoller
  joined := h.joined
  quiet := h.quiet
  owner := h.owner

theorem Safe.ownerStep (h : Safe s) (hidle : ResetsIdle s .owner) (hstep : ownerStep s = some s') :
    Safe s' := by
  simp only [ResetsIdle] at hidle
  unfold Shutdown.ownerStep at hstep
  split at hstep
  case h_1 d howner =>
    split at hstep
    case isTrue hexited =>
      cases hstep
      exact h.setOwner (fun hreset => nomatch hreset) (fun _ => hexited)
    case isFalse => cases hstep
  case h_2 d howner =>
    cases hstep
    have hexited := h.joined (by rw [howner]; rfl)
    exact ⟨h.uses, h.order, h.calm, fun hreset => (nomatch hreset), fun _ => hexited, h.quiet,
      h.owner⟩
  case h_3 d howner =>
    -- `poller_.reset()`
    cases hstep
    rw [howner] at hidle
    have hexited := h.joined (by rw [howner]; rfl)
    exact (h.losePoller hexited hidle).setOwner (fun _ => by simp [State.lose]) (fun _ => hexited)
  case h_4 howner =>
    cases hstep
    have hexited := h.joined (by rw [howner]; rfl)
    have hcalm := (h.calm (h.lost (by rw [howner]; rfl))).2
    exact (h.losePoller hexited hcalm).setOwner (fun _ => by simp [State.lose]) (fun _ => hexited)
  case h_5 howner =>
    cases hstep
    have hexited := h.joined (by rw [howner]; rfl)
    have hpoller := h.lost (by rw [howner]; rfl)
    exact (h.loseOutbox hpoller).setOwner (fun _ => by simpa [State.lose] using hpoller)
      (fun _ => hexited)
  case h_6 howner =>
    obtain ⟨pool, hpool, rfl⟩ := Option.map_eq_some_iff.mp hstep
    have hexited := h.joined (by rw [howner]; rfl)
    have hpoller := h.lost (by rw [howner]; rfl)
    have hmoved := h.pool hpool (fun _ => by simp) (fun _ => by simp) s.job
    exact hmoved.setOwner (fun _ => hpoller) (fun _ => hexited)
  case h_7 howner =>
    split at hstep
    · cases hstep
      exact h.setOwner (fun _ => h.lost (by rw [howner]; rfl))
        (fun _ => h.joined (by rw [howner]; rfl))
    · obtain ⟨pool, hpool, rfl⟩ := Option.map_eq_some_iff.mp hstep
      exact h.pool hpool (fun _ => by simp) (fun _ => by simp) s.job
  case h_8 howner =>
    split at hstep
    · cases hstep
      exact h.setOwner (fun _ => h.lost (by rw [howner]; rfl))
        (fun _ => h.joined (by rw [howner]; rfl))
    · cases hstep
  case h_9 => cases hstep
  case h_10 => cases hstep
  case h_11 => cases hstep

theorem Safe.step {act : Act n} (h : Safe s) (hidle : ResetsIdle s act)
    (hstep : step s act = some s') : Safe s' := by
  cases act with
  | dispatch fd =>
    simp only [Shutdown.step] at hstep
    split at hstep
    · cases hstep
    case isFalse hrunning =>
      obtain ⟨pool, hpool, rfl⟩ := Option.map_eq_some_iff.mp hstep
      exact h.pool hpool (fun _ => by simp) (fun hexited => absurd hexited hrunning) s.job
  | loop pick =>
    obtain ⟨pool, hpool, rfl⟩ := Option.map_eq_some_iff.mp hstep
    exact h.pool hpool (fun _ => by simp) (fun _ => by simp) s.job
  | exitLoop =>
    simp only [Shutdown.step] at hstep
    split at hstep
    case h_1 ret _ hclient =>
      cases hstep
      exact ⟨h.uses, h.order, fun hlive => ⟨rfl, (h.calm hlive).2⟩, h.lost, fun _ => rfl,
        fun _ => ⟨ret, hclient⟩, h.owner⟩
    case h_2 => cases hstep
  | worker w outcome =>
    simp only [Shutdown.step, Shutdown.workerStep] at hstep
    split at hstep
    · obtain ⟨pool, hpool, rfl⟩ := Option.map_eq_some_iff.mp hstep
      exact h.pool hpool (fun _ => by simp) (fun _ => by simp) s.job
    · cases hstep
    · obtain ⟨pool, hpool, rfl⟩ := Option.map_eq_some_iff.mp hstep
      exact h.pool hpool (fun _ => by simp) (fun _ => by simp) _
  | job w flag => exact h.jobStep hstep
  | spurious w =>
    obtain ⟨pool, hpool, rfl⟩ := Option.map_eq_some_iff.mp hstep
    exact h.pool hpool (fun _ => by simp) (fun _ => by simp) s.job
  | stop =>
    simp only [Shutdown.step] at hstep
    split at hstep
    · cases hstep
      exact ⟨h.uses, h.order, h.calm, fun hreset => (nomatch hreset),
        fun hjoined => (nomatch hjoined), h.quiet, h.owner⟩
    · cases hstep
      exact h
    · cases hstep
  | destroy =>
    simp only [Shutdown.step] at hstep
    split at hstep
    · cases hstep
      exact ⟨h.uses, h.order, h.calm, fun hreset => (nomatch hreset),
        fun hjoined => (nomatch hjoined), h.quiet, h.owner⟩
    case h_2 howner =>
      cases hstep
      exact h.setOwner (fun _ => h.lost (by rw [howner]; rfl))
        (fun _ => h.joined (by rw [howner]; rfl))
    · cases hstep
  | owner => exact h.ownerStep hidle hstep

/-- **Shutdown safety.** In every run in which `poller_.reset()` is reached only when no job is
queued or running, every time a job enters or leaves a call of `outbox_` or `poller_`, that member
has not been reset or destroyed. -/
theorem shutdown_safe {s : State n} {run : List (Act n)}
    (hrun : exec step State.init run = some s) (hidle : Meets step ResetsIdle State.init run) :
    ∀ use ∈ s.uses, use.2 = true :=
  (exec_invariant_of_meets (fun _ _ _ hm hidle hstep => Safe.step hm hidle hstep) safe_init hidle
    hrun).uses

def orderlyStop : List (Act 1) :=
  [.dispatch 5, .loop none, .loop none, .worker 0 .returned, .job 0 false, .job 0 false,
   .job 0 false, .job 0 false, .worker 0 .returned, .stop, .exitLoop, .owner, .owner, .owner,
   .destroy, .owner, .owner, .owner]

theorem shutdown_safe_orderlyStop :
    ∃ s ∈ exec step (State.init : State 1) orderlyStop,
      s.live .outbox = false ∧ s.uses.length = 4 ∧ ∀ use ∈ s.uses, use.2 = true := by
  have hends : ∃ s ∈ exec step (State.init : State 1) orderlyStop,
      s.live .outbox = false ∧ s.uses.length = 4 := by decide +kernel
  obtain ⟨s, hrun, hlost, huses⟩ := hends
  exact ⟨s, hrun, hlost, huses, shutdown_safe hrun (by decide +kernel)⟩

def stopsBeforeWakeup : List (Act 1) :=
  [.dispatch 5, .loop none, .loop none, .worker 0 .returned, .job 0 false, .job 0 false, .stop,
   .exitLoop, .owner, .owner, .owner, .job 0 false]

def destroysBeforeJob : List (Act 1) :=
  [.dispatch 5, .loop none, .loop none, .destroy, .exitLoop, .owner, .owner, .owner, .owner, .owner,
   .owner, .worker 0 .returned, .job 0 false]

/-- **Both members are used after their end.** In the first run the job calls `wakeup` on the
`poller_` that `stop` has reset; in the second it pushes into the `outbox_` that has been destroyed,
while `~ThreadPool` waits for it. -/
theorem member_used_after_its_end :
    (∃ s ∈ exec step (State.init : State 1) stopsBeforeWakeup,
      (Member.poller, false) ∈ s.uses) ∧
    ∃ s ∈ exec step (State.init : State 1) destroysBeforeJob,
      (Member.outbox, false) ∈ s.uses ∧ s.owner = .stoppingWorkers := by
  decide +kernel

end Muses.Shutdown
