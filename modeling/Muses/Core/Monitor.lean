import Muses.Core.Run
import Muses.Core.Census

/-!
# Monitors: one mutex, its condition variables, and who is left asleep

An object guarded by a mutex runs one call at a time. A call that has the lock either finds its
wait condition false, and goes to sleep on a condition variable, or runs to its end, signals, and
leaves. A sleeper gets up because a signal chose it, because it woke up spuriously, or because its
time ran out; in each case it has to take the lock again and looks at its condition again.

* `Monitor` — what a call does with the lock, as a function of the shared state;
* `Monitor.step` — one step of one thread; which sleeper `notify_one` wakes is part of the label;
* `Attended` — while a call of some kind sleeps, at least as many calls of that kind are awake as
  the shared state could let through;
* `Attended.room_eq_zero` — so when everybody is asleep or gone, nobody sleeps for no reason.
-/

namespace Muses.Core

open Function

/-! ## The machine -/

inductive Signal (Cv : Type*) where
  | quiet
  | one (cv : Cv)
  | everyone
  deriving DecidableEq, Repr

inductive Turn (σ Cv Ret : Type*) where
  | sleep (cv : Cv)
  | leave (shared : σ) (signal : Signal Cv) (ret : Ret)
  deriving DecidableEq, Repr

structure Monitor (σ Call Cv Ret : Type*) where
  /-- what a call does when it has the lock -/
  turn : σ → Call → Turn σ Cv Ret
  /-- what a call with a deadline returns when its time is up and it would have to sleep on -/
  expires : Call → Option Ret

namespace Monitor

/-- Where a thread stands. -/
inductive Pc (Call Cv Ret : Type*) where
  | idle (ret : Option Ret)
  /-- inside the object, about to take the lock for the first time -/
  | entering (call : Call)
  | asleep (cv : Cv) (call : Call)
  /-- notified, or up for no reason: about to take the lock again -/
  | woken (call : Call)
  /-- its time is up: about to take the lock a last time -/
  | expired (call : Call)
  deriving DecidableEq, Repr

/-- The object, the wait queues of its condition variables, and the threads. -/
structure State (Tid σ Call Cv Ret : Type*) where
  shared : σ
  sleepers : Cv → List Tid
  pc : Tid → Pc Call Cv Ret

inductive Act (Tid Call : Type*) where
  | invoke (call : Call)
  | turn (pick : Option Tid)
  | spurious
  | expire
  deriving DecidableEq, Repr

variable {Tid σ Call Cv Ret : Type*}

def Pc.wake : Pc Call Cv Ret → Pc Call Cv Ret
  | .asleep _ call => .woken call
  | pc => pc

def Pc.inside : Pc Call Cv Ret → Bool
  | .idle _ => false
  | .asleep _ _ => false
  | _ => true

/-- The thread runs the call as soon as it gets the lock. -/
def Pc.Runs (call : Call) (pc : Pc Call Cv Ret) : Prop :=
  pc = .entering call ∨ pc = .woken call ∨ pc = .expired call

variable {call : Call}

theorem Pc.Runs.not_asleep {call' : Call} {cv : Cv} {pc : Pc Call Cv Ret} (h : pc.Runs call) :
    pc ≠ .asleep cv call' := by
  rcases h with rfl | rfl | rfl <;> simp

theorem Pc.Runs.inj {call' : Call} {pc : Pc Call Cv Ret} (h : pc.Runs call) (h' : pc.Runs call') :
    call = call' := by
  rcases h with rfl | rfl | rfl <;> rcases h' with h' | h' | h' <;> cases h' <;> rfl

theorem Pc.wake_not_asleep (pc : Pc Call Cv Ret) (cv : Cv) (call : Call) :
    pc.wake ≠ .asleep cv call := by
  cases pc <;> simp [Pc.wake]

def State.init (shared : σ) : State Tid σ Call Cv Ret :=
  { shared, sleepers := fun _ => [], pc := fun _ => .idle none }

section Machine

variable [DecidableEq Tid] [DecidableEq Cv]

def State.rise (s : State Tid σ Call Cv Ret) (cv : Cv) (u : Tid) (pc : Pc Call Cv Ret) :
    State Tid σ Call Cv Ret :=
  { s with
    sleepers := update s.sleepers cv ((s.sleepers cv).filter (· ≠ u))
    pc := update s.pc u pc }

def State.riseAll (s : State Tid σ Call Cv Ret) : State Tid σ Call Cv Ret :=
  { s with sleepers := fun _ => [], pc := fun t => (s.pc t).wake }

def State.signal (s : State Tid σ Call Cv Ret) :
    Signal Cv → Option Tid → Option (State Tid σ Call Cv Ret)
  | .quiet, none => some s
  | .one cv, some u => if u ∈ s.sleepers cv then some (s.rise cv u (s.pc u).wake) else none
  | .one cv, none => if s.sleepers cv = [] then some s else none
  | .everyone, none => some s.riseAll
  | _, some _ => none

def State.left (s : State Tid σ Call Cv Ret) (t : Tid) (shared : σ) (ret : Ret) :
    State Tid σ Call Cv Ret :=
  { s with shared, pc := update s.pc t (.idle (some ret)) }

def State.lieDown (s : State Tid σ Call Cv Ret) (t : Tid) (cv : Cv) (call : Call) :
    State Tid σ Call Cv Ret :=
  { s with
    sleepers := update s.sleepers cv (s.sleepers cv ++ [t])
    pc := update s.pc t (.asleep cv call) }

variable (M : Monitor σ Call Cv Ret)

def takeTurn (s : State Tid σ Call Cv Ret) (t : Tid) (call : Call) (pick : Option Tid) :
    Option (State Tid σ Call Cv Ret) :=
  match M.turn s.shared call with
  | .sleep cv => if pick = none then some (s.lieDown t cv call) else none
  | .leave shared signal ret => (s.left t shared ret).signal signal pick

/-- A thread whose time is up takes the lock: it looks at its condition once more and does not
sleep again. -/
def lastTurn (s : State Tid σ Call Cv Ret) (t : Tid) (call : Call) (pick : Option Tid) :
    Option (State Tid σ Call Cv Ret) :=
  match M.turn s.shared call with
  | .sleep _ => if pick = none then (M.expires call).map (s.left t s.shared) else none
  | .leave shared signal ret => (s.left t shared ret).signal signal pick

def step (s : State Tid σ Call Cv Ret) : Tid × Act Tid Call → Option (State Tid σ Call Cv Ret)
  | (t, .invoke call) =>
      match s.pc t with
      | .idle _ => some { s with pc := update s.pc t (.entering call) }
      | _ => none
  | (t, .turn pick) =>
      match s.pc t with
      | .entering call => M.takeTurn s t call pick
      | .woken call => M.takeTurn s t call pick
      | .expired call => M.lastTurn s t call pick
      | _ => none
  | (t, .spurious) =>
      match s.pc t with
      | .asleep cv call => some (s.rise cv t (.woken call))
      | _ => none
  | (t, .expire) =>
      match s.pc t with
      | .asleep cv call =>
          if (M.expires call).isSome then some (s.rise cv t (.expired call)) else none
      | _ => none

/-! ## What a step can do -/

/-- The steps of a monitor. -/
inductive Move (s : State Tid σ Call Cv Ret) (t : Tid) :
    Act Tid Call → State Tid σ Call Cv Ret → Prop
  | invoke (call : Call) (ret : Option Ret) (hpc : s.pc t = .idle ret) :
      Move s t (.invoke call) { s with pc := update s.pc t (.entering call) }
  | sleep (call : Call) (cv : Cv) (hpc : (s.pc t).Runs call)
      (hturn : M.turn s.shared call = .sleep cv) : Move s t (.turn none) (s.lieDown t cv call)
  | leave (call : Call) (shared : σ) (signal : Signal Cv) (ret : Ret) (pick : Option Tid)
      (s' : State Tid σ Call Cv Ret) (hpc : (s.pc t).Runs call)
      (hturn : M.turn s.shared call = .leave shared signal ret)
      (hsignal : (s.left t shared ret).signal signal pick = some s') : Move s t (.turn pick) s'
  | expire (call : Call) (cv : Cv) (ret : Ret) (hpc : s.pc t = .expired call)
      (hturn : M.turn s.shared call = .sleep cv) :
      Move s t (.turn none) (s.left t s.shared ret)
  | rise (act : Act Tid Call) (cv : Cv) (call : Call) (pc : Pc Call Cv Ret)
      (hpc : s.pc t = .asleep cv call) (hawake : pc = .woken call ∨ pc = .expired call) :
      Move s t act (s.rise cv t pc)

variable {M} {s s' : State Tid σ Call Cv Ret} {t : Tid}

variable {pick : Option Tid} {call : Call} {u : Tid}

theorem move_of_takeTurn (hpc : (s.pc t).Runs call) (h : M.takeTurn s t call pick = some s') :
    M.Move s t (.turn pick) s' := by
  unfold takeTurn at h
  split at h
  case h_1 cv hturn =>
    split at h
    · rename_i hpick
      cases hpick
      cases h
      exact .sleep call cv hpc hturn
    · cases h
  case h_2 shared signal ret hturn =>
    exact .leave call shared signal ret pick s' hpc hturn h

theorem move_of_lastTurn (hpc : s.pc t = .expired call) (h : M.lastTurn s t call pick = some s') :
    M.Move s t (.turn pick) s' := by
  unfold lastTurn at h
  split at h
  case h_1 cv hturn =>
    split at h
    · rename_i hpick
      cases hpick
      obtain ⟨ret, -, hs'⟩ := Option.map_eq_some_iff.mp h
      cases hs'
      exact .expire call cv ret hpc hturn
    · cases h
  case h_2 shared signal ret hturn =>
    exact .leave call shared signal ret pick s' (.inr (.inr hpc)) hturn h

theorem move_of_step {act : Act Tid Call} (h : M.step s (t, act) = some s') :
    M.Move s t act s' := by
  cases act with
  | invoke call =>
    simp only [step] at h
    split at h
    · cases h
      exact .invoke call _ ‹_›
    · cases h
  | turn pick =>
    simp only [step] at h
    split at h
    case h_1 call hpc => exact move_of_takeTurn (.inl hpc) h
    case h_2 call hpc => exact move_of_takeTurn (.inr (.inl hpc)) h
    case h_3 call hpc => exact move_of_lastTurn hpc h
    case h_4 => cases h
  | spurious =>
    simp only [step] at h
    split at h
    case h_1 cv call hpc =>
      cases h
      exact .rise _ cv call _ hpc (.inl rfl)
    case h_2 => cases h
  | expire =>
    simp only [step] at h
    split at h
    case h_1 cv call hpc =>
      split at h
      · cases h
        exact .rise _ cv call _ hpc (.inr rfl)
      · cases h
    case h_2 => cases h

theorem signal_of_step {shared : σ} {signal : Signal Cv} {ret : Ret}
    (hstep : M.step s (t, .turn pick) = some s') (hpc : (s.pc t).Runs call)
    (hturn : M.turn s.shared call = .leave shared signal ret) :
    (s.left t shared ret).signal signal pick = some s' := by
  cases move_of_step hstep with
  | sleep call' cv hpc' hsleep =>
    rw [hpc.inj hpc', hsleep] at hturn
    cases hturn
  | leave call' shared' signal' ret' _ _ hpc' hleave hsignal =>
    rw [hpc.inj hpc', hleave] at hturn
    cases hturn
    exact hsignal
  | expire call' cv ret' hpc' hsleep =>
    rw [hpc.inj (.inr (.inr hpc')), hsleep] at hturn
    cases hturn
  | rise _ cv call' pc hpc' hawake => exact absurd hpc' hpc.not_asleep

theorem signal_cases {signal : Signal Cv} (h : s.signal signal pick = some s') :
    (s' = s ∧ pick = none ∧ ∀ cv, signal = .one cv → s.sleepers cv = []) ∨
    (∃ cv u, signal = .one cv ∧ pick = some u ∧ u ∈ s.sleepers cv ∧
      s' = s.rise cv u (s.pc u).wake) ∨
    (signal = .everyone ∧ s' = s.riseAll) := by
  cases signal with
  | quiet =>
    cases pick with
    | none =>
      cases h
      exact .inl ⟨rfl, rfl, fun cv hcv => nomatch hcv⟩
    | some u => cases h
  | one cv =>
    cases pick with
    | none =>
      simp only [State.signal] at h
      split at h
      · cases h
        refine .inl ⟨rfl, rfl, fun cv' hcv => ?_⟩
        cases hcv
        assumption
      · cases h
    | some u =>
      simp only [State.signal] at h
      split at h
      · cases h
        exact .inr (.inl ⟨cv, u, rfl, rfl, ‹_›, rfl⟩)
      · cases h
  | everyone =>
    cases pick with
    | none =>
      cases h
      exact .inr (.inr ⟨rfl, rfl⟩)
    | some u => cases h

theorem pc_of_signal {signal : Signal Cv} (h : s.signal signal pick = some s')
    (hone : signal ≠ .everyone) :
    s'.shared = s.shared ∧ ∀ v, s'.pc v = if pick = some v then (s.pc v).wake else s.pc v := by
  rcases signal_cases h with ⟨rfl, rfl, -⟩ | ⟨cv, u, -, rfl, -, rfl⟩ | ⟨hall, -⟩
  · simp
  · refine ⟨rfl, fun v => ?_⟩
    by_cases hv : v = u
    · subst hv
      simp [State.rise]
    · simp [State.rise, update_of_ne hv, Ne.symm hv]
  · exact absurd hall hone

/-- **The invariant rule of the shared state.** What every turn that gets through preserves, every
run preserves. -/
theorem shared_invariant {I : σ → Prop}
    (hturn : ∀ shared call shared' signal ret, I shared →
      M.turn shared call = .leave shared' signal ret → I shared')
    {run : List (Tid × Act Tid Call)} (h : I s.shared) (hrun : exec M.step s run = some s') :
    I s'.shared := by
  refine exec_invariant (I := fun s => I s.shared) (fun s (t, act) s' hs hstep => ?_) h hrun
  cases move_of_step hstep with
  | invoke call ret hpc => exact hs
  | sleep call cv hpc hsleep => exact hs
  | leave call shared signal ret pick _ hpc hleave hsignal =>
    have hshared : s'.shared = shared := by
      rcases signal_cases hsignal with ⟨rfl, -⟩ | ⟨cv, u, -, -, -, rfl⟩ | ⟨-, rfl⟩ <;> rfl
    rw [hshared]
    exact hturn s.shared call shared signal ret hs hleave
  | expire call cv ret hpc hsleep => exact hs
  | rise _ cv call pc hpc hawake => exact hs

/-! ## The wait queues hold the sleepers -/

/-- The wait queues list exactly the threads that are asleep, each on the condition variable that
its call sleeps on. -/
structure Synced (M : Monitor σ Call Cv Ret) (s : State Tid σ Call Cv Ret) : Prop where
  mem_iff : ∀ cv u, u ∈ s.sleepers cv ↔ ∃ call, s.pc u = .asleep cv call
  placed : ∀ u cv call, s.pc u = .asleep cv call → ∃ shared, M.turn shared call = .sleep cv

omit [DecidableEq Cv] in
theorem Synced.update {pc : Pc Call Cv Ret} (h : Synced M s)
    (hawake : ∀ cv call, s.pc u ≠ .asleep cv call) (hup : ∀ cv call, pc ≠ .asleep cv call)
    (shared : σ) : Synced M { s with shared, pc := update s.pc u pc } where
  mem_iff cv v := by
    by_cases hv : v = u
    · subst hv
      simp [h.mem_iff, hawake, hup]
    · simp [h.mem_iff, update_of_ne hv]
  placed v cv call hpc := by
    by_cases hv : v = u
    · subst hv
      simp [hup] at hpc
    · simp only [update_of_ne hv] at hpc
      exact h.placed v cv call hpc

theorem Synced.rise {cv : Cv} {pc : Pc Call Cv Ret} (h : Synced M s)
    (hasleep : s.pc u = .asleep cv call) (hup : ∀ cv call, pc ≠ .asleep cv call) :
    Synced M (s.rise cv u pc) where
  mem_iff cv' v := by
    by_cases hv : v = u
    · subst hv
      by_cases hcv : cv' = cv
      · subst hcv
        simp [State.rise, hup]
      · -- a thread sleeps on one condition variable only
        have hother : v ∉ s.sleepers cv' := by
          rw [h.mem_iff, hasleep]
          rintro ⟨call', heq⟩
          cases heq
          exact hcv rfl
        simp [State.rise, update_of_ne hcv, hup, hother]
    · by_cases hcv : cv' = cv
      · subst hcv
        simp [State.rise, hv, h.mem_iff]
      · simp [State.rise, update_of_ne hv, update_of_ne hcv, h.mem_iff]
  placed v cv' call' hpc := by
    by_cases hv : v = u
    · subst hv
      simp [State.rise, hup] at hpc
    · simp only [State.rise, update_of_ne hv] at hpc
      exact h.placed v cv' call' hpc

theorem Synced.lieDown {cv : Cv} (h : Synced M s) (hawake : ∀ cv call, s.pc u ≠ .asleep cv call)
    (hturn : M.turn s.shared call = .sleep cv) : Synced M (s.lieDown u cv call) where
  mem_iff cv' v := by
    by_cases hv : v = u
    · subst hv
      by_cases hcv : cv' = cv
      · subst hcv
        simp [State.lieDown]
      · simp [State.lieDown, update_of_ne hcv, h.mem_iff, hawake, Ne.symm hcv]
    · by_cases hcv : cv' = cv
      · subst hcv
        simp [State.lieDown, hv, h.mem_iff]
      · simp [State.lieDown, update_of_ne hv, update_of_ne hcv, h.mem_iff]
  placed v cv' call' hpc := by
    by_cases hv : v = u
    · subst hv
      simp only [State.lieDown, update_self, Pc.asleep.injEq] at hpc
      exact ⟨s.shared, by rw [← hpc.1, ← hpc.2, hturn]⟩
    · simp only [State.lieDown, update_of_ne hv] at hpc
      exact h.placed v cv' call' hpc

omit [DecidableEq Tid] [DecidableEq Cv] in
theorem Synced.riseAll (_ : Synced M s) : Synced M s.riseAll where
  mem_iff cv u := by simp [State.riseAll, Pc.wake_not_asleep]
  placed u cv call hpc := absurd hpc (Pc.wake_not_asleep _ _ _)

theorem Synced.signal {signal : Signal Cv} (h : Synced M s)
    (hsignal : s.signal signal pick = some s') : Synced M s' := by
  rcases signal_cases hsignal with ⟨rfl, -⟩ | ⟨cv, u, -, -, hmem, rfl⟩ | ⟨-, rfl⟩
  · exact h
  · obtain ⟨call, hasleep⟩ := (h.mem_iff cv u).mp hmem
    exact h.rise hasleep (Pc.wake_not_asleep _)
  · exact h.riseAll

omit [DecidableEq Tid] [DecidableEq Cv] in
theorem synced_init (shared : σ) :
    Synced M (State.init shared : State Tid σ Call Cv Ret) where
  mem_iff cv u := by simp [State.init]
  placed u cv call hpc := by simp [State.init] at hpc

theorem synced_step {act : Act Tid Call} (h : Synced M s)
    (hstep : M.step s (t, act) = some s') : Synced M s' := by
  cases move_of_step hstep with
  | invoke call ret hpc => exact h.update (by simp [hpc]) (by simp) s.shared
  | sleep call cv hpc hturn => exact h.lieDown (fun _ _ => hpc.not_asleep) hturn
  | leave call shared signal ret pick _ hpc hturn hsignal =>
    exact (h.update (fun _ _ => hpc.not_asleep) (by simp) shared).signal hsignal
  | expire call cv ret hpc hturn => exact h.update (by simp [hpc]) (by simp) s.shared
  | rise _ cv call pc hpc hawake =>
    refine h.rise hpc fun cv' call' => ?_
    rcases hawake with rfl | rfl <;> simp

end Machine

/-! ## The waiting rule -/

/-- How many calls of each kind the shared state could let through. A call that sleeps has a kind
and found no room; a call that gets through uses up one place of its kind; once the object is
closed nobody sleeps, and the call that closes it wakes everyone. -/
structure Allowance (M : Monitor σ Call Cv Ret) (K : Type*) where
  kind : Call → Option K
  room : K → σ → Nat
  closed : σ → Prop
  of_sleep : ∀ {shared call cv}, M.turn shared call = .sleep cv →
    ¬ closed shared ∧ ∃ k, kind call = some k ∧ room k shared = 0
  of_leave : ∀ {shared call shared' signal ret k},
    M.turn shared call = .leave shared' signal ret → kind call = some k → ¬ closed shared' →
    room k shared' + 1 ≤ room k shared
  of_close : ∀ {shared call shared' signal ret}, M.turn shared call = .leave shared' signal ret →
    closed shared' → closed shared ∨ signal = .everyone

namespace Allowance

variable {M : Monitor σ Call Cv Ret} {K : Type*} (A : Allowance M K)

/-- Asleep in a call that waits for room of kind `k`. -/
def Sleeps (k : K) (pc : Pc Call Cv Ret) : Prop :=
  ∃ cv call, pc = .asleep cv call ∧ A.kind call = some k

/-- Woken in a call that waits for room of kind `k`, and not yet out of it. -/
def Awake (k : K) (pc : Pc Call Cv Ret) : Prop :=
  ∃ call, (pc = .woken call ∨ pc = .expired call) ∧ A.kind call = some k

/-- No lost wakeup: if one sleeps for want of `k`, as many are awake as there is room for. -/
structure Attended (s : State Tid σ Call Cv Ret) : Prop where
  closed : A.closed s.shared → ∀ u cv call, s.pc u ≠ .asleep cv call
  census : ∀ k, (∃ u, A.Sleeps k (s.pc u)) → AtLeast (A.room k s.shared) (A.Awake k) s.pc

/-- The condition of the waiting rule: a turn that makes room for a kind of which a call sleeps
makes one place and wakes a sleeper of that kind, or it wakes everyone. -/
def Serves (s : State Tid σ Call Cv Ret) : Tid × Act Tid Call → Prop
  | (t, .turn pick) =>
      ∀ call shared signal ret, (s.pc t).Runs call →
        M.turn s.shared call = .leave shared signal ret → ∀ k, (∃ u, A.Sleeps k (s.pc u)) →
        A.room k shared ≤ A.room k s.shared ∨ signal = .everyone ∨
        (A.room k shared ≤ A.room k s.shared + 1 ∧ ∃ u, pick = some u ∧ A.Sleeps k (s.pc u))
  | _ => True

variable {A}

variable {k : K} {pc : Pc Call Cv Ret}

theorem Sleeps.not_runs (h : A.Sleeps k pc) (call : Call) : ¬ pc.Runs call := by
  obtain ⟨cv, call', rfl, -⟩ := h
  exact fun hruns => hruns.not_asleep rfl

theorem Sleeps.wake (h : A.Sleeps k pc) : A.Awake k pc.wake := by
  obtain ⟨cv, call, rfl, hkind⟩ := h
  exact ⟨call, .inl rfl, hkind⟩

theorem Sleeps.not_awake (h : A.Sleeps k pc) : ¬ A.Awake k pc := by
  obtain ⟨cv, call, rfl, -⟩ := h
  rintro ⟨call', hpc | hpc, -⟩ <;> cases hpc

theorem Awake.wake (h : A.Awake k pc) : A.Awake k pc.wake := by
  obtain ⟨call, rfl | rfl, hkind⟩ := h
  · exact ⟨call, .inl rfl, hkind⟩
  · exact ⟨call, .inr rfl, hkind⟩

theorem not_sleeps_wake (pc : Pc Call Cv Ret) : ¬ A.Sleeps k pc.wake := by
  rintro ⟨cv, call, hpc, -⟩
  exact Pc.wake_not_asleep pc cv call hpc

theorem not_awake_of_runs {call : Call} (h : pc.Runs call) (hkind : A.kind call ≠ some k) :
    ¬ A.Awake k pc := by
  rintro ⟨call', hpc, hkind'⟩
  have hcall : call' = call := by
    rcases h with rfl | rfl | rfl <;> rcases hpc with hpc | hpc <;> cases hpc <;> rfl
  exact hkind (hcall ▸ hkind')

theorem attended_riseAll (s : State Tid σ Call Cv Ret) : A.Attended s.riseAll where
  closed _ u cv call := Pc.wake_not_asleep _ _ _
  census k h := by
    obtain ⟨u, hu⟩ := h
    exact absurd hu (not_sleeps_wake (s.pc u))

theorem attended_init (shared : σ) : A.Attended (State.init shared : State Tid σ Call Cv Ret) where
  closed _ u cv call := by simp [State.init]
  census k h := by
    obtain ⟨u, cv, call, hpc, -⟩ := h
    simp [State.init] at hpc

theorem atLeast_of_gone {t : Tid} {n n' : Nat} {pc pc' : Tid → Pc Call Cv Ret}
    (h : AtLeast n (A.Awake k) pc) (hothers : ∀ v, v ≠ t → A.Awake k (pc v) → A.Awake k (pc' v))
    (hroom : n' + 1 ≤ n ∨ (n' ≤ n ∧ ¬ A.Awake k (pc t))) : AtLeast n' (A.Awake k) pc' := by
  rcases hroom with hroom | ⟨hroom, hnot⟩
  · exact (h.leave t hothers).mono (by omega)
  · refine (h.of_imp fun v hv => hothers v ?_ hv).mono hroom
    rintro rfl
    exact hnot hv

variable [DecidableEq Tid] {s s' : State Tid σ Call Cv Ret} {t : Tid}

theorem Attended.move {u : Tid} (h : A.Attended s) (hup : ∀ cv call, pc ≠ .asleep cv call)
    (hkeep : ∀ k, A.Awake k (s.pc u) → A.Awake k pc) (sleepers : Cv → List Tid) :
    A.Attended { s with sleepers, pc := update s.pc u pc } where
  closed hclosed v cv call := by
    by_cases hv : v = u
    · subst hv
      simpa using hup cv call
    · simpa [update_of_ne hv] using h.closed hclosed v cv call
  census k hsleeps := by
    obtain ⟨v, cv, call, hpc, hkind⟩ := hsleeps
    have hv : v ≠ u := by
      rintro rfl
      simp [hup] at hpc
    simp only [update_of_ne hv] at hpc
    refine (h.census k ⟨v, cv, call, hpc, hkind⟩).of_imp fun w hw => ?_
    by_cases hwu : w = u
    · subst hwu
      simpa using hkeep k hw
    · simpa [update_of_ne hwu] using hw

theorem Attended.withdraw {call : Call} {cv : Cv} (h : A.Attended s) (hpc : (s.pc t).Runs call)
    (hturn : M.turn s.shared call = .sleep cv) (hown : ∀ k, A.Sleeps k pc → A.kind call = some k)
    (sleepers : Cv → List Tid) :
    A.Attended { s with sleepers, pc := update s.pc t pc } where
  closed hclosed := absurd hclosed (A.of_sleep hturn).1
  census k hsleeps := by
    obtain ⟨k₀, hkind, hroom⟩ := (A.of_sleep hturn).2
    by_cases hk : A.kind call = some k
    · -- its own kind has no room
      have hzero : A.room k s.shared = 0 := by
        rw [hkind] at hk
        exact Option.some.inj hk ▸ hroom
      show AtLeast (A.room k s.shared) _ _
      rw [hzero]
      exact .zero
    · -- and it was not among those awake in another kind
      obtain ⟨v, hv⟩ := hsleeps
      have hvt : v ≠ t := by
        rintro rfl
        exact hk (hown k (by simpa using hv))
      simp only [update_of_ne hvt] at hv
      refine atLeast_of_gone (h.census k ⟨v, hv⟩) (fun w hw hawake => ?_)
        (.inr ⟨le_rfl, not_awake_of_runs hpc hk⟩)
      simpa [update_of_ne hw] using hawake

variable [DecidableEq Cv]

/-- A call that gets through uses up a place of its own kind; where it makes a place for another
kind of which a call sleeps, it wakes one. -/
theorem Attended.leave {call : Call} {shared : σ} {signal : Signal Cv} {ret : Ret}
    {pick : Option Tid} (h : A.Attended s) (hserves : A.Serves s (t, .turn pick))
    (hpc : (s.pc t).Runs call) (hturn : M.turn s.shared call = .leave shared signal ret)
    (hsignal : (s.left t shared ret).signal signal pick = some s') : A.Attended s' := by
  by_cases hall : signal = .everyone
  · subst hall
    cases pick <;> cases hsignal
    exact attended_riseAll _
  obtain ⟨hshared, hpcs⟩ := pc_of_signal hsignal hall
  have hshared : s'.shared = shared := hshared
  -- where every thread stands afterwards: only `t` and the thread the signal picked have moved
  have hself : s'.pc t = .idle (some ret) := by
    rw [hpcs t]
    simp [State.left, Pc.wake]
  have hothers : ∀ v, v ≠ t →
      s'.pc v = if pick = some v then (s.pc v).wake else s.pc v := fun v hv => by
    rw [hpcs v]
    simp [State.left, update_of_ne hv]
  have hasleep : ∀ v cv call, s'.pc v = .asleep cv call → s.pc v = .asleep cv call := by
    intro v cv call' hv
    by_cases hvt : v = t
    · rw [hvt, hself] at hv
      cases hv
    · rw [hothers v hvt] at hv
      split at hv
      · exact absurd hv (Pc.wake_not_asleep _ _ _)
      · exact hv
  have hawake : ∀ k v, v ≠ t → A.Awake k (s.pc v) → A.Awake k (s'.pc v) := by
    intro k v hv hup
    rw [hothers v hv]
    split
    · exact hup.wake
    · exact hup
  refine ⟨fun hclosed v cv call' hv => ?_, fun k hsleeps => ?_⟩
  · rw [hshared] at hclosed
    rcases A.of_close hturn hclosed with hbefore | hall'
    · exact h.closed hbefore v cv call' (hasleep v cv call' hv)
    · exact hall hall'
  · obtain ⟨v, cv, call', hv, hkind'⟩ := hsleeps
    have hslept : ∃ u, A.Sleeps k (s.pc u) := ⟨v, cv, call', hasleep v cv call' hv, hkind'⟩
    have hopen : ¬ A.closed shared := fun hclosed => by
      rcases A.of_close hturn hclosed with hbefore | hall'
      · exact h.closed hbefore v cv call' (hasleep v cv call' hv)
      · exact hall hall'
    have hcensus := h.census k hslept
    rw [hshared]
    by_cases hk : A.kind call = some k
    · exact atLeast_of_gone hcensus (hawake k) (.inl (A.of_leave hturn hk hopen))
    · have hnot := not_awake_of_runs hpc hk
      rcases hserves call shared signal ret hpc hturn k hslept with hle | hall' | ⟨hle, u, rfl, hu⟩
      · exact atLeast_of_gone hcensus (hawake k) (.inr ⟨hle, hnot⟩)
      · exact absurd hall' hall
      · -- a place was made, and the sleeper `u` of that kind is up
        have hut : u ≠ t := by
          rintro rfl
          exact hu.not_runs call hpc
        refine (hcensus.join u hu.not_awake ?_ fun w hw => hawake k w ?_ hw).mono hle
        · rw [hothers u hut, if_pos rfl]
          exact hu.wake
        · rintro rfl
          exact hnot hw

theorem attended_step {act : Act Tid Call} (h : A.Attended s) (hserves : A.Serves s (t, act))
    (hstep : M.step s (t, act) = some s') : A.Attended s' := by
  cases move_of_step hstep with
  | invoke call ret hpc =>
    refine h.move (by simp) (fun k hawake => ?_) s.sleepers
    obtain ⟨call', hpc' | hpc', -⟩ := hawake <;> rw [hpc] at hpc' <;> cases hpc'
  | sleep call cv hpc hturn =>
    refine h.withdraw hpc hturn (fun k hsleeps => ?_) _
    obtain ⟨cv', call', heq, hkind⟩ := hsleeps
    cases heq
    exact hkind
  | leave call shared signal ret pick _ hpc hturn hsignal =>
    exact h.leave hserves hpc hturn hsignal
  | expire call cv ret hpc hturn =>
    refine h.withdraw (.inr (.inr hpc)) hturn (fun k hsleeps => ?_) s.sleepers
    obtain ⟨cv', call', heq, -⟩ := hsleeps
    cases heq
  | rise _ cv call pc hpc hawake =>
    refine h.move (fun cv' call' => ?_) (fun k hup => ?_) _
    · rcases hawake with rfl | rfl <;> simp
    · obtain ⟨call', hpc' | hpc', -⟩ := hup <;> rw [hpc] at hpc' <;> cases hpc'

/-- **The waiting rule.** If every turn of a run serves the sleepers it makes room for, then at the
end of the run as many calls of each kind are awake as the object could let through. -/
theorem attended_run {run : List (Tid × Act Tid Call)} (h : A.Attended s)
    (hserves : Meets M.step A.Serves s run) (hrun : exec M.step s run = some s') :
    A.Attended s' :=
  exec_invariant_of_meets (fun _ (_, _) _ hs hserves hstep => attended_step hs hserves hstep)
    h hserves hrun

/-- **The waiting rule, one condition variable for each kind.** If every call sleeps on the
condition variable of its kind, it is enough that a turn that makes a place for a kind signals
that condition variable, or everyone. -/
theorem attended_of_own_cv {A : Allowance M Cv}
    (hkind : ∀ shared call cv, M.turn shared call = .sleep cv → A.kind call = some cv)
    (hsignals : ∀ shared call shared' signal ret,
      M.turn shared call = .leave shared' signal ret → ∀ cv,
        A.room cv shared' ≤ A.room cv shared ∨ signal = .everyone ∨
        (A.room cv shared' ≤ A.room cv shared + 1 ∧ signal = .one cv))
    {run : List (Tid × Act Tid Call)} (hsynced : Synced M s) (h : A.Attended s)
    (hrun : exec M.step s run = some s') : A.Attended s' := by
  refine (exec_invariant (I := fun s => Synced M s ∧ A.Attended s)
    (fun s (t, act) s' hs hstep => ?_) ⟨hsynced, h⟩ hrun).2
  refine ⟨synced_step hs.1 hstep, attended_step hs.2 ?_ hstep⟩
  -- the kind of a sleeper can be read off the queue it is in
  have hmem : ∀ u cv, A.Sleeps cv (s.pc u) ↔ u ∈ s.sleepers cv := by
    intro u cv
    rw [hs.1.mem_iff]
    constructor
    · rintro ⟨cv', call, hpc, hk⟩
      obtain ⟨shared, hturn⟩ := hs.1.placed u cv' call hpc
      rw [hkind shared call cv' hturn] at hk
      exact ⟨call, Option.some.inj hk ▸ hpc⟩
    · rintro ⟨call, hpc⟩
      obtain ⟨shared, hturn⟩ := hs.1.placed u cv call hpc
      exact ⟨cv, call, hpc, hkind shared call cv hturn⟩
  cases act with
  | turn pick =>
    intro call shared signal ret hpc hturn cv hsleeps
    rcases hsignals _ _ _ _ _ hturn cv with hle | hall | ⟨hle, rfl⟩
    · exact .inl hle
    · exact .inr (.inl hall)
    · refine .inr (.inr ⟨hle, ?_⟩)
      obtain ⟨v, hv⟩ := hsleeps
      have hv : v ∈ s.sleepers cv := (hmem v cv).mp hv
      rcases signal_cases (signal_of_step hstep hpc hturn) with
        ⟨-, -, hnone⟩ | ⟨cv', u, hone, hpick, hu, -⟩ | ⟨hall, -⟩
      · have hnone : s.sleepers cv = [] := hnone cv rfl
        rw [hnone] at hv
        cases hv
      · cases hone
        exact ⟨u, hpick, (hmem u cv).mpr hu⟩
      · cases hall
  | invoke call => trivial
  | spurious => trivial
  | expire => trivial

end Allowance

/-- Nobody is inside. -/
def AtRest (s : State Tid σ Call Cv Ret) : Prop := ∀ t, (s.pc t).inside = false

instance [Fintype Tid] (s : State Tid σ Call Cv Ret) : Decidable (AtRest s) :=
  inferInstanceAs (Decidable (∀ t, (s.pc t).inside = false))

theorem Allowance.Attended.room_eq_zero {M : Monitor σ Call Cv Ret} {K : Type*}
    {A : Allowance M K} {s : State Tid σ Call Cv Ret} (h : A.Attended s) (hrest : AtRest s)
    {u : Tid} {cv : Cv} {k : K} (hpc : s.pc u = .asleep cv call) (hkind : A.kind call = some k) :
    ¬ A.closed s.shared ∧ A.room k s.shared = 0 := by
  refine ⟨fun hclosed => h.closed hclosed u cv call hpc, ?_⟩
  refine (h.census k ⟨u, cv, call, hpc, hkind⟩).eq_zero fun v hv => ?_
  obtain ⟨call', hup | hup, -⟩ := hv
  · simpa [hup, Pc.inside] using hrest v
  · simpa [hup, Pc.inside] using hrest v

end Monitor

end Muses.Core
