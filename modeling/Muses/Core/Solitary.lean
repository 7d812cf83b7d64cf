import Muses.Core.Monitor

/-!
# Monitors: one caller at a time

When the calls of a monitor come one after the other, what a call does is decided by its first look
at the shared state. It runs to its end; or it finds its wait condition false, and then nobody is
there to change that: it returns when its time is up, or never.
-/

namespace Muses.Core.Monitor

open Function

variable {Tid σ Call Cv Ret : Type*}

/-- What a call comes to if nobody else calls: the shared state it leaves and its value, or nothing
if it blocks for ever. -/
def alone (M : Monitor σ Call Cv Ret) (shared : σ) (call : Call) : Option (σ × Ret) :=
  match M.turn shared call with
  | .leave shared' _ ret => some (shared', ret)
  | .sleep _ => (M.expires call).map fun ret => (shared, ret)

inductive Own where
  | turn
  | spurious
  | expire
  deriving DecidableEq, Repr

def Own.act : Own → Act Tid Call
  | .turn => .turn none
  | .spurious => .spurious
  | .expire => .expire

section

variable [DecidableEq Tid] [DecidableEq Cv] (M : Monitor σ Call Cv Ret)

def started (s : State Tid σ Call Cv Ret) (t : Tid) (call : Call) (own : List Own) :
    Option (State Tid σ Call Cv Ret) :=
  exec M.step s ((t, .invoke call) :: own.map fun o => (t, o.act))

def returned (s : State Tid σ Call Cv Ret) (t : Tid) (call : Call) (own : List Own) :
    Option (State Tid σ Call Cv Ret × Ret) :=
  (started M s t call own).bind fun s' =>
    match s'.pc t with
    | .idle (some r) => some (s', r)
    | _ => none

end

/-- Nobody is in a call. -/
structure Vacant (s : State Tid σ Call Cv Ret) : Prop where
  idle : ∀ t, ∃ r, s.pc t = .idle r
  sleepers : ∀ cv, s.sleepers cv = []

theorem vacant_init (shared : σ) : Vacant (State.init shared : State Tid σ Call Cv Ret) :=
  ⟨fun _ => ⟨none, rfl⟩, fun _ => rfl⟩

/-- Only `t` is in a call, and the shared state is `q`. -/
structure Inside (M : Monitor σ Call Cv Ret) (q : σ) (call : Call) (t : Tid)
    (m : State Tid σ Call Cv Ret) : Prop where
  shared : m.shared = q
  others : ∀ u, u ≠ t → ∃ r, m.pc u = .idle r
  sleepers : ∀ cv u, u ∈ m.sleepers cv → u = t
  /-- awake, with nobody in the wait queues, or asleep for a reason -/
  place : ((m.pc t).Runs call ∧ (∀ cv, m.sleepers cv = []) ∧
      (m.pc t = .expired call → (M.expires call).isSome)) ∨
    ∃ cv, m.pc t = .asleep cv call ∧ M.turn q call = .sleep cv ∧
      ∀ cv', cv' ≠ cv → m.sleepers cv' = []

/-- The thread `t` has returned with what the call comes to, and nobody is inside. -/
def Over (M : Monitor σ Call Cv Ret) (q : σ) (call : Call) (t : Tid)
    (m : State Tid σ Call Cv Ret) : Prop :=
  Vacant m ∧ ∃ r, m.pc t = .idle (some r) ∧ M.alone q call = some (m.shared, r)

section

variable [DecidableEq Tid] [DecidableEq Cv] {M : Monitor σ Call Cv Ret}
  {s s' m : State Tid σ Call Cv Ret} {t : Tid} {call : Call} {shared : σ} {ret : Ret}

theorem Inside.left {signal : Signal Cv} (h : Inside M s.shared call t m)
    (hempty : ∀ cv, m.sleepers cv = [])
    (hsignal : (m.left t shared ret).signal signal none = some s') :
    Vacant s' ∧ s'.shared = shared ∧ s'.pc t = .idle (some ret) := by
  have hpc : (m.left t shared ret).pc t = .idle (some ret) := update_self ..
  have hidle (u : Tid) : ∃ r, (m.left t shared ret).pc u = .idle r := by
    by_cases hut : u = t
    · exact ⟨some ret, hut ▸ hpc⟩
    · obtain ⟨r, hr⟩ := h.others u hut
      exact ⟨r, by simpa [State.left, hut] using hr⟩
  rcases signal_cases hsignal with ⟨rfl, -, -⟩ | ⟨cv, u, -, hpick, -⟩ | ⟨-, rfl⟩
  · exact ⟨⟨hidle, hempty⟩, rfl, hpc⟩
  · cases hpick
  · refine ⟨⟨fun u => ?_, fun cv => rfl⟩, rfl, ?_⟩
    · obtain ⟨r, hr⟩ := hidle u
      exact ⟨r, by simp only [State.riseAll, hr, Pc.wake]⟩
    · simp only [State.riseAll, hpc, Pc.wake]

variable {cv : Cv} {own : List Own}

theorem Inside.rise {pc : Pc Call Cv Ret} (h : Inside M shared call t m)
    (hpc : m.pc t = .asleep cv call) (hruns : pc.Runs call)
    (hexpired : pc = .expired call → (M.expires call).isSome) :
    Inside M shared call t (m.rise cv t pc) := by
  have hrest : ∀ cv', cv' ≠ cv → m.sleepers cv' = [] := by
    rcases h.place with ⟨hawake, -⟩ | ⟨cv₁, hpc₁, -, hrest⟩
    · exact absurd hpc hawake.not_asleep
    · rw [hpc] at hpc₁
      cases hpc₁
      exact hrest
  have hempty (cv' : Cv) : (m.rise cv t pc).sleepers cv' = [] := by
    by_cases hcv : cv' = cv
    · subst hcv
      simpa [State.rise, List.filter_eq_nil_iff] using h.sleepers cv'
    · simpa [State.rise, hcv] using hrest cv' hcv
  have hself : (m.rise cv t pc).pc t = pc := update_self ..
  refine ⟨h.shared, fun u hu => ?_, fun cv' u hu => ?_, .inl ⟨?_, hempty, ?_⟩⟩
  · obtain ⟨r, hr⟩ := h.others u hu
    exact ⟨r, by simpa [State.rise, hu] using hr⟩
  · rw [hempty cv'] at hu
    cases hu
  · rwa [hself]
  · rwa [hself]

theorem Inside.lieDown (h : Inside M shared call t m) (hempty : ∀ cv, m.sleepers cv = [])
    (hturn : M.turn shared call = .sleep cv) : Inside M shared call t (m.lieDown t cv call) := by
  refine ⟨h.shared, fun u hu => ?_, fun cv' u hu => ?_, .inr ⟨cv, ?_, hturn, fun cv' hcv => ?_⟩⟩
  · obtain ⟨r, hr⟩ := h.others u hu
    exact ⟨r, by simpa [State.lieDown, hu] using hr⟩
  · by_cases hcv : cv' = cv
    · subst hcv
      simpa [State.lieDown, hempty] using hu
    · simp [State.lieDown, hcv, hempty] at hu
  · exact update_self ..
  · simpa [State.lieDown, hcv] using hempty cv'

theorem Inside.takeTurn (h : Inside M s.shared call t m) (hempty : ∀ cv, m.sleepers cv = [])
    (hstep : M.takeTurn m t call none = some s') :
    Inside M s.shared call t s' ∨ Over M s.shared call t s' := by
  unfold Monitor.takeTurn at hstep
  rw [h.shared] at hstep
  split at hstep
  case h_1 cv hturn =>
    cases hstep
    exact .inl (h.lieDown hempty hturn)
  case h_2 shared' signal r hturn =>
    obtain ⟨hvacant, rfl, hpc⟩ := h.left hempty hstep
    exact .inr ⟨hvacant, r, hpc, by simp [Monitor.alone, hturn]⟩

theorem Inside.lastTurn (h : Inside M s.shared call t m) (hempty : ∀ cv, m.sleepers cv = [])
    (hstep : M.lastTurn m t call none = some s') : Over M s.shared call t s' := by
  unfold Monitor.lastTurn at hstep
  rw [h.shared] at hstep
  split at hstep
  case h_1 cv hturn =>
    obtain ⟨r, hexpires, rfl⟩ := Option.map_eq_some_iff.mp hstep
    have hquiet : (m.left t s.shared r).signal .quiet none = some (m.left t s.shared r) := rfl
    obtain ⟨hvacant, -, hpc⟩ := h.left hempty hquiet
    exact ⟨hvacant, r, hpc, by simp [Monitor.alone, hturn, hexpires, State.left]⟩
  case h_2 shared' signal r hturn =>
    obtain ⟨hvacant, rfl, hpc⟩ := h.left hempty hstep
    exact ⟨hvacant, r, hpc, by simp [Monitor.alone, hturn]⟩

/-- **One step inside a call.** The call goes on with nothing changed, or it comes to its end. -/
theorem Inside.step {o : Own} (h : Inside M s.shared call t m)
    (hstep : M.step m (t, o.act) = some s') :
    Inside M s.shared call t s' ∨ Over M s.shared call t s' := by
  rcases h.place with ⟨hruns, hempty, -⟩ | ⟨cv, hpc, hturn, -⟩
  · -- awake: only the lock can be taken
    rcases hruns with hpc | hpc | hpc <;> cases o <;>
      simp only [Own.act, Monitor.step, hpc] at hstep
    case inl.turn => exact h.takeTurn hempty hstep
    case inr.inl.turn => exact h.takeTurn hempty hstep
    case inr.inr.turn => exact .inr (h.lastTurn hempty hstep)
    all_goals cases hstep
  · cases o <;> simp only [Own.act, Monitor.step, hpc] at hstep
    case turn => cases hstep
    case spurious =>
      cases hstep
      exact .inl (h.rise hpc (.inr (.inl rfl)) (by simp))
    case expire =>
      obtain ⟨hexpires, hstep⟩ := Option.ite_none_right_eq_some.mp hstep
      cases hstep
      exact .inl (h.rise hpc (.inr (.inr rfl)) fun _ => hexpires)

theorem Vacant.enter (h : Vacant s) (t : Tid) (call : Call) :
    ∃ m, M.step s (t, .invoke call) = some m ∧ Inside M s.shared call t m := by
  obtain ⟨r, hr⟩ := h.idle t
  refine ⟨{ s with pc := update s.pc t (.entering call) }, ?_, ?_⟩
  · simp only [Monitor.step, hr]
  · have hself : update s.pc t (.entering call) t = .entering call :=
      update_self ..
    refine ⟨rfl, fun u hu => ?_, fun cv u hu => ?_, .inl ⟨.inl hself, h.sleepers, fun he => ?_⟩⟩
    · obtain ⟨r, hr⟩ := h.idle u
      exact ⟨r, by simpa [hu] using hr⟩
    · rw [show s.sleepers cv = [] from h.sleepers cv] at hu
      cases hu
    · have hentering := hself.symm.trans he
      cases hentering

theorem Inside.run (h : Inside M s.shared call t m)
    (hrun : exec M.step m (own.map fun o => (t, o.act)) = some s') :
    Inside M s.shared call t s' ∨ Over M s.shared call t s' := by
  induction own generalizing m with
  | nil =>
    cases hrun
    exact .inl h
  | cons o own ih =>
    obtain ⟨m', hstep, hrest⟩ := exec_cons hrun
    rcases h.step hstep with hinside | hend
    · exact ih hinside hrest
    · -- nothing is left to do once the call has returned
      cases own with
      | nil =>
        cases hrest
        exact .inr hend
      | cons o' own =>
        obtain ⟨-, r, hpc, -⟩ := hend
        obtain ⟨m'', hstep', -⟩ := exec_cons hrest
        cases o' <;> simp [Own.act, Monitor.step, hpc] at hstep'

theorem Vacant.of_returned (h : Vacant s) (hret : returned M s t call own = some (s', ret)) :
    Vacant s' ∧ M.alone s.shared call = some (s'.shared, ret) := by
  obtain ⟨m, hstarted, hdone⟩ := Option.bind_eq_some_iff.mp hret
  obtain ⟨m₀, henter, hinside⟩ := h.enter (M := M) t call
  rw [started, exec_cons_of_step _ henter] at hstarted
  split at hdone <;> cases hdone
  rename_i hpc
  rcases hinside.run hstarted with hinside' | ⟨hvacant, r, hr, halone⟩
  · rcases hinside'.place with ⟨hruns | hruns | hruns, -⟩ | ⟨cv, hasleep, -⟩ <;> simp_all
  · rw [hpc] at hr
    cases hr
    exact ⟨hvacant, halone⟩

theorem signal_of_empty (hempty : ∀ cv, m.sleepers cv = []) (signal : Signal Cv) :
    ∃ s', m.signal signal none = some s' := by
  cases signal with
  | quiet => exact ⟨m, rfl⟩
  | one cv => exact ⟨m, by simp [State.signal, hempty cv]⟩
  | everyone => exact ⟨m.riseAll, rfl⟩

theorem Inside.returns_expired (h : Inside M s.shared call t m) (hpc : m.pc t = .expired call) :
    ∃ s' r, M.step m (t, .turn none) = some s' ∧ s'.pc t = .idle (some r) := by
  rcases h.place with ⟨-, hempty, hexpires⟩ | ⟨cv, hasleep, -⟩
  · have hsome : ∃ s', M.lastTurn m t call none = some s' := by
      unfold Monitor.lastTurn
      split
      case h_1 =>
        obtain ⟨r, hr⟩ := Option.isSome_iff_exists.mp (hexpires hpc)
        exact ⟨_, by rw [if_pos rfl, hr]; rfl⟩
      case h_2 shared' signal r _ =>
        exact signal_of_empty (m := m.left t shared' r) hempty signal
    obtain ⟨s', hs'⟩ := hsome
    obtain ⟨-, r, hr, -⟩ := h.lastTurn hempty hs'
    exact ⟨s', r, by simp only [Monitor.step, hpc, hs'], hr⟩
  · rw [hpc] at hasleep
    cases hasleep

theorem Inside.returns_asleep (h : Inside M s.shared call t m) (hpc : m.pc t = .asleep cv call)
    (hexpires : (M.expires call).isSome) :
    ∃ s' r, exec M.step m [(t, .expire), (t, .turn none)] = some s' ∧ s'.pc t = .idle (some r) := by
  have hrise : M.step m (t, .expire) = some (m.rise cv t (.expired call)) := by
    simp only [Monitor.step, hpc, if_pos hexpires]
  have hinside := h.rise hpc (.inr (.inr rfl)) fun _ => hexpires
  obtain ⟨s', r, hstep, hr⟩ := hinside.returns_expired (update_self ..)
  refine ⟨s', r, ?_, hr⟩
  rw [exec_cons_of_step _ hrise, exec_cons_of_step _ hstep, exec_nil]

theorem Inside.returns {e : σ × Ret} (h : Inside M s.shared call t m)
    (halone : M.alone s.shared call = some e) :
    ∃ (own : List Own) (s' : State Tid σ Call Cv Ret) (r : Ret),
      exec M.step m (own.map fun o => (t, o.act)) = some s' ∧ s'.pc t = .idle (some r) := by
  have hexpires {cv : Cv} (hturn : M.turn s.shared call = .sleep cv) :
      (M.expires call).isSome := by
    rw [Monitor.alone, hturn] at halone
    obtain ⟨r, hr, -⟩ := Option.map_eq_some_iff.mp halone
    exact Option.isSome_iff_exists.mpr ⟨r, hr⟩
  rcases h.place with ⟨hruns, hempty, -⟩ | ⟨cv, hasleep, hturn, -⟩
  · have hstep (hpc : m.pc t = .entering call ∨ m.pc t = .woken call)
        {s₁ : State Tid σ Call Cv Ret} (hs₁ : M.takeTurn m t call none = some s₁) :
        M.step m (t, .turn none) = some s₁ := by
      rcases hpc with hpc | hpc <;> simp only [Monitor.step, hpc, hs₁]
    by_cases hexpired : m.pc t = .expired call
    · obtain ⟨s', r, hstep, hr⟩ := h.returns_expired hexpired
      exact ⟨[.turn], s', r, by rw [List.map_singleton]; exact exec_cons_of_step [] hstep, hr⟩
    · have hpc : m.pc t = .entering call ∨ m.pc t = .woken call := by
        rcases hruns with hpc | hpc | hpc
        · exact .inl hpc
        · exact .inr hpc
        · exact absurd hpc hexpired
      cases hturn : M.turn s.shared call with
      | sleep cv =>
        -- it goes to sleep, and its time is up
        have hs₁ : M.takeTurn m t call none = some (m.lieDown t cv call) := by
          unfold Monitor.takeTurn
          rw [h.shared, hturn]
          rfl
        have hinside := h.lieDown hempty hturn
        obtain ⟨s', r, hrun, hr⟩ :=
          hinside.returns_asleep (update_self ..) (hexpires hturn)
        exact ⟨[.turn, .expire, .turn], s', r,
          (exec_cons_of_step _ (hstep hpc hs₁)).trans hrun, hr⟩
      | leave shared' signal r =>
        obtain ⟨s', hsignal⟩ := signal_of_empty (m := m.left t shared' r) hempty signal
        have hs' : M.takeTurn m t call none = some s' := by
          unfold Monitor.takeTurn
          rw [h.shared, hturn]
          exact hsignal
        obtain ⟨-, -, hr⟩ := h.left hempty hsignal
        exact ⟨[.turn], s', r, exec_cons_of_step [] (hstep hpc hs'), hr⟩
  · obtain ⟨s', r, hrun, hr⟩ := h.returns_asleep hasleep (hexpires hturn)
    exact ⟨[.expire, .turn], s', r, hrun, hr⟩

/-- **A call that comes to something returns**: wherever it is, some further steps lead to its
end. -/
theorem Vacant.returns {e : σ × Ret} (h : Vacant s) (halone : M.alone s.shared call = some e)
    (hstarted : started M s t call own = some m) :
    ∃ more, (returned M s t call (own ++ more)).isSome := by
  obtain ⟨m₀, henter, hinside⟩ := h.enter (M := M) t call
  have hrun := hstarted
  rw [started, exec_cons_of_step _ henter] at hrun
  rcases hinside.run hrun with hinside' | ⟨-, r, hr, -⟩
  · obtain ⟨more, s', r, hmore, hr⟩ := hinside'.returns halone
    refine ⟨more, ?_⟩
    have hall : started M s t call (own ++ more) = some s' := by
      rw [started, List.map_append, ← List.cons_append, exec_append]
      rw [started] at hstarted
      rw [hstarted]
      exact hmore
    simp [returned, hall, hr]
  · exact ⟨[], by simp [returned, hstarted, hr]⟩

theorem Vacant.returned_eq_none (h : Vacant s) (t : Tid) (call : Call) :
    (∀ own, returned M s t call own = none) ↔ M.alone s.shared call = none := by
  constructor
  · intro hnone
    by_contra hsome
    obtain ⟨e, he⟩ := Option.ne_none_iff_exists'.mp hsome
    obtain ⟨m₀, henter, -⟩ := h.enter (M := M) t call
    obtain ⟨more, hmore⟩ := h.returns he (show started M s t call [] = some m₀ from
      (exec_cons_of_step [] henter).trans rfl)
    rw [hnone] at hmore
    cases hmore
  · intro hnone own
    by_contra hsome
    obtain ⟨⟨s', r⟩, hr⟩ := Option.ne_none_iff_exists'.mp hsome
    obtain ⟨-, halone⟩ := h.of_returned hr
    rw [hnone] at halone
    cases halone

end

end Muses.Core.Monitor
