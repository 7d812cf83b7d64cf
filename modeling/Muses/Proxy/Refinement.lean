import Muses.Proxy.Steps

/-!
# Every step of the proxy is a sequence of moves

The connection between the model of the code, `Muses.Proxy.Server`, and the protocol of
`Muses.Proxy.Protocol`. A step of the active coroutine is cut in two: the system call, and the code
that runs from there to the next `co_await`. In between, the buffer of the helper already holds
what was read.
-/

namespace Muses.Proxy

open Muses.Core Text Search HttpContext Http Function
open World (ReadResult WriteResult readChunk)

/-- The step satisfies the conditions of `A`. -/
def Assume.Allows (A : Assume) (s : State) : Act → Prop
  | .arrive fd bs => A.arrive s.view fd bs
  | .hangup fd => A.hangup s.view fd
  | .run ⟨.read (.data bs), _, _⟩ => ∀ id, s.active = some id → A.read s.view id bs
  | .run ⟨.read .eof, _, _⟩ => ∀ id, s.active = some id → A.eof s.view id
  | .run ⟨.read .error, _, _⟩ => ∀ id, s.active = some id → A.error s.view id
  | _ => True

/-! ## Views of changed states -/

namespace State

variable (s : State) (id : ConnId) (f : Frame)

@[simp] theorem view_goto (pc : Pc) :
    (s.goto id f pc).view = s.view.set id ⟨f.client, pc, f.index⟩ := by
  simp [view, goto, View.set, comp_update, Frame.task]

@[simp] theorem view_finish :
    (s.finish id f).view = s.view.set id ⟨f.client, .finished, f.index⟩ :=
  view_goto s id f .finished

@[simp] theorem view_awaitIo (fd : Fd) (mask : EventMask) (ok : Bool) (pc : Pc) :
    (s.awaitIo id f fd mask ok pc).view = s.view.set id ⟨f.client, pc, f.index⟩ := by
  simp [view, awaitIo, View.set, comp_update, Frame.task]

@[simp] theorem view_markUnhealthy (key : Bytes) : (s.markUnhealthy key).view = s.view := rfl

@[simp] theorem view_isHealthy (cfg : Config) (key : Bytes) :
    (s.isHealthy cfg key).2.view = s.view := by
  unfold isHealthy
  dsimp only
  split
  · rfl
  · split <;> rfl

@[simp] theorem view_close (fd : Fd) : (s.close fd).view = s.view.close fd := rfl

@[simp] theorem view_setConn (c : ConnId) (k : Conn) :
    (s.setConn c k).view = s.view.setConn c k := rfl

@[simp] theorem view_openConn (fd : Fd) (upstream : Bool) :
    (s.openConn fd upstream).view = s.view.openConn fd upstream := rfl

@[simp] theorem view_setLoop (pc : Loop) : (s.setLoop pc).view = s.view := rfl

@[simp] theorem view_newRound (fd : Fd) : (s.newRound fd).view = s.view.newRound fd := rfl

@[simp] theorem view_logForward (bs : Bytes) :
    (s.logForward id bs).view =
      s.view.setForwards id (Forward.extend bs (s.view.forwards id)) := rfl

theorem view_startForward (x : Exchange) (a : UInt32) (fd : Fd) :
    (s.startForward id f x a fd).view =
      (s.view.setForwards id (⟨f.index, []⟩ :: s.view.forwards id)).set id
        ⟨f.client, .forwarding x a fd 0, f.index⟩ := by
  simp [startForward, view, goto, View.set, View.setForwards, comp_update, Frame.task]

end State

theorem View.set_set (v : View) (id : ConnId) (t t' : Task) :
    (v.set id t).set id t' = v.set id t' := by
  simp [View.set]

@[simp] theorem View.set_self (v : View) (id : ConnId) (t : Task) :
    (v.set id t).tasks id = some t := by
  simp

theorem View.set_of_eq {v : View} {id : ConnId} {t : Task} (h : v.tasks id = some t) :
    v.set id t = v := by
  simp only [View.set, ← h, update_eq_self]

/-! ## The code between two system calls

Each lemma starts where the helper has returned: the coroutine is at `pc`, its buffer filled. -/

section Code

variable {cfg : Config} {A : Assume} {s : State} {id : ConnId} {f : Frame}

variable {pc : Pc}

theorem turn_moves {pc' : Pc}
    (hturn : Turn A (s.goto id f pc).view id ⟨f.client, pc, f.index⟩ pc') :
    Moves cfg A (s.goto id f pc).view (s.goto id f pc').view := by
  simp only [State.view_goto] at hturn ⊢
  have hmove : Move cfg A _ _ := .turn (View.set_self s.view id _) hturn
  rw [View.set_set] at hmove
  exact .single hmove

theorem refuse_moves (reason : String) :
    Moves cfg A (s.goto id f pc).view (s.refuse id f reason).view :=
  turn_moves (.refuse _ _)

theorem finish_moves : Moves cfg A (s.goto id f pc).view (s.finish id f).view := by
  rw [State.view_finish, ← State.view_goto]
  exact turn_moves .finish

theorem beginAttempt_moves (x : Exchange) (a : UInt32) :
    Moves cfg A (s.goto id f (.acquiring x a)).view (s.beginAttempt cfg id f x a).view := by
  unfold State.beginAttempt
  split
  · exact .refl
  · exact refuse_moves _

theorem failAttempt_moves {x : Exchange} {fd : Fd} (a : UInt32) (hx : pc.exchange = some x)
    (hup : pc.upFd = some fd) :
    Moves cfg A (s.goto id f pc).view ((s.close fd).failAttempt cfg id f x a).view := by
  have hmove : Move cfg A (s.goto id f pc).view
      (((s.close fd).markUnhealthy x.route.key).goto id f (.acquiring x (a + 1))).view := by
    simp only [State.view_goto, State.view_markUnhealthy, State.view_close]
    have hmove : Move cfg A _ _ :=
      .fail (t := ⟨f.client, pc, f.index⟩) (a + 1) (View.set_self s.view id _) hx hup
    rwa [show (s.view.set id ⟨f.client, pc, f.index⟩).close fd =
      (s.view.close fd).set id ⟨f.client, pc, f.index⟩ from rfl, View.set_set] at hmove
  exact (Relation.ReflTransGen.single hmove).trans (beginAttempt_moves x (a + 1))

theorem afterResponse_moves {x : Exchange} {fd : Fd} (hx : pc.exchange = some x)
    (hup : pc.upFd = some fd) (hcomplete : Complete A (s.goto id f pc).view id pc) :
    Moves cfg A (s.goto id f pc).view (s.afterResponse id f x fd pc.taken).view := by
  rw [State.view_goto] at hcomplete ⊢
  have hid := View.set_self s.view id ⟨f.client, pc, f.index⟩
  unfold State.afterResponse State.releaseUpstream
  rw [if_pos rfl]
  split
  · have hmove : Move cfg A _ _ := .overflow hid hx hup hcomplete
    rw [show (s.view.set id ⟨f.client, pc, f.index⟩).close fd =
      (s.view.close fd).set id ⟨f.client, pc, f.index⟩ from rfl, View.set_set] at hmove
    rw [State.view_goto]
    exact .single hmove
  · have hmove : Move cfg A _ _ := .release hid hx hup hcomplete
    rw [show (s.view.set id ⟨f.client, pc, f.index⟩).setPool x.route.key
        ((s.view.set id ⟨f.client, pc, f.index⟩).pools x.route.key ++ [fd]) =
      (s.view.setPool x.route.key (s.view.pools x.route.key ++ [fd])).set id
        ⟨f.client, pc, f.index⟩ from rfl, View.set_set] at hmove
    rw [State.view_goto]
    exact .single hmove

theorem startForward_moves (x : Exchange) (a : UInt32) (fd : Fd) :
    Moves cfg A (s.goto id f (.connecting x a fd)).view (s.startForward id f x a fd).view := by
  rw [State.view_goto, State.view_startForward]
  have hmove : Move cfg A _ _ :=
    .start (t := ⟨f.client, .connecting x a fd, f.index⟩) (View.set_self s.view id _) rfl
  rw [show (s.view.set id ⟨f.client, .connecting x a fd, f.index⟩).setForwards id
      (⟨f.index, []⟩ :: (s.view.set id ⟨f.client, .connecting x a fd, f.index⟩).forwards id) =
    (s.view.setForwards id (⟨f.index, []⟩ :: s.view.forwards id)).set id
      ⟨f.client, .connecting x a fd, f.index⟩ from rfl, View.set_set] at hmove
  exact .single hmove

theorem afterAnswer_moves (x : Exchange) (resp : Bytes) (off : Nat) (ok : Bool) :
    Moves cfg A (s.goto id f (.answering x resp off)).view (s.afterAnswer id f x ok).view := by
  unfold State.afterAnswer
  split
  · simp only [State.view_goto]
    have hmove : Move cfg A _ _ :=
      .next (t := ⟨f.client, .answering x resp off, f.index⟩) (View.set_self s.view id _) rfl
    rw [View.set_set] at hmove
    exact .single hmove
  · exact finish_moves

theorem Pc.Asks.turn {v : View} {info : HttpInfo} {body : Bytes} (h : pc.Asks info body)
    (hend : pc.source f.client = some f.client → pc.Hungry → v.Ended A id f.client)
    (route : ProxyRoute) :
    Turn A v id ⟨f.client, pc, f.index⟩ (.acquiring ⟨info, route, fwdRequest info body⟩ 0) := by
  cases h with
  | head hpc hpos hlen => exact .routeHead route hpc hpos hlen
  | @body info body buf want hpc =>
    subst hpc
    exact .routeBody route rfl ((Nat.lt_or_ge buf.length want).symm.imp_right (hend rfl))

theorem Behind.moves {s' : State} {ok : Bool}
    (h : Behind cfg A (s.goto id f pc).view s id f ok pc s')
    (hend : pc.source f.client = some f.client → pc.Hungry →
      (s.goto id f pc).view.Ended A id f.client) : Moves cfg A (s.goto id f pc).view s'.view := by
  have hhealth (key : Bytes) :
      (s.goto id f pc).view = ((s.isHealthy cfg key).2.goto id f pc).view := by
    simp only [State.view_goto, State.view_isHealthy]
  cases h with
  | noHead | noMemory => exact finish_moves
  | wantBody hpc hpos hlen =>
    subst hpc
    exact turn_moves (.wantBody rfl hpos hlen)
  | noRoute => exact refuse_moves _
  | @shut _ _ route =>
    rw [hhealth route.key]
    exact refuse_moves _
  | @gate _ _ route hasks =>
    rw [hhealth route.key] at hend ⊢
    exact turn_moves (hasks.turn hend route)
  | @noUpHead _ a _ _ hpc =>
    subst hpc
    exact failAttempt_moves a rfl rfl
  | plan hpc hpos hplan => exact turn_moves (.plan hpc hpos hplan)
  | next hpc hnext => exact turn_moves (.nextPart hpc hnext)
  | complete hx hup hcomplete => exact afterResponse_moves hx hup hcomplete

end Code

/-! ## System calls -/

section Calls

variable {cfg : Config} {A : Assume} {s s' : State} {id : ConnId} {f : Frame} {fd : Fd}
  {r : ReadResult}

theorem view_goto_self (hid : s.frames id = some f) : (s.goto id f f.pc).view = s.view := by
  rw [State.view_goto]
  exact View.set_of_eq (by simp [State.view, hid, Frame.task])

theorem tasks_view (hid : s.frames id = some f) :
    s.view.tasks id = some ⟨f.client, f.pc, f.index⟩ := by
  simp [State.view, hid, Frame.task]

theorem sysRead_moves (hid : s.frames id = some f) (hsrc : f.pc.source f.client = some fd)
    (hread : s.sysRead fd f.pc.limit r = some s')
    (hA : ∀ bs, r = .data bs → A.read s.view id bs) :
    Moves cfg A s.view (s'.goto id f (f.pc.push (readBytes r))).view := by
  rcases sysRead_spec hread with ⟨bs, c, rfl, hfd, hne, hlimit, hrx, rfl⟩ | ⟨hnil, rfl, -⟩
  · rw [State.view_goto, State.view_setConn]
    exact .single (.read (tasks_view hid) hsrc hfd hne hlimit hrx (hA bs rfl))
  · rw [hnil, Pc.push_nil, view_goto_self hid]
    exact .refl

theorem sysRead_ended (hid : s.frames id = some f)
    (hread : s.sysRead fd f.pc.limit r = some s') (heofA : r = .eof → A.eof s.view id)
    (herrorA : r = .error → A.error s.view id) (hr : r = .eof ∨ r = .error) :
    (s'.goto id f (f.pc.push (readBytes r))).view.Ended A id fd := by
  rcases sysRead_spec hread with ⟨bs, c, rfl, -⟩ | ⟨hnil, rfl, heof⟩
  · simp at hr
  · rw [hnil, Pc.push_nil, view_goto_self hid]
    exact hr.imp (fun h => ⟨heof h, heofA h⟩) herrorA

theorem awaitIo_moves (hid : s.frames id = some f) {mask : EventMask} {ok : Bool} :
    Moves cfg A s.view (s.awaitIo id f fd mask ok f.pc).view := by
  rw [State.view_awaitIo, ← State.view_goto, view_goto_self hid]
  exact .refl

theorem write_moves {x : Exchange} {a : UInt32} {off n : Nat} (hid : s.frames id = some f)
    (hpc : f.pc = .forwarding x a fd off) (hlen : off + n ≤ x.fwd.length) :
    Moves cfg A s.view ((s.logForward id ((x.fwd.drop off).take n)).goto id f
      (.forwarding x a fd (off + n))).view := by
  have htask := tasks_view hid
  rw [hpc] at htask
  rw [State.view_goto, State.view_logForward]
  exact .single (.write htask rfl hlen)

theorem openConn_moves {x : Exchange} {a : UInt32} (hid : s.frames id = some f)
    (hpc : f.pc = .acquiring x a) (hfd : s.fds fd = none) :
    Moves cfg A s.view ((s.openConn fd true).goto id f (.connecting x a fd)).view := by
  rw [State.view_goto, State.view_openConn]
  exact .single (.connect (tasks_view hid) hpc hfd)

theorem runFrame_moves {io : Io} (hid : s.frames id = some f)
    (hrun : s.runFrame cfg id f io = some s')
    (hA : ∀ bs, io.call = .read (.data bs) → A.read s.view id bs)
    (heof : io.call = .read .eof → A.eof s.view id)
    (herror : io.call = .read .error → A.error s.view id) : Moves cfg A s.view s'.view := by
  have hended (fd : Fd) (r : ReadResult) (s₁ : State) (_ : f.pc.source f.client = some fd)
      (hcall : io.call = .read r) (hread : s.sysRead fd f.pc.limit r = some s₁)
      (hr : r = .eof ∨ r = .error) :
      (s₁.goto id f (f.pc.push (readBytes r))).view.Ended A id fd :=
    sysRead_ended hid hread (fun h => heof (h ▸ hcall)) (fun h => herror (h ▸ hcall)) hr
  have hdata {r : ReadResult} (hcall : io.call = .read r) (bs : Bytes) (hr : r = .data bs) :
      A.read s.view id bs := hA bs (hr ▸ hcall)
  have hself := view_goto_self hid
  cases runFrame_ran hrun hended with
  | readOn hsrc hcall hread => exact sysRead_moves hid hsrc hread (hdata hcall)
  | readWait => exact awaitIo_moves hid
  | @readEnd fd r s₁ _ hsrc hcall hread hr hhungry _ hbehind =>
    refine (sysRead_moves hid hsrc hread (hdata hcall)).trans
      (hbehind.moves fun hclient hungry => ?_)
    have hsame : fd = f.client := by
      have hpush : (f.pc.push (readBytes r)).source f.client = f.pc.source f.client := by
        cases f.pc <;> rfl
      rw [hpush, hsrc] at hclient
      exact Option.some.inj hclient
    exact hsame ▸ hended fd r s₁ hsrc hcall hread (hhungry hungry)
  | @writeOn data off off' w hpc =>
    rw [← hself]
    cases hf : f.pc with
    | refusing resp off => exact turn_moves (.refuse _ _)
    | answering x resp off => exact turn_moves (.answer off' rfl)
    | _ =>
      rw [hf] at hpc
      cases hpc
  | writeWait => exact awaitIo_moves hid
  | refused =>
    rw [← hself]
    exact finish_moves
  | answered hpc =>
    rw [← hself, hpc]
    exact afterAnswer_moves _ _ _ _
  | @reuse x a fd rest hpc hpool =>
    refine Relation.ReflTransGen.trans ?_ (startForward_moves x a fd)
    rw [State.view_goto, State.view_newRound]
    exact .single (.reuse (tasks_view hid) hpc hpool)
  | connect hpc _ hfd => exact (openConn_moves hid hpc hfd).trans (startForward_moves _ _ _)
  | connectWait hpc _ hfd =>
    rw [State.view_awaitIo, ← State.view_goto]
    exact openConn_moves hid hpc hfd
  | @noConnection x a hpc =>
    rw [← hself, hpc]
    exact (turn_moves (.retry (a + 1) rfl)).trans
      (beginAttempt_moves (s := s.markUnhealthy x.route.key) x (a + 1))
  | connected hpc =>
    rw [← hself, hpc]
    exact startForward_moves _ _ _
  | @connectFailed x a fd hpc | @forwardFailed x a fd off hpc =>
    rw [← hself, hpc]
    exact failAttempt_moves a rfl rfl
  | forwardOn hpc _ _ hlen => exact write_moves hid hpc hlen.le
  | forwarded hpc _ _ hlen =>
    exact (write_moves hid hpc hlen.le).trans (turn_moves (.written rfl hlen.ge))
  | forwardAgain =>
    rw [hself]
    exact .refl
  | forwardWait => exact awaitIo_moves hid

end Calls

/-! ## The loop -/

section Loop

variable {cfg : Config} {A : Assume} {s s' : State}

theorem view_filter (s : State) (keep : ConnId → Frame → Bool) :
    { s with frames := fun id => (s.frames id).filter (keep id) }.view =
      s.view.reap fun id => (s.frames id).all (keep id) := by
  simp only [State.view, View.reap, View.mk.injEq, true_and, and_true]
  funext id
  show ((s.frames id).filter (keep id)).map Frame.task =
    if (s.frames id).all (keep id) = true then (s.frames id).map Frame.task else none
  cases s.frames id with
  | none => rfl
  | some f => by_cases hk : keep id f = true <;> simp [hk]

theorem destroyTask_moves (s : State) (task : Option ConnId) :
    Moves cfg A s.view (s.destroyTask task).view := by
  cases task with
  | none => exact .refl
  | some id =>
    have hview : (s.destroyTask (some id)).view = s.view.reap (· ≠ id) := by
      simp only [State.destroyTask, State.view, View.reap, View.mk.injEq, true_and, and_true]
      funext j
      by_cases hj : j = id <;> simp [hj]
    rw [hview]
    exact .single (.reap _)

theorem view_discard (s : State) (fd : Fd) (id : ConnId) :
    ((s.close fd).destroyTask (some id)).view = (s.view.close fd).reap (· ≠ id) := by
  simp only [State.destroyTask, State.view, State.close, View.close, View.reap, View.mk.injEq,
    true_and, and_true]
  funext j
  by_cases hj : j = id <;> simp [hj]

theorem view_wake {id : ConnId} {f : Frame} (hid : s.frames id = some f) :
    Option.map Frame.task ∘ update s.frames id (some { f with waiting := none }) =
      s.view.tasks := by
  rw [comp_update]
  exact update_eq_self_iff.mpr (by simp [hid, Frame.task])

theorem view_spawn (s : State) (fd : Fd) (accepted : Nat) (evs : List Event) :
    (s.spawn fd accepted evs).view =
      (s.view.openConn fd false).set s.view.opened ⟨fd, .readHead [], 0⟩ := by
  simp [State.spawn, State.view, State.openConn, View.openConn, View.set, comp_update,
    Frame.task]

theorem spawn_moves {fd : Fd} (accepted : Nat) (evs : List Event) (hfd : s.fds fd = none)
    (hlisten : fd ≠ cfg.listenFd) : Moves cfg A s.view (s.spawn fd accepted evs).view := by
  rw [view_spawn]
  exact .single (.spawn fd hfd hlisten)

theorem finishStop_moves : Moves cfg A s.view (s.finishStop cfg).view := by
  have hview : (s.finishStop cfg).view =
      (s.view.reap fun id => (s.frames id).all fun f => !(s.liveTasks f.client = some id)).stop
        fun fd => cfg.routes.any fun r => (s.view.pools r.key).contains fd := by
    have hfilter := view_filter s fun id f => !(s.liveTasks f.client = some id)
    rw [← hfilter]
    rfl
  rw [hview]
  exact .tail (.single (.reap _)) .stop

theorem reapFinishedTasks_moves : Moves cfg A s.view s.reapFinishedTasks.view := by
  have hview : s.reapFinishedTasks.view = s.view.reap fun id =>
      (s.frames id).all fun f => !(s.isDone id && s.liveTasks f.client = some id) := by
    rw [← view_filter s fun id f => !(s.isDone id && s.liveTasks f.client = some id)]
    rfl
  rw [hview]
  exact .single (.reap _)

theorem LoopMove.moves {a : Act} (h : LoopMove cfg s a s') : Moves cfg A s.view s'.view := by
  cases h with
  | poll | drop | stay => exact .refl
  | @resume e evs id f hpc hdata hid =>
    have hview : ({ s with
        pc := .batch evs
        interest := update s.interest e.fd none
        frames := update s.frames id (some { f with waiting := none })
        active := some id } : State).view = s.view := by
      simp only [State.view, View.mk.injEq, true_and, and_true]
      exact view_wake hid
    rw [hview]
    exact .refl
  | spawn _ hfd hlisten => exact spawn_moves _ _ hfd hlisten
  | @discard id f accepted evs hpc hid =>
    show Moves cfg A s.view ((s.close f.client).destroyTask (some id)).view
    rw [view_discard]
    exact .single (.discard (tasks_view hid))
  | adopt => exact destroyTask_moves s _
  | reap => exact reapFinishedTasks_moves
  | finishStop => exact finishStop_moves

end Loop

/-! ## Whole runs -/

section Runs

variable {cfg : Config} {A : Assume} {s s' : State}

theorem step_moves {a : Act} (h : step cfg s a = some s') (hA : A.Allows s a) :
    Moves cfg A s.view s'.view := by
  cases a with
  | tick d | connect | stop =>
    cases h
    exact .refl
  | arrive fd bs =>
    obtain ⟨c, hfd, h⟩ := Option.bind_eq_some_iff.mp h
    obtain ⟨⟨hne, hopen⟩, h⟩ := Option.ite_none_right_eq_some.mp h
    cases h
    exact .single (.arrive hfd hne hopen hA)
  | hangup fd =>
    obtain ⟨c, hfd, rfl⟩ := Option.map_eq_some_iff.mp h
    exact .single (.hangup hfd hA)
  | run io =>
    obtain ⟨id, hactive, h⟩ := Option.bind_eq_some_iff.mp h
    obtain ⟨f, hid, hrun⟩ := Option.bind_eq_some_iff.mp h
    obtain ⟨call, addOk, reserveOk⟩ := io
    refine runFrame_moves hid hrun ?_ ?_ ?_
    · rintro bs rfl
      exact hA id hactive
    · rintro rfl
      exact hA id hactive
    · rintro rfl
      exact hA id hactive
  | _ =>
    obtain ⟨-, h⟩ := Option.ite_none_right_eq_some.mp h
    exact (loopStep_cases h).moves

/-- What holds before the first connection and is preserved by every move holds at the end of
every run that is as assumed. -/
theorem run_invariant {I : View → Prop} {acts : List Act} (hinit : I .init)
    (hmove : ∀ v v', I v → Move cfg A v v' → I v')
    (hmeets : Meets (step cfg) A.Allows .init acts)
    (hrun : exec (step cfg) .init acts = some s) : I s.view :=
  exec_invariant_of_meets (I := fun s => I s.view)
    (fun _ _ _ hI hA hstep => (step_moves hstep hA).invariant hmove hI) hinit hmeets hrun

end Runs

end Muses.Proxy
