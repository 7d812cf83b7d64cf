import Muses.Proxy.Health
import Muses.Proxy.Books

/-!
# One attempt to forward a request

A coroutine that forwards a request has a place in an attempt, and a connection that it alone uses.
-/

namespace Muses.Proxy

open Muses.Core Text Search HttpContext Http Function
open World (ReadResult WriteResult readChunk)

/-! ## Places of an attempt -/

namespace Pc

def tries : Pc → Option (Exchange × UInt32)
  | .acquiring x a => some (x, a)
  | .connecting x a _ => some (x, a)
  | .forwarding x a _ _ => some (x, a)
  | .readUpHead x a _ _ => some (x, a)
  | .readUp x a _ _ _ _ => some (x, a)
  | _ => none

def retried (cfg : Config) (x : Exchange) (a : UInt32) : Pc :=
  if a + 1 ≤ cfg.maxRetries then .acquiring x (a + 1)
  else .refusing (badGateway "upstream failed") 0

theorem retried_of_lt {cfg : Config} {a : UInt32} (x : Exchange) (h : a < cfg.maxRetries) :
    retried cfg x a = .acquiring x (a + 1) ∧ (a + 1).toNat = a.toNat + 1 := by
  have hlt : a.toNat < cfg.maxRetries.toNat := UInt32.lt_iff_toNat_lt.mp h
  have hbound := cfg.maxRetries.toNat_lt
  have hnext : (a + 1).toNat = a.toNat + 1 := by
    rw [UInt32.toNat_add, show (1 : UInt32).toNat = 1 from rfl]
    exact Nat.mod_eq_of_lt (by omega)
  refine ⟨if_pos ?_, hnext⟩
  rw [UInt32.le_iff_toNat_le, hnext]
  exact hlt

@[simp] theorem upFd_retried (cfg : Config) (x : Exchange) (a : UInt32) :
    (retried cfg x a).upFd = none := by
  unfold retried
  split <;> rfl

end Pc

/-! ## Connections are left alone

Between two system calls the code touches no connection. -/

section Conns

variable {cfg : Config} {s s' : State} {id : ConnId} {f : Frame} {x : Exchange} {a : UInt32}
  {fd : Fd}

theorem conns_isHealthy (key : Bytes) : (s.isHealthy cfg key).2.conns = s.conns :=
  congrArg View.conns (State.view_isHealthy s cfg key)

theorem conns_failAttempt : (s.failAttempt cfg id f x a).conns = s.conns := by
  unfold State.failAttempt State.beginAttempt
  split <;> rfl

theorem Behind.conns {A : Assume} {v : View} {ok : Bool} {pc : Pc}
    (h : Behind cfg A v s id f ok pc s') : s'.conns = s.conns := by
  cases h with
  | noHead | wantBody | noRoute | plan | next | noMemory => rfl
  | shut | gate => exact conns_isHealthy _
  | noUpHead => exact conns_failAttempt
  | complete =>
    unfold State.afterResponse State.releaseUpstream
    rw [if_pos rfl]
    split <;> rfl

theorem conns_sysRead {limit : Nat} {r : ReadResult} (h : s.sysRead fd limit r = some s')
    {c : ConnId} (hc : s.fds fd ≠ some c) : s'.conns c = s.conns c := by
  rcases sysRead_spec h with ⟨bs, d, -, hd, -, -, -, rfl⟩ | ⟨-, rfl, -⟩
  · have hcd : c ≠ d := by
      rintro rfl
      exact hc hd
    exact update_of_ne hcd _ _
  · rfl

/-- **A coroutine touches the connection it reads from, one it takes from a pool, and one it
opens.** -/
theorem runFrame_conns {io : Io} (hrun : s.runFrame cfg id f io = some s') {c : ConnId}
    (hsrc : ∀ fd, f.pc.source f.client = some fd → s.fds fd ≠ some c)
    (hpool : ∀ key, ∀ fd ∈ s.pools key, s.fds fd ≠ some c) (hnew : c ≠ s.opened) :
    s'.conns c = s.conns c := by
  cases runFrame_ran (A := {}) hrun (fun _ _ _ _ _ _ _ => .inr trivial) with
  | readOn hfd _ hread => exact conns_sysRead hread (hsrc _ hfd)
  | readEnd hfd _ hread _ _ _ hbehind =>
    exact (congrFun hbehind.conns c).trans (conns_sysRead hread (hsrc _ hfd))
  | reuse _ hhead => exact if_neg (hpool _ _ (hhead ▸ List.mem_cons_self))
  | connect | connectWait => exact update_of_ne hnew _ _
  | noConnection | connectFailed | forwardFailed => exact congrFun conns_failAttempt c
  | answered =>
    unfold State.afterAnswer
    split <;> rfl
  | _ => rfl

end Conns

/-! ## The steps of all others -/

/-- What the peer may do to a connection meanwhile. -/
inductive Conn.Touched (fd : Fd) (c : Conn) : Act → Conn → Prop where
  | not (a : Act) : Touched fd c a c
  | arrive {bs : Bytes} (hopen : c.fin = false) :
      Touched fd c (.arrive fd bs) { c with rx := c.rx ++ bs, sent := c.sent ++ bs }
  | hangup : Touched fd c (.hangup fd) { c with fin := true }

/-- Others leave the coroutine and its upstream connection alone. -/
structure Undisturbed (s : State) (k : ConnId) (f : Frame) (a : Act) (s' : State) : Prop where
  frame : ∃ f', s'.frames k = some f' ∧ f'.pc = f.pc ∧ f'.client = f.client
  conn : ∀ fd c, f.pc.upFd = some fd → s.fds fd = some c →
    s'.fds fd = some c ∧ (s.conns c).Touched fd a (s'.conns c)

section Elsewhere

variable {cfg : Config} {s s' : State} {k : ConnId} {f : Frame} {a : Act}

theorem Hold.fds {g : Frame} {s₁ : State} {up : Option Fd} (h : Hold cfg s g s₁ up) {fd : Fd}
    (hopen : s.fds fd ≠ none) (hup : g.pc.upFd ≠ some fd) : s₁.fds fd = s.fds fd := by
  cases h with
  | keep hcalm | pool _ _ hcalm | reuse _ _ hcalm => exact congrFun hcalm.fds fd
  | @close g' hg hcalm =>
    have hne : fd ≠ g' := by
      rintro rfl
      exact hup hg
    exact (congrFun hcalm.fds fd).trans (update_of_ne hne _ _)
  | @connect g' _ hfree _ hcalm =>
    have hne : fd ≠ g' := by
      rintro rfl
      exact hopen hfree
    exact (congrFun hcalm.fds fd).trans (update_of_ne hne _ _)

theorem Leads.fds {id : ConnId} {g : Frame} {io : Io} (h : Leads cfg s id g io s') {fd : Fd}
    (hopen : s.fds fd ≠ none) (hup : g.pc.upFd ≠ some fd) : s'.fds fd = s.fds fd := by
  cases h with
  | goto _ hhold => exact hhold.fds hopen hup
  | await _ hhold => exact hhold.fds hopen hup
  | finish hcalm => exact congrFun hcalm.fds fd

theorem outside_undisturbed (hplaced : Placed s.view) (hstep : step cfg s a = some s')
    (hid : s.frames k = some f) (hout : a.outside = true) : Undisturbed s k f a s' := by
  cases a with
  | tick d | connect | stop =>
    cases hstep
    exact ⟨⟨f, hid, rfl, rfl⟩, fun fd c _ hfd => ⟨hfd, .not _⟩⟩
  | arrive g bs =>
    obtain ⟨d, hg, hstep⟩ := Option.bind_eq_some_iff.mp hstep
    obtain ⟨⟨-, hopen⟩, hstep⟩ := Option.ite_none_right_eq_some.mp hstep
    cases hstep
    refine ⟨⟨f, hid, rfl, rfl⟩, fun fd c _ hfd => ⟨hfd, ?_⟩⟩
    by_cases hcd : c = d
    · subst hcd
      obtain rfl := hplaced.inj fd g c hfd hg
      rw [show (s.setConn c _).conns c = _ from update_self ..]
      exact .arrive hopen
    · rw [show (s.setConn d _).conns c = s.conns c from update_of_ne hcd _ _]
      exact .not _
  | hangup g =>
    obtain ⟨d, hg, rfl⟩ := Option.map_eq_some_iff.mp hstep
    refine ⟨⟨f, hid, rfl, rfl⟩, fun fd c _ hfd => ⟨hfd, ?_⟩⟩
    by_cases hcd : c = d
    · subst hcd
      obtain rfl := hplaced.inj fd g c hfd hg
      rw [show (s.setConn c _).conns c = _ from update_self ..]
      exact .hangup
    · rw [show (s.setConn d _).conns c = s.conns c from update_of_ne hcd _ _]
      exact .not _
  | _ => cases hout

theorem runFrame_undisturbed (h : Orderly s) (hid : s.frames k = some f) {id : ConnId} {g : Frame}
    {io : Io} (hne : k ≠ id) (hg : s.frames id = some g)
    (hrun : s.runFrame cfg id g io = some s') : Undisturbed s k f (.run io) s' := by
  have hleads := runFrame_leads (h.hungry id g hg) hrun
  refine ⟨⟨f, (hleads.frames.1 k hne).trans hid, rfl, rfl⟩, fun fd c hup hfd => ?_⟩
  have hheld : s.view.held k = some fd := by rw [Placed.held_of_task (tasks_view hid), hup]
  have hother : g.pc.upFd ≠ some fd := by
    intro hg'
    refine hne (h.placed.lease.held_inj k id fd hheld ?_)
    rw [Placed.held_of_task (tasks_view hg), hg']
  refine ⟨(hleads.fds (by simp [hfd]) hother).trans hfd, ?_⟩
  -- what the other one reads, takes from a pool or opens is not this connection
  rw [runFrame_conns hrun ?_ ?_ ?_]
  · exact .not _
  · intro fd' hsrc hfd'
    obtain rfl := h.placed.inj fd fd' c hfd hfd'
    rcases Pc.source_cases hsrc with ⟨hclient, -⟩ | hup'
    · exact h.placed.ne_client (tasks_view hg) (h.placed.held k fd hheld) hclient.symm
    · exact hother hup'
  · intro key fd' hpool hfd'
    obtain rfl := h.placed.inj fd fd' c hfd hfd'
    exact h.placed.lease.held_idle k key fd hheld hpool
  · exact Nat.ne_of_lt (h.placed.below fd c hfd)

theorem loop_undisturbed (h : Orderly s) (hid : s.frames k = some f) (hfin : f.pc ≠ .finished)
    (hmove : LoopMove cfg s a s') (hstop : a ≠ .finishStop) : Undisturbed s k f a s' := by
  cases hmove with
  | poll | drop | stay => exact ⟨⟨f, hid, rfl, rfl⟩, fun fd c _ hfd => ⟨hfd, .not _⟩⟩
  | @resume e evs id g hpc hdata hg hwait =>
    refine ⟨?_, fun fd c _ hfd => ⟨hfd, .not _⟩⟩
    by_cases hki : k = id
    · subst hki
      obtain rfl : f = g := Option.some.inj (hid.symm.trans hg)
      exact ⟨_, update_self .., rfl, rfl⟩
    · exact ⟨f, by simpa [hki] using hid, rfl, rfl⟩
  | @spawn g accepted evs hpc hfree hlisten =>
    have hold : k ≠ s.opened := Nat.ne_of_lt (h.placed.frame_lt hid)
    refine ⟨⟨f, by simpa [State.spawn, State.openConn, hold] using hid, rfl, rfl⟩,
      fun fd c hup hfd => ?_⟩
    have hne : fd ≠ g := by
      rintro rfl
      rw [hfree] at hfd
      cases hfd
    refine ⟨(update_of_ne hne _ _).trans hfd, ?_⟩
    have hc : c ≠ s.opened := Nat.ne_of_lt (h.placed.below fd c hfd)
    rw [show (s.spawn g (accepted + 1) evs).conns c = s.conns c from update_of_ne hc _ _]
    exact .not _
  | @discard id g accepted evs hpc hg hdone =>
    -- the coroutine that is dropped has ended, and its client is not this upstream
    have hki : k ≠ id := by
      rintro rfl
      rw [hid, Option.some.injEq] at hg
      exact hfin (hg ▸ hdone)
    refine ⟨⟨f, (update_of_ne hki _ _).trans hid, rfl, rfl⟩, fun fd c hup hfd => ?_⟩
    have hheld : s.view.held k = some fd := by rw [Placed.held_of_task (tasks_view hid), hup]
    have hne : fd ≠ g.client := h.placed.ne_client (tasks_view hg) (h.placed.held k fd hheld)
    exact ⟨(update_of_ne hne _ _).trans hfd, .not _⟩
  | adopt hpc hg hlive =>
    rw [destroyTask_vacant (h.filed.vacant h.placed hg (by rw [hpc]; rfl))]
    exact ⟨⟨f, hid, rfl, rfl⟩, fun fd c _ hfd => ⟨hfd, .not _⟩⟩
  | reap hpc =>
    refine ⟨⟨f, Option.filter_eq_some_iff.mpr ⟨hid, ?_⟩, rfl, rfl⟩,
      fun fd c _ hfd => ⟨hfd, .not _⟩⟩
    simp [State.isDone, hid, hfin]
  | finishStop => exact absurd rfl hstop

/-- **While a coroutine does not run** it stays where it is, and only the upstream touches its
connection. -/
theorem step_elsewhere (h : Orderly s) (hstep : step cfg s a = some s')
    (hid : s.frames k = some f) (hfin : f.pc ≠ .finished)
    (hother : ∀ io, a = .run io → s.active ≠ some k) (hstop : a ≠ .finishStop) :
    Undisturbed s k f a s' := by
  rcases step_cases hstep with ⟨hout, -⟩ | ⟨io, id, g, rfl, hactive, hg, hrun⟩ | ⟨-, hmove⟩
  · exact outside_undisturbed h.placed hstep hid hout
  · refine runFrame_undisturbed h hid ?_ hg hrun
    rintro rfl
    exact hother io rfl hactive
  · exact loop_undisturbed h hid hfin hmove hstop

end Elsewhere

/-! ## The code between two system calls -/

/-- The step has left coroutine `id`, whose frame was `f`, at `pc`. It has touched no connection
since `s`, nor closed or opened one if the coroutine still holds its descriptor. -/
structure Arrives (s : State) (id : ConnId) (f : Frame) (s' : State) (pc : Pc) : Prop where
  frame : ∃ f', s'.frames id = some f' ∧ f'.pc = pc ∧ f'.client = f.client
  conns : s'.conns = s.conns
  fds : pc.upFd ≠ none → s'.fds = s.fds

section Code

variable {cfg : Config} {s : State} {id : ConnId} {f : Frame} {x : Exchange} {a : UInt32} {fd : Fd}

theorem Arrives.of_eq {s₁ s' : State} {pc : Pc} (h : Arrives s₁ id f s' pc)
    (hconns : s₁.conns = s.conns) (hfds : s₁.fds = s.fds) : Arrives s id f s' pc :=
  ⟨h.frame, h.conns.trans hconns, fun hup => (h.fds hup).trans hfds⟩

theorem goto_arrives (pc : Pc) : Arrives s id f (s.goto id f pc) pc :=
  ⟨⟨_, update_self .., rfl, rfl⟩, rfl, fun _ => rfl⟩

theorem awaitIo_arrives (pc : Pc) (mask : EventMask) (ok : Bool) :
    Arrives s id f (s.awaitIo id f fd mask ok pc) pc :=
  ⟨⟨_, update_self .., rfl, rfl⟩, rfl, fun _ => rfl⟩

theorem startForward_arrives : Arrives s id f (s.startForward id f x a fd) (.forwarding x a fd 0) :=
  ⟨⟨_, update_self .., rfl, rfl⟩, rfl, fun _ => rfl⟩

theorem failAttempt_arrives : Arrives s id f (s.failAttempt cfg id f x a) (.retried cfg x a) := by
  refine ⟨?_, conns_failAttempt, fun hup => absurd (Pc.upFd_retried cfg x a) hup⟩
  unfold State.failAttempt State.beginAttempt Pc.retried
  split
  · exact ⟨_, update_self .., rfl, rfl⟩
  · exact ⟨_, update_self .., rfl, rfl⟩

theorem closeAttempt_arrives :
    Arrives s id f ((s.close fd).failAttempt cfg id f x a) (.retried cfg x a) where
  frame := failAttempt_arrives.frame
  conns := conns_failAttempt
  fds hup := absurd (Pc.upFd_retried cfg x a) hup

end Code

theorem Reading.step {cfg : Config} {s s' : State} {act : Act} (h : Reading s.view)
    (hstep : Proxy.step cfg s act = some s') : Reading s'.view :=
  (step_moves hstep (allows_default s act)).invariant (fun _ _ h hmove => h.move hmove) h

def Call.pauses : Call → Bool
  | .read .eagain => true
  | .read .eintr => true
  | .write .eagain => true
  | .write .eintr => true
  | _ => false

end Muses.Proxy
