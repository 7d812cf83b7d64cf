import Muses.Proxy.Refinement

/-!
# Coroutines and the scheduler

`Muses.Proxy.Refinement` sees a step of the active coroutine through a `View`, which leaves out the
event loop. Here a step is described as what it does to the whole state: some bookkeeping that no
other part of the proxy looks at (`Calm`), what becomes of the upstream descriptor (`Hold`), and the
place where the coroutine stops (`Leads`). Invariants that involve the scheduler are proved from
this description and from that of the loop.
-/

namespace Muses.Proxy

open Muses.Core Text Search HttpContext Http Function
open World (ReadResult WriteResult readChunk)

/-! ## Places -/

namespace Pc

def awaits (client : Fd) : Pc → Option Fd
  | .readHead _ => some client
  | .readBody _ _ _ _ => some client
  | .refusing _ _ => some client
  | .answering _ _ _ => some client
  | .acquiring _ _ => none
  | .finished => none
  | pc => pc.upFd

/-- Where a coroutine can go on from `pc` with this system call: to a place where it needs more, to
an answer only with all that it has collected, and to wait for a connection only if that was
begun. -/
def Next (pc : Pc) (io : Io) : Pc → Prop
  | .answering x resp _ =>
      (∃ off, pc = .answering x resp off) ∨
        ∃ r, io.call = .read r ∧ resp = (pc.push (readBytes r)).taken
  | .connecting x attempt fd =>
      pc = .acquiring x attempt ∧ io.call = .connect (.inProgress fd)
  | .finished => False
  | pc' => pc'.Hungry

def mayEnd (pc : Pc) (io : Io) : Bool :=
  match pc, io.call with
  | .readHead _, .read (.data _) => !io.reserveOk
  | .readHead _, .read .eof => true
  | .readHead _, .read .error => true
  | .refusing resp off, .write (.wrote n) => resp.length ≤ off + n
  | .refusing _ _, .write .error => true
  | .readUpHead _ _ _ _, .read _ => !io.reserveOk
  | .readUp _ _ _ _ _ _, .read _ => !io.reserveOk
  | .answering x resp off, .write (.wrote n) =>
      resp.length ≤ off + n && !x.info.wantsKeepAlive
  | .answering _ _ _, .write .error => true
  | _, _ => false

theorem exchange_push (bs : Bytes) (pc : Pc) : (pc.push bs).exchange = pc.exchange := by
  cases pc <;> rfl

variable {pc : Pc} {io : Io}

theorem awaits_of_source {client fd : Fd} (h : pc.source client = some fd) :
    pc.awaits client = some fd := by
  cases pc with
  | readHead | readBody | readUpHead | readUp => exact h
  | _ => cases h

theorem next_push {client fd : Fd} {bs : Bytes} (hsrc : pc.source client = some fd)
    (hungry : (pc.push bs).Hungry) : pc.Next io (pc.push bs) := by
  cases pc with
  | readHead | readBody | readUpHead | readUp => exact hungry
  | _ => cases hsrc

theorem Next.hungry {pc' : Pc} (h : pc.Next io pc') : pc'.Hungry := by
  cases pc' with
  | answering | connecting | finished => trivial
  | _ => exact h

theorem Next.ne_finished {pc' : Pc} (h : pc.Next io pc') : pc' ≠ .finished := by
  rintro rfl
  exact h

end Pc

/-! ## What a step leaves alone -/

/-- Nothing changed but what is in the connections. -/
structure Calm (s s' : State) : Prop where
  frames : s'.frames = s.frames
  active : s'.active = s.active
  liveTasks : s'.liveTasks = s.liveTasks
  pc : s'.pc = s.pc
  interest : s'.interest = s.interest
  fds : s'.fds = s.fds
  pools : s'.pools = s.pools
  opened : s'.opened = s.opened
  upstream : ∀ c, (s'.conns c).upstream = (s.conns c).upstream

namespace Calm

variable {s s₁ s₂ : State}

theorem refl (s : State) : Calm s s := ⟨rfl, rfl, rfl, rfl, rfl, rfl, rfl, rfl, fun _ => rfl⟩

theorem trans (h : Calm s s₁) (h' : Calm s₁ s₂) : Calm s s₂ where
  frames := h'.frames.trans h.frames
  active := h'.active.trans h.active
  liveTasks := h'.liveTasks.trans h.liveTasks
  pc := h'.pc.trans h.pc
  interest := h'.interest.trans h.interest
  fds := h'.fds.trans h.fds
  pools := h'.pools.trans h.pools
  opened := h'.opened.trans h.opened
  upstream c := (h'.upstream c).trans (h.upstream c)

theorem setConn {c : ConnId} {k : Conn} (hk : k.upstream = (s.conns c).upstream) :
    Calm s (s.setConn c k) :=
  { refl s with
    upstream := fun d => by
      by_cases hd : d = c
      · subst hd
        simpa [State.setConn] using hk
      · simp [State.setConn, hd] }

theorem sysRead {fd : Fd} {limit : Nat} {r : ReadResult} (h : s.sysRead fd limit r = some s₁) :
    Calm s s₁ := by
  rcases sysRead_spec h with ⟨bs, c, -, -, -, -, -, rfl⟩ | ⟨-, rfl, -⟩
  · exact setConn rfl
  · exact refl _

theorem isHealthy (cfg : Config) (s : State) (key : Bytes) : Calm s (s.isHealthy cfg key).2 := by
  unfold State.isHealthy
  dsimp only
  split
  · exact refl s
  · split <;> exact { refl s with }

theorem markUnhealthy (s : State) (key : Bytes) : Calm s (s.markUnhealthy key) :=
  { refl s with }

theorem newRound (s : State) (fd : Fd) : Calm s (s.newRound fd) :=
  { refl s with
    upstream := fun c => by
      show (if s.fds fd = some c then _ else _ : Conn).upstream = _
      split <;> rfl }

theorem close (h : Calm s s₁) (fd : Fd) : Calm (s.close fd) (s₁.close fd) :=
  { h with
    interest := by simp only [State.close, h.interest]
    fds := by simp only [State.close, h.fds] }

theorem setPool (h : Calm s s₁) (key : Bytes) (fds : List Fd) :
    Calm { s with pools := update s.pools key fds }
      { s₁ with pools := update s₁.pools key fds } :=
  { h with pools := by simp only [h.pools] }

end Calm

/-- What becomes of the upstream descriptor that frame `f` holds in `s`; the last argument is the
one that the coroutine holds afterwards. -/
inductive Hold (cfg : Config) (s : State) (f : Frame) : State → Option Fd → Prop where
  | keep {s₁ : State} (hcalm : Calm s s₁) : Hold cfg s f s₁ f.pc.upFd
  | close {s₁ : State} {fd : Fd} (hup : f.pc.upFd = some fd) (hcalm : Calm (s.close fd) s₁) :
      Hold cfg s f s₁ none
  | pool {s₁ : State} {fd : Fd} {x : Exchange} (hup : f.pc.upFd = some fd)
      (hx : f.pc.exchange = some x)
      (hcalm : Calm { s with
        pools := update s.pools x.route.key (s.pools x.route.key ++ [fd]) } s₁) :
      Hold cfg s f s₁ none
  | reuse {s₁ : State} {fd : Fd} {key : Bytes} {rest : List Fd} (hup : f.pc.upFd = none)
      (hpool : s.pools key = fd :: rest)
      (hcalm : Calm { s with pools := update s.pools key rest } s₁) :
      Hold cfg s f s₁ (some fd)
  | connect {s₁ : State} {fd : Fd} (hup : f.pc.upFd = none) (hfd : s.fds fd = none)
      (hlisten : fd ≠ cfg.listenFd) (hcalm : Calm (s.openConn fd true) s₁) :
      Hold cfg s f s₁ (some fd)

/-- The route is one of the configured ones, or the one from before. -/
def Routed (cfg : Config) (f : Frame) (pc : Pc) : Prop :=
  ∀ x, pc.exchange = some x → f.pc.exchange = some x ∨ x.route ∈ cfg.routes

/-- The ways a turn of the coroutine may end. -/
inductive Leads (cfg : Config) (s : State) (id : ConnId) (f : Frame) (io : Io) : State → Prop where
  | goto {s₁ : State} {pc : Pc} (index : Nat) (hhold : Hold cfg s f s₁ pc.upFd)
      (hnext : f.pc.Next io pc) (hroute : Routed cfg f pc) :
      Leads cfg s id f io (s₁.goto id { f with index := index } pc)
  | await {s₁ : State} {pc : Pc} {fd : Fd} (mask : EventMask) (hhold : Hold cfg s f s₁ pc.upFd)
      (hnext : f.pc.Next io pc) (hroute : Routed cfg f pc) (hfd : pc.awaits f.client = some fd) :
      Leads cfg s id f io (s₁.awaitIo id f fd mask io.addOk pc)
  | finish {s₁ : State} (hcalm : Calm s s₁) (hend : f.pc.mayEnd io = true) :
      Leads cfg s id f io (s₁.finish id f)

/-! ## The code between two system calls -/

section Code

variable {cfg : Config} {s s₁ s₂ s' : State} {id : ConnId} {f : Frame} {io : Io} {fd : Fd}
  {up : Option Fd}

theorem Hold.trans (h : Hold cfg s f s₁ up) (hcalm : Calm s₁ s₂) : Hold cfg s f s₂ up := by
  cases h with
  | keep h => exact .keep (h.trans hcalm)
  | close hup h => exact .close hup (h.trans hcalm)
  | pool hup hx h => exact .pool hup hx (h.trans hcalm)
  | reuse hup hpool h => exact .reuse hup hpool (h.trans hcalm)
  | connect hup hfd hlisten h => exact .connect hup hfd hlisten (h.trans hcalm)

theorem Hold.keep_of_eq (hcalm : Calm s s₁) (hup : f.pc.upFd = up) : Hold cfg s f s₁ up :=
  hup ▸ .keep hcalm

variable {x : Exchange}

theorem Routed.of_eq {pc : Pc} (hx : f.pc.exchange = some x ∨ x.route ∈ cfg.routes)
    (hpc : pc.exchange = some x) : Routed cfg f pc := by
  intro y hy
  obtain rfl : x = y := Option.some.inj (hpc.symm.trans hy)
  exact hx

theorem refuse_leads (hhold : Hold cfg s f s₁ none) (reason : String) :
    Leads cfg s id f io (s₁.refuse id f reason) :=
  .goto f.index hhold trivial nofun

theorem failAttempt_leads (hhold : Hold cfg s f s₁ none) (hx : f.pc.exchange = some x)
    (a : UInt32) : Leads cfg s id f io (s₁.failAttempt cfg id f x a) := by
  have hhold := hhold.trans (.markUnhealthy s₁ x.route.key)
  unfold State.failAttempt State.beginAttempt
  split
  · exact .goto f.index hhold trivial (.of_eq (.inl hx) rfl)
  · exact refuse_leads hhold _

theorem closeAttempt_leads (hcalm : Calm s s₁) (hup : f.pc.upFd = some fd)
    (hx : f.pc.exchange = some x) (a : UInt32) :
    Leads cfg s id f io ((s₁.close fd).failAttempt cfg id f x a) :=
  failAttempt_leads (.close hup (hcalm.close fd)) hx a

theorem afterResponse_leads (hcalm : Calm s s₁) (hup : f.pc.upFd = some fd)
    (hx : f.pc.exchange = some x) {resp : Bytes} {r : ReadResult} (hcall : io.call = .read r)
    (hresp : resp = (f.pc.push (readBytes r)).taken) :
    Leads cfg s id f io (s₁.afterResponse id f x fd resp) := by
  have hnext : f.pc.Next io (.answering x resp 0) := .inr ⟨r, hcall, hresp⟩
  unfold State.afterResponse State.releaseUpstream
  simp only [if_true]
  split
  · exact .goto f.index (.close hup (hcalm.close fd)) hnext (.of_eq (.inl hx) rfl)
  · refine .goto f.index (.pool hup hx ?_) hnext (.of_eq (.inl hx) rfl)
    have hpool := hcalm.setPool x.route.key (s.pools x.route.key ++ [fd])
    rwa [← hcalm.pools] at hpool ⊢

theorem startForward_leads (hhold : Hold cfg s f s₁ (some fd)) (hx : f.pc.exchange = some x)
    (a : UInt32) : Leads cfg s id f io (s₁.startForward id f x a fd) :=
  .goto f.index (hhold.trans { Calm.refl s₁ with }) trivial (.of_eq (.inl hx) rfl)

theorem Behind.leads {A : Assume} {v : View} {r : ReadResult} (hcalm : Calm s s₁)
    (hsrc : f.pc.source f.client = some fd) (hcall : io.call = .read r)
    (hr : r = .eof ∨ r = .error ∨ ∃ bs, r = .data bs)
    (hended : (f.pc.push (readBytes r)).Hungry → r = .eof ∨ r = .error)
    (h : Behind cfg A v s₁ id f io.reserveOk (f.pc.push (readBytes r)) s') :
    Leads cfg s id f io s' := by
  have hup : f.pc.upFd = (f.pc.push (readBytes r)).upFd := (Pc.upFd_push _ _).symm
  have hx : f.pc.exchange = (f.pc.push (readBytes r)).exchange := (Pc.exchange_push _ _).symm
  have hasks {info : HttpInfo} {body : Bytes} (h : (f.pc.push (readBytes r)).Asks info body) :
      f.pc.upFd = none := by
    cases h with
    | head hpc | body hpc => rw [hup, hpc]; rfl
  cases h with
  | noHead hpc hnone =>
    refine .finish hcalm ?_
    rw [hpc] at hended
    cases hf : f.pc with
    | readHead => rcases hended hnone with rfl | rfl <;> simp [Pc.mayEnd, hcall]
    | _ =>
      rw [hf] at hpc
      cases hpc
  | wantBody hpc hpos hlen =>
    exact .goto f.index (.keep_of_eq hcalm (by rw [hup, hpc]; rfl)) (Nat.sub_pos_of_lt hlen) nofun
  | noRoute h => exact refuse_leads (.keep_of_eq hcalm (hasks h)) _
  | @shut _ _ route h =>
    exact refuse_leads (.keep_of_eq (hcalm.trans (.isHealthy cfg s₁ route.key)) (hasks h)) _
  | @gate _ _ route h hroute =>
    exact .goto f.index (.keep_of_eq (hcalm.trans (.isHealthy cfg s₁ route.key)) (hasks h)) trivial
      (.of_eq (.inr (selectRoute_mem hroute)) rfl)
  | @noUpHead x a fd head hpc =>
    exact closeAttempt_leads hcalm (by rw [hup, hpc]; rfl) (by rw [hx, hpc]; rfl) a
  | plan hpc _ _ hungry | next hpc _ hungry =>
    exact .goto f.index (.keep_of_eq hcalm (by rw [hup, hpc]; rfl)) hungry
      (.of_eq (.inl (by rw [hx, hpc]; rfl)) rfl)
  | complete hx' hup' =>
    exact afterResponse_leads hcalm (hup.trans hup') (hx.trans hx') hcall rfl
  | noMemory hreserve hpc =>
    refine .finish hcalm ?_
    cases hf : f.pc with
    | readHead | readUpHead | readUp =>
      rcases hr with rfl | rfl | ⟨bs, rfl⟩ <;> simp [Pc.mayEnd, hcall, hreserve]
    | readBody =>
      rw [hf] at hpc
      simp [Pc.push, Pc.upFd] at hpc
    | _ =>
      rw [hf] at hsrc
      cases hsrc

theorem afterAnswer_leads {resp : Bytes} {off : Nat} {w : WriteResult} {ok : Bool}
    (hpc : f.pc = .answering x resp off) (hcall : io.call = .write w)
    (hwrote : Wrote resp off w (.done ok)) : Leads cfg s id f io (s.afterAnswer id f x ok) := by
  have hup : f.pc.upFd = none := by rw [hpc]; rfl
  unfold State.afterAnswer
  split
  · exact .goto (f.index + 1) (.keep_of_eq (.refl s) hup) rfl nofun
  · next hno =>
    refine .finish (.refl s) ?_
    cases hwrote with
    | all hlen => simpa [Pc.mayEnd, hpc, hcall, hlen] using hno
    | failed => simp [Pc.mayEnd, hpc, hcall]

/-! ## Every step -/

/-- **A step of the active coroutine**, from a place where its helper needs more. -/
theorem runFrame_leads (hungry : f.pc.Hungry) (hrun : s.runFrame cfg id f io = some s') :
    Leads cfg s id f io s' := by
  have hsame (pc : Pc) (hx : pc.exchange = f.pc.exchange) : Routed cfg f pc :=
    fun y hy => .inl (hx ▸ hy)
  cases runFrame_ran (A := {}) hrun (fun _ _ _ _ _ _ _ => .inr trivial) with
  | readOn hsrc _ hread _ hkeeps =>
    exact .goto f.index (.keep_of_eq (.sysRead hread) (Pc.upFd_push _ _).symm)
      (Pc.next_push hsrc (hkeeps hungry)) (hsame _ (Pc.exchange_push _ _))
  | readWait hsrc =>
    have hnext : f.pc.Next io (f.pc.push []) :=
      Pc.next_push hsrc ((Pc.push_nil f.pc).symm ▸ hungry)
    rw [Pc.push_nil] at hnext
    exact .await .Readable (.keep (.refl s)) hnext (hsame _ rfl) (Pc.awaits_of_source hsrc)
  | readEnd hsrc hcall hread hr hended _ hbehind =>
    exact hbehind.leads (.sysRead hread) hsrc hcall hr hended
  | @writeOn data off off' w hpc =>
    cases hf : f.pc with
    | refusing resp off =>
      exact .goto f.index (.keep_of_eq (.refl s) (by rw [hf]; rfl)) trivial nofun
    | answering x resp off =>
      exact .goto f.index (.keep_of_eq (.refl s) (by rw [hf]; rfl)) (.inl ⟨off, hf⟩)
        (hsame _ (by rw [hf]; rfl))
    | _ =>
      rw [hf] at hpc
      cases hpc
  | writeWait hpc =>
    cases hf : f.pc with
    | refusing resp off =>
      exact .await .Writable (.keep_of_eq (.refl s) (by rw [hf])) trivial nofun rfl
    | answering x resp off =>
      exact .await .Writable (.keep_of_eq (.refl s) (by rw [hf])) (.inl ⟨off, hf⟩)
        (hsame _ (by rw [hf])) rfl
    | _ =>
      rw [hf] at hpc
      cases hpc
  | refused hpc hcall hwrote =>
    refine .finish (.refl s) ?_
    cases hwrote with
    | all hlen => simpa [Pc.mayEnd, hpc, hcall] using hlen
    | failed => simp [Pc.mayEnd, hpc, hcall]
  | answered hpc hcall hwrote => exact afterAnswer_leads hpc hcall hwrote
  | @reuse x a fd rest hpc hpool =>
    exact startForward_leads (.reuse (by rw [hpc]; rfl) hpool (.newRound _ fd)) (by rw [hpc]; rfl) a
  | connect hpc _ hfd hlisten =>
    exact startForward_leads (.connect (by rw [hpc]; rfl) hfd hlisten (.refl _))
      (by rw [hpc]; rfl) _
  | connectWait hpc hcall hfd hlisten =>
    exact .await .Writable (.connect (by rw [hpc]; rfl) hfd hlisten (.refl _)) ⟨hpc, hcall⟩
      (hsame _ (by rw [hpc]; rfl)) rfl
  | noConnection hpc =>
    exact failAttempt_leads (.keep_of_eq (.refl s) (by rw [hpc]; rfl)) (by rw [hpc]; rfl) _
  | connected hpc =>
    exact startForward_leads (.keep_of_eq (.refl s) (by rw [hpc]; rfl)) (by rw [hpc]; rfl) _
  | connectFailed hpc | forwardFailed hpc =>
    exact closeAttempt_leads (.refl s) (by rw [hpc]; rfl) (by rw [hpc]; rfl) _
  | forwardOn hpc =>
    exact .goto f.index (.keep_of_eq { Calm.refl s with } (by rw [hpc]; rfl)) trivial
      (hsame _ (by rw [hpc]; rfl))
  | forwarded hpc =>
    exact .goto f.index (.keep_of_eq { Calm.refl s with } (by rw [hpc]; rfl)) rfl
      (hsame _ (by rw [hpc]; rfl))
  | forwardAgain hpc =>
    exact .goto f.index (.keep (.refl s)) (by rw [hpc]; trivial) (hsame _ rfl)
  | forwardWait hpc =>
    exact .await .Writable (.keep (.refl s)) (by rw [hpc]; trivial) (hsame _ rfl)
      (by rw [hpc]; rfl)

end Code

/-! ## Hungry helpers -/

section Hungry

variable {cfg : Config} {s s' : State} {id : ConnId} {f : Frame} {io : Io}

theorem Hold.same {s₁ : State} {up : Option Fd} (h : Hold cfg s f s₁ up) :
    s₁.frames = s.frames ∧ s₁.liveTasks = s.liveTasks ∧ s₁.pc = s.pc ∧ s₁.active = s.active := by
  cases h with
  | keep hcalm | close _ hcalm | pool _ _ hcalm | reuse _ _ hcalm | connect _ _ _ hcalm =>
    exact ⟨hcalm.frames, hcalm.liveTasks, hcalm.pc, hcalm.active⟩

theorem Leads.same (h : Leads cfg s id f io s') :
    s'.liveTasks = s.liveTasks ∧ s'.pc = s.pc := by
  cases h with
  | goto index hhold | await mask hhold => exact ⟨hhold.same.2.1, hhold.same.2.2.1⟩
  | finish hcalm => exact ⟨hcalm.liveTasks, hcalm.pc⟩

theorem Leads.frames (h : Leads cfg s id f io s') :
    (∀ j, j ≠ id → s'.frames j = s.frames j) ∧
      ∃ f', s'.frames id = some f' ∧ f'.client = f.client ∧
        (f.pc.Next io f'.pc ∨ (f'.pc = .finished ∧ f.pc.mayEnd io = true)) := by
  cases h with
  | goto index hhold hnext hroute =>
    refine ⟨fun j hj => ?_, _, update_self .., rfl, .inl hnext⟩
    simp [State.goto, hj, hhold.same.1]
  | await mask hhold hnext hroute =>
    refine ⟨fun j hj => ?_, _, update_self .., rfl, .inl hnext⟩
    simp [State.awaitIo, hj, hhold.same.1]
  | finish hcalm hend =>
    refine ⟨fun j hj => ?_, _, update_self .., rfl, .inr ⟨rfl, hend⟩⟩
    simp [State.finish, State.goto, hj, hcalm.frames]

/-- No coroutine waits for bytes that it has. -/
def AllHungry (s : State) : Prop := ∀ id f, s.frames id = some f → f.pc.Hungry

theorem AllHungry.runFrame (h : AllHungry s) (hid : s.frames id = some f)
    (hrun : s.runFrame cfg id f io = some s') : AllHungry s' := by
  obtain ⟨hothers, f', hf', -, hpc⟩ := (runFrame_leads (h id f hid) hrun).frames
  intro j g hj
  by_cases hji : j = id
  · subst hji
    obtain rfl : f' = g := Option.some.inj (hf'.symm.trans hj)
    rcases hpc with hnext | ⟨hfin, -⟩
    · exact hnext.hungry
    · rw [hfin]
      trivial
  · exact h j g (hothers j hji ▸ hj)

end Hungry

/-! ## The proxy -/

section Proxy

variable {cfg : Config} {s s' : State} {a : Act}

/-- **Every step of the proxy** is one outside of it, a step of the active coroutine, or one of the
loop. -/
theorem step_cases (h : step cfg s a = some s') :
    (a.outside = true ∧ Calm s s') ∨
    (∃ io id f, a = .run io ∧ s.active = some id ∧ s.frames id = some f ∧
      s.runFrame cfg id f io = some s') ∨
    (s.active = none ∧ LoopMove cfg s a s') := by
  cases a with
  | tick d | connect | stop =>
    cases h
    exact .inl ⟨rfl, { Calm.refl s with }⟩
  | arrive fd bs =>
    obtain ⟨c, -, h⟩ := Option.bind_eq_some_iff.mp h
    obtain ⟨-, h⟩ := Option.ite_none_right_eq_some.mp h
    cases h
    exact .inl ⟨rfl, .setConn rfl⟩
  | hangup fd =>
    obtain ⟨c, -, rfl⟩ := Option.map_eq_some_iff.mp h
    exact .inl ⟨rfl, .setConn rfl⟩
  | run io =>
    obtain ⟨id, hactive, h⟩ := Option.bind_eq_some_iff.mp h
    obtain ⟨f, hid, hrun⟩ := Option.bind_eq_some_iff.mp h
    exact .inr (.inl ⟨io, id, f, rfl, hactive, hid, hrun⟩)
  | _ =>
    obtain ⟨hactive, h⟩ := Option.ite_none_right_eq_some.mp h
    exact .inr (.inr ⟨hactive, loopStep_cases h⟩)

theorem frames_destroyTask {task : Option ConnId} {id : ConnId} {f : Frame}
    (h : (s.destroyTask task).frames id = some f) : s.frames id = some f ∧ task ≠ some id := by
  cases task with
  | none => exact ⟨h, nofun⟩
  | some j =>
    by_cases hj : id = j
    · subst hj
      simp [State.destroyTask] at h
    · exact ⟨by simpa [State.destroyTask, hj] using h, fun heq => hj (Option.some.inj heq).symm⟩

theorem LoopMove.frames (h : LoopMove cfg s a s') {id : ConnId} {f' : Frame}
    (hid : s'.frames id = some f') :
    (id = s.opened ∧ f'.pc = .readHead []) ∨
      ∃ f, s.frames id = some f ∧ f'.pc = f.pc ∧ f'.client = f.client := by
  cases h with
  | poll | drop | stay => exact .inr ⟨f', hid, rfl, rfl⟩
  | @resume e evs j f hpc hdata hj hwait =>
    right
    by_cases hji : id = j
    · subst hji
      obtain rfl : { f with waiting := none } = f' := by simpa using hid
      exact ⟨f, hj, rfl, rfl⟩
    · exact ⟨f', by simpa [hji] using hid, rfl, rfl⟩
  | spawn hpc hfd hlisten =>
    by_cases hnew : id = s.opened
    · subst hnew
      left
      simp only [State.spawn, State.openConn, update_self, Option.some.injEq] at hid
      exact ⟨rfl, hid ▸ rfl⟩
    · exact .inr ⟨f', by simpa [State.spawn, State.openConn, hnew] using hid, rfl, rfl⟩
  | @discard j f =>
    have hid : ((s.close f.client).destroyTask (some j)).frames id = some f' := hid
    exact .inr ⟨f', (frames_destroyTask hid).1, rfl, rfl⟩
  | adopt => exact .inr ⟨f', (frames_destroyTask hid).1, rfl, rfl⟩
  | reap => exact .inr ⟨f', (Option.filter_eq_some_iff.mp hid).1, rfl, rfl⟩
  | finishStop => exact .inr ⟨f', (Option.filter_eq_some_iff.mp hid).1, rfl, rfl⟩

theorem AllHungry.step (h : AllHungry s) (hstep : step cfg s a = some s') : AllHungry s' := by
  rcases step_cases hstep with ⟨-, hcalm⟩ | ⟨io, id, f, -, -, hid, hrun⟩ | ⟨-, hmove⟩
  · intro id f hid
    exact h id f (hcalm.frames ▸ hid)
  · exact h.runFrame hid hrun
  · intro id f' hid
    rcases hmove.frames hid with ⟨-, hpc⟩ | ⟨f, hf, hpc, -⟩
    · rw [hpc]
      rfl
    · rw [hpc]
      exact h id f hf

theorem run_hungry {acts : List Act} (hrun : exec (Proxy.step cfg) .init acts = some s) :
    AllHungry s :=
  exec_invariant (fun _ _ _ h hstep => h.step hstep) (fun _ _ h => by cases h) hrun

end Proxy

end Muses.Proxy
