import Muses.Proxy.Responses

/-!
# The health of the upstreams

`mark_unhealthy` is called wherever an attempt fails, and `is_healthy` opens the gate again when the
cooldown is over. Nothing else touches an entry: an attempt that succeeds, be it the retry right
after the failure, leaves it as it is. So the entry of an upstream does not say how the latest
attempt against it ended. What it says is whether one has failed within the cooldown.

To state this, the proxy is watched by a history of the attempts that have ended, with the time at
which they did.
-/

namespace Muses.Proxy

open Muses.Core Text Search HttpContext Http Function Option
open World (ReadResult WriteResult readChunk)

/-! ## Attempts -/

namespace Pc

def attempt : Pc → Option Exchange
  | .acquiring x _ => some x
  | .connecting x _ _ => some x
  | .forwarding x _ _ _ => some x
  | .readUpHead x _ _ _ => some x
  | .readUp x _ _ _ _ _ => some x
  | _ => none

/-- Whether an attempt that leads here was answered. It goes on at the other places, or ends with
an exception. -/
def verdict : Pc → Option Bool
  | .answering _ _ _ => some true
  | .acquiring _ _ => some false
  | .refusing _ _ => some false
  | _ => none

/-- The attempt that ends between `pc` and `pc'`: against which upstream, and whether it was
answered. -/
def ended (pc pc' : Pc) : Option (Bytes × Bool) :=
  pc.attempt.bind fun x => pc'.verdict.map fun answered => (x.route.key, answered)

variable {pc : Pc}

theorem ended_of_verdict {pc' : Pc} (h : pc'.verdict ≠ some false) (key : Bytes) :
    pc.ended pc' ≠ some (key, false) := by
  intro hended
  obtain ⟨x, -, hx⟩ := bind_eq_some_iff.mp hended
  obtain ⟨answered, hanswered, hpair⟩ := map_eq_some_iff.mp hx
  cases hpair
  exact h hanswered

theorem ended_of_attempt {pc' : Pc} (h : pc.attempt = none) : pc.ended pc' = none := by
  simp [ended, h]

theorem attempt_push (bs : Bytes) (pc : Pc) : (pc.push bs).attempt = pc.attempt := by
  cases pc <;> rfl

theorem attempt_of_writes {out : Bytes × Nat} (h : pc.writes = some out) : pc.attempt = none := by
  cases pc with
  | refusing | answering => rfl
  | _ => cases h

theorem verdict_push {client fd : Fd} (bs : Bytes) (hsrc : pc.source client = some fd) :
    (pc.push bs).verdict = none := by
  cases pc with
  | readHead | readBody | readUpHead | readUp => rfl
  | _ => cases hsrc

end Pc

def State.attemptEnded (s s' : State) : Act → Option (Bytes × Bool)
  | .run _ =>
      s.active.bind fun id =>
        (s.frames id).bind fun f => (s'.frames id).bind fun f' => f.pc.ended f'.pc
  | _ => none

structure Outcome where
  answered : Bool
  time : Nat
  deriving DecidableEq, Repr

structure Watched where
  state : State
  outcomes : Bytes → List Outcome

namespace Watched

def init : Watched := ⟨.init, fun _ => []⟩

def note (outcomes : Bytes → List Outcome) (time : Nat) :
    Option (Bytes × Bool) → Bytes → List Outcome
  | some (key, answered) =>
      update outcomes key (⟨answered, time⟩ :: outcomes key)
  | none => outcomes

def step (cfg : Config) (w : Watched) (a : Act) : Option Watched :=
  (Proxy.step cfg w.state a).map fun s =>
    ⟨s, note w.outcomes w.state.clock (w.state.attemptEnded s a)⟩

/-- Every failure lies further back than the cooldown. -/
def Rested (cfg : Config) (w : Watched) (key : Bytes) : Prop :=
  ∀ o ∈ w.outcomes key, o.answered = false → cfg.upstreamCooldown < w.state.clock - o.time

instance (cfg : Config) (w : Watched) (key : Bytes) : Decidable (w.Rested cfg key) := by
  unfold Rested
  infer_instance

end Watched

/-! ## What a step does to the entries -/

/-- What a step does to the health of the upstreams. -/
inductive Tends (cfg : Config) (s : State) (ended : Option (Bytes × Bool)) (s' : State) : Prop where
  | keeps (hhealth : s'.health = s.health) (hclock : s.clock ≤ s'.clock)
      (hended : ∀ key, ended ≠ some (key, false))
  /-- `is_healthy` finds that the cooldown is over -/
  | renews (key : Bytes) (hcool : cfg.upstreamCooldown < s.clock - (s.health key).unhealthySince)
      (hmarked : (s.health key).healthy = false)
      (hhealth : s'.health =
        update s.health key { s.health key with healthy := true })
      (hclock : s'.clock = s.clock) (hended : ended = none)
  | marks (key : Bytes) (hhealth : s'.health = update s.health key ⟨false, s.clock⟩)
      (hclock : s'.clock = s.clock) (hended : ended = some (key, false))

/-- The entries and the clock are the same. -/
structure Alike (s s₁ : State) : Prop where
  health : s₁.health = s.health
  clock : s₁.clock = s.clock

def Noted (cfg : Config) (s : State) (id : ConnId) (f : Frame) (s' : State) : Prop :=
  ∃ f', s'.frames id = some f' ∧ Tends cfg s (f.pc.ended f'.pc) s'

namespace Alike

variable {s s₁ s₂ : State}

theorem refl (s : State) : Alike s s := ⟨rfl, rfl⟩

theorem sysRead {fd : Fd} {limit : Nat} {r : ReadResult} (h : s.sysRead fd limit r = some s₁) :
    Alike s s₁ := by
  rcases sysRead_spec h with ⟨bs, c, -, -, -, -, -, rfl⟩ | ⟨-, rfl, -⟩
  · exact ⟨rfl, rfl⟩
  · exact refl _

theorem close (h : Alike s s₁) (fd : Fd) : Alike s (s₁.close fd) := ⟨h.health, h.clock⟩

theorem releaseUpstream (h : Alike s s₁) (key : Bytes) (fd : Fd) (reusable : Bool) :
    Alike s (s₁.releaseUpstream key fd reusable) := by
  unfold State.releaseUpstream
  split
  · split <;> exact ⟨h.health, h.clock⟩
  · exact h.close fd

theorem openConn (s : State) (fd : Fd) (upstream : Bool) : Alike s (s.openConn fd upstream) :=
  ⟨rfl, rfl⟩

theorem reuse (s : State) (fd : Fd) (pools : Bytes → List Fd) :
    Alike s ({ s with pools := pools }.newRound fd) := ⟨rfl, rfl⟩

end Alike

section Code

variable {cfg : Config} {s s₁ s' : State} {id : ConnId} {f : Frame} {io : Io} {fd : Fd}

theorem goto_noted (halike : Alike s s₁) {pc : Pc} (index : Nat)
    (hpc : ∀ key, f.pc.ended pc ≠ some (key, false)) :
    Noted cfg s id f (s₁.goto id { f with index := index } pc) :=
  ⟨_, update_self .., .keeps halike.health halike.clock.ge hpc⟩

theorem awaitIo_noted (halike : Alike s s₁) {pc : Pc} {mask : EventMask} {ok : Bool}
    (hpc : ∀ key, f.pc.ended pc ≠ some (key, false)) :
    Noted cfg s id f (s₁.awaitIo id f fd mask ok pc) :=
  ⟨_, update_self .., .keeps halike.health halike.clock.ge hpc⟩

theorem finish_noted (halike : Alike s s₁) : Noted cfg s id f (s₁.finish id f) :=
  ⟨_, update_self .., .keeps halike.health halike.clock.ge
    (Pc.ended_of_verdict (by simp [Pc.verdict]))⟩

theorem failAttempt_noted (halike : Alike s s₁) {x : Exchange} (hx : f.pc.attempt = some x)
    (a : UInt32) : Noted cfg s id f (s₁.failAttempt cfg id f x a) := by
  have hmark : (s₁.markUnhealthy x.route.key).health =
      update s.health x.route.key ⟨false, s.clock⟩ := by
    simp only [State.markUnhealthy, halike.health, halike.clock]
  have hended (pc : Pc) (hpc : pc.verdict = some false) :
      f.pc.ended pc = some (x.route.key, false) := by
    simp [Pc.ended, hx, hpc]
  unfold State.failAttempt State.beginAttempt
  split <;> exact ⟨_, update_self .., .marks _ hmark halike.clock (hended _ rfl)⟩

theorem isHealthy_tends {ended : Option (Bytes × Bool)} (halike : Alike s s₁) (key : Bytes)
    (hafter : Alike (s₁.isHealthy cfg key).2 s') (hended : ended = none) :
    Tends cfg s ended s' := by
  obtain ⟨hhealth, hclock⟩ := hafter
  have hquiet : ∀ key, ended ≠ some (key, false) := by
    simp [hended]
  simp only [State.isHealthy] at hhealth hclock
  by_cases hmarked : (s₁.health key).healthy = true
  · rw [if_pos hmarked, halike.health] at hhealth
    rw [if_pos hmarked, halike.clock] at hclock
    exact .keeps hhealth hclock.ge hquiet
  · rw [if_neg hmarked] at hhealth hclock
    by_cases hcool : cfg.upstreamCooldown < s₁.clock - (s₁.health key).unhealthySince
    · rw [if_pos hcool] at hhealth hclock
      refine .renews key ?_ ?_ (by rw [hhealth, halike.health]) (hclock.trans halike.clock) hended
      · rwa [halike.health, halike.clock] at hcool
      · rw [halike.health] at hmarked
        simpa using hmarked
    · rw [if_neg hcool, halike.health] at hhealth
      rw [if_neg hcool, halike.clock] at hclock
      exact .keeps hhealth hclock.ge hquiet

theorem Behind.noted {A : Assume} {v : View} {ok : Bool} {bs : Bytes} (halike : Alike s s₁)
    (h : Behind cfg A v s₁ id f ok (f.pc.push bs) s') : Noted cfg s id f s' := by
  have hasks {info : HttpInfo} {body : Bytes} (h : (f.pc.push bs).Asks info body) :
      f.pc.attempt = none := by
    rw [← Pc.attempt_push bs]
    cases h with
    | head hpc | body hpc => rw [hpc]; rfl
  cases h with
  | noHead | noMemory => exact finish_noted halike
  | wantBody | plan | next =>
    exact goto_noted halike f.index (Pc.ended_of_verdict (by simp [Pc.verdict]))
  | noRoute h => exact goto_noted halike f.index (by simp [Pc.ended_of_attempt (hasks h)])
  | shut h | gate h =>
    -- no attempt has begun yet
    exact ⟨_, update_self .., isHealthy_tends halike _ ⟨rfl, rfl⟩
      (Pc.ended_of_attempt (hasks h))⟩
  | noUpHead hpc =>
    exact failAttempt_noted (halike.close _) (by rw [← Pc.attempt_push bs, hpc]; rfl) _
  | complete =>
    exact goto_noted (halike.releaseUpstream _ _ true) f.index
      (Pc.ended_of_verdict (by simp [Pc.verdict]))

theorem startForward_noted (halike : Alike s s₁) (x : Exchange) (a : UInt32) :
    Noted cfg s id f (s₁.startForward id f x a fd) :=
  ⟨_, update_self .., .keeps halike.health halike.clock.ge
    (Pc.ended_of_verdict (by simp [Pc.verdict]))⟩

theorem runFrame_noted (hrun : s.runFrame cfg id f io = some s') : Noted cfg s id f s' := by
  have hquiet (pc : Pc) (hpc : pc.verdict = none) (key : Bytes) :
      f.pc.ended pc ≠ some (key, false) := Pc.ended_of_verdict (by simp [hpc]) key
  cases runFrame_ran (A := {}) hrun (fun _ _ _ _ _ _ _ => .inr trivial) with
  | readOn hsrc _ hread =>
    exact goto_noted (.sysRead hread) f.index (hquiet _ (Pc.verdict_push _ hsrc))
  | readWait hsrc =>
    exact awaitIo_noted (.refl s) (hquiet _ (Pc.push_nil f.pc ▸ Pc.verdict_push [] hsrc))
  | readEnd _ _ hread _ _ _ hbehind => exact hbehind.noted (.sysRead hread)
  | writeOn hpc =>
    exact goto_noted (.refl s) f.index (by simp [Pc.ended_of_attempt (Pc.attempt_of_writes hpc)])
  | writeWait hpc =>
    exact awaitIo_noted (.refl s) (by simp [Pc.ended_of_attempt (Pc.attempt_of_writes hpc)])
  | refused => exact finish_noted (.refl s)
  | answered =>
    unfold State.afterAnswer
    split
    · exact goto_noted (.refl s) (f.index + 1) (hquiet _ rfl)
    · exact finish_noted (.refl s)
  | reuse => exact startForward_noted (.reuse s _ _) _ _
  | connect => exact startForward_noted (.openConn s _ true) _ _
  | connectWait => exact awaitIo_noted (.openConn s _ true) (hquiet _ rfl)
  | noConnection hpc => exact failAttempt_noted (.refl s) (by rw [hpc]; rfl) _
  | connected => exact startForward_noted (.refl s) _ _
  | connectFailed hpc | forwardFailed hpc =>
    exact failAttempt_noted ((Alike.refl s).close _) (by rw [hpc]; rfl) _
  | forwardOn | forwarded =>
    have hlogged (bs : Bytes) : Alike s (s.logForward id bs) := ⟨rfl, rfl⟩
    exact goto_noted (hlogged _) f.index (hquiet _ rfl)
  | forwardAgain hpc => exact goto_noted (.refl s) f.index (hquiet _ (by rw [hpc]; rfl))
  | forwardWait hpc => exact awaitIo_noted (.refl s) (hquiet _ (by rw [hpc]; rfl))

theorem LoopMove.alike {a : Act} (h : LoopMove cfg s a s') : Alike s s' := by
  cases h with
  | adopt =>
    unfold State.destroyTask
    split <;> exact ⟨rfl, rfl⟩
  | _ => exact ⟨rfl, rfl⟩

/-- **What one step does to the entries.** An entry is marked exactly when an attempt against its
upstream fails. -/
theorem step_tends {a : Act} (h : step cfg s a = some s') :
    Tends cfg s (s.attemptEnded s' a) s' := by
  cases a with
  | run io =>
    obtain ⟨id, hactive, h⟩ := bind_eq_some_iff.mp h
    obtain ⟨f, hid, hrun⟩ := bind_eq_some_iff.mp h
    obtain ⟨f', hf', htends⟩ := runFrame_noted hrun
    simpa [State.attemptEnded, hactive, hid, hf'] using htends
  | tick d =>
    cases h
    exact .keeps rfl (Nat.le_add_right _ _) (by simp [State.attemptEnded])
  | connect | stop =>
    cases h
    exact .keeps rfl le_rfl (by simp [State.attemptEnded])
  | arrive fd bs =>
    obtain ⟨c, -, h⟩ := bind_eq_some_iff.mp h
    obtain ⟨-, h⟩ := ite_none_right_eq_some.mp h
    cases h
    exact .keeps rfl le_rfl (by simp [State.attemptEnded])
  | hangup fd =>
    obtain ⟨c, -, rfl⟩ := map_eq_some_iff.mp h
    exact .keeps rfl le_rfl (by simp [State.attemptEnded])
  | _ =>
    obtain ⟨-, h⟩ := ite_none_right_eq_some.mp h
    have halike := (loopStep_cases h).alike
    exact .keeps halike.health halike.clock.ge (by simp [State.attemptEnded])

end Code

/-! ## An entry and the attempts that have ended -/

/-- The health entry is what the outcomes have made of it. -/
structure Tracked (cfg : Config) (clock : Nat) (h : UpstreamHealth) (os : List Outcome) : Prop where
  /-- every failure is over the cooldown when the entry is healthy -/
  rested : h.healthy = true →
    ∀ o ∈ os, o.answered = false → cfg.upstreamCooldown < clock - o.time
  /-- an entry that is marked holds the time of the latest failure -/
  failed : h.healthy = false → ∃ o ∈ os, o.answered = false ∧ o.time = h.unhealthySince
  latest : h.healthy = false → ∀ o ∈ os, o.answered = false → o.time ≤ h.unhealthySince
  /-- the attempts have ended in the past -/
  past : ∀ o ∈ os, o.time ≤ clock

namespace Tracked

variable {cfg : Config} {clock clock' : Nat} {h : UpstreamHealth} {os : List Outcome}

theorem later (ht : Tracked cfg clock h os) (hclock : clock ≤ clock') :
    Tracked cfg clock' h os where
  rested hh o ho ha := by
    have := ht.rested hh o ho ha
    omega
  failed := ht.failed
  latest := ht.latest
  past o ho := (ht.past o ho).trans hclock

theorem answer (ht : Tracked cfg clock h os) :
    Tracked cfg clock h (⟨true, clock⟩ :: os) where
  rested hh := by
    intro o ho ha
    rcases List.mem_cons.mp ho with rfl | ho
    · cases ha
    · exact ht.rested hh o ho ha
  failed hh := by
    obtain ⟨o, ho, hfailed⟩ := ht.failed hh
    exact ⟨o, List.mem_cons_of_mem _ ho, hfailed⟩
  latest hh := by
    intro o ho ha
    rcases List.mem_cons.mp ho with rfl | ho
    · cases ha
    · exact ht.latest hh o ho ha
  past := by
    intro o ho
    rcases List.mem_cons.mp ho with rfl | ho
    · exact le_rfl
    · exact ht.past o ho

theorem mark (ht : Tracked cfg clock h os) :
    Tracked cfg clock ⟨false, clock⟩ (⟨false, clock⟩ :: os) where
  rested hh := by cases hh
  failed _ := ⟨_, List.mem_cons_self, rfl, rfl⟩
  latest _ := by
    intro o ho _
    rcases List.mem_cons.mp ho with rfl | ho
    · exact le_rfl
    · exact ht.past o ho
  past := by
    intro o ho
    rcases List.mem_cons.mp ho with rfl | ho
    · exact le_rfl
    · exact ht.past o ho

theorem cooled (ht : Tracked cfg clock h os) (hmarked : h.healthy = false)
    (hcool : cfg.upstreamCooldown < clock - h.unhealthySince) :
    ∀ o ∈ os, o.answered = false → cfg.upstreamCooldown < clock - o.time := by
  intro o ho ha
  have := ht.latest hmarked o ho ha
  omega

theorem renew (ht : Tracked cfg clock h os) (hmarked : h.healthy = false)
    (hcool : cfg.upstreamCooldown < clock - h.unhealthySince) :
    Tracked cfg clock { h with healthy := true } os where
  rested _ := ht.cooled hmarked hcool
  failed hh := by cases hh
  latest hh := by cases hh
  past := ht.past

end Tracked

variable {cfg : Config}

theorem isHealthy_iff {s : State} {key : Bytes} {os : List Outcome}
    (ht : Tracked cfg s.clock (s.health key) os) :
    (s.isHealthy cfg key).1 = true ↔
      ∀ o ∈ os, o.answered = false → cfg.upstreamCooldown < s.clock - o.time := by
  cases hh : (s.health key).healthy with
  | true => simpa [State.isHealthy, hh] using ht.rested hh
  | false =>
    by_cases hcool : cfg.upstreamCooldown < s.clock - (s.health key).unhealthySince
    · have hrested := ht.cooled hh hcool
      simpa [State.isHealthy, hh, hcool] using hrested
    · -- the latest failure is the one that keeps the gate shut
      obtain ⟨o, ho, ha, htime⟩ := ht.failed hh
      have hfalse : (s.isHealthy cfg key).1 = false := by simp [State.isHealthy, hh, hcool]
      rw [hfalse]
      refine ⟨nofun, fun hrested => ?_⟩
      exact absurd (htime ▸ hrested o ho ha) hcool

theorem tracked_step {w w' : Watched} {a : Act}
    (ht : ∀ key, Tracked cfg w.state.clock (w.state.health key) (w.outcomes key))
    (hstep : w.step cfg a = some w') (key : Bytes) :
    Tracked cfg w'.state.clock (w'.state.health key) (w'.outcomes key) := by
  obtain ⟨s', hs', rfl⟩ := map_eq_some_iff.mp hstep
  dsimp only
  rcases step_tends hs' with ⟨hhealth, hclock, hended⟩ |
    ⟨key', hcool, hmarked, hhealth, hclock, hended⟩ | ⟨key', hhealth, hclock, hended⟩
  · rw [hhealth]
    refine Tracked.later ?_ hclock
    cases hnone : w.state.attemptEnded s' a with
    | none => exact ht key
    | some e =>
      obtain ⟨key', answered⟩ := e
      obtain rfl : answered = true := by
        cases answered with
        | true => rfl
        | false => exact absurd hnone (hended key')
      by_cases hkey : key = key'
      · subst hkey
        simpa [Watched.note] using (ht key).answer
      · simpa [Watched.note, hkey] using ht key
  · rw [hended, hhealth, hclock]
    by_cases hkey : key = key'
    · subst hkey
      simpa [Watched.note] using (ht key).renew hmarked hcool
    · simpa [Watched.note, hkey] using ht key
  · rw [hended, hhealth, hclock]
    by_cases hkey : key = key'
    · subst hkey
      simpa [Watched.note] using (ht key).mark
    · simpa [Watched.note, hkey] using ht key

theorem tracked_run {acts : List Act} {w : Watched}
    (hrun : exec (Watched.step cfg) .init acts = some w) (key : Bytes) :
    Tracked cfg w.state.clock (w.state.health key) (w.outcomes key) := by
  have hinit (key : Bytes) : Tracked cfg Watched.init.state.clock (Watched.init.state.health key)
      (Watched.init.outcomes key) :=
    ⟨fun _ => nofun, nofun, nofun, nofun⟩
  exact exec_invariant (fun _ _ _ ht hstep => tracked_step ht hstep) hinit hrun key

/-! ## The gate -/

def badGateway (reason : String) : Bytes :=
  buildResponse 502 (ascii "Bad Gateway") (ascii "text/plain") (ascii reason) false

/-- The request that is there in full, as far as the proxy can tell, once the coroutine at this
place has made this call. -/
def Pc.requested (pc : Pc) (call : Call) : Option HttpInfo :=
  match pc, call with
  | .readHead buf, .read r =>
      match readUntil blankLine buf r with
      | .done head =>
          (find blankLine head).bind fun pos =>
            if (head.drop (pos + 4)).length < announced head then none
            else some (parseRequest head)
      | _ => none
  | .readBody info _ want buf, .read r =>
      match readN want buf r with
      | .done _ => some info
      | _ => none
  | _, _ => none

section Gate

variable {cfg : Config} {s s₁ s' : State} {id : ConnId} {f : Frame} {io : Io} {info : HttpInfo}
  {route : ProxyRoute}

theorem isHealthy_alike (halike : Alike s s₁) (key : Bytes) :
    (s₁.isHealthy cfg key).1 = (s.isHealthy cfg key).1 := by
  unfold State.isHealthy
  rw [halike.health, halike.clock]
  dsimp only
  split
  · rfl
  · split <;> rfl

theorem afterBody_gate (halike : Alike s s₁) (hroute : selectRoute cfg.routes info.url = some route)
    (body : Bytes) :
    (s₁.afterBody cfg id f info body).frames id = some { f with
      pc := if (s.isHealthy cfg route.key).1 then .acquiring ⟨info, route, fwdRequest info body⟩ 0
        else .refusing (badGateway "upstream unavailable") 0 } := by
  rw [← isHealthy_alike halike]
  simp only [State.afterBody, hroute]
  split
  · -- the number of the first attempt is never over the bound
    have hfirst : (0 : UInt32) ≤ cfg.maxRetries := by simp
    simp [State.beginAttempt, hfirst, State.goto]
  · simp [State.refuse, State.goto, badGateway]

theorem runFrame_gate (hrun : s.runFrame cfg id f io = some s')
    (hinfo : f.pc.requested io.call = some info)
    (hroute : selectRoute cfg.routes info.url = some route) :
    ∃ fwd, s'.frames id = some { f with
      pc := if (s.isHealthy cfg route.key).1 then .acquiring ⟨info, route, fwd⟩ 0
        else .refusing (badGateway "upstream unavailable") 0 } := by
  unfold State.runFrame at hrun
  split at hrun
  · next buf r hpc hcall =>
    obtain ⟨s₁, hread, rfl⟩ := map_eq_some_iff.mp hrun
    simp only [Pc.requested, hpc, hcall] at hinfo
    split at hinfo
    · next head hdone =>
      obtain ⟨pos, hpos, hinfo⟩ := bind_eq_some_iff.mp hinfo
      obtain ⟨hlen, hinfo⟩ := ite_none_left_eq_some.mp hinfo
      cases hinfo
      refine ⟨fwdRequest (parseRequest head) (head.drop (pos + 4)), ?_⟩
      rw [hdone]
      unfold announced at hlen
      simp only [State.proceed, State.afterHead, hpos, if_neg hlen]
      exact afterBody_gate (.sysRead hread) hroute _
    · cases hinfo
  · next _ body want buf r hpc hcall =>
    obtain ⟨s₁, hread, rfl⟩ := map_eq_some_iff.mp hrun
    simp only [Pc.requested, hpc, hcall] at hinfo
    split at hinfo
    · next rest hdone =>
      cases hinfo
      rw [hdone]
      exact ⟨_, afterBody_gate (.sysRead hread) hroute _⟩
    · cases hinfo
  all_goals simp_all [Pc.requested]

end Gate

/-! ## The property -/

/-- **The gate is shut for a cooldown after each failure.** In every run, `is_healthy` returns true
for an upstream exactly if no attempt against it has failed within the cooldown, whatever has been
answered since; and by the same rule a request that is routed to it gets its first attempt or a 502
from the gate. -/
theorem health_is_cooldown {cfg : Config} {acts : List Act} {w : Watched}
    (hrun : exec (Watched.step cfg) .init acts = some w) :
    (∀ key, (w.state.isHealthy cfg key).1 = true ↔ w.Rested cfg key) ∧
    ∀ io w' id f info route, w.step cfg (.run io) = some w' → w.state.active = some id →
      w.state.frames id = some f → f.pc.requested io.call = some info →
      selectRoute cfg.routes info.url = some route →
      ∃ fwd, w'.state.frames id = some { f with
        pc := if w.Rested cfg route.key then .acquiring ⟨info, route, fwd⟩ 0
          else .refusing (badGateway "upstream unavailable") 0 } := by
  have hhealthy (key : Bytes) : (w.state.isHealthy cfg key).1 = true ↔ w.Rested cfg key :=
    isHealthy_iff (tracked_run hrun key)
  refine ⟨hhealthy, fun io w' id f info route hstep hactive hid hinfo hroute => ?_⟩
  obtain ⟨s', hs', rfl⟩ := map_eq_some_iff.mp hstep
  have hframe : w.state.runFrame cfg id f io = some s' := by
    simpa [Proxy.step, hactive, hid] using hs'
  obtain ⟨fwd, hfwd⟩ := runFrame_gate hframe hinfo hroute
  refine ⟨fwd, hfwd.trans ?_⟩
  simp only [hhealthy]

/-! ## Concrete runs -/

def Config.retrying : Config := { Config.sample with maxRetries := 1 }

def upKey : Bytes := upstreamKey (ascii "up") 80

def refusedOnce : List Act :=
  acceptClient ++
    [.arrive 4 getRequest.text, .reads getRequest.text, .run { call := .connect .refused },
      .connects 5, .writes (forwardText getRequest).length, .arrive 5 okResponse.text,
      .reads okResponse.text]

def requestsAgain : List Act :=
  [.writes okResponse.text.length, .arrive 4 getRequest.text, .reads getRequest.text]

theorem health_is_cooldown_rested :
    ∃ w ∈ exec (Watched.step .retrying) .init (refusedOnce ++ [.tick 11]),
      w.outcomes upKey = [⟨true, 0⟩, ⟨false, 0⟩] ∧
      (w.state.isHealthy .retrying upKey).1 = true := by
  obtain ⟨w, hrun, houtcomes, hclock⟩ :
      ∃ w ∈ exec (Watched.step .retrying) .init (refusedOnce ++ [.tick 11]),
        w.outcomes upKey = [⟨true, 0⟩, ⟨false, 0⟩] ∧ w.Rested .retrying upKey := by
    decide +kernel
  exact ⟨w, hrun, houtcomes, ((health_is_cooldown hrun).1 upKey).mpr hclock⟩

/-- The latest attempt has brought the whole response, and `is_healthy` returns false all the same:
the entry was marked by the attempt before. The next request is turned away. -/
theorem unhealthy_after_success :
    (∃ w ∈ exec (Watched.step .retrying) .init refusedOnce,
      (w.outcomes upKey).head? = some ⟨true, 0⟩ ∧
        (w.state.frames 0).map Frame.pc = some (.answering getExchange okResponse.text 0) ∧
        (w.state.isHealthy .retrying upKey).1 = false) ∧
    ∃ w ∈ exec (Watched.step .retrying) .init (refusedOnce ++ requestsAgain),
      (w.outcomes upKey).head? = some ⟨true, 0⟩ ∧
        (w.state.frames 0).map Frame.pc =
          some (.refusing (badGateway "upstream unavailable") 0) := by
  decide +kernel

end Muses.Proxy
