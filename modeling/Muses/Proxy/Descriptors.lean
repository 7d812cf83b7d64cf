import Muses.Proxy.Books
import Muses.Proxy.Hygiene

/-!
# No descriptor is forgotten

Every descriptor that the proxy has opened should have an owner: a client's one its live task, an
upstream one a pool or a coroutine. The descriptor of a client is closed at one place only, in
`accept_clients`, when the coroutine ends in its first `resume`; neither `reap_finished_tasks` nor
`stop` closes any, and a coroutine that ends by an exception keeps its upstream connection open.
-/

namespace Muses.Proxy

open Muses.Core Function Option

/-! ## Owners -/

/-- Every open descriptor is a coroutine's or in a pool. -/
structure Kept (cfg : Config) (v : View) : Prop where
  clients : ∀ fd c, v.fds fd = some c → (v.conns c).upstream = false → (v.tasks c).isSome
  upstreams : ∀ fd, v.Upstream fd → (∃ key, fd ∈ v.pools key) ∨ ∃ id, v.held id = some fd
  routes : ∀ key fd, fd ∈ v.pools key → ∃ r ∈ cfg.routes, r.key = key
  exchanges : ∀ id t x, v.tasks id = some t → t.pc.exchange = some x → x.route ∈ cfg.routes

section

variable {cfg : Config} {s s' s₁ : State} {a : Act} {acts : List Act} {id : ConnId} {f : Frame}

theorem Kept.init : Kept cfg .init where
  clients _ _ h := by cases h
  upstreams _ h := by
    obtain ⟨_, h, -⟩ := h
    cases h
  routes _ _ h := by cases h
  exchanges _ _ _ h := by cases h

theorem Kept.calm (h : Kept cfg s.view) (hcalm : Calm s s') : Kept cfg s'.view := by
  have htasks : s'.view.tasks = s.view.tasks := by
    show Option.map Frame.task ∘ s'.frames = _
    rw [hcalm.frames]
    rfl
  have hpools : s'.view.pools = s.view.pools := hcalm.pools
  have hheld : s'.view.held = s.view.held := by
    unfold View.held
    rw [htasks]
  have hfds : s'.view.fds = s.view.fds := hcalm.fds
  have hkind (c : ConnId) : (s'.view.conns c).upstream = (s.view.conns c).upstream :=
    hcalm.upstream c
  exact {
    clients := fun fd c hfd hc => by
      rw [htasks]
      exact h.clients fd c (hfds ▸ hfd) (hkind c ▸ hc)
    upstreams := fun fd hfd => by
      obtain ⟨c, hfd, hc⟩ := hfd
      rw [hpools, hheld]
      exact h.upstreams fd ⟨c, hfds ▸ hfd, hkind c ▸ hc⟩
    routes := fun key fd hfd => h.routes key fd (hpools ▸ hfd)
    exchanges := fun id t x hid => h.exchanges id t x (htasks ▸ hid) }

variable {fd : Fd} {up : Option Fd}

theorem Hold.client_conn (h : Hold cfg s f s₁ up) {c : ConnId} (hfd : s₁.fds fd = some c)
    (hc : (s₁.conns c).upstream = false) : s.fds fd = some c ∧ (s.conns c).upstream = false := by
  cases h with
  | keep hcalm | pool _ _ hcalm | reuse _ _ hcalm =>
    rw [hcalm.fds] at hfd
    rw [hcalm.upstream] at hc
    exact ⟨hfd, hc⟩
  | @close g _ hcalm =>
    rw [hcalm.fds] at hfd
    rw [hcalm.upstream] at hc
    refine ⟨?_, hc⟩
    by_cases hg : fd = g
    · simp [State.close, hg] at hfd
    · simpa [State.close, hg] using hfd
  | @connect g _ _ _ hcalm =>
    rw [hcalm.fds] at hfd
    rw [hcalm.upstream] at hc
    have hnew : c ≠ s.opened := by
      rintro rfl
      simp [State.openConn] at hc
    by_cases hg : fd = g
    · simp only [State.openConn, hg, update_self, Option.some.injEq] at hfd
      exact absurd hfd.symm hnew
    · exact ⟨by simpa [State.openConn, hg] using hfd, by simpa [State.openConn, hnew] using hc⟩

/-- An upstream descriptor that is open after a step of a coroutine is the one it holds, lies in a
pool, or is none of its business. -/
theorem Hold.upstream_conn (hplaced : Placed s.view) (h : Hold cfg s f s₁ up)
    (hfd : s₁.view.Upstream fd) :
    up = some fd ∨ (∃ key, fd ∈ s₁.pools key) ∨
      (s.view.Upstream fd ∧ f.pc.upFd ≠ some fd ∧ ∀ key, fd ∉ s.pools key) := by
  have hcases {q : State} (hcalm : Calm q s₁) (hpools : ∀ key, fd ∈ s.pools key → fd ∈ q.pools key)
      (hother : q.view.Upstream fd → s.view.Upstream fd ∧ f.pc.upFd ≠ some fd) :
      (∃ key, fd ∈ s₁.pools key) ∨
        (s.view.Upstream fd ∧ f.pc.upFd ≠ some fd ∧ ∀ key, fd ∉ s.pools key) := by
    obtain ⟨c, hopen, hc⟩ := hfd
    have hopen : s₁.fds fd = some c := hopen
    have hc : (s₁.conns c).upstream = true := hc
    rw [hcalm.fds] at hopen
    rw [hcalm.upstream] at hc
    obtain ⟨hup, hne⟩ := hother ⟨c, hopen, hc⟩
    by_cases hpool : ∃ key, fd ∈ s.pools key
    · obtain ⟨key, hkey⟩ := hpool
      exact .inl ⟨key, hcalm.pools ▸ hpools key hkey⟩
    · exact .inr ⟨hup, hne, fun key hkey => hpool ⟨key, hkey⟩⟩
  cases h with
  | keep hcalm =>
    by_cases hup : f.pc.upFd = some fd
    · exact .inl hup
    · exact .inr (hcases hcalm (fun _ h => h) fun h => ⟨h, hup⟩)
  | @close g hup hcalm =>
    refine .inr (hcases hcalm (fun _ h => h) fun hopen => ?_)
    obtain ⟨c, hopen, hc⟩ := hopen
    by_cases hg : fd = g
    · simp [State.view, State.close, hg] at hopen
    · refine ⟨⟨c, by simpa [State.view, State.close, hg] using hopen, hc⟩, ?_⟩
      rw [hup]
      exact fun heq => hg (Option.some.inj heq).symm
  | @pool g x hup _ hcalm =>
    by_cases hg : fd = g
    · refine .inr (.inl ⟨x.route.key, ?_⟩)
      rw [hcalm.pools]
      simp [hg]
    · refine .inr (hcases hcalm (fun key hkey => ?_) fun hopen => ⟨hopen, ?_⟩)
      · by_cases hk : key = x.route.key
        · subst hk
          simp [hkey]
        · simpa [hk] using hkey
      · rw [hup]
        exact fun heq => hg (Option.some.inj heq).symm
  | @reuse g key rest hup hpool hcalm =>
    by_cases hg : fd = g
    · exact .inl (hg ▸ rfl)
    · refine .inr (hcases hcalm (fun l hl => ?_) fun hopen => ⟨hopen, by simp [hup]⟩)
      by_cases hk : l = key
      · subst hk
        rw [hpool] at hl
        simpa [hg] using hl
      · simpa [hk] using hl
  | @connect g hup _ _ hcalm =>
    by_cases hg : fd = g
    · exact .inl (hg ▸ rfl)
    · refine .inr (hcases hcalm (fun _ h => h) fun hopen => ⟨?_, by simp [hup]⟩)
      obtain ⟨c, hopen, hc⟩ := hopen
      have hold : s.fds fd = some c := by simpa [State.view, State.openConn, hg] using hopen
      have hne : c ≠ s.opened := Nat.ne_of_lt (hplaced.below fd c hold)
      exact ⟨c, hold, by simpa [State.view, State.openConn, hne] using hc⟩

theorem Hold.pooled (h : Hold cfg s f s₁ up) {key : Bytes} (hfd : fd ∈ s₁.pools key) :
    fd ∈ s.pools key ∨ ∃ x, f.pc.exchange = some x ∧ x.route.key = key := by
  cases h with
  | keep hcalm | close _ hcalm | connect _ _ _ hcalm =>
    rw [hcalm.pools] at hfd
    exact .inl hfd
  | @pool g x _ hx hcalm =>
    rw [hcalm.pools] at hfd
    by_cases hk : key = x.route.key
    · exact .inr ⟨x, hx, hk.symm⟩
    · exact .inl (by simpa [hk] using hfd)
  | @reuse g l rest _ hpool hcalm =>
    rw [hcalm.pools] at hfd
    by_cases hk : key = l
    · subst hk
      rw [hpool]
      exact .inl (List.mem_cons_of_mem g (by simpa using hfd))
    · exact .inl (by simpa [hk] using hfd)

theorem Kept.hold (h : Kept cfg s.view) (hplaced : Placed s.view) (hid : s.frames id = some f)
    {t' : Task} (hhold : Hold cfg s f s₁ t'.pc.upFd) (hroute : Routed cfg f t'.pc) :
    Kept cfg (s₁.view.set id t') := by
  have htasks (j : ConnId) (hj : j ≠ id) : (s₁.view.set id t').tasks j = s.view.tasks j := by
    simp [State.view, hj, hhold.same.1]
  exact {
    clients := fun fd c hfd hc => by
      obtain ⟨hfd, hc⟩ := hhold.client_conn hfd hc
      by_cases hci : c = id
      · simp [hci]
      · rw [htasks c hci]
        exact h.clients fd c hfd hc
    upstreams := fun fd hfd => by
      rw [View.held_set]
      rcases hhold.upstream_conn hplaced hfd with hup | hpool | ⟨hup, hne, hidle⟩
      · exact .inr ⟨id, by simpa using hup⟩
      · exact .inl hpool
      · obtain ⟨key, hkey⟩ | ⟨j, hj⟩ := h.upstreams fd hup
        · exact absurd hkey (hidle key)
        · have hji : j ≠ id := by
            rintro rfl
            rw [Placed.held_of_task (tasks_view hid)] at hj
            exact hne hj
          refine .inr ⟨j, ?_⟩
          rw [update_of_ne hji, ← hj]
          simp [View.held, State.view, hhold.same.1]
    routes := fun key fd hfd => by
      rcases hhold.pooled hfd with hfd | ⟨x, hx, hkey⟩
      · exact h.routes key fd hfd
      · exact ⟨x.route, h.exchanges id f.task x (tasks_view hid) hx, hkey⟩
    exchanges := fun j t x hj hx => by
      by_cases hji : j = id
      · subst hji
        obtain rfl : t' = t := by simpa using hj
        rcases hroute x hx with hx | hx
        · exact h.exchanges j f.task x (tasks_view hid) hx
        · exact hx
      · exact h.exchanges j t x (htasks j hji ▸ hj) hx }

/-! ## The condition -/

/-- A coroutine ends only in its first `resume` and without an upstream connection, and `stop`
returns only when no coroutine is left: then nobody forgets a descriptor. -/
def EndsAtOnce (s : State) : Act → Prop
  | .run io =>
      ∀ id ∈ s.active, ∀ f ∈ s.frames id, f.pc.mayEnd io = true →
        s.pc.newborn = some id ∧ f.pc.upFd = none
  | .finishStop => ∀ id < s.opened, s.frames id = none
  | _ => True

structure Accounted (cfg : Config) (s : State) : Prop where
  orderly : Orderly s
  kept : Kept cfg s.view
  unfinished : ∀ fd id f, s.liveTasks fd = some id → s.frames id = some f → f.pc ≠ .finished

theorem Accounted.init : Accounted cfg .init where
  orderly := .init
  kept := Kept.init
  unfinished _ _ _ h := by cases h

theorem Kept.leads (h : Kept cfg s.view) (hplaced : Placed s.view) {io : Io}
    (hid : s.frames id = some f) (hend : f.pc.mayEnd io = true → f.pc.upFd = none)
    (hleads : Leads cfg s id f io s') : Kept cfg s'.view := by
  cases hleads with
  | goto index hhold _ hroute =>
    rw [State.view_goto]
    exact h.hold hplaced hid hhold hroute
  | await mask hhold _ hroute =>
    rw [State.view_awaitIo]
    exact h.hold hplaced hid hhold hroute
  | finish hcalm hmay =>
    rw [State.view_finish]
    exact h.hold hplaced hid (.keep_of_eq hcalm (hend hmay)) nofun

theorem Kept.spawn {v : View} (h : Kept cfg v) {t : Task} (hx : t.pc.exchange = none)
    (hfree : v.tasks v.opened = none) : Kept cfg ((v.openConn fd false).set v.opened t) where
  clients g c hg hc := by
    by_cases hnew : c = v.opened
    · simp [hnew]
    · have hgf : g ≠ fd := by
        rintro rfl
        simp only [View.set_fds, View.openConn_fds, update_self, Option.some.injEq] at hg
        exact hnew hg.symm
      simp only [View.set_tasks, View.openConn_tasks, ne_eq, hnew, not_false_eq_true,
        update_of_ne]
      exact h.clients g c (by simpa [hgf] using hg) (by simpa [hnew] using hc)
  upstreams g hg := by
    obtain ⟨c, hg, hc⟩ := hg
    have hnew : c ≠ v.opened := by
      rintro rfl
      simp at hc
    have hgf : g ≠ fd := by
      rintro rfl
      simp only [View.set_fds, View.openConn_fds, update_self, Option.some.injEq] at hg
      exact hnew hg.symm
    have hold : v.Upstream g := ⟨c, by simpa [hgf] using hg, by simpa [hnew] using hc⟩
    obtain hpool | ⟨j, hj⟩ := h.upstreams g hold
    · exact .inl hpool
    · have hjn : j ≠ v.opened := by
        rintro rfl
        simp [View.held, hfree] at hj
      refine .inr ⟨j, ?_⟩
      rw [View.held_set, update_of_ne hjn]
      exact hj
  routes := h.routes
  exchanges j u x hj hu := by
    by_cases hnew : j = v.opened
    · subst hnew
      obtain rfl : t = u := by simpa using hj
      rw [hx] at hu
      cases hu
    · exact h.exchanges j u x (by simpa [hnew] using hj) hu

theorem Kept.discard {v : View} (h : Kept cfg v) (hplaced : Placed v) {t : Task}
    (hid : v.tasks id = some t) (hfin : t.pc = .finished) :
    Kept cfg ((v.close t.client).reap (· ≠ id)) where
  clients g c hg hc := by
    have hgf : g ≠ t.client := by
      rintro rfl
      simp at hg
    have hold : v.fds g = some c := by simpa [hgf] using hg
    have hci : c ≠ id := fun heq =>
      hgf (hplaced.inj g t.client c hold (heq ▸ (hplaced.client id t hid).1))
    simpa [hci] using h.clients g c hold hc
  upstreams g hg := by
    obtain ⟨c, hg, hc⟩ := hg
    have hgf : g ≠ t.client := by
      rintro rfl
      simp at hg
    obtain hpool | ⟨j, hj⟩ := h.upstreams g ⟨c, by simpa [hgf] using hg, hc⟩
    · exact .inl hpool
    · have hji : j ≠ id := by
        rintro rfl
        rw [Placed.held_of_task hid, hfin] at hj
        cases hj
      refine .inr ⟨j, ?_⟩
      rw [← hj]
      simp [View.held, hji]
  routes := h.routes
  exchanges j u x hj := by
    simp only [View.reap_tasks, View.close_tasks, ite_none_right_eq_some] at hj
    exact h.exchanges j u x hj.2

theorem Kept.finishStop (h : Kept cfg s.view) (hplaced : Placed s.view)
    (hnone : ∀ id < s.opened, s.frames id = none) (fd : Fd) : (s.finishStop cfg).fds fd = none := by
  have hfree (id : ConnId) : s.view.tasks id = none := by
    by_contra hne
    obtain ⟨f, hid, -⟩ := map_eq_some_iff.mp (ne_none_iff_exists'.mp hne).choose_spec
    rw [hnone id (hplaced.frame_lt hid)] at hid
    cases hid
  simp only [State.finishStop]
  split
  · rfl
  · next hpooled =>
    by_contra hne
    obtain ⟨c, hfd⟩ := ne_none_iff_exists'.mp hne
    cases hc : (s.conns c).upstream with
    | false =>
      have hsome := h.clients fd c hfd hc
      rw [hfree c] at hsome
      cases hsome
    | true =>
      obtain ⟨key, hkey⟩ | ⟨id, hheld⟩ := h.upstreams fd ⟨c, hfd, hc⟩
      · obtain ⟨r, hr, rfl⟩ := h.routes key fd hkey
        exact hpooled (List.any_eq_true.mpr ⟨r, hr, List.contains_iff_mem.mpr hkey⟩)
      · simp [View.held, hfree] at hheld

theorem Accounted.reap (h : Accounted cfg s) : s.reapFinishedTasks.frames = s.frames := by
  funext id
  show (s.frames id).filter _ = s.frames id
  cases hid : s.frames id with
  | none => rfl
  | some f =>
    rw [filter_eq_some_iff]
    refine ⟨rfl, ?_⟩
    by_cases hlive : s.liveTasks f.client = some id
    · have hdone : s.isDone id = false := by
        simpa [State.isDone, hid] using h.unfinished f.client id f hlive hid
      simp [hdone]
    · simp [hlive]

theorem Accounted.loop_kept (h : Accounted cfg s) (hC : EndsAtOnce s a)
    (hmove : LoopMove cfg s a s') : Kept cfg s'.view := by
  cases hmove with
  | poll | drop | stay =>
    rw [State.view_setLoop]
    exact h.kept
  | resume hpc hdata hid =>
    have hview := h.kept
    rw [show s.view = { s.view with tasks := s.view.tasks } from rfl, ← view_wake hid] at hview
    exact hview
  | spawn =>
    rw [view_spawn]
    refine h.kept.spawn rfl ?_
    by_contra hne
    obtain ⟨f, hid, -⟩ := map_eq_some_iff.mp (ne_none_iff_exists'.mp hne).choose_spec
    exact Nat.lt_irrefl _ (h.orderly.placed.frame_lt hid)
  | discard hpc hid hfin =>
    rw [State.view_setLoop, view_discard]
    exact h.kept.discard h.orderly.placed (tasks_view hid) hfin
  | adopt hpc hid =>
    rw [destroyTask_vacant (h.orderly.filed.vacant h.orderly.placed hid (by rw [hpc]; rfl))]
    exact h.kept
  | reap =>
    rw [State.view_setLoop]
    have hview : s.reapFinishedTasks.view = s.view := by
      rw [State.view, h.reap]
      rfl
    rw [hview]
    exact h.kept
  | finishStop =>
    have hclosed (fd : Fd) : (s.finishStop cfg).view.fds fd = none :=
      h.kept.finishStop h.orderly.placed hC fd
    have hgone (id : ConnId) (t : Task) : (s.finishStop cfg).view.tasks id ≠ some t := by
      intro hid
      obtain ⟨f, hid, -⟩ := map_eq_some_iff.mp hid
      obtain ⟨hid, -⟩ := filter_eq_some_iff.mp hid
      rw [hC id (h.orderly.placed.frame_lt hid)] at hid
      cases hid
    exact {
      clients := fun fd c hfd => by
        rw [hclosed] at hfd
        cases hfd
      upstreams := fun fd hfd => by
        obtain ⟨c, hfd, -⟩ := hfd
        rw [hclosed] at hfd
        cases hfd
      routes := fun _ _ hfd => by cases hfd
      exchanges := fun id t _ hid => absurd hid (hgone id t) }

theorem Accounted.loop_unfinished (h : Accounted cfg s) (hmove : LoopMove cfg s a s') {f' : Frame}
    (hlive : s'.liveTasks fd = some id) (hid : s'.frames id = some f') : f'.pc ≠ .finished := by
  have hsame (hlive : s.liveTasks fd = some id) : f'.pc ≠ .finished := by
    obtain ⟨g, hg, -⟩ := h.orderly.filed.live fd id hlive
    rcases hmove.frames hid with ⟨-, hpc⟩ | ⟨f, hf, hpc, -⟩
    · rw [hpc]
      nofun
    · rw [hpc]
      exact h.unfinished fd id f hlive hf
  cases hmove with
  | poll | drop | stay | resume | spawn | discard => exact hsame hlive
  | @adopt j f accepted evs hpc hj hfin =>
    have hvacant := h.orderly.filed.vacant h.orderly.placed hj (by rw [hpc]; rfl)
    rw [destroyTask_vacant hvacant] at hlive hid
    by_cases hfd : fd = f.client
    · subst hfd
      obtain rfl : j = id := by simpa using hlive
      obtain rfl : f = f' := Option.some.inj (hj.symm.trans hid)
      exact hfin
    · exact hsame (by simpa [hfd] using hlive)
  | reap => exact hsame (filter_eq_some_iff.mp hlive).1
  | finishStop => cases hlive

theorem Accounted.step (h : Accounted cfg s) (hC : EndsAtOnce s a)
    (hstep : step cfg s a = some s') : Accounted cfg s' := by
  have horderly := h.orderly.step hstep
  rcases step_cases hstep with ⟨-, hcalm⟩ | ⟨io, id, f, rfl, hactive, hid, hrun⟩ | ⟨-, hmove⟩
  · refine ⟨horderly, h.kept.calm hcalm, fun fd j f hlive hj => ?_⟩
    exact h.unfinished fd j f (hcalm.liveTasks ▸ hlive) (hcalm.frames ▸ hj)
  · have hleads := runFrame_leads (h.orderly.hungry id f hid) hrun
    have hend := hC id hactive f hid
    refine ⟨horderly, h.kept.leads h.orderly.placed hid (fun hmay => (hend hmay).2) hleads,
      fun fd j g hlive hj => ?_⟩
    rw [hleads.same.1] at hlive
    obtain ⟨hothers, f', hf', -, hpc⟩ := hleads.frames
    by_cases hji : j = id
    · subst hji
      obtain rfl : f' = g := Option.some.inj (hf'.symm.trans hj)
      rcases hpc with hnext | ⟨-, hmay⟩
      · exact hnext.ne_finished
      · exact absurd (hend hmay).1 (h.orderly.filed.fresh fd j hlive)
    · exact h.unfinished fd j g hlive (hothers j hji ▸ hj)
  · exact ⟨horderly, h.loop_kept hC hmove, fun fd id f' => h.loop_unfinished hmove⟩

theorem run_accounted (hmeets : Meets (Proxy.step cfg) EndsAtOnce .init acts)
    (hrun : exec (Proxy.step cfg) .init acts = some s) : Accounted cfg s :=
  exec_invariant_of_meets (fun _ _ _ h hC hstep => h.step hC hstep) Accounted.init hmeets hrun

/-! ## Whose descriptors are open -/

namespace State

def OpenClient (s : State) (fd : Fd) : Prop :=
  ∃ c, s.fds fd = some c ∧ (s.conns c).upstream = false

def OpenUpstream (s : State) (fd : Fd) : Prop :=
  ∃ c, s.fds fd = some c ∧ (s.conns c).upstream = true

/-- In one pool, and there once. -/
def InOnePool (s : State) (fd : Fd) : Prop :=
  ∃ key, (s.pools key).count fd = 1 ∧ ∀ l, l ≠ key → fd ∉ s.pools l

/-- One coroutine uses it. -/
def HeldByOne (s : State) (fd : Fd) : Prop :=
  ∃! id, ∃ f, s.frames id = some f ∧ f.pc ≠ .finished ∧ f.pc.upFd = some fd

end State

theorem Accounted.client_iff (h : Accounted cfg s) (hpc : s.pc.newborn = none) (fd : Fd) :
    s.OpenClient fd ↔ (s.liveTasks fd).isSome := by
  constructor
  · rintro ⟨c, hfd, hc⟩
    obtain ⟨t, ht⟩ := isSome_iff_exists.mp (h.kept.clients fd c hfd hc)
    obtain ⟨f, hf, -⟩ := map_eq_some_iff.mp ht
    have hclient := (h.orderly.placed.client c _ (tasks_view hf)).1
    obtain rfl : fd = f.client := h.orderly.placed.inj fd f.client c hfd hclient
    have hlive := (h.orderly.filed.filed c f hf).resolve_right (by rw [hpc]; nofun)
    rw [hlive]
    rfl
  · intro hsome
    obtain ⟨id, hlive⟩ := isSome_iff_exists.mp hsome
    obtain ⟨f, hf, rfl⟩ := h.orderly.filed.live fd id hlive
    exact ⟨id, h.orderly.placed.client id _ (tasks_view hf)⟩

theorem held_iff : s.view.held id = some fd ↔
    ∃ f, s.frames id = some f ∧ f.pc ≠ .finished ∧ f.pc.upFd = some fd := by
  constructor
  · intro hheld
    obtain ⟨t, ht, hup⟩ := bind_eq_some_iff.mp hheld
    obtain ⟨f, hf, rfl⟩ := map_eq_some_iff.mp ht
    refine ⟨f, hf, fun hfin => ?_, hup⟩
    have hup : f.pc.upFd = some fd := hup
    rw [hfin] at hup
    cases hup
  · rintro ⟨f, hf, -, hup⟩
    rw [Placed.held_of_task (tasks_view hf)]
    exact hup

theorem Accounted.upstream_xor (h : Accounted cfg s) (hfd : s.OpenUpstream fd) :
    Xor (s.InOnePool fd) (s.HeldByOne fd) := by
  have hlease := h.orderly.placed.lease
  rcases h.kept.upstreams fd hfd with ⟨key, hkey⟩ | ⟨id, hid⟩
  · refine .inl ⟨⟨key, ?_, fun l hl hmem => hl (hlease.idle_inj l key fd hmem hkey)⟩, ?_⟩
    · exact List.count_eq_one_of_mem (hlease.idle_nodup key) hkey
    · rintro ⟨id, hid, -⟩
      exact hlease.held_idle id key fd (held_iff.mpr hid) hkey
  · refine .inr ⟨⟨id, held_iff.mp hid, fun j hj => ?_⟩, ?_⟩
    · exact hlease.held_inj j id fd (held_iff.mpr hj) hid
    · rintro ⟨key, hcount, -⟩
      have hpos : 0 < (s.pools key).count fd := hcount ▸ Nat.one_pos
      exact hlease.held_idle id key fd hid (List.count_pos_iff.mp hpos)

/-- **Every open descriptor has an owner** after `reap_finished_tasks` and after `stop`, in a run
in which coroutines end only where their descriptors are closed. -/
theorem descriptors_owned (hmeets : Meets (Proxy.step cfg) EndsAtOnce .init acts)
    (hrun : exec (Proxy.step cfg) .init acts = some s) (hpc : s.pc = .wait ∨ s.pc = .stopped) :
    (∀ fd, s.OpenClient fd ↔ (s.liveTasks fd).isSome) ∧
      (s.pc = .stopped → ∀ fd, s.liveTasks fd = none) ∧
      ∀ fd, s.OpenUpstream fd → Xor (s.InOnePool fd) (s.HeldByOne fd) := by
  have h := run_accounted hmeets hrun
  have hnew : s.pc.newborn = none := by rcases hpc with hpc | hpc <;> rw [hpc] <;> rfl
  exact ⟨h.client_iff hnew, h.orderly.filed.stopped, fun fd hfd => h.upstream_xor hfd⟩

end

instance (s : State) (a : Act) : Decidable (EndsAtOnce s a) := by
  unfold EndsAtOnce
  induction a using Act.casesOn <;> infer_instance

def answeredAndWaiting : List Act :=
  answered ++
    [.writes okResponse.text.length, .run { call := .read .eagain }, .spawned, .accept .eagain,
      .reap]

theorem descriptors_owned_answered :
    ∃ s ∈ exec (step .sample) .init answeredAndWaiting,
      s.OpenClient 4 ∧ (s.liveTasks 4).isSome ∧ s.OpenUpstream 5 ∧
        Xor (s.InOnePool 5) (s.HeldByOne 5) := by
  obtain ⟨s, hrun, hpc, hlive, c, hfd, hc⟩ :
      ∃ s ∈ exec (step .sample) .init answeredAndWaiting, s.pc = .wait ∧ (s.liveTasks 4).isSome ∧
        ∃ c ∈ s.fds 5, (s.conns c).upstream = true := by decide +kernel
  have hmeets : Meets (step .sample) EndsAtOnce .init answeredAndWaiting := by decide +kernel
  obtain ⟨hclients, -, hupstreams⟩ := descriptors_owned hmeets hrun (.inl hpc)
  exact ⟨s, hrun, (hclients 4).mpr hlive, hlive, ⟨c, hfd, hc⟩, hupstreams 5 ⟨c, hfd, hc⟩⟩

def goesAway : List Act :=
  waitsForRequest ++
    [.hangup 4, .poll [(4, .Readable)], .resume, .run { call := .read .eof }, .reap]

/-- When the client goes away, its coroutine ends and is reaped, and its descriptor stays open; so
it does when the proxy is stopped while the coroutine waits. -/
theorem ended_client_stays_open :
    (∃ s ∈ exec (step .sample) .init goesAway,
      s.pc = .wait ∧ s.liveTasks 4 = none ∧ ∃ c ∈ s.fds 4, (s.conns c).upstream = false) ∧
    ∃ s ∈ exec (step .sample) .init (waitsForRequest ++ [.stop, .leave, .finishStop]),
      s.pc = .stopped ∧ s.liveTasks 4 = none ∧ ∃ c ∈ s.fds 4, (s.conns c).upstream = false := by
  decide +kernel

end Muses.Proxy
