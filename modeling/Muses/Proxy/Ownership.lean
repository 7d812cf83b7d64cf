import Muses.Core.Lease
import Muses.Proxy.Refinement

/-!
# Who holds which descriptor

Every client coroutine has its client's descriptor, an upstream descriptor is held by one coroutine
or lies in one pool, and neither kind is ever taken for the other. The exclusive part is an
instance of `Core.Exclusive`, with the coroutines as borrowers and the pools as shelves.
-/

namespace Muses.Proxy

open Muses.Core Function

@[simp] theorem View.held_set (v : View) (id : ConnId) (t : Task) :
    (v.set id t).held = update v.held id t.pc.upFd := by
  funext j
  by_cases hj : j = id <;> simp [View.held, hj]

def View.Upstream (v : View) (fd : Fd) : Prop :=
  ∃ c, v.fds fd = some c ∧ (v.conns c).upstream = true

/-- Every upstream connection is in one pool or with one coroutine. -/
structure Placed (v : View) : Prop where
  below : ∀ fd c, v.fds fd = some c → c < v.opened
  inj : ∀ fd fd' c, v.fds fd = some c → v.fds fd' = some c → fd = fd'
  client : ∀ id t, v.tasks id = some t → v.fds t.client = some id ∧ (v.conns id).upstream = false
  held : ∀ id fd, v.held id = some fd → v.Upstream fd
  pooled : ∀ key fd, fd ∈ v.pools key → v.Upstream fd
  lease : Exclusive v.held v.pools

namespace Placed

variable {v : View} {id : ConnId} {t t' : Task} {fd : Fd}

theorem init : Placed .init where
  below _ _ h := by cases h
  inj _ _ _ h := by cases h
  client _ _ h := by cases h
  held _ _ h := by cases h
  pooled _ _ h := by cases h
  lease :=
    { held_inj := fun _ _ _ h => by cases h
      held_idle := fun _ _ _ h => by cases h
      idle_nodup := fun _ => List.nodup_nil
      idle_inj := fun _ _ _ h => by cases h }

theorem ne_client (h : Placed v) (hid : v.tasks id = some t) (hup : v.Upstream fd) :
    fd ≠ t.client := by
  rintro rfl
  obtain ⟨c, hfd, hc⟩ := hup
  obtain ⟨hclient, hkind⟩ := h.client id t hid
  rw [hclient, Option.some.injEq] at hfd
  rw [hfd, hc] at hkind
  cases hkind

theorem held_of_task (hid : v.tasks id = some t) : v.held id = t.pc.upFd := by
  simp [View.held, hid]

theorem source_notMem (h : Placed v) (hid : v.tasks id = some t)
    (hsrc : t.pc.source t.client = some fd) (key : Bytes) : fd ∉ v.pools key := by
  intro hpool
  rcases Pc.source_cases hsrc with ⟨rfl, -⟩ | hup
  · exact h.ne_client hid (h.pooled key _ hpool) rfl
  · exact h.lease.held_idle id key fd (by rw [held_of_task hid, hup]) hpool

/-! ## Operations -/

theorem setForwards (h : Placed v) (gs : List Forward) : Placed (v.setForwards id gs) where
  below := h.below
  inj := h.inj
  client := h.client
  held := h.held
  pooled := h.pooled
  lease := h.lease

theorem setConns (h : Placed v) {conns : ConnId → Conn}
    (hkind : ∀ c, (conns c).upstream = (v.conns c).upstream) :
    Placed { v with conns := conns } := by
  have hup (fd : Fd) (hfd : v.Upstream fd) : View.Upstream { v with conns := conns } fd := by
    obtain ⟨c, hfd, hc⟩ := hfd
    exact ⟨c, hfd, (hkind c).trans hc⟩
  exact {
    below := h.below
    inj := h.inj
    client := fun id t hid => ⟨(h.client id t hid).1, (hkind id).trans (h.client id t hid).2⟩
    held := fun id fd hfd => hup fd (h.held id fd hfd)
    pooled := fun key fd hfd => hup fd (h.pooled key fd hfd)
    lease := h.lease }

theorem setConn (h : Placed v) {c : ConnId} {k : Conn} (hk : k.upstream = (v.conns c).upstream) :
    Placed (v.setConn c k) := by
  apply h.setConns
  intro d
  by_cases hd : d = c
  · subst hd
    simpa using hk
  · simp [hd]

theorem newRound (h : Placed v) (fd : Fd) : Placed (v.newRound fd) := by
  apply h.setConns
  intro c
  split <;> rfl

theorem set (h : Placed v) (hid : v.tasks id = some t) (hclient : t'.client = t.client)
    (hheld : ∀ fd, t'.pc.upFd = some fd → v.Upstream fd)
    (hlease : Exclusive (update v.held id t'.pc.upFd) v.pools) :
    Placed (v.set id t') where
  below := h.below
  inj := h.inj
  client j u hj := by
    by_cases hji : j = id
    · subst hji
      obtain rfl : t' = u := by simpa using hj
      rw [hclient]
      exact h.client j t hid
    · exact h.client j u (by simpa [hji] using hj)
  held j fd hj := by
    rw [View.held_set] at hj
    by_cases hji : j = id
    · rw [hji, update_self] at hj
      exact hheld fd hj
    · rw [update_of_ne hji] at hj
      exact h.held j fd hj
  pooled := h.pooled
  lease := by
    rw [View.held_set]
    exact hlease

theorem keep (h : Placed v) (hid : v.tasks id = some t) (hclient : t'.client = t.client)
    (hup : t'.pc.upFd = t.pc.upFd) : Placed (v.set id t') := by
  have hheld := held_of_task hid
  refine h.set hid hclient (fun fd hfd => h.held id fd (by rw [hheld, ← hup, hfd])) ?_
  rw [hup, ← hheld, update_eq_self]
  exact h.lease

theorem forget (h : Placed v) (hid : v.tasks id = some t) (hclient : t'.client = t.client)
    (hup : t'.pc.upFd = none) : Placed (v.set id t') := by
  refine h.set hid hclient (fun fd hfd => ?_) ?_
  · rw [hup] at hfd
    cases hfd
  · rw [hup]
    exact h.lease.forget id

theorem grab (h : Placed v) (hid : v.tasks id = some t) (hclient : t'.client = t.client)
    (hup : t'.pc.upFd = some fd) (hfd : v.Upstream fd) (hheld : ∀ j, v.held j ≠ some fd)
    (hidle : ∀ key, fd ∉ v.pools key) : Placed (v.set id t') := by
  refine h.set hid hclient (fun g hg => ?_) ?_
  · rw [hup, Option.some.injEq] at hg
    exact hg ▸ hfd
  · rw [hup]
    exact h.lease.fresh hheld hidle

theorem close (h : Placed v) (hup : v.Upstream fd) (hheld : ∀ j, v.held j ≠ some fd)
    (hidle : ∀ key, fd ∉ v.pools key) : Placed (v.close fd) := by
  have hopen {g : Fd} {c : ConnId} (hg : (v.close fd).fds g = some c) : v.fds g = some c := by
    by_cases hgf : g = fd
    · simp [hgf] at hg
    · simpa [hgf] using hg
  have hother {g : Fd} (hne : g ≠ fd) (hg : v.Upstream g) : (v.close fd).Upstream g := by
    obtain ⟨c, hg, hc⟩ := hg
    exact ⟨c, by simpa [hne] using hg, hc⟩
  exact {
    below := fun g c hg => h.below g c (hopen hg)
    inj := fun g g' c hg hg' => h.inj g g' c (hopen hg) (hopen hg')
    client := fun j u hj => by
      obtain ⟨hclient, hkind⟩ := h.client j u hj
      exact ⟨by simpa [(h.ne_client hj hup).symm] using hclient, hkind⟩
    held := fun j g hg => hother (fun hgf => hheld j (hgf ▸ hg)) (h.held j g hg)
    pooled := fun key g hg => hother (fun hgf => hidle key (hgf ▸ hg)) (h.pooled key g hg)
    lease := h.lease }

theorem openConn (h : Placed v) (upstream : Bool) (hfd : v.fds fd = none) :
    Placed (v.openConn fd upstream) := by
  have hne {g : Fd} {c : ConnId} (hg : v.fds g = some c) : g ≠ fd := by
    rintro rfl
    rw [hfd] at hg
    cases hg
  have hconn {g : Fd} {c : ConnId} (hg : v.fds g = some c) : c ≠ v.opened :=
    Nat.ne_of_lt (h.below g c hg)
  have hup (g : Fd) (hg : v.Upstream g) : (v.openConn fd upstream).Upstream g := by
    obtain ⟨c, hg, hc⟩ := hg
    exact ⟨c, by simpa [hne hg] using hg, by simpa [hconn hg] using hc⟩
  have hcases {g : Fd} {c : ConnId} (hg : (v.openConn fd upstream).fds g = some c) :
      g = fd ∧ c = v.opened ∨ v.fds g = some c := by
    by_cases hgf : g = fd
    · subst hgf
      left
      exact ⟨rfl, by simpa [eq_comm] using hg⟩
    · right
      simpa [hgf] using hg
  exact {
    below := fun g c hg => by
      rcases hcases hg with ⟨-, rfl⟩ | hg
      · exact Nat.lt_succ_self _
      · exact Nat.lt_succ_of_lt (h.below g c hg)
    inj := fun g g' c hg hg' => by
      rcases hcases hg with ⟨hgf, hc⟩ | hold <;> rcases hcases hg' with ⟨hgf', hc'⟩ | hold'
      · rw [hgf, hgf']
      · exact absurd hc (hconn hold')
      · exact absurd hc' (hconn hold)
      · exact h.inj g g' c hold hold'
    client := fun j u hj => by
      obtain ⟨hclient, hkind⟩ := h.client j u hj
      exact ⟨by simpa [hne hclient] using hclient, by simpa [hconn hclient] using hkind⟩
    held := fun j g hg => hup g (h.held j g hg)
    pooled := fun key g hg => hup g (h.pooled key g hg)
    lease := h.lease }

theorem reap (h : Placed v) (keep : ConnId → Bool) : Placed (v.reap keep) := by
  have hsub {j : ConnId} {u : Task} (hj : (v.reap keep).tasks j = some u) : v.tasks j = some u := by
    simp only [View.reap_tasks, Option.ite_none_right_eq_some] at hj
    exact hj.2
  have hheld (j : ConnId) (g : Fd) (hg : (v.reap keep).held j = some g) : v.held j = some g := by
    obtain ⟨u, hj, hup⟩ := Option.bind_eq_some_iff.mp hg
    exact Option.bind_eq_some_iff.mpr ⟨u, hsub hj, hup⟩
  exact {
    below := h.below
    inj := h.inj
    client := fun j u hj => h.client j u (hsub hj)
    held := fun j g hg => h.held j g (hheld j g hg)
    pooled := h.pooled
    lease := h.lease.forgetAll hheld }

theorem nowhere (h : Placed v) (hfd : v.fds fd = none) :
    (∀ j, v.held j ≠ some fd) ∧ ∀ key, fd ∉ v.pools key := by
  have hclosed : ¬ v.Upstream fd := by
    rintro ⟨c, hc, -⟩
    rw [hfd] at hc
    cases hc
  exact ⟨fun j hj => hclosed (h.held j fd hj), fun key hkey => hclosed (h.pooled key fd hkey)⟩

theorem nowhere_of_forget (h : Placed v) (hid : v.tasks id = some t)
    (hup : t.pc.upFd = some fd) (hup' : t'.pc.upFd = none) :
    (∀ j, (v.set id t').held j ≠ some fd) ∧ ∀ key, fd ∉ v.pools key := by
  have hheld : v.held id = some fd := by rw [held_of_task hid, hup]
  refine ⟨fun j hj => ?_, fun key => h.lease.held_idle id key fd hheld⟩
  rw [View.held_set, hup'] at hj
  by_cases hji : j = id
  · simp [hji] at hj
  · rw [update_of_ne hji] at hj
    exact hji (h.lease.held_inj j id fd hj hheld)

theorem closeHeld (h : Placed v) (hid : v.tasks id = some t) (hclient : t'.client = t.client)
    (hup : t.pc.upFd = some fd) (hup' : t'.pc.upFd = none) :
    Placed ((v.close fd).set id t') := by
  obtain ⟨hheld, hidle⟩ := h.nowhere_of_forget hid hup hup'
  exact (h.forget hid hclient hup').close (h.held id fd (by rw [held_of_task hid, hup])) hheld hidle

theorem release (h : Placed v) (key : Bytes) (hid : v.tasks id = some t)
    (hclient : t'.client = t.client) (hup : t.pc.upFd = some fd) (hup' : t'.pc.upFd = none) :
    Placed ((v.setPool key (v.pools key ++ [fd])).set id t') := by
  have hheld : v.held id = some fd := by rw [held_of_task hid, hup]
  have hforget := h.forget hid hclient hup'
  exact {
    below := hforget.below
    inj := hforget.inj
    client := hforget.client
    held := hforget.held
    pooled := fun l g hg => by
      by_cases hl : l = key
      · subst hl
        have hg : g ∈ v.pools l ∨ g = fd := by simpa using hg
        rcases hg with hg | rfl
        · exact h.pooled l g hg
        · exact h.held id g hheld
      · exact h.pooled l g (by simpa [hl] using hg)
    lease := by
      rw [View.held_set, hup']
      exact h.lease.release hheld }

theorem reuse (h : Placed v) {key : Bytes} {rest : List Fd} (hid : v.tasks id = some t)
    (hclient : t'.client = t.client) (hpool : v.pools key = fd :: rest)
    (hup' : t'.pc.upFd = some fd) : Placed (((v.setPool key rest).newRound fd).set id t') := by
  obtain ⟨hrest, hheld, hidle⟩ := h.lease.unshelve hpool
  have hup := h.pooled key fd (hpool ▸ List.mem_cons_self)
  have htaken : Placed (v.setPool key rest) := {
    below := h.below
    inj := h.inj
    client := h.client
    held := h.held
    pooled := fun l g hg => by
      by_cases hl : l = key
      · subst hl
        refine h.pooled l g ?_
        rw [hpool]
        exact List.mem_cons_of_mem fd (by simpa using hg)
      · exact h.pooled l g (by simpa [hl] using hg)
    lease := hrest }
  refine (htaken.newRound fd).grab hid hclient hup' ?_ hheld hidle
  obtain ⟨c, hfd, hc⟩ := hup
  exact ⟨c, hfd, by simpa [hfd] using hc⟩

theorem stop (h : Placed v) {pooled : Fd → Bool}
    (hpooled : ∀ fd, pooled fd = true → ∃ key, fd ∈ v.pools key) : Placed (v.stop pooled) := by
  have hopen {g : Fd} {c : ConnId} (hg : (v.stop pooled).fds g = some c) : v.fds g = some c := by
    simp only [View.stop_fds, Option.ite_none_left_eq_some] at hg
    exact hg.2
  have hkept {g : Fd} {c : ConnId} (hg : v.fds g = some c) (hnot : ∀ key, g ∉ v.pools key) :
      (v.stop pooled).fds g = some c := by
    have hfalse : ¬ pooled g = true := fun hp => by
      obtain ⟨key, hkey⟩ := hpooled g hp
      exact hnot key hkey
    simpa [hfalse] using hg
  exact {
    below := fun g c hg => h.below g c (hopen hg)
    inj := fun g g' c hg hg' => h.inj g g' c (hopen hg) (hopen hg')
    client := fun j u hj => by
      obtain ⟨hclient, hkind⟩ := h.client j u hj
      refine ⟨hkept hclient fun key hkey => ?_, hkind⟩
      exact h.ne_client hj (h.pooled key _ hkey) rfl
    held := fun j g hg => by
      obtain ⟨c, hfd, hc⟩ := h.held j g hg
      exact ⟨c, hkept hfd fun key => h.lease.held_idle j key g hg, hc⟩
    pooled := fun _ _ hg => by cases hg
    lease :=
      { held_inj := h.lease.held_inj
        held_idle := fun _ _ _ _ hg => by cases hg
        idle_nodup := fun _ => List.nodup_nil
        idle_inj := fun _ _ _ hg => by cases hg } }

theorem discard (h : Placed v) (hid : v.tasks id = some t) :
    Placed ((v.close t.client).reap (· ≠ id)) := by
  have hreap := h.reap (· ≠ id)
  have hne {g : Fd} (hg : v.Upstream g) : g ≠ t.client := h.ne_client hid hg
  have hopen {g : Fd} {c : ConnId} (hg : (v.close t.client).fds g = some c) : v.fds g = some c := by
    by_cases hgf : g = t.client
    · simp [hgf] at hg
    · simpa [hgf] using hg
  have hup {g : Fd} (hg : v.Upstream g) : ((v.close t.client).reap (· ≠ id)).Upstream g := by
    have hgne := hne hg
    obtain ⟨c, hg, hc⟩ := hg
    exact ⟨c, by simpa [hgne] using hg, hc⟩
  exact {
    below := fun g c hg => h.below g c (hopen hg)
    inj := fun g g' c hg hg' => h.inj g g' c (hopen hg) (hopen hg')
    client := fun j u hj => by
      have hj' := hreap.client j u hj
      refine ⟨?_, hj'.2⟩
      have hjid : j ≠ id := by
        rintro rfl
        simp at hj
      have hother : u.client ≠ t.client := by
        intro heq
        have hclient := (h.client id t hid).1
        have hj'1 : v.fds u.client = some j := hj'.1
        rw [heq, hclient, Option.some.injEq] at hj'1
        exact hjid hj'1.symm
      simpa [hother] using hj'.1
    held := fun j g hg => hup (hreap.held j g hg)
    pooled := fun key g hg => hup (h.pooled key g hg)
    lease := hreap.lease }

end Placed

theorem Turn.upFd {A : Assume} {v : View} {id : ConnId} {t : Task} {pc : Pc}
    (h : Turn A v id t pc) : pc.upFd = t.pc.upFd ∨ pc.upFd = none := by
  cases h with
  | finish | refuse | wantBody | routeHead | routeBody | retry | answer => exact .inr rfl
  | written hpc | plan hpc | nextPart hpc =>
    left
    rw [hpc]
    rfl

theorem Placed.move {cfg : Config} {A : Assume} {v v' : View} (h : Placed v)
    (hmove : Move cfg A v v') : Placed v' := by
  cases hmove with
  | arrive => exact h.setConn rfl
  | hangup => exact h.setConn rfl
  | spawn fd hfd =>
    have hopen := h.openConn false hfd
    have hnew : v.tasks v.opened = none := by
      by_contra hne
      obtain ⟨t, ht⟩ := Option.ne_none_iff_exists'.mp hne
      exact absurd (h.below _ _ (h.client _ t ht).1) (Nat.lt_irrefl _)
    exact {
      below := hopen.below
      inj := hopen.inj
      client := fun j u hj => by
        by_cases hji : j = v.opened
        · subst hji
          obtain rfl : (⟨fd, .readHead [], 0⟩ : Task) = u := by simpa using hj
          simp
        · exact hopen.client j u (by simpa [hji] using hj)
      held := fun j g hg => by
        rw [View.held_set] at hg
        by_cases hji : j = v.opened
        · simp [hji, Pc.upFd] at hg
        · exact hopen.held j g (by simpa [hji] using hg)
      pooled := hopen.pooled
      lease := by
        rw [View.held_set]
        exact hopen.lease.forget _ }
  | discard hid => exact h.discard hid
  | reap keep => exact h.reap keep
  | stop =>
    refine h.stop fun fd hfd => ?_
    simp only [List.any_eq_true, List.contains_iff_mem] at hfd
    obtain ⟨r, -, hr⟩ := hfd
    exact ⟨r.key, hr⟩
  | turn hid hturn =>
    rcases hturn.upFd with hup | hup
    · exact h.keep hid rfl hup
    · exact h.forget hid rfl hup
  | read hid => exact Placed.keep (h.setConn rfl) hid rfl (Pc.upFd_push _ _)
  | write hid hpc => exact (h.setForwards _).keep hid rfl (by simp [hpc, Pc.upFd])
  | next hid hpc => exact h.keep hid rfl (by simp [hpc, Pc.upFd])
  | reuse hid hpc hpool => exact h.reuse hid rfl hpool rfl
  | connect hid hpc hfd =>
    obtain ⟨hheld, hidle⟩ := h.nowhere hfd
    exact (h.openConn true hfd).grab hid rfl rfl ⟨v.opened, by simp, by simp⟩ hheld hidle
  | start hid hpc => exact (h.setForwards _).keep hid rfl (by simp [hpc, Pc.upFd])
  | fail a hid hx hup => exact h.closeHeld hid rfl hup rfl
  | release hid hx hup => exact h.release _ hid rfl hup rfl
  | overflow hid hx hup => exact h.closeHeld hid rfl hup rfl

end Muses.Proxy
