import Muses.Net.Reactor

/-!
# The gate for connection floods

`accept_all` counts the connections of each address in a window of one second and bans an address
that exceeds the rate; `sweep_ip_rate` ages the bans and prunes old windows. Here the gate stands
alone: a run is a sequence of visits, connections and sweeps, at times that never decrease.
-/

namespace Muses.Reactor

open Function

inductive Visit where
  | accept (ip : UInt32) (now : Nat)
  | sweep (now : Nat)
  deriving DecidableEq, Repr

def Visit.time : Visit → Nat
  | .accept _ now => now
  | .sweep now => now

abbrev Rising (vs : List Visit) : Prop := vs.Pairwise fun v v' => v.time ≤ v'.time

namespace State

/-- One visit, with the given housekeeping: the gate of `accept_all` says whether the connection is
turned away. -/
def visit (cfg : Config) (sweep : Config → State → State) (s : State) : Visit → State × Bool
  | .accept ip now => s.ipGate cfg ip now
  | .sweep now => (sweep cfg { s with world := { s.world with clock := now } }, false)

def visits (cfg : Config) (sweep : Config → State → State) (s : State) :
    List Visit → State × List (Visit × Bool)
  | [] => (s, [])
  | v :: vs =>
      let (s', refused) := s.visit cfg sweep v
      let (s'', rest) := s'.visits cfg sweep vs
      (s'', (v, refused) :: rest)

def nextWindow (s : State) (ip : UInt32) (now : Nat) : RateWindow :=
  let win := (s.ipConnectWindows ip).getD ⟨0, 0⟩
  let win := if now - win.windowStart ≥ second then ⟨now, 0⟩ else win
  { win with count := win.count + 1 }

end State

variable {cfg : Config} {s s' : State} {ip : UInt32} {now : Nat} {v : Visit} {refused : Bool}

theorem nextWindow_of_stale {win : RateWindow} (h : s.ipConnectWindows ip = some win)
    (hstale : win.windowStart + second ≤ now) : s.nextWindow ip now = ⟨now, 1⟩ := by
  have hold : second ≤ now - win.windowStart := by omega
  simp [State.nextWindow, h, hold]

theorem nextWindow_of_none (h : s.ipConnectWindows ip = none) (hlate : second ≤ now) :
    s.nextWindow ip now = ⟨now, 1⟩ := by
  simp [State.nextWindow, h, hlate]

theorem nextWindow_of_current {win : RateWindow} (h : s.ipConnectWindows ip = some win)
    (hcurrent : now < win.windowStart + second) :
    s.nextWindow ip now = ⟨win.windowStart, win.count + 1⟩ := by
  have hyoung : ¬ second ≤ now - win.windowStart := by
    simp only [second] at hcurrent ⊢
    omega
  simp [State.nextWindow, h, hyoung]

/-! ## The gate and one address -/

/-- What a visit does to the window of an address. -/
inductive Visited (cfg : Config) (ip : UInt32) (s : State) (v : Visit) (s' : State)
    (refused : Bool) : Prop where
  | same (hwin : s'.ipConnectWindows ip = s.ipConnectWindows ip)
      (hrefused : ∀ t, v = .accept ip t → refused = true)
  | counted (t : Nat) (hv : v = .accept ip t)
      (hwin : s'.ipConnectWindows ip = some (s.nextWindow ip t))
      (hpass : refused = false → (s.nextWindow ip t).count ≤ cfg.ipRatePerSec)
  | pruned (t : Nat) (hv : v = .sweep t) (hwin : s'.ipConnectWindows ip = none)
      (hold : ∀ win, s.ipConnectWindows ip = some win → win.windowStart + 2 * second < t)

theorem ipGate_visited (hrate : 0 < cfg.ipRatePerSec) (hip : ip ≠ 0) (jp : UInt32)
    (h : s.ipGate cfg jp now = (s', refused)) : Visited cfg ip s (.accept jp now) s' refused := by
  by_cases hjp : jp = ip
  · subst hjp
    simp only [State.ipGate, hip, ne_eq, not_false_eq_true, and_true, Nat.ne_of_gt hrate,
      if_true] at h
    split at h
    · cases h
      exact .same rfl fun _ _ => rfl
    · have hexceeded : (s.ipRateExceeded cfg jp now).2 =
          decide ((s.nextWindow jp now).count > cfg.ipRatePerSec) := rfl
      split at h <;> cases h
      · exact .counted now rfl (update_self ..) (by simp)
      · rename_i hpass
        refine .counted now rfl (update_self ..) fun _ => ?_
        simpa [hexceeded] using hpass
  · -- another address: its window is the only one that changes
    refine .same ?_ fun t ht => absurd (Visit.accept.inj ht).1 hjp
    have hne : ip ≠ jp := Ne.symm hjp
    unfold State.ipGate at h
    split at h
    · split at h
      · cases h
        rfl
      · simp only at h
        split at h <;> cases h <;> exact update_of_ne hne _ _
    · cases h
      rfl

theorem sweepIpRate_visited (ip : UInt32) (t : Nat) :
    Visited cfg ip s (.sweep t)
      ({ s with world := { s.world with clock := t } }.sweepIpRate cfg) false := by
  unfold State.sweepIpRate
  split
  · exact .same rfl (by simp)
  · split
    · exact .same rfl (by simp)
    · cases hwin : s.ipConnectWindows ip with
      | none => exact .same (by simp [hwin]) (by simp)
      | some win =>
        rcases Nat.lt_or_ge (2 * second + win.windowStart) t with hold | hold
        · refine .pruned t rfl (by simp [hwin, hold]) fun win' hwin' => ?_
          cases hwin.symm.trans hwin'
          omega
        · exact .same (by simp [hwin, hold]) (by simp)

theorem visit_visited (hrate : 0 < cfg.ipRatePerSec) (hip : ip ≠ 0) (s : State) (v : Visit) :
    Visited cfg ip s v (s.visit cfg .sweepIpRate v).1 (s.visit cfg .sweepIpRate v).2 := by
  cases v with
  | accept jp now => exact ipGate_visited hrate hip jp rfl
  | sweep t => exact sweepIpRate_visited ip t

/-! ## The rate in one second -/

def passed (ip : UInt32) (a : Nat) : Visit × Bool → Bool
  | (.accept jp t, refused) => decide (jp = ip ∧ a ≤ t ∧ t < a + second) && !refused
  | (.sweep _, _) => false

def passes (ip : UInt32) (a : Nat) (decisions : List (Visit × Bool)) : Nat :=
  decisions.countP (passed ip a)

/-- While the second from `a` on lasts, the window of `ip` is an old one and nobody has passed, or
it began in this second and has counted all who passed. -/
structure Metered (cfg : Config) (ip : UInt32) (a : Nat) (s : State) (clock count : Nat) :
    Prop where
  bound : count ≤ cfg.ipRatePerSec
  fresh : clock < a + second → s.ipConnectWindows ip = none → count = 0
  window : clock < a + second → ∀ win, s.ipConnectWindows ip = some win →
    (count = 0 ∧ win.windowStart + second ≤ a) ∨
      (a ≤ clock ∧ a ≤ win.windowStart ∧ count ≤ win.count)

/-- **One visit.** In the second before `a` the address is quiet. -/
theorem Metered.visit {a clock count : Nat} (hrate : 0 < cfg.ipRatePerSec) (ha : second ≤ a)
    (h : Metered cfg ip a s clock count) (hclock : clock ≤ v.time)
    (hquiet : ∀ t, v = .accept ip t → t < a → t + second ≤ a)
    (hvisit : Visited cfg ip s v s' refused) :
    Metered cfg ip a s' v.time (count + if passed ip a (v, refused) then 1 else 0) := by
  cases hvisit with
  | same hwin hrefused =>
    have hnot : passed ip a (v, refused) = false := by
      cases v with
      | sweep t => rfl
      | accept jp t =>
        simp only [passed, Bool.and_eq_false_iff, decide_eq_false_iff_not, Bool.not_eq_false']
        by_cases hjp : jp = ip
        · exact .inr (hrefused t (by rw [hjp]))
        · exact .inl fun hin => hjp hin.1
    simp only [hnot, Bool.false_eq_true, if_false, Nat.add_zero]
    refine ⟨h.bound, fun hlt hnone => h.fresh (by omega) (hwin ▸ hnone), fun hlt win hsome => ?_⟩
    rcases h.window (by omega) win (hwin ▸ hsome) with hold | ⟨hin, hstart, hcount⟩
    · exact .inl hold
    · exact .inr ⟨by omega, hstart, hcount⟩
  | pruned t hv hwin hold =>
    subst hv
    simp only [passed, Bool.false_eq_true, if_false, Nat.add_zero]
    refine ⟨h.bound, fun hlt _ => ?_, fun _ win hsome => by simp [hwin] at hsome⟩
    simp only [Visit.time] at hlt hclock
    cases hsome : s.ipConnectWindows ip with
    | none => exact h.fresh (by omega) hsome
    | some win =>
      have hgone := hold win hsome
      rcases h.window (by omega) win hsome with hzero | ⟨-, hstart, -⟩
      · exact hzero.1
      · -- a window of this second is not pruned before the second is over
        omega
  | counted t hv hwin hpass =>
    subst hv
    have hnone : ∀ {P : Prop}, s'.ipConnectWindows ip = none → P := fun hnone => by
      simp [hwin] at hnone
    simp only [Visit.time] at hclock ⊢
    have hq := hquiet t rfl
    by_cases hover : a + second ≤ t
    · have hnot : passed ip a (.accept ip t, refused) = false := by
        simp only [passed, Bool.and_eq_false_iff, decide_eq_false_iff_not]
        exact .inl fun hin => by omega
      rw [hnot]
      exact ⟨h.bound, fun hlt => by omega, fun hlt => by omega⟩
    -- the three windows that the connection may find
    have hnext : (count = 0 ∧ (t < a → (s.nextWindow ip t).windowStart + second ≤ a) ∧
          (a ≤ t → s.nextWindow ip t = ⟨t, 1⟩)) ∨
        (a ≤ t ∧ a ≤ (s.nextWindow ip t).windowStart ∧ count + 1 ≤ (s.nextWindow ip t).count) := by
      cases hsome : s.ipConnectWindows ip with
      | none =>
        refine .inl ⟨h.fresh (by omega) hsome, fun hlt => ?_,
          fun hge => nextWindow_of_none hsome (by omega)⟩
        have := hq hlt
        simp only [State.nextWindow, hsome, Option.getD_none]
        split
        · exact this
        · simpa using ha
      | some win =>
        rcases h.window (by omega) win hsome with ⟨hzero, hstart⟩ | ⟨hin, hstart, hcount⟩
        · refine .inl ⟨hzero, fun hlt => ?_, fun hge => nextWindow_of_stale hsome (by omega)⟩
          have := hq hlt
          simp only [State.nextWindow, hsome, Option.getD_some]
          split
          · exact this
          · exact hstart
        · rw [nextWindow_of_current hsome (by omega)]
          exact .inr ⟨by omega, hstart, by simp only; omega⟩
    have hcase : (if passed ip a (.accept ip t, refused) then 1 else 0) =
        if a ≤ t ∧ refused = false then 1 else 0 := by
      have hin : t < a + second := by omega
      cases refused <;> simp [passed, hin]
    rw [hcase]
    rcases hnext with ⟨rfl, hbefore, hfrom⟩ | ⟨hin, hstart, hcount⟩
    · by_cases hin : a ≤ t
      · have hwindow := hfrom hin
        refine ⟨?_, fun _ => hnone, fun _ win hsome => .inr ?_⟩
        · split <;> omega
        · cases hwin.symm.trans hsome
          rw [hwindow]
          refine ⟨hin, hin, ?_⟩
          split <;> simp
      · refine ⟨?_, fun _ => hnone, fun _ win hsome => .inl ?_⟩
        · simp [hin]
        · cases hwin.symm.trans hsome
          exact ⟨by simp [hin], hbefore (by omega)⟩
    · refine ⟨?_, fun _ => hnone, fun _ win hsome => .inr ?_⟩
      · split
        · rename_i hcond
          have := hpass hcond.2
          omega
        · exact h.bound
      · cases hwin.symm.trans hsome
        refine ⟨hin, hstart, ?_⟩
        split <;> omega

theorem Metered.visits {a clock count : Nat} (hrate : 0 < cfg.ipRatePerSec) (hip : ip ≠ 0)
    (ha : second ≤ a) (h : Metered cfg ip a s clock count) {vs : List Visit}
    (hclock : ∀ v ∈ vs, clock ≤ v.time) (horder : Rising vs)
    (hquiet : ∀ t, .accept ip t ∈ vs → t < a → t + second ≤ a) :
    count + passes ip a (s.visits cfg .sweepIpRate vs).2 ≤ cfg.ipRatePerSec := by
  induction vs generalizing s clock count with
  | nil => exact h.bound
  | cons v vs ih =>
    obtain ⟨hle, hrest⟩ := List.pairwise_cons.mp horder
    have hnext := h.visit hrate ha (hclock v List.mem_cons_self)
      (fun t ht => hquiet t (ht ▸ List.mem_cons_self)) (visit_visited hrate hip s v)
    have := ih hnext hle hrest fun t ht => hquiet t (List.mem_cons_of_mem v ht)
    simp only [State.visits, passes, List.countP_cons] at this ⊢
    omega

/-- **The rate holds in every second before which the address was quiet.** From a new reactor, with
any other addresses and sweeps in between: in the second from `a` on, at most `ip_rate_per_sec_`
connections of `ip` pass the gate, if it made none in the second before, and the clock had run for a
second. -/
theorem rate_limit_in_second (cfg : Config) (hrate : 0 < cfg.ipRatePerSec) {ip : UInt32}
    (hip : ip ≠ 0) {vs : List Visit} (horder : Rising vs) {a : Nat} (ha : second ≤ a)
    (hquiet : ∀ t, .accept ip t ∈ vs → t < a → t + second ≤ a) :
    passes ip a ((State.init cfg).visits cfg .sweepIpRate vs).2 ≤ cfg.ipRatePerSec := by
  have hinit : Metered cfg ip a (State.init cfg) 0 0 :=
    ⟨Nat.zero_le _, fun _ _ => rfl, fun _ win hsome => by cases hsome⟩
  have := hinit.visits hrate hip ha (fun _ _ => Nat.zero_le _) horder hquiet
  omega

def Config.twoPerSecond : Config := { Config.sample with ipRatePerSec := 2, blacklistSlots := 64 }

/-- Three connections, after a quiet second; another address comes in between. -/
theorem rate_limit_in_second_burst :
    passes 1 (12 * second) ((State.init .twoPerSecond).visits .twoPerSecond .sweepIpRate
      [.accept 1 (10 * second), .sweep (11 * second), .accept 1 (12 * second),
        .accept 2 (12 * second), .accept 1 (12 * second), .accept 1 (12 * second)]).2 ≤ 2 := by
  refine rate_limit_in_second .twoPerSecond (by decide) (by decide) (by decide) (by decide) ?_
  intro t ht hlt
  simp only [List.mem_cons, Visit.accept.injEq, reduceCtorEq, List.not_mem_nil, false_or,
    or_false] at ht
  simp only [second] at ht hlt ⊢
  omega

/-- **Windows do not slide.** With a rate of two, three connections pass within 200 ms: one at the
end of a window and two at the start of the next. -/
theorem burst_across_windows :
    passes 1 (10900000000) ((State.init .twoPerSecond).visits .twoPerSecond .sweepIpRate
      [.accept 1 10000000000, .accept 1 10900000000, .accept 1 11000000000,
        .accept 1 11100000000]).2 = 3 := by
  decide +kernel

/-! ## Pruning -/

def State.decayOnly (cfg : Config) (s : State) : State :=
  if cfg.ipRatePerSec = 0 then s
  else if s.world.clock - s.lastIpDecay < 10 * second then s
  else { s with lastIpDecay := s.world.clock, ipBlacklist := s.ipBlacklist.decay 1 }

/-- The pruned gate and the one that keeps every window: a window that only the second one has is so
old that the next connection restarts it. -/
structure Alike (clock : Nat) (s s' : State) : Prop where
  blacklist : s.ipBlacklist = s'.ipBlacklist
  decay : s.lastIpDecay = s'.lastIpDecay
  windows : ∀ ip, s.ipConnectWindows ip = s'.ipConnectWindows ip ∨
    (s.ipConnectWindows ip = none ∧ second ≤ clock ∧
      ∃ win, s'.ipConnectWindows ip = some win ∧ win.windowStart + second ≤ clock)

theorem Alike.nextWindow {clock : Nat} (h : Alike clock s s') (ip : UInt32)
    (hclock : clock ≤ now) : s.nextWindow ip now = s'.nextWindow ip now := by
  rcases h.windows ip with hsame | ⟨hnone, hlate, win, hsome, hold⟩
  · simp only [State.nextWindow, hsame]
  · rw [nextWindow_of_none hnone (by omega), nextWindow_of_stale hsome (by omega)]

theorem Alike.mono {clock : Nat} (h : Alike clock s s') (hclock : clock ≤ now) :
    Alike now s s' := by
  refine ⟨h.blacklist, h.decay, fun ip => ?_⟩
  rcases h.windows ip with hsame | ⟨hnone, hlate, win, hsome, hold⟩
  · exact .inl hsame
  · exact .inr ⟨hnone, by omega, win, hsome, by omega⟩

theorem Alike.ipRateExceeded {clock : Nat} (h : Alike clock s s') (cfg : Config) (ip : UInt32)
    (hclock : clock ≤ now) :
    Alike now (s.ipRateExceeded cfg ip now).1 (s'.ipRateExceeded cfg ip now).1 ∧
      (s.ipRateExceeded cfg ip now).2 = (s'.ipRateExceeded cfg ip now).2 := by
  have hnext := h.nextWindow ip hclock
  refine ⟨⟨h.blacklist, h.decay, fun jp => ?_⟩, ?_⟩
  · show update s.ipConnectWindows ip (some (s.nextWindow ip now)) jp =
        update s'.ipConnectWindows ip (some (s'.nextWindow ip now)) jp ∨
      (update s.ipConnectWindows ip (some (s.nextWindow ip now)) jp = none ∧ _ ∧
        ∃ win, update s'.ipConnectWindows ip (some (s'.nextWindow ip now)) jp =
          some win ∧ _)
    by_cases hjp : jp = ip
    · subst hjp
      rw [update_self, update_self, hnext]
      exact .inl rfl
    · rw [update_of_ne hjp, update_of_ne hjp]
      exact (h.mono hclock).windows jp
  · show decide ((s.nextWindow ip now).count > _) = decide ((s'.nextWindow ip now).count > _)
    rw [hnext]

theorem Alike.ipGate {clock : Nat} (h : Alike clock s s') (ip : UInt32) (hclock : clock ≤ now) :
    Alike now (s.ipGate cfg ip now).1 (s'.ipGate cfg ip now).1 ∧
      (s.ipGate cfg ip now).2 = (s'.ipGate cfg ip now).2 := by
  obtain ⟨hnext, hexceeded⟩ := h.ipRateExceeded cfg ip hclock
  simp only [State.ipGate, h.blacklist, ← hexceeded]
  split
  · split
    · exact ⟨h.mono hclock, rfl⟩
    · split
      · exact ⟨⟨by simp only [hnext.blacklist], hnext.decay, hnext.windows⟩, rfl⟩
      · exact ⟨hnext, rfl⟩
  · exact ⟨h.mono hclock, rfl⟩

theorem Alike.sweep {clock : Nat} (h : Alike clock s s') (hclock : clock ≤ now) :
    Alike now ({ s with world := { s.world with clock := now } }.sweepIpRate cfg)
      ({ s' with world := { s'.world with clock := now } }.decayOnly cfg) := by
  simp only [State.sweepIpRate, State.decayOnly, ← h.decay]
  split
  · exact ⟨h.blacklist, rfl, (h.mono hclock).windows⟩
  · split
    · exact ⟨h.blacklist, rfl, (h.mono hclock).windows⟩
    · rename_i heffective
      have hlate : second ≤ now := by
        simp only [second] at heffective ⊢
        omega
      refine ⟨by simp only [h.blacklist], rfl, fun ip => ?_⟩
      rcases h.windows ip with hsame | ⟨hnone, -, win, hsome, hold⟩
      · cases hwin : s.ipConnectWindows ip with
        | none => exact .inl (by simp [← hsame, hwin])
        | some win =>
          rcases Nat.lt_or_ge (2 * second + win.windowStart) now with hold | hold
          · refine .inr ⟨by simp [hwin, hold], hlate, win, hsame ▸ hwin, ?_⟩
            omega
          · exact .inl (by simp [← hsame, hwin, hold])
      · exact .inr ⟨by simp [hnone], hlate, win, hsome, by omega⟩

theorem Alike.visit {clock : Nat} (h : Alike clock s s') (cfg : Config) (v : Visit)
    (hclock : clock ≤ v.time) :
    Alike v.time (s.visit cfg .sweepIpRate v).1 (s'.visit cfg .decayOnly v).1 ∧
      (s.visit cfg .sweepIpRate v).2 = (s'.visit cfg .decayOnly v).2 := by
  cases v with
  | accept ip now => exact h.ipGate ip hclock
  | sweep now => exact ⟨h.sweep hclock, rfl⟩

theorem Alike.visits {clock : Nat} (h : Alike clock s s') (cfg : Config) {vs : List Visit}
    (hclock : ∀ v ∈ vs, clock ≤ v.time) (horder : Rising vs) :
    (s.visits cfg .sweepIpRate vs).2 = (s'.visits cfg .decayOnly vs).2 ∧
      (s.visits cfg .sweepIpRate vs).1.ipBlacklist =
        (s'.visits cfg .decayOnly vs).1.ipBlacklist := by
  induction vs generalizing s s' clock with
  | nil => exact ⟨rfl, h.blacklist⟩
  | cons v vs ih =>
    obtain ⟨hle, hrest⟩ := List.pairwise_cons.mp horder
    obtain ⟨hnext, hdecision⟩ := h.visit cfg v (hclock v List.mem_cons_self)
    obtain ⟨hdecisions, hblacklist⟩ := ih hnext hle hrest
    simp only [State.visits, hdecision, hdecisions]
    exact ⟨trivial, hblacklist⟩

/-- **Pruning rate windows is invisible.** From any state, at times that never decrease, the gate
turns away the same connections, and has the same addresses on the blacklist, as in the run that
never prunes; and right after a sweep that had an effect every window left is at most two seconds
old. -/
theorem pruning_invisible (cfg : Config) (s : State) {vs : List Visit} (horder : Rising vs) :
    (s.visits cfg .sweepIpRate vs).2 = (s.visits cfg .decayOnly vs).2 ∧
    (s.visits cfg .sweepIpRate vs).1.ipBlacklist = (s.visits cfg .decayOnly vs).1.ipBlacklist ∧
    ∀ (u : State) (now : Nat), cfg.ipRatePerSec ≠ 0 → 10 * second ≤ now - u.lastIpDecay →
      ∀ ip win, (u.visit cfg .sweepIpRate (.sweep now)).1.ipConnectWindows ip = some win →
        now ≤ win.windowStart + 2 * second := by
  have hself : Alike 0 s s := ⟨rfl, rfl, fun _ => .inl rfl⟩
  obtain ⟨hdecisions, hblacklist⟩ := hself.visits cfg (fun _ _ => Nat.zero_le _) horder
  refine ⟨hdecisions, hblacklist, fun u now hrate heffective ip win hwin => ?_⟩
  simp only [State.visit, State.sweepIpRate, hrate, if_false, Nat.not_lt.mpr heffective,
    Option.filter_eq_some_iff, decide_eq_true_eq] at hwin
  omega

/-- A window is pruned, and its address comes back. -/
theorem pruning_invisible_comesBack :
    Rising [.accept 1 (10 * second), .sweep (20 * second), .accept 1 (20 * second)] ∧
    ((State.init .twoPerSecond).visits .twoPerSecond .sweepIpRate
        [.accept 1 (10 * second), .sweep (20 * second), .accept 1 (20 * second)]).2 =
      ((State.init .twoPerSecond).visits .twoPerSecond .decayOnly
        [.accept 1 (10 * second), .sweep (20 * second), .accept 1 (20 * second)]).2 := by
  have horder :
      Rising [.accept 1 (10 * second), .sweep (20 * second), .accept 1 (20 * second)] := by decide
  exact ⟨horder, (pruning_invisible .twoPerSecond (State.init .twoPerSecond) horder).1⟩

end Muses.Reactor
