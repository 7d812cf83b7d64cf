import Muses.Core.Census
import Muses.BoundedQueue.Sequential

/-!
# The books of the ring: nothing gets lost on the way out

`Delivered` says that whatever a pop is handed was claimed, once. This module adds the other
direction, for any threads and any interleaving: an item that left the ring by a pop is handed to
the thread that won it, and one that left by an eviction is counted in `dropped_`.

* `Books` — what a step adds to the departures, to what was handed out and to the drop counter;
* `Served` — every popped position was handed out, or its winner is about to move the item out;
* `Counted` — the evictions are the drops counted so far and those the threads still owe.
-/

namespace Muses.RingImpl

open Muses.Core List

variable {Tid T : Type*}

/-! ## What a step adds to the books -/

section

variable [DecidableEq Tid] {cfg : Config} {s s' : State Tid T} {t : Tid}

/-- What a step enters into the books: the departures, the deliveries, the drops. -/
inductive Books (cfg : Config) (s : State Tid T) (t : Tid) (s' : State Tid T) : Prop where
  | same (hdep : s'.departures = s.departures) (hhand : s'.handed = s.handed)
      (hfrom : (s.pc t).awaits = none)
      (hdrop : cfg.policy ≠ .dropNew → s'.dropped + (s'.pc t).owed = s.dropped + (s.pc t).owed)
  | pop (pos : Nat) (hdep : s'.departures = s.departures ++ [(pos, .popped)])
      (hhand : s'.handed = s.handed) (hfrom : (s.pc t).awaits = none)
      (hawait : (s'.pc t).awaits = some pos)
      (hdrop : s'.dropped + (s'.pc t).owed = s.dropped + (s.pc t).owed)
  | evict (pos : Nat) (hdep : s'.departures = s.departures ++ [(pos, .evicted)])
      (hhand : s'.handed = s.handed) (hfrom : (s.pc t).awaits = none)
      (hdrop : s'.dropped + (s'.pc t).owed = s.dropped + (s.pc t).owed + 1)
  | hand (pos : Nat) (v : T) (hdep : s'.departures = s.departures)
      (hhand : s'.handed = s.handed ++ [(pos, v)]) (hfrom : (s.pc t).awaits = some pos)
      (hdrop : s'.dropped + (s'.pc t).owed = s.dropped + (s.pc t).owed)

@[simp] theorem setPc_pc_self (s : State Tid T) (t : Tid) (c : Pc T) : (s.setPc t c).pc t = c :=
  Function.update_self ..

variable {c : Pc T} {m : State Tid T} {flag : Bool} {l : Tid × Act T} {item : T} {won : Option Nat}

theorem books_same (hdep : m.departures = s.departures) (hhand : m.handed = s.handed)
    (hfrom : (s.pc t).awaits = none)
    (hdrop : cfg.policy ≠ .dropNew → m.dropped + c.owed = s.dropped + (s.pc t).owed) :
    Books cfg s t (m.setPc t c) :=
  .same hdep hhand hfrom (by rw [setPc_pc_self]; exact hdrop)

theorem step_books (h : step cfg s l = some s') : Books cfg s l.1 s' := by
  obtain ⟨t, a⟩ := l
  obtain ⟨c, m, hperforms, rfl⟩ := step_performs h
  generalize hpc : s.pc t = c₀ at hperforms
  cases hperforms with
  | evictClaim => exact .evict _ rfl rfl (by rw [hpc]; rfl) (by rw [hpc, setPc_pc_self]; rfl)
  | popClaim =>
    exact .pop _ rfl rfl (by rw [hpc]; rfl) (by rw [setPc_pc_self]; rfl)
      (by rw [hpc, setPc_pc_self]; rfl)
  | popMove => exact .hand _ _ rfl rfl (by rw [hpc]; rfl) (by rw [hpc, setPc_pc_self]; rfl)
  | overflow _ hdrops =>
    exact books_same rfl rfl (by rw [hpc]; rfl) fun hpolicy => absurd hdrops hpolicy
  | @popNone flag k =>
    exact books_same rfl rfl (by rw [hpc]; rfl) fun _ => by rw [hpc]; cases k <;> rfl
  | _ => exact books_same rfl rfl (by rw [hpc]; rfl) fun _ => by rw [hpc]; rfl

theorem step_pc_of_ne (h : step cfg s l = some s') {u : Tid} (hu : u ≠ l.1) : s'.pc u = s.pc u := by
  obtain ⟨c, hacc⟩ := step_access h
  rw [hacc.pc, Function.update_of_ne hu]

/-! ## Popped positions are handed out -/

/-- Every item popped was handed over, or a thread has its ticket. -/
def Served (s : State Tid T) : Prop :=
  ∀ pos, (pos, Departure.popped) ∈ s.departures →
    pos ∈ s.handed.map Prod.fst ∨ ∃ t, (s.pc t).awaits = some pos

theorem Served.step (h : Served s) (hstep : step cfg s l = some s') : Served s' := by
  -- a thread that waits for its item and does not move is still waiting
  have hstill {pos : Nat} {u : Tid} (hu : u ≠ l.1) (hawait : (s.pc u).awaits = some pos) :
      ∃ u, (s'.pc u).awaits = some pos := ⟨u, by rw [step_pc_of_ne hstep hu]; exact hawait⟩
  have hquiet {pos : Nat} (hfrom : (s.pc l.1).awaits = none) (hhand : s'.handed = s.handed)
      (hmem : (pos, Departure.popped) ∈ s.departures) :
      pos ∈ s'.handed.map Prod.fst ∨ ∃ u, (s'.pc u).awaits = some pos := by
    rcases h pos hmem with hdone | ⟨u, hu⟩
    · rw [hhand]
      exact Or.inl hdone
    · refine Or.inr (hstill ?_ hu)
      rintro rfl
      rw [hfrom] at hu
      cases hu
  intro pos hmem
  cases step_books hstep with
  | same hdep hhand hfrom =>
    rw [hdep] at hmem
    exact hquiet hfrom hhand hmem
  | pop won hdep hhand hfrom hawait =>
    rw [hdep, mem_append, mem_singleton] at hmem
    rcases hmem with hmem | hmem
    · exact hquiet hfrom hhand hmem
    · cases hmem
      exact Or.inr ⟨l.1, hawait⟩
  | evict won hdep hhand hfrom =>
    rw [hdep, mem_append, mem_singleton] at hmem
    rcases hmem with hmem | hmem
    · exact hquiet hfrom hhand hmem
    · cases hmem
  | hand won v hdep hhand hfrom =>
    rw [hdep] at hmem
    rw [hhand, map_append, mem_append]
    rcases h pos hmem with hdone | ⟨u, hu⟩
    · exact Or.inl (Or.inl hdone)
    · by_cases hut : u = l.1
      · rw [hut, hfrom] at hu
        cases hu
        exact Or.inl (Or.inr (mem_singleton.mpr rfl))
      · exact Or.inr (hstill hut hu)

theorem run_served {acts : List (Tid × Act T)} (hrun : exec (step cfg) State.init acts = some s) :
    Served s :=
  exec_invariant (I := Served) (fun _ _ _ h hstep => h.step hstep) (by simp [Served, State.init])
    hrun

/-! ## Evictions are counted -/

/-- The evictions are those counted as dropped, and those whose thread has yet to count. -/
def Counted (s : State Tid T) : Prop :=
  ∃ owing, Tally (fun u => (s.pc u).owed) owing ∧ s.dropped + owing = s.evictions

theorem Counted.step (hpolicy : cfg.policy ≠ .dropNew) (h : Counted s)
    (hstep : step cfg s l = some s') : Counted s' := by
  obtain ⟨owing, htally, hsum⟩ := h
  obtain ⟨owing', htally', hmove⟩ := htally.move l.1 (fun u => (s'.pc u).owed)
    fun u hu => by rw [step_pc_of_ne hstep hu]
  refine ⟨owing', htally', ?_⟩
  unfold State.evictions at hsum ⊢
  cases step_books hstep with
  | same hdep hhand hfrom hdrop =>
    have hdrop := hdrop hpolicy
    rw [hdep]
    omega
  | pop pos hdep hhand hfrom hawait hdrop =>
    rw [hdep, countP_append]
    simp only [countP_singleton, reduceCtorEq, decide_false, if_false]
    omega
  | evict pos hdep hhand hfrom hdrop =>
    rw [hdep, countP_append]
    simp only [countP_singleton, decide_true, if_true]
    omega
  | hand pos v hdep hhand hfrom hdrop =>
    rw [hdep]
    omega

/-! ## What a call is handed, it carries -/

def Pc.takes : Pc T → Bool
  | .popLoadPos _ => true
  | .popLoadSeq _ _ => true
  | .popCas _ _ => true
  | .popMove _ _ => true
  | .popReset _ _ _ => true
  | .popStore _ _ _ => true
  | .waitCheck _ => true
  | .waitAcquire _ => true
  | .idle (some (.popped _)) => true
  | _ => false

theorem carries_of_not_takes (h : c.takes = false) : c.carries = none := by
  cases c with
  | idle r =>
    rcases r with _ | ⟨_ | _ | _⟩
    · rfl
    · rfl
    · cases h
    · rfl
  | popReset k pos v => cases h
  | popStore k pos v => cases h
  | _ => rfl

def Pc.inHand (c : Pc T) : Multiset T := c.carries.toList

def State.handedItems (s : State Tid T) : Multiset T := s.handed.map Prod.snd

/-- After an access: it is still the same kind of call, and what was handed out since is in its
hands. -/
structure Carried (s : State Tid T) (t : Tid) (s' : State Tid T) : Prop where
  takes : (s'.pc t).takes = (s.pc t).takes
  balance : s'.handedItems + (s.pc t).inHand = s.handedItems + (s'.pc t).inHand

theorem carried_same (hhand : m.handed = s.handed) (htakes : c.takes = (s.pc t).takes)
    (hcarry : c.carries = (s.pc t).carries) : Carried s t (m.setPc t c) := by
  refine ⟨by rw [setPc_pc_self]; exact htakes, ?_⟩
  show (m.handed.map Prod.snd : Multiset T) + _ = _
  rw [hhand, setPc_pc_self, Pc.inHand, Pc.inHand, hcarry]
  rfl

/-- **What an access takes out of the ring, the call has in its hands.** -/
theorem go_carried (h : step cfg s (t, .go flag) = some s') : Carried s t s' := by
  obtain ⟨c, m, hperforms, rfl⟩ := step_performs h
  generalize hpc : s.pc t = c₀ at hperforms
  cases hperforms with
  | @popMove flag k pos v =>
    refine ⟨by rw [hpc, setPc_pc_self]; rfl, ?_⟩
    rw [hpc, setPc_pc_self]
    show ((s.handed ++ [(pos, v)]).map Prod.snd : Multiset T) + 0 = _
    rw [map_append, ← Multiset.coe_add, add_zero]
    rfl
  | @popNone flag k =>
    exact carried_same rfl (by rw [hpc]; cases k <;> rfl) (by rw [hpc]; cases k <;> rfl)
  | _ => exact carried_same rfl (by rw [hpc]; rfl) (by rw [hpc]; rfl)

/-! ## What a push claims -/

/-- The thread is in the push of `item`, which has won the ticket `won` so far. -/
def Pc.Pushes (item : T) (won : Option Nat) : Pc T → Prop
  | .pushCheck x | .pushLoadPos x | .pushReload x | .evictLoadPos x | .evictDropped x =>
      x = item ∧ won = none
  | .pushLoadSeq x _ | .pushCas x _ | .evictLoadSeq x _ | .evictCas x _ | .evictReset x _
  | .evictStore x _ => x = item ∧ won = none
  | .pushEmplace x pos => x = item ∧ won = some pos
  | .pushStore pos => won = some pos
  | .pushRelease => won.isSome
  | .idle (some (.pushed true)) => won.isSome
  | _ => False

omit [DecidableEq Tid] in
theorem Pc.Pushes.won_of_idle {r : Option (Ret T)} (h : (Pc.idle r).Pushes item won) :
    won ≠ none := by
  rcases r with _ | (ok | out | _)
  · cases h
  · cases ok with
    | false => cases h
    | true => exact Option.isSome_iff_ne_none.mp h
  · cases h
  · cases h

/-- A step of the push of `item`: it wins a ticket, or goes on as before. -/
structure Claimed (s : State Tid T) (t : Tid) (item : T) (won : Option Nat) (s' : State Tid T) :
    Prop where
  running : s'.stopped = s.stopped
  claims : (s'.claims = s.claims ∧ (s'.pc t).Pushes item won) ∨
    (won = none ∧ s'.claims = s.claims ++ [item] ∧ (s'.pc t).Pushes item (some s.claims.length))

theorem claimed_same (hrunning : m.stopped = s.stopped) (hclaims : m.claims = s.claims)
    (hc : c.Pushes item won) : Claimed s t item won (m.setPc t c) :=
  ⟨hrunning, Or.inl ⟨hclaims, by rw [setPc_pc_self]; exact hc⟩⟩

/-- **What an access of a `push` does**, unless the queue is stopped or drops new items. -/
theorem go_claimed (hpolicy : cfg.policy ≠ .dropNew) (hlen : s.claims.length = s.enqueuePos)
    (hopen : s.stopped = false) (hpush : (s.pc t).Pushes item won)
    (h : step cfg s (t, .go flag) = some s') : Claimed s t item won s' := by
  obtain ⟨c, m, hperforms, rfl⟩ := step_performs h
  generalize hpc : s.pc t = c₀ at hperforms hpush
  cases hperforms with
  | refuse hstop =>
    rw [hopen] at hstop
    cases hstop
  | overflow _ hdrops => exact absurd hdrops hpolicy
  | claimPut =>
    obtain ⟨rfl, rfl⟩ := hpush
    refine ⟨rfl, Or.inr ⟨rfl, rfl, ?_⟩⟩
    rw [setPc_pc_self]
    exact ⟨rfl, by rw [hlen]⟩
  | emplace => exact claimed_same rfl rfl hpush.2
  | publish => exact claimed_same rfl rfl (Option.isSome_of_mem hpush)
  | popNone => cases hpush
  | stop => cases hpush
  | _ => exact claimed_same rfl rfl hpush

theorem claims_of_takes {a : Act T} (htakes : (s.pc t).takes = true ∨ ∃ r, s.pc t = .idle r)
    (h : step cfg s (t, a) = some s') : s'.claims = s.claims ∧ s'.stopped = s.stopped := by
  obtain ⟨c, m, hperforms, rfl⟩ := step_performs h
  generalize s.pc t = c₀ at hperforms htakes
  cases hperforms with
  | claimPut | stop => simp [Pc.takes] at htakes
  | _ => exact ⟨rfl, rfl⟩

theorem found_nothing (h : step cfg s (t, .go flag) = some s')
    (hnothing : s'.pc t = .idle (some (.popped none))) :
    ∃ k pos, s.pc t = .popLoadSeq k pos ∧ (s.ring (pos &&& cfg.mask)).sequence < pos + 1 ∧
      s'.claims = s.claims ∧ s'.dequeuePos = s.dequeuePos := by
  obtain ⟨c, m, hperforms, rfl⟩ := step_performs h
  rw [setPc_pc_self] at hnothing
  generalize hpc : s.pc t = c₀ at hperforms
  cases hperforms with
  | @popNone flag k pos hseq => exact ⟨k, pos, rfl, hseq, rfl, rfl⟩
  | _ => simp at hnothing

end

/-! ## A ring at rest -/

def State.survivors (s : State Tid T) : List T :=
  (s.departures.filter fun d => d.2 = .popped).filterMap fun d => s.claims[d.1]?

section

variable {s : State Tid T}

theorem handed_perm_survivors (hdel : Delivered s) (hserved : Served s)
    (hidle : ∀ t, (s.pc t).awaits = none) : (s.handed.map Prod.snd).Perm s.survivors := by
  -- the positions handed out are the popped ones: both lists are free of repetitions
  have hnodup : (s.departures.map Prod.fst).Nodup := by
    rw [hdel.positions]
    exact nodup_range
  have hpopped : ((s.departures.filter fun d => d.2 = .popped).map Prod.fst).Nodup :=
    hnodup.sublist (filter_sublist.map Prod.fst)
  have hpositions : (s.handed.map Prod.fst).Perm
      ((s.departures.filter fun d => d.2 = .popped).map Prod.fst) := by
    apply (perm_ext_iff_of_nodup hdel.handed_once hpopped).mpr
    intro pos
    constructor
    · intro hmem
      obtain ⟨⟨_, v⟩, hhanded, rfl⟩ := mem_map.mp hmem
      have hdep := hdel.handed_popped _ v hhanded
      exact mem_map.mpr ⟨_, mem_filter.mpr ⟨hdep, by simp⟩, rfl⟩
    · intro hmem
      obtain ⟨⟨_, kind⟩, hfilter, rfl⟩ := mem_map.mp hmem
      obtain ⟨hdep, hkind⟩ := mem_filter.mp hfilter
      obtain rfl : kind = .popped := by simpa using hkind
      rcases hserved _ hdep with hdone | ⟨t, ht⟩
      · exact hdone
      · rw [hidle t] at ht
        cases ht
  -- and what is handed out at a position is the item claimed there
  have hitems : s.handed.map Prod.snd = (s.handed.map Prod.fst).filterMap (s.claims[·]?) := by
    rw [filterMap_map]
    have hall : ∀ d ∈ s.handed, s.claims[d.1]? = some d.2 := fun d hd => hdel.handed_item d.1 d.2 hd
    rw [← filterMap_eq_map]
    exact filterMap_congr fun d hd => (hall d hd).symm
  have hsurvivors : s.survivors = ((s.departures.filter fun d => d.2 = .popped).map
      Prod.fst).filterMap (s.claims[·]?) := by
    rw [filterMap_map]
    rfl
  rw [hitems, hsurvivors]
  exact hpositions.filterMap _

variable [DecidableEq Tid] {cfg : Config}

/-- **A ring at rest has settled its books.** In every state a ring of at least two cells that
drops the oldest item reaches, if no call is under way: what was handed out are the items that left
by a pop, and `dropped_` is the number of those that were evicted. -/
theorem settled_of_idle (hcap : 2 ≤ cfg.capacity) (hpolicy : cfg.policy ≠ .dropNew)
    (hreach : Reachable (step cfg) State.init s) (hidle : ∀ t, ∃ r, s.pc t = .idle r) :
    s.departures.map Prod.fst = List.range s.dequeuePos ∧
    (s.handed.map Prod.snd).Perm s.survivors ∧ s.dropped = s.evictions := by
  obtain ⟨acts, hrun⟩ := hreach
  have hdel := run_delivered hcap hrun
  have hserved := run_served hrun
  obtain ⟨owing, htally, hsum⟩ : Counted s :=
    exec_invariant (I := Counted) (fun _ _ _ h hstep => h.step hpolicy hstep)
      ⟨0, Tally.zero fun _ => rfl, rfl⟩ hrun
  refine ⟨hdel.positions, handed_perm_survivors hdel hserved fun t => ?_, ?_⟩
  · obtain ⟨r, hr⟩ := hidle t
    rw [hr]
    rfl
  · have hnone : owing = 0 := by
      apply htally.eq_zero
      intro t
      obtain ⟨r, hr⟩ := hidle t
      rw [hr]
      rfl
    omega

end

end Muses.RingImpl
