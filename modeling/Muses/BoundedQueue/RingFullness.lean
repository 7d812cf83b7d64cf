import Muses.BoundedQueue.RingDelivery

/-!
# When the ring takes itself to be full

`push` infers that the queue is full from the sequence number of one cell, and `evict_one` acts on
that inference some steps later. In between stand two kinds of thread: a consumer that has won its
position and has not stored the cell's next number yet, and another thread that takes the front
item away.
-/

namespace Muses.RingImpl

open Muses.Core Function

variable {Tid T : Type*}

/-- Pushes are ahead of pops by the number of slots. -/
def State.Full (cfg : Config) (s : State Tid T) : Prop :=
  s.enqueuePos - s.dequeuePos = cfg.slots

instance (cfg : Config) (s : State Tid T) : Decidable (s.Full cfg) :=
  inferInstanceAs (Decidable (_ = _))

def Pc.vacating : Pc T → Bool
  | .evictReset _ _ => true
  | .evictStore _ _ => true
  | .popMove _ _ => true
  | .popReset _ _ _ => true
  | .popStore _ _ _ => true
  | _ => false

def Pc.choosing : Pc T → Bool
  | .evictLoadPos _ => true
  | .evictLoadSeq _ _ => true
  | .evictCas _ _ => true
  | _ => false

/-- Acting on the inference that the queue is full: about to count a refused item, or choosing an
item to evict. -/
def Pc.overflowed (c : Pc T) : Bool :=
  match c with
  | .pushDropped => true
  | _ => c.choosing

section

variable [DecidableEq Tid]

/-! ## One step, seen from the cursors -/

/-- What a step of thread `t` to the program counter `c` does to the cursors, and what it has read
when it loads a position or takes the queue to be full. -/
structure Access (cfg : Config) (s : State Tid T) (t : Tid) (c : Pc T) (s' : State Tid T) :
    Prop where
  pc : s'.pc = update s.pc t c
  enqueue : s.enqueuePos ≤ s'.enqueuePos
  dequeue : s'.dequeuePos = s.dequeuePos ∨
    s'.dequeuePos = s.dequeuePos + 1 ∧ (s.pc t).role = .wantTake s.dequeuePos ∧
      c.overflowed = false
  evicts : s'.departures = s.departures ∨
    ∃ kind, s'.departures = s.departures ++ [(s.dequeuePos, kind)] ∧
      (kind = .evicted → (s.pc t).choosing = true)
  pushLoaded : ∀ item pos, c = .pushLoadSeq item pos → pos = s.enqueuePos
  popLoaded : ∀ k pos, c = .popLoadSeq k pos → pos = s.dequeuePos
  overflow : c.overflowed = true → (s.pc t).choosing = true ∨
    ∃ item pos, s.pc t = .pushLoadSeq item pos ∧
      (s.ring (pos &&& cfg.mask)).sequence < pos
  refused : c = .idle (some (.pushed false)) → s.pc t = .pushDropped ∨
    s.stopped = true ∧ ∃ item, s.pc t = .pushCheck item

variable {cfg : Config} {s s' : State Tid T} {t : Tid}

variable {c : Pc T} {l : Tid × Act T}

/-- A step that leaves the dequeue side alone and goes to a program counter that has loaded no
position and does not take the queue to be full. -/
theorem access_of_plain {m : State Tid T} (hpc : m.pc = s.pc) (henq : s.enqueuePos ≤ m.enqueuePos)
    (hdeq : m.dequeuePos = s.dequeuePos) (hdep : m.departures = s.departures)
    (hpush : ∀ item pos, c ≠ .pushLoadSeq item pos) (hpop : ∀ k pos, c ≠ .popLoadSeq k pos)
    (hover : c.overflowed = false) (hret : c ≠ .idle (some (.pushed false))) :
    Access cfg s t c (m.setPc t c) where
  pc := by simp [State.setPc, hpc]
  enqueue := henq
  dequeue := Or.inl hdeq
  evicts := Or.inl hdep
  pushLoaded := fun item pos h => absurd h (hpush item pos)
  popLoaded := fun k pos h => absurd h (hpop k pos)
  overflow := fun h => by simp [hover] at h
  refused := fun h => absurd h hret

/-- **What one step can do to the cursors**, whatever the thread is asked to do. -/
theorem step_access (h : step cfg s l = some s') : ∃ c, Access cfg s l.1 c s' := by
  obtain ⟨t, a⟩ := l
  obtain ⟨c, m, hperforms, rfl⟩ := step_performs h
  refine ⟨c, ?_⟩
  generalize hpc : s.pc t = c₀ at hperforms
  cases hperforms with
  | refuse hstop =>
    exact ⟨rfl, Nat.le_refl _, .inl rfl, .inl rfl, by simp, by simp,
      by simp [Pc.overflowed, Pc.choosing], fun _ => .inr ⟨hstop, _, hpc⟩⟩
  | drop =>
    exact ⟨rfl, Nat.le_refl _, .inl rfl, .inl rfl, by simp, by simp,
      by simp [Pc.overflowed, Pc.choosing], fun _ => .inl hpc⟩
  | pushLoad | popLoad =>
    exact ⟨rfl, Nat.le_refl _, .inl rfl, .inl rfl, by simp [eq_comm], by simp [eq_comm],
      by simp [Pc.overflowed, Pc.choosing], by simp⟩
  | overflow hseq _ | makeRoom hseq =>
    -- the only way to take the queue to be full
    exact ⟨rfl, Nat.le_refl _, .inl rfl, .inl rfl, by simp, by simp,
      fun _ => .inr ⟨_, _, hpc, hseq⟩, by simp⟩
  | evictLoad | evictSee | evictLate | evictLose =>
    exact ⟨rfl, Nat.le_refl _, .inl rfl, .inl rfl, by simp, by simp,
      fun _ => .inl (by rw [hpc]; rfl), by simp⟩
  | evictClaim =>
    exact ⟨rfl, Nat.le_refl _, .inr ⟨rfl, by rw [hpc]; rfl, rfl⟩,
      .inr ⟨.evicted, rfl, fun _ => by rw [hpc]; rfl⟩, by simp, by simp,
      by simp [Pc.overflowed, Pc.choosing], by simp⟩
  | popClaim =>
    exact ⟨rfl, Nat.le_refl _, .inr ⟨rfl, by rw [hpc]; rfl, rfl⟩, .inr ⟨.popped, rfl, by simp⟩,
      by simp, by simp, by simp [Pc.overflowed, Pc.choosing], by simp⟩
  | @popNone flag k =>
    refine access_of_plain rfl (Nat.le_refl _) rfl rfl ?_ ?_ ?_ ?_ <;>
      cases k <;> simp [PopCaller.onEmpty, Pc.overflowed, Pc.choosing]
  | claimPut =>
    exact access_of_plain rfl (Nat.le_succ _) rfl rfl (by simp) (by simp) rfl (by simp)
  | _ => exact access_of_plain rfl (Nat.le_refl _) rfl rfl (by simp) (by simp) rfl (by simp)

/-! ## What a loaded position and a lagging cell mean -/

/-- The protocol invariant, with the positions that threads have loaded: none is ahead of its
cursor. -/
structure Sighted (cfg : Config) (s : State Tid T) : Prop where
  inv : TicketRing.Inv cfg.slots s.protocol
  attended : TicketRing.Attended cfg.slots s.protocol
  pushSeen : ∀ t item pos, s.pc t = .pushLoadSeq item pos → pos ≤ s.enqueuePos
  popSeen : ∀ t k pos, s.pc t = .popLoadSeq k pos → pos ≤ s.dequeuePos

theorem Sighted.step (hp : 2 ≤ cfg.slots) (h : Sighted cfg s) (hstep : step cfg s l = some s') :
    Sighted cfg s' := by
  obtain ⟨c, hacc⟩ := step_access hstep
  have hdeq : s.dequeuePos ≤ s'.dequeuePos := by
    rcases hacc.dequeue with hd | ⟨hd, -⟩ <;> omega
  have hprot : TicketRing.Inv cfg.slots s'.protocol ∧
      TicketRing.Attended cfg.slots s'.protocol := by
    rcases step_refines hstep with heq | hmove
    · rw [heq]
      exact ⟨h.inv, h.attended⟩
    · exact ⟨TicketRing.step_inv hp h.inv hmove, h.attended.step hp h.inv hmove⟩
  refine ⟨hprot.1, hprot.2, ?_, ?_⟩
  · intro u item pos hu
    rw [hacc.pc] at hu
    by_cases hut : u = l.1
    · subst hut
      rw [update_self] at hu
      rw [hacc.pushLoaded item pos hu]
      exact hacc.enqueue
    · rw [update_of_ne hut] at hu
      exact Nat.le_trans (h.pushSeen u item pos hu) hacc.enqueue
  · intro u k pos hu
    rw [hacc.pc] at hu
    by_cases hut : u = l.1
    · subst hut
      rw [update_self] at hu
      rw [hacc.popLoaded k pos hu]
      exact hdeq
    · rw [update_of_ne hut] at hu
      exact Nat.le_trans (h.popSeen u k pos hu) hdeq

omit [DecidableEq Tid] in
theorem sighted_init (hp : 2 ≤ cfg.slots) : Sighted cfg (State.init : State Tid T) where
  inv := TicketRing.inv_fresh cfg.slots
  attended := TicketRing.attended_fresh hp
  pushSeen := by simp [State.init]
  popSeen := by simp [State.init]

omit [DecidableEq Tid] in
theorem full_iff (h : Sighted cfg s) (hp : 2 ≤ cfg.slots) :
    s.Full cfg ↔ s.enqueuePos = s.dequeuePos + cfg.slots := by
  have hle : s.dequeuePos ≤ s.enqueuePos := h.inv.head_le
  unfold State.Full
  omega

omit [DecidableEq Tid] in
/-- A ticket holder below the dequeue cursor is on its way from the compare-exchange to the
sequence store. -/
theorem Sighted.vacating_of_ticket (h : Sighted cfg s) {u : Tid} {q : Nat}
    (hu : (s.pc u).role.ticket = some q) (hq : q < s.dequeuePos) : (s.pc u).vacating = true := by
  have hrole := h.inv.roles u
  change TicketRing.RoleOk cfg.slots s.protocol (s.pc u).role at hrole
  have hhead : s.protocol.head = s.dequeuePos := rfl
  cases hpc : s.pc u <;> rw [hpc] at hu hrole <;>
    simp only [Pc.role, TicketRing.Role.ticket, reduceCtorEq, Option.some.injEq] at hu <;>
    first | rfl | (have hclaimed := hrole.1; omega)

omit [DecidableEq Tid] in
/-- A `push` that reads a number below its position stands before a full ring, unless some thread
is vacating a cell. -/
theorem Sighted.full_of_behind (hp : 2 ≤ cfg.slots) (h : Sighted cfg s) {item : T} {pos : Nat}
    (hpc : s.pc t = .pushLoadSeq item pos) (hseq : (s.ring (pos &&& cfg.mask)).sequence < pos)
    (hcalm : ∀ u, (s.pc u).vacating = false) : s.Full cfg := by
  rw [cfg.and_mask] at hseq
  rcases TicketRing.full_or_emptying (by omega) h.inv h.attended (h.pushSeen t item pos hpc) hseq
    with hfull | ⟨u, q, hu, hq⟩
  · exact (full_iff h hp).mpr hfull
  · have hvac := h.vacating_of_ticket hu hq
    rw [hcalm u] at hvac
    cases hvac

/-! ## Schedules without interference -/

/-- A `push` reads its cell while no thread is vacating one, and a dequeue position is won while no
other thread is choosing an item to evict. -/
def Undisturbed (s : State Tid T) (l : Tid × Act T) : Prop :=
  match l.2, s.pc l.1 with
  | .go _, .pushLoadSeq _ _ => ∀ u, (s.pc u).vacating = false
  | .go _, .evictCas _ pos => s.dequeuePos = pos → ∀ u, u ≠ l.1 → (s.pc u).choosing = false
  | .go _, .popCas _ pos => s.dequeuePos = pos → ∀ u, u ≠ l.1 → (s.pc u).choosing = false
  | _, _ => True

instance [Fintype Tid] (s : State Tid T) (l : Tid × Act T) : Decidable (Undisturbed s l) := by
  unfold Undisturbed
  split <;> infer_instance

theorem step_go_of_busy (hstep : step cfg s l = some s') (hbusy : ∀ ret, s.pc l.1 ≠ .idle ret) :
    ∃ flag, l.2 = .go flag := by
  obtain ⟨t, a⟩ := l
  cases a with
  | go flag => exact ⟨flag, rfl⟩
  | _ =>
    simp only [step, State.call] at hstep
    cases hstep

theorem Undisturbed.reads (h : Undisturbed s l) (hstep : RingImpl.step cfg s l = some s')
    {item : T} {pos : Nat} (hpc : s.pc l.1 = .pushLoadSeq item pos) :
    ∀ u, (s.pc u).vacating = false := by
  obtain ⟨flag, hgo⟩ := step_go_of_busy hstep (by simp [hpc])
  simpa only [Undisturbed, hgo, hpc] using h

theorem Undisturbed.takes (h : Undisturbed s l) (hstep : RingImpl.step cfg s l = some s')
    (hrole : (s.pc l.1).role = .wantTake s.dequeuePos) :
    ∀ u, u ≠ l.1 → (s.pc u).choosing = false := by
  cases hpc : s.pc l.1 <;> simp only [hpc, Pc.role, reduceCtorEq] at hrole <;> cases hrole
  all_goals
    obtain ⟨flag, hgo⟩ := step_go_of_busy hstep (by simp [hpc])
    simp only [Undisturbed, hgo, hpc, true_implies] at h
    exact h

/-- Whoever is about to drop or evict does so while the queue is full. -/
def ChoosesWhenFull (cfg : Config) (s : State Tid T) : Prop :=
  ∀ t, (s.pc t).choosing = true → s.Full cfg

omit [DecidableEq Tid] in
theorem overflowed_of_choosing (h : c.choosing = true) : c.overflowed = true := by
  cases c <;> first | rfl | cases h

omit [DecidableEq Tid] in
theorem full_of_dequeuePos_eq (hp : 2 ≤ cfg.slots) (h : Sighted cfg s) (h' : Sighted cfg s')
    (henq : s.enqueuePos ≤ s'.enqueuePos) (hdeq : s'.dequeuePos = s.dequeuePos)
    (hfull : s.Full cfg) : s'.Full cfg := by
  rw [full_iff h hp] at hfull
  rw [full_iff h' hp]
  have hle : s'.enqueuePos ≤ s'.dequeuePos + cfg.slots := h'.inv.tail_le
  omega

theorem ChoosesWhenFull.step (hp : 2 ≤ cfg.slots) (hs : Sighted cfg s) (h : ChoosesWhenFull cfg s)
    (hcalm : Undisturbed s l) (hstep : RingImpl.step cfg s l = some s') :
    ChoosesWhenFull cfg s' := by
  obtain ⟨c, hacc⟩ := step_access hstep
  intro u hu
  rw [hacc.pc] at hu
  rcases hacc.dequeue with hdeq | ⟨-, hrole, hover⟩
  · apply full_of_dequeuePos_eq hp hs (hs.step hp hstep) hacc.enqueue hdeq
    by_cases hut : u = l.1
    · subst hut
      rw [update_self] at hu
      rcases hacc.overflow (overflowed_of_choosing hu) with hold | ⟨item, pos, hpc, hseq⟩
      · exact h l.1 hold
      · exact hs.full_of_behind hp hpc hseq (hcalm.reads hstep hpc)
    · rw [update_of_ne hut] at hu
      exact h u hu
  · -- a position was won: the winner is past choosing, and nobody else was
    by_cases hut : u = l.1
    · subst hut
      rw [update_self] at hu
      rw [overflowed_of_choosing hu] at hover
      cases hover
    · rw [update_of_ne hut, hcalm.takes hstep hrole u hut] at hu
      cases hu

omit cfg in
theorem pc_of_call (h : s.call t c = some s') : s'.pc t = c := by
  unfold State.call at h
  split at h <;> cases h
  simp [State.setPc]

theorem keeps_full (hp : 2 ≤ cfg.slots) (h : Sighted cfg s ∧ ChoosesWhenFull cfg s)
    (hcalm : Undisturbed s l) (hstep : step cfg s l = some s') :
    Sighted cfg s' ∧ ChoosesWhenFull cfg s' :=
  ⟨h.1.step hp hstep, h.2.step hp h.1 hcalm hstep⟩

theorem choosing_of_eviction (hstep : step cfg s l = some s')
    (hevict : s.evictions < s'.evictions) : (s.pc l.1).choosing = true := by
  obtain ⟨c, hacc⟩ := step_access hstep
  rcases hacc.evicts with hsame | ⟨kind, hdep, hkind⟩
  · simp [State.evictions, hsame] at hevict
  · apply hkind
    cases kind with
    | evicted => rfl
    | popped => simp [State.evictions, hdep] at hevict

/-- **Nothing is dropped while there is room**, on undisturbed schedules. For every run of any
threads on a ring of at least two cells and its next step: an eviction finds the ring full, and a
`push` that returns false was refused by the stopped flag or saw the ring full at some moment since
its call. -/
theorem drops_only_when_full (hcap : 2 ≤ cfg.capacity) {acts : List (Tid × Act T)}
    {m : State Tid T} {l : Tid × Act T} (hrun : exec (step cfg) State.init acts = some m)
    (hstep : step cfg m l = some s)
    (hcalm : Meets (step cfg) Undisturbed State.init (acts ++ [l])) :
    (m.evictions < s.evictions → m.Full cfg) ∧
    ∀ before item during s₀, acts = before ++ (l.1, .push item) :: during →
      exec (step cfg) State.init (before ++ [(l.1, .push item)]) = some s₀ →
      s.pc l.1 = .idle (some (.pushed false)) →
      (m.stopped = true ∧ ∃ i, m.pc l.1 = .pushCheck i) ∨
        Sometime (step cfg) (State.Full cfg) s₀ during := by
  have hp := Config.two_le_slots hcap
  have hinit : Sighted cfg (State.init : State Tid T) ∧
      ChoosesWhenFull cfg (State.init : State Tid T) :=
    ⟨sighted_init hp, by simp [ChoosesWhenFull, State.init, Pc.choosing]⟩
  obtain ⟨hacts, -⟩ := (meets_append hrun).mp hcalm
  constructor
  · intro hevict
    have hkept := exec_invariant_of_meets (fun _ _ _ => keeps_full hp) hinit hacts hrun
    exact hkept.2 l.1 (choosing_of_eviction hstep hevict)
  · intro before item during s₀ hsplit hcall hret
    obtain ⟨c, hacc⟩ := step_access hstep
    rw [hacc.pc, update_self] at hret
    rcases hacc.refused hret with hdropped | hstopped
    · right
      rw [hsplit, ← List.singleton_append, ← List.append_assoc] at hacts hrun
      obtain ⟨hbefore, hduring⟩ := (meets_append hcall).mp hacts
      rw [exec_append, hcall] at hrun
      have hkept := exec_invariant_of_meets (fun _ _ _ => keeps_full hp) hinit hbefore hcall
      have hstart : s₀.pc l.1 = .pushCheck item := by
        obtain ⟨b, -, hpush⟩ := exec_of_concat hcall
        exact pc_of_call hpush
      refine sometime_of_entered (Q := fun s => s.pc l.1 = .pushDropped)
        (fun _ _ _ => keeps_full hp) ?_ hkept hduring hrun (by simp [hstart]) hdropped
      intro s a s' hI hC hs hne hdrop
      obtain ⟨c', hacc'⟩ := step_access hs
      rw [hacc'.pc] at hdrop
      by_cases ha : a.1 = l.1
      · rw [← ha] at hdrop hne
        rw [update_self] at hdrop
        rcases hacc'.overflow (by rw [hdrop]; rfl) with hold | ⟨i, pos, hpc, hseq⟩
        · exact hI.2 a.1 hold
        · exact hI.1.full_of_behind hp hpc hseq (hC.reads hs hpc)
      · rw [update_of_ne (Ne.symm ha)] at hdrop
        exact absurd hdrop hne
    · exact Or.inl hstopped

end

def pushAlone (t : Bool) (item : Nat) : List (Bool × Act Nat) :=
  (t, .push item) :: List.replicate 7 (t, .go false)

def twoPushes : List (Bool × Act Nat) := pushAlone true 1 ++ pushAlone true 2

def thirdPush (accesses : Nat) : List (Bool × Act Nat) :=
  (true, .push 3) :: List.replicate accesses (true, .go false)

theorem drops_only_when_full_thirdPush :
    (∃ s₀ m s : State Bool Nat,
      exec (step ⟨2, .dropNew⟩) State.init (twoPushes ++ [(true, .push 3)]) = some s₀ ∧
      exec (step ⟨2, .dropNew⟩) State.init (twoPushes ++ thirdPush 3) = some m ∧
      step ⟨2, .dropNew⟩ m (true, .go false) = some s ∧
      s.pc true = .idle (some (.pushed false)) ∧
      ((m.stopped = true ∧ ∃ i, m.pc true = .pushCheck i) ∨
        Sometime (step ⟨2, .dropNew⟩) (State.Full ⟨2, .dropNew⟩) s₀
          (List.replicate 3 (true, .go false)))) ∧
    ∃ m s : State Bool Nat,
      exec (step ⟨2, .dropOldest⟩) State.init (twoPushes ++ thirdPush 5) = some m ∧
      step ⟨2, .dropOldest⟩ m (true, .go false) = some s ∧ m.evictions < s.evictions ∧
      m.Full ⟨2, .dropOldest⟩ := by
  constructor
  · have hall {m s : State Bool Nat}
        (hrun : exec (step ⟨2, .dropNew⟩) State.init (twoPushes ++ thirdPush 3) = some m)
        (hstep : step ⟨2, .dropNew⟩ m (true, .go false) = some s) :=
      (drops_only_when_full (by decide) hrun hstep (by decide +kernel)).2
    exact ⟨_, _, _, rfl, rfl, rfl, rfl, hall rfl rfl twoPushes 3 _ _ rfl rfl rfl⟩
  · have hall {m s : State Bool Nat}
        (hrun : exec (step ⟨2, .dropOldest⟩) State.init (twoPushes ++ thirdPush 5) = some m)
        (hstep : step ⟨2, .dropOldest⟩ m (true, .go false) = some s) :=
      (drops_only_when_full (by decide) hrun hstep (by decide +kernel)).1
    exact ⟨_, _, rfl, rfl, by decide +kernel, hall rfl rfl (by decide +kernel)⟩

def pausedPop : List (Bool × Act Nat) :=
  twoPushes ++ (false, .tryPop) :: List.replicate 3 (false, .go false)

/-- Behind a paused consumer the producer's `push` is refused although one item is in the ring
during the whole call, and an eviction takes that item. -/
theorem paused_consumer_drops_with_room :
    (∃ s₀ m s : State Bool Nat,
      exec (step ⟨2, .dropNew⟩) State.init (pausedPop ++ [(true, .push 3)]) = some s₀ ∧
      exec (step ⟨2, .dropNew⟩) s₀ (List.replicate 3 (true, .go false)) = some m ∧
      step ⟨2, .dropNew⟩ m (true, .go false) = some s ∧
      s.pc true = .idle (some (.pushed false)) ∧ s.stopped = false ∧
      ¬ Sometime (step ⟨2, .dropNew⟩) (State.Full ⟨2, .dropNew⟩) s₀
        (List.replicate 4 (true, .go false))) ∧
    ∃ m s : State Bool Nat,
      exec (step ⟨2, .dropOldest⟩) State.init (pausedPop ++ thirdPush 5) = some m ∧
      step ⟨2, .dropOldest⟩ m (true, .go false) = some s ∧ m.evictions < s.evictions ∧
      m.enqueuePos - m.dequeuePos = 1 ∧ Config.slots ⟨2, .dropOldest⟩ = 2 := by
  constructor
  · exact ⟨_, _, _, rfl, rfl, rfl, rfl, rfl, by decide +kernel⟩
  · exact ⟨_, _, rfl, rfl, by decide +kernel, rfl, rfl⟩

end Muses.RingImpl
