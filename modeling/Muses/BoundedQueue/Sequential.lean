import Muses.BoundedQueue.RingFullness

/-!
# `BoundedQueue` used by one caller at a time

With the calls one after the other, a `BoundedQueue` with a ring should be a bounded FIFO. `Fifo`
says what that means. The ring is the machine of `Muses.BoundedQueue.Ring`: a call is started and
its thread performs atomic accesses until it is idle again, and the labels say which weak
compare-exchanges fail spuriously.

* `Fifo` — the queue as it is meant: a list of items and a drop counter;
* `Pc.foresees` — what a running call will come to, read off any of its intermediate states; no
  access of the call changes it (`Alone.step`).
-/

namespace Muses

/-! ## The queue as it is meant -/

structure Fifo (T : Type*) where
  items : List T
  dropped : Nat
  deriving DecidableEq, Repr

inductive QueueCall (T : Type*) where
  | push (item : T)
  | tryPop
  | size
  | dropped
  deriving DecidableEq, Repr

inductive QueueReply (T : Type*) where
  | pushed (ok : Bool)
  | popped (out : Option T)
  | count (n : Nat)
  deriving DecidableEq, Repr

namespace Fifo

variable {T : Type*}

/-- Below `capacity` an item is appended. At `capacity` it is rejected, or takes the place of the
oldest one. -/
def push (policy : OverflowPolicy) (capacity : Nat) (q : Fifo T) (item : T) : Fifo T × Bool :=
  if q.items.length < capacity then (⟨q.items ++ [item], q.dropped⟩, true)
  else
    match policy with
    | .dropNew => (⟨q.items, q.dropped + 1⟩, false)
    | _ => (⟨q.items.tail ++ [item], q.dropped + 1⟩, true)

def tryPop (q : Fifo T) : Fifo T × Option T :=
  (⟨q.items.tail, q.dropped⟩, q.items.head?)

def answer (policy : OverflowPolicy) (capacity : Nat) (q : Fifo T) :
    QueueCall T → Fifo T × QueueReply T
  | .push item => ((q.push policy capacity item).1, .pushed (q.push policy capacity item).2)
  | .tryPop => (q.tryPop.1, .popped q.tryPop.2)
  | .size => (q, .count q.items.length)
  | .dropped => (q, .count q.dropped)

def answers (policy : OverflowPolicy) (capacity : Nat) (q : Fifo T) :
    List (QueueCall T) → Fifo T × List (QueueReply T)
  | [] => (q, [])
  | c :: cs =>
      let (q', r) := q.answer policy capacity c
      let (q'', rs) := q'.answers policy capacity cs
      (q'', r :: rs)

variable {capacity : Nat} {q : Fifo T} {policy : OverflowPolicy} {item : T}

theorem push_of_lt (h : q.items.length < capacity) :
    q.push policy capacity item = (⟨q.items ++ [item], q.dropped⟩, true) :=
  if_pos h

theorem push_dropNew (h : ¬ q.items.length < capacity) :
    q.push .dropNew capacity item = (⟨q.items, q.dropped + 1⟩, false) :=
  if_neg h

theorem push_dropOldest (hpolicy : policy ≠ .dropNew) (h : ¬ q.items.length < capacity) :
    q.push policy capacity item = (⟨q.items.tail ++ [item], q.dropped + 1⟩, true) := by
  cases policy with
  | dropNew => exact absurd rfl hpolicy
  | dropOldest => exact if_neg h
  | block => exact if_neg h

theorem length_push_le (item : T) (hcap : 0 < capacity) (h : q.items.length ≤ capacity) :
    (q.push policy capacity item).1.items.length ≤ capacity := by
  unfold push
  split
  · rw [List.length_append, List.length_singleton]
    omega
  · split
    · exact h
    · rw [List.length_append, List.length_singleton, List.length_tail]
      omega

theorem length_answers_le (hcap : 0 < capacity) (h : q.items.length ≤ capacity)
    (cs : List (QueueCall T)) : (q.answers policy capacity cs).1.items.length ≤ capacity := by
  induction cs generalizing q with
  | nil => exact h
  | cons c cs ih =>
    apply ih
    cases c with
    | push item => exact length_push_le item hcap h
    | tryPop =>
      change q.items.tail.length ≤ capacity
      rw [List.length_tail]
      omega
    | size => exact h
    | dropped => exact h

end Fifo

namespace RingImpl

open Muses.Core List

variable {Tid T : Type*}

/-! ## A call runs alone -/

def State.size (s : State Tid T) : Nat :=
  if s.dequeuePos ≤ s.enqueuePos then s.enqueuePos - s.dequeuePos else 0

def State.fifo (s : State Tid T) : Fifo T := ⟨s.claims.drop s.dequeuePos, s.dropped⟩

def Pc.owed : Pc T → Nat
  | .pushDropped => 1
  | .evictReset _ _ => 1
  | .evictStore _ _ => 1
  | .evictDropped _ => 1
  | _ => 0

structure Outcome (T : Type*) where
  queue : Fifo T
  stopped : Bool
  ret : Ret T

def Outcome.takes (q : Fifo T) (stopped : Bool) (onNothing : Option (Ret T)) :
    Option (Outcome T) :=
  match q.items with
  | [] => onNothing.map fun r => ⟨q, stopped, r⟩
  | x :: xs => some ⟨⟨xs, q.dropped⟩, stopped, .popped (some x)⟩

def PopCaller.onNothing (stopped : Bool) : PopCaller → Option (Ret T)
  | .tryPop => some (.popped none)
  | .waitFirst timed => if stopped || timed then some (.popped none) else none
  | .waitAgain timed => if stopped || timed then some (.popped none) else none
  | .waitLast => some (.popped none)

def Pc.foresees (cfg : Config) (s : State Tid T) (c : Pc T) : Option (Outcome T) :=
  let q : Fifo T := ⟨s.claims.drop s.dequeuePos, s.dropped + c.owed⟩
  let returns (r : Ret T) : Option (Outcome T) := some ⟨q, s.stopped, r⟩
  let pushes (item : T) : Option (Outcome T) :=
    some ⟨(q.push cfg.policy cfg.slots item).1, s.stopped,
      .pushed (q.push cfg.policy cfg.slots item).2⟩
  let takes (k : PopCaller) : Option (Outcome T) :=
    Outcome.takes q s.stopped (k.onNothing s.stopped)
  match c with
  | .idle r => r.bind returns
  | .pushCheck item => if s.stopped then returns (.pushed false) else pushes item
  | .pushLoadPos item => pushes item
  | .pushLoadSeq item _ => pushes item
  | .pushCas item _ => pushes item
  | .pushEmplace _ _ => returns (.pushed true)
  | .pushStore _ => returns (.pushed true)
  | .pushRelease => returns (.pushed true)
  | .pushDropped => returns (.pushed false)
  | .pushReload _ => none
  | .evictLoadPos item => pushes item
  | .evictLoadSeq item _ => pushes item
  | .evictCas item _ => pushes item
  | .evictReset item _ => pushes item
  | .evictStore item _ => pushes item
  | .evictDropped item => pushes item
  | .popLoadPos k => takes k
  | .popLoadSeq k _ => takes k
  | .popCas k _ => takes k
  | .popMove _ pos => s.claims[pos]?.bind fun v => returns (.popped (some v))
  | .popReset _ _ v => returns (.popped (some v))
  | .popStore _ _ v => returns (.popped (some v))
  | .waitCheck timed => takes (.waitAgain timed)
  | .waitAcquire timed => takes (.waitAgain timed)
  | .stopStore => some ⟨q, true, .stopped⟩
  | .stopRelease => returns .stopped

def State.outcome (cfg : Config) (s : State Tid T) (t : Tid) : Option (Outcome T) :=
  (s.pc t).foresees cfg s

/-- What a thread that runs alone knows at each point of its call. -/
def Pc.knows (cfg : Config) (s : State Tid T) : Pc T → Prop
  | .idle r => r.isSome
  | .pushLoadSeq _ pos => pos = s.enqueuePos
  | .pushCas _ pos => pos = s.enqueuePos ∧ s.enqueuePos < s.dequeuePos + cfg.slots
  | .pushReload _ => False
  | .evictLoadPos _ => cfg.policy ≠ .dropNew ∧ s.Full cfg
  | .evictLoadSeq _ pos => cfg.policy ≠ .dropNew ∧ s.Full cfg ∧ pos = s.dequeuePos
  | .evictCas _ pos => cfg.policy ≠ .dropNew ∧ s.Full cfg ∧ pos = s.dequeuePos
  | .evictReset _ _ => s.enqueuePos < s.dequeuePos + cfg.slots
  | .evictStore _ _ => s.enqueuePos < s.dequeuePos + cfg.slots
  | .evictDropped _ => s.enqueuePos < s.dequeuePos + cfg.slots
  | .popLoadSeq _ pos => pos = s.dequeuePos
  | .popCas _ pos => pos = s.dequeuePos ∧ s.dequeuePos < s.enqueuePos
  | .waitCheck _ => s.enqueuePos = s.dequeuePos
  | .waitAcquire _ => s.enqueuePos = s.dequeuePos ∧ s.stopped = false
  | _ => True

def Pc.waits : Pc T → Bool
  | .popLoadPos k => k ≠ .tryPop
  | .popLoadSeq k _ => k ≠ .tryPop
  | .popCas k _ => k ≠ .tryPop
  | .waitCheck _ => true
  | .waitAcquire _ => true
  | _ => false

/-- Only `t` is in a call. -/
structure Alone (cfg : Config) (s : State Tid T) (t : Tid) : Prop where
  sighted : Sighted cfg s
  others : ∀ u, u ≠ t → ∃ r, s.pc u = .idle r

section

variable {cfg : Config} {s s' : State Tid T} {t : Tid}

theorem Alone.no_ticket (h : Alone cfg s t) (ht : (s.pc t).role.ticket = none) (u : Tid) :
    (s.pc u).role.ticket = none := by
  by_cases hut : u = t
  · rw [hut]
    exact ht
  · obtain ⟨r, hr⟩ := h.others u hut
    rw [hr]
    rfl

theorem Alone.seq_enqueue (h : Alone cfg s t) (ht : (s.pc t).role.ticket = none)
    (hroom : s.enqueuePos < s.dequeuePos + cfg.slots) :
    (s.ring (s.enqueuePos &&& cfg.mask)).sequence = s.enqueuePos := by
  rw [cfg.and_mask]
  exact h.sighted.attended.seq_free h.sighted.inv (h.no_ticket ht) (Nat.le_refl _) hroom

theorem Alone.seq_enqueue_full (hp : 2 ≤ cfg.slots) (h : Alone cfg s t)
    (ht : (s.pc t).role.ticket = none) (hfull : s.enqueuePos = s.dequeuePos + cfg.slots) :
    (s.ring (s.enqueuePos &&& cfg.mask)).sequence = s.dequeuePos + 1 := by
  rw [cfg.and_mask, hfull, Nat.add_mod_right]
  exact h.sighted.attended.seq_used h.sighted.inv (h.no_ticket ht) (Nat.le_refl _)
    (show s.dequeuePos < s.enqueuePos by omega)

theorem Alone.seq_dequeue (h : Alone cfg s t) (ht : (s.pc t).role.ticket = none)
    (hitem : s.dequeuePos < s.enqueuePos) :
    (s.ring (s.dequeuePos &&& cfg.mask)).sequence = s.dequeuePos + 1 := by
  rw [cfg.and_mask]
  exact h.sighted.attended.seq_used h.sighted.inv (h.no_ticket ht) (Nat.le_refl _) hitem

theorem Alone.seq_dequeue_empty (hp : 2 ≤ cfg.slots) (h : Alone cfg s t)
    (ht : (s.pc t).role.ticket = none) (hempty : s.enqueuePos = s.dequeuePos) :
    (s.ring (s.dequeuePos &&& cfg.mask)).sequence = s.dequeuePos := by
  rw [cfg.and_mask]
  exact h.sighted.attended.seq_free h.sighted.inv (h.no_ticket ht) (Nat.le_of_eq hempty)
    (show s.dequeuePos < s.dequeuePos + cfg.slots by omega)

theorem Alone.le (h : Alone cfg s t) :
    s.dequeuePos ≤ s.enqueuePos ∧ s.enqueuePos ≤ s.dequeuePos + cfg.slots ∧
      s.claims.length = s.enqueuePos :=
  ⟨h.sighted.inv.head_le, h.sighted.inv.tail_le, h.sighted.inv.put_length⟩

theorem Alone.length_items (h : Alone cfg s t) :
    (s.claims.drop s.dequeuePos).length = s.enqueuePos - s.dequeuePos := by
  have := h.le.2.2
  rw [length_drop]
  omega

theorem Alone.payload (h : Alone cfg s t) {k : PopCaller} {pos : Nat}
    (hpc : s.pc t = .popMove k pos) :
    (s.ring (pos &&& cfg.mask)).data = s.claims[pos]? ∧ pos < s.claims.length := by
  have hrole := h.sighted.inv.roles t
  rw [show s.protocol.role t = .taking pos by simp [State.protocol, hpc, Pc.role]] at hrole
  have hlt : pos < s.dequeuePos := hrole.1
  have hle := h.le
  refine ⟨?_, by omega⟩
  rw [cfg.and_mask]
  exact hrole.2.2.2

theorem Alone.room_or_full (h : Alone cfg s t) :
    s.enqueuePos < s.dequeuePos + cfg.slots ∨ s.enqueuePos = s.dequeuePos + cfg.slots := by
  have := h.le
  omega

theorem Alone.items_nil (h : Alone cfg s t) (hempty : s.enqueuePos = s.dequeuePos) :
    s.claims.drop s.dequeuePos = [] := by
  apply eq_nil_of_length_eq_zero
  have := h.length_items
  omega

theorem Alone.items_cons (h : Alone cfg s t) (hitem : s.dequeuePos < s.enqueuePos) :
    ∃ v, s.claims[s.dequeuePos]? = some v ∧
      s.claims.drop s.dequeuePos = v :: s.claims.drop (s.dequeuePos + 1) := by
  have hlt : s.dequeuePos < s.claims.length := by
    have := h.le.2.2
    omega
  exact ⟨s.claims[s.dequeuePos], getElem?_eq_getElem hlt, drop_eq_getElem_cons hlt⟩

section

variable [DecidableEq Tid]

/-- What one access of the running call keeps: what it knows, what it will come to, and that it is
not a `wait_pop` if it was none. -/
structure Onward (cfg : Config) (o : Option (Outcome T)) (waits : Bool) (t : Tid)
    (s' : State Tid T) : Prop where
  knows : (s'.pc t).knows cfg s'
  waits : (s'.pc t).waits = true → waits = true
  outcome : s'.outcome cfg t = o

variable {o : Option (Outcome T)} {b : Bool} {m : State Tid T} {c : Pc T} {flag : Bool}
  {flags : List Bool} {a : Act T} {q : Fifo T}

theorem onward_setPc (hknows : c.knows cfg m) (hwaits : c.waits = true → b = true)
    (ho : c.foresees cfg m = o) : Onward cfg o b t (m.setPc t c) := by
  have hc : (m.setPc t c).pc t = c := by simp [State.setPc]
  refine ⟨?_, by rwa [hc], ?_⟩
  · rw [hc]
    cases c <;> exact hknows
  · unfold State.outcome
    rw [hc]
    exact ho

theorem onward_busy (hknows : c.knows cfg m) (hwaits : c.waits = false)
    (ho : c.foresees cfg m = o) : Onward cfg o b t (m.setPc t c) :=
  onward_setPc hknows (by simp [hwaits]) ho

theorem pushStep_onward (hp : 2 ≤ cfg.slots) (h : Alone cfg s t) (hk : (s.pc t).knows cfg s)
    (hstep : pushStep cfg s t flag (s.pc t) = some s') :
    Onward cfg (s.outcome cfg t) (s.pc t).waits t s' := by
  have hlen := h.length_items
  unfold State.outcome
  cases hpc : s.pc t <;> rw [hpc] at hstep hk <;> simp only [pushStep, reduceCtorEq] at hstep
  case pushCheck item =>
    split at hstep <;> cases hstep
    case isTrue hstop => exact onward_busy rfl rfl (by simp [Pc.foresees, Pc.owed, hstop])
    case isFalse hstop => exact onward_busy trivial rfl (by simp [Pc.foresees, Pc.owed, hstop])
  case pushLoadPos item =>
    cases hstep
    exact onward_busy rfl rfl rfl
  case pushLoadSeq item pos =>
    cases hk
    rcases h.room_or_full with hroom | hfull
    · -- the cell is free: the queue has room
      rw [if_pos (by rw [h.seq_enqueue (by rw [hpc]; rfl) hroom]; omega)] at hstep
      cases hstep
      exact onward_busy ⟨rfl, hroom⟩ rfl rfl
    · have hseq := h.seq_enqueue_full hp (by rw [hpc]; rfl) hfull
      rw [if_neg (by rw [hseq]; omega), if_pos (by rw [hseq]; omega)] at hstep
      split at hstep <;> cases hstep
      · rename_i hpolicy
        refine onward_busy trivial rfl ?_
        simp only [Pc.foresees, Pc.owed, hpolicy, Nat.add_zero]
        rw [Fifo.push_dropNew (by simp only; omega)]
      · rename_i hpolicy
        exact onward_busy ⟨hpolicy, (full_iff h.sighted hp).mpr hfull⟩ rfl rfl
  case pushCas item pos =>
    obtain ⟨rfl, hroom⟩ := hk
    split at hstep <;> cases hstep
    · refine onward_busy trivial rfl ?_
      have hle := h.le
      simp only [Pc.foresees, Pc.owed]
      rw [Fifo.push_of_lt (by simp only; omega), drop_append_of_le_length (by omega)]
    · exact onward_busy trivial rfl rfl
  case pushReload item => exact hk.elim
  case pushRelease | pushDropped =>
    cases hstep
    exact onward_busy rfl rfl rfl
  case pushEmplace | pushStore =>
    cases hstep
    exact onward_busy trivial rfl rfl

theorem evictStep_onward (hp : 2 ≤ cfg.slots) (h : Alone cfg s t) (hk : (s.pc t).knows cfg s)
    (hstep : evictStep cfg s t flag (s.pc t) = some s') :
    Onward cfg (s.outcome cfg t) (s.pc t).waits t s' := by
  unfold State.outcome
  cases hpc : s.pc t <;> rw [hpc] at hstep hk <;> simp only [evictStep, reduceCtorEq] at hstep
  case evictLoadPos item =>
    cases hstep
    exact onward_busy ⟨hk.1, hk.2, rfl⟩ rfl rfl
  case evictLoadSeq item pos =>
    obtain ⟨hpolicy, hfull, rfl⟩ := hk
    have hitem : s.dequeuePos < s.enqueuePos := by
      have := (full_iff h.sighted hp).mp hfull
      omega
    rw [if_pos (by rw [h.seq_dequeue (by rw [hpc]; rfl) hitem]; omega)] at hstep
    cases hstep
    exact onward_busy ⟨hpolicy, hfull, rfl⟩ rfl rfl
  case evictCas item pos =>
    obtain ⟨hpolicy, hfull, rfl⟩ := hk
    split at hstep <;> cases hstep
    · -- the oldest item is gone, and the item of the push has its place
      have hlen := h.length_items
      have hcur := (full_iff h.sighted hp).mp hfull
      refine onward_busy (show s.enqueuePos < s.dequeuePos + 1 + cfg.slots by omega) rfl ?_
      simp only [Pc.foresees, Pc.owed, Nat.add_zero]
      rw [Fifo.push_of_lt (by simp only [length_drop] at hlen ⊢; omega),
        Fifo.push_dropOldest hpolicy (by simp only; omega)]
      simp only [tail_drop]
    · exact onward_busy ⟨hpolicy, hfull⟩ rfl rfl
  case evictReset | evictStore =>
    cases hstep
    exact onward_busy hk rfl rfl
  case evictDropped item =>
    cases hstep
    exact onward_busy trivial rfl rfl

theorem popStep_onward (hp : 2 ≤ cfg.slots) (h : Alone cfg s t) (hk : (s.pc t).knows cfg s)
    (hstep : popStep cfg s t flag (s.pc t) = some s') :
    Onward cfg (s.outcome cfg t) (s.pc t).waits t s' := by
  unfold State.outcome
  cases hpc : s.pc t <;> rw [hpc] at hstep hk <;> simp only [popStep, reduceCtorEq] at hstep
  case popLoadPos k =>
    cases hstep
    exact onward_setPc rfl id rfl
  case popLoadSeq k pos =>
    cases hk
    rcases Nat.lt_or_ge s.dequeuePos s.enqueuePos with hitem | hnone
    · rw [if_pos (by rw [h.seq_dequeue (by rw [hpc]; rfl) hitem]; omega)] at hstep
      cases hstep
      exact onward_setPc ⟨rfl, hitem⟩ id rfl
    · have hempty : s.enqueuePos = s.dequeuePos := Nat.le_antisymm hnone h.le.1
      have hseq := h.seq_dequeue_empty hp (by rw [hpc]; rfl) hempty
      rw [if_neg (by rw [hseq]; omega), if_pos (by rw [hseq]; omega)] at hstep
      cases hstep
      -- the public `try_pop` and the last attempt return, the others go round the loop
      cases k with
      | tryPop | waitLast =>
        exact onward_busy rfl rfl (by simp [Pc.foresees, Pc.owed, Outcome.takes, h.items_nil hempty,
          PopCaller.onNothing, PopCaller.onEmpty])
      | waitFirst timed | waitAgain timed => exact onward_setPc hempty (fun _ => rfl) rfl
  case popCas k pos =>
    obtain ⟨rfl, hitem⟩ := hk
    split at hstep <;> cases hstep
    · obtain ⟨v, hv, hcons⟩ := h.items_cons hitem
      refine onward_busy trivial rfl ?_
      simp [Pc.foresees, Pc.owed, Outcome.takes, hcons, hv]
    · exact onward_setPc trivial id rfl
  case popMove k pos =>
    split at hstep <;> cases hstep
    rename_i v hv
    refine onward_busy trivial rfl ?_
    simp [Pc.foresees, Pc.owed, ← (h.payload hpc).1, hv]
  case popReset k pos v =>
    cases hstep
    exact onward_busy trivial rfl rfl
  case popStore k pos v =>
    cases hstep
    exact onward_busy rfl rfl rfl

theorem waitStep_onward (hk : (s.pc t).knows cfg s)
    (hstep : waitStep s t flag (s.pc t) = some s') :
    Onward cfg (s.outcome cfg t) (s.pc t).waits t s' := by
  unfold State.outcome
  cases hpc : s.pc t <;> rw [hpc] at hstep hk <;> simp only [waitStep, reduceCtorEq] at hstep
  case waitCheck timed =>
    split at hstep <;> cases hstep
    case isTrue hstop =>
      exact onward_setPc trivial (fun _ => rfl)
        (by simp [Pc.foresees, Pc.owed, PopCaller.onNothing, hstop])
    case isFalse hstop => exact onward_setPc ⟨hk, by simpa using hstop⟩ (fun _ => rfl) rfl
  case waitAcquire timed =>
    split at hstep
    case isTrue hexpires =>
      cases hstep
      simp only [Bool.and_eq_true] at hexpires
      exact onward_setPc trivial (fun _ => rfl)
        (by simp [Pc.foresees, Pc.owed, PopCaller.onNothing, hexpires.1])
    case isFalse =>
      obtain ⟨-, hstep⟩ := Option.ite_none_right_eq_some.mp hstep
      cases hstep
      exact onward_setPc trivial (fun _ => rfl) rfl
  case stopStore =>
    cases hstep
    exact onward_busy trivial rfl rfl
  case stopRelease =>
    cases hstep
    exact onward_busy rfl rfl rfl

/-- **An access of the running call does not change what the call will come to.** -/
theorem Alone.step (hp : 2 ≤ cfg.slots) (h : Alone cfg s t) (hk : (s.pc t).knows cfg s)
    (hstep : RingImpl.step cfg s (t, .go flag) = some s') :
    Alone cfg s' t ∧ Onward cfg (s.outcome cfg t) (s.pc t).waits t s' := by
  obtain ⟨c, hacc⟩ := step_access hstep
  refine ⟨⟨h.sighted.step hp hstep, fun u hu => ?_⟩, ?_⟩
  · rw [hacc.pc, Function.update_of_ne hu]
    exact h.others u hu
  · simp only [RingImpl.step, advance, Option.or_eq_some_iff] at hstep
    rcases hstep with hstep | ⟨-, hstep | ⟨-, hstep | ⟨-, hstep⟩⟩⟩
    · exact pushStep_onward hp h hk hstep
    · exact evictStep_onward hp h hk hstep
    · exact popStep_onward hp h hk hstep
    · exact waitStep_onward hk hstep

/-! ## Every call returns or parks -/

/-- How many accesses a `try_pop` that finds nothing still means to this caller: `wait_pop` goes
round its loop once for every permit. -/
def PopCaller.far (sem : Nat) : PopCaller → Nat
  | .tryPop => 0
  | .waitFirst _ => 4 + 10 * sem
  | .waitAgain _ => 4 + 10 * sem
  | .waitLast => 0

/-- A bound on the accesses that a call at `c` still makes if no compare-exchange fails
spuriously. -/
def Pc.rank (full : Bool) (sem : Nat) : Pc T → Nat
  | .pushCheck _ => 15
  | .pushLoadPos _ => if full then 14 else 6
  | .pushLoadSeq _ _ => if full then 13 else 5
  | .evictLoadPos _ => 12
  | .evictLoadSeq _ _ => 11
  | .evictCas _ _ => 10
  | .evictReset _ _ => 9
  | .evictStore _ _ => 8
  | .evictDropped _ => 7
  | .pushCas _ _ => 4
  | .pushEmplace _ _ => 3
  | .pushStore _ => 2
  | .pushRelease => 1
  | .pushDropped => 1
  | .popLoadPos k => 6 + k.far sem
  | .popLoadSeq k _ => 5 + k.far sem
  | .popCas _ _ => 4
  | .popMove _ _ => 3
  | .popReset _ _ _ => 2
  | .popStore _ _ _ => 1
  | .waitCheck _ => 8 + 10 * sem
  | .waitAcquire _ => 7 + 10 * sem
  | .stopStore => 2
  | .stopRelease => 1
  | _ => 0

def State.rank (cfg : Config) (s : State Tid T) (t : Tid) : Nat :=
  (s.pc t).rank (decide (s.Full cfg)) s.sem

/-- `t` waits for a permit and there is none. -/
def State.Parked (s : State Tid T) (t : Tid) : Prop := s.pc t = .waitAcquire false ∧ s.sem = 0

/-- The next access of thread `t` is enabled and brings its call closer to its end. Only a
`wait_pop` may have to run into its timeout for that. -/
def Closer (cfg : Config) (s : State Tid T) (t : Tid) : Prop :=
  ∃ flag s', (flag = true → (s.pc t).waits = true) ∧
    RingImpl.step cfg s (t, .go flag) = some s' ∧ s'.rank cfg t < s.rank cfg t

theorem closer_of_advance (flag : Bool) (hflag : flag = true → (s.pc t).waits = true)
    (h : advance cfg s t flag = some (m.setPc t c))
    (hrank : c.rank (decide (m.Full cfg)) m.sem < s.rank cfg t) : Closer cfg s t := by
  refine ⟨flag, m.setPc t c, hflag, h, ?_⟩
  have hc : (m.setPc t c).pc t = c := by simp [State.setPc]
  show ((m.setPc t c).pc t).rank (decide (m.Full cfg)) m.sem < s.rank cfg t
  rw [hc]
  exact hrank

/-- **The running call always has a next access**, unless it is parked, and without a spurious
failure that access brings it closer to its end. -/
theorem Alone.progress (hp : 2 ≤ cfg.slots) (h : Alone cfg s t) (hk : (s.pc t).knows cfg s)
    (hbusy : ∀ r, s.pc t ≠ .idle r) (hfree : ¬ s.Parked t) : Closer cfg s t := by
  have hfull := full_iff h.sighted hp
  have hrank : s.rank cfg t = (s.pc t).rank (decide (s.Full cfg)) s.sem := rfl
  cases hpc : s.pc t <;> rw [hpc] at hk hrank
  case idle r => exact absurd hpc (hbusy r)
  case pushCheck item =>
    cases hstop : s.stopped with
    | true =>
      refine closer_of_advance false nofun (by simp [advance, hpc, pushStep, hstop]; rfl) ?_
      simp [hrank, Pc.rank]
    | false =>
      refine closer_of_advance false nofun (by simp [advance, hpc, pushStep, hstop]; rfl) ?_
      rw [hrank]
      cases decide (s.Full cfg) <;> simp [Pc.rank]
  case pushLoadPos item =>
    refine closer_of_advance false nofun (by simp [advance, hpc, pushStep]; rfl) ?_
    rw [hrank]
    cases decide (s.Full cfg) <;> simp [Pc.rank]
  case pushLoadSeq item pos =>
    cases hk
    rcases h.room_or_full with hroom | hends
    · have hseq := h.seq_enqueue (by rw [hpc]; rfl) hroom
      refine closer_of_advance false nofun (by simp [advance, hpc, pushStep, hseq]; rfl) ?_
      simp [hrank, hfull, hroom.ne, Pc.rank]
    · have hseq := h.seq_enqueue_full hp (by rw [hpc]; rfl) hends
      have hne : ((s.dequeuePos + 1 : Nat) : Int) - (s.enqueuePos : Int) ≠ 0 := by omega
      have hneg : ((s.dequeuePos + 1 : Nat) : Int) - (s.enqueuePos : Int) < 0 := by omega
      cases hpolicy : cfg.policy with
      | dropNew =>
        refine closer_of_advance false nofun (m := s) (c := .pushDropped) ?_
          (by simp [hrank, hfull, hends, Pc.rank])
        simp only [advance, hpc, pushStep, hseq, hne, hneg, hpolicy, if_false, if_true,
          Option.some_or]
      | dropOldest | block =>
        refine closer_of_advance false nofun (m := s) (c := .evictLoadPos item) ?_
          (by simp [hrank, hfull, hends, Pc.rank])
        simp only [advance, hpc, pushStep, hseq, hne, hneg, hpolicy, if_false, if_true,
          Option.some_or]
  case pushCas item pos =>
    obtain ⟨rfl, -⟩ := hk
    refine closer_of_advance false nofun (by simp [advance, hpc, pushStep]; rfl) ?_
    simp [hrank, Pc.rank]
  case pushReload item => exact hk.elim
  case evictLoadSeq item pos =>
    obtain ⟨-, hends, rfl⟩ := hk
    have hseq := h.seq_dequeue (by rw [hpc]; rfl) (by rw [hfull] at hends; omega)
    refine closer_of_advance false nofun (by simp [advance, hpc, pushStep, evictStep, hseq]; rfl) ?_
    simp [hrank, Pc.rank]
  case evictCas item pos =>
    obtain ⟨-, -, rfl⟩ := hk
    refine closer_of_advance false nofun (by simp [advance, hpc, pushStep, evictStep]; rfl) ?_
    simp [hrank, Pc.rank]
  case evictDropped item =>
    have hroom : ¬ State.Full cfg { s with dropped := s.dropped + 1 } :=
      fun hends => Nat.ne_of_lt hk (hfull.mp hends)
    refine closer_of_advance false nofun (by simp [advance, hpc, pushStep, evictStep]; rfl) ?_
    simp [hrank, hroom, Pc.rank]
  case popLoadSeq k pos =>
    cases hk
    rcases Nat.lt_or_ge s.dequeuePos s.enqueuePos with hitem | hnone
    · have hseq := h.seq_dequeue (by rw [hpc]; rfl) hitem
      refine closer_of_advance false nofun
        (by simp [advance, hpc, pushStep, evictStep, popStep, hseq]; rfl) ?_
      rw [hrank]
      simp only [Pc.rank]
      omega
    · have hseq := h.seq_dequeue_empty hp (by rw [hpc]; rfl) (Nat.le_antisymm hnone h.le.1)
      refine closer_of_advance false nofun
        (by simp [advance, hpc, pushStep, evictStep, popStep, hseq]; rfl) ?_
      rw [hrank]
      cases k <;> simp only [PopCaller.onEmpty, Pc.rank, PopCaller.far] <;> omega
  case popCas k pos =>
    obtain ⟨rfl, -⟩ := hk
    refine closer_of_advance false nofun
      (by simp [advance, hpc, pushStep, evictStep, popStep]; rfl) ?_
    simp [hrank, Pc.rank]
  case popMove k pos =>
    obtain ⟨v, hv⟩ : ∃ v, s.claims[pos]? = some v :=
      ⟨_, getElem?_eq_getElem (h.payload hpc).2⟩
    have hdata := (h.payload hpc).1.trans hv
    refine closer_of_advance false nofun
      (by simp [advance, hpc, pushStep, evictStep, popStep, hdata]; rfl) ?_
    simp [hrank, Pc.rank]
  case waitCheck timed =>
    cases hstop : s.stopped with
    | true | false =>
      refine closer_of_advance false nofun
        (by simp [advance, hpc, pushStep, evictStep, popStep, waitStep, hstop]; rfl) ?_
      rw [hrank]
      simp only [Pc.rank, PopCaller.far]
      omega
  case waitAcquire timed =>
    rcases Nat.eq_zero_or_pos s.sem with hzero | hpos
    · -- without a permit a timed wait can only run into its timeout
      cases timed with
      | false => exact absurd ⟨hpc, hzero⟩ hfree
      | true =>
        refine closer_of_advance true (fun _ => by rw [hpc]; rfl)
          (by simp [advance, hpc, pushStep, evictStep, popStep, waitStep]; rfl) ?_
        rw [hrank]
        simp only [Pc.rank, PopCaller.far]
        omega
    · refine closer_of_advance false nofun
        (by simp [advance, hpc, pushStep, evictStep, popStep, waitStep, hpos]; rfl) ?_
      rw [hrank]
      simp only [Pc.rank, PopCaller.far]
      omega
  all_goals
    refine closer_of_advance false nofun
      (by simp [advance, hpc, pushStep, evictStep, popStep, waitStep]; rfl) ?_
    simp [hrank, Pc.rank]

theorem Alone.run (hp : 2 ≤ cfg.slots) (h : Alone cfg s t) (hk : (s.pc t).knows cfg s)
    (hrun : exec (RingImpl.step cfg) s (flags.map fun flag => (t, .go flag)) = some s') :
    Alone cfg s' t ∧ Onward cfg (s.outcome cfg t) (s.pc t).waits t s' := by
  induction flags generalizing s with
  | nil =>
    cases hrun
    exact ⟨h, hk, id, rfl⟩
  | cons flag flags ih =>
    obtain ⟨m, hm, hrest⟩ := exec_cons hrun
    obtain ⟨halone, honward⟩ := h.step hp hk hm
    obtain ⟨halone', honward'⟩ := ih halone honward.knows hrest
    exact ⟨halone', honward'.knows, fun hw => honward.waits (honward'.waits hw),
      honward'.outcome.trans honward.outcome⟩

theorem Alone.ends (hp : 2 ≤ cfg.slots) (h : Alone cfg s t) (hk : (s.pc t).knows cfg s) :
    ∃ (flags : List Bool) (s' : State Tid T),
      (∀ flag ∈ flags, flag = true → (s.pc t).waits = true) ∧
      exec (RingImpl.step cfg) s (flags.map fun flag => (t, .go flag)) = some s' ∧
      ((∃ r, s'.pc t = .idle r) ∨ s'.Parked t) := by
  -- by induction on what is still to do
  induction hn : s.rank cfg t using Nat.strong_induction_on generalizing s with
  | _ n ih =>
    by_cases hend : (∃ r, s.pc t = .idle r) ∨ s.Parked t
    · exact ⟨[], s, nofun, rfl, hend⟩
    · obtain ⟨hbusy, hfree⟩ := not_or.mp hend
      obtain ⟨flag, m, hflag, hm, hlt⟩ := h.progress hp hk (fun r hr => hbusy ⟨r, hr⟩) hfree
      obtain ⟨halone, honward⟩ := h.step hp hk hm
      obtain ⟨flags, s', hflags, hrun, hend'⟩ := ih _ (hn ▸ hlt) halone honward.knows rfl
      refine ⟨flag :: flags, s', ?_, ?_, hend'⟩
      · rintro b (_ | ⟨_, hb⟩)
        · exact hflag
        · exact fun htrue => honward.waits (hflags b hb htrue)
      · rw [map_cons, exec_cons_of_step _ hm]
        exact hrun

omit [DecidableEq Tid] in
theorem State.Parked.outcome (hparked : s.Parked t) (h : Alone cfg s t)
    (hk : (s.pc t).knows cfg s) : s.outcome cfg t = none := by
  rw [hparked.1] at hk
  unfold State.outcome
  rw [hparked.1]
  simp [Pc.foresees, Outcome.takes, h.items_nil hk.1, PopCaller.onNothing, hk.2]

/-! ## Calls one after the other -/

/-- Thread `t` starts a call and performs one access for each flag; `true` lets a weak
compare-exchange fail spuriously. -/
def started (cfg : Config) (s : State Tid T) (t : Tid) (a : Act T) (flags : List Bool) :
    Option (State Tid T) :=
  exec (RingImpl.step cfg) s ((t, a) :: flags.map fun flag => (t, .go flag))

def returned (cfg : Config) (s : State Tid T) (t : Tid) (a : Act T) (flags : List Bool) :
    Option (State Tid T × Ret T) :=
  (started cfg s t a flags).bind fun s' =>
    match s'.pc t with
    | .idle (some r) => some (s', r)
    | _ => none

/-- Nobody is in a call. -/
structure AtEase (cfg : Config) (s : State Tid T) : Prop where
  sighted : Sighted cfg s
  idle : ∀ u, ∃ r, s.pc u = .idle r

omit [DecidableEq Tid] in
theorem atEase_init (hp : 2 ≤ cfg.slots) : AtEase cfg (State.init : State Tid T) :=
  ⟨sighted_init hp, fun _ => ⟨none, rfl⟩⟩

omit [DecidableEq Tid] in
theorem AtEase.size_eq (h : AtEase cfg s) : s.size = s.fifo.items.length := by
  have hle : s.dequeuePos ≤ s.enqueuePos := h.sighted.inv.head_le
  have hlen : s.claims.length = s.enqueuePos := h.sighted.inv.put_length
  rw [State.fifo, length_drop, hlen, State.size, if_pos hle]

theorem call_of_idle {r : Option (Ret T)} (hidle : s.pc t = .idle r) (c : Pc T) :
    s.call t c = some (s.setPc t c) := by
  simp [State.call, hidle]

theorem AtEase.alone (hp : 2 ≤ cfg.slots) (h : AtEase cfg s)
    (hstart : RingImpl.step cfg s (t, a) = some (s.setPc t c)) : Alone cfg (s.setPc t c) t := by
  refine ⟨h.sighted.step hp hstart, fun u hu => ?_⟩
  obtain ⟨r, hr⟩ := h.idle u
  exact ⟨r, by simpa [State.setPc, hu] using hr⟩

theorem AtEase.run (hp : 2 ≤ cfg.slots) (h : AtEase cfg s)
    (hstart : RingImpl.step cfg s (t, a) = some (s.setPc t c)) (hk : c.knows cfg s)
    (hstarted : started cfg s t a flags = some m) :
    Alone cfg m t ∧ Onward cfg (c.foresees cfg s) c.waits t m := by
  have honward : Onward cfg (c.foresees cfg s) c.waits t (s.setPc t c) := onward_setPc hk id rfl
  rw [started, exec_cons_of_step _ hstart] at hstarted
  obtain ⟨halone, honward'⟩ := (h.alone hp hstart).run hp honward.knows hstarted
  exact ⟨halone, honward'.knows, fun hw => honward.waits (honward'.waits hw),
    honward'.outcome.trans honward.outcome⟩

theorem AtEase.of_returned (hp : 2 ≤ cfg.slots) (h : AtEase cfg s)
    (hstart : RingImpl.step cfg s (t, a) = some (s.setPc t c)) (hk : c.knows cfg s) {r : Ret T}
    (hret : returned cfg s t a flags = some (s', r)) :
    AtEase cfg s' ∧ c.foresees cfg s = some ⟨s'.fifo, s'.stopped, r⟩ := by
  obtain ⟨m, hstarted, hdone⟩ := Option.bind_eq_some_iff.mp hret
  obtain ⟨halone, honward⟩ := h.run hp hstart hk hstarted
  split at hdone <;> cases hdone
  rename_i hidle
  refine ⟨⟨halone.sighted, fun u => ?_⟩, ?_⟩
  · by_cases hut : u = t
    · exact ⟨some r, hut ▸ hidle⟩
    · exact halone.others u hut
  · rw [← honward.outcome, State.outcome, hidle]
    rfl

/-- Wherever it is in its accesses, a call that comes to something can be brought to its return,
and one that comes to nothing to where it parks. -/
theorem AtEase.ends (hp : 2 ≤ cfg.slots) (h : AtEase cfg s)
    (hstart : RingImpl.step cfg s (t, a) = some (s.setPc t c)) (hk : c.knows cfg s)
    (hstarted : started cfg s t a flags = some m) :
    ∃ more, (∀ flag ∈ more, flag = true → c.waits = true) ∧
      ((returned cfg s t a (flags ++ more)).isSome ∧ c.foresees cfg s ≠ none ∨
        c.foresees cfg s = none ∧
          ∃ m', started cfg s t a (flags ++ more) = some m' ∧ m'.Parked t) := by
  obtain ⟨halone, honward⟩ := h.run hp hstart hk hstarted
  obtain ⟨more, s', hflags, hmore, hend⟩ := halone.ends hp honward.knows
  have hall : started cfg s t a (flags ++ more) = some s' := by
    rw [started, map_append, ← cons_append, exec_append]
    exact (congrArg (Option.bind · _) hstarted).trans hmore
  obtain ⟨halone', honward'⟩ := h.run hp hstart hk hall
  refine ⟨more, fun flag hmem htrue => honward.waits (hflags flag hmem htrue), ?_⟩
  rcases hend with ⟨r, hidle⟩ | hparked
  · have hknows := honward'.knows
    rw [hidle] at hknows
    obtain ⟨r, rfl⟩ := Option.isSome_iff_exists.mp hknows
    refine .inl ⟨by simp [returned, hall, hidle], ?_⟩
    rw [← honward'.outcome, State.outcome, hidle]
    nofun
  · exact .inr ⟨honward'.outcome ▸ hparked.outcome halone' honward'.knows, s', hall, hparked⟩

/-! ## Sequential sessions -/

/-- Nobody is in a call, and the queue, not stopped, holds `q`. -/
structure Holds (cfg : Config) (s : State Tid T) (q : Fifo T) : Prop where
  ease : AtEase cfg s
  running : s.stopped = false
  fifo : s.fifo = q

omit [DecidableEq Tid] in
theorem Holds.size_eq (h : Holds cfg s q) : s.size = q.items.length := by
  rw [h.ease.size_eq, h.fifo]

/-- **One call.** Started at rest, whatever compare-exchanges fail spuriously, it can only return
its outcome; and once they stop failing it does return. -/
theorem Holds.call (hp : 2 ≤ cfg.slots) (h : Holds cfg s q) {r : Ret T}
    (hstart : RingImpl.step cfg s (t, a) = some (s.setPc t c)) (hk : c.knows cfg s)
    (hwaits : c.waits = false) {q' : Fifo T} (ho : c.foresees cfg s = some ⟨q', false, r⟩)
    (flags : List Bool) :
    (∀ s' r', returned cfg s t a flags = some (s', r') → Holds cfg s' q' ∧ r' = r) ∧
    ∀ m, started cfg s t a flags = some m →
      ∃ n, (returned cfg s t a (flags ++ List.replicate n false)).isSome := by
  constructor
  · intro s' r' hret
    obtain ⟨hease, hout⟩ := h.ease.of_returned hp hstart hk hret
    obtain ⟨hfifo, hstop, hr⟩ := Outcome.mk.inj (Option.some.inj (ho.symm.trans hout))
    exact ⟨⟨hease, hstop.symm, hfifo.symm⟩, hr.symm⟩
  · intro m hm
    obtain ⟨more, hflags, hend⟩ := h.ease.ends hp hstart hk hm
    have hmore : more = List.replicate more.length false := by
      refine eq_replicate_of_mem fun flag hmem => ?_
      cases flag with
      | false => rfl
      | true => exact absurd (hflags true hmem rfl) (by simp [hwaits])
    rcases hend with ⟨hret, -⟩ | ⟨hnone, -⟩
    · exact ⟨more.length, hmore ▸ hret⟩
    · rw [ho] at hnone
      cases hnone

theorem Holds.push (hp : 2 ≤ cfg.slots) (h : Holds cfg s q) (t : Tid) (item : T)
    (flags : List Bool) :
    (∀ s' r, returned cfg s t (.push item) flags = some (s', r) →
      Holds cfg s' (q.push cfg.policy cfg.slots item).1 ∧
        r = .pushed (q.push cfg.policy cfg.slots item).2) ∧
    ∀ m, started cfg s t (.push item) flags = some m →
      ∃ n, (returned cfg s t (.push item) (flags ++ List.replicate n false)).isSome := by
  obtain ⟨ret, hidle⟩ := h.ease.idle t
  have hstart : RingImpl.step cfg s (t, .push item) = some (s.setPc t (.pushCheck item)) :=
    call_of_idle hidle _
  refine h.call hp hstart trivial rfl ?_ flags
  simp only [Pc.foresees, h.running, ← h.fifo]
  rfl

theorem Holds.tryPop (hp : 2 ≤ cfg.slots) (h : Holds cfg s q) (t : Tid) (flags : List Bool) :
    (∀ s' r, returned cfg s t .tryPop flags = some (s', r) →
      Holds cfg s' q.tryPop.1 ∧ r = .popped q.tryPop.2) ∧
    ∀ m, started cfg s t .tryPop flags = some m →
      ∃ n, (returned cfg s t .tryPop (flags ++ List.replicate n false)).isSome := by
  obtain ⟨ret, hidle⟩ := h.ease.idle t
  have hstart : RingImpl.step cfg s (t, .tryPop) = some (s.setPc t (.popLoadPos .tryPop)) :=
    call_of_idle hidle _
  refine h.call hp hstart trivial rfl ?_ flags
  simp only [Pc.foresees, h.running, Outcome.takes, Fifo.tryPop, ← h.fifo, State.fifo]
  cases s.claims.drop s.dequeuePos <;> rfl

end

end

end RingImpl

/-! ## The queue -/

namespace BoundedQueue

open RingImpl Muses.Core

variable {Tid T : Type*} [DecidableEq Tid]

def capacity (requested : Nat) : Nat := if requested = 0 then 1 else requested

def ring (requested : Nat) (policy : OverflowPolicy) : RingImpl.Config :=
  ⟨capacity requested, policy⟩

def perform (cfg : RingImpl.Config) (s : RingImpl.State Tid T) (t : Tid) (flags : List Bool) :
    QueueCall T → Option (RingImpl.State Tid T × QueueReply T)
  | .push item =>
      match returned cfg s t (.push item) flags with
      | some (s', .pushed ok) => some (s', .pushed ok)
      | _ => none
  | .tryPop =>
      match returned cfg s t .tryPop flags with
      | some (s', .popped out) => some (s', .popped out)
      | _ => none
  | .size => some (s, .count s.size)
  | .dropped => some (s, .count s.dropped)

def session (cfg : RingImpl.Config) :
    RingImpl.State Tid T → List (Tid × QueueCall T × List Bool) →
      Option (RingImpl.State Tid T × List (QueueReply T)) :=
  Core.session fun s e => perform cfg s e.1 e.2.2 e.2.1

variable {cfg : RingImpl.Config} {s s' : RingImpl.State Tid T} {t : Tid}

omit [DecidableEq Tid] in
theorem holds_init (hp : 2 ≤ cfg.slots) :
    Holds cfg (State.init : RingImpl.State Tid T) (⟨[], 0⟩ : Fifo T) :=
  ⟨atEase_init hp, rfl, rfl⟩

theorem perform_answers (hp : 2 ≤ cfg.slots) {q : Fifo T} (h : Holds cfg s q)
    {flags : List Bool} {c : QueueCall T} {r : QueueReply T}
    (hperform : perform cfg s t flags c = some (s', r)) :
    Holds cfg s' (q.answer cfg.policy cfg.slots c).1 ∧
      r = (q.answer cfg.policy cfg.slots c).2 := by
  cases c with
  | push item =>
    simp only [perform] at hperform
    split at hperform <;> cases hperform
    rename_i ok hret
    obtain ⟨hholds, hok⟩ := (h.push hp t item flags).1 s' _ hret
    cases hok
    exact ⟨hholds, rfl⟩
  | tryPop =>
    simp only [perform] at hperform
    split at hperform <;> cases hperform
    rename_i out hret
    obtain ⟨hholds, hout⟩ := (h.tryPop hp t flags).1 s' _ hret
    cases hout
    exact ⟨hholds, rfl⟩
  | size =>
    cases hperform
    exact ⟨h, by rw [h.size_eq]; rfl⟩
  | dropped =>
    cases hperform
    exact ⟨h, by rw [← h.fifo]; rfl⟩

theorem session_answers (hp : 2 ≤ cfg.slots) {q : Fifo T} (h : Holds cfg s q)
    {calls : List (Tid × QueueCall T × List Bool)} {replies : List (QueueReply T)}
    (hrun : session cfg s calls = some (s', replies)) :
    Holds cfg s' (q.answers cfg.policy cfg.slots (calls.map fun c => c.2.1)).1 ∧
      replies = (q.answers cfg.policy cfg.slots (calls.map fun c => c.2.1)).2 := by
  induction calls generalizing s q replies with
  | nil =>
    cases hrun
    exact ⟨h, rfl⟩
  | cons c rest ih =>
    obtain ⟨m, r, rs, hm, hrest, rfl⟩ := session_cons hrun
    obtain ⟨hholds, hr⟩ := perform_answers hp h hm
    obtain ⟨hend, hrs⟩ := ih hholds hrest
    exact ⟨hend, by rw [hr, hrs]; rfl⟩

theorem slots_of_pow {requested : Nat} (policy : OverflowPolicy)
    (hpow : ∃ k, requested = 2 ^ (k + 1)) :
    (ring requested policy).slots = capacity requested ∧ 2 ≤ (ring requested policy).slots := by
  obtain ⟨k, hk⟩ := hpow
  have hpos : 0 < 2 ^ k := Nat.two_pow_pos k
  have hcap : capacity requested = 2 ^ (k + 1) := by
    rw [capacity, if_neg (by rw [hk, pow_succ]; omega), hk]
  have hslots : (ring requested policy).slots = capacity requested :=
    Config.slots_eq_capacity (show (ring requested policy).capacity = 2 ^ (k + 1) from hcap)
  refine ⟨hslots, ?_⟩
  rw [hslots, hcap, pow_succ]
  omega

/-- **A bounded queue with a ring is a bounded FIFO**, when the requested capacity is a power of
two from two on. In every sequential session the replies are those of a FIFO of `capacity()` items;
it never holds more; and every further call returns, once the weak compare-exchanges stop failing
spuriously. -/
theorem bounded_queue_is_fifo {requested : Nat} (hpow : ∃ k, requested = 2 ^ (k + 1))
    {policy : OverflowPolicy} {calls : List (Tid × QueueCall T × List Bool)}
    {replies : List (QueueReply T)}
    (hrun : session (ring requested policy) State.init calls = some (s, replies)) :
    let fifo := Fifo.answers policy (capacity requested) ⟨[], 0⟩ (calls.map fun c => c.2.1)
    replies = fifo.2 ∧ s.size = fifo.1.items.length ∧
      fifo.1.items.length ≤ capacity requested ∧
      ∀ t a, (a = .tryPop ∨ ∃ item, a = .push item) → ∀ flags m,
        started (ring requested policy) s t a flags = some m →
          ∃ n, (returned (ring requested policy) s t a
            (flags ++ List.replicate n false)).isSome := by
  obtain ⟨hslots, hp⟩ := slots_of_pow policy hpow
  obtain ⟨hholds, hreplies⟩ := session_answers hp (holds_init hp) hrun
  rw [hslots] at hholds hreplies
  refine ⟨hreplies, hholds.size_eq, Fifo.length_answers_le (by omega) (Nat.zero_le _) _, ?_⟩
  rintro t a (rfl | ⟨item, rfl⟩) flags m hm
  · exact (hholds.tryPop hp t flags).2 m hm
  · exact (hholds.push hp t item flags).2 m hm

def pushCall (item : Nat) : Unit × QueueCall Nat × List Bool :=
  ((), .push item, List.replicate 7 false)

theorem bounded_queue_is_fifo_two :
    ∃ s replies,
      session (ring 2 .dropOldest) State.init
        [pushCall 1, pushCall 2, ((), .push 3, List.replicate 15 false),
          ((), .tryPop, List.replicate 6 false)] = some (s, replies) ∧
      replies = [.pushed true, .pushed true, .pushed true, .popped (some 2)] ∧
      s.size ≤ capacity 2 := by
  have hall {s : RingImpl.State Unit Nat} {replies : List (QueueReply Nat)}
      (hrun : session (ring 2 .dropOldest) State.init
        [pushCall 1, pushCall 2, ((), .push 3, List.replicate 15 false),
          ((), .tryPop, List.replicate 6 false)] = some (s, replies)) :=
    bounded_queue_is_fifo ⟨0, rfl⟩ hrun
  exact ⟨_, _, rfl, (hall rfl).1, (hall rfl).2.1.trans_le (hall rfl).2.2.1⟩

/-! ### Sizes that are not powers of two, and size one -/

/-- `t` is in `try_pop`, and the slot it looks at is a lap ahead. -/
structure Overrun (cfg : RingImpl.Config) (s : RingImpl.State Tid T) (t : Tid) : Prop where
  lap : s.dequeuePos + 1 < (s.ring (s.dequeuePos &&& cfg.mask)).sequence
  pc : s.pc t = .popLoadPos .tryPop ∨ s.pc t = .popLoadSeq .tryPop s.dequeuePos

theorem Overrun.step (h : Overrun cfg s t) {flag : Bool}
    (hstep : RingImpl.step cfg s (t, .go flag) = some s') : Overrun cfg s' t := by
  have hlap := h.lap
  rcases h.pc with hpc | hpc
  · simp only [RingImpl.step, advance, hpc, pushStep, evictStep, popStep, Option.none_or,
      Option.some_or, Option.some.injEq] at hstep
    subst hstep
    exact ⟨hlap, Or.inr (by simp [State.setPc])⟩
  · have hpos : ¬ (((s.ring (s.dequeuePos &&& cfg.mask)).sequence : Int) -
        ((s.dequeuePos + 1 : Nat) : Int) = 0) := by omega
    have hneg : ¬ (((s.ring (s.dequeuePos &&& cfg.mask)).sequence : Int) -
        ((s.dequeuePos + 1 : Nat) : Int) < 0) := by omega
    simp only [RingImpl.step, advance, hpc, pushStep, evictStep, popStep, hpos, hneg, if_false,
      Option.none_or, Option.some_or, Option.some.injEq] at hstep
    subst hstep
    exact ⟨hlap, Or.inl (by simp [State.setPc])⟩

theorem Overrun.busy (h : Overrun cfg s t) {flags : List Bool}
    (hrun : exec (RingImpl.step cfg) s (flags.map fun flag => (t, .go flag)) = some s') :
    ∀ r, s'.pc t ≠ .idle r := by
  induction flags generalizing s with
  | nil =>
    cases hrun
    intro r hr
    rcases h.pc with hpc | hpc <;> rw [hpc] at hr <;> cases hr
  | cons flag flags ih =>
    obtain ⟨m, hm, hrest⟩ := exec_cons hrun
    exact ih (h.step hm) hrest

theorem Overrun.returned_none {m : RingImpl.State Tid T}
    (hstart : RingImpl.step cfg s (t, .tryPop) = some m) (h : Overrun cfg m t)
    (flags : List Bool) : returned cfg s t .tryPop flags = none := by
  rw [returned, started, exec_cons_of_step _ hstart]
  cases hrun : exec (RingImpl.step cfg) m (flags.map fun flag => (t, .go flag)) with
  | none => rfl
  | some s' =>
    have hbusy := h.busy hrun
    simp only [Option.bind_some]
    split
    · rename_i r hr
      exact absurd hr (hbusy _)
    · rfl

/-- A queue of capacity three takes four items. A queue of capacity one takes a second item in the
first one's place, and the next `try_pop` does not return, however many accesses it makes. -/
theorem capacity_not_honoured :
    (∃ s : RingImpl.State Unit Nat,
      session (ring 3 .dropNew) State.init
        [pushCall 1, pushCall 2, pushCall 3, pushCall 4, ((), .size, [])] =
        some (s, [.pushed true, .pushed true, .pushed true, .pushed true, .count 4]) ∧
      capacity 3 = 3) ∧
    ∃ s : RingImpl.State Unit Nat,
      session (ring 1 .dropNew) State.init [pushCall 1, pushCall 2] =
        some (s, [.pushed true, .pushed true]) ∧
      capacity 1 = 1 ∧ ∀ flags, returned (ring 1 .dropNew) s () .tryPop flags = none := by
  refine ⟨⟨_, rfl, rfl⟩, _, rfl, rfl, ?_⟩
  -- the cell of position 0 carries the number of the second lap
  exact Overrun.returned_none rfl ⟨by decide, Or.inl rfl⟩

end BoundedQueue

end Muses
