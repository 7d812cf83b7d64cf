import Muses.Core.Run

/-!
# `BoundedQueue::RingImpl` — the lock-free ring

The DropNew / DropOldest half of `muses/bounded_queue.hpp`, at the granularity of its individual
atomic accesses: every cursor load, sequence load, compare-exchange, payload access, sequence
store and semaphore operation is one step of one thread, and any thread may take the next step.
Atomics are sequentially consistent and the cursors do not wrap, so positions are naturals.

* `Pc` — where a thread stands inside `push`, `evict_one`, `try_pop`, `wait_pop` or `stop`;
* `State` — the cells, the two cursors, the counters and the program counters. The last three
  fields are history: the code never reads them.
-/

namespace Muses

open Function

inductive OverflowPolicy where
  | dropNew
  | dropOldest
  | block
  deriving DecidableEq, Repr

namespace RingImpl

structure Cell (T : Type*) where
  sequence : Nat
  data : Option T
  deriving DecidableEq, Repr

structure Config where
  capacity : Nat
  policy : OverflowPolicy
  deriving DecidableEq, Repr

/-- `while (p < cap) p <<= 1;` — `fuel` bounds the number of doublings, and `cap` of them are
always enough. -/
def growTo (cap : Nat) : Nat → Nat → Nat
  | 0, p => p
  | fuel + 1, p => if p < cap then growTo cap fuel (p <<< 1) else p

def Config.slots (cfg : Config) : Nat := growTo cfg.capacity cfg.capacity 1

def Config.mask (cfg : Config) : Nat := cfg.slots - 1

inductive Ret (T : Type*) where
  | pushed (ok : Bool)
  | popped (out : Option T)
  | stopped
  deriving DecidableEq, Repr

/-- Which of the `try_pop` calls of the source is running: the public one, the first attempt of
`wait_pop`, an attempt after the semaphore was acquired, or the final attempt. -/
inductive PopCaller where
  | tryPop
  | waitFirst (timed : Bool)
  | waitAgain (timed : Bool)
  | waitLast
  deriving DecidableEq, Repr

/-- Where a thread is: before which atomic operation of which call. -/
inductive Pc (T : Type*) where
  | idle (ret : Option (Ret T))
  | pushCheck (item : T)
  | pushLoadPos (item : T)
  | pushLoadSeq (item : T) (pos : Nat)
  | pushCas (item : T) (pos : Nat)
  | pushEmplace (item : T) (pos : Nat)
  | pushStore (pos : Nat)
  | pushRelease
  | pushDropped
  | pushReload (item : T)
  | evictLoadPos (item : T)
  | evictLoadSeq (item : T) (pos : Nat)
  | evictCas (item : T) (pos : Nat)
  | evictReset (item : T) (pos : Nat)
  | evictStore (item : T) (pos : Nat)
  | evictDropped (item : T)
  | popLoadPos (k : PopCaller)
  | popLoadSeq (k : PopCaller) (pos : Nat)
  | popCas (k : PopCaller) (pos : Nat)
  | popMove (k : PopCaller) (pos : Nat)
  | popReset (k : PopCaller) (pos : Nat) (out : T)
  | popStore (k : PopCaller) (pos : Nat) (out : T)
  | waitCheck (timed : Bool)
  | waitAcquire (timed : Bool)
  | stopStore
  | stopRelease
  deriving DecidableEq, Repr

inductive Departure where
  | popped
  | evicted
  deriving DecidableEq, Repr

structure State (Tid T : Type*) where
  ring : Nat → Cell T
  enqueuePos : Nat
  dequeuePos : Nat
  dropped : Nat
  stopped : Bool
  sem : Nat
  pc : Tid → Pc T
  /-- history: the items of the successful enqueue claims, in the order of their positions -/
  claims : List T
  /-- history: the successful dequeue claims -/
  departures : List (Nat × Departure)
  /-- history: what `try_pop` moved out, and from which position -/
  handed : List (Nat × T)

/-- The constructed ring: cell `i` carries the sequence number `i`. -/
def State.init {Tid T : Type*} : State Tid T where
  ring := fun i => ⟨i, none⟩
  enqueuePos := 0
  dequeuePos := 0
  dropped := 0
  stopped := false
  sem := 0
  pc := fun _ => .idle none
  claims := []
  departures := []
  handed := []

/-- What a thread may be asked to do: start a call, or perform the next atomic access of the call
it is in. `go true` lets a weak compare-exchange fail although the value matches, or a timed
acquire run into its timeout. -/
inductive Act (T : Type*) where
  | push (item : T)
  | tryPop
  | waitPop (timed : Bool)
  | stop
  | go (flag : Bool)
  deriving DecidableEq, Repr

section

variable {Tid T : Type*} [DecidableEq Tid]

def State.setPc (s : State Tid T) (t : Tid) (c : Pc T) : State Tid T :=
  { s with pc := update s.pc t c }

def State.storeSeq (s : State Tid T) (i n : Nat) : State Tid T :=
  { s with ring := update s.ring i { s.ring i with sequence := n } }

def State.storeData (s : State Tid T) (i : Nat) (d : Option T) : State Tid T :=
  { s with ring := update s.ring i { s.ring i with data := d } }

def PopCaller.onEmpty : PopCaller → Pc T
  | .tryPop => .idle (some (.popped none))
  | .waitFirst timed => .waitCheck timed
  | .waitAgain timed => .waitCheck timed
  | .waitLast => .idle (some (.popped none))

def stopPermits : Nat := 536870911

def pushStep (cfg : Config) (s : State Tid T) (t : Tid) (flag : Bool) :
    Pc T → Option (State Tid T)
  | .pushCheck item =>
      if s.stopped then some (s.setPc t (.idle (some (.pushed false))))
      else some (s.setPc t (.pushLoadPos item))
  | .pushLoadPos item => some (s.setPc t (.pushLoadSeq item s.enqueuePos))
  | .pushLoadSeq item pos =>
      let diff : Int := ((s.ring (pos &&& cfg.mask)).sequence : Int) - (pos : Int)
      if diff = 0 then some (s.setPc t (.pushCas item pos))
      else if diff < 0 then
        match cfg.policy with
        | .dropNew => some (s.setPc t .pushDropped)
        | _ => some (s.setPc t (.evictLoadPos item))
      else some (s.setPc t (.pushReload item))
  | .pushCas item pos =>
      if s.enqueuePos = pos ∧ flag = false then
        some ({ s with enqueuePos := pos + 1, claims := s.claims ++ [item] }.setPc t
          (.pushEmplace item pos))
      else some (s.setPc t (.pushLoadPos item))
  | .pushEmplace item pos =>
      some ((s.storeData (pos &&& cfg.mask) (some item)).setPc t (.pushStore pos))
  | .pushStore pos => some ((s.storeSeq (pos &&& cfg.mask) (pos + 1)).setPc t .pushRelease)
  | .pushRelease => some ({ s with sem := s.sem + 1 }.setPc t (.idle (some (.pushed true))))
  | .pushDropped =>
      some ({ s with dropped := s.dropped + 1 }.setPc t (.idle (some (.pushed false))))
  | .pushReload item => some (s.setPc t (.pushLoadPos item))
  | _ => none

/-- The next atomic access of thread `t` inside `evict_one`, called by the `push` of `item`. Both
results of `evict_one` send the caller back to the top of its loop. -/
def evictStep (cfg : Config) (s : State Tid T) (t : Tid) (flag : Bool) :
    Pc T → Option (State Tid T)
  | .evictLoadPos item => some (s.setPc t (.evictLoadSeq item s.dequeuePos))
  | .evictLoadSeq item pos =>
      let diff : Int := ((s.ring (pos &&& cfg.mask)).sequence : Int) - ((pos + 1 : Nat) : Int)
      if diff = 0 then some (s.setPc t (.evictCas item pos))
      else if diff < 0 then some (s.setPc t (.pushLoadPos item))
      else some (s.setPc t (.evictLoadPos item))
  | .evictCas item pos =>
      if s.dequeuePos = pos ∧ flag = false then
        some ({ s with dequeuePos := pos + 1,
                       departures := s.departures ++ [(pos, Departure.evicted)] }.setPc t
          (.evictReset item pos))
      else some (s.setPc t (.evictLoadPos item))
  | .evictReset item pos =>
      some ((s.storeData (pos &&& cfg.mask) none).setPc t (.evictStore item pos))
  | .evictStore item pos =>
      some ((s.storeSeq (pos &&& cfg.mask) (pos + cfg.slots)).setPc t (.evictDropped item))
  | .evictDropped item => some ({ s with dropped := s.dropped + 1 }.setPc t (.pushLoadPos item))
  | _ => none

/-- The next atomic access of thread `t` inside `try_pop`. Moving out of an empty cell would be
undefined behaviour; the step is then not enabled, and no run gets there. -/
def popStep (cfg : Config) (s : State Tid T) (t : Tid) (flag : Bool) :
    Pc T → Option (State Tid T)
  | .popLoadPos k => some (s.setPc t (.popLoadSeq k s.dequeuePos))
  | .popLoadSeq k pos =>
      let diff : Int := ((s.ring (pos &&& cfg.mask)).sequence : Int) - ((pos + 1 : Nat) : Int)
      if diff = 0 then some (s.setPc t (.popCas k pos))
      else if diff < 0 then some (s.setPc t k.onEmpty)
      else some (s.setPc t (.popLoadPos k))
  | .popCas k pos =>
      if s.dequeuePos = pos ∧ flag = false then
        some ({ s with dequeuePos := pos + 1,
                       departures := s.departures ++ [(pos, Departure.popped)] }.setPc t
          (.popMove k pos))
      else some (s.setPc t (.popLoadPos k))
  | .popMove k pos =>
      match (s.ring (pos &&& cfg.mask)).data with
      | some v => some ({ s with handed := s.handed ++ [(pos, v)] }.setPc t (.popReset k pos v))
      | none => none
  | .popReset k pos v =>
      some ((s.storeData (pos &&& cfg.mask) none).setPc t (.popStore k pos v))
  | .popStore _ pos v =>
      some ((s.storeSeq (pos &&& cfg.mask) (pos + cfg.slots)).setPc t
        (.idle (some (.popped (some v)))))
  | _ => none

def waitStep (s : State Tid T) (t : Tid) (flag : Bool) : Pc T → Option (State Tid T)
  | .waitCheck timed =>
      if s.stopped then some (s.setPc t (.popLoadPos .waitLast))
      else some (s.setPc t (.waitAcquire timed))
  | .waitAcquire timed =>
      if timed && flag then some (s.setPc t (.popLoadPos .waitLast))
      else if 0 < s.sem then
        some ({ s with sem := s.sem - 1 }.setPc t (.popLoadPos (.waitAgain timed)))
      else none
  | .stopStore => some ({ s with stopped := true }.setPc t .stopRelease)
  | .stopRelease => some ({ s with sem := s.sem + stopPermits }.setPc t (.idle (some .stopped)))
  | _ => none

def advance (cfg : Config) (s : State Tid T) (t : Tid) (flag : Bool) : Option (State Tid T) :=
  (pushStep cfg s t flag (s.pc t)).or <| (evictStep cfg s t flag (s.pc t)).or <|
    (popStep cfg s t flag (s.pc t)).or (waitStep s t flag (s.pc t))

def State.call (s : State Tid T) (t : Tid) (c : Pc T) : Option (State Tid T) :=
  match s.pc t with
  | .idle _ => some (s.setPc t c)
  | _ => none

/-- A thread begins a call, or does the next atomic operation of the one it is in. -/
def step (cfg : Config) (s : State Tid T) (l : Tid × Act T) : Option (State Tid T) :=
  match l.2 with
  | .push item => s.call l.1 (.pushCheck item)
  | .tryPop => s.call l.1 (.popLoadPos .tryPop)
  | .waitPop timed => s.call l.1 (.popLoadPos (.waitFirst timed))
  | .stop => s.call l.1 .stopStore
  | .go flag => advance cfg s l.1 flag

/-! ## One step, by what it does -/

/-- What a thread at a program counter can do when it is asked to: the next program counter, and the
state apart from that. -/
inductive Performs (cfg : Config) (s : State Tid T) : Act T → Pc T → Pc T → State Tid T → Prop where
  | callPush {r item} : Performs cfg s (.push item) (.idle r) (.pushCheck item) s
  | callTryPop {r} : Performs cfg s .tryPop (.idle r) (.popLoadPos .tryPop) s
  | callWaitPop {r timed} :
      Performs cfg s (.waitPop timed) (.idle r) (.popLoadPos (.waitFirst timed)) s
  | callStop {r} : Performs cfg s .stop (.idle r) .stopStore s
  | refuse {flag item} (hstop : s.stopped = true) :
      Performs cfg s (.go flag) (.pushCheck item) (.idle (some (.pushed false))) s
  | enter {flag item} : Performs cfg s (.go flag) (.pushCheck item) (.pushLoadPos item) s
  | pushLoad {flag item} :
      Performs cfg s (.go flag) (.pushLoadPos item) (.pushLoadSeq item s.enqueuePos) s
  | pushSee {flag item pos} (hseq : (s.ring (pos &&& cfg.mask)).sequence = pos) :
      Performs cfg s (.go flag) (.pushLoadSeq item pos) (.pushCas item pos) s
  | overflow {flag item pos} (hseq : (s.ring (pos &&& cfg.mask)).sequence < pos)
      (hpolicy : cfg.policy = .dropNew) :
      Performs cfg s (.go flag) (.pushLoadSeq item pos) .pushDropped s
  | makeRoom {flag item pos} (hseq : (s.ring (pos &&& cfg.mask)).sequence < pos) :
      Performs cfg s (.go flag) (.pushLoadSeq item pos) (.evictLoadPos item) s
  | pushLate {flag item pos} :
      Performs cfg s (.go flag) (.pushLoadSeq item pos) (.pushReload item) s
  | pushReload {flag item} : Performs cfg s (.go flag) (.pushReload item) (.pushLoadPos item) s
  | claimPut {flag item} :
      Performs cfg s (.go flag) (.pushCas item s.enqueuePos) (.pushEmplace item s.enqueuePos)
        { s with enqueuePos := s.enqueuePos + 1, claims := s.claims ++ [item] }
  | pushLose {flag item pos} : Performs cfg s (.go flag) (.pushCas item pos) (.pushLoadPos item) s
  | emplace {flag item pos} :
      Performs cfg s (.go flag) (.pushEmplace item pos) (.pushStore pos)
        (s.storeData (pos &&& cfg.mask) (some item))
  | publish {flag pos} :
      Performs cfg s (.go flag) (.pushStore pos) .pushRelease
        (s.storeSeq (pos &&& cfg.mask) (pos + 1))
  | release {flag} :
      Performs cfg s (.go flag) .pushRelease (.idle (some (.pushed true)))
        { s with sem := s.sem + 1 }
  | drop {flag} :
      Performs cfg s (.go flag) .pushDropped (.idle (some (.pushed false)))
        { s with dropped := s.dropped + 1 }
  | evictLoad {flag item} :
      Performs cfg s (.go flag) (.evictLoadPos item) (.evictLoadSeq item s.dequeuePos) s
  | evictSee {flag item pos} (hseq : (s.ring (pos &&& cfg.mask)).sequence = pos + 1) :
      Performs cfg s (.go flag) (.evictLoadSeq item pos) (.evictCas item pos) s
  | evictNone {flag item pos} :
      Performs cfg s (.go flag) (.evictLoadSeq item pos) (.pushLoadPos item) s
  | evictLate {flag item pos} :
      Performs cfg s (.go flag) (.evictLoadSeq item pos) (.evictLoadPos item) s
  | evictClaim {flag item} :
      Performs cfg s (.go flag) (.evictCas item s.dequeuePos) (.evictReset item s.dequeuePos)
        { s with dequeuePos := s.dequeuePos + 1,
                 departures := s.departures ++ [(s.dequeuePos, .evicted)] }
  | evictLose {flag item pos} :
      Performs cfg s (.go flag) (.evictCas item pos) (.evictLoadPos item) s
  | evictReset {flag item pos} :
      Performs cfg s (.go flag) (.evictReset item pos) (.evictStore item pos)
        (s.storeData (pos &&& cfg.mask) none)
  | evictStore {flag item pos} :
      Performs cfg s (.go flag) (.evictStore item pos) (.evictDropped item)
        (s.storeSeq (pos &&& cfg.mask) (pos + cfg.slots))
  | evictDrop {flag item} :
      Performs cfg s (.go flag) (.evictDropped item) (.pushLoadPos item)
        { s with dropped := s.dropped + 1 }
  | popLoad {flag k} : Performs cfg s (.go flag) (.popLoadPos k) (.popLoadSeq k s.dequeuePos) s
  | popSee {flag k pos} (hseq : (s.ring (pos &&& cfg.mask)).sequence = pos + 1) :
      Performs cfg s (.go flag) (.popLoadSeq k pos) (.popCas k pos) s
  | popNone {flag k pos} (hseq : (s.ring (pos &&& cfg.mask)).sequence < pos + 1) :
      Performs cfg s (.go flag) (.popLoadSeq k pos) k.onEmpty s
  | popLate {flag k pos} : Performs cfg s (.go flag) (.popLoadSeq k pos) (.popLoadPos k) s
  | popClaim {flag k} :
      Performs cfg s (.go flag) (.popCas k s.dequeuePos) (.popMove k s.dequeuePos)
        { s with dequeuePos := s.dequeuePos + 1,
                 departures := s.departures ++ [(s.dequeuePos, .popped)] }
  | popLose {flag k pos} : Performs cfg s (.go flag) (.popCas k pos) (.popLoadPos k) s
  | popMove {flag k pos v} (hdata : (s.ring (pos &&& cfg.mask)).data = some v) :
      Performs cfg s (.go flag) (.popMove k pos) (.popReset k pos v)
        { s with handed := s.handed ++ [(pos, v)] }
  | popReset {flag k pos v} :
      Performs cfg s (.go flag) (.popReset k pos v) (.popStore k pos v)
        (s.storeData (pos &&& cfg.mask) none)
  | popStore {flag k pos v} :
      Performs cfg s (.go flag) (.popStore k pos v) (.idle (some (.popped (some v))))
        (s.storeSeq (pos &&& cfg.mask) (pos + cfg.slots))
  | waitEnd {flag timed} : Performs cfg s (.go flag) (.waitCheck timed) (.popLoadPos .waitLast) s
  | waitOn {flag timed} : Performs cfg s (.go flag) (.waitCheck timed) (.waitAcquire timed) s
  | timeout {flag timed} : Performs cfg s (.go flag) (.waitAcquire timed) (.popLoadPos .waitLast) s
  | acquire {flag timed} (hsem : 0 < s.sem) :
      Performs cfg s (.go flag) (.waitAcquire timed) (.popLoadPos (.waitAgain timed))
        { s with sem := s.sem - 1 }
  | stop {flag} : Performs cfg s (.go flag) .stopStore .stopRelease { s with stopped := true }
  | stopRelease {flag} :
      Performs cfg s (.go flag) .stopRelease (.idle (some .stopped))
        { s with sem := s.sem + stopPermits }

/-- **Every step is one of these.** -/
theorem step_performs {cfg : Config} {s s' : State Tid T} {t : Tid} {a : Act T}
    (h : step cfg s (t, a) = some s') :
    ∃ c m, Performs cfg s a (s.pc t) c m ∧ s' = m.setPc t c := by
  have hcall {c : Pc T} (h : s.call t c = some s') (hidle : ∀ r, Performs cfg s a (.idle r) c s) :
      ∃ c m, Performs cfg s a (s.pc t) c m ∧ s' = m.setPc t c := by
    unfold State.call at h
    split at h
    · next r hpc =>
      cases h
      exact ⟨c, s, hpc ▸ hidle r, rfl⟩
    · cases h
  cases a with
  | push item => exact hcall h fun _ => .callPush
  | tryPop => exact hcall h fun _ => .callTryPop
  | waitPop timed => exact hcall h fun _ => .callWaitPop
  | stop => exact hcall h fun _ => .callStop
  | go flag =>
    simp only [step, advance, Option.or_eq_some_iff] at h
    rcases h with h | ⟨-, h | ⟨-, h | ⟨-, h⟩⟩⟩
    · cases hpc : s.pc t <;> simp only [hpc, pushStep, reduceCtorEq] at h
      case pushCas item pos =>
        split at h
        · next hcas =>
          obtain ⟨rfl, -⟩ := hcas
          cases h
          exact ⟨_, _, .claimPut, rfl⟩
        · cases h
          exact ⟨_, _, .pushLose, rfl⟩
      all_goals
        repeat' split at h
        all_goals
          cases h
          refine ⟨_, _, ?_, rfl⟩
          constructor <;> first | assumption | omega
    · cases hpc : s.pc t <;> simp only [hpc, evictStep, reduceCtorEq] at h
      case evictCas item pos =>
        split at h
        · next hcas =>
          obtain ⟨rfl, -⟩ := hcas
          cases h
          exact ⟨_, _, .evictClaim, rfl⟩
        · cases h
          exact ⟨_, _, .evictLose, rfl⟩
      all_goals
        repeat' split at h
        all_goals
          cases h
          refine ⟨_, _, ?_, rfl⟩
          constructor <;> omega
    · cases hpc : s.pc t <;> simp only [hpc, popStep, reduceCtorEq] at h
      case popCas k pos =>
        split at h
        · next hcas =>
          obtain ⟨rfl, -⟩ := hcas
          cases h
          exact ⟨_, _, .popClaim, rfl⟩
        · cases h
          exact ⟨_, _, .popLose, rfl⟩
      all_goals
        repeat' split at h
        all_goals cases h
        all_goals
          refine ⟨_, _, ?_, rfl⟩
          constructor <;> first | assumption | omega
    · cases hpc : s.pc t <;> simp only [hpc, waitStep, reduceCtorEq] at h
      all_goals
        repeat' split at h
        all_goals cases h
        all_goals
          refine ⟨_, _, ?_, rfl⟩
          constructor <;> assumption

end

/-! ## The number of cells -/

theorem growTo_pow (cap : Nat) :
    ∀ fuel k, cap ≤ 2 ^ k + fuel →
      ∃ j, k ≤ j ∧ growTo cap fuel (2 ^ k) = 2 ^ j ∧ cap ≤ 2 ^ j := by
  intro fuel
  induction fuel with
  | zero => intro k h; exact ⟨k, Nat.le_refl _, rfl, by simpa using h⟩
  | succ fuel ih =>
    intro k h
    simp only [growTo]
    by_cases hlt : 2 ^ k < cap
    · rw [if_pos hlt, Nat.shiftLeft_eq, pow_one, ← pow_succ]
      have hpow : 2 ^ (k + 1) = 2 * 2 ^ k := by rw [pow_succ]; omega
      have hpos : 0 < 2 ^ k := Nat.two_pow_pos k
      obtain ⟨j, hj, hg, hle⟩ := ih (k + 1) (by omega)
      exact ⟨j, by omega, hg, hle⟩
    · rw [if_neg hlt]
      exact ⟨k, Nat.le_refl _, rfl, by omega⟩

theorem Config.slots_pow (cfg : Config) : ∃ k, cfg.slots = 2 ^ k ∧ cfg.capacity ≤ 2 ^ k := by
  obtain ⟨k, _, hk, hle⟩ := growTo_pow cfg.capacity cfg.capacity 0 (by simp)
  exact ⟨k, by simpa [Config.slots] using hk, hle⟩

theorem Config.and_mask (cfg : Config) (pos : Nat) : pos &&& cfg.mask = pos % cfg.slots := by
  obtain ⟨k, hk, _⟩ := cfg.slots_pow
  rw [Config.mask, hk, Nat.and_two_pow_sub_one_eq_mod]

theorem growTo_lt {cap : Nat} : ∀ fuel p, p < 2 * cap → growTo cap fuel p < 2 * cap := by
  intro fuel
  induction fuel with
  | zero => intro p h; exact h
  | succ fuel ih =>
    intro p h
    simp only [growTo]
    by_cases hlt : p < cap
    · rw [if_pos hlt, Nat.shiftLeft_eq, pow_one]
      exact ih (p * 2) (by omega)
    · rw [if_neg hlt]
      exact h

theorem Config.slots_eq_capacity {cfg : Config} {k : Nat} (h : cfg.capacity = 2 ^ k) :
    cfg.slots = cfg.capacity := by
  obtain ⟨j, hj, hle⟩ := cfg.slots_pow
  have hpos : 0 < 2 ^ k := Nat.two_pow_pos k
  have hlt : cfg.slots < 2 * cfg.capacity := growTo_lt _ _ (by omega)
  rw [hj, h] at hlt ⊢
  rw [h] at hle
  -- the exponent of the first power of two that covers `2 ^ k` is `k`
  have hkj : k ≤ j := (Nat.pow_le_pow_iff_right (by omega)).mp hle
  have hjk : j < k + 1 := by
    apply (Nat.pow_lt_pow_iff_right (a := 2) (by omega)).mp
    rw [pow_succ]
    omega
  rw [show j = k by omega]

theorem Config.two_le_slots {cfg : Config} (h : 2 ≤ cfg.capacity) : 2 ≤ cfg.slots := by
  obtain ⟨k, hk, hle⟩ := cfg.slots_pow
  omega

end RingImpl

end Muses
