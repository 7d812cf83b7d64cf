import Muses.Core.Text
import Muses.BoundedQueue.Agreement
import Muses.BoundedQueue.RingLedger

/-!
# `Logger` — entries on their way to the file

`muses/logging.hpp`: producers push entries into a ring that drops the oldest, one writer thread
drains it into a text buffer and writes the buffer out, `flush` does the same on the caller's
thread, and the destructor stops the writer and drains what is left. The queue is `RingImpl` at the
granularity of its atomic accesses; what happens under `line_mu_` or to one atomic is one step.
The log file can always be opened.

* `Pc.Holds`, `Turn` — the entries a thread has in its hands, and what a step does to them: what
  was handed out by the queue is held by some thread, is in the buffer, or is in the file;
* `Orderly` — every `log` and `flush` has returned when the destructor starts.
-/

namespace Muses.Logger

open Muses.Core Text Function Option
open RingImpl (actOf entryOf)

/-! ## Entries and their text -/

inductive LogLevel where
  | debug
  | info
  | warning
  | error
  | fatal
  deriving DecidableEq, Repr

def LogLevel.value : LogLevel → Nat
  | .debug => 0
  | .info => 1
  | .warning => 2
  | .error => 3
  | .fatal => 4

structure Entry where
  level : LogLevel
  funcName : Bytes
  message : Bytes
  time : Nat
  deriving DecidableEq, Repr

/-- The arguments of the constructor, and how `localtime_r` and `strftime` render a time. The file
name plays no part. -/
structure Config where
  level : LogLevel
  capacity : Nat
  strftime : Nat → Bytes

def Config.ring (cfg : Config) : RingImpl.Config := BoundedQueue.ring cfg.capacity .dropOldest

def levelString : LogLevel → Bytes
  | .debug => ascii "Debug"
  | .info => ascii "Info"
  | .warning => ascii "Warning"
  | .error => ascii "Error"
  | .fatal => ascii "Fatal"

def format (cfg : Config) (e : Entry) : Bytes :=
  ascii "[" ++ levelString e.level ++ ascii "] " ++ cfg.strftime e.time ++ ascii " " ++
    e.funcName ++ ascii ": " ++ e.message ++ ascii "\n"

def text (cfg : Config) (entries : List Entry) : Bytes := entries.flatMap (format cfg)

/-! ## Threads and where they stand -/

inductive Thread (C : Type*) where
  | client (c : C)
  | writer
  | owner
  deriving DecidableEq, Repr

/-- The calls of `write_all` and `flush_buffer_if_needed`: at the top of the writer's loop, behind
its `wait_pop`, behind the loop, and in the destructor. -/
inductive Stage where
  | first
  | second
  | last
  | final
  deriving DecidableEq, Repr

/-- Where a thread is in the logger; a call of the queue is one more program below. -/
inductive Pc where
  /-- in no call -/
  | out
  /-- `log`: in `queue_.push` -/
  | logging
  /-- `flush`: in `queue_.try_pop` -/
  | flushPop
  /-- `flush`: about to lock `line_mu_` and append an entry -/
  | flushLine (e : Entry)
  /-- `flush`: about to lock `line_mu_` and swap the buffer out -/
  | flushSwap
  /-- `flush`: about to write -/
  | flushWrite (toWrite : Bytes)
  /-- `write_all`: about to lock `line_mu_` -/
  | drainLock (stage : Stage)
  /-- in `queue_.try_pop`, with `line_mu_` held -/
  | drainPop (stage : Stage)
  /-- `flush_buffer_if_needed`: about to lock `line_mu_` -/
  | check (stage : Stage)
  /-- `flush_buffer_if_needed`: about to write -/
  | write (stage : Stage) (toWrite : Bytes)
  /-- `writer_loop`: about to load `running_` -/
  | test
  /-- `queue_.size()`: about to load the enqueue cursor, the dequeue cursor -/
  | sizeEnqueue
  | sizeDequeue (enqueuePos : Nat)
  /-- `writer_loop`: in `queue_.wait_pop` -/
  | waitPop
  /-- `writer_loop`: about to lock `line_mu_` and append the entry it waited for -/
  | line (e : Entry)
  /-- `writer_loop` has returned -/
  | done
  /-- the destructor has not started -/
  | owning
  /-- `~Logger`: in `queue_.stop` -/
  | stopping
  /-- `~Logger`: in `thread_.join` -/
  | joining
  /-- `~Logger` has returned -/
  | ended
  deriving DecidableEq, Repr

structure State (C : Type*) where
  queue : RingImpl.State (Thread C) Entry
  running : Bool
  buffer : Bytes
  lineMu : Option (Thread C)
  file : Bytes
  pc : Thread C → Pc

/-- The logger as its constructor leaves it: the writer thread is about to start its loop. -/
def State.init {C : Type*} : State C where
  queue := .init
  running := true
  buffer := []
  lineMu := none
  file := []
  pc
    | .client _ => .out
    | .writer => .test
    | .owner => .owning

/-- What a thread may be asked to do: start a call of the logger, or go on with the one it is in.
The flag is the one of the queue's accesses. -/
inductive Act where
  | log (e : Entry)
  | flush
  | destroy
  | go (flag : Bool)
  deriving DecidableEq, Repr

/-! ## Steps -/

section

variable {C : Type*} [DecidableEq C]

def State.setPc (s : State C) (t : Thread C) (c : Pc) : State C :=
  { s with pc := update s.pc t c }

def State.onQueue (cfg : Config) (s : State C) (t : Thread C) (a : RingImpl.Act Entry) (c : Pc) :
    Option (State C) :=
  (RingImpl.step cfg.ring s.queue (t, a)).map fun q => { s with queue := q }.setPc t c

def reply : RingImpl.Pc Entry → Option (Option Entry)
  | .idle (some (.popped out)) => some out
  | .idle _ => some none
  | _ => none

def flushThreshold : Nat := 128

/-- Behind `flush_buffer_if_needed`. The writer goes on to `wait_pop`, to the test of its loop or
returns, and the destructor returns. -/
def State.leave (cfg : Config) (s : State C) (t : Thread C) : Stage → Option (State C)
  | .first => s.onQueue cfg t (.waitPop true) .waitPop
  | .second => some (s.setPc t .test)
  | .last => some (s.setPc t .done)
  | .final => some (s.setPc t .ended)

def clientStep (cfg : Config) (s : State C) (t : Thread C) (flag : Bool) :
    Pc → Option (State C)
  | .logging =>
      match reply (s.queue.pc t) with
      | some _ => some (s.setPc t .out)
      | none => s.onQueue cfg t (.go flag) .logging
  | .flushPop =>
      match reply (s.queue.pc t) with
      | some (some e) => some (s.setPc t (.flushLine e))
      | some none => some (s.setPc t .flushSwap)
      | none => s.onQueue cfg t (.go flag) .flushPop
  | .flushLine e =>
      if s.lineMu = none then
        { s with buffer := s.buffer ++ format cfg e }.onQueue cfg t .tryPop .flushPop
      else none
  | .flushSwap =>
      if s.lineMu = none then some ({ s with buffer := [] }.setPc t (.flushWrite s.buffer))
      else none
  | .flushWrite toWrite => some ({ s with file := s.file ++ toWrite }.setPc t .out)
  | _ => none

def drainStep (cfg : Config) (s : State C) (t : Thread C) (flag : Bool) :
    Pc → Option (State C)
  | .drainLock stage =>
      if s.lineMu = none then
        { s with lineMu := some t }.onQueue cfg t .tryPop (.drainPop stage)
      else none
  | .drainPop stage =>
      match reply (s.queue.pc t) with
      | some (some e) =>
          { s with buffer := s.buffer ++ format cfg e }.onQueue cfg t .tryPop (.drainPop stage)
      | some none => some ({ s with lineMu := none }.setPc t (.check stage))
      | none => s.onQueue cfg t (.go flag) (.drainPop stage)
  | .check stage =>
      if s.lineMu = none then
        if s.buffer = [] then s.leave cfg t stage
        else if s.buffer.length < flushThreshold ∧ s.running = true then s.leave cfg t stage
        else some ({ s with buffer := [] }.setPc t (.write stage s.buffer))
      else none
  | .write stage toWrite => { s with file := s.file ++ toWrite }.leave cfg t stage
  | _ => none

def writerStep (cfg : Config) (s : State C) (t : Thread C) (flag : Bool) :
    Pc → Option (State C)
  | .test =>
      if s.running then some (s.setPc t (.drainLock .first)) else some (s.setPc t .sizeEnqueue)
  | .sizeEnqueue => some (s.setPc t (.sizeDequeue s.queue.enqueuePos))
  | .sizeDequeue enqueuePos =>
      if s.queue.dequeuePos < enqueuePos then some (s.setPc t (.drainLock .first))
      else some (s.setPc t (.check .last))
  | .waitPop =>
      match reply (s.queue.pc t) with
      | some (some e) => some (s.setPc t (.line e))
      | some none => some (s.setPc t (.check .second))
      | none => s.onQueue cfg t (.go flag) .waitPop
  | .line e =>
      if s.lineMu = none then
        { s with lineMu := some t, buffer := s.buffer ++ format cfg e }.onQueue cfg t .tryPop
          (.drainPop .second)
      else none
  | _ => none

def destroyStep (cfg : Config) (s : State C) (t : Thread C) (flag : Bool) :
    Pc → Option (State C)
  | .stopping =>
      match reply (s.queue.pc t) with
      | some _ => some (s.setPc t .joining)
      | none => s.onQueue cfg t (.go flag) .stopping
  | .joining => if s.pc .writer = .done then some (s.setPc t (.drainLock .final)) else none
  | _ => none

def advance (cfg : Config) (s : State C) (t : Thread C) (flag : Bool) : Option (State C) :=
  (clientStep cfg s t flag (s.pc t)).or <| (drainStep cfg s t flag (s.pc t)).or <|
    (writerStep cfg s t flag (s.pc t)).or (destroyStep cfg s t flag (s.pc t))

/-- A client begins a call, the owner the destructor, or a thread goes on. -/
def step (cfg : Config) (s : State C) (l : Thread C × Act) : Option (State C) :=
  match l.1, l.2 with
  | .client c, .log e =>
      if s.pc (.client c) = .out then
        if e.level.value < cfg.level.value then some s
        else s.onQueue cfg (.client c) (.push e) .logging
      else none
  | .client c, .flush =>
      if s.pc (.client c) = .out then s.onQueue cfg (.client c) .tryPop .flushPop else none
  | .owner, .destroy =>
      if s.pc .owner = .owning then { s with running := false }.onQueue cfg .owner .stop .stopping
      else none
  | t, .go flag => advance cfg s t flag
  | _, _ => none

/-! ## Who stands where -/

def Pc.belongs : Thread C → Pc → Bool
  | .client _, .out => true
  | .client _, .logging => true
  | .client _, .flushPop => true
  | .client _, .flushLine _ => true
  | .client _, .flushSwap => true
  | .client _, .flushWrite _ => true
  | .writer, .drainLock stage => stage ≠ .final
  | .writer, .drainPop stage => stage ≠ .final
  | .writer, .check stage => stage ≠ .final
  | .writer, .write stage _ => stage ≠ .final
  | .writer, .test => true
  | .writer, .sizeEnqueue => true
  | .writer, .sizeDequeue _ => true
  | .writer, .waitPop => true
  | .writer, .line _ => true
  | .writer, .done => true
  | .owner, .owning => true
  | .owner, .stopping => true
  | .owner, .joining => true
  | .owner, .drainLock stage => stage = .final
  | .owner, .drainPop stage => stage = .final
  | .owner, .check stage => stage = .final
  | .owner, .write stage _ => stage = .final
  | .owner, .ended => true
  | _, _ => false

def Pc.calling : Pc → Option Bool
  | .logging => some false
  | .stopping => some false
  | .flushPop => some true
  | .drainPop _ => some true
  | .waitPop => some true
  | _ => none

/-- Where the thread is in its call of the queue fits where it is in the logger. -/
def Pc.InTune (q : RingImpl.Pc Entry) (c : Pc) : Prop :=
  match c.calling with
  | some takes => q.takes = takes
  | none => ∃ r, q = .idle r

/-- The entries that the thread has taken from the queue and not put into the buffer yet. -/
def Pc.Holds (cfg : Config) (q : RingImpl.Pc Entry) (w : List Entry) : Pc → Prop
  | .flushPop => w = q.carries.toList
  | .drainPop _ => w = q.carries.toList
  | .waitPop => w = q.carries.toList
  | .flushLine e => w = [e]
  | .line e => w = [e]
  | .flushWrite toWrite => toWrite = text cfg w
  | .write _ toWrite => toWrite = text cfg w
  | _ => w = []

/-- The thread holds `w`, and the buffer and the file are the texts of `b` and `f`. -/
structure Ledger (cfg : Config) (s : State C) (t : Thread C) (w b f : List Entry) : Prop where
  holds : (s.pc t).Holds cfg (s.queue.pc t) w
  buffer : s.buffer = text cfg b
  file : s.file = text cfg f

/-- What a step of `t` does. -/
structure Turn (cfg : Config) (s : State C) (t : Thread C) (s' : State C) : Prop where
  others : ∀ u, u ≠ t → s'.pc u = s.pc u
  queue : s'.queue = s.queue ∨ ∃ a, RingImpl.step cfg.ring s.queue (t, a) = some s'.queue
  belongs : (s'.pc t).belongs t = true
  inTune : (s'.pc t).InTune (s'.queue.pc t)
  /-- what it holds, the buffer and the file gain together what the queue hands out -/
  ledger : ∀ w b f, Ledger cfg s t w b f → ∃ w' b' f', Ledger cfg s' t w' b' f' ∧
    s'.queue.handedItems + ↑(w ++ b ++ f) = s.queue.handedItems + ↑(w' ++ b' ++ f')

end

/-! ## One step -/

section

variable {C : Type*} [DecidableEq C] {cfg : Config} {s s' m : State C} {t : Thread C} {c : Pc}

@[simp] theorem setPc_pc_self (s : State C) (t : Thread C) (c : Pc) : (s.setPc t c).pc t = c :=
  update_self ..

theorem setPc_pc_of_ne (s : State C) {u : Thread C} (c : Pc) (hu : u ≠ t) :
    (s.setPc t c).pc u = s.pc u := update_of_ne hu ..

theorem text_append (cfg : Config) (xs ys : List Entry) :
    text cfg (xs ++ ys) = text cfg xs ++ text cfg ys := List.flatMap_append

theorem text_singleton (cfg : Config) (e : Entry) : text cfg [e] = format cfg e :=
  List.flatMap_singleton ..

theorem eq_nil_of_text {entries : List Entry} (h : text cfg entries = []) : entries = [] := by
  cases entries with
  | nil => rfl
  | cons e es =>
    have hline : format cfg e = [] := List.flatMap_eq_nil_iff.mp h e List.mem_cons_self
    simp [format, ascii] at hline

theorem coe_append_append (w b f : List Entry) :
    ((w ++ b ++ f : List Entry) : Multiset Entry) = ↑w + ↑(b ++ f) := by
  rw [List.append_assoc, Multiset.coe_add]

theorem perm_written (w b f : List Entry) : (w ++ b ++ f).Perm (b ++ (f ++ w)) := by
  rw [List.append_assoc, ← List.append_assoc b]
  exact List.perm_append_comm

theorem turn_setPc (hpc : m.pc = s.pc) (hqueue : m.queue = s.queue)
    (hbelongs : c.belongs t = true) (htune : c.InTune (s.queue.pc t))
    (hledger : ∀ w b f, Ledger cfg s t w b f → ∃ w' b' f', c.Holds cfg (s.queue.pc t) w' ∧
      m.buffer = text cfg b' ∧ m.file = text cfg f' ∧ (w ++ b ++ f).Perm (w' ++ b' ++ f')) :
    Turn cfg s t (m.setPc t c) := by
  refine ⟨fun u hu => by rw [setPc_pc_of_ne _ _ hu, hpc], Or.inl hqueue,
    by rw [setPc_pc_self]; exact hbelongs, ?_, ?_⟩
  · show ((m.setPc t c).pc t).InTune (m.queue.pc t)
    rw [setPc_pc_self, hqueue]
    exact htune
  · intro w b f h
    obtain ⟨w', b', f', hholds, hbuffer, hfile, hperm⟩ := hledger w b f h
    refine ⟨w', b', f', ⟨?_, hbuffer, hfile⟩, ?_⟩
    · show ((m.setPc t c).pc t).Holds cfg (m.queue.pc t) w'
      rw [setPc_pc_self, hqueue]
      exact hholds
    · show m.queue.handedItems + _ = _
      rw [hqueue, Multiset.coe_eq_coe.mpr hperm]

theorem holds_calling {q : RingImpl.Pc Entry} {takes : Bool} (hcalling : c.calling = some takes)
    (htune : c.InTune q) (w : List Entry) : c.Holds cfg q w ↔ w = q.carries.toList := by
  have htakes : q.takes = takes := by
    unfold Pc.InTune at htune
    rw [hcalling] at htune
    exact htune
  cases c <;> cases hcalling
  case logging | stopping => rw [RingImpl.carries_of_not_takes htakes]; rfl
  all_goals rfl

variable {flag : Bool} {l : Thread C × Act}

theorem turn_go {takes : Bool} (hcalling : c.calling = some takes) (hpc : s.pc t = c)
    (hbelongs : c.belongs t = true) (htune : c.InTune (s.queue.pc t))
    (h : s.onQueue cfg t (.go flag) c = some s') : Turn cfg s t s' := by
  obtain ⟨q, hq, rfl⟩ := map_eq_some_iff.mp h
  obtain ⟨htakes, hbalance⟩ := RingImpl.go_carried hq
  have htune' : c.InTune (q.pc t) := by
    unfold Pc.InTune at htune ⊢
    rw [hcalling] at htune ⊢
    exact htakes.trans htune
  refine ⟨fun u hu => setPc_pc_of_ne _ _ hu, Or.inr ⟨_, hq⟩, by rw [setPc_pc_self]; exact hbelongs,
    by rw [setPc_pc_self]; exact htune', ?_⟩
  rintro w b f ⟨hholds, hbuffer, hfile⟩
  rw [hpc, holds_calling hcalling htune] at hholds
  refine ⟨(q.pc t).carries.toList, b, f, ⟨?_, hbuffer, hfile⟩, ?_⟩
  · rw [setPc_pc_self]
    exact (holds_calling hcalling htune' _).mpr rfl
  · have hhand : q.handedItems + (w : Multiset Entry) =
        s.queue.handedItems + ((q.pc t).carries.toList : Multiset Entry) := by
      rw [hholds]
      exact hbalance
    show q.handedItems + ↑(w ++ b ++ f) = _
    rw [coe_append_append, coe_append_append, ← add_assoc, ← add_assoc, hhand]

theorem turn_enter (call : BlockingImpl.Call Entry) (h : m.onQueue cfg t (actOf call) c = some s')
    (hpc : m.pc = s.pc) (hqueue : m.queue = s.queue) (hbelongs : c.belongs t = true)
    (hcalling : c.calling = some (entryOf call).takes)
    (hledger : ∀ w b f, Ledger cfg s t w b f → ∃ b' f',
      m.buffer = text cfg b' ∧ m.file = text cfg f' ∧ (w ++ b ++ f).Perm (b' ++ f')) :
    Turn cfg s t s' := by
  obtain ⟨q, hq, rfl⟩ := map_eq_some_iff.mp h
  obtain rfl := RingImpl.entered_of_step hq
  have htune : c.InTune (entryOf call) := by
    unfold Pc.InTune
    rw [hcalling]
  have hqpc : (m.queue.setPc t (entryOf call)).pc t = entryOf call := RingImpl.setPc_pc_self ..
  refine ⟨fun u hu => ?_, Or.inr ⟨actOf call, ?_⟩, by rw [setPc_pc_self]; exact hbelongs, ?_, ?_⟩
  · rw [setPc_pc_of_ne _ _ hu]
    exact congrFun hpc u
  · rw [← hqueue]
    exact hq
  · rw [setPc_pc_self]
    show c.InTune ((m.queue.setPc t (entryOf call)).pc t)
    rw [hqpc]
    exact htune
  · intro w b f hold
    obtain ⟨b', f', hbuffer, hfile, hperm⟩ := hledger w b f hold
    refine ⟨[], b', f', ⟨?_, hbuffer, hfile⟩, ?_⟩
    · rw [setPc_pc_self]
      show c.Holds cfg ((m.queue.setPc t (entryOf call)).pc t) []
      rw [hqpc, holds_calling hcalling htune]
      cases call <;> rfl
    · show m.queue.handedItems + _ = _
      rw [hqueue, Multiset.coe_eq_coe.mpr hperm]
      rfl

theorem turn_move (hpc : m.pc = s.pc) (hqueue : m.queue = s.queue) (hbuffer : m.buffer = s.buffer)
    (hfile : m.file = s.file) (hbelongs : c.belongs t = true) (htune : c.InTune (s.queue.pc t))
    (hholds : ∀ w, (s.pc t).Holds cfg (s.queue.pc t) w → c.Holds cfg (s.queue.pc t) w) :
    Turn cfg s t (m.setPc t c) := by
  apply turn_setPc hpc hqueue hbelongs htune
  intro w b f h
  exact ⟨w, b, f, hholds w h.holds, hbuffer.trans h.buffer, hfile.trans h.file, .refl _⟩

theorem carries_of_reply {q : RingImpl.Pc Entry} {out : Option Entry} (h : reply q = some out) :
    (∃ r, q = .idle r) ∧ q.carries = out := by
  unfold reply at h
  split at h
  · cases h
    refine ⟨⟨_, rfl⟩, ?_⟩
    cases out <;> rfl
  · rename_i r hr
    cases h
    refine ⟨⟨_, rfl⟩, ?_⟩
    rcases r with _ | ⟨_ | out | _⟩
    · rfl
    · rfl
    · exact absurd rfl (hr out)
    · rfl
  · cases h

theorem turn_append {e : Entry} (h : m.onQueue cfg t .tryPop c = some s') (hpc : m.pc = s.pc)
    (hqueue : m.queue = s.queue) (hbuffer : m.buffer = s.buffer ++ format cfg e)
    (hfile : m.file = s.file) (hbelongs : c.belongs t = true) (hcalling : c.calling = some true)
    (hholds : ∀ w, (s.pc t).Holds cfg (s.queue.pc t) w → w = [e]) : Turn cfg s t s' := by
  refine turn_enter .tryPop h hpc hqueue hbelongs hcalling ?_
  intro w b f hold
  obtain rfl := hholds w hold.holds
  refine ⟨b ++ [e], f, ?_, hfile.trans hold.file, ?_⟩
  · rw [hbuffer, hold.buffer, text_append, text_singleton]
  · exact List.perm_append_comm.append_right f

theorem clientStep_turn (hbelongs : (s.pc t).belongs t = true)
    (htune : (s.pc t).InTune (s.queue.pc t)) (h : clientStep cfg s t flag (s.pc t) = some s') :
    Turn cfg s t s' := by
  cases hpc : s.pc t <;> simp only [hpc, clientStep, reduceCtorEq] at h <;>
    rw [hpc] at hbelongs htune
  case logging =>
    split at h
    · rename_i out hreply
      cases h
      obtain ⟨hidle, -⟩ := carries_of_reply hreply
      refine turn_move rfl rfl rfl rfl (by cases t <;> first | rfl | cases hbelongs) hidle ?_
      rw [hpc]
      exact fun w hw => hw
    · exact turn_go rfl hpc hbelongs htune h
  case flushPop =>
    split at h
    · rename_i e hreply
      cases h
      obtain ⟨hidle, hcarry⟩ := carries_of_reply hreply
      refine turn_move rfl rfl rfl rfl (by cases t <;> first | rfl | cases hbelongs) hidle ?_
      intro w hw
      rw [hpc] at hw
      show w = [e]
      rw [show w = _ from hw, hcarry]
      rfl
    · rename_i hreply
      cases h
      obtain ⟨hidle, hcarry⟩ := carries_of_reply hreply
      refine turn_move rfl rfl rfl rfl (by cases t <;> first | rfl | cases hbelongs) hidle ?_
      intro w hw
      rw [hpc] at hw
      show w = []
      rw [show w = _ from hw, hcarry]
      rfl
    · exact turn_go rfl hpc hbelongs htune h
  case flushLine e =>
    obtain ⟨-, h⟩ := ite_none_right_eq_some.mp h
    refine turn_append h rfl rfl rfl rfl (by cases t <;> first | rfl | cases hbelongs) rfl ?_
    rw [hpc]
    exact fun w hw => hw
  case flushSwap =>
    obtain ⟨-, h⟩ := ite_none_right_eq_some.mp h
    cases h
    refine turn_setPc rfl rfl (by cases t <;> first | rfl | cases hbelongs) htune ?_
    rintro w b f ⟨hholds, hbuffer, hfile⟩
    rw [hpc] at hholds
    obtain rfl : w = [] := hholds
    exact ⟨b, [], f, hbuffer, rfl, hfile, by simp⟩
  case flushWrite toWrite =>
    cases h
    refine turn_setPc rfl rfl (by cases t <;> first | rfl | cases hbelongs) htune ?_
    rintro w b f ⟨hholds, hbuffer, hfile⟩
    rw [hpc] at hholds
    obtain rfl : toWrite = text cfg w := hholds
    refine ⟨[], b, f ++ w, rfl, hbuffer, ?_, ?_⟩
    · show s.file ++ text cfg w = _
      rw [hfile, text_append]
    · exact perm_written w b f

omit [DecidableEq C] in
theorem nothing_held (hbuffer : m.buffer = s.buffer) (hfile : m.file = s.file)
    (hholds : ∀ w, (s.pc t).Holds cfg (s.queue.pc t) w → w = []) :
    ∀ w b f, Ledger cfg s t w b f → ∃ b' f',
      m.buffer = text cfg b' ∧ m.file = text cfg f' ∧ (w ++ b ++ f).Perm (b' ++ f') := by
  intro w b f hold
  obtain rfl := hholds w hold.holds
  exact ⟨b, f, hbuffer.trans hold.buffer, hfile.trans hold.file, .refl _⟩

theorem leave_turn {stage : Stage} (h : m.leave cfg t stage = some s') (hpc : m.pc = s.pc)
    (hqueue : m.queue = s.queue) (hbelongs : (Pc.check stage).belongs t = true)
    (hidle : ∃ r, s.queue.pc t = .idle r)
    (hledger : ∀ w b f, Ledger cfg s t w b f → ∃ b' f',
      m.buffer = text cfg b' ∧ m.file = text cfg f' ∧ (w ++ b ++ f).Perm (b' ++ f')) :
    Turn cfg s t s' := by
  have hnone : ∀ w b f, Ledger cfg s t w b f → ∃ w' b' f', w' = [] ∧
      m.buffer = text cfg b' ∧ m.file = text cfg f' ∧ (w ++ b ++ f).Perm (w' ++ b' ++ f') := by
    intro w b f hold
    obtain ⟨b', f', hrest⟩ := hledger w b f hold
    exact ⟨[], b', f', rfl, hrest⟩
  cases stage with
  | first =>
    refine turn_enter (.waitPop true) h hpc hqueue ?_ rfl hledger
    cases t <;> first | rfl | cases hbelongs
  | second =>
    cases h
    exact turn_setPc hpc hqueue (by cases t <;> first | rfl | cases hbelongs) hidle hnone
  | last =>
    cases h
    exact turn_setPc hpc hqueue (by cases t <;> first | rfl | cases hbelongs) hidle hnone
  | final =>
    cases h
    exact turn_setPc hpc hqueue (by cases t <;> first | rfl | cases hbelongs) hidle hnone

theorem drainStep_turn (hbelongs : (s.pc t).belongs t = true)
    (htune : (s.pc t).InTune (s.queue.pc t)) (h : drainStep cfg s t flag (s.pc t) = some s') :
    Turn cfg s t s' := by
  cases hpc : s.pc t <;> simp only [hpc, drainStep, reduceCtorEq] at h <;>
    rw [hpc] at hbelongs htune
  case drainLock stage =>
    obtain ⟨-, h⟩ := ite_none_right_eq_some.mp h
    refine turn_enter .tryPop h rfl rfl (by cases t <;> exact hbelongs) rfl ?_
    exact nothing_held rfl rfl (by rw [hpc]; exact fun w hw => hw)
  case drainPop stage =>
    split at h
    · rename_i e hreply
      refine turn_append h rfl rfl rfl rfl hbelongs rfl ?_
      intro w hw
      rw [hpc] at hw
      rw [show w = _ from hw, (carries_of_reply hreply).2]
      rfl
    · rename_i hreply
      cases h
      obtain ⟨hidle, hcarry⟩ := carries_of_reply hreply
      refine turn_move rfl rfl rfl rfl (by cases t <;> exact hbelongs) hidle ?_
      intro w hw
      rw [hpc] at hw
      show w = []
      rw [show w = _ from hw, hcarry]
      rfl
    · exact turn_go rfl hpc hbelongs htune h
  case check stage =>
    obtain ⟨-, h⟩ := ite_none_right_eq_some.mp h
    have hleave : s.leave cfg t stage = some s' → Turn cfg s t s' := by
      intro h
      refine leave_turn h rfl rfl hbelongs htune ?_
      exact nothing_held rfl rfl (by rw [hpc]; exact fun w hw => hw)
    split at h
    · exact hleave h
    · split at h
      · exact hleave h
      · cases h
        refine turn_setPc rfl rfl (by cases t <;> exact hbelongs) htune ?_
        rintro w b f ⟨hholds, hbuffer, hfile⟩
        rw [hpc] at hholds
        obtain rfl : w = [] := hholds
        exact ⟨b, [], f, hbuffer, rfl, hfile, by simp⟩
  case write stage toWrite =>
    refine leave_turn h rfl rfl (by cases t <;> exact hbelongs) htune ?_
    rintro w b f ⟨hholds, hbuffer, hfile⟩
    rw [hpc] at hholds
    obtain rfl : toWrite = text cfg w := hholds
    refine ⟨b, f ++ w, hbuffer, ?_, ?_⟩
    · show s.file ++ text cfg w = _
      rw [hfile, text_append]
    · exact perm_written w b f

theorem writerStep_turn (hbelongs : (s.pc t).belongs t = true)
    (htune : (s.pc t).InTune (s.queue.pc t)) (h : writerStep cfg s t flag (s.pc t) = some s') :
    Turn cfg s t s' := by
  -- every place of the loop is the writer's
  obtain rfl : t = .writer := by
    cases hpc : s.pc t <;> rw [hpc] at h hbelongs <;> simp only [writerStep, reduceCtorEq] at h
    all_goals
      cases t <;> first | rfl | cases hbelongs
  cases hpc : s.pc .writer <;> simp only [hpc, writerStep, reduceCtorEq] at h <;>
    rw [hpc] at hbelongs htune
  case test =>
    split at h <;> cases h <;> refine turn_move rfl rfl rfl rfl rfl htune ?_ <;> rw [hpc] <;>
      exact fun w hw => hw
  case sizeEnqueue =>
    cases h
    refine turn_move rfl rfl rfl rfl rfl htune ?_
    rw [hpc]
    exact fun w hw => hw
  case sizeDequeue enqueuePos =>
    split at h <;> cases h <;> refine turn_move rfl rfl rfl rfl rfl htune ?_ <;> rw [hpc] <;>
      exact fun w hw => hw
  case waitPop =>
    split at h
    · rename_i e hreply
      cases h
      obtain ⟨hidle, hcarry⟩ := carries_of_reply hreply
      refine turn_move rfl rfl rfl rfl rfl hidle ?_
      intro w hw
      rw [hpc] at hw
      show w = [e]
      rw [show w = _ from hw, hcarry]
      rfl
    · rename_i hreply
      cases h
      obtain ⟨hidle, hcarry⟩ := carries_of_reply hreply
      refine turn_move rfl rfl rfl rfl rfl hidle ?_
      intro w hw
      rw [hpc] at hw
      show w = []
      rw [show w = _ from hw, hcarry]
      rfl
    · exact turn_go rfl hpc hbelongs htune h
  case line e =>
    obtain ⟨-, h⟩ := ite_none_right_eq_some.mp h
    refine turn_append h rfl rfl rfl rfl rfl rfl ?_
    rw [hpc]
    exact fun w hw => hw

theorem destroyStep_turn (hbelongs : (s.pc t).belongs t = true)
    (htune : (s.pc t).InTune (s.queue.pc t)) (h : destroyStep cfg s t flag (s.pc t) = some s') :
    Turn cfg s t s' := by
  cases hpc : s.pc t <;> simp only [hpc, destroyStep, reduceCtorEq] at h <;>
    rw [hpc] at hbelongs htune
  case stopping =>
    split at h
    · rename_i hreply
      cases h
      obtain ⟨hidle, -⟩ := carries_of_reply hreply
      refine turn_move rfl rfl rfl rfl (by cases t <;> first | rfl | cases hbelongs) hidle ?_
      rw [hpc]
      exact fun w hw => hw
    · exact turn_go rfl hpc hbelongs htune h
  case joining =>
    obtain ⟨-, h⟩ := ite_none_right_eq_some.mp h
    cases h
    refine turn_move rfl rfl rfl rfl (by cases t <;> first | rfl | cases hbelongs) htune ?_
    rw [hpc]
    exact fun w hw => hw

theorem step_turn (hbelongs : (s.pc l.1).belongs l.1 = true)
    (htune : (s.pc l.1).InTune (s.queue.pc l.1)) (h : step cfg s l = some s') :
    Turn cfg s l.1 s' := by
  obtain ⟨t, a⟩ := l
  cases a with
  | go flag =>
    replace h : advance cfg s t flag = some s' := by
      cases t <;> exact h
    simp only [advance, or_eq_some_iff] at h
    rcases h with h | ⟨-, h | ⟨-, h | ⟨-, h⟩⟩⟩
    · exact clientStep_turn hbelongs htune h
    · exact drainStep_turn hbelongs htune h
    · exact writerStep_turn hbelongs htune h
    · exact destroyStep_turn hbelongs htune h
  | log e =>
    cases t <;> simp only [step, reduceCtorEq] at h
    obtain ⟨hpc, h⟩ := ite_none_right_eq_some.mp h
    split at h
    · -- below the level: nothing happens
      cases h
      exact ⟨fun _ _ => rfl, Or.inl rfl, hbelongs, htune, fun w b f hold => ⟨w, b, f, hold, rfl⟩⟩
    · refine turn_enter (.push e) h rfl rfl rfl rfl ?_
      exact nothing_held rfl rfl (by rw [hpc]; exact fun w hw => hw)
  | flush =>
    cases t <;> simp only [step, reduceCtorEq] at h
    obtain ⟨hpc, h⟩ := ite_none_right_eq_some.mp h
    refine turn_enter .tryPop h rfl rfl rfl rfl ?_
    exact nothing_held rfl rfl (by rw [hpc]; exact fun w hw => hw)
  | destroy =>
    cases t <;> simp only [step, reduceCtorEq] at h
    obtain ⟨hpc, h⟩ := ite_none_right_eq_some.mp h
    refine turn_enter .stop h rfl rfl rfl rfl ?_
    exact nothing_held rfl rfl (by rw [hpc]; exact fun w hw => hw)

/-! ## Whole runs -/

/-- No entry is lost: what the queue has handed out is held, in the buffer or in the file. -/
structure Kept (cfg : Config) (s : State C) : Prop where
  reach : Reachable (RingImpl.step cfg.ring) .init s.queue
  belongs : ∀ t, (s.pc t).belongs t = true
  inTune : ∀ t, (s.pc t).InTune (s.queue.pc t)
  ledger : ∃ (w : Thread C → List Entry) (b f : List Entry) (held : Multiset Entry),
    (∀ t, Ledger cfg s t (w t) b f) ∧ Tally (fun t => (w t : Multiset Entry)) held ∧
    s.queue.handedItems = held + ↑(b ++ f)

theorem kept_init : Kept cfg (State.init : State C) where
  reach := ⟨[], rfl⟩
  belongs t := by cases t <;> rfl
  inTune t := by cases t <;> exact ⟨none, rfl⟩
  ledger := by
    refine ⟨fun _ => [], [], [], 0, fun t => ⟨?_, rfl, rfl⟩, Tally.zero fun _ => rfl, rfl⟩
    cases t <;> rfl

theorem Turn.queue_others (h : Turn cfg s t s') {u : Thread C} (hu : u ≠ t) :
    s'.queue.pc u = s.queue.pc u := by
  rcases h.queue with heq | ⟨a, ha⟩
  · rw [heq]
  · exact RingImpl.step_pc_of_ne ha hu

theorem Kept.turn (h : Kept cfg s) (hturn : Turn cfg s t s') : Kept cfg s' := by
  have hothers {u : Thread C} (hu : u ≠ t) : s'.pc u = s.pc u ∧ s'.queue.pc u = s.queue.pc u :=
    ⟨hturn.others u hu, hturn.queue_others hu⟩
  refine ⟨?_, fun u => ?_, fun u => ?_, ?_⟩
  · rcases hturn.queue with heq | ⟨a, ha⟩
    · rw [heq]
      exact h.reach
    · obtain ⟨acts, hrun⟩ := h.reach
      exact ⟨acts ++ [(t, a)], exec_concat hrun ha⟩
  · by_cases hu : u = t
    · rw [hu]
      exact hturn.belongs
    · rw [(hothers hu).1]
      exact h.belongs u
  · by_cases hu : u = t
    · rw [hu]
      exact hturn.inTune
    · rw [(hothers hu).1, (hothers hu).2]
      exact h.inTune u
  · obtain ⟨w, b, f, held, hold, htally, hsum⟩ := h.ledger
    obtain ⟨w', b', f', hnew, hbalance⟩ := hturn.ledger (w t) b f (hold t)
    obtain ⟨held', htally', hmove⟩ :=
      htally.move t (fun u => (update w t w' u : Multiset Entry))
        fun u hu => by rw [update_of_ne hu]
    refine ⟨update w t w', b', f', held', fun u => ?_, htally', ?_⟩
    · by_cases hu : u = t
      · subst hu
        rw [update_self]
        exact hnew
      · refine ⟨?_, hnew.buffer, hnew.file⟩
        rw [update_of_ne hu, (hothers hu).1, (hothers hu).2]
        exact (hold u).holds
    · rw [update_self] at hmove
      rw [coe_append_append, coe_append_append, hsum] at hbalance
      -- cancel what the thread held before, and what was in the buffer and in the file
      apply add_right_cancel (b := (w t : Multiset Entry) + ↑(b ++ f))
      calc s'.queue.handedItems + (↑(w t) + ↑(b ++ f))
          = held + ↑(b ++ f) + (↑w' + ↑(b' ++ f')) := hbalance
        _ = (held + ↑w') + ↑(b' ++ f') + ↑(b ++ f) := by abel
        _ = (held' + ↑(w t)) + ↑(b' ++ f') + ↑(b ++ f) := by rw [hmove]
        _ = held' + ↑(b' ++ f') + (↑(w t) + ↑(b ++ f)) := by abel

theorem Kept.step (h : Kept cfg s) (hstep : Logger.step cfg s l = some s') :
    Kept cfg s' := h.turn (step_turn (h.belongs l.1) (h.inTune l.1) hstep)

/-! ## The destructor -/

/-- No call of a client once the destructor runs, and none when it begins. -/
def Orderly (s : State C) (l : Thread C × Act) : Prop :=
  match l.2 with
  | .log _ => s.pc .owner = .owning
  | .flush => s.pc .owner = .owning
  | .destroy => ∀ c, s.pc (.client c) = .out
  | .go _ => True

/-- The writer is told to end, and no client is in a call. -/
structure Quit (s : State C) : Prop where
  running : s.running = false
  out : ∀ c, s.pc (.client c) = .out

/-- The writer has ended too. -/
structure Joined (s : State C) : Prop extends Quit s where
  done : s.pc .writer = .done

/-- What holds at each point of the destructor. -/
def Pc.Closed (cfg : Config) (s : State C) : Pc → Prop
  | .stopping => Quit s
  | .joining => Quit s
  | .drainLock _ => Joined s
  | .drainPop _ => Joined s ∧ (s.queue.pc .owner).knows cfg.ring s.queue ∧
      ∃ q stopped out, s.queue.outcome cfg.ring .owner = some ⟨q, stopped, .popped out⟩ ∧
        (out = none → q.items = [])
  | .check _ => Joined s ∧ s.queue.contents.items = []
  | .write _ _ => Joined s ∧ s.queue.contents.items = [] ∧ s.buffer = []
  | .ended => Joined s ∧ s.queue.contents.items = [] ∧ s.buffer = []
  | _ => True

/-- The step of a thread that goes on: `running_` stays, and the file gains what the thread was
about to write. -/
structure Onward (s : State C) (t : Thread C) (s' : State C) : Prop where
  running : s'.running = s.running
  file : s'.file = s.file ∨ ∃ toWrite,
    (s.pc t = .flushWrite toWrite ∨ ∃ stage, s.pc t = .write stage toWrite) ∧
      s'.file = s.file ++ toWrite

theorem onQueue_fields {a : RingImpl.Act Entry} (h : m.onQueue cfg t a c = some s') :
    s'.running = m.running ∧ s'.file = m.file := by
  obtain ⟨q, -, rfl⟩ := map_eq_some_iff.mp h
  exact ⟨rfl, rfl⟩

theorem leave_fields {stage : Stage} (h : m.leave cfg t stage = some s') :
    s'.running = m.running ∧ s'.file = m.file := by
  cases stage with
  | first => exact onQueue_fields h
  | second | last | final =>
    cases h
    exact ⟨rfl, rfl⟩

omit [DecidableEq C] in
theorem onward_of_fields (h : s'.running = m.running ∧ s'.file = m.file)
    (hm : m.running = s.running ∧ m.file = s.file) : Onward s t s' :=
  ⟨h.1.trans hm.1, Or.inl (h.2.trans hm.2)⟩

theorem advance_onward (h : advance cfg s t flag = some s') : Onward s t s' := by
  simp only [advance, or_eq_some_iff] at h
  rcases h with h | ⟨-, h | ⟨-, h | ⟨-, h⟩⟩⟩
  · cases hpc : s.pc t <;> simp only [hpc, clientStep, reduceCtorEq] at h
    case flushWrite toWrite =>
      cases h
      exact ⟨rfl, Or.inr ⟨toWrite, Or.inl hpc, rfl⟩⟩
    all_goals
      repeat' split at h
      all_goals first
        | cases h; done
        | exact onward_of_fields (onQueue_fields h) ⟨rfl, rfl⟩
        | cases h; exact ⟨rfl, Or.inl rfl⟩
  · cases hpc : s.pc t <;> simp only [hpc, drainStep, reduceCtorEq] at h
    case write stage toWrite =>
      obtain ⟨hrunning, hfile⟩ := leave_fields h
      exact ⟨hrunning, Or.inr ⟨toWrite, Or.inr ⟨stage, hpc⟩, hfile⟩⟩
    all_goals
      repeat' split at h
      all_goals first
        | cases h; done
        | exact onward_of_fields (onQueue_fields h) ⟨rfl, rfl⟩
        | exact onward_of_fields (leave_fields h) ⟨rfl, rfl⟩
        | cases h; exact ⟨rfl, Or.inl rfl⟩
  · cases hpc : s.pc t <;> simp only [hpc, writerStep, reduceCtorEq] at h
    all_goals
      repeat' split at h
      all_goals first
        | cases h; done
        | exact onward_of_fields (onQueue_fields h) ⟨rfl, rfl⟩
        | cases h; exact ⟨rfl, Or.inl rfl⟩
  · cases hpc : s.pc t <;> simp only [hpc, destroyStep, reduceCtorEq] at h
    all_goals
      repeat' split at h
      all_goals first
        | cases h; done
        | exact onward_of_fields (onQueue_fields h) ⟨rfl, rfl⟩
        | cases h; exact ⟨rfl, Or.inl rfl⟩

theorem Quit.turn (h : Quit s) (hturn : Turn cfg s t s') (hrunning : s'.running = s.running)
    (ht : ∀ c, t ≠ .client c) : Quit s' where
  running := hrunning.trans h.running
  out c := by rw [hturn.others (.client c) (ht c).symm]; exact h.out c

theorem Joined.turn (h : Joined s) (hturn : Turn cfg s .owner s')
    (hrunning : s'.running = s.running) : Joined s' where
  toQuit := h.toQuit.turn hturn hrunning nofun
  done := by rw [hturn.others .writer nofun]; exact h.done

theorem Kept.sighted (hp : 2 ≤ cfg.ring.slots) (h : Kept cfg s) :
    RingImpl.Sighted cfg.ring s.queue := by
  obtain ⟨acts, hrun⟩ := h.reach
  exact exec_invariant (I := RingImpl.Sighted cfg.ring) (fun _ _ _ hs hstep => hs.step hp hstep)
    (RingImpl.sighted_init hp) hrun

theorem Joined.alone (hp : 2 ≤ cfg.ring.slots) (hkept : Kept cfg s) (h : Joined s) :
    RingImpl.Alone cfg.ring s.queue .owner where
  sighted := hkept.sighted hp
  others u hu := by
    have htune := hkept.inTune u
    cases u with
    | client c =>
      rw [h.out c] at htune
      exact htune
    | writer =>
      rw [h.done] at htune
      exact htune
    | owner => exact absurd rfl hu

theorem asks_queue {q : RingImpl.State (Thread C) Entry}
    (hq : RingImpl.step cfg.ring s.queue (.owner, .tryPop) = some q) :
    (q.pc .owner).knows cfg.ring q ∧
      ∃ left stopped out, q.outcome cfg.ring .owner = some ⟨left, stopped, .popped out⟩ ∧
        (out = none → left.items = []) := by
  have hentered : q = s.queue.setPc .owner (entryOf .tryPop) := RingImpl.entered_of_step hq
  subst hentered
  have honward : RingImpl.Onward cfg.ring _ _ .owner (s.queue.setPc .owner (entryOf .tryPop)) :=
    RingImpl.onward_setPc trivial id rfl
  refine ⟨honward.knows, ?_⟩
  rw [honward.outcome]
  show ∃ left stopped out, RingImpl.Outcome.takes _ _ _ = some ⟨left, stopped, .popped out⟩ ∧ _
  unfold RingImpl.Outcome.takes
  split
  · next hitems => exact ⟨_, _, _, rfl, fun _ => hitems⟩
  · exact ⟨_, _, _, rfl, by simp⟩

omit [DecidableEq C] in
theorem items_nil_of_reply {left : Fifo Entry} {stopped : Bool} {out : Option Entry}
    (hout : s.queue.outcome cfg.ring t = some ⟨left, stopped, .popped out⟩)
    (hempty : out = none → left.items = []) (hreply : reply (s.queue.pc t) = some none) :
    s.queue.contents.items = [] := by
  obtain ⟨⟨r, hr⟩, -⟩ := carries_of_reply hreply
  unfold RingImpl.State.outcome at hout
  rw [hr] at hout hreply
  cases r with
  | none => cases hout
  | some ret =>
    cases hout
    exact hempty (Option.some.inj hreply)

theorem closed_owner (hp : 2 ≤ cfg.ring.slots) (hkept : Kept cfg s)
    (hclosed : (s.pc .owner).Closed cfg s) (h : advance cfg s .owner flag = some s') :
    (s'.pc .owner).Closed cfg s' := by
  have hturn : Turn cfg s .owner s' :=
    step_turn (l := (.owner, .go flag)) (hkept.belongs _) (hkept.inTune _) h
  have hrunning := (advance_onward h).running
  have hbelongs := hkept.belongs .owner
  cases hpc : s.pc .owner <;> rw [hpc] at hclosed hbelongs <;>
    simp only [advance, hpc, clientStep, drainStep, writerStep, destroyStep, none_or,
      or_none, reduceCtorEq] at h <;> try cases hbelongs
  case stopping =>
    have hquit := Quit.turn hclosed hturn hrunning nofun
    split at h
    · cases h
      rw [setPc_pc_self]
      exact hquit
    · obtain ⟨q, -, rfl⟩ := map_eq_some_iff.mp h
      rw [setPc_pc_self]
      exact hquit
  case joining =>
    obtain ⟨hdone, h⟩ := ite_none_right_eq_some.mp h
    have hquit := Quit.turn hclosed hturn hrunning nofun
    cases h
    rw [setPc_pc_self]
    exact ⟨hquit, by rw [hturn.others .writer nofun]; exact hdone⟩
  case drainLock stage =>
    obtain ⟨-, h⟩ := ite_none_right_eq_some.mp h
    have hjoined := Joined.turn hclosed hturn hrunning
    obtain ⟨q, hq, rfl⟩ := map_eq_some_iff.mp h
    rw [setPc_pc_self]
    exact ⟨hjoined, asks_queue hq⟩
  case drainPop stage =>
    obtain ⟨hjoined, hknows, left, stopped, out, hout, hempty⟩ := hclosed
    have hjoined' := hjoined.turn hturn hrunning
    split at h
    · rename_i e hreply
      obtain ⟨q, hq, rfl⟩ := map_eq_some_iff.mp h
      rw [setPc_pc_self]
      exact ⟨hjoined', asks_queue hq⟩
    · rename_i hreply
      cases h
      rw [setPc_pc_self]
      exact ⟨hjoined', items_nil_of_reply hout hempty hreply⟩
    · obtain ⟨q, hq, rfl⟩ := map_eq_some_iff.mp h
      obtain ⟨-, honward⟩ := (hjoined.alone hp hkept).step hp hknows hq
      rw [setPc_pc_self]
      exact ⟨hjoined', honward.knows, left, stopped, out, honward.outcome.trans hout, hempty⟩
  case check stage =>
    obtain ⟨hjoined, hitems⟩ := hclosed
    have hjoined' := hjoined.turn hturn hrunning
    obtain rfl : stage = .final := by simpa [Pc.belongs] using hbelongs
    obtain ⟨-, h⟩ := ite_none_right_eq_some.mp h
    split at h
    · rename_i hbuffer
      cases h
      rw [setPc_pc_self]
      exact ⟨hjoined', hitems, hbuffer⟩
    · -- the flag is down, so that even a short text is written
      rw [if_neg (by rw [hjoined.running]; simp)] at h
      cases h
      rw [setPc_pc_self]
      exact ⟨hjoined', hitems, rfl⟩
  case write stage toWrite =>
    obtain ⟨hjoined, hitems, hbuffer⟩ := hclosed
    have hjoined' := hjoined.turn hturn hrunning
    obtain rfl : stage = .final := by simpa [Pc.belongs] using hbelongs
    cases h
    rw [setPc_pc_self]
    exact ⟨hjoined', hitems, hbuffer⟩

omit [DecidableEq C] in
theorem closed_cases (hbelongs : c.belongs (.owner : Thread C) = true) (h : c.Closed cfg s) :
    c = .owning ∨ ((c = .stopping ∨ c = .joining) ∧ Quit s) ∨ Joined s := by
  cases c with
  | owning => exact Or.inl rfl
  | stopping => exact Or.inr (Or.inl ⟨Or.inl rfl, h⟩)
  | joining => exact Or.inr (Or.inl ⟨Or.inr rfl, h⟩)
  | drainLock stage => exact Or.inr (Or.inr h)
  | drainPop stage => exact Or.inr (Or.inr h.1)
  | check stage => exact Or.inr (Or.inr h.1)
  | write stage toWrite => exact Or.inr (Or.inr h.1)
  | ended => exact Or.inr (Or.inr h.1)
  | _ => cases hbelongs

/-- **Every step of an orderly run keeps what the destructor has achieved.** -/
theorem closed_step (hp : 2 ≤ cfg.ring.slots) (hkept : Kept cfg s)
    (hclosed : (s.pc .owner).Closed cfg s) (horderly : Orderly s l) (h : step cfg s l = some s') :
    (s'.pc .owner).Closed cfg s' := by
  have hturn := step_turn (hkept.belongs l.1) (hkept.inTune l.1) h
  have hcases := closed_cases (hkept.belongs .owner) hclosed
  obtain ⟨t, a⟩ := l
  by_cases hstarted : s.pc .owner = .owning
  · -- the destructor has not started: only its own first step matters
    by_cases ht : t = .owner
    · subst ht
      cases a with
      | log e | flush => cases h
      | go flag =>
        replace h : advance cfg s .owner flag = some s' := h
        simp [advance, hstarted, clientStep, drainStep, writerStep, destroyStep] at h
      | destroy =>
        replace h := (ite_none_right_eq_some.mp h).2
        have hrunning := (onQueue_fields h).1
        obtain ⟨q, -, rfl⟩ := map_eq_some_iff.mp h
        rw [setPc_pc_self]
        refine ⟨hrunning, fun c => ?_⟩
        rw [hturn.others (.client c) nofun]
        exact horderly c
    · rw [hturn.others .owner (Ne.symm ht), hstarted]
      trivial
  · have hcases := hcases.resolve_left hstarted
    have hquit : Quit s := hcases.elim And.right Joined.toQuit
    cases t with
    | owner =>
      cases a with
      | log e | flush => cases h
      | destroy => exact absurd (ite_none_right_eq_some.mp h).1 hstarted
      | go flag => exact closed_owner hp hkept hclosed h
    | client c =>
      -- the clients have left for good
      cases a with
      | log e | flush => exact absurd horderly hstarted
      | destroy => cases h
      | go flag =>
        replace h : advance cfg s (.client c) flag = some s' := h
        simp [advance, hquit.out c, clientStep, drainStep, writerStep, destroyStep] at h
    | writer =>
      cases a with
      | log e | flush | destroy => cases h
      | go flag =>
        replace h : advance cfg s .writer flag = some s' := h
        have hquit' := hquit.turn hturn (advance_onward h).running nofun
        rw [hturn.others .owner nofun]
        rcases hcases with ⟨hwaits, -⟩ | hjoined
        · rcases hwaits with hpc | hpc <;> rw [hpc] <;> exact hquit'
        · -- once joined, the writer is done
          simp [advance, hjoined.done, clientStep, drainStep, writerStep, destroyStep] at h

theorem two_le_capacity (hcap : 2 ≤ cfg.capacity) : 2 ≤ cfg.ring.capacity := by
  show 2 ≤ BoundedQueue.capacity cfg.capacity
  unfold BoundedQueue.capacity
  split <;> omega

/-- **Every accepted entry is written once, or evicted and counted.** In every run of any producers,
the writer thread, callers of `flush` and finally the destructor, in whatever order their steps
interleave, if the calls of the clients have returned when the destructor starts: at its end every
entry that the queue has accepted has left it, by one pop or one eviction; the file holds the lines
of exactly those that left by a pop, each once; and `dropped()` is the number of the others. -/
theorem every_entry_written_once (hcap : 2 ≤ cfg.capacity) {run : List (Thread C × Act)}
    (horderly : Meets (step cfg) Orderly .init run) (hrun : exec (step cfg) .init run = some s)
    (hend : s.pc .owner = .ended) :
    s.queue.departures.map Prod.fst = List.range s.queue.claims.length ∧
    (∃ written : List Entry, written.Perm s.queue.survivors ∧ s.file = text cfg written) ∧
    s.queue.dropped = s.queue.evictions := by
  have hp := RingImpl.Config.two_le_slots (two_le_capacity hcap)
  obtain ⟨hkept, hclosed⟩ : Kept cfg s ∧ (s.pc .owner).Closed cfg s := by
    refine exec_invariant_of_meets (I := fun s => Kept cfg s ∧ (s.pc .owner).Closed cfg s) ?_
      ⟨kept_init, trivial⟩ horderly hrun
    rintro s l s' ⟨hkept, hclosed⟩ horderly hstep
    exact ⟨hkept.step hstep, closed_step hp hkept hclosed horderly hstep⟩
  rw [hend] at hclosed
  obtain ⟨hjoined, hitems, hbuffer⟩ := hclosed
  -- nobody is in a call, of the logger or of the queue
  have hrest (t : Thread C) : s.pc t = .out ∨ s.pc t = .done ∨ s.pc t = .ended := by
    cases t with
    | client c => exact Or.inl (hjoined.out c)
    | writer => exact Or.inr (Or.inl hjoined.done)
    | owner => exact Or.inr (Or.inr hend)
  have hidle (t : Thread C) : ∃ r, s.queue.pc t = .idle r := by
    have htune := hkept.inTune t
    rcases hrest t with hpc | hpc | hpc <;> rw [hpc] at htune <;> exact htune
  obtain ⟨hpositions, hsurvivors, hdropped⟩ :=
    RingImpl.settled_of_idle (two_le_capacity hcap) nofun hkept.reach hidle
  -- the queue is empty, so that every claimed position has departed
  have hempty : s.queue.dequeuePos = s.queue.claims.length := by
    have hlen : (s.queue.claims.drop s.queue.dequeuePos).length = 0 :=
      congrArg List.length hitems
    have hle : s.queue.dequeuePos ≤ s.queue.enqueuePos := (hkept.sighted hp).inv.head_le
    have hput : s.queue.claims.length = s.queue.enqueuePos := (hkept.sighted hp).inv.put_length
    rw [List.length_drop] at hlen
    omega
  refine ⟨by rw [hpositions, hempty], ?_, hdropped⟩
  -- and what was handed out is in the file, because nobody holds anything
  obtain ⟨w, b, f, held, hold, htally, hsum⟩ := hkept.ledger
  have hheld : held = 0 := by
    apply htally.eq_zero
    intro t
    have hw := (hold t).holds
    rcases hrest t with hpc | hpc | hpc <;> rw [hpc] at hw <;> rw [show w t = [] from hw] <;> rfl
  have hb : b = [] := eq_nil_of_text ((hold .owner).buffer.symm.trans hbuffer)
  refine ⟨f, ?_, (hold .owner).file⟩
  rw [hheld, hb, zero_add, List.nil_append] at hsum
  exact (Multiset.coe_eq_coe.mp hsum.symm).trans hsurvivors

instance [Fintype C] (s : State C) (l : Thread C × Act) : Decidable (Orderly s l) := by
  unfold Orderly
  split <;> infer_instance

end

/-! ## A run to the end -/

def Config.sample : Config := ⟨.debug, 2, fun _ => []⟩

def saying (b : UInt8) : Entry := ⟨.info, [], [b], 0⟩

/-- One client logs three entries into a queue of two cells, so that the first is evicted. Another
one flushes: it has popped the second entry when the writer puts the third into the buffer, and
writes them in this order. Then the destructor runs. -/
def crossing : List (Thread Bool × Act) :=
  let go (t : Thread Bool) (n : Nat) := List.replicate n (t, Act.go false)
  [(.client false, .log (saying 1))] ++ go (.client false) 8 ++
  [(.client false, .log (saying 2))] ++ go (.client false) 8 ++
  [(.client false, .log (saying 3))] ++ go (.client false) 16 ++
  go .writer 4 ++ [(.client true, .flush)] ++ go (.client true) 4 ++ go .writer 24 ++
  go (.client true) 9 ++ [(.owner, .destroy)] ++ go .owner 3 ++ go .writer 11 ++ go .owner 6

theorem every_entry_written_once_crossing :
    ∃ s : State Bool, exec (step .sample) .init crossing = some s ∧ s.pc .owner = .ended ∧
      s.queue.claims.length = 3 ∧ s.queue.survivors = [saying 2, saying 3] ∧
      s.queue.dropped = 1 ∧ s.queue.dropped = s.queue.evictions ∧
      ∃ written : List Entry, written.Perm [saying 2, saying 3] ∧
        s.file = text .sample written := by
  have hends : ∃ s ∈ exec (step .sample) (.init : State Bool) crossing, s.pc .owner = .ended ∧
      s.queue.claims.length = 3 ∧ s.queue.survivors = [saying 2, saying 3] ∧
      s.queue.dropped = 1 := by decide +kernel
  have horderly : Meets (step .sample) Orderly (.init : State Bool) crossing := by decide +kernel
  obtain ⟨s, hrun, hend, hclaims, hsurvivors, hdropped⟩ := hends
  obtain ⟨-, hwritten, hcounted⟩ :=
    every_entry_written_once (by decide) horderly hrun hend
  rw [hsurvivors] at hwritten
  exact ⟨s, hrun, hend, hclaims, hsurvivors, hdropped, hcounted, hwritten⟩

end Muses.Logger
