import Muses.Core.Solitary
import Muses.BoundedQueue.Sequential
import Muses.BoundedQueue.Blocking

/-!
# The two halves of `BoundedQueue` agree

`RingImpl` and `BlockingImpl` are two implementations of one interface. As long as no `push` meets a
full queue, where their policies differ, a caller who makes one call at a time cannot tell them
apart: not by what the calls return, not by `size`, not by which `wait_pop` would block.

Both are compared with `Contents`, the queue as such a caller sees it. On the side of the mutex that
is immediate. On the side of the ring a call runs through its atomic accesses, and `wait_pop` goes
round its loop once for every permit that earlier pushes have left behind before it parks.
-/

namespace Muses

open Muses.Core
open BlockingImpl (Call)
open RingImpl (Ret)

/-! ## The queue as a single caller sees it -/

structure Contents (T : Type*) where
  items : List T
  stopped : Bool
  deriving DecidableEq, Repr

namespace Contents

variable {T : Type*}

def takes (q : Contents T) (onNothing : Option (Ret T)) : Option (Contents T × Ret T) :=
  match q.items with
  | [] => onNothing.map fun r => (q, r)
  | x :: xs => some ({ q with items := xs }, .popped (some x))

def waits (q : Contents T) (timed : Bool) : Option (Ret T) :=
  if q.stopped || timed then some (.popped none) else none

def answer (q : Contents T) : Call T → Option (Contents T × Ret T)
  | .push item =>
      if q.stopped then some (q, .pushed false)
      else some ({ q with items := q.items ++ [item] }, .pushed true)
  | .tryPop => q.takes (some (.popped none))
  | .waitPop timed => q.takes (q.waits timed)
  | .stop => some ({ q with stopped := true }, .stopped)

end Contents

/-! ## `BlockingImpl` -/

namespace BlockingImpl

variable {T : Type*} {capacity : Nat} {q : Queue T} {call : Call T}

def Queue.contents (q : Queue T) : Contents T := ⟨q.buffer, q.stopped⟩

/-- A push is refused, or does not find the queue full. -/
def Call.FindsRoom (capacity : Nat) (q : Contents T) : Call T → Prop
  | .push _ => q.stopped = true ∨ q.items.length < capacity
  | _ => True

theorem alone_eq_answer (hroom : call.FindsRoom capacity q.contents) :
    ((monitor capacity).alone q call).map (fun e => (e.1.contents, e.2)) =
      q.contents.answer call := by
  cases call with
  | push item =>
    cases hstop : q.stopped with
    | true => simp [Monitor.alone, monitor, turn, hstop, Contents.answer, Queue.contents]
    | false =>
      have hlt : q.buffer.length < capacity := by
        simpa [Call.FindsRoom, Queue.contents, hstop] using hroom
      simp [Monitor.alone, monitor, turn, hstop, hlt, Contents.answer, Queue.contents]
  | tryPop =>
    cases hbuf : q.buffer <;>
      simp [Monitor.alone, monitor, turn, Queue.handOut, hbuf, Contents.answer, Contents.takes,
        Queue.contents]
  | waitPop timed =>
    cases hbuf : q.buffer with
    | nil =>
      cases hstop : q.stopped <;> cases timed <;>
        simp [Monitor.alone, monitor, turn, expires, hbuf, hstop, Contents.answer, Contents.takes,
          Contents.waits, Queue.contents]
    | cons x xs =>
      simp [Monitor.alone, monitor, turn, Queue.handOut, hbuf, Contents.answer, Contents.takes,
        Queue.contents]
  | stop => simp [Monitor.alone, monitor, turn, Contents.answer, Queue.contents]

theorem findsRoom_of_alone {e : Queue T × Ret T}
    (h : (monitor capacity).alone q call = some e) : call.FindsRoom capacity q.contents := by
  cases call with
  | push item =>
    show q.stopped = true ∨ q.buffer.length < capacity
    by_contra hnot
    obtain ⟨hstop, hlen⟩ := not_or.mp hnot
    simp [Monitor.alone, monitor, turn, expires, hstop, hlen] at h
  | tryPop | waitPop _ | stop => trivial

end BlockingImpl

/-! ## `RingImpl` -/

namespace RingImpl

variable {Tid T : Type*}

def actOf : Call T → Act T
  | .push item => .push item
  | .tryPop => .tryPop
  | .waitPop timed => .waitPop timed
  | .stop => .stop

def entryOf : Call T → Pc T
  | .push item => .pushCheck item
  | .tryPop => .popLoadPos .tryPop
  | .waitPop timed => .popLoadPos (.waitFirst timed)
  | .stop => .stopStore

def State.contents (s : State Tid T) : Contents T := ⟨s.claims.drop s.dequeuePos, s.stopped⟩

variable {cfg : Config} {s s' : State Tid T} {t : Tid} {call : Call T} {flags : List Bool}

theorem foresees_entryOf (hroom : call.FindsRoom cfg.slots s.contents) :
    ((entryOf call).foresees cfg s).map (fun o => (⟨o.queue.items, o.stopped⟩, o.ret)) =
      s.contents.answer call := by
  cases call with
  | push item =>
    cases hstop : s.stopped with
    | true => simp [entryOf, Pc.foresees, hstop, Contents.answer, State.contents]
    | false =>
      have hlt : (s.claims.drop s.dequeuePos).length < cfg.slots := by
        simpa [Call.FindsRoom, State.contents, hstop] using hroom
      simp only [entryOf, Pc.foresees, hstop]
      rw [Fifo.push_of_lt hlt]
      simp [Contents.answer, State.contents, hstop]
  | tryPop | waitPop timed =>
    cases hitems : s.claims.drop s.dequeuePos <;>
      simp [entryOf, Pc.foresees, Outcome.takes, PopCaller.onNothing, hitems, Contents.answer,
        Contents.takes, Contents.waits, State.contents]
  | stop => rfl

theorem knows_entryOf (call : Call T) : (entryOf call).knows cfg s := by
  cases call <;> trivial

variable [DecidableEq Tid]

theorem entered_of_step (h : RingImpl.step cfg s (t, actOf call) = some s') :
    s' = s.setPc t (entryOf call) := by
  have hcall : s.call t (entryOf call) = some s' := by
    cases call <;> exact h
  unfold State.call at hcall
  split at hcall <;> cases hcall
  rfl

theorem AtEase.enters (h : AtEase cfg s) (t : Tid) (call : Call T) :
    RingImpl.step cfg s (t, actOf call) = some (s.setPc t (entryOf call)) := by
  obtain ⟨r, hr⟩ := h.idle t
  cases call <;> exact call_of_idle hr _

theorem AtEase.answers (hp : 2 ≤ cfg.slots) (h : AtEase cfg s)
    (hroom : call.FindsRoom cfg.slots s.contents) {r : Ret T}
    (hret : returned cfg s t (actOf call) flags = some (s', r)) :
    AtEase cfg s' ∧ s.contents.answer call = some (s'.contents, r) := by
  obtain ⟨hease, hout⟩ := h.of_returned hp (h.enters t call) (knows_entryOf call) hret
  refine ⟨hease, ?_⟩
  rw [← foresees_entryOf hroom, hout]
  rfl

theorem AtEase.returned_eq_none (hp : 2 ≤ cfg.slots) (h : AtEase cfg s) (t : Tid)
    (call : Call T) :
    (∀ flags, returned cfg s t (actOf call) flags = none) ↔
      (entryOf call).foresees cfg s = none := by
  have hstart := h.enters t call
  constructor
  · intro hnone
    have hstarted : started cfg s t (actOf call) [] = some (s.setPc t (entryOf call)) :=
      (exec_cons_of_step [] hstart).trans rfl
    obtain ⟨more, -, ⟨hret, -⟩ | ⟨hblocks, -⟩⟩ :=
      h.ends hp hstart (knows_entryOf call) hstarted
    · rw [hnone] at hret
      cases hret
    · exact hblocks
  · intro hnone flags
    by_contra hsome
    obtain ⟨⟨s', r⟩, hr⟩ := Option.ne_none_iff_exists'.mp hsome
    obtain ⟨-, hout⟩ := h.of_returned hp hstart (knows_entryOf call) hr
    rw [hnone] at hout
    cases hout

end RingImpl

/-! ## The agreement -/

namespace BoundedQueue

variable {Tid T : Type*} [DecidableEq Tid]

/-- A call of a thread, with what happens inside it on either side: which compare-exchanges of the
ring fail spuriously and which timed acquires run into their timeout; and the steps of the thread
with the mutex. -/
structure Entry (Tid T : Type*) where
  thread : Tid
  call : Call T
  flags : List Bool
  own : List Monitor.Own

/-- Calls one after the other: what each has returned, and `size` behind it. -/
def ringSession (cfg : RingImpl.Config) :
    RingImpl.State Tid T → List (Entry Tid T) →
      Option (RingImpl.State Tid T × List (Ret T × Nat)) :=
  Core.session fun s e => (RingImpl.returned cfg s e.thread (RingImpl.actOf e.call) e.flags).map
    fun p => (p.1, p.2, p.1.size)

def blockingSession (capacity : Nat) :
    BlockingImpl.State Tid T → List (Entry Tid T) →
      Option (BlockingImpl.State Tid T × List (Ret T × Nat)) :=
  Core.session fun b e =>
    (Monitor.returned (BlockingImpl.monitor capacity) b e.thread e.call e.own).map
      fun p => (p.1, p.2, p.1.shared.buffer.length)

/-- Nobody is in a call, and both queues have the same contents. -/
structure Alike (cfg : RingImpl.Config) (s : RingImpl.State Tid T)
    (b : BlockingImpl.State Tid T) : Prop where
  ring : RingImpl.AtEase cfg s
  blocking : Monitor.Vacant b
  same : s.contents = b.shared.contents

variable {cfg : RingImpl.Config} {s s' : RingImpl.State Tid T} {b b' : BlockingImpl.State Tid T}

omit [DecidableEq Tid] in
theorem Alike.size_eq (h : Alike cfg s b) : s.size = b.shared.buffer.length := by
  rw [h.ring.size_eq]
  exact congrArg (fun q => q.items.length) h.same

theorem Alike.call (hp : 2 ≤ cfg.slots) (h : Alike cfg s b) {t : Tid} {call : Call T}
    {flags : List Bool} {own : List Monitor.Own} {r r' : Ret T}
    (hring : RingImpl.returned cfg s t (RingImpl.actOf call) flags = some (s', r))
    (hblocking : Monitor.returned (BlockingImpl.monitor cfg.slots) b t call own = some (b', r')) :
    Alike cfg s' b' ∧ r = r' := by
  obtain ⟨hvacant, halone⟩ := h.blocking.of_returned hblocking
  have hroom := BlockingImpl.findsRoom_of_alone halone
  have hanswer := BlockingImpl.alone_eq_answer hroom
  rw [halone, ← h.same] at hanswer
  rw [← h.same] at hroom
  obtain ⟨hease, hanswer'⟩ := h.ring.answers hp hroom hring
  rw [hanswer'] at hanswer
  obtain ⟨hsame, hr⟩ := Prod.mk.inj (Option.some.inj hanswer)
  exact ⟨⟨hease, hvacant, hsame.symm⟩, hr.symm⟩

theorem Alike.session (hp : 2 ≤ cfg.slots) (h : Alike cfg s b) {es : List (Entry Tid T)}
    {rs bs : List (Ret T × Nat)} (hring : ringSession cfg s es = some (s', rs))
    (hblocking : blockingSession cfg.slots b es = some (b', bs)) : Alike cfg s' b' ∧ rs = bs := by
  induction es generalizing s b rs bs with
  | nil =>
    cases hring
    cases hblocking
    exact ⟨h, rfl⟩
  | cons e es ih =>
    obtain ⟨_, _, rs₁, hs, hrest, rfl⟩ := session_cons hring
    obtain ⟨_, _, bs₁, hb, hrest', rfl⟩ := session_cons hblocking
    obtain ⟨⟨m, r⟩, hm, hpair⟩ := Option.map_eq_some_iff.mp hs
    obtain ⟨⟨n, r'⟩, hn, hpair'⟩ := Option.map_eq_some_iff.mp hb
    cases hpair
    cases hpair'
    obtain ⟨halike, rfl⟩ := h.call hp hm hn
    obtain ⟨hend, rfl⟩ := ih halike hrest hrest'
    exact ⟨hend, by rw [halike.size_eq]⟩

/-- However its atomic operations fail, the call does not return. -/
def RingBlocks (cfg : RingImpl.Config) (s : RingImpl.State Tid T) (t : Tid) (call : Call T) :
    Prop :=
  ∀ flags, RingImpl.returned cfg s t (RingImpl.actOf call) flags = none

/-- Whatever the waits do, the call does not return. -/
def BlockingBlocks (capacity : Nat) (b : BlockingImpl.State Tid T) (t : Tid) (call : Call T) :
    Prop :=
  ∀ own, Monitor.returned (BlockingImpl.monitor capacity) b t call own = none

/-- **The two implementations agree.** For every capacity that is a power of two from two on, either
policy, and every sequence of calls that return on both sides (so no `push` has met a full queue),
whatever happens inside the calls: each call has returned the same value and left the same `size`.
After it, any call that is not a `push` to a full queue blocks on the one side exactly if it blocks
on the other. From wherever it stands among its accesses to the ring, a call that does not block can
be brought to its return, and one that does ends up parked in `sem_.acquire()`. -/
theorem bounded_queues_agree {requested : Nat} (hpow : ∃ k, requested = 2 ^ (k + 1))
    {policy : OverflowPolicy} {es : List (Entry Tid T)} {rs bs : List (Ret T × Nat)}
    (hring : ringSession (ring requested policy) RingImpl.State.init es = some (s, rs))
    (hblocking : blockingSession (capacity requested) BlockingImpl.State.init es = some (b, bs)) :
    rs = bs ∧ s.size = b.shared.buffer.length ∧
    ∀ t call, BlockingImpl.Call.FindsRoom (capacity requested) b.shared.contents call →
      (RingBlocks (ring requested policy) s t call ↔
        BlockingBlocks (capacity requested) b t call) ∧
      ∀ flags m, RingImpl.started (ring requested policy) s t (RingImpl.actOf call) flags = some m →
        (¬ RingBlocks (ring requested policy) s t call → ∃ more,
          (RingImpl.returned (ring requested policy) s t (RingImpl.actOf call)
            (flags ++ more)).isSome) ∧
        (RingBlocks (ring requested policy) s t call → ∃ more m',
          RingImpl.started (ring requested policy) s t (RingImpl.actOf call)
            (flags ++ more) = some m' ∧ m'.Parked t) := by
  obtain ⟨hslots, hp⟩ := slots_of_pow policy hpow
  rw [← hslots] at hblocking ⊢
  have hinit : Alike (ring requested policy) (RingImpl.State.init : RingImpl.State Tid T)
      BlockingImpl.State.init :=
    ⟨RingImpl.atEase_init hp, Monitor.vacant_init _, rfl⟩
  obtain ⟨halike, hsame⟩ := hinit.session hp hring hblocking
  refine ⟨hsame, halike.size_eq, fun t call hroom => ?_⟩
  have hblocks := halike.blocking.returned_eq_none
    (M := BlockingImpl.monitor (ring requested policy).slots) t call
  have hanswer := BlockingImpl.alone_eq_answer hroom
  rw [← halike.same] at hanswer hroom
  have hparks := halike.ring.returned_eq_none hp t call
  refine ⟨?_, fun flags m hstarted => ?_⟩
  · show (∀ flags, _) ↔ ∀ own, _
    rw [hparks, hblocks, ← Option.map_eq_none_iff, RingImpl.foresees_entryOf hroom, ← hanswer,
      Option.map_eq_none_iff]
  · obtain ⟨more, -, ⟨hret, hsome⟩ | ⟨hnone, hparked⟩⟩ :=
      halike.ring.ends hp (halike.ring.enters t call) (RingImpl.knows_entryOf call) hstarted
    · exact ⟨fun _ => ⟨more, hret⟩, fun hnever => absurd (hparks.mp hnever) hsome⟩
    · exact ⟨fun hnot => absurd (hparks.mpr hnone) hnot, fun _ => ⟨more, hparked⟩⟩

/-- The permit of the first `push` is still there when the queue is empty again: the timed
`wait_pop` acquires it, finds nothing, and runs into its timeout the second time round. -/
def stalePermit : List (Entry Unit Nat) :=
  [⟨(), .push 7, List.replicate 7 false, [.turn]⟩,
   ⟨(), .waitPop false, List.replicate 6 false, [.turn]⟩,
   ⟨(), .waitPop true, List.replicate 7 false ++ [true, false, false],
     [.turn, .spurious, .turn, .expire, .turn]⟩,
   ⟨(), .push 8, List.replicate 7 false, [.turn]⟩, ⟨(), .stop, List.replicate 2 false, [.turn]⟩,
   ⟨(), .push 9, [false], [.turn]⟩, ⟨(), .waitPop false, List.replicate 6 false, [.turn]⟩]

theorem bounded_queues_agree_stalePermit :
    ∃ s rs b bs,
      ringSession (ring 2 .dropOldest) RingImpl.State.init stalePermit = some (s, rs) ∧
      blockingSession (capacity 2) BlockingImpl.State.init stalePermit = some (b, bs) ∧
      rs = [(.pushed true, 1), (.popped (some 7), 0), (.popped none, 0), (.pushed true, 1),
        (.stopped, 1), (.pushed false, 1), (.popped (some 8), 0)] ∧
      rs = bs := by
  have hall {s : RingImpl.State Unit Nat} {b : BlockingImpl.State Unit Nat}
      {rs bs : List (Ret Nat × Nat)}
      (hring : ringSession (ring 2 .dropOldest) RingImpl.State.init stalePermit = some (s, rs))
      (hblocking : blockingSession (capacity 2) BlockingImpl.State.init stalePermit =
        some (b, bs)) : rs = bs :=
    (bounded_queues_agree ⟨0, rfl⟩ hring hblocking).1
  exact ⟨_, _, _, _, rfl, rfl, rfl, hall rfl rfl⟩

end BoundedQueue

end Muses
