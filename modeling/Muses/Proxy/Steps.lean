import Muses.Proxy.Protocol

/-!
# What one step can do

`runFrame` makes one system call and runs on to the next; `loopStep` runs while no coroutine does.
This module takes the code of both apart, once for all that is proved about it later: `Ran` lists
what a step of a coroutine can do, with the state in which it ends, `Behind` what the code does when
a reading helper has returned, and `LoopMove` what the event loop does. Everything else about a step
is a case analysis of these.
-/

namespace Muses.Proxy

open Muses.Core Text Search HttpContext Http Function Option
open World (ReadResult WriteResult readChunk)

/-! ## Places -/

/-- More bytes are needed. -/
def Part.Hungry : Part → Bytes → Prop
  | .chunkLine cb, buf => find crlf cb = none ∧ find crlf buf = none
  | .sized _ want, buf => buf.length < want
  | .chunk _, buf => buf.length < 4096
  | .rest _, buf => buf.length < 4096

def Part.want : Part → Option Nat
  | .chunkLine _ => none
  | .chunk _ => some 4096
  | .sized _ want => some want
  | .rest _ => some 4096

theorem Part.hungry_iff {part : Part} {n : Nat} (h : part.want = some n) (buf : Bytes) :
    part.Hungry buf ↔ buf.length < n := by
  cases part with
  | chunkLine _ => cases h
  | chunk _ | sized _ _ | rest _ =>
    cases h
    exact Iff.rfl

namespace Pc

/-- More bytes are needed. -/
def Hungry : Pc → Prop
  | .readHead buf => find blankLine buf = none
  | .readBody _ _ want buf => buf.length < want
  | .readUpHead _ _ _ buf => find blankLine buf = none
  | .readUp _ _ _ _ part buf => part.Hungry buf
  | _ => True

theorem push_nil (pc : Pc) : pc.push [] = pc := by
  cases pc <;> simp [Pc.push]

def buffer : Pc → Bytes
  | .readHead buf => buf
  | .readBody _ _ _ buf => buf
  | .readUpHead _ _ _ buf => buf
  | .readUp _ _ _ _ _ buf => buf
  | _ => []

def round : Pc → ReadResult → Round Bytes Bytes
  | .readHead buf, r => readUntil blankLine buf r
  | .readBody _ _ want buf, r => readN want buf r
  | .readUpHead _ _ _ buf, r => readUntil blankLine buf r
  | .readUp _ _ _ _ part buf, r => part.round buf r
  | _, _ => .done []

def writes : Pc → Option (Bytes × Nat)
  | .refusing resp off => some (resp, off)
  | .answering _ resp off => some (resp, off)
  | _ => none

def seek (off : Nat) : Pc → Pc
  | .refusing resp _ => .refusing resp off
  | .answering x resp _ => .answering x resp off
  | pc => pc

end Pc

/-! ## System calls -/

def readBytes : ReadResult → Bytes
  | .data bs => bs
  | _ => []

theorem sysRead_spec {s s' : State} {fd : Fd} {limit : Nat} {r : ReadResult}
    (h : s.sysRead fd limit r = some s') :
    (∃ bs c, r = .data bs ∧ s.fds fd = some c ∧ bs ≠ [] ∧ bs.length ≤ limit ∧
      bs <+: (s.conns c).rx ∧ s' = s.setConn c { s.conns c with
        rx := (s.conns c).rx.drop bs.length, got := (s.conns c).got ++ bs }) ∨
    (readBytes r = [] ∧ s' = s ∧ (r = .eof → s.view.AtEnd fd)) := by
  cases hfd : s.fds fd with
  | none =>
    cases r with
    | error => simp_all [State.sysRead, readBytes]
    | data _ | eof | eagain | eintr => simp [State.sysRead, hfd] at h
  | some c =>
    cases r with
    | data bs =>
      simp only [State.sysRead, hfd, ite_none_right_eq_some, Option.some.injEq] at h
      obtain ⟨⟨hne, hlimit, hrx⟩, rfl⟩ := h
      exact .inl ⟨bs, c, rfl, rfl, hne, hlimit, hrx, rfl⟩
    | eof =>
      simp only [State.sysRead, hfd, ite_none_right_eq_some, Option.some.injEq] at h
      obtain ⟨⟨hrx, hfin⟩, rfl⟩ := h
      exact .inr ⟨rfl, rfl, fun _ => ⟨c, hfd, hrx, hfin⟩⟩
    | eagain | eintr | error =>
      right
      simp_all [State.sysRead, readBytes]

theorem sysRead_data {s s₁ : State} {fd : Fd} {limit : Nat} {bs : Bytes}
    (h : s.sysRead fd limit (.data bs) = some s₁) : bs ≠ [] := by
  cases hfd : s.fds fd with
  | none => simp [State.sysRead, hfd] at h
  | some d =>
    simp only [State.sysRead, hfd] at h
    exact (ite_none_right_eq_some.mp h).1.1

/-- How a round of a reading helper ends: it needs more, it waits, or it returns what is then in its
buffer, with too little only at the end of the stream or on an error. `before` and `after` say that
it needs more than it had, and than it has then. -/
inductive Rounds (before after : Prop) (buf : Bytes) (r : ReadResult) :
    Round Bytes Bytes → Prop where
  | again {v : Bytes} (hv : v = buf ++ readBytes r) (hr : r = .eintr ∨ ∃ bs, r = .data bs)
      (hkeeps : before → after) : Rounds before after buf r (.again v)
  | await {v : Bytes} (hv : v = buf) (hr : r = .eagain) : Rounds before after buf r (.await v)
  | done {v : Bytes} (hv : v = buf ++ readBytes r)
      (hr : r = .eof ∨ r = .error ∨ ∃ bs, r = .data bs)
      (hended : after → r = .eof ∨ r = .error) : Rounds before after buf r (.done v)

theorem readUntil_rounds (delimiter buf : Bytes) (r : ReadResult) :
    Rounds (find delimiter buf = none) (find delimiter (buf ++ readBytes r) = none) buf r
      (readUntil delimiter buf r) := by
  cases r with
  | data bs =>
    simp only [readUntil]
    split
    · next hfound =>
      refine .done rfl (.inr (.inr ⟨bs, rfl⟩)) fun hmiss => ?_
      rw [show find delimiter (buf ++ bs) = none from hmiss] at hfound
      cases hfound
    · next hmiss =>
      exact .again rfl (.inr ⟨bs, rfl⟩) fun _ => not_isSome_iff_eq_none.mp hmiss
  | eintr => exact .again (by simp [readBytes]) (.inl rfl) (by simp [readBytes])
  | eagain => exact .await rfl rfl
  | eof => exact .done (by simp [readBytes]) (.inl rfl) fun _ => .inl rfl
  | error => exact .done (by simp [readBytes]) (.inr (.inl rfl)) fun _ => .inr rfl

theorem readN_rounds (n : Nat) (buf : Bytes) (r : ReadResult) :
    Rounds (buf.length < n) ((buf ++ readBytes r).length < n) buf r (readN n buf r) := by
  cases r with
  | data bs =>
    simp only [readN]
    split
    · next hlen => exact .again rfl (.inr ⟨bs, rfl⟩) fun _ => hlen
    · next hlen => exact .done rfl (.inr (.inr ⟨bs, rfl⟩)) fun hless => absurd hless hlen
  | eintr => exact .again (by simp [readBytes]) (.inl rfl) (by simp [readBytes])
  | eagain => exact .await rfl rfl
  | eof => exact .done (by simp [readBytes]) (.inl rfl) fun _ => .inl rfl
  | error => exact .done (by simp [readBytes]) (.inr (.inl rfl)) fun _ => .inr rfl

theorem Part.round_rounds (part : Part) (buf : Bytes) (r : ReadResult) :
    Rounds (part.Hungry buf) (part.Hungry (buf ++ readBytes r)) buf r (part.round buf r) := by
  cases part with
  | chunkLine cb =>
    show Rounds _ _ buf r (readUntil crlf buf r)
    have hrounds := readUntil_rounds crlf buf r
    generalize readUntil crlf buf r = round at hrounds
    cases hrounds with
    | again hv hr hkeeps => exact .again hv hr fun h => ⟨h.1, hkeeps h.2⟩
    | await hv hr => exact .await hv hr
    | done hv hr hended => exact .done hv hr fun h => hended h.2
  | chunk _ | sized _ _ | rest _ => exact readN_rounds _ buf r

theorem Pc.round_rounds {pc : Pc} {client fd : Fd} (hsrc : pc.source client = some fd)
    (r : ReadResult) :
    Rounds pc.Hungry (pc.push (readBytes r)).Hungry pc.buffer r (pc.round r) := by
  cases pc with
  | readHead buf => exact readUntil_rounds blankLine buf r
  | readBody info body want buf => exact readN_rounds want buf r
  | readUpHead x a fd buf => exact readUntil_rounds blankLine buf r
  | readUp x a fd resp part buf => exact part.round_rounds buf r
  | _ => cases hsrc

/-! ## The code behind a reading helper -/

/-- The request that the coroutine has read. -/
inductive Pc.Asks (pc : Pc) : HttpInfo → Bytes → Prop where
  | head {head : Bytes} {pos : Nat} (hpc : pc = .readHead head)
      (hpos : find blankLine head = some pos)
      (hlen : announced head ≤ (head.drop (pos + 4)).length) :
      Asks pc (parseRequest head) (head.drop (pos + 4))
  | body {info : HttpInfo} {body buf : Bytes} {want : Nat}
      (hpc : pc = .readBody info body want buf) : Asks pc info (body ++ buf)

/-- What coroutine `id` does when its helper has returned: `s` is the state behind the system call,
and `pc` the place of the helper with its buffer filled. -/
inductive Behind (cfg : Config) (A : Assume) (v : View) (s : State) (id : ConnId) (f : Frame)
    (reserveOk : Bool) (pc : Pc) : State → Prop where
  -- a request
  | noHead {head : Bytes} (hpc : pc = .readHead head) (hnone : find blankLine head = none) :
      Behind cfg A v s id f reserveOk pc (s.finish id f)
  | wantBody {head : Bytes} {pos : Nat} (hpc : pc = .readHead head)
      (hpos : find blankLine head = some pos)
      (hlen : (head.drop (pos + 4)).length < announced head) :
      Behind cfg A v s id f reserveOk pc
        (s.goto id f (.readBody (parseRequest head) (head.drop (pos + 4))
          (announced head - (head.drop (pos + 4)).length) []))
  | noRoute {info : HttpInfo} {body : Bytes} (hasks : pc.Asks info body)
      (hroute : selectRoute cfg.routes info.url = none) :
      Behind cfg A v s id f reserveOk pc (s.refuse id f "no route")
  | shut {info : HttpInfo} {body : Bytes} {route : ProxyRoute} (hasks : pc.Asks info body)
      (hroute : selectRoute cfg.routes info.url = some route)
      (hsick : (s.isHealthy cfg route.key).1 = false) :
      Behind cfg A v s id f reserveOk pc
        ((s.isHealthy cfg route.key).2.refuse id f "upstream unavailable")
  | gate {info : HttpInfo} {body : Bytes} {route : ProxyRoute} (hasks : pc.Asks info body)
      (hroute : selectRoute cfg.routes info.url = some route)
      (hhealthy : (s.isHealthy cfg route.key).1 = true) :
      Behind cfg A v s id f reserveOk pc
        ((s.isHealthy cfg route.key).2.goto id f
          (.acquiring ⟨info, route, fwdRequest info body⟩ 0))
  -- a response
  | noUpHead {x : Exchange} {a : UInt32} {fd : Fd} {head : Bytes}
      (hpc : pc = .readUpHead x a fd head) (hnone : find blankLine head = none) :
      Behind cfg A v s id f reserveOk pc ((s.close fd).failAttempt cfg id f x a)
  | plan {x : Exchange} {a : UInt32} {fd : Fd} {head : Bytes} {pos : Nat} {part : Part}
      (hpc : pc = .readUpHead x a fd head) (hpos : find blankLine head = some pos)
      (hplan : Plan head (head.drop (pos + 4)) part) (hungry : part.Hungry []) :
      Behind cfg A v s id f reserveOk pc
        (s.goto id f (.readUp x a fd (head.take (pos + 4)) part []))
  | next {x : Exchange} {a : UInt32} {fd : Fd} {resp buf : Bytes} {part part' : Part}
      (hpc : pc = .readUp x a fd resp part buf) (hnext : Part.Next buf part part')
      (hungry : part'.Hungry []) (hrest : ∀ body, part = .rest body → buf ≠ []) :
      Behind cfg A v s id f reserveOk pc (s.goto id f (.readUp x a fd resp part' []))
  | complete {x : Exchange} {fd : Fd} (hx : pc.exchange = some x) (hup : pc.upFd = some fd)
      (hcomplete : Complete A v id pc) :
      Behind cfg A v s id f reserveOk pc (s.afterResponse id f x fd pc.taken)
  /-- entering `read_n` throws -/
  | noMemory (hreserve : reserveOk = false)
      (hpc : (∃ head, pc = .readHead head) ∨ ∃ fd, pc.upFd = some fd) :
      Behind cfg A v s id f reserveOk pc (s.finish id f)

section Code

variable {cfg : Config} {A : Assume} {v : View} {s : State} {id : ConnId} {f : Frame} {pc : Pc}
  {ok : Bool} {x : Exchange} {a : UInt32} {fd : Fd} {resp : Bytes}

theorem afterBody_behind {info : HttpInfo} {body : Bytes} (hasks : pc.Asks info body) :
    Behind cfg A v s id f ok pc (s.afterBody cfg id f info body) := by
  unfold State.afterBody
  split
  · next hroute => exact .noRoute hasks hroute
  · next route hroute =>
    dsimp only
    split
    · next hhealthy =>
      -- the number of the first attempt is never over the bound
      have hfirst : (0 : UInt32) ≤ cfg.maxRetries := by simp
      rw [State.beginAttempt, if_pos hfirst]
      exact .gate hasks hroute hhealthy
    · next hsick => exact .shut hasks hroute (by simpa using hsick)

theorem afterHead_behind (head : Bytes) :
    Behind cfg A v s id f ok (.readHead head) (s.afterHead cfg id f head ok) := by
  unfold State.afterHead
  split
  · next hnone => exact .noHead rfl hnone
  · next pos hpos =>
    dsimp only
    split
    · next hlen =>
      split
      · exact .wantBody rfl hpos hlen
      · next hreserve => exact .noMemory (by simpa using hreserve) (.inl ⟨head, rfl⟩)
    · next hlen => exact afterBody_behind (.head rfl hpos (Nat.le_of_not_lt hlen))

theorem enterReadN_behind {part : Part} (hup : pc.upFd = some fd)
    (hnext : Behind cfg A v s id f ok pc (s.goto id f (.readUp x a fd resp part []))) :
    Behind cfg A v s id f ok pc (s.enterReadN id f x a fd resp part ok) := by
  unfold State.enterReadN
  split
  · exact hnext
  · next hreserve => exact .noMemory (by simpa using hreserve) (.inr ⟨fd, hup⟩)

theorem chunkLoop_behind {cb : Bytes} (hx : pc.exchange = some x) (hup : pc.upFd = some fd)
    (htaken : resp ++ cb = pc.taken) (hlast : (find lastChunk cb).isSome → Complete A v id pc)
    (hmore : find lastChunk cb = none → ∀ part, part.Hungry [] →
      part = .chunkLine cb ∨ (part = .chunk cb ∧ (find crlf cb).isSome) →
      Behind cfg A v s id f ok pc (s.goto id f (.readUp x a fd resp part []))) :
    Behind cfg A v s id f ok pc (s.chunkLoop id f x a fd resp cb ok) := by
  unfold State.chunkLoop
  split
  · next h =>
    rw [htaken]
    exact .complete hx hup (hlast h)
  · next h =>
    rw [not_isSome_iff_eq_none] at h
    split
    · next hline =>
      exact hmore h _ ⟨isNone_iff_eq_none.mp hline, rfl⟩ (.inl rfl)
    · next hline =>
      rw [isNone_iff_eq_none, ← ne_eq, ne_none_iff_isSome] at hline
      exact enterReadN_behind hup (hmore h _ (Nat.zero_lt_succ _) (.inr ⟨rfl, hline⟩))

theorem afterUpHead_behind (head : Bytes) :
    Behind cfg A v s id f ok (.readUpHead x a fd head)
      (s.afterUpHead cfg id f x a fd head ok) := by
  unfold State.afterUpHead
  split
  · next hnone => exact .noUpHead rfl hnone
  · next pos hpos =>
    have htaken : head.take (pos + 4) ++ head.drop (pos + 4) =
        (Pc.readUpHead x a fd head).taken := List.take_append_drop _ _
    dsimp only
    split
    · next hchunked =>
      refine chunkLoop_behind rfl rfl htaken (.chunkedHead hpos hchunked)
        fun hlast part hungry hpart => .plan rfl hpos ?_ hungry
      rcases hpart with rfl | ⟨rfl, hline⟩
      · exact .chunkLine hchunked hlast
      · exact .chunk hchunked hlast hline
    · next hchunked =>
      have hchunked : isChunked head = false := by simpa [isChunked] using hchunked
      split
      · next hcl =>
        have hsized : isSized head = true := by simp [isSized, hchunked, hcl]
        split
        · next hlen =>
          exact enterReadN_behind rfl (.plan rfl hpos (.sized hsized hlen) (Nat.sub_pos_of_lt hlen))
        · next hlen =>
          rw [htaken]
          exact .complete rfl rfl (.sizedHead hpos hsized (Nat.le_of_not_lt hlen))
      · next hcl =>
        have hsized : isSized head = false := by
          simp only [isSized, Decidable.not_not.mp hcl, ne_eq, not_true_eq_false, decide_false,
            Bool.and_false]
        exact enterReadN_behind rfl (.plan rfl hpos (.rest hchunked hsized) (Nat.zero_lt_succ _))

theorem afterPart_behind {buf : Bytes} {part : Part}
    (hret : ∀ n, part.want = some n → n ≤ buf.length ∨ v.Ended A id fd) :
    Behind cfg A v s id f ok (.readUp x a fd resp part buf)
      (s.afterPart id f x a fd resp part ok buf) := by
  -- an empty result of `read_n` is one that did not get all it was to read
  have hdry (before : Bytes) (hpart : part = .chunk before ∨ part = .rest before)
      (hbuf : buf = []) : Behind cfg A v s id f ok (.readUp x a fd resp part buf)
        (s.afterResponse id f x fd (resp ++ before)) := by
    have htaken : resp ++ before = (Pc.readUp x a fd resp part buf).taken := by
      rcases hpart with rfl | rfl <;> simp [Pc.taken, Part.before, hbuf]
    have hend : v.Ended A id fd := by
      rcases hpart with rfl | rfl <;> exact (hret 4096 rfl).resolve_left (by simp [hbuf])
    rw [htaken]
    refine .complete rfl rfl ?_
    subst hbuf
    exact .dry hpart hend
  cases part with
  | chunkLine cb =>
    refine chunkLoop_behind rfl rfl rfl (.lastChunkRead (.inl rfl))
      fun hlast part hungry hpart => .next rfl ?_ hungry (by simp)
    rcases hpart with rfl | ⟨rfl, hline⟩
    · exact .chunkLine (.inl rfl) hlast
    · exact .chunk (.inl rfl) hlast hline
  | chunk cb =>
    simp only [State.afterPart]
    split
    · next hmore => exact hdry cb (.inl rfl) hmore
    · split
      · next hcap => exact .complete rfl rfl (.cap (.inl rfl) hcap)
      · refine chunkLoop_behind rfl rfl rfl (.lastChunkRead (.inr rfl))
          fun hlast part hungry hpart => .next rfl ?_ hungry (by simp)
        rcases hpart with rfl | ⟨rfl, hline⟩
        · exact .chunkLine (.inr rfl) hlast
        · exact .chunk (.inr rfl) hlast hline
  | sized body want => exact .complete rfl rfl (.sized (hret want rfl))
  | rest body =>
    simp only [State.afterPart]
    split
    · next hmore => exact hdry body (.inr rfl) hmore
    · next hmore =>
      split
      · next hcap => exact .complete rfl rfl (.cap (.inr rfl) hcap)
      · exact enterReadN_behind rfl (.next rfl .rest (Nat.zero_lt_succ _) fun _ _ => hmore)

end Code

/-! ## One step -/

/-- The rounds of `write_all`. -/
inductive Wrote (data : Bytes) (off : Nat) : WriteResult → Round Nat Bool → Prop where
  | intr : Wrote data off .eintr (.again off)
  | some {n : Nat} (hlen : off + n < data.length) : Wrote data off (.wrote n) (.again (off + n))
  | blocked : Wrote data off .eagain (.await off)
  | all {n : Nat} (hlen : data.length ≤ off + n) : Wrote data off (.wrote n) (.done true)
  | failed : Wrote data off .error (.done false)

theorem writeAllAsync_wrote (data : Bytes) (off : Nat) (w : WriteResult) :
    Wrote data off w (writeAllAsync data off w) := by
  cases w with
  | wrote n =>
    simp only [writeAllAsync]
    split
    · next hlen => exact .some hlen
    · next hlen => exact .all (Nat.le_of_not_lt hlen)
  | eagain => exact .blocked
  | eintr => exact .intr
  | error => exact .failed

/-- **What a step of coroutine `id`, whose frame is `f`, can do.** -/
inductive Ran (cfg : Config) (A : Assume) (s : State) (id : ConnId) (f : Frame) (io : Io) :
    State → Prop where
  -- a reading helper goes on, waits, returns
  | readOn {fd : Fd} {r : ReadResult} {s₁ : State} (hsrc : f.pc.source f.client = some fd)
      (hcall : io.call = .read r) (hread : s.sysRead fd f.pc.limit r = some s₁)
      (hr : r = .eintr ∨ ∃ bs, r = .data bs)
      (hkeeps : f.pc.Hungry → (f.pc.push (readBytes r)).Hungry)
      (hround : f.pc.round r = .again (f.pc.buffer ++ readBytes r)) :
      Ran cfg A s id f io (s₁.goto id f (f.pc.push (readBytes r)))
  | readWait {fd : Fd} (hsrc : f.pc.source f.client = some fd) (hcall : io.call = .read .eagain)
      (hround : f.pc.round .eagain = .await f.pc.buffer) :
      Ran cfg A s id f io (s.awaitIo id f fd .Readable io.addOk f.pc)
  | readEnd {fd : Fd} {r : ReadResult} {s₁ s' : State} (hsrc : f.pc.source f.client = some fd)
      (hcall : io.call = .read r) (hread : s.sysRead fd f.pc.limit r = some s₁)
      (hr : r = .eof ∨ r = .error ∨ ∃ bs, r = .data bs)
      (hended : (f.pc.push (readBytes r)).Hungry → r = .eof ∨ r = .error)
      (hround : f.pc.round r = .done (f.pc.buffer ++ readBytes r))
      (hbehind : Behind cfg A (s₁.goto id f (f.pc.push (readBytes r))).view s₁ id f io.reserveOk
        (f.pc.push (readBytes r)) s') : Ran cfg A s id f io s'
  -- an answer is written to the client
  | writeOn {data : Bytes} {off off' : Nat} {w : WriteResult}
      (hpc : f.pc.writes = some (data, off)) (hcall : io.call = .write w)
      (hwrote : Wrote data off w (.again off')) : Ran cfg A s id f io (s.goto id f (f.pc.seek off'))
  | writeWait {data : Bytes} {off : Nat} (hpc : f.pc.writes = some (data, off))
      (hcall : io.call = .write .eagain) :
      Ran cfg A s id f io (s.awaitIo id f f.client .Writable io.addOk f.pc)
  | refused {resp : Bytes} {off : Nat} {w : WriteResult} {ok : Bool}
      (hpc : f.pc = .refusing resp off) (hcall : io.call = .write w)
      (hwrote : Wrote resp off w (.done ok)) : Ran cfg A s id f io (s.finish id f)
  | answered {x : Exchange} {resp : Bytes} {off : Nat} {w : WriteResult} {ok : Bool}
      (hpc : f.pc = .answering x resp off) (hcall : io.call = .write w)
      (hwrote : Wrote resp off w (.done ok)) : Ran cfg A s id f io (s.afterAnswer id f x ok)
  -- a connection to the upstream
  | reuse {x : Exchange} {a : UInt32} {fd : Fd} {rest : List Fd} (hpc : f.pc = .acquiring x a)
      (hpool : s.pools x.route.key = fd :: rest) (hcall : io.call = .reuse) :
      Ran cfg A s id f io
        (({ s with pools := update s.pools x.route.key rest }.newRound fd).startForward
          id f x a fd)
  | connect {x : Exchange} {a : UInt32} {fd : Fd} (hpc : f.pc = .acquiring x a)
      (hcall : io.call = .connect (.connected fd)) (hfd : s.fds fd = none)
      (hlisten : fd ≠ cfg.listenFd) :
      Ran cfg A s id f io ((s.openConn fd true).startForward id f x a fd)
  | connectWait {x : Exchange} {a : UInt32} {fd : Fd} (hpc : f.pc = .acquiring x a)
      (hcall : io.call = .connect (.inProgress fd)) (hfd : s.fds fd = none)
      (hlisten : fd ≠ cfg.listenFd) :
      Ran cfg A s id f io
        ((s.openConn fd true).awaitIo id f fd .Writable io.addOk (.connecting x a fd))
  | noConnection {x : Exchange} {a : UInt32} (hpc : f.pc = .acquiring x a)
      (hcall : io.call = .connect .noSocket ∨ io.call = .connect .refused) :
      Ran cfg A s id f io (s.failAttempt cfg id f x a)
  | connected {x : Exchange} {a : UInt32} {fd : Fd} (hpc : f.pc = .connecting x a fd)
      (hcall : io.call = .connectDone true) : Ran cfg A s id f io (s.startForward id f x a fd)
  | connectFailed {x : Exchange} {a : UInt32} {fd : Fd} (hpc : f.pc = .connecting x a fd)
      (hcall : io.call = .connectDone false) :
      Ran cfg A s id f io ((s.close fd).failAttempt cfg id f x a)
  -- the request is written to the upstream
  | forwardOn {x : Exchange} {a : UInt32} {fd : Fd} {off n : Nat}
      (hpc : f.pc = .forwarding x a fd off) (hcall : io.call = .write (.wrote n)) (hn : 0 < n)
      (hlen : off + n < x.fwd.length) :
      Ran cfg A s id f io
        ((s.logForward id ((x.fwd.drop off).take n)).goto id f (.forwarding x a fd (off + n)))
  | forwarded {x : Exchange} {a : UInt32} {fd : Fd} {off n : Nat}
      (hpc : f.pc = .forwarding x a fd off) (hcall : io.call = .write (.wrote n)) (hn : 0 < n)
      (hlen : off + n = x.fwd.length) :
      Ran cfg A s id f io
        ((s.logForward id ((x.fwd.drop off).take n)).goto id f (.readUpHead x a fd []))
  | forwardAgain {x : Exchange} {a : UInt32} {fd : Fd} {off : Nat}
      (hpc : f.pc = .forwarding x a fd off) (hcall : io.call = .write .eintr) :
      Ran cfg A s id f io (s.goto id f f.pc)
  | forwardWait {x : Exchange} {a : UInt32} {fd : Fd} {off : Nat}
      (hpc : f.pc = .forwarding x a fd off) (hcall : io.call = .write .eagain) :
      Ran cfg A s id f io (s.awaitIo id f fd .Writable io.addOk f.pc)
  | forwardFailed {x : Exchange} {a : UInt32} {fd : Fd} {off : Nat}
      (hpc : f.pc = .forwarding x a fd off) (hcall : io.call = .write .error) :
      Ran cfg A s id f io ((s.close fd).failAttempt cfg id f x a)

section Step

variable {cfg : Config} {A : Assume} {s s' : State} {id : ConnId} {f : Frame} {io : Io} {fd : Fd}

theorem reads_ran {r : ReadResult} {s₁ : State} {pc : Bytes → Pc} {k : State → Bytes → State}
    (hsrc : f.pc.source f.client = some fd) (hcall : io.call = .read r)
    (hread : s.sysRead fd f.pc.limit r = some s₁) (hpc : f.pc = pc f.pc.buffer)
    (hpush : f.pc.push (readBytes r) = pc (f.pc.buffer ++ readBytes r))
    (hk : ((f.pc.push (readBytes r)).Hungry → r = .eof ∨ r = .error) →
      Behind cfg A (s₁.goto id f (f.pc.push (readBytes r))).view s₁ id f io.reserveOk
        (f.pc.push (readBytes r)) (k s₁ (f.pc.buffer ++ readBytes r))) :
    Ran cfg A s id f io (s₁.proceed id f fd .Readable io.addOk pc k (f.pc.round r)) := by
  have hrounds := Pc.round_rounds hsrc r
  cases hround : f.pc.round r with
  | again v =>
    rw [hround] at hrounds
    cases hrounds with
    | again hv hr hkeeps =>
      subst hv
      rw [State.proceed, ← hpush]
      exact .readOn hsrc hcall hread hr hkeeps hround
  | await v =>
    rw [hround] at hrounds
    cases hrounds with
    | await hv hr =>
      subst hv hr
      rcases sysRead_spec hread with ⟨bs, c, hdata, -⟩ | ⟨-, rfl, -⟩
      · cases hdata
      · rw [State.proceed, ← hpc]
        exact .readWait hsrc hcall hround
  | done v =>
    rw [hround] at hrounds
    cases hrounds with
    | done hv hr hended =>
      subst hv
      exact .readEnd hsrc hcall hread hr hended hround (hk hended)

theorem answerRound_ran {data : Bytes} {off : Nat} {w : WriteResult} {pc : Nat → Pc}
    {k : State → Bool → State} (hround : s.answerRound id f data off w io.addOk pc k = some s')
    (hcall : io.call = .write w) (hpc : f.pc = pc off) (hwrites : f.pc.writes = some (data, off))
    (hseek : ∀ off', f.pc.seek off' = pc off')
    (hk : ∀ ok, Wrote data off w (.done ok) → Ran cfg A s id f io (k s ok)) :
    Ran cfg A s id f io s' := by
  obtain ⟨-, hround⟩ := ite_none_right_eq_some.mp hround
  cases hround
  have hwrote := writeAllAsync_wrote data off w
  cases hw : writeAllAsync data off w with
  | again off' =>
    rw [hw] at hwrote
    rw [State.proceed, ← hseek]
    exact .writeOn hwrites hcall hwrote
  | await off' =>
    rw [hw] at hwrote
    cases hwrote with
    | blocked =>
      rw [State.proceed, ← hpc]
      exact .writeWait hwrites hcall
  | done ok =>
    rw [hw] at hwrote
    exact hk ok hwrote

theorem acquireUpstream_ran {x : Exchange} {a : UInt32} (hpc : f.pc = .acquiring x a)
    (hrun : s.acquireUpstream cfg id f x a io = some s') : Ran cfg A s id f io s' := by
  unfold State.acquireUpstream at hrun
  split at hrun
  · next fd rest hpool hcall =>
    cases hrun
    exact .reuse hpc hpool hcall
  · next hcall =>
    cases hrun
    exact .noConnection hpc (.inl hcall)
  · next hcall =>
    cases hrun
    exact .noConnection hpc (.inr hcall)
  · next fd _ hcall =>
    obtain ⟨s₁, hopen, rfl⟩ := map_eq_some_iff.mp hrun
    obtain ⟨⟨hfd, hlisten⟩, hopen⟩ := ite_none_right_eq_some.mp hopen
    cases hopen
    exact .connect hpc hcall hfd hlisten
  · next fd _ hcall =>
    obtain ⟨s₁, hopen, rfl⟩ := map_eq_some_iff.mp hrun
    obtain ⟨⟨hfd, hlisten⟩, hopen⟩ := ite_none_right_eq_some.mp hopen
    cases hopen
    exact .connectWait hpc hcall hfd hlisten
  · cases hrun

theorem forwardRound_ran {x : Exchange} {a : UInt32} {off : Nat} {w : WriteResult}
    (hpc : f.pc = .forwarding x a fd off) (hcall : io.call = .write w)
    (hrun : s.forwardRound cfg id f x a fd off w io.addOk = some s') : Ran cfg A s id f io s' := by
  obtain ⟨hallowed, hrun⟩ := ite_none_right_eq_some.mp hrun
  cases hrun
  cases w with
  | wrote n =>
    -- the kernel has taken `n` bytes of what was left
    simp only [State.writeAllowed, Bool.and_eq_true, decide_eq_true_eq, List.length_drop]
      at hallowed
    simp only [writeAllAsync]
    split
    · next hlen => exact .forwardOn hpc hcall hallowed.1.2 hlen
    · next hlen => exact .forwarded hpc hcall hallowed.1.2 (by omega)
  | eagain =>
    have hwait : Ran cfg A s id f io (s.awaitIo id f fd .Writable io.addOk f.pc) :=
      .forwardWait hpc hcall
    rwa [hpc] at hwait
  | eintr =>
    have hagain : Ran cfg A s id f io (s.goto id f f.pc) := .forwardAgain hpc hcall
    rwa [hpc] at hagain
  | error => exact .forwardFailed hpc hcall

/-- **Every step of a coroutine is as described**, if the helper that returns too early does so as
assumed. -/
theorem runFrame_ran (hrun : s.runFrame cfg id f io = some s')
    (hended : ∀ fd r s₁, f.pc.source f.client = some fd → io.call = .read r →
      s.sysRead fd f.pc.limit r = some s₁ → (r = .eof ∨ r = .error) →
      (s₁.goto id f (f.pc.push (readBytes r))).view.Ended A id fd) : Ran cfg A s id f io s' := by
  obtain ⟨client, pc, waiting, index⟩ := f
  cases hcall : io.call with
  | read r =>
    cases pc with
    | readHead buf =>
      simp only [State.runFrame, hcall] at hrun
      obtain ⟨s₁, hread, rfl⟩ := map_eq_some_iff.mp hrun
      exact reads_ran rfl hcall hread rfl rfl fun _ => afterHead_behind _
    | readBody info body want buf =>
      simp only [State.runFrame, hcall] at hrun
      obtain ⟨s₁, hread, rfl⟩ := map_eq_some_iff.mp hrun
      exact reads_ran rfl hcall hread rfl rfl fun _ => afterBody_behind (.body rfl)
    | readUpHead x a fd buf =>
      simp only [State.runFrame, hcall] at hrun
      obtain ⟨s₁, hread, rfl⟩ := map_eq_some_iff.mp hrun
      exact reads_ran rfl hcall hread rfl rfl fun _ => afterUpHead_behind _
    | readUp x a fd resp part buf =>
      simp only [State.runFrame, hcall] at hrun
      obtain ⟨s₁, hread, rfl⟩ := map_eq_some_iff.mp hrun
      refine reads_ran rfl hcall hread rfl rfl fun hend => afterPart_behind fun n hn => ?_
      refine (Nat.lt_or_ge _ n).symm.imp_right fun hless => ?_
      exact hended fd r s₁ rfl hcall hread (hend ((Part.hungry_iff hn _).mpr hless))
    | acquiring x a => exact acquireUpstream_ran rfl hrun
    | _ =>
      simp only [State.runFrame, hcall] at hrun
      cases hrun
  | write w =>
    cases pc with
    | refusing resp off =>
      simp only [State.runFrame, hcall] at hrun
      exact answerRound_ran hrun hcall rfl rfl (fun _ => rfl) fun ok hwrote =>
        .refused rfl hcall hwrote
    | answering x resp off =>
      simp only [State.runFrame, hcall] at hrun
      exact answerRound_ran hrun hcall rfl rfl (fun _ => rfl) fun ok hwrote =>
        .answered rfl hcall hwrote
    | forwarding x a fd off =>
      simp only [State.runFrame, hcall] at hrun
      exact forwardRound_ran rfl hcall hrun
    | acquiring x a => exact acquireUpstream_ran rfl hrun
    | _ =>
      simp only [State.runFrame, hcall] at hrun
      cases hrun
  | connectDone ok =>
    cases pc with
    | connecting x a fd =>
      simp only [State.runFrame, hcall, Option.some.injEq] at hrun
      subst hrun
      cases ok with
      | true => exact .connected rfl hcall
      | false => exact .connectFailed rfl hcall
    | acquiring x a => exact acquireUpstream_ran rfl hrun
    | _ =>
      simp only [State.runFrame, hcall] at hrun
      cases hrun
  | reuse | connect =>
    cases pc with
    | acquiring x a => exact acquireUpstream_ran rfl hrun
    | _ =>
      simp only [State.runFrame, hcall] at hrun
      cases hrun

end Step

/-! ## The event loop -/

def Loop.events : Loop → List Event
  | .batch evs => evs
  | .accepting _ evs => evs
  | .spawning _ _ evs => evs
  | _ => []

def Loop.newborn : Loop → Option ConnId
  | .spawning id _ _ => some id
  | _ => none

def Act.outside : Act → Bool
  | .tick _ => true
  | .connect => true
  | .arrive _ _ => true
  | .hangup _ => true
  | .stop => true
  | _ => false

def Act.idles : Act → Bool
  | .pollFailed => true
  | .accept .eagain => true
  | .accept .eintr => true
  | .accept .error => true
  | .acceptCap => true
  | .leave => true
  | _ => false

/-- The steps of the loop between two coroutines. -/
inductive LoopMove (cfg : Config) (s : State) : Act → State → Prop where
  | poll {evs : List (Fd × EventMask)} (hpc : s.pc = .wait) (hnodup : (evs.map Prod.fst).Nodup)
      (hreports : ∀ e ∈ evs, s.reports cfg e = true) :
      LoopMove cfg s (.poll evs) (s.setLoop (.batch (evs.map s.toEvent)))
  /-- an event that is no coroutine's -/
  | drop {a : Act} {e : Event} {evs : List Event} {pc : Loop}
      (hact : a = .acceptClients ∨ a = .skip) (hpc : s.pc = .batch (e :: evs))
      (hevents : pc.events = evs) (hnew : pc.newborn = none) (hgo : pc ≠ .stopped) :
      LoopMove cfg s a (s.setLoop pc)
  /-- the loop moves on and has the same events -/
  | stay {a : Act} {pc : Loop} (hact : a.idles = true) (hevents : pc.events = s.pc.events)
      (hold : s.pc.newborn = none) (hnew : pc.newborn = none) (hstop : s.pc ≠ .stopped)
      (hgo : pc ≠ .stopped) : LoopMove cfg s a (s.setLoop pc)
  | resume {e : Event} {evs : List Event} {id : ConnId} {f : Frame}
      (hpc : s.pc = .batch (e :: evs)) (hdata : e.userdata = some id) (hid : s.frames id = some f)
      (hwait : f.waiting.isSome) :
      LoopMove cfg s .resume { s with
        pc := .batch evs
        interest := update s.interest e.fd none
        frames := update s.frames id (some { f with waiting := none })
        active := some id }
  | spawn {fd : Fd} {accepted : Nat} {evs : List Event} (hpc : s.pc = .accepting accepted evs)
      (hfd : s.fds fd = none) (hlisten : fd ≠ cfg.listenFd) :
      LoopMove cfg s (.accept (.conn fd)) (s.spawn fd (accepted + 1) evs)
  /-- the new coroutine has ended -/
  | discard {id : ConnId} {f : Frame} {accepted : Nat} {evs : List Event}
      (hpc : s.pc = .spawning id accepted evs) (hid : s.frames id = some f)
      (hfin : f.pc = .finished) :
      LoopMove cfg s .spawned
        (((s.close f.client).destroyTask (some id)).setLoop (.accepting accepted evs))
  /-- the new coroutine becomes a live task -/
  | adopt {id : ConnId} {f : Frame} {accepted : Nat} {evs : List Event}
      (hpc : s.pc = .spawning id accepted evs) (hid : s.frames id = some f)
      (hfin : f.pc ≠ .finished) :
      LoopMove cfg s .spawned
        { s.destroyTask (s.liveTasks f.client) with
          liveTasks :=
            update (s.destroyTask (s.liveTasks f.client)).liveTasks f.client (some id)
          pc := .accepting accepted evs }
  | reap (hpc : s.pc = .batch []) : LoopMove cfg s .reap (s.reapFinishedTasks.setLoop .wait)
  | finishStop (hpc : s.pc = .exited) : LoopMove cfg s .finishStop (s.finishStop cfg)

section Loop

variable {cfg : Config} {s s' : State} {a : Act}

theorem accept_cases {accepted : Nat} {evs : List Event} {r : AcceptResult}
    (hpc : s.pc = .accepting accepted evs)
    (h : loopStep cfg s (.accepting accepted evs) (.accept r) = some s') :
    LoopMove cfg s (.accept r) s' := by
  have hevents : evs = s.pc.events := by rw [hpc]; rfl
  have hold : s.pc.newborn = none := by rw [hpc]; rfl
  have hstop : s.pc ≠ .stopped := by rw [hpc]; nofun
  obtain ⟨-, h⟩ := ite_none_right_eq_some.mp h
  cases r with
  | conn fd =>
    obtain ⟨⟨-, hfd, hlisten⟩, h⟩ := ite_none_right_eq_some.mp h
    cases h
    exact .spawn hpc hfd hlisten
  | eagain =>
    obtain ⟨-, h⟩ := ite_none_right_eq_some.mp h
    cases h
    exact .stay rfl hevents hold rfl hstop nofun
  | eintr | error =>
    cases h
    exact .stay rfl hevents hold rfl hstop nofun

theorem loopStep_cases (h : loopStep cfg s s.pc a = some s') : LoopMove cfg s a s' := by
  cases hpc : s.pc with
  | wait =>
    rw [hpc] at h
    cases a with
    | poll evs =>
      obtain ⟨⟨-, -, hnodup, hreports⟩, h⟩ := ite_none_right_eq_some.mp h
      cases h
      exact .poll hpc hnodup (List.all_eq_true.mp hreports)
    | pollFailed =>
      obtain ⟨-, h⟩ := ite_none_right_eq_some.mp h
      cases h
      have hstop : s.pc ≠ .stopped := by rw [hpc]; nofun
      have hnew : s.pc.newborn = none := by rw [hpc]; rfl
      exact show LoopMove cfg s .pollFailed (s.setLoop s.pc) from
        .stay rfl rfl hnew hnew hstop hstop
    | leave =>
      obtain ⟨-, h⟩ := ite_none_left_eq_some.mp h
      cases h
      exact .stay rfl (by rw [hpc]; rfl) (by rw [hpc]; rfl) rfl (by rw [hpc]; nofun) nofun
    | _ => cases h
  | batch evs =>
    rw [hpc] at h
    cases evs with
    | nil =>
      cases a with
      | reap =>
        cases h
        exact .reap hpc
      | _ => cases h
    | cons e evs =>
      cases a with
      | acceptClients =>
        obtain ⟨-, h⟩ := ite_none_right_eq_some.mp h
        cases h
        exact .drop (.inl rfl) hpc rfl rfl nofun
      | skip =>
        obtain ⟨-, h⟩ := ite_none_right_eq_some.mp h
        cases h
        exact .drop (.inr rfl) hpc rfl rfl nofun
      | resume =>
        simp only [loopStep] at h
        split at h
        · next id hdata =>
          simp only [State.resumeHandle] at h
          split at h
          · next f hid =>
            obtain ⟨hwait, h⟩ := ite_none_right_eq_some.mp h
            cases h
            exact .resume hpc hdata hid hwait
          · cases h
        · cases h
      | _ => cases h
  | accepting accepted evs =>
    rw [hpc] at h
    cases a with
    | accept r => exact accept_cases hpc h
    | acceptCap =>
      obtain ⟨-, h⟩ := ite_none_left_eq_some.mp h
      cases h
      exact .stay rfl (by rw [hpc]; rfl) (by rw [hpc]; rfl) rfl (by rw [hpc]; nofun) nofun
    | _ => cases h
  | spawning id accepted evs =>
    rw [hpc] at h
    cases a with
    | spawned =>
      obtain ⟨s₁, hspawned, rfl⟩ := map_eq_some_iff.mp h
      obtain ⟨f, hid, rfl⟩ := map_eq_some_iff.mp hspawned
      split
      · next hfin => exact .discard hpc hid hfin
      · next hfin => exact .adopt hpc hid hfin
    | _ => cases h
  | exited =>
    rw [hpc] at h
    cases a with
    | finishStop =>
      cases h
      exact .finishStop hpc
    | _ => cases h
  | stopped =>
    rw [hpc] at h
    cases h

end Loop

end Muses.Proxy
