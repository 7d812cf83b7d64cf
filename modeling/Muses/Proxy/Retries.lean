import Muses.Proxy.Attempts

/-!
# Stale connections and the retry budget

A pooled connection may have been closed by its upstream while it lay in the pool.
`acquire_upstream` hands it out unseen, so an attempt that gets such a connection fails, and only
the attempts that are left can be made over a new one. The pool holds up to 64 connections, and the
loop makes `max_retries + 1` attempts.

Here a client request is followed from the health gate to its answer, with an upstream that accepts
every new connection and answers on it (`Serves`). The request is answered if nothing is left to be
read on the pooled connections that it gets (`BorrowsIdle`) and its last attempt does not go over
one that the upstream has closed (`SparesLast`); without the latter it can end with a 502.
-/

namespace Muses.Proxy

open Muses.Core Text Search HttpContext Http Function List
open World (ReadResult WriteResult)

/-! ## The upstream -/

structure Answer where
  head : Head
  body : Bytes
  ends :
    (head.Lacks transferEncoding ∧ head.Sizes body.length) ∨
    (NamesChunked head ∧ IsFrame lastChunk body ∧ body.length ≤ bodyCap) ∨
    (head.Lacks transferEncoding ∧ head.Lacks contentLength ∧ body.length ≤ bodyCap)

namespace Answer

def text (r : Answer) : Bytes := r.head.text ++ r.body

/-- The response ends with the connection. -/
def Closes (r : Answer) : Prop := r.head.Lacks transferEncoding ∧ r.head.Lacks contentLength

/-- The upstream has sent all of the response. -/
def Sent (r : Answer) (c : Conn) : Prop := c.sent = r.text ∧ (r.Closes → c.fin = true)

theorem find_text (r : Answer) : (find blankLine r.text).isSome := by
  obtain ⟨pos, hpos, -⟩ := r.head.text_isFrame
  exact Option.isSome_of_eq_some (find_append r.body hpos)

end Answer

/-- The proxy with a history of coroutine `k`: whether the connection of its attempt comes from the
pool, and how many system calls it has made, not counting those that it has to make again. -/
structure Trial where
  state : State
  borrowed : Bool := false
  calls : Nat := 0

namespace Trial

def note (w : Trial) (s : State) (call : Call) : Trial where
  state := s
  borrowed :=
    match call with
    | .reuse => true
    | .connect _ => false
    | _ => w.borrowed
  calls := if call.pauses then w.calls else w.calls + 1

def step (cfg : Config) (k : ConnId) (w : Trial) (a : Act) : Option Trial :=
  (Proxy.step cfg w.state a).map fun s =>
    match a with
    | .run io => if w.state.active = some k then w.note s io.call else { w with state := s }
    | _ => { w with state := s }

/-- What a system call of the coroutine meets: new connections come about, and do not fail. -/
def Grants (w : Trial) (call : Call) : Prop :=
  call ≠ .connect .noSocket ∧ call ≠ .connect .refused ∧ call ≠ .connectDone false ∧
    (call = .write .error ∨ call = .read .error → w.borrowed = true)

/-- The upstream has sent nothing on the connection of the attempt. -/
def Unanswered (w : Trial) (f : Frame) : Prop :=
  ∀ fd ∈ f.pc.upFd, ∀ c ∈ w.state.fds fd, (w.state.conns c).sent = []

/-- What a system call meets on a pooled connection: nothing is left to be read when it is taken,
and it fails only while it is unanswered. -/
def FindsIdle (x : Exchange) (w : Trial) (f : Frame) (call : Call) : Prop :=
  (call = .reuse → ∀ fd ∈ (w.state.pools x.route.key).head?, ∀ c ∈ w.state.fds fd,
    (w.state.conns c).rx = []) ∧
    (call = .write .error ∨ call = .read .error → w.Unanswered f)

end Trial

/-- `Serves`, for the coroutine in `f`. -/
def ServesAt (k : ConnId) (r : Answer) (w : Trial) (f : Frame) : Act → Prop
  | .arrive fd bs => f.pc.upFd = some fd → w.borrowed = false →
      ∀ c ∈ w.state.fds fd, (w.state.conns c).sent ++ bs <+: r.text
  | .hangup fd => f.pc.upFd = some fd → w.borrowed = false →
      ∀ c ∈ w.state.fds fd, (w.state.conns c).sent = r.text
  | .run io => w.state.active = some k → io.reserveOk = true ∧ w.Grants io.call
  | .finishStop => False
  | _ => True

/-- While coroutine `k` tries to forward `x`, its upstream accepts every new connection and sends
the response `r` on it, and nothing else. The proxy is not stopped and has memory for the
response. -/
def Serves (k : ConnId) (x : Exchange) (r : Answer) (w : Trial) (a : Act) : Prop :=
  ∀ f ∈ w.state.frames k, f.pc.attempt = some x → ServesAt k r w f a

/-- `BorrowsIdle`, for the coroutine in `f`. -/
def BorrowsIdleAt (k : ConnId) (x : Exchange) (r : Answer) (w : Trial) (f : Frame) : Act → Prop
  | .arrive fd bs => f.pc.upFd = some fd → w.borrowed = true →
      ∀ c ∈ w.state.fds fd, (w.state.conns c).sent ++ bs <+: r.text
  | .hangup fd => f.pc.upFd = some fd → w.borrowed = true →
      ∀ c ∈ w.state.fds fd, (w.state.conns c).sent = r.text ∨ (w.state.conns c).sent = []
  | .run io => w.state.active = some k → w.FindsIdle x f io.call
  | _ => True

/-- A pooled connection that coroutine `k` gets to forward `x` has nothing left to be read, and then
the upstream sends `r` on it and nothing else, or nothing at all: such a connection it may have
closed, or close, or it may fail. -/
def BorrowsIdle (k : ConnId) (x : Exchange) (r : Answer) (w : Trial) (a : Act) : Prop :=
  ∀ f ∈ w.state.frames k, f.pc.attempt = some x → BorrowsIdleAt k x r w f a

/-- If the response is chunked, the reads of coroutine `k` cut it where `BringsLastChunk` allows. -/
def BringsChunks (k : ConnId) (r : Answer) (w : Trial) (a : Act) : Prop :=
  NamesChunked r.head → w.state.active = some k → BringsLastChunk w.state a

/-- A connection that is not found closed, and not closed before the response was sent. -/
def SparesAt (k : ConnId) (x : Exchange) (r : Answer) (w : Trial) (f : Frame) : Act → Prop
  | .hangup fd => f.pc.upFd = some fd → ∀ c ∈ w.state.fds fd, (w.state.conns c).sent = r.text
  | .run io => w.state.active = some k →
      io.call ≠ .write .error ∧ io.call ≠ .read .error ∧
      (io.call = .reuse → ∀ fd ∈ (w.state.pools x.route.key).head?, ∀ c ∈ w.state.fds fd,
        (w.state.conns c).fin = false)
  | _ => True

/-- The last attempt of coroutine `k` to forward `x` gets no connection from the pool that the
upstream has closed, or that is closed or fails before the response was sent. -/
def SparesLast (cfg : Config) (k : ConnId) (x : Exchange) (r : Answer) (w : Trial) (a : Act) :
    Prop :=
  ∀ f ∈ w.state.frames k, f.pc.tries = some (x, cfg.maxRetries) → SparesAt k x r w f a

instance (w : Trial) (call : Call) : Decidable (w.Grants call) :=
  inferInstanceAs (Decidable (_ ∧ _))

instance (x : Exchange) (w : Trial) (f : Frame) (call : Call) :
    Decidable (w.FindsIdle x f call) := by
  unfold Trial.FindsIdle Trial.Unanswered
  infer_instance

instance (k : ConnId) (x : Exchange) (r : Answer) (w : Trial) (a : Act) :
    Decidable (Serves k x r w a) := by
  have hat (f : Frame) : Decidable (ServesAt k r w f a) := by
    unfold ServesAt
    induction a using Act.casesOn <;> infer_instance
  unfold Serves
  infer_instance

instance (k : ConnId) (x : Exchange) (r : Answer) (w : Trial) (a : Act) :
    Decidable (BorrowsIdle k x r w a) := by
  have hat (f : Frame) : Decidable (BorrowsIdleAt k x r w f a) := by
    unfold BorrowsIdleAt
    induction a using Act.casesOn <;> infer_instance
  unfold BorrowsIdle
  infer_instance

instance (cfg : Config) (k : ConnId) (x : Exchange) (r : Answer) (w : Trial) (a : Act) :
    Decidable (SparesLast cfg k x r w a) := by
  have hat (f : Frame) : Decidable (SparesAt k x r w f a) := by
    unfold SparesAt
    induction a using Act.casesOn <;> infer_instance
  unfold SparesLast
  infer_instance

/-! ## The response -/

namespace Answer

variable {A : Assume} {v : View} {id : ConnId} {pc : Pc} {client fd : Fd}

/-- What the coroutine takes for the whole response is the whole response, if all of it was there
whenever the stream ended. -/
theorem taken_of_complete (r : Answer) (hcomplete : Complete A v id pc) (hsound : pc.Sound)
    (hup : pc.upFd = some fd) (hpre : pc.taken <+: r.text)
    (hended : v.Ended A id fd → pc.taken = r.text) : pc.taken = r.text := by
  have hbody {body : Bytes} (htext : pc.taken = r.head.text ++ body) : body <+: r.body := by
    rwa [htext, text, prefix_append_right_inj] at hpre
  rcases r.ends with ⟨hlacks, hsizes⟩ | ⟨hnames, hframe, hcap⟩ | ⟨hlacks, hlacks', hcap⟩
  · obtain ⟨body, htext, hcase⟩ := hcomplete.sized_response hsound hup hpre hlacks hsizes
    have hle := (hbody htext).length_le
    rcases hcase with hlen | ⟨hlong, -⟩ | ⟨-, hend, -⟩
    · rw [htext, (hbody htext).eq_of_length hlen, text]
    · omega
    · exact hended hend
  · obtain ⟨body, htext, hcase⟩ :=
      hcomplete.chunked_response hsound hup hpre hnames.isChunked
    have hle := (hbody htext).length_le
    rcases hcase with hlast | hlong | ⟨hend, -⟩
    · rw [htext, hframe.eq_of_prefix_of_find (hbody htext) hlast, text]
    · omega
    · exact hended hend
  · rcases hcomplete.closing_response hsound hup hpre hlacks hlacks' with
      hend | ⟨body, htext, hlong⟩
    · exact hended hend
    · have hle := (hbody htext).length_le
      omega

/-- A coroutine that goes on to the next part of the response has read all of it only where the end
of the connection is still to come. -/
theorem buf_ne_of_next (r : Answer) {x : Exchange} {a : UInt32} {resp buf : Bytes}
    {part part' : Part} (hpc : pc = .readUp x a fd resp part buf) (hsound : pc.Sound)
    (hungry : pc.Hungry) (hbrought : NamesChunked r.head → pc.Brought)
    (hall : pc.taken = r.text) (hnext : Part.Next buf part part')
    (hrest : ∀ body, part = .rest body → buf ≠ []) : buf ≠ [] := by
  subst hpc
  have hpre : resp ++ (part.before ++ buf) <+: r.head.text ++ r.body := by
    rw [show resp ++ (part.before ++ buf) = r.text from hall, text]
  obtain ⟨-, front, hfits⟩ := hsound.head_eq hpre
  have hpart (cb : Bytes) (hpart : part = .chunkLine cb ∨ part = .chunk cb) :
      isChunked (r.head.text ++ front) = true := by
    rcases hpart with rfl | rfl
    · cases hfits with
      | chunkLine _ hchunked => exact hchunked
    · cases hfits with
      | chunk _ hchunked => exact hchunked
  have hchunk (cb : Bytes) (hcb : part = .chunkLine cb ∨ part = .chunk cb) : False := by
    have hchunked := hpart cb hcb
    rcases r.ends with ⟨hlacks, -⟩ | ⟨hnames, hframe, -⟩ | ⟨hlacks, -⟩
    · rw [isChunked_of_lacks hlacks] at hchunked
      cases hchunked
    · have hsrc : (Pc.readUp x a fd resp part buf).source fd = some fd := rfl
      exact (hbrought hnames).taken_ne hsound hungry rfl hsrc hnames hframe hall
    · rw [isChunked_of_lacks hlacks] at hchunked
      cases hchunked
  cases hnext with
  | chunkLine hcb | chunk hcb => exact (hchunk _ hcb).elim
  | rest => exact hrest _ rfl

end Answer

/-! ## The invariant of a request on its way -/

/-- The connection of an attempt: what was read and what is to be read is what was sent, which is a
first piece of the response; and if the connection is closed it was all of it, or, if attempts are
left, nothing. -/
structure Serving (r : Answer) (spare : Prop) (c : Conn) : Prop where
  books : c.got ++ c.rx = c.sent
  sent : c.sent <+: r.text
  closed : c.fin = true → c.sent = r.text ∨ (c.sent = [] ∧ spare)

namespace Serving

variable {r : Answer} {spare : Prop} {c : Conn} {bs : Bytes}

theorem arrive (h : Serving r spare c) (hopen : c.fin = false) (hsent : c.sent ++ bs <+: r.text) :
    Serving r spare { c with rx := c.rx ++ bs, sent := c.sent ++ bs } where
  books := by rw [← append_assoc, h.books]
  sent := hsent
  closed hfin := absurd hfin (by simp [hopen])

theorem hangup (h : Serving r spare c) (hsent : c.sent = r.text ∨ (c.sent = [] ∧ spare)) :
    Serving r spare { c with fin := true } where
  books := h.books
  sent := h.sent
  closed _ := hsent

theorem read (h : Serving r spare c) (hrx : bs <+: c.rx) :
    Serving r spare { c with rx := c.rx.drop bs.length, got := c.got ++ bs } where
  books := by
    obtain ⟨rest, hrest⟩ := hrx
    rw [← h.books, ← hrest, drop_left, append_assoc]
  sent := h.sent
  closed := h.closed

theorem got_prefix (h : Serving r spare c) : c.got <+: r.text :=
  List.IsPrefix.trans ⟨c.rx, h.books⟩ h.sent

theorem got_eq (h : Serving r spare c) (hrx : c.rx = []) : c.got = c.sent := by
  rw [← h.books, hrx, append_nil]

end Serving

def callsPerAttempt (x : Exchange) (r : Answer) : Nat := x.fwd.length + 2 * r.text.length + 6

/-- How many of them are left. Each `read` but the last brings a byte, and at most one more call
ends a part. -/
def Pc.callsLeft (r : Answer) : Pc → Nat
  | .acquiring x _ => callsPerAttempt x r
  | .connecting x _ _ => x.fwd.length + 2 * r.text.length + 5
  | .forwarding x _ _ off => (x.fwd.length - off) + 2 * r.text.length + 4
  | .readUpHead _ _ _ buf => 2 * (r.text.length - buf.length) + 3
  | .readUp x a fd resp part buf =>
      2 * (r.text.length - (Pc.readUp x a fd resp part buf).taken.length) +
        (if buf = [] then 0 else 1) + 1
  | _ => 0

/-- Attempt `a` to forward `x` is on its way, within its budget of calls. -/
structure Trying (cfg : Config) (k : ConnId) (x : Exchange) (r : Answer) (w : Trial) (f : Frame)
    (a : UInt32) : Prop where
  orderly : Orderly w.state
  reading : Reading w.state.view
  frame : w.state.frames k = some f
  tries : f.pc.tries = some (x, a)
  attempt : a ≤ cfg.maxRetries
  conn : ∀ fd c, f.pc.upFd = some fd → w.state.fds fd = some c →
    Serving r (a < cfg.maxRetries) (w.state.conns c)
  brought : NamesChunked r.head → f.pc.Brought
  budget : w.calls + (cfg.maxRetries.toNat - a.toNat) * callsPerAttempt x r + f.pc.callsLeft r ≤
    (cfg.maxRetries.toNat + 1) * callsPerAttempt x r

/-- The client of `k` is being answered with `r`. -/
def AnsweredWith (k : ConnId) (x : Exchange) (r : Answer) (w : Trial) : Prop :=
  ∃ f ∈ w.state.frames k, f.pc = .answering x r.text 0

section Pc

variable {pc : Pc} {x : Exchange} {a : UInt32}

theorem Pc.attempt_of_tries (h : pc.tries = some (x, a)) : pc.attempt = some x := by
  cases pc <;> simp_all [Pc.tries, Pc.attempt]

theorem Pc.exchange_of_tries (h : pc.tries = some (x, a)) : pc.exchange = some x := by
  cases pc <;> simp_all [Pc.tries, Pc.exchange]

theorem Pc.tries_push (bs : Bytes) (pc : Pc) : (pc.push bs).tries = pc.tries := by
  cases pc <;> rfl

theorem Pc.ne_finished_of_tries (h : pc.tries = some (x, a)) : pc ≠ .finished := by
  rintro rfl
  cases h

variable {client fd : Fd}

theorem Pc.upFd_of_tries (h : pc.tries = some (x, a)) (hsrc : pc.source client = some fd) :
    pc.upFd = some fd := by
  cases pc with
  | readUpHead | readUp => exact hsrc
  | readHead | readBody => cases h
  | _ => cases hsrc

theorem Pc.callsLeft_pos (r : Answer) (h : pc.tries = some (x, a)) : 0 < pc.callsLeft r := by
  cases pc with
  | acquiring | connecting | forwarding | readUpHead | readUp =>
    simp only [Pc.callsLeft, callsPerAttempt]
    omega
  | _ => cases h

theorem Pc.callsLeft_push (r : Answer) {bs : Bytes} (hup : pc.upFd = some fd)
    (hsrc : pc.source client = some fd) (hbs : bs ≠ [])
    (hle : (pc.push bs).taken.length ≤ r.text.length) :
    (pc.push bs).callsLeft r + 1 ≤ pc.callsLeft r := by
  have hpos := length_pos_iff.mpr hbs
  cases pc with
  | readUpHead y b g buf =>
    simp only [Pc.push, Pc.taken, Pc.callsLeft, length_append] at hle ⊢
    omega
  | readUp y b g resp part buf =>
    simp only [Pc.push, Pc.taken, Pc.callsLeft, length_append] at hle ⊢
    split <;> split <;> omega
  | connecting | forwarding => cases hsrc
  | _ => cases hup

theorem Pc.callsLeft_part (r : Answer) {resp : Bytes} {part : Part} (hup : pc.upFd = some fd)
    (hsrc : pc.source client = some fd)
    (hle : (Pc.readUp x a fd resp part []).taken.length ≤ r.text.length)
    (hmore : pc.taken.length < (Pc.readUp x a fd resp part []).taken.length ∨
      pc.taken.length ≤ (Pc.readUp x a fd resp part []).taken.length ∧
        ((∃ buf, pc = .readUpHead x a fd buf) ∨
          ∃ resp' part' buf, pc = .readUp x a fd resp' part' buf ∧ buf ≠ [])) :
    (Pc.readUp x a fd resp part []).callsLeft r + 1 ≤ pc.callsLeft r := by
  have hzero : (Pc.readUp x a fd resp part []).callsLeft r =
      2 * (r.text.length - (Pc.readUp x a fd resp part []).taken.length) + 1 := rfl
  rw [hzero]
  generalize (Pc.readUp x a fd resp part []).taken.length = n at hle hmore
  cases pc with
  | readUpHead y b g buf =>
    simp only [Pc.callsLeft]
    simp only [Pc.taken] at hmore
    omega
  | readUp y b g resp' part' buf =>
    have hflag : (Pc.readUp y b g resp' part' buf).callsLeft r =
      2 * (r.text.length - (Pc.readUp y b g resp' part' buf).taken.length) +
        (if buf = [] then 0 else 1) + 1 := rfl
    rw [hflag]
    rcases hmore with hlt | ⟨hge, ⟨_, hpc⟩ | ⟨_, _, _, hpc, hbuf⟩⟩
    · omega
    · cases hpc
    · cases hpc
      rw [if_neg hbuf]
      omega
  | connecting | forwarding => cases hsrc
  | _ => cases hup

end Pc

theorem Trial.note_calls (w : Trial) (s : State) (call : Call) :
    (w.note s call).calls ≤ w.calls + 1 := by
  simp only [Trial.note]
  split <;> omega

theorem Trial.note_calls_of_pauses {w : Trial} (s : State) {call : Call}
    (h : call.pauses = true) : (w.note s call).calls = w.calls := if_pos h

theorem Trial.step_cases {cfg : Config} {k : ConnId} {w w' : Trial} {act : Act}
    (h : w.step cfg k act = some w') :
    ∃ s', Proxy.step cfg w.state act = some s' ∧
      ((∃ io, act = .run io ∧ w.state.active = some k ∧ w' = w.note s' io.call) ∨
        ((∀ io, act = .run io → w.state.active ≠ some k) ∧ w' = { w with state := s' })) := by
  obtain ⟨s', hstep, rfl⟩ := Option.map_eq_some_iff.mp h
  refine ⟨s', hstep, ?_⟩
  cases act with
  | run io =>
    by_cases hactive : w.state.active = some k
    · exact .inl ⟨io, rfl, hactive, if_pos hactive⟩
    · exact .inr ⟨fun _ _ => hactive, if_neg hactive⟩
  | _ => exact .inr ⟨nofun, rfl⟩

namespace Trying

variable {cfg : Config} {k : ConnId} {x : Exchange} {r : Answer} {w w' : Trial} {f : Frame}
  {a : UInt32} {fd : Fd} {c : ConnId} {s' : State} {act : Act}

theorem lt_of_ne (h : Trying cfg k x r w f a) (hne : a ≠ cfg.maxRetries) : a < cfg.maxRetries := by
  have hle := UInt32.le_iff_toNat_le.mp h.attempt
  have hne' : a.toNat ≠ cfg.maxRetries.toNat := fun heq => hne (UInt32.toNat_inj.mp heq)
  exact UInt32.lt_iff_toNat_lt.mpr (by omega)

theorem exists_conn (h : Trying cfg k x r w f a) (hup : f.pc.upFd = some fd) :
    ∃ c, w.state.fds fd = some c := by
  have hheld : w.state.view.held k = some fd := by
    rw [Placed.held_of_task (tasks_view h.frame), hup]
  obtain ⟨c, hfd, -⟩ := h.orderly.placed.held k fd hheld
  exact ⟨c, hfd⟩

theorem got_eq (h : Trying cfg k x r w f a) (hup : f.pc.upFd = some fd)
    (hfd : w.state.fds fd = some c) : (w.state.conns c).got = f.pc.taken :=
  h.reading.taken k ⟨f.client, f.pc, f.index⟩ fd c (tasks_view h.frame) hup hfd

theorem sound (h : Trying cfg k x r w f a) : f.pc.Sound :=
  h.reading.sound k _ (tasks_view h.frame)

theorem arrive_sent {bs : Bytes} (h : Trying cfg k x r w f a) (hup : f.pc.upFd = some fd)
    (hfd : w.state.fds fd = some c) (hserves : Serves k x r w (.arrive fd bs))
    (hidle : BorrowsIdle k x r w (.arrive fd bs)) : (w.state.conns c).sent ++ bs <+: r.text := by
  have hattempt := Pc.attempt_of_tries h.tries
  cases hborrowed : w.borrowed with
  | false => exact hserves f h.frame hattempt hup hborrowed c hfd
  | true => exact hidle f h.frame hattempt hup hborrowed c hfd

theorem hangup_sent (h : Trying cfg k x r w f a) (hup : f.pc.upFd = some fd)
    (hfd : w.state.fds fd = some c) (hserves : Serves k x r w (.hangup fd))
    (hidle : BorrowsIdle k x r w (.hangup fd)) (hspares : SparesLast cfg k x r w (.hangup fd)) :
    (w.state.conns c).sent = r.text ∨ ((w.state.conns c).sent = [] ∧ a < cfg.maxRetries) := by
  have hattempt := Pc.attempt_of_tries h.tries
  by_cases hlast : a = cfg.maxRetries
  · exact .inl (hspares f h.frame (hlast ▸ h.tries) hup c hfd)
  · cases hborrowed : w.borrowed with
    | false => exact .inl (hserves f h.frame hattempt hup hborrowed c hfd)
    | true =>
      exact (hidle f h.frame hattempt hup hborrowed c hfd).imp_right fun hnone =>
        ⟨hnone, h.lt_of_ne hlast⟩

/-- **While the coroutine does not run**, its request stays on its way. -/
theorem elsewhere (h : Trying cfg k x r w f a) (hstep : Proxy.step cfg w.state act = some s')
    (hother : ∀ io, act = .run io → w.state.active ≠ some k) (hserves : Serves k x r w act)
    (hidle : BorrowsIdle k x r w act) (hspares : SparesLast cfg k x r w act) :
    ∃ f', Trying cfg k x r { w with state := s' } f' a := by
  have hstop : act ≠ .finishStop := by
    rintro rfl
    exact hserves f h.frame (Pc.attempt_of_tries h.tries)
  obtain ⟨⟨f', hf', hpc, -⟩, hconn⟩ :=
    step_elsewhere h.orderly hstep h.frame (Pc.ne_finished_of_tries h.tries) hother hstop
  refine ⟨f', ⟨h.orderly.step hstep, h.reading.step hstep, hf', hpc ▸ h.tries, h.attempt, ?_,
    fun hnames => hpc ▸ h.brought hnames, hpc ▸ h.budget⟩⟩
  intro fd c hup hfd
  rw [hpc] at hup
  obtain ⟨d, hd⟩ := h.exists_conn hup
  obtain ⟨hd', htouched⟩ := hconn fd d hup hd
  obtain rfl : d = c := Option.some.inj (hd'.symm.trans hfd)
  have hserving := h.conn fd d hup hd
  show Serving r _ (s'.conns d)
  generalize s'.conns d = conn' at htouched
  cases htouched with
  | not => exact hserving
  | arrive hopen => exact hserving.arrive hopen (h.arrive_sent hup hd hserves hidle)
  | hangup => exact hserving.hangup (h.hangup_sent hup hd hserves hidle hspares)

variable {pc : Pc} {s₁ : State}

theorem arrives {a' : UInt32} (h : Trying cfg k x r w f a)
    (hstep : Proxy.step cfg w.state act = some w'.state) (harrives : Arrives s₁ k f w'.state pc)
    (htries : pc.tries = some (x, a')) (hattempt : a' ≤ cfg.maxRetries)
    (hconn : ∀ fd c, pc.upFd = some fd → s₁.fds fd = some c →
      Serving r (a' < cfg.maxRetries) (s₁.conns c)) (hbrought : NamesChunked r.head → pc.Brought)
    (hbudget : w'.calls + (cfg.maxRetries.toNat - a'.toNat) * callsPerAttempt x r +
      pc.callsLeft r ≤ (cfg.maxRetries.toNat + 1) * callsPerAttempt x r) :
    ∃ f' a', Trying cfg k x r w' f' a' := by
  obtain ⟨⟨f', hf', rfl, -⟩, hconns, hfds⟩ := harrives
  refine ⟨f', a', h.orderly.step hstep, h.reading.step hstep, hf', htries, hattempt, ?_, hbrought,
    hbudget⟩
  intro fd c hup hfd
  rw [hconns]
  exact hconn fd c hup (hfds (by simp [hup]) ▸ hfd)

theorem advances (h : Trying cfg k x r w f a) (hstep : Proxy.step cfg w.state act = some w'.state)
    (harrives : Arrives s₁ k f w'.state pc) (htries : pc.tries = some (x, a))
    (hconn : ∀ fd c, pc.upFd = some fd → s₁.fds fd = some c →
      Serving r (a < cfg.maxRetries) (s₁.conns c)) (hbrought : NamesChunked r.head → pc.Brought)
    (hcalls : w'.calls + pc.callsLeft r ≤ w.calls + f.pc.callsLeft r) :
    ∃ f' a', Trying cfg k x r w' f' a' := by
  have hbudget := h.budget
  exact h.arrives hstep harrives htries h.attempt hconn hbrought (by omega)

theorem retries (h : Trying cfg k x r w f a) (hstep : Proxy.step cfg w.state act = some w'.state)
    (harrives : Arrives s₁ k f w'.state (.retried cfg x a)) (hlt : a < cfg.maxRetries)
    (hcalls : w'.calls ≤ w.calls + 1) : ∃ f' a', Trying cfg k x r w' f' a' := by
  obtain ⟨hpc, hnext⟩ := Pc.retried_of_lt x hlt
  have hlt' : a.toNat < cfg.maxRetries.toNat := UInt32.lt_iff_toNat_lt.mp hlt
  have hleft := Pc.callsLeft_pos r h.tries
  have hbudget := h.budget
  rw [hpc] at harrives
  refine h.arrives hstep harrives rfl ?_ nofun (fun _ => trivial) ?_
  · rw [UInt32.le_iff_toNat_le, hnext]
    exact hlt'
  · have hone : cfg.maxRetries.toNat - a.toNat = cfg.maxRetries.toNat - (a + 1).toNat + 1 := by
      omega
    rw [hone, Nat.succ_mul] at hbudget
    simp only [Pc.callsLeft]
    omega

variable {io : Io}

theorem granted (h : Trying cfg k x r w f a) (hactive : w.state.active = some k)
    (hserves : Serves k x r w (.run io)) (hidle : BorrowsIdle k x r w (.run io)) :
    io.reserveOk = true ∧ w.Grants io.call ∧ w.FindsIdle x f io.call := by
  have hattempt := Pc.attempt_of_tries h.tries
  obtain ⟨hreserve, hgrants⟩ := hserves f h.frame hattempt hactive
  exact ⟨hreserve, hgrants, hidle f h.frame hattempt hactive⟩

theorem lt_of_error (h : Trying cfg k x r w f a) (hactive : w.state.active = some k)
    (hspares : SparesLast cfg k x r w (.run io))
    (herror : io.call = .write .error ∨ io.call = .read .error) : a < cfg.maxRetries := by
  refine h.lt_of_ne fun hlast => ?_
  obtain ⟨hwrite, hread, -⟩ := hspares f h.frame (hlast ▸ h.tries) hactive
  rcases herror with herror | herror
  · exact hwrite herror
  · exact hread herror

theorem pauses (h : Trying cfg k x r w f a) (hstep : Proxy.step cfg w.state (.run io) = some s')
    (harrives : Arrives w.state k f s' f.pc) (hpauses : io.call.pauses = true) :
    ∃ f' a', Trying cfg k x r (w.note s' io.call) f' a' := by
  refine h.advances hstep harrives h.tries h.conn h.brought ?_
  rw [Trial.note_calls_of_pauses s' hpauses]

/-- **`acquire_upstream` takes a pooled connection**: it is idle, and open if this is the last
attempt. -/
theorem reuses {rest : List Fd} (h : Trying cfg k x r w f a) (hpc : f.pc = .acquiring x a)
    (hactive : w.state.active = some k) (hstep : Proxy.step cfg w.state (.run io) = some s')
    (harrives : Arrives (w.state.newRound fd) k f s' (.forwarding x a fd 0))
    (hpool : w.state.pools x.route.key = fd :: rest) (hcall : io.call = .reuse)
    (hidle : w.FindsIdle x f io.call) (hspares : SparesLast cfg k x r w (.run io)) :
    ∃ f' a', Trying cfg k x r (w.note s' io.call) f' a' := by
  have hcalls := Trial.note_calls w s' io.call
  have hleft : f.pc.callsLeft r = x.fwd.length + 2 * r.text.length + 6 := by rw [hpc]; rfl
  refine h.advances hstep harrives rfl ?_ (fun _ => trivial) ?_
  · intro g c hg hfd
    obtain rfl : fd = g := by simpa [Pc.upFd] using hg
    have hfd : w.state.fds fd = some c := hfd
    have hrx : (w.state.conns c).rx = [] := hidle.1 hcall fd (by simp [hpool]) c hfd
    have hconn : (w.state.newRound fd).conns c =
        { w.state.conns c with sent := [], got := [] } := if_pos hfd
    rw [hconn]
    refine ⟨hrx, nil_prefix, fun hfin => .inr ⟨rfl, h.lt_of_ne fun hlast => ?_⟩⟩
    obtain ⟨-, -, hopen⟩ := hspares f h.frame (hlast ▸ h.tries) hactive
    have hclosed : (w.state.conns c).fin = true := hfin
    rw [hopen hcall fd (by simp [hpool]) c hfd] at hclosed
    cases hclosed
  · rw [hleft]
    simp only [Pc.callsLeft]
    omega

theorem opens (h : Trying cfg k x r w f a) (hpc : f.pc = .acquiring x a)
    (hstep : Proxy.step cfg w.state (.run io) = some s')
    (harrives : Arrives (w.state.openConn fd true) k f s' pc)
    (hplace : pc = .forwarding x a fd 0 ∨ pc = .connecting x a fd) :
    ∃ f' a', Trying cfg k x r (w.note s' io.call) f' a' := by
  have hcalls := Trial.note_calls w s' io.call
  have hleft : f.pc.callsLeft r = x.fwd.length + 2 * r.text.length + 6 := by rw [hpc]; rfl
  have hnew (g : Fd) (c : ConnId) (hg : some fd = some g)
      (hfd : (w.state.openConn fd true).fds g = some c) :
      Serving r (a < cfg.maxRetries) ((w.state.openConn fd true).conns c) := by
    cases hg
    obtain rfl : w.state.opened = c := by simpa [State.openConn] using hfd
    rw [show (w.state.openConn fd true).conns w.state.opened = { upstream := true } from
      update_self ..]
    exact ⟨rfl, nil_prefix, by simp⟩
  rcases hplace with rfl | rfl
  · refine h.advances hstep harrives rfl hnew (fun _ => trivial) ?_
    rw [hleft]
    simp only [Pc.callsLeft]
    omega
  · refine h.advances hstep harrives rfl hnew (fun _ => trivial) ?_
    rw [hleft]
    simp only [Pc.callsLeft]
    omega

theorem goesOn (h : Trying cfg k x r w f a) (hup : f.pc.upFd = some fd)
    (hstep : Proxy.step cfg w.state (.run io) = some s') (harrives : Arrives w.state k f s' pc)
    (htries : pc.tries = some (x, a)) (hup' : pc.upFd = some fd) (hbrought : pc.Brought)
    (hleft : pc.callsLeft r + 1 ≤ f.pc.callsLeft r) :
    ∃ f' a', Trying cfg k x r (w.note s' io.call) f' a' := by
  have hcalls := Trial.note_calls w s' io.call
  refine h.advances hstep harrives htries (fun g c hg => h.conn g c ?_) (fun _ => hbrought) ?_
  · rw [hup, ← hup', hg]
  · omega

end Trying

/-! ### Reading the response -/

def reported (io : Io) : Assume where
  eof _ _ := io.call = .read .eof
  error _ _ := io.call = .read .error

/-- A step in which the coroutine reads from its upstream. -/
structure ReadStep (cfg : Config) (k : ConnId) (x : Exchange) (r : Answer) (w : Trial) (f : Frame)
    (a : UInt32) (io : Io) (fd : Fd) (res : ReadResult) (s₁ s' : State) : Prop where
  trying : Trying cfg k x r w f a
  active : w.state.active = some k
  up : f.pc.upFd = some fd
  src : f.pc.source f.client = some fd
  call : io.call = .read res
  read : w.state.sysRead fd f.pc.limit res = some s₁
  step : Proxy.step cfg w.state (.run io) = some s'
  idle : w.FindsIdle x f io.call
  brings : BringsChunks k r w (.run io)
  spares : SparesLast cfg k x r w (.run io)

namespace ReadStep

variable {cfg : Config} {k : ConnId} {x : Exchange} {r : Answer} {w : Trial} {f : Frame}
  {a : UInt32} {io : Io} {fd : Fd} {res : ReadResult} {s₁ s' : State}

theorem conn {c : ConnId} (h : ReadStep cfg k x r w f a io fd res s₁ s')
    (hfd : w.state.fds fd = some c) :
    s₁.fds = w.state.fds ∧ Serving r (a < cfg.maxRetries) (s₁.conns c) ∧
      (s₁.conns c).got = (f.pc.push (readBytes res)).taken := by
  have hserving := h.trying.conn fd c h.up hfd
  have hgot := h.trying.got_eq h.up hfd
  rcases sysRead_spec h.read with ⟨bs, d, rfl, hd, -, -, hrx, rfl⟩ | ⟨hnil, rfl, -⟩
  · obtain rfl : c = d := Option.some.inj (hfd.symm.trans hd)
    rw [show (w.state.setConn c _).conns c = _ from update_self ..]
    refine ⟨rfl, hserving.read hrx, ?_⟩
    show (w.state.conns c).got ++ bs = (f.pc.push bs).taken
    rw [hgot, Pc.taken_push bs h.src h.up]
  · rw [hnil, Pc.push_nil]
    exact ⟨rfl, hserving, hgot⟩

theorem serving (h : ReadStep cfg k x r w f a io fd res s₁ s') {pc : Pc} (hup : pc.upFd = some fd)
    (g : Fd) (c : ConnId) (hg : pc.upFd = some g) (hfd : s₁.fds g = some c) :
    Serving r (a < cfg.maxRetries) (s₁.conns c) := by
  obtain rfl : fd = g := Option.some.inj (hup.symm.trans hg)
  obtain ⟨d, hd⟩ := h.trying.exists_conn h.up
  obtain ⟨hfds, hserving, -⟩ := h.conn hd
  rw [hfds] at hfd
  exact Option.some.inj (hd.symm.trans hfd) ▸ hserving

theorem taken_prefix (h : ReadStep cfg k x r w f a io fd res s₁ s') :
    (f.pc.push (readBytes res)).taken <+: r.text := by
  obtain ⟨c, hfd⟩ := h.trying.exists_conn h.up
  obtain ⟨-, hserving, hgot⟩ := h.conn hfd
  exact hgot ▸ hserving.got_prefix

theorem sound (h : ReadStep cfg k x r w f a io fd res s₁ s') :
    (f.pc.push (readBytes res)).Sound := by
  rcases sysRead_spec h.read with ⟨bs, d, rfl, -, -, hlimit, -⟩ | ⟨hnil, -⟩
  · exact h.trying.sound.push hlimit
  · rw [hnil, Pc.push_nil]
    exact h.trying.sound

theorem brought (h : ReadStep cfg k x r w f a io fd res s₁ s') (hnames : NamesChunked r.head) :
    (f.pc.push (readBytes res)).Brought := by
  cases res with
  | data bs =>
    obtain ⟨call, addOk, reserveOk⟩ := io
    obtain rfl : call = .read (.data bs) := h.call
    exact (h.trying.brought hnames).push
      (h.brings hnames h.active k h.active _ (tasks_view h.trying.frame))
  | eof | eagain | eintr | error =>
    rw [show readBytes _ = [] from rfl, Pc.push_nil]
    exact h.trying.brought hnames

/-- At the end of the stream all of the response has been read, or nothing while attempts are
left; and an error comes only in the latter case. -/
theorem taken_at_end (h : ReadStep cfg k x r w f a io fd res s₁ s')
    (hend : res = .eof ∨ res = .error) :
    f.pc.push (readBytes res) = f.pc ∧
      (f.pc.taken = r.text ∨ (f.pc.taken = [] ∧ a < cfg.maxRetries)) := by
  have hnil : readBytes res = [] := by rcases hend with rfl | rfl <;> rfl
  refine ⟨by rw [hnil, Pc.push_nil], ?_⟩
  obtain ⟨c, hfd⟩ := h.trying.exists_conn h.up
  have hserving := h.trying.conn fd c h.up hfd
  rw [← h.trying.got_eq h.up hfd]
  rcases hend with rfl | rfl
  · rcases sysRead_spec h.read with ⟨bs, d, hdata, -⟩ | ⟨-, -, hend⟩
    · cases hdata
    · obtain ⟨d, hd, hrx, hfin⟩ := hend rfl
      obtain rfl : c = d := Option.some.inj (hfd.symm.trans hd)
      rw [hserving.got_eq hrx]
      exact hserving.closed hfin
  · have hbooks := hserving.books
    rw [h.idle.2 (.inr h.call) fd h.up c hfd] at hbooks
    exact .inr ⟨(append_eq_nil_iff.mp hbooks).1,
      h.trying.lt_of_error h.active h.spares (.inr h.call)⟩

theorem taken_eq (h : ReadStep cfg k x r w f a io fd res s₁ s') {v : View}
    (hcomplete : Complete (reported io) v k (f.pc.push (readBytes res))) :
    (f.pc.push (readBytes res)).taken = r.text := by
  have hhead := hcomplete.has_head h.sound
  refine r.taken_of_complete hcomplete h.sound (by rw [Pc.upFd_push, h.up]) h.taken_prefix
    fun hended => ?_
  have hend : res = .eof ∨ res = .error := by
    rcases hended with ⟨-, heof⟩ | herror
    · exact .inl (by simpa [h.call, reported] using heof)
    · exact .inr (by simpa [h.call, reported] using herror)
  obtain ⟨hsame, hall | ⟨hnone, -⟩⟩ := h.taken_at_end hend
  · rw [hsame, hall]
  · rw [hsame, hnone] at hhead
    cases hhead

theorem again (h : ReadStep cfg k x r w f a io fd res s₁ s')
    (hr : res = .eintr ∨ ∃ bs, res = .data bs)
    (harrives : Arrives s₁ k f s' (f.pc.push (readBytes res))) :
    ∃ f' a', Trying cfg k x r (w.note s' io.call) f' a' := by
  refine h.trying.advances h.step harrives (by rw [Pc.tries_push, h.trying.tries])
    (h.serving (by rw [Pc.upFd_push, h.up])) h.brought ?_
  rcases hr with rfl | ⟨bs, rfl⟩
  · have hpauses : io.call.pauses = true := by rw [h.call]; rfl
    rw [show readBytes .eintr = [] from rfl, Pc.push_nil, Trial.note_calls_of_pauses s' hpauses]
  · have hless := Pc.callsLeft_push r h.up h.src (sysRead_data h.read) h.taken_prefix.length_le
    have hcalls := Trial.note_calls w s' io.call
    rw [show readBytes (.data bs) = bs from rfl]
    omega

theorem nextPart {resp : Bytes} {part : Part} (h : ReadStep cfg k x r w f a io fd res s₁ s')
    (harrives : Arrives s₁ k f s' (.readUp x a fd resp part []))
    (hturn : Turn chunkedAssume w.state.view k ⟨f.client, f.pc.push (readBytes res), f.index⟩
      (.readUp x a fd resp part []))
    (hmore : (∃ bs, res = .data bs) ∨ (∃ buf, f.pc = .readUpHead x a fd buf) ∨
      ∃ resp' part' buf, f.pc = .readUp x a fd resp' part' buf ∧ buf ≠ []) :
    ∃ f' a', Trying cfg k x r (w.note s' io.call) f' a' := by
  have htaken : (Pc.readUp x a fd resp part []).taken = (f.pc.push (readBytes res)).taken := by
    rcases (hturn.reading h.sound).2 with hnone | htaken
    · cases hnone
    · exact htaken
  refine h.trying.advances h.step harrives rfl (h.serving rfl)
    (fun hnames => Brought.turn (h.brought hnames) hturn) ?_
  have hcalls := Trial.note_calls w s' io.call
  have hpre := h.taken_prefix.length_le
  have hlen : (f.pc.push (readBytes res)).taken.length =
      f.pc.taken.length + (readBytes res).length := by
    rw [Pc.taken_push _ h.src h.up, length_append]
  rw [← htaken] at hpre hlen
  have hless := Pc.callsLeft_part r h.up h.src hpre ?_
  · omega
  · rcases hmore with ⟨bs, rfl⟩ | hplace
    · have hpos : 0 < (readBytes (.data bs)).length := length_pos_iff.mpr (sysRead_data h.read)
      omega
    · exact .inr ⟨by omega, hplace⟩

theorem buf_ne (h : ReadStep cfg k x r w f a io fd res s₁ s') (hend : res = .eof ∨ res = .error)
    {resp buf : Bytes} {part part' : Part}
    (hpc : f.pc.push (readBytes res) = .readUp x a fd resp part buf)
    (hnext : Part.Next buf part part') (hrest : ∀ body, part = .rest body → buf ≠ []) :
    f.pc = .readUp x a fd resp part buf ∧ buf ≠ [] := by
  obtain ⟨hsame, htaken⟩ := h.taken_at_end hend
  rw [hsame] at hpc
  have hsound := h.trying.sound
  refine ⟨hpc, ?_⟩
  rcases htaken with hall | ⟨hnone, -⟩
  · exact r.buf_ne_of_next hpc hsound (h.trying.orderly.hungry k f h.trying.frame)
      h.trying.brought hall hnext hrest
  · -- the head has been read
    rw [hpc] at hnone hsound
    obtain ⟨head, pos, hpos, rfl, hfits⟩ := hsound
    obtain ⟨rest, hrest⟩ := hfits.head_prefix
    have hfound := find_append rest hpos
    rw [hrest, show head.take (pos + 4) ++ (part.before ++ buf) = [] from hnone] at hfound
    cases hfound

theorem returns (h : ReadStep cfg k x r w f a io fd res s₁ s') {v : View}
    (hr : res = .eof ∨ res = .error ∨ ∃ bs, res = .data bs)
    (hended : (f.pc.push (readBytes res)).Hungry → res = .eof ∨ res = .error)
    (hbehind : Behind cfg (reported io) v s₁ k f true (f.pc.push (readBytes res)) s') :
    AnsweredWith k x r (w.note s' io.call) ∨
      ∃ f' a', Trying cfg k x r (w.note s' io.call) f' a' := by
  have htries : (f.pc.push (readBytes res)).tries = some (x, a) := by
    rw [Pc.tries_push, h.trying.tries]
  have hup : (f.pc.push (readBytes res)).upFd = some fd := by
    rw [Pc.upFd_push, h.up]
  have hcalls := Trial.note_calls w s' io.call
  cases hbehind with
  | complete hx _ hcomplete =>
    rw [Pc.exchange_of_tries htries, Option.some.injEq] at hx
    subst hx
    rw [h.taken_eq hcomplete]
    exact .inl ⟨_, update_self .., rfl⟩
  | @noUpHead y b g head hpc hnone =>
    obtain ⟨rfl, rfl⟩ : y = x ∧ b = a := by simpa [hpc, Pc.tries] using htries
    obtain ⟨hsame, htaken⟩ := h.taken_at_end (hended (by rw [hpc]; exact hnone))
    rw [hsame] at hpc
    -- nothing was sent, for the response would have brought an empty line
    rcases htaken with hall | ⟨-, hlt⟩
    · have hfound := r.find_text
      rw [← hall, hpc, show find blankLine (Pc.readUpHead y b g head).taken = none from hnone]
        at hfound
      cases hfound
    · exact .inr (h.trying.retries h.step closeAttempt_arrives hlt hcalls)
  | @plan y b g head pos part hpc hpos hplan =>
    obtain ⟨rfl, rfl⟩ : y = x ∧ b = a := by simpa [hpc, Pc.tries] using htries
    obtain rfl : g = fd := by simpa [hpc, Pc.upFd] using hup
    have hplace : ∃ buf, f.pc = .readUpHead y b g buf := by
      cases hf : f.pc <;> simp_all [Pc.push]
    exact .inr (h.nextPart (goto_arrives _) (.plan hpc hpos hplan) (.inr (.inl hplace)))
  | @next y b g resp buf part part' hpc hnext _ hrest =>
    obtain ⟨rfl, rfl⟩ : y = x ∧ b = a := by simpa [hpc, Pc.tries] using htries
    obtain rfl : g = fd := by simpa [hpc, Pc.upFd] using hup
    refine .inr (h.nextPart (goto_arrives _) (.nextPart hpc hnext) ?_)
    rcases hr with rfl | rfl | hdata
    · exact .inr (.inr ⟨resp, part, buf, h.buf_ne (.inl rfl) hpc hnext hrest⟩)
    · exact .inr (.inr ⟨resp, part, buf, h.buf_ne (.inr rfl) hpc hnext hrest⟩)
    · exact .inl hdata
  | noMemory hreserve => cases hreserve
  | noHead hpc | wantBody hpc =>
    rw [hpc] at hup
    cases hup
  | noRoute hasks | shut hasks | gate hasks =>
    cases hasks with
    | head hpc | body hpc =>
      rw [hpc] at hup
      cases hup

end ReadStep

/-! ## Whole runs -/

namespace Trying

variable {cfg : Config} {k : ConnId} {x : Exchange} {r : Answer} {w w' : Trial} {f : Frame}
  {a : UInt32} {s' : State} {io : Io} {act : Act}

/-- **A step of the coroutine** answers the request or leaves it on its way. -/
theorem run (h : Trying cfg k x r w f a) (hactive : w.state.active = some k)
    (hstep : Proxy.step cfg w.state (.run io) = some s') (hserves : Serves k x r w (.run io))
    (hidle : BorrowsIdle k x r w (.run io)) (hbrings : BringsChunks k r w (.run io))
    (hspares : SparesLast cfg k x r w (.run io)) :
    AnsweredWith k x r (w.note s' io.call) ∨
      ∃ f' a', Trying cfg k x r (w.note s' io.call) f' a' := by
  have hrun : w.state.runFrame cfg k f io = some s' := by
    simpa [Proxy.step, hactive, h.frame] using hstep
  have htries := h.tries
  have hcalls := Trial.note_calls w s' io.call
  obtain ⟨hreserve, hgrants, hfinds⟩ := h.granted hactive hserves hidle
  have hreads {fd : Fd} {res : ReadResult} {s₁ : State} (hsrc : f.pc.source f.client = some fd)
      (hcall : io.call = .read res) (hread : w.state.sysRead fd f.pc.limit res = some s₁) :
      ReadStep cfg k x r w f a io fd res s₁ s' :=
    ⟨h, hactive, Pc.upFd_of_tries htries hsrc, hsrc, hcall, hread, hstep, hfinds, hbrings, hspares⟩
  have hran : Ran cfg (reported io) w.state k f io s' := by
    refine runFrame_ran hrun fun fd res s₁ hsrc hcall hread hr => ?_
    rcases sysRead_spec hread with ⟨bs, c, rfl, -⟩ | ⟨-, rfl, hend⟩
    · simp at hr
    · rcases hr with rfl | rfl
      · exact .inl ⟨hend rfl, hcall⟩
      · exact .inr hcall
  cases hran with
  | readOn hsrc hcall hread hr =>
    exact .inr ((hreads hsrc hcall hread).again hr (goto_arrives _))
  | readWait hsrc hcall =>
    exact .inr (h.pauses hstep (awaitIo_arrives _ _ _) (by rw [hcall]; rfl))
  | readEnd hsrc hcall hread hr hended _ hbehind =>
    rw [hreserve] at hbehind
    exact (hreads hsrc hcall hread).returns hr hended hbehind
  | @reuse y b fd rest hpc hpool hcall =>
    obtain ⟨rfl, rfl⟩ : y = x ∧ b = a := by simpa [hpc, Pc.tries] using htries
    exact .inr (h.reuses hpc hactive hstep (startForward_arrives.of_eq rfl rfl) hpool hcall hfinds
      hspares)
  | @connect y b fd hpc =>
    obtain ⟨rfl, rfl⟩ : y = x ∧ b = a := by simpa [hpc, Pc.tries] using htries
    exact .inr (h.opens hpc hstep startForward_arrives (.inl rfl))
  | @connectWait y b fd hpc =>
    obtain ⟨rfl, rfl⟩ : y = x ∧ b = a := by simpa [hpc, Pc.tries] using htries
    exact .inr (h.opens hpc hstep (awaitIo_arrives _ _ _) (.inr rfl))
  | noConnection _ hcall =>
    rcases hcall with hcall | hcall
    · exact absurd hcall hgrants.1
    · exact absurd hcall hgrants.2.1
  | @connected y b fd hpc =>
    obtain ⟨rfl, rfl⟩ : y = x ∧ b = a := by simpa [hpc, Pc.tries] using htries
    refine .inr (h.goesOn (by rw [hpc]; rfl) hstep startForward_arrives rfl rfl trivial ?_)
    rw [hpc]
    simp only [Pc.callsLeft]
    omega
  | connectFailed _ hcall => exact absurd hcall hgrants.2.2.1
  | @forwardOn y b fd off n hpc _ hn hlen =>
    obtain ⟨rfl, rfl⟩ : y = x ∧ b = a := by simpa [hpc, Pc.tries] using htries
    refine .inr (h.goesOn (by rw [hpc]; rfl) hstep ((goto_arrives _).of_eq rfl rfl) rfl rfl
      trivial ?_)
    rw [hpc]
    simp only [Pc.callsLeft]
    omega
  | @forwarded y b fd off n hpc _ hn hlen =>
    obtain ⟨rfl, rfl⟩ : y = x ∧ b = a := by simpa [hpc, Pc.tries] using htries
    refine .inr (h.goesOn (by rw [hpc]; rfl) hstep ((goto_arrives _).of_eq rfl rfl) rfl rfl
      brings_nil ?_)
    rw [hpc]
    simp only [Pc.callsLeft, length_nil]
    omega
  | forwardAgain _ hcall =>
    exact .inr (h.pauses hstep (goto_arrives _) (by rw [hcall]; rfl))
  | forwardWait _ hcall =>
    exact .inr (h.pauses hstep (awaitIo_arrives _ _ _) (by rw [hcall]; rfl))
  | @forwardFailed y b fd off hpc hcall =>
    obtain ⟨rfl, rfl⟩ : y = x ∧ b = a := by simpa [hpc, Pc.tries] using htries
    have hlt := h.lt_of_error hactive hspares (.inl hcall)
    exact .inr (h.retries hstep closeAttempt_arrives hlt hcalls)
  | writeOn hwrites | writeWait hwrites =>
    have hattempt := Pc.attempt_of_tries htries
    rw [Pc.attempt_of_writes hwrites] at hattempt
    cases hattempt
  | refused hpc | answered hpc =>
    rw [hpc] at htries
    cases htries

/-- **Every step** answers the request or leaves it on its way. -/
theorem step (h : Trying cfg k x r w f a) (hserves : Serves k x r w act)
    (hidle : BorrowsIdle k x r w act) (hbrings : BringsChunks k r w act)
    (hspares : SparesLast cfg k x r w act)
    (hstep : w.step cfg k act = some w') :
    AnsweredWith k x r w' ∨ ∃ f' a', Trying cfg k x r w' f' a' := by
  obtain ⟨s', hs', ⟨io, rfl, hactive, rfl⟩ | ⟨hother, rfl⟩⟩ := Trial.step_cases hstep
  · exact h.run hactive hs' hserves hidle hbrings hspares
  · obtain ⟨f', hf'⟩ := h.elsewhere hs' hother hserves hidle hspares
    exact .inr ⟨f', a, hf'⟩

theorem start {pre : List Act} {s : State} (r : Answer)
    (hreach : exec (Proxy.step cfg) .init pre = some s) (hid : s.frames k = some f)
    (hpc : f.pc = .acquiring x 0) : Trying cfg k x r { state := s } f 0 where
  orderly := run_orderly hreach
  reading := run_invariant Reading.init (fun _ _ h hmove => h.move hmove)
    (meets_of_forall allows_default _ _) hreach
  frame := hid
  tries := by rw [hpc]; rfl
  attempt := by simp
  conn fd c hup := by
    rw [hpc] at hup
    cases hup
  brought _ := by
    rw [hpc]
    trivial
  budget := by
    rw [hpc, Nat.succ_mul]
    simp only [UInt32.toNat_zero, Nat.sub_zero, Nat.zero_add, Pc.callsLeft, Nat.le_refl]

end Trying

/-! ## Concrete runs -/

end Muses.Proxy
