import Muses.Proxy.Attempts

/-!
# The loop over the chunks of a response

The loop of `serve_client` that collects a chunked body asks `read_until` for the end of the first
line, and from then on `read_n` for more. It leaves when `read_n` comes back with nothing. It does
not look at what `read_until` has returned: at the end of a stream without a line end it goes round
without reading anything, and the proxy's only thread does not come out of it again.
-/

namespace Muses.Proxy

open Muses.Core Text Search HttpContext Http Function
open World (ReadResult readChunk)

/-! ## The loop -/

def Pc.chunks : Pc → Option (Bytes × Bytes)
  | .readUp _ _ _ _ (.chunkLine cb) buf => some (cb, buf)
  | .readUp _ _ _ _ (.chunk cb) buf => some (cb, buf)
  | _ => none

def Pc.firstLine : Pc → Option Bytes
  | .readUp _ _ _ _ (.chunkLine cb) buf => some (cb ++ buf)
  | _ => none

/-- A run with the rounds and reads of one coroutine's chunk loop. -/
structure Watch where
  state : State
  iterations : Nat := 0
  reads : Nat := 0

namespace Watch

/-- Write down a system call that the coroutine made at `pc`. Outside of the loop nothing is
counted. -/
def note (w : Watch) (s : State) (pc : Pc) (call : Call) : Watch :=
  match pc.chunks, call with
  | some _, .read r =>
      { state := s
        iterations :=
          match pc.round r with
          | .done _ => w.iterations + 1
          | _ => w.iterations
        reads := if call.pauses then w.reads else w.reads + 1 }
  | _, _ => { state := s }

def step (cfg : Config) (id : ConnId) (w : Watch) (a : Act) : Option Watch :=
  (Proxy.step cfg w.state a).map fun s =>
    match a, w.state.frames id with
    | .run io, some f =>
        if w.state.active = some id then w.note s f.pc io.call else { w with state := s }
    | _, _ => { w with state := s }

end Watch

/-- The stream of a chunked response does not end before the end of its first size line. -/
def EndsBehindLine (id : ConnId) (w : Watch) : Act → Prop
  | .run io => (io.call = .read .eof ∨ io.call = .read .error) → w.state.active = some id →
      ∀ f ∈ w.state.frames id, ∀ text ∈ f.pc.firstLine, (find crlf text).isSome
  | _ => True

instance (id : ConnId) (w : Watch) (a : Act) : Decidable (EndsBehindLine id w a) := by
  unfold EndsBehindLine
  induction a using Act.casesOn <;> infer_instance

/-! ## One iteration -/

section Code

variable {s : State} {id : ConnId} {f f' : Frame} {x : Exchange} {a : UInt32} {fd : Fd}
  {resp cb cb' more buf' : Bytes} {ok : Bool} {pc : Pc}

theorem goto_frame (hf' : (s.goto id f pc).frames id = some f') : f'.pc = pc := by
  simp only [State.goto, update_self, Option.some.injEq] at hf'
  rw [← hf']

theorem afterResponse_chunks
    (hf' : (s.afterResponse id f x fd resp).frames id = some f') : f'.pc.chunks = none := by
  rw [goto_frame hf']
  rfl

theorem chunkLoop_chunks (hf' : (s.chunkLoop id f x a fd resp cb ok).frames id = some f')
    (hchunks : f'.pc.chunks = some (cb', buf')) : cb' = cb ∧ buf' = [] := by
  unfold State.chunkLoop State.enterReadN at hf'
  split at hf'
  · rw [afterResponse_chunks hf'] at hchunks
    cases hchunks
  · split at hf'
    · rw [goto_frame hf'] at hchunks
      cases hchunks
      exact ⟨rfl, rfl⟩
    · split at hf'
      · rw [goto_frame hf'] at hchunks
        cases hchunks
        exact ⟨rfl, rfl⟩
      · rw [goto_frame hf'] at hchunks
        cases hchunks

/-- An iteration that does not leave the loop adds what it has read. If `read_n` has read nothing,
the loop is left. -/
theorem afterPart_chunks {part : Part} (hpart : part = .chunkLine cb ∨ part = .chunk cb)
    (hf' : (s.afterPart id f x a fd resp part ok more).frames id = some f')
    (hchunks : f'.pc.chunks = some (cb', buf')) :
    cb' = cb ++ more ∧ buf' = [] ∧ (part = .chunk cb → more ≠ []) := by
  rcases hpart with rfl | rfl
  · obtain ⟨hcb, hbuf⟩ := chunkLoop_chunks hf' hchunks
    exact ⟨hcb, hbuf, nofun⟩
  · simp only [State.afterPart] at hf'
    split at hf'
    · rw [afterResponse_chunks hf'] at hchunks
      cases hchunks
    · next hmore =>
      split at hf'
      · rw [afterResponse_chunks hf'] at hchunks
        cases hchunks
      · obtain ⟨hcb, hbuf⟩ := chunkLoop_chunks hf' hchunks
        exact ⟨hcb, hbuf, fun _ => hmore⟩

end Code

theorem Pc.eq_of_chunks {pc : Pc} {cb buf : Bytes} (h : pc.chunks = some (cb, buf)) :
    ∃ x a fd resp part, pc = .readUp x a fd resp part buf ∧
      (part = .chunkLine cb ∨ part = .chunk cb) := by
  cases pc with
  | readUp x a fd resp part b =>
    cases part with
    | chunkLine c =>
      cases h
      exact ⟨x, a, fd, resp, _, rfl, .inl rfl⟩
    | chunk c =>
      cases h
      exact ⟨x, a, fd, resp, _, rfl, .inr rfl⟩
    | sized | rest => cases h
  | _ => cases h

theorem Pc.chunks_readUp {x : Exchange} {a : UInt32} {fd : Fd} {resp cb : Bytes} {part : Part}
    (h : part = .chunkLine cb ∨ part = .chunk cb) (buf : Bytes) :
    (Pc.readUp x a fd resp part buf).chunks = some (cb, buf) := by
  rcases h with rfl | rfl <;> rfl

/-! ## The counters -/

/-- While coroutine `id` is in the loop, every iteration has collected a byte; and every `read` has
returned one, or the end of an iteration's part. -/
structure Counted (id : ConnId) (w : Watch) : Prop where
  hungry : AllHungry w.state
  reading : Reading w.state.view
  counts : ∀ f cb buf, w.state.frames id = some f → f.pc.chunks = some (cb, buf) →
    w.iterations ≤ cb.length ∧ w.reads ≤ 2 * cb.length + buf.length

section Counting

variable {cfg : Config} {id : ConnId} {w w' : Watch} {s s' : State} {a : Act} {f f' : Frame}
  {io : Io}

theorem pc_elsewhere (hungry : AllHungry s) (hstep : step cfg s a = some s')
    (hother : ∀ io, a = .run io → s.active ≠ some id) (hf' : s'.frames id = some f') :
    f'.pc = .readHead [] ∨ ∃ f, s.frames id = some f ∧ f.pc = f'.pc := by
  rcases step_cases hstep with ⟨-, hcalm⟩ | ⟨io, j, g, rfl, hactive, hj, hrun⟩ | ⟨-, hmove⟩
  · exact .inr ⟨f', hcalm.frames ▸ hf', rfl⟩
  · have hji : id ≠ j := by
      rintro rfl
      exact hother io rfl hactive
    obtain ⟨hothers, -⟩ := (runFrame_leads (hungry j g hj) hrun).frames
    exact .inr ⟨f', hothers id hji ▸ hf', rfl⟩
  · rcases hmove.frames hf' with ⟨-, hpc⟩ | ⟨f, hf, hpc, -⟩
    · exact .inl hpc
    · exact .inr ⟨f, hf, hpc.symm⟩

theorem Watch.step_cases (h : w.step cfg id a = some w') :
    ∃ s', Proxy.step cfg w.state a = some s' ∧
      ((∃ io f, a = .run io ∧ w.state.active = some id ∧ w.state.frames id = some f ∧
          w' = w.note s' f.pc io.call) ∨
        ((∀ io, a = .run io → w.state.active ≠ some id) ∧ w' = { w with state := s' })) := by
  obtain ⟨s', hstep, rfl⟩ := Option.map_eq_some_iff.mp h
  refine ⟨s', hstep, ?_⟩
  cases a with
  | run io =>
    by_cases hactive : w.state.active = some id
    · obtain ⟨j, hj, hstep⟩ := Option.bind_eq_some_iff.mp hstep
      obtain ⟨f, hf, -⟩ := Option.bind_eq_some_iff.mp hstep
      obtain rfl : j = id := Option.some.inj (hj.symm.trans hactive)
      exact .inl ⟨io, f, rfl, hactive, hf, by simp only [hf, hactive, if_true]⟩
    · refine .inr ⟨fun _ _ => hactive, ?_⟩
      simp only [hactive, if_false]
      split <;> rfl
  | _ => exact .inr ⟨nofun, rfl⟩

theorem Watch.note_state (w : Watch) (s : State) (pc : Pc) (call : Call) :
    (w.note s pc call).state = s := by
  unfold Watch.note
  split <;> rfl

/-- **One step of a coroutine in the loop.** The end of the stream ends an iteration, and one that
has collected nothing leaves the loop, unless it was looking for the end of a line. -/
theorem Counted.inLoop (h : Counted id w) (hends : EndsBehindLine id w (.run io))
    (hactive : w.state.active = some id) (hf : w.state.frames id = some f)
    (hrun : w.state.runFrame cfg id f io = some s') {cb buf cb' buf' : Bytes}
    (hchunks : f.pc.chunks = some (cb, buf)) (hf' : s'.frames id = some f')
    (hchunks' : f'.pc.chunks = some (cb', buf')) :
    (w.note s' f.pc io.call).iterations ≤ cb'.length ∧
      (w.note s' f.pc io.call).reads ≤ 2 * cb'.length + buf'.length := by
  obtain ⟨hiter, hreads⟩ := h.counts f cb buf hf hchunks
  obtain ⟨x, a, fd, resp, part, hpc, hpart⟩ := Pc.eq_of_chunks hchunks
  have hungry := h.hungry id f hf
  cases hcall : io.call with
  | read r =>
    simp only [State.runFrame, hpc, hcall] at hrun
    obtain ⟨s₁, hread, rfl⟩ := Option.map_eq_some_iff.mp hrun
    simp only [Watch.note, hpc, Pc.chunks_readUp hpart, Pc.round]
    have hrounds := Part.round_rounds part buf r
    cases hround : part.round buf r with
    | again v =>
      rw [hround] at hrounds hf'
      rw [goto_frame hf', Pc.chunks_readUp hpart] at hchunks'
      cases hchunks'
      cases hrounds with
      | again hv hr =>
        subst hv
        rcases hr with rfl | ⟨bs, rfl⟩
        · simpa [Call.pauses, readBytes] using ⟨hiter, hreads⟩
        · have hpos := List.length_pos_of_ne_nil (sysRead_data hread)
          simp only [Call.pauses, Bool.false_eq_true, if_false, readBytes, List.length_append]
          exact ⟨hiter, by omega⟩
    | await v =>
      rw [hround] at hrounds hf'
      simp only [State.proceed, State.awaitIo, update_self, Option.some.injEq] at hf'
      rw [← hf', Pc.chunks_readUp hpart] at hchunks'
      cases hchunks'
      cases hrounds with
      | await hv hr =>
        subst hv hr
        exact ⟨hiter, hreads⟩
    | done v =>
      rw [hround] at hrounds hf'
      obtain ⟨rfl, rfl, hmore⟩ := afterPart_chunks hpart hf' hchunks'
      cases hrounds with
      | done hv hr =>
        subst hv
        -- at the end of the stream there is a line end, and it is not in what was collected before
        have hend (hr : r = .eof ∨ r = .error) : buf ≠ [] := by
          rintro rfl
          have hnil : readBytes r = [] := by rcases hr with rfl | rfl <;> rfl
          rcases hpart with rfl | rfl
          · have hline := hends (by rcases hr with rfl | rfl <;> simp [hcall]) hactive f hf cb
              (by rw [hpc]; simp [Pc.firstLine])
            rw [hpc] at hungry
            rw [hungry.1] at hline
            cases hline
          · exact hmore rfl hnil
        have hpos : 0 < (buf ++ readBytes r).length := by
          rw [List.length_pos_iff]
          rcases hr with hr | hr | ⟨bs, rfl⟩
          · exact List.append_ne_nil_of_left_ne_nil (hend (.inl hr)) _
          · exact List.append_ne_nil_of_left_ne_nil (hend (.inr hr)) _
          · exact List.append_ne_nil_of_right_ne_nil _ (sysRead_data hread)
        simp only [List.length_append, List.length_nil] at hpos ⊢
        refine ⟨by omega, ?_⟩
        split <;> omega
  | _ => simp [State.runFrame, hpc, hcall] at hrun

theorem Counted.step (h : Counted id w) (hends : EndsBehindLine id w a)
    (hstep : w.step cfg id a = some w') : Counted id w' := by
  obtain ⟨s', hs', ⟨io, f, rfl, hactive, hf, rfl⟩ | ⟨hother, rfl⟩⟩ := Watch.step_cases hstep
  · refine ⟨by rw [Watch.note_state]; exact h.hungry.step hs',
      by rw [Watch.note_state]; exact h.reading.step hs', ?_⟩
    intro f' cb' buf' hf' hchunks'
    rw [Watch.note_state] at hf'
    have hrun : w.state.runFrame cfg id f io = some s' := by
      simpa [Proxy.step, hactive, hf] using hs'
    cases hchunks : f.pc.chunks with
    | none =>
      -- the loop is only entered
      simp only [Watch.note, hchunks]
      exact ⟨Nat.zero_le _, Nat.zero_le _⟩
    | some e => exact h.inLoop hends hactive hf hrun hchunks hf' hchunks'
  · refine ⟨h.hungry.step hs', h.reading.step hs', ?_⟩
    intro f' cb buf hf' hchunks
    rcases pc_elsewhere h.hungry hs' hother hf' with hpc | ⟨f, hf, hpc⟩
    · rw [hpc] at hchunks
      cases hchunks
    · exact h.counts f cb buf hf (hpc ▸ hchunks)

theorem Counted.init (id : ConnId) : Counted id { state := .init } where
  hungry _ _ h := by cases h
  reading := .init
  counts _ _ _ h := by cases h

theorem exists_read {cb buf : Bytes} {fd : Fd} {c : ConnId} (hactive : s.active = some id)
    (hf : s.frames id = some f) (hungry : f.pc.Hungry) (hchunks : f.pc.chunks = some (cb, buf))
    (hup : f.pc.upFd = some fd) (hfd : s.fds fd = some c) (hfin : (s.conns c).fin = true) :
    ∃ r, (Call.read r).pauses = false ∧ r ≠ .error ∧
      (step cfg s (.run { call := .read r })).isSome := by
  obtain ⟨x, a, g, resp, part, hpc, hpart⟩ := Pc.eq_of_chunks hchunks
  obtain rfl : g = fd := by simpa [hpc, Pc.upFd] using hup
  have hstep (r : ReadResult) (h : (s.sysRead g (part.limit buf) r).isSome) :
      (step cfg s (.run { call := .read r })).isSome := by
    simpa [step, hactive, hf, State.runFrame, hpc] using h
  cases hrx : (s.conns c).rx with
  | nil => exact ⟨.eof, rfl, by simp, hstep .eof (by simp [State.sysRead, hfd, hrx, hfin])⟩
  | cons b bs =>
    have hlimit : 1 ≤ part.limit buf := by
      rw [hpc] at hungry
      rcases hpart with rfl | rfl
      · show 1 ≤ readChunk
        decide
      · have hlt : buf.length < 4096 := hungry
        show 1 ≤ min (4096 - buf.length) readChunk
        have hchunk : 1 ≤ readChunk := by decide
        omega
    refine ⟨.data [b], rfl, by simp, hstep _ ?_⟩
    simp [State.sysRead, hfd, hrx, hlimit]

end Counting

/-! ## The loop ends -/

/-- **The loop over the chunks ends**, however the bytes of the upstream are split into reads. In
every run that meets `EndsBehindLine`, take a coroutine in the loop. It has completed at most as
many iterations as it has read bytes behind the head, with at most two calls of `read` for each of
them; and if the upstream has closed the connection, there is always a further call that returns
bytes or the end of the stream. -/
theorem chunked_loop_ends {cfg : Config} {acts : List Act} {w : Watch} {id : ConnId} {f : Frame}
    {x : Exchange} {a : UInt32} {fd : Fd} {resp cb buf : Bytes} {part : Part}
    (hmeets : Meets (Watch.step cfg id) (EndsBehindLine id) { state := .init } acts)
    (hrun : exec (Watch.step cfg id) { state := .init } acts = some w)
    (hf : w.state.frames id = some f) (hpc : f.pc = .readUp x a fd resp part buf)
    (hpart : part = .chunkLine cb ∨ part = .chunk cb) :
    ∃ c body, w.state.fds fd = some c ∧ (w.state.conns c).got = resp ++ body ∧
      w.iterations ≤ body.length ∧ w.reads ≤ 2 * body.length ∧
      (w.state.active = some id → (w.state.conns c).fin = true →
        ∃ r, (Call.read r).pauses = false ∧ r ≠ .error ∧
          (step cfg w.state (.run { call := .read r })).isSome) := by
  have hcounted : Counted id w :=
    exec_invariant_of_meets (fun _ _ _ h hends hstep => h.step hends hstep) (.init id) hmeets hrun
  have hchunks : f.pc.chunks = some (cb, buf) := by rw [hpc, Pc.chunks_readUp hpart]
  have hup : f.pc.upFd = some fd := by rw [hpc]; rfl
  have htask := tasks_view hf
  obtain ⟨c, hfd, -⟩ := hcounted.reading.placed.held id fd (by
    rw [Placed.held_of_task htask]; exact hup)
  have hgot := hcounted.reading.taken id _ fd c htask hup hfd
  have hbefore : part.before = cb := by rcases hpart with rfl | rfl <;> rfl
  obtain ⟨hiter, hreads⟩ := hcounted.counts f cb buf hf hchunks
  refine ⟨c, cb ++ buf, hfd, ?_, ?_, ?_, fun hactive hfin =>
    exists_read hactive hf (hcounted.hungry id f hf) hchunks hup hfd hfin⟩
  · have htaken : f.pc.taken = resp ++ (cb ++ buf) := by rw [hpc, Pc.taken, hbefore]
    exact hgot.trans htaken
  · rw [List.length_append]
    omega
  · rw [List.length_append]
    omega

def endsInChunk : List Act :=
  responding (helloResponse.head.text ++ ascii "5\r\nhell") ++
    [.reads (helloResponse.head.text ++ ascii "5"), .reads (ascii "\r\nhe"), .reads (ascii "ll"),
      .hangup 5, .run { call := .read .eof }]

theorem chunked_loop_ends_endsInChunk :
    ∃ w ∈ exec (Watch.step .sample 0) { state := .init } endsInChunk, ∃ c body,
      w.state.fds 5 = some c ∧ (w.state.conns c).got = helloResponse.head.text ++ body ∧
        w.iterations ≤ body.length ∧ w.reads ≤ 2 * body.length ∧
        (w.state.active = some 0 → (w.state.conns c).fin = true →
          ∃ r, (Call.read r).pauses = false ∧ r ≠ .error ∧
            (step .sample w.state (.run { call := .read r })).isSome) := by
  obtain ⟨w, hrun, f, hf, hpc⟩ :
      ∃ w ∈ exec (Watch.step .sample 0) { state := .init } endsInChunk, ∃ f ∈ w.state.frames 0,
        f.pc = .readUp getExchange 0 5 helloResponse.head.text (.chunk (ascii "5\r\nhell")) [] := by
    decide +kernel
  have hmeets : Meets (Watch.step .sample 0) (EndsBehindLine 0) { state := .init } endsInChunk := by
    decide +kernel
  exact ⟨w, hrun, chunked_loop_ends hmeets hrun hf hpc (.inr rfl)⟩

/-! ## The loop does not end -/

section Spinning

variable {cfg : Config} {s : State} {id c : ConnId} {f : Frame} {x : Exchange} {a : UInt32}
  {fd : Fd} {resp cb : Bytes}

def Act.readsEnd : Act := .run { call := .read .eof }

/-- **The loop spins.** At the end of a stream without a line end, an iteration leaves the proxy as
it was. -/
theorem step_eof_chunkLine (hactive : s.active = some id) (hf : s.frames id = some f)
    (hpc : f.pc = .readUp x a fd resp (.chunkLine cb) []) (hfd : s.fds fd = some c)
    (hrx : (s.conns c).rx = []) (hfin : (s.conns c).fin = true) (hline : find crlf cb = none)
    (hlast : find lastChunk cb = none) : step cfg s .readsEnd = some s := by
  have hgoto : s.goto id f f.pc = s := by
    have hself : update s.frames id (some { f with pc := f.pc }) = s.frames := by
      rw [← hf]
      exact update_eq_self id s.frames
    unfold State.goto
    rw [hself]
  have hread : s.sysRead fd readChunk .eof = some s := by
    simp only [State.sysRead, hfd, hrx, hfin, and_self, if_true]
  have hloop : s.chunkLoop id f x a fd resp cb true = s.goto id f f.pc := by
    simp [State.chunkLoop, hlast, hline, hpc]
  simp only [Act.readsEnd, step, hactive, Option.bind_some, hf, State.runFrame, hpc, Part.limit,
    hread, Option.map_some, Part.round, readUntil, State.proceed, State.afterPart,
    List.append_nil, hloop]
  rw [← hpc, hgoto]

theorem exec_spins {w : Watch} (hf : w.state.frames id = some f)
    (hactive : w.state.active = some id) (hpc : f.pc = .readUp x a fd resp (.chunkLine cb) [])
    (hspins : step cfg w.state .readsEnd = some w.state) (n : Nat) :
    exec (Watch.step cfg id) w (List.replicate n .readsEnd) =
      some { state := w.state, iterations := w.iterations + n, reads := w.reads + n } := by
  induction n generalizing w with
  | zero => rfl
  | succ n ih =>
    have hstep : w.step cfg id .readsEnd =
        some { state := w.state, iterations := w.iterations + 1, reads := w.reads + 1 } := by
      rw [Watch.step, hspins]
      simp [Act.readsEnd, hf, hactive, Watch.note, hpc, Pc.chunks, Pc.round, Part.round, readUntil,
        Call.pauses]
    have hrest := @ih { state := w.state, iterations := w.iterations + 1, reads := w.reads + 1 } hf
      hactive hspins
    rw [List.replicate_succ, exec_cons_of_step _ hstep, hrest]
    simp only [Nat.add_assoc, Nat.add_comm 1]

end Spinning

def endsBehindHead : List Act :=
  responding helloResponse.head.text ++ [.reads helloResponse.head.text, .hangup 5]

/-- The coroutine never comes out of the loop, nor does any other part of the proxy run. -/
theorem empty_chunked_body_spins :
    ∃ w ∈ exec (Watch.step .sample 0) { state := .init } endsBehindHead,
      ∀ n, exec (Watch.step .sample 0) w (List.replicate n .readsEnd) =
        some { state := w.state, iterations := w.iterations + n, reads := w.reads + n } := by
  obtain ⟨w, hrun, f, hf, hpc, hactive, hfd, hrx, hfin⟩ :
      ∃ w ∈ exec (Watch.step .sample 0) { state := .init } endsBehindHead,
        ∃ f ∈ w.state.frames 0,
          f.pc = .readUp getExchange 0 5 helloResponse.head.text (.chunkLine []) [] ∧
          w.state.active = some 0 ∧ w.state.fds 5 = some 1 ∧ (w.state.conns 1).rx = [] ∧
          (w.state.conns 1).fin = true := by
    decide +kernel
  have hspins := @step_eof_chunkLine .sample _ _ _ _ _ _ _ _ _ hactive hf hpc hfd hrx hfin rfl rfl
  exact ⟨w, hrun, exec_spins hf hactive hpc hspins⟩

end Muses.Proxy
