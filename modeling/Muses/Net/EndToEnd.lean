import Muses.Net.Bodies
import Muses.Net.Ordering

/-!
# The server, end to end

The client sends well-formed requests and reads what comes back. Between the two are the read
buffer and its cuts, the task queue, the worker threads with `handle_request`, the outbox and the
writes that the socket splits. None of it shows: the responses come one for each request, in order.
-/

namespace Muses.Reactor

open Muses.Core Function

variable {cfg : Config} {w w' : World} {s s' : State} {k : ConnId} {n : Nat}

/-! ## Where results come from -/

theorem finish_results {i n : Nat} {o : World.HandlerOutcome} (h : w.finish n i o = some w')
    {origin : Origin} {r : HandlerResult} (hr : w'.results origin = some r) :
    w.results origin = some r ∨ ∃ job, w.busy[i]? = some (.handling job) ∧ job.origin = origin ∧
      o.result = some r := by
  unfold World.finish at h
  split at h
  case h_2 => cases h
  case h_1 job hi =>
    split at h
    case h_1 =>
      cases h
      exact .inl hr
    case h_2 a ha =>
      have hresults : w'.results = update w.results job.origin (some a) := by
        simp only at h
        split at h <;> cases h <;> rfl
      rw [hresults] at hr
      by_cases heq : origin = job.origin
      · subst heq
        rw [update_self] at hr
        cases hr
        exact .inr ⟨job, hi, rfl, ha⟩
      · rw [update_of_ne heq] at hr
        exact .inl hr

/-- Results are made by the ends of handler calls and by nothing else. -/
theorem step_results {a : Act} (hstep : step cfg s a = some s') {origin : Origin}
    {r : HandlerResult} (hr : s'.world.results origin = some r) :
    s.world.results origin = some r ∨ ∃ i o job, a = .finish i o ∧
      s.world.busy[i]? = some (.handling job) ∧ job.origin = origin ∧ o.result = some r := by
  unfold step at hstep
  split at hstep
  case h_1 | h_2 | h_8 =>
    cases hstep
    exact .inl hr
  case h_3 fd bs =>
    obtain ⟨w, hw, rfl⟩ := Option.map_eq_some_iff.mp hstep
    obtain ⟨c, -, rfl⟩ := World.arrive_eq hw
    exact .inl hr
  case h_4 fd =>
    obtain ⟨w, hw, rfl⟩ := Option.map_eq_some_iff.mp hstep
    obtain ⟨c, -, rfl⟩ := World.hangup_eq hw
    exact .inl hr
  case h_5 =>
    obtain ⟨w, hw, rfl⟩ := Option.map_eq_some_iff.mp hstep
    unfold World.start at hw
    split at hw
    · split at hw <;> cases hw
      exact .inl hr
    · cases hw
  case h_6 i o =>
    obtain ⟨w, hw, rfl⟩ := Option.map_eq_some_iff.mp hstep
    exact (finish_results hw hr).imp_right fun hjob => ⟨i, o, hjob.imp fun _ h => ⟨rfl, h⟩⟩
  case h_7 i =>
    obtain ⟨w, hw, rfl⟩ := Option.map_eq_some_iff.mp hstep
    unfold World.closeRejected at hw
    split at hw <;> cases hw
    exact .inl hr
  case h_9 => exact .inl (results_loopStep hstep ▸ hr)

/-- `r` is what the worker makes of a call of `handle_request` for this request. -/
def Serves (request : List UInt8) (r : HandlerResult) : Prop :=
  ∃ alloc, ∃ site : HttpContext.Site, ∃ o,
    outcome ((HttpContext.handleRequest alloc site.fs site.cache request).map Prod.snd) = some o ∧
      o.result = some r

/-- Every result is a response to its request. -/
def Handled (w : World) : Prop :=
  ∀ o r, w.results o = some r →
    ∃ request, (w.requests o.conn)[o.index]? = some request ∧ Serves request r

theorem ServesHttp.serves {s : State} {i : Nat} {o : World.HandlerOutcome} {job : Job}
    (h : ServesHttp s (.finish i o)) (hi : s.world.busy[i]? = some (.handling job))
    {r : HandlerResult} (hr : o.result = some r) : Serves job.request r := by
  obtain ⟨alloc, site, hanswer⟩ := h
  simp only [AnswersFrom, hi] at hanswer
  exact ⟨alloc, site, o, hanswer, hr⟩

theorem run_handled {as : List Act} {s : State} (hrun : exec (step cfg) (.init cfg) as = some s)
    (hserves : Meets (step cfg) ServesHttp (.init cfg) as) : Handled s.world := by
  have hinv : Wf s ∧ Recorded s.view ∧ Handled s.world := by
    refine exec_invariant_of_meets (I := fun s => Wf s ∧ Recorded s.view ∧ Handled s.world)
      (fun s a s' h hserves hstep => ?_)
      ⟨init_wf cfg, .init, by simp [Handled, State.init, World.init]⟩ hserves hrun
    obtain ⟨hwf, hrec, hhandled⟩ := h
    obtain ⟨hwf', hmoves⟩ := step_moves (A := {}) hwf hstep (by constructor <;> simp)
    refine ⟨hwf', hmoves.invariant (fun _ _ h hmove => h.move hmove) hrec, fun o r hr => ?_⟩
    have hold : ∃ request, (s.world.requests o.conn)[o.index]? = some request ∧
        Serves request r := by
      rcases step_results hstep hr with hold | ⟨i, out, job, rfl, hi, rfl, hmade⟩
      · exact hhandled o r hold
      · exact ⟨job.request, (hrec.job job (.inr (List.mem_of_getElem? hi))).1,
          hserves.serves hi hmade⟩
    obtain ⟨request, hrequest, hserved⟩ := hold
    have hpre := hmoves.requests_prefix o.conn
    obtain ⟨hi, hget⟩ := List.getElem?_eq_some_iff.mp hrequest
    exact ⟨request, hget ▸ List.prefix_iff_getElem?.mp hpre _ hi, hserved⟩
  exact hinv.2.2

/-! ## From the requests to the responses -/

/-- Where only the last request may lack a result, the answers are those to the first `m`. -/
theorem exists_answered (h : ∀ i, i + 1 < n → w.results ⟨k, i⟩ ≠ none) :
    ∃ m, n ≤ m + 1 ∧ (∀ i, i < m → w.results ⟨k, i⟩ ≠ none) ∧
      w.answers k m = w.answers k n ∧ w.answers k (m - 1) <+: w.answers k (n - 1) := by
  cases n with
  | zero => exact ⟨0, by simp⟩
  | succ n =>
    have hbefore (i : Nat) (hi : i < n) := h i (Nat.succ_lt_succ hi)
    cases hlast : w.results ⟨k, n⟩ with
    | none =>
      refine ⟨n, Nat.le_refl _, hbefore, ?_, ?_⟩
      · rw [World.answers_succ, World.answer_of_none hlast, List.append_nil]
      · cases n with
        | zero => exact List.prefix_refl _
        | succ n =>
          simp only [Nat.add_sub_cancel, World.answers_succ]
          exact List.prefix_append _ _
    | some r =>
      refine ⟨n + 1, by omega, fun i hi => ?_, rfl, List.prefix_refl _⟩
      rcases Nat.lt_succ_iff_lt_or_eq.mp hi with hi | rfl
      · exact hbefore i hi
      · simp [hlast]

theorem Assume.holds_of_drainedClean {a : Act} (hdrained : ClosesDrained cfg s a)
    (hclean : ReadsClean s a) :
    Assume.Holds { noEarlyClose := true, clean := true } cfg s a where
  fresh := by simp
  noReject := by simp
  noDie := by simp
  noEarlyClose _ := hdrained
  clean _ := hclean
  polled := by simp

/-- **Each request gets its response, in order.** The handler is `handle_request`, no connection is
closed between a dispatch and the draining of its handback, and a read ends at the end of a
request. If the bytes of a connection are those of well-formed requests and a request with a body
asks for the connection to be closed, then `handle_request` was called for the heads of the first
of these requests, once for each, and what the client gets is its responses one after the other,
where at most the last one is cut. -/
theorem server_end_to_end {as : List Act}
    (hrun : exec (step cfg) (.init cfg) as = some s)
    (hdrained : Meets (step cfg) (ClosesDrained cfg) (.init cfg) as)
    (hclean : Meets (step cfg) ReadsClean (.init cfg) as)
    (hserves : Meets (step cfg) ServesHttp (.init cfg) as) {reqs : List Http.Request}
    (hbytes : s.world.received k <+: (reqs.map Http.Request.text).flatten)
    (hclose : ∀ r ∈ reqs, r.body ≠ [] →
      (HttpContext.parseRequest r.head.text).wantsKeepAlive = false) :
    ∃ (m : Nat) (result : Nat → HandlerResult), (s.world.requests k).length ≤ m + 1 ∧
      (∀ i, i < m → ∃ r, reqs[i]? = some r ∧ Serves r.head.text (result i)) ∧
      ((List.range (m - 1)).map fun i => (result i).response).flatten <+: s.world.written k ∧
      s.world.written k <+: ((List.range m).map fun i => (result i).response).flatten := by
  have hmeets : Meets (step cfg) (Assume.Holds { noEarlyClose := true, clean := true } cfg)
      (.init cfg) as :=
    (hdrained.and hclean).mono fun _ _ h => Assume.holds_of_drainedClean h.1 h.2
  have hinv : Steady s.view ∧ Ordered s.view ∧ Framed s.view :=
    run_invariant (I := fun v => Steady v ∧ Ordered v ∧ Framed v)
      ⟨.init, .init, by simp [Framed, World.init]⟩
      (fun _ _ h hmove =>
        ⟨h.1.move rfl hmove, h.2.1.move rfl h.1 hmove, h.2.2.move rfl hmove⟩) hrun hmeets
  obtain ⟨hs, hord, hframed⟩ := hinv
  obtain ⟨hkept, hwhole, hwithin⟩ := hord.inOrder k
  have hwants (i : Nat) (piece : List UInt8) (hi : i + 1 < (s.world.requests k).length)
      (hget : (s.world.requests k)[i]? = some piece) :
      (HttpContext.parseRequest piece).wantsKeepAlive = true := by
    obtain ⟨request, hrequest, hwants⟩ := run_asked hrun hserves ⟨k, i⟩ (hkept i hi)
    cases hget.symm.trans hrequest
    exact hwants
  have hbody (r : Http.Request) (hr : r ∈ reqs)
      (hwants : (HttpContext.parseRequest r.head.text).wantsKeepAlive = true) : r.body = [] := by
    by_contra hne
    rw [hclose r hr hne] at hwants
    cases hwants
  -- the pieces the reactor cuts are the heads of the requests
  have hheads : s.world.requests k <+: reqs.map fun r => r.head.text :=
    pieces_prefix_heads (hframed k) ((hs.conserved.dispatched k).trans hbytes) hwants hbody
  have hsome (i : Nat) (hi : i + 1 < (s.world.requests k).length) :
      s.world.results ⟨k, i⟩ ≠ none := by
    obtain ⟨r, hr, -⟩ := hkept i hi
    exact Option.ne_none_iff_exists'.mpr ⟨r, hr⟩
  obtain ⟨m, hm, hresults, hanswers, hbefore⟩ := exists_answered hsome
  have hresponses (l : Nat) : ((List.range l).map fun i =>
      ((s.world.results ⟨k, i⟩).getD ⟨[], false⟩).response).flatten = s.world.answers k l := by
    unfold World.answers World.answer
    congr 2
    funext i
    cases s.world.results ⟨k, i⟩ <;> rfl
  refine ⟨m, fun i => (s.world.results ⟨k, i⟩).getD ⟨[], false⟩, hm, fun i hi => ?_, ?_, ?_⟩
  · obtain ⟨result, hresult⟩ := Option.ne_none_iff_exists'.mp (hresults i hi)
    obtain ⟨request, hrequest, hserved⟩ := run_handled hrun hserves _ _ hresult
    obtain ⟨hlt, hget⟩ := List.getElem?_eq_some_iff.mp hrequest
    have hhead := List.prefix_iff_getElem?.mp hheads i hlt
    rw [hget, List.getElem?_map] at hhead
    obtain ⟨r, hr, rfl⟩ := Option.map_eq_some_iff.mp hhead
    exact ⟨r, hr, by simpa [hresult] using hserved⟩
  · rw [hresponses]
    exact hbefore.trans hwhole
  · rw [hresponses, hanswers]
    exact hwithin

/-- A `POST` whose body looks like a request: the client gets one response. -/
theorem server_end_to_end_upload :
    ∃ s ∈ exec (step .sample) (.init .sample) (uploadRun false),
      s.world.written 0 = HttpContext.notAllowed false none ∧
        ∃ (m : Nat) (result : Nat → HandlerResult),
          (∀ i, i < m → ∃ r, [upload false][i]? = some r ∧ Serves r.head.text (result i)) ∧
          s.world.written 0 <+: ((List.range m).map fun i => (result i).response).flatten := by
  have hends : ∃ s ∈ exec (step .sample) (.init .sample) (uploadRun false),
      s.world.received 0 = (upload false).text ∧
        s.world.written 0 = HttpContext.notAllowed false none := by
    decide +kernel
  obtain ⟨s, hrun, hreceived, hwritten⟩ := hends
  have hanswers : Meets (step .sample) (AnswersFrom .above (.start (.single none))) (.init .sample)
      (uploadRun false) := by decide +kernel
  have hbytes : s.world.received 0 <+: ([upload false].map Http.Request.text).flatten := by
    simp [hreceived]
  obtain ⟨m, result, -, hserved, -, hwithin⟩ := server_end_to_end hrun (by decide +kernel)
    (by decide +kernel) (hanswers.mono fun _ _ h => ⟨_, _, h⟩) hbytes (by decide +kernel)
  exact ⟨s, hrun, hwritten, m, result, hserved, hwithin⟩

end Muses.Reactor
