import Muses.Net.Refinement
import Muses.Net.Discipline
import Muses.Net.Provenance

/-!
# Response isolation
-/

namespace Muses.Reactor

open Muses.Core

theorem Assume.holds_of_quiet {cfg : Config} {s : State} {a : Act} (h : AcceptsQuiet s a) :
    Assume.Holds { fresh := true } cfg s a where
  fresh _ := h
  noReject := by simp
  noDie := by simp
  noEarlyClose := by simp
  clean := by simp
  polled := by simp

/-- **Response isolation.** -/
theorem response_isolation {cfg : Config} {as : List Act} {s : State}
    (hrun : exec (step cfg) (.init cfg) as = some s)
    (hquiet : Meets (step cfg) AcceptsQuiet (.init cfg) as) {k : ConnId} {o : Origin}
    {bytes : List UInt8} (hsent : (o, bytes) ∈ (s.world.socks k).tx) :
    o.conn = k ∧ o.index < (s.world.requests k).length ∧
      ∃ r, s.world.results o = some r ∧ bytes <:+: r.response := by
  have hmeets : Meets (step cfg) (Assume.Holds { fresh := true } cfg) (.init cfg) as :=
    hquiet.mono fun _ _ => Assume.holds_of_quiet
  have hdisc : Disciplined s.view :=
    run_invariant .init (fun _ _ h hmove => h.move (.inl rfl) hmove) hrun hmeets
  have hrec : Recorded s.view := run_invariant .init (fun _ _ h hmove => h.move hmove) hrun hmeets
  have hconn : o.conn = k := hdisc.sent k _ hsent
  obtain ⟨r, hr, hinfix⟩ := hrec.sent k _ hsent
  refine ⟨hconn, ?_, r, hr, hinfix⟩
  rw [← hconn]
  exact hrec.result_lt o r hr

def oneAnswer : List Act :=
  acceptAt 5 ++ requestAt 5 ++
    [.start, .finish 0 (.returns ⟨[65], true⟩), .poll [],
      .drain { writes := [.wrote 1], reads := [.eagain] }]

theorem response_isolation_oneAnswer :
    ∃ s ∈ exec (step .sample) (.init .sample) oneAnswer,
      (⟨0, 0⟩, [65]) ∈ (s.world.socks 0).tx ∧ 0 < (s.world.requests 0).length ∧
        ∃ r, s.world.results ⟨0, 0⟩ = some r ∧ [65] <:+: r.response := by
  have hsent : ∃ s ∈ exec (step .sample) (.init .sample) oneAnswer,
      (⟨0, 0⟩, [65]) ∈ (s.world.socks 0).tx := by decide +kernel
  obtain ⟨s, hrun, hsent⟩ := hsent
  obtain ⟨-, hindex, hresult⟩ := response_isolation hrun (by decide +kernel) hsent
  exact ⟨s, hrun, hsent, hindex, hresult⟩

/-- The client of connection 0 goes away while a worker has its request. Connection 1 gets the
same descriptor number before the worker is done, and sends nothing. -/
def staleHandback : List Act :=
  acceptAt 5 ++ requestAt 5 ++
    [.start, .poll [⟨5, .Closed⟩], .event {}, .drained, .sweep] ++
    acceptAt 5 ++
    [.finish 0 (.returns ⟨[65], true⟩), .poll [],
      .drain { writes := [.wrote 1], reads := [.eagain] }]

/-- The answer to connection 0's request is written to connection 1, which has made none. -/
theorem staleHandback_reaches_stranger :
    ∃ s ∈ exec (step .sample) (.init .sample) staleHandback,
      (s.world.socks 1).tx = [(⟨0, 0⟩, [65])] ∧ s.world.requests 1 = [] := by
  decide +kernel

end Muses.Reactor
