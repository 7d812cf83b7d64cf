import Muses.Http.Handler

/-!
# What the file cache may serve

The cache is never told of a change of the files, so a response may be stale. It is never anything
else: its content is what the file had when some request of the run asked for that very path.
-/

namespace Muses.HttpContext

open Muses.Core

/-- All that the cache holds was read by one of the requests behind `past`. -/
def Genuine (cache : FileCache) (past : List (Bytes × Option Bytes)) : Prop :=
  ∃ r, LruCache.Refines fileCacheEntries cache r ∧ ∀ e ∈ r.pairs, (e.1, some e.2) ∈ past

/-- How a request for the file at `path` may end after those behind `past`: with a content that one
of them has found or that it finds itself, or as the reading of the file does if that fails. -/
def Dated (fs : FileSystem) (past : List (Bytes × Option Bytes)) (path : Bytes)
    (keepAlive : Bool) : Outcome → Prop
  | .error e => fs.readFile path = .error e
  | .ok r => (fs.readFile path = .ok none ∧ r = ⟨errorResponse, false⟩) ∨
      ∃ content, (path, some content) ∈ past ++ [(path, fs.content path)] ∧
        r = ⟨okResponse path content keepAlive, keepAlive⟩

variable {s : Site} {past : List (Bytes × Option Bytes)}

theorem Genuine.file (A : NodeAllocator) (h : Genuine s.cache past) {text path : Bytes}
    {keepAlive : Bool} (hwant : want s.fs text = .ok (.file path keepAlive)) :
    ∃ s' o, call A s (.request text) = some (s', some o) ∧
      o = (handleRequest A s.fs s.cache text).map Prod.snd ∧ s'.fs = s.fs ∧
      Genuine s'.cache (past ++ [(path, s.fs.content path)]) ∧
      Dated s.fs past path keepAlive o := by
  obtain ⟨r, hr, hpast⟩ := h
  have hold (e : Bytes × Bytes) (he : e ∈ r.pairs) :
      (e.1, some e.2) ∈ past ++ [(path, s.fs.content path)] := List.mem_append_left _ (hpast e he)
  simp only [call, handleRequest, handleWith, hwant]
  have hsent := sendResponse_sent A s.fs hr path keepAlive
  generalize sendResponse A s.fs s.cache path keepAlive = o at hsent
  cases hsent with
  | @hit cache r' content hfind hr' hpairs =>
    have hmem := hold _ ((Recency.mem_pairs_iff r path content).mpr hfind)
    exact ⟨{ s with cache }, _, rfl, rfl, rfl, ⟨r', hr', fun e he => hold e (hpairs e he)⟩,
      .inr ⟨content, hmem, rfl⟩⟩
  | fails _ hread => exact ⟨s, _, rfl, rfl, rfl, ⟨r, hr, hold⟩, hread⟩
  | @missing cache _ hread hr' =>
    exact ⟨{ s with cache }, _, rfl, rfl, rfl, ⟨r, hr', hold⟩, .inl ⟨hread, rfl⟩⟩
  | @stored cache r' content _ hread hr' hpairs =>
    have hnow : (path, some content) ∈ past ++ [(path, s.fs.content path)] := by
      simp [FileSystem.content_eq_some_iff.mpr hread]
    refine ⟨{ s with cache }, _, rfl, rfl, rfl, ⟨r', hr', fun e he => ?_⟩,
      .inr ⟨content, hnow, rfl⟩⟩
    rcases hpairs e he with rfl | he
    · exact hnow
    · exact hold e he

theorem Genuine.request (A : NodeAllocator) (h : Genuine s.cache past) (text : Bytes) :
    ∃ s' o, call A s (.request text) = some (s', o) ∧ s'.fs = s.fs ∧
      Genuine s'.cache (past ++ reads s.fs [.request text]) := by
  simp only [reads]
  cases hwant : want s.fs text with
  | error e =>
    exact ⟨s, some (.error e), by simp [call, handleRequest, handleWith, hwant], rfl,
      by simpa using h⟩
  | ok wanted =>
    cases wanted with
    | answer r =>
      exact ⟨s, some (.ok r), by simp [call, handleRequest, handleWith, hwant], rfl,
        by simpa using h⟩
    | file path keepAlive =>
      obtain ⟨s', o, hcall, -, hfs, hgenuine, -⟩ := h.file A hwant
      exact ⟨s', some o, hcall, hfs, hgenuine⟩

theorem reads_cons (fs : FileSystem) (text : Bytes) (acts : List Act) :
    reads fs (.request text :: acts) = reads fs [.request text] ++ reads fs acts := by
  simp only [reads]
  split <;> rfl

theorem Genuine.session (A : NodeAllocator) (h : Genuine s.cache past) (acts : List Act) :
    ∃ s' outcomes, Core.session (call A) s acts = some (s', outcomes) ∧
      Genuine s'.cache (past ++ reads s.fs acts) := by
  induction acts generalizing s past with
  | nil => exact ⟨s, [], rfl, by simpa [reads] using h⟩
  | cons act acts ih =>
    cases act with
    | change fs =>
      obtain ⟨s', outcomes, hs, hgenuine⟩ := ih (s := { s with fs }) h
      exact ⟨s', none :: outcomes, by simp [Core.session, call, hs], hgenuine⟩
    | request text =>
      obtain ⟨m, o, hcall, hfs, hm⟩ := h.request A text
      obtain ⟨s', outcomes, hs, hgenuine⟩ := ih hm
      rw [hfs, List.append_assoc, ← reads_cons] at hgenuine
      exact ⟨s', o :: outcomes, by simp [Core.session, hcall, hs], hgenuine⟩

/-- **Stale, and nothing worse.** Whatever requests and changes of the files came before: a request
for a file ends with the content that the file had when this or an earlier request of the run asked
for it. It ends with an error only if the file cannot be opened now, and with an exception only if
the reading of the file does. -/
theorem served_content_was_there (A : NodeAllocator) (fs : FileSystem) (acts : List Act) :
    ∃ s outcomes, session (call A) (.start fs) acts = some (s, outcomes) ∧
      ∀ text path keepAlive, want s.fs text = .ok (.file path keepAlive) →
        Dated s.fs (reads fs acts) path keepAlive
          ((handleRequest A s.fs s.cache text).map Prod.snd) := by
  have hstart : Genuine (Site.start fs).cache [] := ⟨.empty, .make _, by simp [Recency.empty]⟩
  obtain ⟨s, outcomes, hs, hgenuine⟩ := hstart.session A acts
  refine ⟨s, outcomes, hs, fun text path keepAlive hwant => ?_⟩
  obtain ⟨s', o, -, rfl, -, -, hdated⟩ := hgenuine.file A hwant
  exact hdated

end Muses.HttpContext
