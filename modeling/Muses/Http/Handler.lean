import Muses.Http.Info
import Muses.LruCache

/-!
# `HttpContext::handle_request` — the handler for static files

The second half of `muses/net_components/http_handler.hpp`: a request text goes in, a response and
the keep-alive decision come out. Files are read through a process-wide cache. The file system is a
parameter: what its calls return at the moment of the request.
-/

namespace Muses

open Muses.Core Text

namespace HttpContext

/-! ## The file system -/

abbrev Path := List Bytes

def Path.string : Path → Bytes
  | [] => []
  | root :: names => root ++ [47].intercalate names

structure FileSystem where
  /-- `fs::canonical("./statics", ec)`, unless it sets `ec` -/
  canonicalStatics : Option Path
  /-- `fs::weakly_canonical(root / tail, ec)`, unless it sets `ec` -/
  weaklyCanonical : Path → Bytes → Option Path
  /-- `fs::exists` -/
  present : Path → Bool
  /-- `std::ifstream(file_path, binary | ate)`: what `tellg` says, and the bytes that `read` finds,
  if the file can be opened. That goes for directories too, and there `tellg` says `2 ^ 63 - 1` -/
  openAtEnd : Bytes → Option (Int × Bytes)
  /-- there is memory for a string of this size -/
  memoryFor : Nat → Bool

/-- How a call ends that does not return: with the exception of `substr`, with the
`std::length_error` or `std::bad_alloc` of a string for a file, or with an access that has no
meaning in C++. -/
inductive Abort where
  | outOfRange
  | noMemory
  | undefined
  deriving DecidableEq

/-- `read_file`: the content, if the file exists. The string has the size that `tellg` said, zero
bytes where nothing could be read. -/
def FileSystem.readFile (fs : FileSystem) (filePath : Bytes) : Except Abort (Option Bytes) :=
  match fs.openAtEnd filePath with
  | none => .ok none
  | some (size, data) =>
      if size ≤ 0 then .ok (some [])
      else if fs.memoryFor size.toNat then
        .ok (some (data.take size.toNat ++ List.replicate (size.toNat - data.length) 0))
      else .error .noMemory

/-- What a request for the file finds on the disk, if it can be read. -/
def FileSystem.content (fs : FileSystem) (filePath : Bytes) : Option Bytes :=
  (fs.readFile filePath).toOption.join

/-! ## Responses -/

structure HttpResponse where
  response : Bytes
  keepAlive : Bool
  deriving DecidableEq

def contentTypes : List (Bytes × Bytes) :=
  [(ascii ".html", ascii "text/html; charset=utf-8"),
    (ascii ".htm", ascii "text/html; charset=utf-8"),
    (ascii ".css", ascii "text/css; charset=utf-8"),
    (ascii ".js", ascii "application/javascript; charset=utf-8"),
    (ascii ".jpg", ascii "image/jpeg"),
    (ascii ".jpeg", ascii "image/jpeg"),
    (ascii ".png", ascii "image/png"),
    (ascii ".gif", ascii "image/gif"),
    (ascii ".svg", ascii "image/svg+xml"),
    (ascii ".json", ascii "application/json"),
    (ascii ".txt", ascii "text/plain; charset=utf-8")]

def suffix (filePath : Bytes) : Option Bytes :=
  if 46 ∈ filePath then some (46 :: (filePath.reverse.takeWhile (· ≠ 46)).reverse) else none

def getContentType (filePath : Bytes) : Bytes :=
  ((suffix filePath).bind fun ext => List.lookup ext contentTypes).getD
    (ascii "application/octet-stream")

/-- The page for an error, with a default text where its file does not exist. -/
def errorPage (status : Nat) (statusText text : Bytes) (keepAlive : Bool)
    (content : Option Bytes) : Bytes :=
  buildResponse status statusText (ascii "text/html; charset=utf-8") (content.getD text) keepAlive

def page404 : Bytes := ascii "./statics/404.html"

def send404 (fs : FileSystem) (keepAlive : Bool) : Except Abort Bytes :=
  (fs.readFile page404).map (errorPage 404 (ascii "Not Found") (ascii "404 Not Found") keepAlive)

def page405 : Bytes := ascii "./statics/405.html"

def notAllowed : Bool → Option Bytes → Bytes :=
  errorPage 405 (ascii "Method Not Allowed") (ascii "405 Method Not Allowed")

def send405 (fs : FileSystem) (keepAlive : Bool) : Except Abort Bytes :=
  (fs.readFile page405).map (notAllowed keepAlive)

def okResponse (filePath content : Bytes) (keepAlive : Bool) : Bytes :=
  buildResponse 200 (ascii "OK") (getContentType filePath) content keepAlive

def errorResponse : Bytes :=
  buildResponse 500 (ascii "Internal Server Error") (ascii "text/plain") (ascii "500 Error") false

/-! ## Paths -/

inductive ResolveError where
  | noStaticsRoot
  | invalidPath
  | traversalBlocked
  | notFound
  deriving DecidableEq

/-- `std::mismatch(root.begin(), root.end(), target.begin())`: does it get to the end of the root?
It compares as many components of the target as the root has, whether the target has them or not;
`none` is a step behind the end of the target. -/
def mismatch : Path → Path → Option Bool
  | [], _ => some true
  | _ :: _, [] => none
  | r :: root, t :: target => if r = t then mismatch root target else some false

def resolveSafePath (fs : FileSystem) (url : Bytes) : Except Abort (Except ResolveError Bytes) :=
  match fs.canonicalStatics with
  | none => .ok (.error .noStaticsRoot)
  | some root =>
      let rel := if url = ascii "/" then ascii "/index.html" else url
      if rel = [] then .error .outOfRange
      else
        match fs.weaklyCanonical root (rel.drop 1) with
        | none => .ok (.error .invalidPath)
        | some target =>
            match mismatch root target with
            | none => .error .undefined
            | some false => .ok (.error .traversalBlocked)
            | some true =>
                if fs.present target then .ok (.ok target.string) else .ok (.error .notFound)

/-! ## The handler -/

abbrev FileCache := LruCache Bytes Bytes

def fileCacheEntries : Nat := 256

def sendResponse (A : NodeAllocator) (fs : FileSystem) (cache : FileCache) (filePath : Bytes)
    (keepAlive : Bool) : Except Abort (FileCache × Bytes × Bool) :=
  match cache.get filePath with
  | none => .error .undefined
  | some (cache, some cached) => .ok (cache, okResponse filePath cached keepAlive, true)
  | some (cache, none) =>
      match fs.readFile filePath with
      | .error e => .error e
      | .ok none => .ok (cache, errorResponse, false)
      | .ok (some content) =>
          match cache.putLocked A filePath content with
          | none => .error .undefined
          | some cache => .ok (cache, okResponse filePath content keepAlive, true)

def sendFromDisk (fs : FileSystem) (_ : Unit) (filePath : Bytes) (keepAlive : Bool) :
    Except Abort (Unit × Bytes × Bool) :=
  match fs.readFile filePath with
  | .error e => .error e
  | .ok none => .ok ((), errorResponse, false)
  | .ok (some content) => .ok ((), okResponse filePath content keepAlive, true)

def badRequest : Bytes :=
  buildResponse 400 (ascii "Bad Request") (ascii "text/plain") (ascii "400 Bad Request") false

/-- What a request asks for: a response that does not depend on a file below the root, or such a
file and the keep-alive decision. -/
inductive Wanted where
  | answer (r : HttpResponse)
  | file (path : Bytes) (keepAlive : Bool)
  deriving DecidableEq

def want (fs : FileSystem) (request : Bytes) : Except Abort Wanted :=
  let info := parseRequest request
  let keepAlive := info.wantsKeepAlive
  if info.method = [] then .ok (.answer ⟨badRequest, false⟩)
  else if info.method ≠ ascii "GET" then
    (send405 fs keepAlive).map fun response => .answer ⟨response, keepAlive⟩
  else
    match resolveSafePath fs info.url with
    | .error e => .error e
    | .ok (.error _) => (send404 fs keepAlive).map fun response => .answer ⟨response, keepAlive⟩
    | .ok (.ok path) => .ok (.file path keepAlive)

def handleWith {σ : Type} (send : σ → Bytes → Bool → Except Abort (σ × Bytes × Bool))
    (fs : FileSystem) (s : σ) (request : Bytes) : Except Abort (σ × HttpResponse) :=
  match want fs request with
  | .error e => .error e
  | .ok (.answer r) => .ok (s, r)
  | .ok (.file path keepAlive) =>
      match send s path keepAlive with
      | .error e => .error e
      | .ok (s, response, ok) => .ok (s, ⟨response, if ok then keepAlive else false⟩)

def handleRequest (A : NodeAllocator) (fs : FileSystem) (cache : FileCache) (request : Bytes) :
    Except Abort (FileCache × HttpResponse) :=
  handleWith (sendResponse A fs) fs cache request

def fromDisk (fs : FileSystem) (request : Bytes) : Except Abort HttpResponse :=
  (handleWith (sendFromDisk fs) fs () request).map Prod.snd

/-! ## Keep-alive -/

def Wanted.keepAlive : Wanted → Bool
  | .answer r => r.keepAlive
  | .file _ keepAlive => keepAlive

variable {fs : FileSystem} {request path : Bytes} {keepAlive : Bool}

/-- **What a request can ask for**: the answer to an empty method, the page for an error, or a
file. -/
theorem want_cases {wanted : Wanted} (h : want fs request = .ok wanted) :
    wanted = .answer ⟨badRequest, false⟩ ∨
      (∃ response, wanted = .answer ⟨response, (parseRequest request).wantsKeepAlive⟩ ∧
        (send404 fs (parseRequest request).wantsKeepAlive = .ok response ∨
          send405 fs (parseRequest request).wantsKeepAlive = .ok response)) ∨
      ∃ path, wanted = .file path (parseRequest request).wantsKeepAlive := by
  simp only [want] at h
  split at h
  · cases h
    exact .inl rfl
  · split at h
    · cases hsend : send405 fs (parseRequest request).wantsKeepAlive with
      | error e =>
        rw [hsend] at h
        cases h
      | ok response =>
        rw [hsend] at h
        cases h
        exact .inr (.inl ⟨response, rfl, .inr rfl⟩)
    · split at h
      · cases h
      · cases hsend : send404 fs (parseRequest request).wantsKeepAlive with
        | error e =>
          rw [hsend] at h
          cases h
        | ok response =>
          rw [hsend] at h
          cases h
          exact .inr (.inl ⟨response, rfl, .inl rfl⟩)
      · cases h
        exact .inr (.inr ⟨_, rfl⟩)

theorem wantsKeepAlive_of_want {wanted : Wanted} (h : want fs request = .ok wanted)
    (hkeep : wanted.keepAlive = true) : (parseRequest request).wantsKeepAlive = true := by
  rcases want_cases h with rfl | ⟨response, rfl, -⟩ | ⟨path, rfl⟩
  · cases hkeep
  · exact hkeep
  · exact hkeep

theorem wantsKeepAlive_of_handleWith {σ : Type} {s s' : σ}
    {send : σ → Bytes → Bool → Except Abort (σ × Bytes × Bool)} {r : HttpResponse}
    (h : handleWith send fs s request = .ok (s', r)) (hkeep : r.keepAlive = true) :
    (parseRequest request).wantsKeepAlive = true := by
  unfold handleWith at h
  split at h
  · cases h
  case h_2 hwant =>
    cases h
    exact wantsKeepAlive_of_want hwant hkeep
  case h_3 path keepAlive hwant =>
    refine wantsKeepAlive_of_want hwant ?_
    split at h
    · cases h
    · cases h
      simp only at hkeep
      split at hkeep
      · exact hkeep
      · cases hkeep

/-! ## Files and the cache -/

theorem FileSystem.content_eq_some_iff {content : Bytes} :
    fs.content path = some content ↔ fs.readFile path = .ok (some content) := by
  unfold FileSystem.content
  cases fs.readFile path with
  | error e => simp [Except.toOption]
  | ok content => simp [Except.toOption]

/-- How `send_response` ends, from a cache that holds the pairs of `r`. -/
inductive Sent (fs : FileSystem) (r : Recency Bytes Bytes) (path : Bytes) (keepAlive : Bool) :
    Except Abort (FileCache × Bytes × Bool) → Prop where
  | hit {cache : FileCache} {r' : Recency Bytes Bytes} {content : Bytes}
      (hfind : r.find path = some content) (h : LruCache.Refines fileCacheEntries cache r')
      (hpairs : ∀ e ∈ r'.pairs, e ∈ r.pairs) :
      Sent fs r path keepAlive (.ok (cache, okResponse path content keepAlive, true))
  | fails {e : Abort} (hfind : r.find path = none) (hread : fs.readFile path = .error e) :
      Sent fs r path keepAlive (.error e)
  | missing {cache : FileCache} (hfind : r.find path = none) (hread : fs.readFile path = .ok none)
      (h : LruCache.Refines fileCacheEntries cache r) :
      Sent fs r path keepAlive (.ok (cache, errorResponse, false))
  | stored {cache : FileCache} {r' : Recency Bytes Bytes} {content : Bytes}
      (hfind : r.find path = none) (hread : fs.readFile path = .ok (some content))
      (h : LruCache.Refines fileCacheEntries cache r')
      (hpairs : ∀ e ∈ r'.pairs, e = (path, content) ∨ e ∈ r.pairs) :
      Sent fs r path keepAlive (.ok (cache, okResponse path content keepAlive, true))

theorem sendResponse_sent (A : NodeAllocator) (fs : FileSystem) {cache : FileCache}
    {r : Recency Bytes Bytes} (h : LruCache.Refines fileCacheEntries cache r) (path : Bytes)
    (keepAlive : Bool) : Sent fs r path keepAlive (sendResponse A fs cache path keepAlive) := by
  obtain ⟨cache', hget, h'⟩ := h.get path
  unfold sendResponse
  rw [hget]
  cases hfind : r.find path with
  | some content => exact .hit hfind h' fun e => Recency.mem_use
  | none =>
    rw [Recency.use_of_none hfind] at h'
    cases hread : fs.readFile path with
    | error e => exact .fails hfind hread
    | ok found =>
      cases found with
      | none => exact .missing hfind hread h'
      | some content =>
        obtain ⟨cache'', hput, h''⟩ := h'.put A path content
        rw [if_neg (by decide)] at h''
        simp only [hput]
        exact .stored hfind hread h'' fun e => Recency.mem_put

/-! ## Runs -/

structure Site where
  fs : FileSystem
  cache : FileCache

def Site.start (fs : FileSystem) : Site := ⟨fs, .make fileCacheEntries⟩

inductive Act where
  | request (text : Bytes)
  | change (fs : FileSystem)

abbrev Outcome := Except Abort HttpResponse

def call (A : NodeAllocator) (s : Site) : Act → Option (Site × Option Outcome)
  | .request text =>
      match handleRequest A s.fs s.cache text with
      | .error e => some (s, some (.error e))
      | .ok (cache, r) => some ({ s with cache }, some (.ok r))
  | .change fs => some ({ s with fs }, none)

def callFromDisk (fs : FileSystem) : Act → Option (FileSystem × Option Outcome)
  | .request text => some (fs, some (fromDisk fs text))
  | .change fs => some (fs, none)

def reads : FileSystem → List Act → List (Bytes × Option Bytes)
  | _, [] => []
  | _, .change fs :: acts => reads fs acts
  | fs, .request text :: acts =>
      match want fs text with
      | .ok (.file path _) => (path, fs.content path) :: reads fs acts
      | _ => reads fs acts

/-- **A file that could be read is found unchanged** by every later request that wants it. It may be
missing in between, and others may come, go and change as long as nobody has asked for them. -/
def Unchanged (fs : FileSystem) (acts : List Act) : Prop :=
  (reads fs acts).Pairwise fun a b => a.1 = b.1 → a.2 ≠ none → b.2 = a.2

instance (fs : FileSystem) (acts : List Act) : Decidable (Unchanged fs acts) :=
  inferInstanceAs (Decidable (List.Pairwise _ _))

/-- What is cached agrees with what is going to be read. -/
def Fresh (r : Recency Bytes Bytes) (reads : List (Bytes × Option Bytes)) : Prop :=
  ∀ e ∈ r.pairs, ∀ d ∈ reads, e.1 = d.1 → d.2 = some e.2

/-- The files stay as they are, and the cache agrees with them. -/
structure Settled (s : Site) (acts : List Act) : Prop where
  fresh : ∃ r, LruCache.Refines fileCacheEntries s.cache r ∧ Fresh r (reads s.fs acts)
  unchanged : Unchanged s.fs acts

/-- **A file is served as from the disk**: what the cache has for it is what the disk has, and later
requests will find the same. -/
theorem Settled.file (A : NodeAllocator) {s : Site} {acts : List Act} {r : Recency Bytes Bytes}
    (h : LruCache.Refines fileCacheEntries s.cache r)
    (hfresh : Fresh r ((path, s.fs.content path) :: reads s.fs acts))
    (hlater : ∀ d ∈ reads s.fs acts, path = d.1 → s.fs.content path ≠ none →
      d.2 = s.fs.content path) (hunchanged : Unchanged s.fs acts) (text : Bytes)
    (hwant : want s.fs text = .ok (.file path keepAlive)) :
    ∃ s' o, HttpContext.call A s (.request text) = some (s', o) ∧
      callFromDisk s.fs (.request text) = some (s'.fs, o) ∧ Settled s' acts := by
  have hrest : Fresh r (reads s.fs acts) := fun e he d hd =>
    hfresh e he d (List.mem_cons_of_mem _ hd)
  simp only [HttpContext.call, callFromDisk, fromDisk, handleRequest, handleWith, hwant]
  have hsent := sendResponse_sent A s.fs h path keepAlive
  generalize sendResponse A s.fs s.cache path keepAlive = o at hsent
  unfold sendFromDisk
  cases hsent with
  | @hit cache r' content hfind h' hpairs =>
    have hmem := (Recency.mem_pairs_iff r path content).mpr hfind
    have hdisk := FileSystem.content_eq_some_iff.mp (hfresh _ hmem _ List.mem_cons_self rfl)
    simp only [hdisk]
    exact ⟨{ s with cache }, _, rfl, rfl, ⟨r', h', fun e he => hrest e (hpairs e he)⟩, hunchanged⟩
  | fails _ hdisk =>
    simp only [hdisk]
    exact ⟨s, _, rfl, rfl, ⟨r, h, hrest⟩, hunchanged⟩
  | @missing cache _ hdisk h' =>
    simp only [hdisk]
    exact ⟨{ s with cache }, _, rfl, rfl, ⟨r, h', hrest⟩, hunchanged⟩
  | @stored cache r' content _ hdisk h' hpairs =>
    simp only [hdisk]
    refine ⟨{ s with cache }, _, rfl, rfl, ⟨r', h', fun e he d hd hkey => ?_⟩, hunchanged⟩
    rcases hpairs e he with rfl | he
    · have hcontent := FileSystem.content_eq_some_iff.mpr hdisk
      rw [hlater d hd hkey (by simp [hcontent]), hcontent]
    · exact hrest e he d hd hkey

theorem Settled.call (A : NodeAllocator) {s : Site} {act : Act} {acts : List Act}
    (h : Settled s (act :: acts)) :
    ∃ s' o, HttpContext.call A s act = some (s', o) ∧ callFromDisk s.fs act = some (s'.fs, o) ∧
      Settled s' acts := by
  obtain ⟨⟨r, hcache, hfresh⟩, hunchanged⟩ := h
  cases act with
  | change fs => exact ⟨{ s with fs }, none, rfl, rfl, ⟨r, hcache, hfresh⟩, hunchanged⟩
  | request text =>
    simp only [Unchanged, reads] at hfresh hunchanged
    -- the requests that want no file do not touch the cache
    cases hwant : want s.fs text with
    | error e =>
      rw [hwant] at hfresh hunchanged
      simp only [HttpContext.call, callFromDisk, fromDisk, handleRequest, handleWith, hwant]
      exact ⟨s, _, rfl, rfl, ⟨r, hcache, hfresh⟩, hunchanged⟩
    | ok wanted =>
      cases wanted with
      | answer res =>
        rw [hwant] at hfresh hunchanged
        simp only [HttpContext.call, callFromDisk, fromDisk, handleRequest, handleWith, hwant]
        exact ⟨s, _, rfl, rfl, ⟨r, hcache, hfresh⟩, hunchanged⟩
      | file path keepAlive =>
        rw [hwant] at hfresh hunchanged
        obtain ⟨hlater, hunchanged⟩ := List.pairwise_cons.mp hunchanged
        exact Settled.file A hcache hfresh hlater hunchanged text hwant

theorem Settled.session (A : NodeAllocator) {s : Site} {acts : List Act} (h : Settled s acts) :
    ∃ s' outcomes, session (HttpContext.call A) s acts = some (s', outcomes) ∧
      Core.session callFromDisk s.fs acts = some (s'.fs, outcomes) := by
  induction acts generalizing s with
  | nil => exact ⟨s, [], rfl, rfl⟩
  | cons act acts ih =>
    obtain ⟨m, o, hcall, hdisk, hm⟩ := h.call A
    obtain ⟨s', outcomes, hs, hd⟩ := ih hm
    exact ⟨s', o :: outcomes, by simp [Core.session, hcall, hs], by simp [Core.session, hdisk, hd]⟩

/-- **The file cache is transparent.** From any file system and an empty cache, requests and changes
of the files in any order: if a file that could be read is found unchanged by the later requests
that want it, every request ends as if the file had been read from the disk at that moment. -/
theorem file_cache_transparent (A : NodeAllocator) (fs : FileSystem) (acts : List Act)
    (hunchanged : Unchanged fs acts) :
    ∃ s outcomes, session (call A) (.start fs) acts = some (s, outcomes) ∧
      session callFromDisk fs acts = some (s.fs, outcomes) :=
  Settled.session (s := .start fs) A ⟨⟨.empty, .make _, nofun⟩, hunchanged⟩

/-! ## A small site -/

def FileSystem.single (content : Option Bytes) : FileSystem where
  canonicalStatics := some [ascii "/", ascii "s"]
  weaklyCanonical root tail := some (root ++ [tail])
  present target := target = [ascii "/", ascii "s", ascii "a"] && content.isSome
  openAtEnd path :=
    if path = ascii "/s/a" then content.map fun bytes => (bytes.length, bytes) else none
  memoryFor size := size < 2 ^ 63 - 1

def getA : Act := .request (ascii "GET /a HTTP/1.1" ++ blankLine)

/-- The file is asked for, deleted, asked for in vain, put back and asked for again. -/
theorem file_cache_transparent_restored :
    ∃ s outcomes,
      session (call .above) (.start (.single (some [1, 2])))
        [getA, .change (.single none), getA, .change (.single (some [1, 2])), getA]
          = some (s, outcomes) ∧
      session callFromDisk (.single (some [1, 2]))
        [getA, .change (.single none), getA, .change (.single (some [1, 2])), getA]
          = some (s.fs, outcomes) :=
  file_cache_transparent .above _ _ (by decide +kernel)

/-- A file is asked for, modified, and asked for again: the second response has the old content. -/
theorem modified_file_served_stale :
    (session (call .above) (.start (.single (some [1])))
      [getA, .change (.single (some [2])), getA]).map Prod.snd ≠
    (session callFromDisk (.single (some [1]))
      [getA, .change (.single (some [2])), getA]).map Prod.snd := by
  decide +kernel

end HttpContext

end Muses
