import Muses.Http.Paths
import Muses.Proxy.Rewrite

/-!
# The responses of `handle_request`

Every response is made by `build_response`, from one of five statuses and from texts that have no
line end in them, and the flag that is returned with it is the one that was written into it.
-/

namespace Muses.HttpContext

open Muses.Core Text Search Http Proxy

/-! ## The head of a response -/

/-- No line end. -/
def Plain (text : Bytes) : Prop := ∀ b ∈ text, b ≠ 13 ∧ b ≠ 10

instance (text : Bytes) : Decidable (Plain text) := List.decidableBAll _ text

theorem Plain.blank {text : Bytes} (h : Plain text) : Plain (32 :: text) :=
  List.forall_mem_cons.mpr ⟨by decide, h⟩

theorem notMem_decimal {n : Nat} {b : UInt8} (hb : isDigit b = false) : b ∉ decimal n := by
  intro hmem
  rw [isDigit_of_mem_decimal hmem] at hb
  cases hb

theorem plain_decimal (n : Nat) : Plain (decimal n) := by
  intro b hb
  constructor
  · rintro rfl
    exact notMem_decimal rfl hb
  · rintro rfl
    exact notMem_decimal rfl hb

def answerField (name value : Bytes) (hne : name ≠ [])
    (hname : ∀ b ∈ name, b ≠ 13 ∧ b ≠ 10 ∧ b ≠ 58) (hvalue : Plain value) : Field :=
  ⟨name, 32 :: value, hne, hname, hvalue.blank⟩

def connectionValue (keepAlive : Bool) : Bytes :=
  if keepAlive then ascii "keep-alive" else ascii "close"

theorem plain_connectionValue (keepAlive : Bool) : Plain (connectionValue keepAlive) := by
  cases keepAlive <;> decide

theorem connection_ne_nil : ascii "Connection" ≠ [] := by decide

theorem connection_token : ∀ b ∈ ascii "Connection", b ≠ 13 ∧ b ≠ 10 ∧ b ≠ 58 := by decide +kernel

section Head

variable (status : Nat) {statusText contentType : Bytes} (hstatus : Plain statusText)
  (htype : Plain contentType) (n : Nat) (keepAlive : Bool)

def answerHead : Head where
  first := ascii "HTTP/1.1"
  second := decimal status
  third := statusText
  fields :=
    [answerField (ascii "Content-Type") contentType (by decide) (by decide +kernel) htype,
      answerField (ascii "Content-Length") (decimal n) (by decide) (by decide +kernel)
        (plain_decimal n),
      answerField (ascii "Connection") (connectionValue keepAlive) connection_ne_nil
        connection_token (plain_connectionValue keepAlive)]
  first_word := by decide +kernel
  second_word b hb := ⟨fun h => notMem_decimal rfl (h ▸ hb), plain_decimal status b hb⟩
  third_line := hstatus

theorem buildResponse_eq (body : Bytes) :
    buildResponse status statusText contentType body keepAlive =
      (answerHead status hstatus htype body.length keepAlive).text ++ body := by
  have hblank : ascii " " = [32] := by decide
  have hstart : ascii "HTTP/1.1 " = ascii "HTTP/1.1" ++ [32] := by decide
  have hctype : ascii "Content-Type: " = ascii "Content-Type" ++ [58, 32] := by decide
  have hlength : ascii "Content-Length: " = ascii "Content-Length" ++ [58, 32] := by decide
  have hconnection : ascii "Connection: " = ascii "Connection" ++ [58, 32] := by decide
  simp only [buildResponse, hblank, hstart, hctype, hlength, hconnection, Head.text, answerHead,
    Head.block, Field.line, answerField, connectionValue]
  simp

theorem find?_answerHead (name : Bytes) :
    (answerHead status hstatus htype n keepAlive).headers.find? name =
      if name = ascii "Connection" then some (connectionValue keepAlive)
      else if name = ascii "Content-Length" then some (decimal n)
      else if name = ascii "Content-Type" then some contentType else none := by
  have hentry (name value : Bytes) (hne : name ≠ [])
      (hname : ∀ b ∈ name, b ≠ 13 ∧ b ≠ 10 ∧ b ≠ 58) (hvalue : Plain value) :
      (answerField name value hne hname hvalue).entry = (name, value) :=
    Field.entry_of_splits (.inl rfl)
  simp only [Head.headers, answerHead, List.map_cons, List.map_nil, hentry, OrderedMap.assignAll,
    List.foldl_cons, List.foldl_nil, OrderedMap.find?_assign]
  rfl

theorem headerGet_transferEncoding :
    headerGet (answerHead status hstatus htype n keepAlive).headers transferEncoding = [] := by
  refine headerGet_of_lacks (by decide) ?_
  simp only [Head.Lacks, answerHead, List.forall_mem_cons, Field.Named, answerField]
  exact ⟨by decide, by decide, by decide, nofun⟩

theorem answerHead_sizes (hn : n < 2 ^ 64) :
    (answerHead status hstatus htype n keepAlive).Sizes n := by
  refine ⟨⟨answerField (ascii "Content-Length") (decimal n) (by decide) (by decide +kernel)
    (plain_decimal n), ⟨[answerField (ascii "Content-Type") contentType (by decide)
      (by decide +kernel) htype], _, rfl, rfl, ?_⟩, ?_⟩, hn⟩
  · simp only [List.cons_append, List.nil_append, List.forall_mem_cons, Field.Named, answerField]
    exact ⟨by decide, by decide, nofun⟩
  · refine ⟨[32], decimal n, [], by simp [answerField], by simp, fun _ => isDigit_of_mem_decimal,
      decimal_ne_nil n, nofun, decimalValue_decimal n⟩

end Head

/-! ## What the handler answers -/

def statuses : List Nat := [200, 400, 404, 405, 500]

/-- A response as `build_response` makes it, with one of the five statuses. -/
def Answers (response : Bytes) (keepAlive : Bool) : Prop :=
  ∃ status ∈ statuses, ∃ statusText contentType body, Plain statusText ∧ Plain contentType ∧
    response = buildResponse status statusText contentType body keepAlive

theorem plain_getContentType (filePath : Bytes) : Plain (getContentType filePath) := by
  have htypes : ∀ e ∈ contentTypes, Plain e.2 := by decide
  unfold getContentType
  cases hfind : (suffix filePath).bind fun ext => contentTypes.lookup ext with
  | none => exact (by decide : Plain (ascii "application/octet-stream"))
  | some contentType =>
    obtain ⟨ext, -, hlookup⟩ := Option.bind_eq_some_iff.mp hfind
    obtain ⟨before, after, hsplit, -⟩ := List.lookup_eq_some_iff.mp hlookup
    exact htypes _ (hsplit ▸ List.mem_append_right _ List.mem_cons_self)

theorem okResponse_answers (filePath content : Bytes) (keepAlive : Bool) :
    Answers (okResponse filePath content keepAlive) keepAlive :=
  ⟨200, by decide, _, _, content, by decide, plain_getContentType filePath, rfl⟩

theorem errorResponse_answers : Answers errorResponse false :=
  ⟨500, by decide, _, _, _, by decide, by decide, rfl⟩

variable {fs : FileSystem} {request : Bytes} {A : NodeAllocator} {cache : FileCache}

theorem map_errorPage_answers {page response : Bytes} {status : Nat} {statusText text : Bytes}
    {keepAlive : Bool} (hstatus : status ∈ statuses) (hplain : Plain statusText)
    (h : (fs.readFile page).map (errorPage status statusText text keepAlive) = .ok response) :
    Answers response keepAlive := by
  cases hread : fs.readFile page with
  | error e =>
    rw [hread] at h
    cases h
  | ok content =>
    rw [hread] at h
    cases h
    exact ⟨status, hstatus, _, _, _, hplain, by decide, rfl⟩

theorem want_answers {r : HttpResponse} (h : want fs request = .ok (.answer r)) :
    Answers r.response r.keepAlive := by
  rcases want_cases h with hr | ⟨response, hr, hsend | hsend⟩ | ⟨path, hr⟩
  · cases hr
    exact ⟨400, by decide, _, _, _, by decide, by decide, rfl⟩
  · cases hr
    exact map_errorPage_answers (by decide) (by decide) hsend
  · cases hr
    exact map_errorPage_answers (by decide) (by decide) hsend
  · cases hr

theorem sendResponse_answers {cache' : FileCache} {path response : Bytes} {keepAlive ok : Bool}
    (h : sendResponse A fs cache path keepAlive = .ok (cache', response, ok)) :
    Answers response (if ok then keepAlive else false) := by
  unfold sendResponse at h
  split at h
  · cases h
  · cases h
    exact okResponse_answers path _ keepAlive
  · split at h
    · cases h
    · cases h
      exact errorResponse_answers
    · split at h
      · cases h
      · cases h
        exact okResponse_answers path _ keepAlive

/-- **Every response is of that kind**, with the flag that is returned with it. -/
theorem handleRequest_answers {cache' : FileCache} {r : HttpResponse}
    (h : handleRequest A fs cache request = .ok (cache', r)) : Answers r.response r.keepAlive := by
  unfold handleRequest handleWith at h
  split at h
  · cases h
  · next hwant =>
    cases h
    exact want_answers hwant
  · split at h
    · cases h
    · next hsend =>
      cases h
      exact sendResponse_answers hsend

/-! ## Responses can be decoded -/

/-- **Responses are self-consistent and decodable.** Whatever the request, the files and the cache
were: the response is what `build_response` made of some body, its first empty line stands right
before that body, the parser finds the body and its length in it, and the flag. So the proxy takes
it for a response with a length, the length of the body, if that fits into a `size_t`. -/
theorem response_self_consistent {A : NodeAllocator} {fs : FileSystem} {cache cache' : FileCache}
    {request : Bytes} {r : HttpResponse}
    (h : handleRequest A fs cache request = .ok (cache', r)) :
    ∃ status statusText contentType body,
      r.response = buildResponse status statusText contentType body r.keepAlive ∧
      find blankLine r.response = some (r.response.length - body.length - 4) ∧
      (parseRequest r.response).body = body ∧
      (parseRequest r.response).headers.find? (ascii "Content-Length") =
        some (decimal body.length) ∧
      ((parseRequest r.response).headers.find? (ascii "Connection") = some (ascii "keep-alive") ↔
        r.keepAlive = true) ∧
      headerGet (parseRequest r.response).headers transferEncoding = [] ∧
      (body.length < 2 ^ 64 →
        bodyLength (headerGet (parseRequest r.response).headers contentLength) = body.length) := by
  obtain ⟨status, -, statusText, contentType, body, hstatus, htype, hbuild⟩ :=
    handleRequest_answers h
  refine ⟨status, statusText, contentType, body, hbuild, ?_⟩
  rw [hbuild, buildResponse_eq status hstatus htype r.keepAlive body, parseRequest_text]
  have hfind := find?_answerHead status hstatus htype body.length r.keepAlive
  refine ⟨?_, rfl, ?_, ?_, headerGet_transferEncoding status hstatus htype _ _,
    fun hfits => ?_⟩
  · obtain ⟨i, hi, hlen⟩ :=
      (answerHead status hstatus htype body.length r.keepAlive).text_isFrame
    have hblank : blankLine.length = 4 := rfl
    rw [find_append body hi, Option.some.injEq, List.length_append, ← hlen]
    omega
  · simp only [hfind]
    rfl
  · have hvalues : connectionValue false ≠ ascii "keep-alive" := by decide
    simp only [hfind, if_true, Option.some.injEq]
    cases r.keepAlive with
    | false => simp [hvalues]
    | true => exact ⟨fun _ => rfl, fun _ => rfl⟩
  · exact (bodyLength_of_sizes (answerHead_sizes status hstatus htype body.length _ hfits)).2

/-- `GET /a HTTP/1.0` and the empty line, from a disk that has the file with an empty line in it. -/
theorem response_self_consistent_emptyLineInBody :
    ∃ cache r, handleRequest .above (.single (some blankLine)) (.make fileCacheEntries)
        (ascii "GET /a HTTP/1.0" ++ blankLine) = .ok (cache, r) ∧
      ∃ status statusText contentType body,
        r.response = buildResponse status statusText contentType body r.keepAlive ∧
        find blankLine r.response = some (r.response.length - body.length - 4) ∧
        (parseRequest r.response).body = body := by
  cases h : handleRequest .above (.single (some blankLine)) (.make fileCacheEntries)
      (ascii "GET /a HTTP/1.0" ++ blankLine) with
  | error e =>
    have hok : (handleRequest .above (.single (some blankLine)) (.make fileCacheEntries)
      (ascii "GET /a HTTP/1.0" ++ blankLine)).isOk = true := by decide +kernel
    rw [h] at hok
    cases hok
  | ok result =>
    obtain ⟨status, statusText, contentType, body, hbuild, hfind, hbody, -⟩ :=
      response_self_consistent h
    exact ⟨result.1, result.2, rfl, status, statusText, contentType, body, hbuild, hfind, hbody⟩

/-! ## Which requests are answered -/

/-- `read_file` returns: the file cannot be opened, or there is memory for its content. -/
def FileSystem.Readable (fs : FileSystem) (path : Bytes) : Prop :=
  ∀ f ∈ fs.openAtEnd path, f.1 ≤ 0 ∨ fs.memoryFor f.1.toNat = true

instance (fs : FileSystem) (path : Bytes) : Decidable (fs.Readable path) :=
  inferInstanceAs (Decidable (∀ f ∈ fs.openAtEnd path, _))

theorem FileSystem.readable_iff {path : Bytes} :
    fs.Readable path ↔ ∃ found, fs.readFile path = .ok found := by
  unfold FileSystem.Readable FileSystem.readFile
  cases fs.openAtEnd path with
  | none => simp
  | some f =>
    by_cases hempty : f.1 ≤ 0
    · simp [hempty]
    · by_cases hmemory : fs.memoryFor f.1.toNat = true <;> simp [hempty, hmemory]

/-- A `GET` has a URL, and does not ask for a directory above the statics root. -/
def Locates (fs : FileSystem) (url : Bytes) : Prop :=
  ∀ root ∈ fs.canonicalStatics, url ≠ [] ∧
    ∀ target ∈ fs.weaklyCanonical root ((relOf url).drop 1), ¬ Above target root

instance (fs : FileSystem) (url : Bytes) : Decidable (Locates fs url) :=
  inferInstanceAs (Decidable (∀ root ∈ fs.canonicalStatics, _))

/-- The file that is read for the response: the page of an error, or the file that the URL stands
for, unless it is cached. -/
def fileRead (fs : FileSystem) (cache : FileCache) (request : Bytes) : Option Bytes :=
  let info := parseRequest request
  if info.method = [] then none
  else if info.method ≠ ascii "GET" then some page405
  else
    match resolveSafePath fs info.url with
    | .ok (.ok path) => if cache.contains path then none else some path
    | _ => some page404

/-- **The requests that are answered.** A `GET` locates a file below the statics root or none at
all, and there is memory for the file that is read for the response. -/
def Answerable (fs : FileSystem) (cache : FileCache) (request : Bytes) : Prop :=
  ((parseRequest request).method = ascii "GET" → Locates fs (parseRequest request).url) ∧
    ∀ path ∈ fileRead fs cache request, fs.Readable path

instance (fs : FileSystem) (cache : FileCache) (request : Bytes) :
    Decidable (Answerable fs cache request) := inferInstanceAs (Decidable (_ ∧ _))

theorem resolveSafePath_returns_iff {url : Bytes} :
    (∃ resolved, resolveSafePath fs url = .ok resolved) ↔ Locates fs url := by
  unfold Locates
  cases hroot : fs.canonicalStatics with
  | none => simp [resolveSafePath, hroot]
  | some root =>
    simp only [Option.mem_def, Option.some.injEq, forall_eq']
    by_cases hurl : url = []
    · subst hurl
      have hroot' : ([] : Bytes) ≠ ascii "/" := by decide
      simp [resolveSafePath, hroot, hroot']
    · rw [resolveSafePath_eq hroot hurl]
      cases fs.weaklyCanonical root ((relOf url).drop 1) with
      | none => simp [hurl]
      | some target =>
        simp only [mismatch_eq, hurl, ne_eq, not_false_eq_true, true_and, Option.some.injEq,
          forall_eq']
        by_cases habove : Above target root
        · simp [habove]
        · simp only [habove, if_false, not_false_eq_true, iff_true]
          split
          · next hnone => cases hnone
          · exact ⟨_, rfl⟩
          · split <;> exact ⟨_, rfl⟩

theorem sendResponse_returns_iff (A : NodeAllocator) {r : Recency Bytes Bytes}
    (h : LruCache.Refines fileCacheEntries cache r) (path : Bytes) (keepAlive : Bool) :
    (∃ x, sendResponse A fs cache path keepAlive = .ok x) ↔
      (cache.contains path = true ∨ fs.Readable path) := by
  rw [← h.isSome_find, FileSystem.readable_iff]
  have hsent := sendResponse_sent A fs h path keepAlive
  generalize sendResponse A fs cache path keepAlive = o at hsent
  cases hsent with
  | hit hfind => simp [hfind]
  | fails hfind hread | missing hfind hread | stored hfind hread => simp [hfind, hread]

/-- **When `handle_request` returns**, from a cache that holds the pairs of some `r`. -/
theorem handleRequest_returns_iff (A : NodeAllocator) {r : Recency Bytes Bytes}
    (h : LruCache.Refines fileCacheEntries cache r) :
    (∃ x, handleRequest A fs cache request = .ok x) ↔ Answerable fs cache request := by
  -- an error page needs nothing but its file
  have hpage {page : Bytes} {status : Nat} {statusText text : Bytes} {keepAlive : Bool}
      (hwant : want fs request = ((fs.readFile page).map
        (errorPage status statusText text keepAlive)).map fun r => .answer ⟨r, keepAlive⟩) :
      (∃ x, handleRequest A fs cache request = .ok x) ↔ fs.Readable page := by
    rw [FileSystem.readable_iff, handleRequest, handleWith, hwant]
    cases fs.readFile page <;> simp [Except.map]
  unfold Answerable
  by_cases hmethod : (parseRequest request).method = []
  · have hget : ([] : Bytes) ≠ ascii "GET" := by decide
    have hwant : want fs request = .ok (.answer ⟨badRequest, false⟩) := if_pos hmethod
    have hread : fileRead fs cache request = none := if_pos hmethod
    simp [handleRequest, handleWith, hwant, hread, hmethod, hget]
  · by_cases hget : (parseRequest request).method = ascii "GET"
    · have hwant : want fs request = _ := (if_neg hmethod).trans (if_neg (not_not.mpr hget))
      have hread : fileRead fs cache request = _ :=
        (if_neg hmethod).trans (if_neg (not_not.mpr hget))
      have hlocates := @resolveSafePath_returns_iff fs (parseRequest request).url
      cases hresolve : resolveSafePath fs (parseRequest request).url with
      | error e =>
        rw [hresolve] at hwant hlocates
        have hno : ¬ Locates fs (parseRequest request).url := by simpa using hlocates
        simp [handleRequest, handleWith, hwant, hget, hno]
      | ok resolved =>
        rw [hresolve] at hwant hread hlocates
        have hyes : Locates fs (parseRequest request).url := by simpa using hlocates
        cases resolved with
        | error e => simpa [hget, hyes, hread] using hpage hwant
        | ok path =>
          have hsend : (∃ x, handleRequest A fs cache request = .ok x) ↔
              ∃ x, sendResponse A fs cache path (parseRequest request).wantsKeepAlive = .ok x := by
            simp only [handleRequest, handleWith, hwant]
            cases sendResponse A fs cache path (parseRequest request).wantsKeepAlive <;> simp
          rw [hsend, sendResponse_returns_iff A h]
          cases hcached : cache.contains path <;> simp [hyes, hread, hcached]
    · have hwant : want fs request = _ := (if_neg hmethod).trans (if_pos hget)
      have hread : fileRead fs cache request = some page405 :=
        (if_neg hmethod).trans (if_pos hget)
      simpa [hget, hread] using hpage hwant

/-- The cache is well linked. -/
def Site.Sound (s : Site) : Prop := ∃ r, LruCache.Refines fileCacheEntries s.cache r

theorem Site.Sound.call {s s' : Site} {act : Act} {o : Option Outcome} (h : s.Sound)
    (hcall : HttpContext.call A s act = some (s', o)) : s'.Sound := by
  obtain ⟨r, hr⟩ := h
  cases act with
  | change fs =>
    cases hcall
    exact ⟨r, hr⟩
  | request text =>
    simp only [HttpContext.call, handleRequest, handleWith] at hcall
    cases hwant : want s.fs text with
    | error e =>
      rw [hwant] at hcall
      cases hcall
      exact ⟨r, hr⟩
    | ok wanted =>
      rw [hwant] at hcall
      cases wanted with
      | answer res =>
        cases hcall
        exact ⟨r, hr⟩
      | file path keepAlive =>
        have hsent := sendResponse_sent A s.fs hr path keepAlive
        simp only at hcall
        generalize sendResponse A s.fs s.cache path keepAlive = sent at hsent hcall
        cases hsent with
        | hit _ hr' | stored _ _ hr' =>
          cases hcall
          exact ⟨_, hr'⟩
        | fails =>
          cases hcall
          exact ⟨r, hr⟩
        | missing _ _ hr' =>
          cases hcall
          exact ⟨r, hr'⟩

/-- **`handle_request` answers exactly the answerable requests.** Whatever requests came before, and
whatever happened to the files: a request of any bytes gets a response with one of the five statuses
unless it is a `GET` without a URL or for a directory above the statics root, or a file is read for
it that does not fit into the memory. -/
theorem every_request_answered {A : NodeAllocator} {fs : FileSystem} {acts : List Act} {s : Site}
    {outcomes : List (Option Outcome)}
    (hrun : session (call A) (.start fs) acts = some (s, outcomes)) (request : Bytes) :
    (∃ cache r, handleRequest A s.fs s.cache request = .ok (cache, r) ∧
      ∃ status ∈ [200, 400, 404, 405, 500], ∃ statusText contentType body,
        r.response = buildResponse status statusText contentType body r.keepAlive) ↔
      Answerable s.fs s.cache request := by
  obtain ⟨rec, hrec⟩ : s.Sound :=
    session_invariant (fun _ _ _ _ h hcall => h.call hcall)
      (⟨.empty, .make fileCacheEntries⟩ : (Site.start fs).Sound) hrun
  rw [← handleRequest_returns_iff A hrec]
  constructor
  · rintro ⟨cache, r, hok, -⟩
    exact ⟨_, hok⟩
  · rintro ⟨⟨cache, r⟩, hok⟩
    obtain ⟨status, hstatus, statusText, contentType, body, -, -, hbuild⟩ :=
      handleRequest_answers hok
    exact ⟨cache, r, hok, status, hstatus, statusText, contentType, body, hbuild⟩

/-- Two words and nothing else, for a file that was changed after it had been served. -/
theorem every_request_answered_twoWords :
    ∃ s outcomes, session (call .above) (.start (.single (some [1])))
        [getA, .change (.single (some [2]))] = some (s, outcomes) ∧
      ∃ cache r, handleRequest .above s.fs s.cache (ascii "GET /a") = .ok (cache, r) ∧
        ∃ status ∈ [200, 400, 404, 405, 500], ∃ statusText contentType body,
          r.response = buildResponse status statusText contentType body r.keepAlive := by
  obtain ⟨⟨s, outcomes⟩, hrun, hanswerable⟩ :
      ∃ p ∈ session (call .above) (.start (.single (some [1])))
        [getA, .change (.single (some [2]))], Answerable p.1.fs p.1.cache (ascii "GET /a") := by
    decide +kernel
  exact ⟨s, outcomes, hrun, (every_request_answered hrun _).mpr hanswerable⟩

/-- The statics root is a directory, as `tellg` shows it. -/
def directorySite : FileSystem :=
  { smallSite with openAtEnd := fun path =>
      if path = ascii "/srv/statics" then some (2 ^ 63 - 1, []) else smallSite.openAtEnd path }

/-- A `GET` without a URL ends with the exception of `substr`, one for `/..` in undefined behaviour,
and one for a directory with the exception of a string of `2 ^ 63 - 1` bytes. -/
theorem get_without_url_throws :
    handleRequest .above smallSite (.make fileCacheEntries) (ascii "GET") = .error .outOfRange ∧
      handleRequest .above smallSite (.make fileCacheEntries)
        (ascii "GET /.. HTTP/1.1" ++ blankLine) = .error .undefined ∧
      handleRequest .above directorySite (.make fileCacheEntries)
        (ascii "GET /. HTTP/1.1" ++ blankLine) = .error .noMemory := by
  have hthrows {fs : FileSystem} {request : Bytes} {e : Abort} (h : want fs request = .error e) :
      handleRequest .above fs (.make fileCacheEntries) request = .error e := by
    simp only [handleRequest, handleWith, h]
  refine ⟨hthrows (by decide +kernel), hthrows (by decide +kernel), ?_⟩
  have hwant : want directorySite (ascii "GET /. HTTP/1.1" ++ blankLine) =
      .ok (.file (ascii "/srv/statics") true) := by decide +kernel
  simp only [handleRequest, handleWith, hwant]
  rfl

end Muses.HttpContext
