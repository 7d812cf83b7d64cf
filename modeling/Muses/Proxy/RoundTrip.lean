import Muses.Proxy.Rewrite
import Muses.Http.Fields

/-!
# The rewritten request, read back

The proxy takes a request apart with `parse_request` and writes another one from the pieces. What it
writes is a text of lines again, so the parser, and any other reader of header lines, can be asked
what is in it.
-/

namespace Muses.Proxy

open Muses.Core Text Search HttpContext Http List

/-! ## The text -/

def keptHeaders (headers : HeaderMap) : HeaderMap := headers.filter fun name => !isHopByHop name

def addedField : Bytes × Bytes := (ascii "X-Forwarded-Proto", ascii "http")

def fwdLines (info : HttpInfo) : List Bytes :=
  (keptHeaders info.headers).entries.map joinLine ++ [joinLine addedField]

theorem fwdHead_eq (info : HttpInfo) :
    fwdHead info = info.method ++ 32 :: (info.url ++ 32 :: (info.version ++ (crlf ++
      listing (fwdLines info)))) := by
  have hlines (es : List (Bytes × Bytes)) :
      (es.map fun e => e.1 ++ ascii ": " ++ e.2 ++ crlf).flatten ++
        ascii "X-Forwarded-Proto: http" ++ crlf ++ crlf =
      listing (es.map joinLine ++ [joinLine addedField]) := by
    have hsep : ascii ": " = [58, 32] := by decide
    have hadded : ascii "X-Forwarded-Proto: http" = joinLine addedField := by decide
    induction es with
    | nil => simp [hadded, listing]
    | cons e es ih =>
      simp only [map_cons, cons_append, listing, ← ih]
      simp [joinLine, hsep]
  have hblank : ascii " " = [32] := by decide
  simp only [fwdHead, fwdLines, keptHeaders, OrderedMap.filter, ← hlines, hblank]
  simp

theorem fwdRequest_eq (info : HttpInfo) (body : Bytes) :
    fwdRequest info body = info.method ++ 32 :: (info.url ++ 32 :: (info.version ++ (crlf ++
      (listing (fwdLines info) ++ body)))) := by
  rw [fwdRequest, fwdHead_eq]
  simp

variable {info : HttpInfo}

theorem isLine_of_mem_fwdLines (h : Readable info) : ∀ l ∈ fwdLines info, IsLine l := by
  intro l hl
  rcases mem_append.mp hl with hl | hl
  · obtain ⟨e, he, rfl⟩ := mem_map.mp hl
    exact ⟨by simp [joinLine], (h.lines e (mem_of_mem_filter he)).1⟩
  · rw [mem_singleton.mp hl]
    decide

/-! ## Reading it back -/

def forwardedHeaders (headers : HeaderMap) : HeaderMap :=
  (keptHeaders headers).assign addedField.1 addedField.2

theorem assignAll_fwdLines (h : Readable info) :
    OrderedMap.assignAll .empty ((fwdLines info).filterMap splitLine) =
      forwardedHeaders info.headers := by
  have hkept : ((keptHeaders info.headers).entries.map joinLine).filterMap splitLine =
      (keptHeaders info.headers).entries := by
    rw [filterMap_map]
    conv_rhs => rw [← filterMap_some (l := (keptHeaders info.headers).entries)]
    exact filterMap_congr fun e he => (h.lines e (mem_of_mem_filter he)).2
  have hadded : splitLine (joinLine addedField) = some addedField := by decide
  rw [fwdLines, filterMap_append, hkept, filterMap_cons_some hadded, filterMap_nil]
  have hlast (m : HeaderMap) (es : List (Bytes × Bytes)) (e : Bytes × Bytes) :
      m.assignAll (es ++ [e]) = (m.assignAll es).assign e.1 e.2 := by
    simp only [OrderedMap.assignAll, foldl_append, foldl_cons, foldl_nil]
  rw [hlast, OrderedMap.assignAll_entries, forwardedHeaders]

/-- **Request rewriting round-trips through the parser.** For every text `head`, request or not, and
every body, the text that the proxy makes of its parse is parsed to the same method, URL and
version, that body, and the fields without the hop-by-hop ones and with `X-Forwarded-Proto` bound to
`http`. -/
theorem fwdRequest_round_trip (head body : Bytes) :
    parseRequest (fwdRequest (parseRequest head) body) =
      { parseRequest head with
        headers := forwardedHeaders (parseRequest head).headers
        body := body } := by
  have h := parseRequest_readable head
  rw [fwdRequest_eq, parseRequest_listing body h.method h.url h.version (isLine_of_mem_fwdLines h),
    assignAll_fwdLines h]

/-- **A rewritten head ends at its first empty line**, if neither the method nor the URL has one. -/
theorem isFrame_fwdHead (h : Readable info) (hmethod : find blankLine info.method = none)
    (hurl : find blankLine info.url = none) : IsFrame blankLine (fwdHead info) := by
  have hblank : (32 : UInt8) ∉ blankLine := by decide
  have hrest : IsFrame blankLine (info.version ++ (crlf ++ listing (fwdLines info))) :=
    isFrame_listing (.inr h.version) (isLine_of_mem_fwdLines h)
  rw [fwdHead_eq]
  exact (hrest.append_of_separator hblank hurl).append_of_separator hblank hmethod

/-! ## The field lines -/

theorem colon_notMem_of_isHopByHop {name : Bytes} (h : isHopByHop name = true) : 58 ∉ name := by
  obtain ⟨hop, hmem, hiequals⟩ := any_eq_true.mp h
  intro hcolon
  have hlow : 58 ∈ (ascii hop).map toLower :=
    iequals_iff.mp hiequals ▸ mem_map_of_mem (f := toLower) hcolon
  simp only [mem_cons, not_mem_nil, or_false] at hmem
  rcases hmem with rfl | rfl | rfl | rfl | rfl | rfl | rfl | rfl <;> revert hlow <;> decide

/-- Whether a field is sent on depends on its name, if the line of a hop-by-hop field is split right
behind the name. -/
theorem isHopByHop_entry {f : Field} (hhop : isHopByHop f.name = true → f.Splits) :
    isHopByHop f.entry.1 = isHopByHop f.name := by
  by_cases hsplits : f.Splits
  · rw [Field.entry_of_splits hsplits]
  · rw [Bool.eq_false_iff.mpr fun h => hsplits (hhop h), Bool.eq_false_iff]
    exact fun h => colon_notMem_of_isHopByHop h (Field.colon_mem_of_not_splits hsplits)

theorem field_of_joinLine (f : Field) :
    readField (joinLine f.entry) = some f.pair ∧ 13 ∉ joinLine f.entry := by
  refine ⟨?_, fun hreturn => ?_⟩
  · obtain ⟨v, hcut, hstrip⟩ := f.cut_joinLine
    rw [readField, hcut, Option.map_some, hstrip, Field.pair]
  · refine (f.line_plain 13 (mem_of_splitLine f.splitLine_line.1 ?_)).1 rfl
    simpa [joinLine] using hreturn

/-- The fields of a head that are meant to be sent on. -/
def endToEnd (h : Head) : List Field := h.fields.filter fun f => !isHopByHop f.name

theorem filter_entries {h : Head} (hhop : ∀ f ∈ h.fields, isHopByHop f.name = true → f.Splits) :
    (h.fields.map Field.entry).filter (fun e => !isHopByHop e.1) =
      (endToEnd h).map Field.entry := by
  rw [filter_map]
  congr 1
  exact filter_congr fun f hf => congrArg (!·) (isHopByHop_entry (hhop f hf))

/-- The field lines of the text that is sent on, from the entries that are. -/
theorem fieldLines_fwdRequest (h : Head) (rest body : Bytes) :
    fieldLines (fwdRequest (parseRequest (h.text ++ rest)) body) =
      (keptHeaders h.headers).entries.filterMap (fun e => readField (joinLine e)) ++
        [addedField] := by
  have hplain : ∀ l ∈ (keptHeaders h.headers).entries.map joinLine ++ [joinLine addedField],
      l ≠ [] ∧ 13 ∉ l := by
    intro l hl
    rcases mem_append.mp hl with hl | hl
    · obtain ⟨e, he, rfl⟩ := mem_map.mp hl
      obtain ⟨f, -, rfl⟩ := exists_field_of_mem (mem_of_mem_filter he)
      exact ⟨by simp [joinLine], (field_of_joinLine f).2⟩
    · rw [mem_singleton.mp hl]
      decide
  have hadded : readField (joinLine addedField) = some addedField := by decide
  have htext : fwdRequest (parseRequest (h.text ++ rest)) body =
      (h.first ++ 32 :: (h.second ++ 32 :: h.third)) ++ (crlf ++
        (listing ((keptHeaders h.headers).entries.map joinLine ++ [joinLine addedField]) ++
          body)) := by
    rw [parseRequest_text, fwdRequest_eq]
    simp [fwdLines]
  rw [htext, fieldLines_listing body h.startLine_plain hplain, filterMap_append,
    filterMap_cons_some hadded, filterMap_nil, filterMap_map]
  rfl

/-- **Header forwarding loses nothing**, exactly if no two of the fields to be sent on are parsed to
the same key and the line of every hop-by-hop field is split behind its name. Then the field lines
of the text that is sent on are those of the head without the hop-by-hop ones, and the added one. -/
theorem fields_forwarded (h : Head) (rest body : Bytes) :
    (fieldLines (fwdRequest (parseRequest (h.text ++ rest)) body)).Perm
        ((fieldLines (h.text ++ rest)).filter (fun e => !isHopByHop e.1) ++ [addedField]) ↔
      ((endToEnd h).map fun f => f.entry.1).Nodup ∧
        ∀ f ∈ h.fields, isHopByHop f.name = true → f.Splits := by
  have hclient : (fieldLines (h.text ++ rest)).filter (fun e => !isHopByHop e.1) =
      (endToEnd h).map Field.pair := by
    rw [fieldLines_text, filter_map]
    rfl
  have hread (fs : List Field) :
      (fs.map Field.entry).filterMap (fun e => readField (joinLine e)) = fs.map Field.pair := by
    rw [filterMap_map, ← filterMap_eq_map]
    exact filterMap_congr fun f _ => (field_of_joinLine f).1
  rw [hclient, fieldLines_fwdRequest, perm_append_right_iff]
  constructor
  · intro hperm
    have hhop : ∀ f ∈ h.fields, isHopByHop f.name = true → f.Splits := by
      intro f hf hname
      by_contra hno
      -- the map has an entry with the key of the field, which is not taken for hop-by-hop
      obtain ⟨e, he, hkey, hmem⟩ := OrderedMap.exists_mem_assignAll (m := .empty)
        (mem_map_of_mem (f := Field.entry) hf)
      obtain ⟨g, -, rfl⟩ := mem_map.mp hmem
      have hkept : g.entry ∈ (keptHeaders h.headers).entries := by
        refine mem_filter.mpr ⟨he, ?_⟩
        rw [hkey, Bool.not_eq_true', Bool.eq_false_iff]
        exact fun hhop => colon_notMem_of_isHopByHop hhop (Field.colon_mem_of_not_splits hno)
      have hsent := hperm.mem_iff.mp (mem_filterMap.mpr ⟨_, hkept, (field_of_joinLine g).1⟩)
      obtain ⟨g', hg', hpair⟩ := mem_map.mp hsent
      have hsame : g'.name = f.name :=
        (congrArg Prod.fst hpair).trans (Field.name_eq_of_key hkey)
      have hend := (mem_filter.mp hg').2
      rw [hsame, hname] at hend
      cases hend
    refine ⟨?_, hhop⟩
    have hfilter := filter_entries hhop
    have hsub : (keptHeaders h.headers).entries.Subperm
        ((h.fields.map Field.entry).filter fun e => !isHopByHop e.1) :=
      OrderedMap.subperm_filter_assignAll fun name => !isHopByHop name
    have hlength := length_filterMap_le (fun e => readField (joinLine e))
      (keptHeaders h.headers).entries
    have hall : ((h.fields.map Field.entry).filter fun e => !isHopByHop e.1).length ≤
        (keptHeaders h.headers).entries.length := by
      rwa [hperm.length_eq, length_map, ← length_map (f := Field.entry), ← hfilter]
        at hlength
    have hkeys := (OrderedMap.perm_filter_assignAll_iff fun name => !isHopByHop name).mp
      (hsub.perm_of_length_le hall)
    rwa [hfilter, map_map] at hkeys
  · rintro ⟨hkeys, hhop⟩
    have hfilter := filter_entries hhop
    have hkept : (keptHeaders h.headers).entries.Perm ((endToEnd h).map Field.entry) := by
      rw [← hfilter]
      refine (OrderedMap.perm_filter_assignAll_iff fun name => !isHopByHop name).mpr ?_
      rwa [hfilter, map_map]
    rw [← hread]
    exact hkept.filterMap _

def repeatedHead : Head :=
  headWith [fieldOf "Cookie" " a" (by decide +kernel), fieldOf "Cookie" " b" (by decide +kernel)]

def disguisedHead : Head := headWith [fieldOf "Upgrade" "h2: x" (by decide +kernel)]

/-- The map keeps the last of two fields with one name, and the other is not sent on. A hop-by-hop
field that is split at the wrong place is. -/
theorem repeated_field_lost :
    fieldLines repeatedHead.text =
        [(ascii "Cookie", ascii "a"), (ascii "Cookie", ascii "b")] ∧
      fieldLines (fwdRequest (parseRequest repeatedHead.text) []) =
        [(ascii "Cookie", ascii "b"), addedField] ∧
      isHopByHop (ascii "Upgrade") = true ∧
      fieldLines (fwdRequest (parseRequest disguisedHead.text) []) =
        [(ascii "Upgrade", ascii "h2: x"), addedField] := by
  decide +kernel

end Muses.Proxy
