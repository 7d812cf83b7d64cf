import Muses.Http.Message

/-!
# Fields of a head, as sent and as parsed

A field is a name, a colon, a value with at most one blank in front that does not count.
`parse_request` looks for `": "` first and for a bare colon only if there is none, so it agrees with
this as long as no value without a blank in front has `": "` in it (`Field.Splits`).
-/

namespace Muses.Http

open Muses.Core Text Search HttpContext List

def Field.pair (f : Field) : Bytes × Bytes := (f.name, strip f.value)

/-! ## What the parser stores -/

theorem Field.cut_joinLine (f : Field) :
    ∃ v, cut 58 (joinLine f.entry) = some (f.name, v) ∧ strip v = strip f.value := by
  have hline : cut 58 f.line = some (f.name, f.value) := cut_append f.value f.colon_notMem
  rcases splitLine_cases f.splitLine_line.1 with ⟨hjoin, -⟩ | ⟨hplain, hkey, hnone⟩
  · exact ⟨f.value, hjoin ▸ hline, rfl⟩
  · have hentry := hline
    rw [hplain, cut_append _ hkey, Option.some.injEq, Prod.mk.injEq] at hentry
    obtain ⟨hname, hvalue⟩ := hentry
    refine ⟨32 :: f.entry.2, ?_, ?_⟩
    · rw [joinLine, hname]
      exact cut_append _ f.colon_notMem
    · -- the value has no blank in front, or the line would have been split there
      have hblank : f.value.head? ≠ some 32 := by
        intro hhead
        obtain ⟨v, hv⟩ := head?_eq_some_iff.mp hhead
        apply (find_eq_none_iff (cons_ne_nil _ _)).mp hnone f.name.length
        rw [Field.line, drop_left, hv]
        exact ⟨v, rfl⟩
      rw [← hvalue] at hblank
      simp only [strip, head?_cons, if_true, tail_cons, hblank, if_false, ← hvalue]

theorem Field.name_eq_of_key {f g : Field} (h : f.entry.1 = g.entry.1) : f.name = g.name := by
  -- the name is what stands before the first colon of the key, or the whole key
  have hfront (k w : Bytes) : (k ++ 58 :: w).takeWhile (· ≠ 58) = k.takeWhile (· ≠ 58) := by
    induction k with
    | nil => simp
    | cons b k ih => simp only [cons_append, takeWhile_cons, ih]
  have hname (f : Field) : f.entry.1.takeWhile (· ≠ 58) = f.name := by
    obtain ⟨v, hcut, -⟩ := f.cut_joinLine
    obtain ⟨hjoin, hcolon⟩ := cut_eq_some_iff.mp hcut
    have hself : f.name.takeWhile (· ≠ 58) = f.name := by
      refine takeWhile_eq_self_iff.mpr fun b hb => ?_
      simpa using fun heq : b = 58 => hcolon (heq ▸ hb)
    calc f.entry.1.takeWhile (· ≠ 58)
        = (joinLine f.entry).takeWhile (· ≠ 58) := (hfront f.entry.1 (32 :: f.entry.2)).symm
      _ = f.name.takeWhile (· ≠ 58) := by rw [hjoin, hfront]
      _ = f.name := hself
  rw [← hname f, h, hname g]

theorem headers_of_distinct {h : Head} (hnames : (h.fields.map Field.name).Nodup) :
    h.headers.entries.Perm (h.fields.map Field.entry) := by
  have hkeys : ((h.fields.map Field.entry).map Prod.fst).Nodup := by
    rw [map_map]
    refine pairwise_map.mpr ((pairwise_map.mp hnames).imp fun hne hkey => hne ?_)
    exact Field.name_eq_of_key hkey
  have hall := (OrderedMap.perm_filter_assignAll_iff fun _ => true).mpr
    (show (((h.fields.map Field.entry).filter fun _ => true).map Prod.fst).Nodup by
      rwa [filter_true])
  simp only [OrderedMap.filter, filter_true] at hall
  exact hall

/-! ## Requests as they were meant -/

/-- **Header lines split at the first colon** exactly where every field splits. A request line,
fields with distinct names, an empty line, any body: the parser gives the three words, the body, and
for each name its value, if and only if the blank behind the colon is missing in no field that has
`": "` in its value. -/
theorem fields_split_at_first_colon (h : Head) (body : Bytes)
    (hnames : (h.fields.map Field.name).Nodup) :
    (∃ info, parseRequest (h.text ++ body) = info ∧ info.method = h.first ∧ info.url = h.second ∧
      info.version = h.third ∧ info.body = body ∧
      ∀ name value, info.headers.find? name = some value ↔
        ∃ f ∈ h.fields, f.name = name ∧ strip f.value = value) ↔ ∀ f ∈ h.fields, f.Splits := by
  have hmem (name value : Bytes) : h.headers.find? name = some value ↔
      (name, value) ∈ h.fields.map Field.entry := by
    rw [OrderedMap.find?_eq_some_iff, (headers_of_distinct hnames).mem_iff]
  constructor
  · rintro ⟨info, rfl, -, -, -, -, hfind⟩ f hf
    by_contra hno
    -- the key has a colon, so it is no field's name
    rw [parseRequest_text] at hfind
    obtain ⟨g, -, hname, -⟩ := (hfind _ _).mp ((hmem _ _).mpr (mem_map_of_mem hf))
    exact g.colon_notMem (hname ▸ Field.colon_mem_of_not_splits hno)
  · intro hsplits
    refine ⟨_, parseRequest_text h body, rfl, rfl, rfl, rfl, fun name value => ?_⟩
    have hentries : h.fields.map Field.entry = h.fields.map Field.pair :=
      map_congr_left fun f hf => Field.entry_of_splits (hsplits f hf)
    rw [hmem, hentries, mem_map]
    simp only [Field.pair, Prod.mk.injEq]

def spacedField : Field := fieldOf "X" " a: b" (by decide +kernel)

def bareField : Field := fieldOf "X" "a: b" (by decide +kernel)

theorem fields_split_at_first_colon_spaced :
    ∃ info, parseRequest ((headWith [spacedField]).text ++ ascii "hi") = info ∧
      info.method = ascii "GET" ∧ info.url = ascii "/" ∧ info.version = ascii "HTTP/1.1" ∧
      info.body = ascii "hi" ∧
      ∀ name value, info.headers.find? name = some value ↔
        ∃ f ∈ [spacedField], f.name = name ∧ strip f.value = value :=
  (fields_split_at_first_colon (headWith [spacedField]) (ascii "hi") (by decide)).mpr (by decide)

/-- The parser finds `": "` in the value first: the key is `X:a`, and there is no `X`. -/
theorem colon_in_value_moves_split :
    (parseRequest (headWith [bareField]).text).headers.entries = [(ascii "X:a", ascii "b")] ∧
      (parseRequest (headWith [bareField]).text).headers.find? bareField.name = none := by
  decide +kernel

/-! ## The fields of a text -/

def crlfLines : Bytes → List Bytes
  | [] => [[]]
  | [b] => [[b]]
  | b :: c :: bs =>
      if b = 13 ∧ c = 10 then [] :: crlfLines bs
      else (crlfLines (c :: bs)).modifyHead (b :: ·)

def readField (line : Bytes) : Option (Bytes × Bytes) :=
  (cut 58 line).map fun p => (p.1, strip p.2)

def fieldLines (text : Bytes) : List (Bytes × Bytes) :=
  ((crlfLines text).tail.takeWhile (· ≠ [])).filterMap readField

theorem crlfLines_line {line : Bytes} (rest : Bytes) (hline : 13 ∉ line) :
    crlfLines (line ++ (crlf ++ rest)) = line :: crlfLines rest := by
  have hcons {b : UInt8} {bs : Bytes} (hb : b ≠ 13) :
      crlfLines (b :: bs) = (crlfLines bs).modifyHead (b :: ·) := by
    cases bs with
    | nil => rfl
    | cons c bs => simp only [crlfLines, hb, false_and, if_false]
  induction line with
  | nil => simp [crlf, crlfLines]
  | cons b line ih =>
    obtain ⟨hb, hline⟩ : 13 ≠ b ∧ 13 ∉ line := by simpa using hline
    rw [cons_append, hcons (Ne.symm hb), ih hline]
    rfl

theorem fieldLines_listing {start : Bytes} {lines : List Bytes} (rest : Bytes)
    (hstart : 13 ∉ start) (hlines : ∀ l ∈ lines, l ≠ [] ∧ 13 ∉ l) :
    fieldLines (start ++ (crlf ++ (listing lines ++ rest))) = lines.filterMap readField := by
  have hfound : (crlfLines (listing lines ++ rest)).takeWhile (· ≠ []) = lines := by
    induction lines with
    | nil =>
      have hempty : crlfLines (crlf ++ rest) = [] :: crlfLines rest :=
        crlfLines_line rest not_mem_nil
      simp [listing, hempty]
    | cons l lines ih =>
      obtain ⟨⟨hne, hl⟩, hlines⟩ := forall_mem_cons.mp hlines
      have htext : listing (l :: lines) ++ rest = l ++ (crlf ++ (listing lines ++ rest)) := by
        simp [listing]
      rw [htext, crlfLines_line _ hl, takeWhile_cons_of_pos (by simpa using hne), ih hlines]
  rw [fieldLines, crlfLines_line _ hstart, tail_cons, hfound]

/-- **The field lines of a head** are its fields, whatever follows. -/
theorem fieldLines_text (h : Head) (rest : Bytes) :
    fieldLines (h.text ++ rest) = h.fields.map Field.pair := by
  have htext : h.text ++ rest = (h.first ++ 32 :: (h.second ++ 32 :: h.third)) ++ (crlf ++
      (listing (h.fields.map Field.line) ++ rest)) := by
    simp [Head.text, Head.block_eq]
  rw [htext, fieldLines_listing rest h.startLine_plain, filterMap_map, ← filterMap_eq_map]
  · refine filterMap_congr fun f _ => ?_
    have hline : cut 58 f.line = some (f.name, f.value) := cut_append f.value f.colon_notMem
    simp only [Function.comp_apply, readField, hline, Option.map_some, Field.pair]
  · exact forall_mem_map.mpr fun f _ => ⟨f.line_ne_nil, fun h => (f.line_plain 13 h).1 rfl⟩

end Muses.Http
