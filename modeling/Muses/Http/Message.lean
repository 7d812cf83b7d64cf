import Muses.Http.Lines

/-!
# HTTP/1.1 messages on the wire

What the parser is for: messages in the grammar of HTTP/1.1, as values that cannot be malformed,
and the bytes that stand for them. A start line is three words, a field is a line with a colon in
it, an empty line ends the head. White space behind the colon is part of the value.
-/

namespace Muses.Http

open Muses.Core Text Search HttpContext List

/-! ## Heads -/

structure Field where
  name : Bytes
  value : Bytes
  name_ne_nil : name ≠ []
  name_token : ∀ b ∈ name, b ≠ 13 ∧ b ≠ 10 ∧ b ≠ 58
  value_line : ∀ b ∈ value, b ≠ 13 ∧ b ≠ 10

def Field.line (f : Field) : Bytes := f.name ++ 58 :: f.value

/-- Names are the same in upper and lower case. -/
def Field.Named (f : Field) (name : Bytes) : Prop := f.name.map toLower = name.map toLower

instance (f : Field) (name : Bytes) : Decidable (f.Named name) :=
  inferInstanceAs (Decidable (_ = _))

structure Head where
  first : Bytes
  second : Bytes
  third : Bytes
  fields : List Field
  first_word : ∀ b ∈ first, b ≠ 32 ∧ b ≠ 13 ∧ b ≠ 10
  second_word : ∀ b ∈ second, b ≠ 32 ∧ b ≠ 13 ∧ b ≠ 10
  third_line : ∀ b ∈ third, b ≠ 13 ∧ b ≠ 10

namespace Head

def block : List Field → Bytes
  | [] => crlf
  | f :: fs => f.line ++ (crlf ++ block fs)

def text (h : Head) : Bytes :=
  h.first ++ 32 :: (h.second ++ 32 :: (h.third ++ (crlf ++ block h.fields)))

end Head

theorem Field.line_plain (f : Field) : ∀ b ∈ f.line, b ≠ 13 ∧ b ≠ 10 := by
  intro b hb
  rcases mem_append.mp hb with hb | hb
  · exact ⟨(f.name_token b hb).1, (f.name_token b hb).2.1⟩
  · rcases mem_cons.mp hb with rfl | hb
    · decide
    · exact f.value_line b hb

theorem Field.line_ne_nil (f : Field) : f.line ≠ [] := by
  simp [line]

theorem Field.isLine (f : Field) : IsLine f.line :=
  ⟨f.line_ne_nil, fun h => (f.line_plain 10 h).2 rfl⟩

theorem Head.block_eq (fields : List Field) : block fields = listing (fields.map Field.line) := by
  induction fields with
  | nil => rfl
  | cons f fs ih => rw [block, ih, map_cons, listing]

theorem forall_isLine (fields : List Field) : ∀ l ∈ fields.map Field.line, IsLine l :=
  forall_mem_map.mpr fun f _ => f.isLine

/-! ## The end of a head -/

theorem Head.startLine_plain (h : Head) : 13 ∉ h.first ++ 32 :: (h.second ++ 32 :: h.third) := by
  simp only [mem_append, mem_cons, not_or]
  exact ⟨fun hm => (h.first_word _ hm).2.1 rfl, by decide,
    fun hm => (h.second_word _ hm).2.1 rfl, by decide, fun hm => (h.third_line _ hm).1 rfl⟩

theorem Head.text_isFrame (h : Head) : IsFrame blankLine h.text := by
  have hsplit : h.text =
      (h.first ++ 32 :: (h.second ++ 32 :: h.third)) ++ (crlf ++ block h.fields) := by
    simp [text]
  rw [hsplit, block_eq]
  exact isFrame_listing (.inr h.startLine_plain) (forall_isLine h.fields)

/-- A first piece of a message in which an empty line is found is the head and a first piece of
the body. -/
theorem Head.split_of_prefix {h : Head} {body buf : Bytes} {pos : Nat}
    (hpre : buf <+: h.text ++ body) (hpos : find blankLine buf = some pos) :
    buf.take (pos + 4) = h.text ∧ buf = h.text ++ buf.drop (pos + 4) ∧
      buf.drop (pos + 4) <+: body := by
  have htake : buf.take (pos + 4) = h.text :=
    (isFrame_take hpos).unique h.text_isFrame ((List.take_prefix _ _).trans hpre)
      (prefix_append _ _)
  have hbuf : buf = h.text ++ buf.drop (pos + 4) := by
    rw [← htake, take_append_drop]
  refine ⟨htake, hbuf, ?_⟩
  rw [hbuf, prefix_append_right_inj] at hpre
  exact hpre

/-! ## The parser on a head -/

def Field.entry (f : Field) : Bytes × Bytes := (splitLine f.line).getD ([], [])

def Head.headers (h : Head) : HeaderMap := OrderedMap.assignAll .empty (h.fields.map Field.entry)

theorem Field.colon_notMem (f : Field) : 58 ∉ f.name := fun h => (f.name_token 58 h).2.2 rfl

theorem Field.splitLine_line (f : Field) :
    splitLine f.line = some f.entry ∧ (f.entry.1 = f.name ∨ 58 ∈ f.entry.1) := by
  have hname := f.colon_notMem
  obtain ⟨pos, hpos⟩ : ∃ pos, splitPos f.line = some (f.name.length + pos) := by
    unfold splitPos line
    rw [find_append_of_notMem _ hname, find_append_of_notMem _ hname]
    cases find [58, 32] (58 :: f.value) with
    | some pos => exact ⟨pos, rfl⟩
    | none => exact ⟨0, by simp [find, cons_prefix_cons]⟩
  have hsplit : splitLine f.line = some f.entry := by
    unfold entry splitLine
    rw [hpos]
    rfl
  refine ⟨hsplit, ?_⟩
  have hkey : f.entry.1 = f.line.take (f.name.length + pos) := by
    unfold entry splitLine
    rw [hpos]
    rfl
  rw [hkey]
  cases pos with
  | zero => exact .inl (by simp [line])
  | succ pos => exact .inr (by simp [line, take_append])

def strip (v : Bytes) : Bytes := if v.head? = some 32 then v.tail else v

variable {v : Bytes} {n : Nat}

theorem find_strip {c : UInt8} {needle : Bytes} (hc : c ≠ 32) (h : (find (c :: needle) v).isSome) :
    (find (c :: needle) (strip v)).isSome := by
  unfold strip
  split
  · next hhead =>
    cases v with
    | nil => cases hhead
    | cons b bs =>
      obtain rfl : b = 32 := by simpa using hhead
      have hmiss : ¬ (c :: needle) <+: 32 :: bs := by simp [cons_prefix_cons, hc]
      simpa [find, hmiss] using h
  · exact h

/-- The parser splits the line of the field right behind its name: a blank stands there, or no
`": "` stands in the value. -/
def Field.Splits (f : Field) : Prop := f.value.head? = some 32 ∨ find [58, 32] f.value = none

instance (f : Field) : Decidable f.Splits := inferInstanceAs (Decidable (_ ∨ _))

theorem splitLine_of_splits {name value : Bytes} (hname : 58 ∉ name)
    (h : value.head? = some 32 ∨ find [58, 32] value = none) :
    splitLine (name ++ 58 :: value) = some (name, strip value) := by
  have hpos : splitPos (name ++ 58 :: value) = some name.length := by
    unfold splitPos
    rw [find_append_of_notMem _ hname, find_append_of_notMem _ hname]
    have hcolon : find [58] (58 :: value) = some 0 := by simp [find, cons_prefix_cons]
    rw [hcolon]
    by_cases hblank : [58, 32] <+: 58 :: value
    · simp only [find, hblank, if_true]
      rfl
    · have hnone : find [58, 32] value = none := by
        refine h.resolve_left fun hhead => hblank ?_
        obtain ⟨v, hv⟩ := head?_eq_some_iff.mp hhead
        simp [hv, cons_prefix_cons]
      simp only [find, hblank, if_false, hnone]
      rfl
  have hnext : (name ++ 58 :: value)[name.length + 1]? = value.head? := by
    simp [getElem?_append_right, head?_eq_getElem?]
  unfold splitLine
  rw [hpos]
  simp only [Option.map_some, hnext, strip]
  split
  · simp [drop_append]
  · simp [drop_append]

theorem Field.entry_of_splits {f : Field} (h : f.Splits) : f.entry = (f.name, strip f.value) := by
  rw [entry, line, splitLine_of_splits f.colon_notMem h, Option.getD_some]

theorem splits_of_splitLine {name value : Bytes} {e : Bytes × Bytes}
    (h : splitLine (name ++ 58 :: value) = some e) (hkey : e.1 = name) :
    value.head? = some 32 ∨ find [58, 32] value = none := by
  rcases splitLine_cases h with ⟨hjoin, -⟩ | ⟨-, -, hnone⟩
  · -- the key is the name, so the blank stands right behind its colon
    rw [joinLine, hkey, append_cancel_left_eq, List.cons.injEq] at hjoin
    exact .inl (by rw [hjoin.2]; rfl)
  · refine .inr ((find_eq_none_iff (cons_ne_nil _ _)).mpr fun j hpre => ?_)
    apply (find_eq_none_iff (cons_ne_nil _ _)).mp hnone (name.length + (1 + j))
    rw [← drop_drop, drop_left, ← drop_drop]
    exact hpre

/-- **A line that is split somewhere else** gives a key with a colon in it. -/
theorem Field.colon_mem_of_not_splits {f : Field} (h : ¬ f.Splits) : 58 ∈ f.entry.1 :=
  f.splitLine_line.2.resolve_left fun hkey => h (splits_of_splitLine f.splitLine_line.1 hkey)

/-- **The parser reads a head back**, and takes everything behind it for the body. -/
theorem parseRequest_text (h : Head) (rest : Bytes) :
    parseRequest (h.text ++ rest) =
      { method := h.first, url := h.second, version := h.third, headers := h.headers,
        body := rest } := by
  have hentries : (h.fields.map Field.line).filterMap splitLine = h.fields.map Field.entry := by
    rw [filterMap_map, ← filterMap_eq_map]
    exact filterMap_congr fun f _ => f.splitLine_line.1
  have htext : h.text ++ rest = h.first ++ 32 :: (h.second ++ 32 :: (h.third ++ (crlf ++
      (listing (h.fields.map Field.line) ++ rest)))) := by
    simp [Head.text, Head.block_eq]
  rw [htext, parseRequest_listing rest (fun hm => (h.first_word _ hm).1 rfl)
    (fun hm => (h.second_word _ hm).1 rfl) (fun hm => (h.third_line _ hm).1 rfl)
    (forall_isLine h.fields), hentries]
  rfl

/-! ## Numbers in fields -/

/-- `v` is the decimal `n` with blanks or tabs around it. -/
def Denotes (v : Bytes) (n : Nat) : Prop :=
  ∃ pre digits post, v = pre ++ (digits ++ post) ∧ (∀ b ∈ pre, b = 32 ∨ b = 9) ∧
    (∀ b ∈ digits, isDigit b = true) ∧ digits ≠ [] ∧ (∀ b ∈ post, b = 32 ∨ b = 9) ∧
    decimalValue digits = n

theorem isSpace_of_blank {b : UInt8} (h : b = 32 ∨ b = 9) :
    isSpace b = true ∧ isDigit b = false ∧ b ≠ 58 := by
  rcases h with rfl | rfl <;> decide

theorem Denotes.strip (h : Denotes v n) : Denotes (strip v) n := by
  obtain ⟨pre, digits, post, rfl, hpre, hdigits, hne, hpost, hn⟩ := h
  unfold Http.strip
  split
  · next hhead =>
    cases pre with
    | nil =>
      -- a digit is no blank
      obtain ⟨d, ds, rfl⟩ := exists_cons_of_ne_nil hne
      have hd : d = 32 := by simpa using hhead
      have := hdigits d (by simp)
      simp [hd, isDigit] at this
    | cons b bs =>
      exact ⟨bs, digits, post, rfl, fun c hc => hpre c (by simp [hc]), hdigits, hne, hpost, hn⟩
  · exact ⟨pre, digits, post, rfl, hpre, hdigits, hne, hpost, hn⟩

theorem Denotes.stoull (h : Denotes v n) (hn : n < 2 ^ 64) : stoull v = some n := by
  obtain ⟨pre, digits, post, rfl, hpre, hdigits, hne, hpost, rfl⟩ := h
  refine stoull_eq_some (fun b hb => (isSpace_of_blank (hpre b hb)).1) hdigits hne ?_ hn
  intro b hb
  exact (isSpace_of_blank (hpost b (mem_of_mem_head? hb))).2.1

theorem Denotes.ne_nil (h : Denotes v n) : v ≠ [] := by
  obtain ⟨pre, digits, post, rfl, -, -, hne, -, -⟩ := h
  simp [hne]

theorem Denotes.notMem_colon (h : Denotes v n) : 58 ∉ v := by
  obtain ⟨pre, digits, post, rfl, hpre, hdigits, -, hpost, -⟩ := h
  simp only [mem_append, not_or]
  refine ⟨fun hm => ?_, fun hm => ?_, fun hm => ?_⟩
  · exact (isSpace_of_blank (hpre _ hm)).2.2 rfl
  · exact absurd (hdigits _ hm) (by decide)
  · exact (isSpace_of_blank (hpost _ hm)).2.2 rfl

/-! ## Messages -/

/-- No field has the name. -/
def Head.Lacks (h : Head) (name : Bytes) : Prop := ∀ f ∈ h.fields, ¬ f.Named name

instance (h : Head) (name : Bytes) : Decidable (h.Lacks name) :=
  inferInstanceAs (Decidable (∀ f ∈ h.fields, ¬ f.Named name))

/-- `f` is the only field with the name. -/
def Head.Only (h : Head) (name : Bytes) (f : Field) : Prop :=
  ∃ before after, h.fields = before ++ f :: after ∧ f.Named name ∧
    ∀ g ∈ before ++ after, ¬ g.Named name

def contentLength : Bytes := ascii "Content-Length"

def transferEncoding : Bytes := ascii "Transfer-Encoding"

/-- One `Content-Length`, which says `n`. -/
def Head.Sizes (h : Head) (n : Nat) : Prop :=
  (∃ f, h.Only contentLength f ∧ Denotes f.value n) ∧ n < 2 ^ 64

structure Request where
  head : Head
  body : Bytes
  version : head.third = ascii "HTTP/1.1"
  sized : (head.Lacks contentLength ∧ body = []) ∨ head.Sizes body.length

def Request.text (r : Request) : Bytes := r.head.text ++ r.body

def hexDigit (b : UInt8) : Option Nat :=
  if 48 ≤ b ∧ b ≤ 57 then some (b.toNat - 48)
  else if 65 ≤ b ∧ b ≤ 70 then some (b.toNat - 55)
  else if 97 ≤ b ∧ b ≤ 102 then some (b.toNat - 87)
  else none

def hexValue (ds : Bytes) : Nat := ds.foldl (fun n d => 16 * n + (hexDigit d).getD 0) 0

/-- Nothing, or a semicolon and the rest of the line. -/
def IsExtension (ext : Bytes) : Prop :=
  ext = [] ∨ ext.head? = some 59 ∧ ∀ b ∈ ext, b ≠ 13 ∧ b ≠ 10

/-- A body in the chunked coding, with extensions and a trailer. -/
inductive Chunked : Bytes → Prop where
  | last {zeros ext : Bytes} (trailer : List Field) (hne : zeros ≠ [])
      (hzeros : ∀ b ∈ zeros, b = 48) (hext : IsExtension ext) :
      Chunked (zeros ++ (ext ++ (crlf ++ Head.block trailer)))
  | chunk {size ext data rest : Bytes} (hsize : ∀ b ∈ size, (hexDigit b).isSome)
      (hvalue : hexValue size = data.length) (hdata : data ≠ []) (hext : IsExtension ext)
      (hrest : Chunked rest) :
      Chunked (size ++ (ext ++ (crlf ++ (data ++ (crlf ++ rest)))))

structure Response where
  head : Head
  body : Bytes
  delimited : (head.Lacks transferEncoding ∧ head.Sizes body.length) ∨
    ∃ f, head.Only transferEncoding f ∧ (find (ascii "chunked") (f.value.map toLower)).isSome ∧
      Chunked body

def Response.text (r : Response) : Bytes := r.head.text ++ r.body

theorem Response.sizes_of_lacks (r : Response) (hlacks : r.head.Lacks transferEncoding) :
    r.head.Sizes r.body.length := by
  rcases r.delimited with ⟨-, hsizes⟩ | ⟨f, ⟨before, after, hfields, hnamed, -⟩, -⟩
  · exact hsizes
  · have hf : f ∈ r.head.fields := hfields ▸ mem_append_right _ mem_cons_self
    exact absurd hnamed (hlacks f hf)

/-- A `Connection` field says `close`. -/
def Response.AnnouncesClose (r : Response) : Prop :=
  ∃ f ∈ r.head.fields, f.Named (ascii "Connection") ∧
    (find (ascii "close") (f.value.map toLower)).isSome

/-! ## Concrete messages -/

def fieldOf (name value : String)
    (h : (ascii name ≠ [] ∧ ∀ b ∈ ascii name, b ≠ 13 ∧ b ≠ 10 ∧ b ≠ 58) ∧
      ∀ b ∈ ascii value, b ≠ 13 ∧ b ≠ 10) : Field :=
  ⟨ascii name, ascii value, h.1.1, h.1.2, h.2⟩

def headOf (first second third : String) (fields : List Field)
    (h : (∀ b ∈ ascii first, b ≠ 32 ∧ b ≠ 13 ∧ b ≠ 10) ∧
      (∀ b ∈ ascii second, b ≠ 32 ∧ b ≠ 13 ∧ b ≠ 10) ∧ ∀ b ∈ ascii third, b ≠ 13 ∧ b ≠ 10) :
    Head :=
  ⟨ascii first, ascii second, ascii third, fields, h.1, h.2.1, h.2.2⟩

def headWith (fields : List Field) : Head := headOf "GET" "/" "HTTP/1.1" fields (by decide +kernel)

end Muses.Http
