import Muses.Http.Info

/-!
# Header lines

What `parse_request` reads, in terms of lines. A text is a start line that is cut at two blanks and
a return, header lines without a line feed, and an empty line; nothing else is asked of them, so
that also texts that are no HTTP are covered.
-/

namespace Muses.HttpContext

open Muses.Core Text Search List

/-! ## Splitting one line -/

def joinLine (e : Bytes × Bytes) : Bytes := e.1 ++ 58 :: 32 :: e.2

variable {e : Bytes × Bytes} {line rest : Bytes} {lines : List Bytes}

theorem splitLine_joinLine (h : find [58, 32] (joinLine e) = some e.1.length) :
    splitLine (joinLine e) = some e := by
  have hblank : (joinLine e)[e.1.length + 1]? = some 32 := by
    simp [joinLine]
  have hdrop : (joinLine e).drop (e.1.length + 2) = e.2 := by
    simp [joinLine, drop_append, drop_of_length_le]
  have htake : (joinLine e).take e.1.length = e.1 := take_left
  simp only [splitLine, splitPos, h, Option.map_some, hblank, if_true, hdrop, htake]

/-- **Where a line is split**: at the first `": "`, or, if there is none, at the first colon. -/
theorem splitLine_cases (h : splitLine line = some e) :
    (line = joinLine e ∧ find [58, 32] line = some e.1.length) ∨
      (line = e.1 ++ 58 :: e.2 ∧ 58 ∉ e.1 ∧ find [58, 32] line = none) := by
  obtain ⟨pos, hpos, rfl⟩ := Option.map_eq_some_iff.mp h
  unfold splitPos at hpos
  split at hpos
  · next i hfind =>
    cases hpos
    left
    obtain ⟨hle, ⟨val, hval⟩, -⟩ := find_eq_some_iff.mp hfind
    have hline : line = line.take pos ++ 58 :: 32 :: val := by
      have hall := take_append_drop pos line
      rw [← hval] at hall
      exact hall.symm
    have hlen : (line.take pos).length = pos := by rw [length_take]; omega
    have hblank : (line)[pos + 1]? = some 32 := by
      have h1 : (line.drop pos)[1]? = some 32 := by rw [← hval]; rfl
      rwa [getElem?_drop] at h1
    have hdrop : line.drop (pos + 2) = val := by
      rw [← drop_drop, ← hval]
      rfl
    simp only [hblank, if_true, hdrop, joinLine]
    exact ⟨hline, by rw [hlen]; exact hfind⟩
  · next hnone =>
    right
    obtain ⟨hle, ⟨val, hval⟩, hmin⟩ := find_eq_some_iff.mp hpos
    have hdrop : line.drop (pos + 1) = val := by
      rw [← drop_drop, ← hval]
      rfl
    have hblank : (line)[pos + 1]? ≠ some 32 := by
      intro hblank
      apply (find_eq_none_iff (cons_ne_nil _ _)).mp hnone pos
      have hhead : val[0]? = some 32 := by rw [← hdrop, getElem?_drop]; exact hblank
      obtain ⟨b, val, rfl⟩ : ∃ b bs, val = b :: bs := by
        cases val with
        | nil => cases hhead
        | cons b bs => exact ⟨b, bs, rfl⟩
      obtain rfl : b = 32 := by simpa using hhead
      exact ⟨val, hval⟩
    simp only [hblank, if_false, hdrop]
    refine ⟨?_, fun hmem => ?_, hnone⟩
    · have hall := take_append_drop pos line
      rw [← hval] at hall
      exact hall.symm
    · -- an earlier colon would have been found
      obtain ⟨j, hj, hget⟩ := getElem_of_mem hmem
      rw [length_take] at hj
      refine hmin j (by omega) ?_
      rw [drop_eq_getElem_cons (by omega), cons_prefix_cons]
      exact ⟨by rw [← hget, getElem_take], nil_prefix⟩

theorem splitLine_of_notMem (h : 58 ∉ e.1) : splitLine (joinLine e) = some e := by
  apply splitLine_joinLine
  rw [joinLine, find_append_of_notMem _ h]
  simp [find, cons_prefix_cons]

/-- **What is split off a line can be written back**: the line for the entry gives the entry. -/
theorem splitLine_join (h : splitLine line = some e) : splitLine (joinLine e) = some e := by
  rcases splitLine_cases h with ⟨rfl, hfind⟩ | ⟨-, hkey, -⟩
  · exact splitLine_joinLine hfind
  · exact splitLine_of_notMem hkey

theorem mem_of_splitLine (h : splitLine line = some e) {b : UInt8} (hb : b ∈ e.1 ∨ b ∈ e.2) :
    b ∈ line := by
  rcases splitLine_cases h with ⟨rfl, -⟩ | ⟨rfl, -, -⟩
  · simp only [joinLine, mem_append, mem_cons]
    tauto
  · simp only [mem_append, mem_cons]
    tauto

/-! ## Texts of lines -/

/-- A nonempty line, without its line feed. -/
def IsLine (line : Bytes) : Prop := line ≠ [] ∧ 10 ∉ line

instance (line : Bytes) : Decidable (IsLine line) := inferInstanceAs (Decidable (_ ∧ _))

def listing : List Bytes → Bytes
  | [] => crlf
  | line :: lines => line ++ (crlf ++ listing lines)

theorem parseHeaders_listing (rest : Bytes) {fuel : Nat} (headers : HeaderMap)
    (hlines : ∀ l ∈ lines, IsLine l) (hfuel : (listing lines ++ rest).length < fuel) :
    parseHeaders fuel ⟨listing lines ++ rest, false, false⟩ headers =
      (⟨rest, false, false⟩, headers.assignAll (lines.filterMap splitLine)) := by
  induction lines generalizing fuel headers with
  | nil =>
    obtain ⟨fuel, rfl⟩ := Nat.exists_eq_succ_of_ne_zero (by omega : fuel ≠ 0)
    have hline := @InStream.getline_of_notMem 10 [13] rest (by decide)
    simp only [cons_append, nil_append] at hline
    simp only [parseHeaders, listing, crlf, cons_append, nil_append, hline]
    rfl
  | cons line lines ih =>
    obtain ⟨fuel, rfl⟩ := Nat.exists_eq_succ_of_ne_zero (by omega : fuel ≠ 0)
    obtain ⟨⟨hne, hfeed⟩, hlines⟩ := forall_mem_cons.mp hlines
    have htext : listing (line :: lines) ++ rest =
        (line ++ [13]) ++ 10 :: (listing lines ++ rest) := by
      simp [listing, crlf]
    have hplain : 10 ∉ line ++ [13] := by simpa using hfeed
    have hnot : ¬ (line ++ [13] = [13] ∨ line ++ [13] = []) := by simp [hne]
    have hpop : popReturn (line ++ [13]) = line := by simp [popReturn]
    have hadd : (addLine headers (line ++ [13])).assignAll (lines.filterMap splitLine) =
        headers.assignAll ((line :: lines).filterMap splitLine) := by
      simp only [addLine, hpop]
      cases hsplit : splitLine line with
      | none => rw [filterMap_cons_none hsplit]
      | some e =>
        rw [filterMap_cons_some hsplit]
        rfl
    rw [htext] at hfuel ⊢
    simp only [parseHeaders, InStream.getline_of_notMem _ hplain, hnot, if_false]
    rw [ih _ hlines ?_, hadd]
    simp only [length_append, length_cons] at hfuel ⊢
    omega

/-- **The parser on a text of lines**: it takes everything behind the empty line for the body. -/
theorem parseRequest_listing {method url version : Bytes} (rest : Bytes) (hmethod : 32 ∉ method)
    (hurl : 32 ∉ url) (hversion : 13 ∉ version) (hlines : ∀ l ∈ lines, IsLine l) :
    parseRequest (method ++ 32 :: (url ++ 32 :: (version ++ (crlf ++ (listing lines ++ rest))))) =
      { method := method, url := url, version := version,
        headers := OrderedMap.assignAll .empty (lines.filterMap splitLine), body := rest } := by
  -- the three calls of `getline`, each with what is left for the next
  generalize htext : method ++ 32 :: (url ++ 32 :: (version ++ (crlf ++ (listing lines ++ rest)))) =
    text
  have hcut : text = method ++ 32 :: (url ++ 32 :: (version ++ 13 :: 10 ::
      (listing lines ++ rest))) := htext.symm
  have hfuel : (listing lines ++ rest).length < text.length + 1 := by
    simp only [hcut, length_append, length_cons]
    omega
  have hloop := parseHeaders_listing rest .empty hlines hfuel
  have hbody : (if text.length - rest.length < text.length then
      text.drop (text.length - rest.length) else []) = rest := by
    obtain ⟨front, hfront⟩ : ∃ front, text = front ++ rest :=
      ⟨method ++ 32 :: (url ++ 32 :: (version ++ (crlf ++ listing lines))), by simp [← htext]⟩
    have hlen : text.length - rest.length = front.length := by simp [hfront]
    rw [hlen, hfront, drop_left]
    split
    · rfl
    · next hge =>
      rw [length_append] at hge
      exact (eq_nil_of_length_eq_zero (by omega)).symm
  unfold parseRequest
  rw [hcut, InStream.getline_of_notMem _ hmethod]
  simp only [InStream.getline_of_notMem _ hurl, InStream.getline_of_notMem _ hversion]
  rw [← hcut]
  simp only [InStream.get, InStream.good, Bool.not_false, Bool.and_self, hloop, InStream.tellg,
    if_true, hbody]

/-! ## The end of a text of lines -/

theorem not_blankLine_of_lt (hline : 10 ∉ line ∨ 13 ∉ line) {j : Nat} (hj : j < line.length) :
    ¬ blankLine <+: (line ++ (crlf ++ rest)).drop j := by
  intro hpre
  have hget (i : Nat) (hi : i < 4) : (line ++ (crlf ++ rest))[j + i]? = blankLine[i]? := by
    have hlt : i < blankLine.length := hi
    rw [← getElem?_drop, getElem?_eq_getElem hlt]
    exact prefix_iff_getElem?.mp hpre i hlt
  rcases hline with hline | hline
  · -- the line feed would be in the line, or where its return is
    have h1 := hget 1 (by decide)
    rcases Nat.lt_or_ge (j + 1) line.length with hin | hout
    · rw [getElem?_append_left hin] at h1
      exact hline (mem_of_getElem? h1)
    · rw [getElem?_append_right hout, (by omega : j + 1 - line.length = 0)] at h1
      cases h1
  · have h0 := hget 0 (by decide)
    rw [Nat.add_zero, getElem?_append_left hj] at h0
    exact hline (mem_of_getElem? h0)

theorem find_blankLine_line (hline : 10 ∉ line ∨ 13 ∉ line) (hrest : ¬ crlf <+: rest) :
    find blankLine (line ++ (crlf ++ rest)) =
      (find blankLine rest).map (line.length + 2 + ·) := by
  have hnone (j : Nat) (hj : j < line.length + 2) :
      ¬ blankLine <+: (line ++ (crlf ++ rest)).drop j := by
    rcases Nat.lt_or_ge j line.length with hlt | hge
    · exact not_blankLine_of_lt hline hlt
    · obtain ⟨i, rfl⟩ := Nat.exists_eq_add_of_le hge
      rw [← drop_drop, drop_left]
      match i with
      | 0 => simpa [blankLine, crlf, cons_prefix_cons] using hrest
      | 1 => simp [blankLine, crlf, cons_prefix_cons]
      | i + 2 => omega
  have hskip := @find_drop _ _ blankLine (line ++ (crlf ++ rest)) (line.length + 2)
    (by simp [crlf]) hnone
  rw [hskip, ← drop_drop, drop_left]
  rfl

theorem find_blankLine_last (hline : 10 ∉ line ∨ 13 ∉ line) (hrest : crlf <+: rest) :
    find blankLine (line ++ (crlf ++ rest)) = some line.length := by
  refine find_eq_some_iff.mpr ⟨by simp, ?_, fun j hj => not_blankLine_of_lt hline hj⟩
  rw [drop_left]
  simpa [blankLine, crlf, cons_prefix_cons] using hrest

/-- **Lines end at the first empty line**, behind a first line that is one or has no return. -/
theorem isFrame_listing (hline : 10 ∉ line ∨ 13 ∉ line) (hlines : ∀ l ∈ lines, IsLine l) :
    IsFrame blankLine (line ++ (crlf ++ listing lines)) := by
  induction lines generalizing line with
  | nil =>
    refine ⟨line.length, find_blankLine_last hline (prefix_refl _), ?_⟩
    simp [listing, crlf, blankLine]
  | cons l lines ih =>
    obtain ⟨⟨hne, hfeed⟩, hlines⟩ := forall_mem_cons.mp hlines
    have hstart : ¬ crlf <+: listing (l :: lines) := by
      -- a line feed at its second place would be in the line, or behind its return
      obtain ⟨b, bs, rfl⟩ := exists_cons_of_ne_nil hne
      cases bs with
      | nil => simp [listing, crlf, cons_prefix_cons]
      | cons b' bs =>
        have hb' : 10 ≠ b' := fun heq => hfeed (heq ▸ mem_cons_of_mem _ mem_cons_self)
        simp [listing, crlf, cons_prefix_cons, hb']
    obtain ⟨i, hi, hlen⟩ := ih (.inl hfeed) hlines
    refine ⟨line.length + 2 + i, ?_, ?_⟩
    · rw [find_blankLine_line hline hstart]
      show (find blankLine (l ++ (crlf ++ listing lines))).map _ = _
      rw [hi]
      rfl
    · have hlisting : listing (l :: lines) = l ++ (crlf ++ listing lines) := rfl
      have hcrlf : crlf.length = 2 := rfl
      rw [length_append, length_append, hlisting, ← hlen]
      omega

/-! ## What every parse looks like -/

/-- The parser finds this very request in the text that is made of it. -/
structure Readable (info : HttpInfo) : Prop where
  method : 32 ∉ info.method
  url : 32 ∉ info.url
  version : 13 ∉ info.version
  lines : ∀ e ∈ info.headers.entries, 10 ∉ joinLine e ∧ splitLine (joinLine e) = some e

theorem mem_popReturn {b : UInt8} (hb : b ∈ popReturn line) : b ∈ line := by
  unfold popReturn at hb
  split at hb
  · exact mem_of_mem_dropLast hb
  · exact hb

theorem addLine_readable {headers : HeaderMap} (hline : 10 ∉ line)
    (h : ∀ e ∈ headers.entries, 10 ∉ joinLine e ∧ splitLine (joinLine e) = some e) :
    ∀ e ∈ (addLine headers line).entries, 10 ∉ joinLine e ∧ splitLine (joinLine e) = some e := by
  intro e he
  unfold addLine at he
  split at he
  · next key val hsplit =>
    rcases OrderedMap.mem_assign.mp he with rfl | ⟨-, he⟩
    · refine ⟨fun hfeed => hline (mem_popReturn (mem_of_splitLine hsplit ?_)),
        splitLine_join hsplit⟩
      simpa [joinLine] using hfeed
    · exact h e he
  · exact h e he

theorem parseHeaders_readable {fuel : Nat} {stream : InStream} {headers : HeaderMap}
    (h : ∀ e ∈ headers.entries, 10 ∉ joinLine e ∧ splitLine (joinLine e) = some e) :
    ∀ e ∈ (parseHeaders fuel stream headers).2.entries,
      10 ∉ joinLine e ∧ splitLine (joinLine e) = some e := by
  induction fuel generalizing stream headers with
  | zero => exact h
  | succ fuel ih =>
    simp only [parseHeaders]
    split
    · exact h
    · next stream' line hline =>
      split
      · exact h
      · exact ih (addLine_readable (InStream.notMem_of_getline hline) h)

theorem parseRequest_readable (request : Bytes) : Readable (parseRequest request) := by
  have hempty : ∀ e ∈ (OrderedMap.empty : HeaderMap).entries,
      10 ∉ joinLine e ∧ splitLine (joinLine e) = some e := nofun
  unfold parseRequest
  split
  · exact ⟨not_mem_nil, not_mem_nil, not_mem_nil, hempty⟩
  · next stream method hmethod =>
    have hmethod := InStream.notMem_of_getline hmethod
    split
    · exact ⟨hmethod, not_mem_nil, not_mem_nil, hempty⟩
    · next stream url hurl =>
      have hurl := InStream.notMem_of_getline hurl
      split
      · exact ⟨hmethod, hurl, not_mem_nil, hempty⟩
      · next stream version hversion =>
        exact ⟨hmethod, hurl, InStream.notMem_of_getline hversion, parseHeaders_readable hempty⟩

end Muses.HttpContext
