import Mathlib

/-!
# Byte texts, as the C++ library reads them

The parts of `std::istringstream`, `std::stoull` and `std::format` that programs use to take a
text apart and to put one together, on lists of bytes.
-/

namespace Muses.Core

abbrev Bytes := List UInt8

namespace Text

def ascii (s : String) : Bytes := s.toList.map fun c => c.toNat.toUInt8

def decimal (n : Nat) : Bytes := (Nat.toDigits 10 n).map fun c => c.toNat.toUInt8

/-! ## Cutting at a delimiter -/

def cut (delim : UInt8) : Bytes → Option (Bytes × Bytes)
  | [] => none
  | b :: bs => if b = delim then some ([], bs) else (cut delim bs).map fun p => (b :: p.1, p.2)

variable {delim : UInt8} {front text : Bytes}

theorem cut_append (rest : Bytes) (h : delim ∉ front) :
    cut delim (front ++ delim :: rest) = some (front, rest) := by
  induction front with
  | nil => simp [cut]
  | cons b bs ih =>
    obtain ⟨hb, hbs⟩ : delim ≠ b ∧ delim ∉ bs := by simpa using h
    simp [cut, Ne.symm hb, ih hbs]

theorem cut_eq_some_iff {rest : Bytes} :
    cut delim text = some (front, rest) ↔ text = front ++ delim :: rest ∧ delim ∉ front := by
  constructor
  · induction text generalizing front with
    | nil => simp [cut]
    | cons b bs ih =>
      simp only [cut]
      split
      case isTrue hb =>
        rintro ⟨⟩
        simp [hb]
      case isFalse hb =>
        intro h
        obtain ⟨⟨front', rest'⟩, hcut, hpair⟩ := Option.map_eq_some_iff.mp h
        cases hpair
        obtain ⟨rfl, hnot⟩ := ih hcut
        exact ⟨rfl, by simp [Ne.symm hb, hnot]⟩
  · rintro ⟨rfl, hnot⟩
    exact cut_append rest hnot

theorem cut_eq_none_iff : cut delim text = none ↔ delim ∉ text := by
  induction text with
  | nil => simp [cut]
  | cons b bs ih =>
    simp only [cut]
    split
    case isTrue hb => simp [hb]
    case isFalse hb => simp [ih, Ne.symm hb]

end Text

/-! ## Input streams -/

structure InStream where
  rest : Bytes
  eof : Bool := false
  fail : Bool := false
  deriving DecidableEq, Repr

namespace InStream

open Text

def good (s : InStream) : Bool := !s.eof && !s.fail

def getline (s : InStream) (delim : UInt8) : InStream × Option Bytes :=
  if s.good then
    match cut delim s.rest with
    | some (line, rest) => ({ s with rest := rest }, some line)
    | none =>
        if s.rest = [] then ({ s with eof := true, fail := true }, none)
        else ({ s with rest := [], eof := true }, some s.rest)
  else ({ s with fail := true }, none)

def get (s : InStream) : InStream :=
  match s.good, s.rest with
  | true, _ :: rest => { s with rest := rest }
  | true, [] => { s with eof := true, fail := true }
  | false, _ => { s with fail := true }

/-- `stream.tellg()` on a stream over a text of the given size; `none` stands for `-1`, which a
stream that has seen the end of its text answers as well. -/
def tellg (s : InStream) (size : Nat) : Option Nat :=
  if s.good then some (size - s.rest.length) else none

variable {delim : UInt8} {line : Bytes}

theorem getline_of_notMem (rest : Bytes) (h : delim ∉ line) :
    getline ⟨line ++ delim :: rest, false, false⟩ delim = (⟨rest, false, false⟩, some line) := by
  simp [getline, good, cut_append rest h]

theorem notMem_of_getline {s s' : InStream} (h : s.getline delim = (s', some line)) :
    delim ∉ line := by
  unfold getline at h
  split at h
  · split at h
    case h_1 hcut =>
      cases h
      exact (cut_eq_some_iff.mp hcut).2
    case h_2 hcut =>
      split at h
      · cases h
      · cases h
        exact cut_eq_none_iff.mp hcut
  · cases h

end InStream

/-! ## Reading numbers -/

namespace Text

def isSpace (b : UInt8) : Bool := b = 32 || (9 ≤ b && b ≤ 13)

def isDigit (b : UInt8) : Bool := 48 ≤ b && b ≤ 57

def toLower (b : UInt8) : UInt8 := if 65 ≤ b && b ≤ 90 then b + 32 else b

variable {b : UInt8}

theorem eq_of_toLower_eq {c : UInt8} (h : toLower b = c) (hc : c < 97) : b = c := by
  unfold toLower at h
  split at h
  · next hrange =>
    have hle : 65 ≤ b.toNat ∧ b.toNat ≤ 90 := by
      simpa [UInt8.le_iff_toNat_le] using hrange
    have hsum := congrArg UInt8.toNat h
    rw [UInt8.toNat_add] at hsum
    have h32 : (32 : UInt8).toNat = 32 := rfl
    have h97 : c.toNat < 97 := hc
    omega
  · exact h

def decimalValue (ds : Bytes) : Nat := ds.foldl (fun n d => 10 * n + (d.toNat - 48)) 0

/-- `std::stoull(text)`: leading white space is skipped, a sign is accepted, and digits are read
as far as they go; a negative number wraps around. `none` stands for the two exceptions: no digit,
or a number that does not fit. -/
def stoull (text : Bytes) : Option Nat :=
  let s := text.dropWhile isSpace
  let negative := s.head? = some 45
  let digits := (if s.head? = some 43 ∨ negative then s.tail else s).takeWhile isDigit
  let n := decimalValue digits
  if digits = [] ∨ 2 ^ 64 ≤ n then none
  else some (if negative then (2 ^ 64 - n) % 2 ^ 64 else n)

theorem isDigit_ne_sign (h : isDigit b = true) : isSpace b = false ∧ b ≠ 43 ∧ b ≠ 45 := by
  have hrange : 48 ≤ b.toNat ∧ b.toNat ≤ 57 := by
    simpa [isDigit, UInt8.le_iff_toNat_le] using h
  refine ⟨?_, ?_, ?_⟩
  · have : b.toNat ≠ 32 ∧ 13 < b.toNat := by omega
    simp [isSpace, UInt8.le_iff_toNat_le, ← UInt8.toNat_inj, this]
  · rintro rfl
    simp at hrange
  · rintro rfl
    simp at hrange

/-- **Reading a number.** White space, digits that denote `n`, and anything that does not go on
with a digit. -/
theorem stoull_eq_some {pre digits post : Bytes} (hpre : ∀ b ∈ pre, isSpace b = true)
    (hdigits : ∀ b ∈ digits, isDigit b = true) (hne : digits ≠ [])
    (hpost : ∀ b ∈ post.head?, isDigit b = false) (hfits : decimalValue digits < 2 ^ 64) :
    stoull (pre ++ (digits ++ post)) = some (decimalValue digits) := by
  obtain ⟨d, ds, rfl⟩ := List.exists_cons_of_ne_nil hne
  obtain ⟨hspace, hplus, hminus⟩ := isDigit_ne_sign (hdigits d (by simp))
  have hskip : (pre ++ (d :: ds ++ post)).dropWhile isSpace = d :: ds ++ post := by
    rw [List.dropWhile_append_of_pos hpre]
    simp [hspace]
  have hstop : post.takeWhile isDigit = [] := by
    cases post with
    | nil => rfl
    | cons b bs => simp [hpost b (by simp)]
  have hread : (d :: ds ++ post).takeWhile isDigit = d :: ds := by
    rw [List.takeWhile_append_of_pos hdigits, hstop, List.append_nil]
  have hsmall : ¬ 2 ^ 64 ≤ decimalValue (d :: ds) := by omega
  simp only [List.cons_append] at hread hskip
  simp only [stoull, List.cons_append, hskip, List.head?_cons, Option.some.injEq, hplus, hminus,
    or_self, if_false, hread, List.cons_ne_nil, hsmall]

/-! ## Writing numbers -/

theorem toNat_of_mem_toDigits {n : Nat} {c : Char} (hc : c ∈ Nat.toDigits 10 n) :
    c.toNat.toUInt8.toNat = c.toNat ∧ 48 ≤ c.toNat ∧ c.toNat ≤ 57 := by
  have hdigit := Nat.isDigit_of_mem_toDigits (by decide) (by decide) hc
  simp only [Char.isDigit, ge_iff_le, Bool.and_eq_true, decide_eq_true_eq,
    UInt32.le_iff_toNat_le] at hdigit
  have hrange : 48 ≤ c.toNat ∧ c.toNat ≤ 57 := hdigit
  refine ⟨?_, hrange⟩
  rw [Nat.toUInt8, UInt8.toNat_ofNat']
  omega

theorem isDigit_of_mem_decimal {n : Nat} (hb : b ∈ decimal n) : isDigit b = true := by
  obtain ⟨c, hc, rfl⟩ := List.mem_map.mp hb
  obtain ⟨hnat, hrange⟩ := toNat_of_mem_toDigits hc
  simp only [isDigit, UInt8.le_iff_toNat_le, hnat, Bool.and_eq_true, decide_eq_true_eq]
  exact hrange

theorem decimal_ne_nil (n : Nat) : decimal n ≠ [] := by
  simp [decimal, Nat.toDigits_ne_nil]

theorem decimalValue_decimal (n : Nat) : decimalValue (decimal n) = n := by
  have hfold (cs : List Char) (hcs : ∀ c ∈ cs, c.toNat.toUInt8.toNat = c.toNat) (i : Nat) :
      (cs.map fun c => c.toNat.toUInt8).foldl (fun n d => 10 * n + (d.toNat - 48)) i =
        Nat.ofDigitChars 10 cs i := by
    induction cs generalizing i with
    | nil => rfl
    | cons c cs ih =>
      obtain ⟨hc, hcs⟩ := List.forall_mem_cons.mp hcs
      rw [List.map_cons, List.foldl_cons, ih hcs, Nat.ofDigitChars_cons, hc]
      rfl
  rw [decimalValue, decimal, hfold _ fun c hc => (toNat_of_mem_toDigits hc).1,
    Nat.ofDigitChars_ten_toDigits]

end Text

end Muses.Core
