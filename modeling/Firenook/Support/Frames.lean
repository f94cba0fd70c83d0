import Mathlib.Data.List.Sort
import Mathlib.Tactic.Linarith

/-!
# Frames — text cut by lengths in UTF-16 code units

A frame is the length of a text in UTF-16 code units, in decimal, a newline, and the text. A reader
takes frames off the front while they are whole. From a stream that was cut anywhere it reads the
frames that were whole before the cut (`readFrames_take`), and no fewer from a longer part of it
(`whole_mono`).
-/

namespace Firenook.Frames

open List Option

/-- The UTF-16 code units of a character. -/
def units (c : Char) : Nat := if c.toNat < 0x10000 then 1 else 2

def length16 (text : List Char) : Nat := (text.map units).sum

def frame (text : List Char) : List Char := Nat.toDigits 10 (length16 text) ++ '\n' :: text

/-- As many characters as fill `n` units exactly, and the rest. -/
def takeUnits : Nat → List Char → Option (List Char × List Char)
  | 0, rest => some ([], rest)
  | _ + 1, [] => none
  | n + 1, c :: cs =>
    if units c ≤ n + 1 then
      (takeUnits (n + 1 - units c) cs).map fun r => (c :: r.1, r.2)
    else none

/-- The length a frame begins with. -/
def readLength (text : List Char) : Option (Nat × List Char) :=
  match text.dropWhile Char.isDigit with
  | '\n' :: rest => some (Nat.ofDigitChars 10 (text.takeWhile Char.isDigit) 0, rest)
  | _ => none

def readFrame (text : List Char) : Option (List Char × List Char) :=
  (readLength text).bind fun r => takeUnits r.1 r.2

/-- The whole frames at the front, at most `fuel` of them. -/
def readFrames : Nat → List Char → List (List Char)
  | 0, _ => []
  | fuel + 1, text =>
    match readFrame text with
    | none => []
    | some (text, rest) => text :: readFrames fuel rest

/-! ### One frame -/

theorem units_pos (c : Char) : 0 < units c := by
  unfold units
  split <;> omega

theorem length16_cons (c : Char) (text : List Char) :
    length16 (c :: text) = units c + length16 text := rfl

theorem takeUnits_cons (c : Char) (n : Nat) (text : List Char) :
    takeUnits (units c + n) (c :: text) = (takeUnits n text).map fun r => (c :: r.1, r.2) := by
  obtain ⟨k, hk⟩ := Nat.exists_eq_succ_of_ne_zero (units_pos c).ne'
  rw [hk, Nat.succ_add, takeUnits, if_pos (by omega)]
  congr 2
  omega

theorem takeUnits_append (text rest : List Char) :
    takeUnits (length16 text) (text ++ rest) = some (text, rest) := by
  induction text with
  | nil => rw [show length16 [] = 0 from rfl, takeUnits, nil_append]
  | cons c text ih => rw [length16_cons, cons_append, takeUnits_cons, ih, map_some]

/-- A text that was cut does not fill its length. -/
theorem takeUnits_of_cut : ∀ {text cut : List Char}, cut <+: text → cut.length < text.length →
    takeUnits (length16 text) cut = none
  | c :: text, [], _, _ => by
    obtain ⟨k, hk⟩ := Nat.exists_eq_succ_of_ne_zero (units_pos c).ne'
    rw [length16_cons, hk, Nat.succ_add, takeUnits]
  | c :: text, d :: cut, hcut, hlt => by
    obtain ⟨rfl, hrs⟩ := cons_prefix_cons.mp hcut
    rw [length16_cons, takeUnits_cons, takeUnits_of_cut hrs (Nat.lt_of_succ_lt_succ hlt), map_none]

theorem isDigit_toDigits (n : Nat) : ∀ c ∈ Nat.toDigits 10 n, c.isDigit = true :=
  fun _ hc => Nat.isDigit_of_mem_toDigits (by decide) (by decide) hc

theorem readLength_append (n : Nat) (rest : List Char) :
    readLength (Nat.toDigits 10 n ++ '\n' :: rest) = some (n, rest) := by
  have hdr : (Nat.toDigits 10 n ++ '\n' :: rest).dropWhile Char.isDigit = '\n' :: rest := by
    rw [dropWhile_append_of_pos (isDigit_toDigits n)]
    rfl
  have htk : (Nat.toDigits 10 n ++ '\n' :: rest).takeWhile Char.isDigit = Nat.toDigits 10 n := by
    rw [takeWhile_append_of_pos (isDigit_toDigits n)]
    exact append_nil _
  rw [readLength, hdr, htk, Nat.ofDigitChars_ten_toDigits]
  rfl

theorem readLength_of_digits {text : List Char} (h : ∀ c ∈ text, c.isDigit = true) :
    readLength text = none := by
  have hdr : (text ++ []).dropWhile Char.isDigit = [].dropWhile Char.isDigit :=
    dropWhile_append_of_pos h
  rw [append_nil] at hdr
  rw [readLength, hdr]
  rfl

theorem readFrame_append (text rest : List Char) :
    readFrame (frame text ++ rest) = some (text, rest) := by
  rw [readFrame, frame, append_assoc, cons_append, readLength_append, bind_some, takeUnits_append]

theorem readFrame_of_cut {text cut : List Char} (hcut : cut <+: frame text)
    (hlt : cut.length < (frame text).length) : readFrame cut = none := by
  rw [frame] at hcut hlt
  rcases prefix_or_prefix_of_prefix hcut (prefix_append _ _) with hdgt | ⟨more, rfl⟩
  · rw [readFrame, readLength_of_digits fun c hc => isDigit_toDigits _ c (hdgt.subset hc),
      bind_none]
  have hmr := (prefix_append_right_inj _).mp hcut
  cases more with
  | nil =>
    rw [append_nil, readFrame, readLength_of_digits (isDigit_toDigits _), bind_none]
  | cons d more =>
    obtain ⟨rfl, htx⟩ := cons_prefix_cons.mp hmr
    rw [readFrame, readLength_append]
    refine takeUnits_of_cut htx ?_
    simpa using hlt

/-! ### A stream of frames -/

/-- How many frames are whole in the first `n` characters. -/
def whole : List (List Char) → Nat → Nat
  | [], _ => 0
  | text :: texts, n =>
    if (frame text).length ≤ n then whole texts (n - (frame text).length) + 1 else 0

theorem whole_mono : ∀ (texts : List (List Char)) {m n : Nat}, m ≤ n → whole texts m ≤ whole texts n
  | [], _, _, _ => Nat.le_refl _
  | text :: texts, m, n, h => by
    rw [whole, whole]
    split
    · rw [if_pos (by omega)]
      exact Nat.succ_le_succ (whole_mono texts (by omega))
    · exact Nat.zero_le _

theorem whole_flatMap : ∀ texts : List (List Char),
    whole texts (texts.flatMap frame).length = texts.length
  | [] => rfl
  | text :: texts => by
    rw [flatMap_cons, length_append, whole, if_pos (Nat.le_add_right _ _),
      Nat.add_sub_cancel_left, whole_flatMap texts, length_cons]

/-- **A stream that was cut** yields the frames that were whole. -/
theorem readFrames_take : ∀ {texts : List (List Char)} {fuel n : Nat}, n ≤ fuel →
    readFrames fuel ((texts.flatMap frame).take n) = texts.take (whole texts n)
  | [], 0, _, _ => rfl
  | [], fuel + 1, n, _ => by
    rw [flatMap_nil, take_nil]
    rfl
  | text :: texts, fuel, n, h => by
    have hpos : 0 < (frame text).length := by
      rw [frame, length_append, length_cons]
      omega
    rw [flatMap_cons, take_append, whole]
    split
    · next hle =>
      obtain ⟨fuel, rfl⟩ := Nat.exists_eq_succ_of_ne_zero (show fuel ≠ 0 by omega)
      rw [take_of_length_le hle, readFrames, readFrame_append, take_succ_cons]
      show text :: _ = _
      rw [readFrames_take (by omega)]
    · next hlt =>
      have hcut : readFrame ((frame text).take n) = none := by
        have hpre := take_prefix n (frame text)
        refine readFrame_of_cut hpre ?_
        rw [length_take]
        omega
      rw [show n - (frame text).length = 0 by omega, take_zero, append_nil, take_zero]
      cases fuel with
      | zero => rfl
      | succ fuel => rw [readFrames, hcut]

end Firenook.Frames
