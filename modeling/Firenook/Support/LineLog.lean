import Mathlib.Logic.Encodable.Basic

/-!
# Support — Line log

A log of records, each one line of text. Only the record's codec is assumed: it reads back what it
wrote, its text holds no newline, and it refuses a text cut short. A log whose last line was cut at
any byte reads as the lines before the cut, with the last record whole or not at all
(`read_render_cut`).
-/

namespace Firenook.LineLog

variable {text cut : List UInt8}

open List

/-- The byte that ends a line. -/
def newline : UInt8 := 10

/-- A record's text: read back exactly, on one line, and refused when cut short. -/
structure Codec (α : Type) where
  encode : α → List UInt8
  parse : List UInt8 → Option α
  parse_encode : ∀ a, parse (encode a) = some a
  one_line : ∀ a, newline ∉ encode a
  parse_cut : ∀ {a text}, text <+: encode a → text ≠ encode a → parse text = none

/-- The lines of a text, the last one possibly without its newline. -/
def splitFrom (line : List UInt8) : List UInt8 → List (List UInt8)
  | [] => if line.isEmpty then [] else [line]
  | b :: rest => if b = newline then line :: splitFrom [] rest else splitFrom (line ++ [b]) rest

theorem splitFrom_line (h : newline ∉ text) (rest line : List UInt8) :
    splitFrom line (text ++ newline :: rest) = (line ++ text) :: splitFrom [] rest := by
  induction text generalizing line with
  | nil =>
    simp [splitFrom]
  | cons b text ih =>
    obtain ⟨hb, htx⟩ := not_or.mp (mt mem_cons.mpr h)
    rw [cons_append, splitFrom, if_neg (Ne.symm hb), ih htx]
    simp

theorem splitFrom_last (h : newline ∉ text) (line : List UInt8) :
    splitFrom line text = if (line ++ text).isEmpty then [] else [line ++ text] := by
  induction text generalizing line with
  | nil =>
    simp [splitFrom]
  | cons b text ih =>
    obtain ⟨hb, htx⟩ := not_or.mp (mt mem_cons.mpr h)
    rw [splitFrom, if_neg (Ne.symm hb), ih htx]
    simp

section Reading
variable {α : Type} (codec : Codec α)

variable (records : List α)

/-- The records of the lines up to the first that does not parse. -/
def parseLines : List (List UInt8) → List α
  | [] => []
  | line :: rest =>
    match codec.parse line with
    | none => []
    | some a => a :: parseLines rest

def read (text : List UInt8) : List α :=
  parseLines codec (splitFrom [] text)

/-- One record's line. -/
def line (a : α) : List UInt8 := codec.encode a ++ [newline]

/-- The text of a log. -/
def render (records : List α) : List UInt8 := records.flatMap (line codec)

theorem render_append (a : α) :
    render codec (records ++ [a]) = render codec records ++ line codec a := by
  simp [render]

theorem read_render_append (tail : List UInt8) :
    read codec (render codec records ++ tail) = records ++ read codec tail := by
  induction records with
  | nil => rfl
  | cons a records ih =>
    have hspl := splitFrom_line (codec.one_line a) (render codec records ++ tail) []
    rw [nil_append] at hspl
    have htx : render codec (a :: records) ++ tail
        = codec.encode a ++ newline :: (render codec records ++ tail) := by
      simp [render, line]
    rw [htx, read, hspl, parseLines, codec.parse_encode]
    exact congrArg (a :: ·) ih

/-- A cut line reads as its whole record or as nothing. -/
theorem read_cut {a : α} (h : cut <+: line codec a) :
    read codec cut = [] ∨ read codec cut = [a] := by
  rcases prefix_concat_iff.mp h with rfl | h
  · exact .inr (by simpa [read, splitFrom, parseLines, render, line] using
      read_render_append codec [a] [])
  have hone : newline ∉ cut := fun hmem => codec.one_line a (h.subset hmem)
  rw [read, splitFrom_last hone, nil_append]
  by_cases hemp : cut.isEmpty
  · rw [if_pos hemp]
    exact .inl rfl
  rw [if_neg hemp, parseLines]
  by_cases hwhl : cut = codec.encode a
  · rw [hwhl, codec.parse_encode]
    exact .inr rfl
  · rw [codec.parse_cut h hwhl]
    exact .inl rfl

/-- **A torn log reads as the lines before the cut**, with the last record whole or not at all. -/
theorem read_render_cut {a : α} (h : cut <+: line codec a) :
    read codec (render codec records ++ cut) = records ∨
      read codec (render codec records ++ cut) = records ++ [a] := by
  rw [read_render_append]
  rcases read_cut codec h with h | h <;> rw [h]
  · exact .inl (append_nil records)
  · exact .inr rfl

theorem read_render : read codec (render codec records) = records := by
  simpa [read, splitFrom, parseLines] using read_render_append codec records []

end Reading

def Codec.unary (α : Type) [Encodable α] : Codec α where
  encode a := replicate (Encodable.encode a) 49 ++ [59]
  parse text := if text.getLast? = some 59 then Encodable.decode (text.length - 1) else none
  parse_encode a := by simp
  one_line a := by simp [newline]
  parse_cut := by
    intro a text h hne
    have hsub : text <+: replicate (Encodable.encode a) 49 :=
      (prefix_concat_iff.mp h).resolve_left hne
    rw [if_neg]
    intro hlast
    have hmem := eq_of_mem_replicate (hsub.subset (mem_of_getLast? hlast))
    exact absurd hmem (by decide)

end Firenook.LineLog
