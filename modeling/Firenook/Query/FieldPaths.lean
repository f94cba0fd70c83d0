import Mathlib.Data.List.TakeWhile
import Mathlib.Tactic.Linarith

/-!
# Field paths — their spelling on the wire

A path is written with dots between its segments; a segment that is no identifier stands in
backticks, with a backslash before a backtick or a backslash. A written segment is read back with
what follows it (`readSegment_showSegment`), so a path is, except for one: `__name__` alone is the
document's name, and a field of that name is written the same way (**`wire_round_trip`**).
-/

namespace Firenook.FieldPaths

variable {chars segment rest : List Char}

open List Option

/-- A path, with segments as the characters Rust's `chars` yields. -/
inductive FieldPath where
  | documentId
  | field (segments : List (List Char))
  deriving DecidableEq

def backtick : Char := Char.ofNat 96

def backslash : Char := Char.ofNat 92

def isSimpleFieldSegment : List Char → Bool
  | [] => false
  | first :: rest => (first.isAlpha || first = '_') && rest.all fun c => c.isAlphanum || c = '_'

/-- `is_bare` is written out a second time in the source. -/
def isBare (segment : List Char) : Bool := isSimpleFieldSegment segment

/-! ### Reading -/

/-- What follows an opening backtick: the segment, and what is left after the closing one. -/
def quoted : List Char → Option (List Char × List Char)
  | [] => none
  | c :: rest =>
    if c = backtick then some ([], rest)
    else if c = backslash then
      match rest with
      | [] => none
      | next :: rest => (quoted rest).map fun read => (next :: read.1, read.2)
    else (quoted rest).map fun read => (c :: read.1, read.2)

def bare (chars : List Char) : Option (List Char × List Char) :=
  let segment := chars.takeWhile (· ≠ '.')
  if isSimpleFieldSegment segment then some (segment, chars.dropWhile (· ≠ '.')) else none

/-- One round of the loop of `parse_wire`, up to the separator; an empty segment is refused. -/
def readSegment : List Char → Option (List Char × List Char)
  | [] => none
  | c :: rest => (if c = backtick then quoted rest else bare (c :: rest)).filter (!·.1.isEmpty)

theorem length_quoted : ∀ {read : List Char × List Char},
    quoted chars = some read → read.2.length < chars.length := by
  fun_induction quoted chars with
  | case1 => nofun
  | case2 => simp_all
  | case3 => nofun
  | case4 _ _ _ ih =>
    intro read h
    obtain ⟨inner, hinn, rfl⟩ := map_eq_some_iff.mp h
    exact (ih hinn).trans (by simp only [length_cons]; omega)
  | case5 _ _ _ _ ih =>
    intro read h
    obtain ⟨inner, hinn, rfl⟩ := map_eq_some_iff.mp h
    exact (ih hinn).trans (by simp)

theorem readSegment_eq_some (h : readSegment chars = some (segment, rest)) :
    segment ≠ [] ∧ rest.length < chars.length := by
  cases chars with
  | nil => cases h
  | cons c chars =>
    obtain ⟨hrd, hkp⟩ := filter_eq_some_iff.mp h
    have hne : segment ≠ [] := by simpa using hkp
    refine ⟨hne, ?_⟩
    split at hrd
    · exact (length_quoted hrd).trans (by simp)
    have hlen := length_pos_iff.mpr hne
    have hspl := congrArg length (takeWhile_append_dropWhile (p := (· ≠ '.')) (l := c :: chars))
    simp only [bare, ite_none_right_eq_some, some.injEq, Prod.mk.injEq] at hrd
    rw [length_append, hrd.2.1, hrd.2.2] at hspl
    omega

/-- The loop of `parse_wire`: after a segment the path ends or goes on behind a dot. -/
def parseSegments (chars : List Char) : Option (List (List Char)) :=
  match _h : readSegment chars with
  | none => none
  | some (segment, rest) =>
    match rest with
    | [] => some [segment]
    | [_] => none
    | dot :: next :: more =>
      if dot = '.' then (parseSegments (next :: more)).map (segment :: ·) else none
termination_by chars.length
decreasing_by
  have := (readSegment_eq_some _h).2
  simp_all only [length_cons]
  omega

def nameText : List Char := "__name__".toList

/-- `parse_wire`; `none` is `InvalidFieldPath`. -/
def parseWire (path : List Char) : Option FieldPath :=
  if path = nameText then some .documentId else (parseSegments path).map .field

/-! ### Writing -/

def escape (segment : List Char) : List Char :=
  segment.flatMap fun c => if c = backtick ∨ c = backslash then [backslash, c] else [c]

def showSegment (segment : List Char) : List Char :=
  if isBare segment then segment else backtick :: (escape segment ++ [backtick])

def showSegments : List (List Char) → List Char
  | [] => []
  | [s] => showSegment s
  | s :: t :: rest => showSegment s ++ '.' :: showSegments (t :: rest)

/-- `Display`. -/
def FieldPath.toChars : FieldPath → List Char
  | .documentId => nameText
  | .field segments => showSegments segments

/-! ### Round trips -/

theorem quoted_escape (segment rest : List Char) :
    quoted (escape segment ++ backtick :: rest) = some (segment, rest) := by
  have hne : backslash ≠ backtick := by decide
  induction segment with
  | nil =>
    rw [escape, flatMap_nil, quoted.eq_def]
    exact if_pos rfl
  | cons c segment ih =>
    rw [escape, flatMap_cons, ← escape]
    by_cases hc : c = backtick ∨ c = backslash
    · rw [if_pos hc, quoted.eq_def]
      simp [hne, ih]
    · obtain ⟨htc, hsl⟩ := not_or.mp hc
      rw [if_neg hc, quoted.eq_def]
      simp [htc, hsl, ih]

/-- A written segment is read back, before the end or a dot. -/
theorem readSegment_showSegment (rest : List Char) (hne : segment ≠ [])
    (hrs : ∀ c ∈ rest.head?, c = '.') :
    readSegment (showSegment segment ++ rest) = some (segment, rest) := by
  unfold showSegment
  split
  · next hbr =>
    cases segment with
    | nil => exact absurd rfl hne
    | cons c segment =>
      rw [isBare] at hbr
      obtain ⟨hfst, hall⟩ := (Bool.and_eq_true _ _).mp hbr
      have htc : c ≠ backtick := by rintro rfl; revert hfst; decide
      have hdot : ∀ x ∈ c :: segment, decide (x ≠ '.') = true := by
        rintro x hx
        rw [decide_eq_true_eq]
        rintro rfl
        rcases mem_cons.mp hx with rfl | hx
        · revert hfst; decide
        · exact absurd (all_eq_true.mp hall _ hx) (by decide)
      have hst : rest.takeWhile (· ≠ '.') = [] ∧ rest.dropWhile (· ≠ '.') = rest := by
        cases rest with
        | nil => exact ⟨rfl, rfl⟩
        | cons d rest => simp [hrs d rfl]
      rw [cons_append, readSegment, if_neg htc, bare, ← cons_append,
        takeWhile_append_of_pos hdot, dropWhile_append_of_pos hdot, hst.1, hst.2, append_nil,
        if_pos hbr]
      rfl
  · rw [cons_append, append_assoc, readSegment, singleton_append, quoted_escape]
    simp [hne]

theorem parseSegments_of_read :
    readSegment chars = some (segment, rest) → parseSegments chars = match rest with
      | [] => some [segment]
      | [_] => none
      | dot :: next :: more =>
        if dot = '.' then (parseSegments (next :: more)).map (segment :: ·) else none := by
  intro h
  rw [parseSegments]
  split
  · next hnn => cases h.symm.trans hnn
  · next heq =>
    cases h.symm.trans heq
    split <;> rfl

theorem parseSegments_showSegments : ∀ {segments : List (List Char)}, segments ≠ [] →
    (∀ s ∈ segments, s ≠ []) → parseSegments (showSegments segments) = some segments
  | [], h, _ => absurd rfl h
  | [s], _, hs => by
    have hrd := readSegment_showSegment [] (hs s mem_cons_self) nofun
    rw [append_nil] at hrd
    rw [showSegments, parseSegments_of_read hrd]
  | s :: t :: more, _, hs => by
    have hrd := readSegment_showSegment ('.' :: showSegments (t :: more))
      (hs s mem_cons_self) (by simp)
    have ih := parseSegments_showSegments (cons_ne_nil t more) fun s h => hs s (mem_cons_of_mem _ h)
    rw [showSegments, parseSegments_of_read hrd]
    cases hsh : showSegments (t :: more) with
    | nil => rw [hsh, parseSegments] at ih; cases ih
    | cons c rest =>
      rw [hsh] at ih
      simp [ih]

/-- What the loop accepts has segments, and none of them is empty. -/
theorem parseSegments_eq_some {segments : List (List Char)}
    (h : parseSegments chars = some segments) : segments ≠ [] ∧ ∀ s ∈ segments, s ≠ [] := by
  induction hn : chars.length using Nat.strong_induction_on generalizing chars segments with
  | _ n ih =>
    cases hrd : readSegment chars with
    | none =>
      rw [parseSegments] at h
      split at h <;> simp_all
    | some read =>
      obtain ⟨segment, rest⟩ := read
      obtain ⟨hne, hlen⟩ := readSegment_eq_some hrd
      rw [parseSegments_of_read hrd] at h
      split at h
      · cases h
        simpa using hne
      · cases h
      split at h
      · obtain ⟨others, hot, rfl⟩ := map_eq_some_iff.mp h
        rw [length_cons] at hlen
        have htl := (ih _ (by omega) hot rfl).2
        exact ⟨cons_ne_nil _ _, fun s hs => (mem_cons.mp hs).elim (· ▸ hne) (htl s)⟩
      · cases h

/-- `FieldPath::field` builds no other. -/
def FieldPath.Valid : FieldPath → Prop
  | .documentId => True
  | .field segments => segments ≠ [] ∧ ∀ s ∈ segments, s ≠ []

theorem parseWire_toChars {p : FieldPath} (h : p.Valid) :
    parseWire p.toChars = some p ↔ p ≠ .field [nameText] := by
  cases p with
  | documentId => exact iff_of_true rfl nofun
  | field segments =>
    have hprs := parseSegments_showSegments h.1 h.2
    have hname : parseSegments nameText = some [nameText] :=
      parseSegments_showSegments (cons_ne_nil nameText []) (by decide)
    rw [FieldPath.toChars, parseWire]
    split
    · next heq =>
      rw [heq, hname] at hprs
      cases hprs
      exact iff_of_false nofun (absurd rfl)
    · next hne =>
      rw [hprs]
      refine iff_of_true rfl fun heq => hne ?_
      cases heq
      rfl

/-- **Every path but one survives the wire**, and so does what was read from there: only a field
`__name__` comes back as the document's name. -/
theorem wire_round_trip (path : List Char) (p : FieldPath) :
    (p.Valid → (parseWire p.toChars = some p ↔ p ≠ .field [nameText])) ∧
      (parseWire path = some p → (parseWire p.toChars = some p ↔ p ≠ .field [nameText])) := by
  refine ⟨fun h => parseWire_toChars h, fun h => parseWire_toChars ?_⟩
  rw [parseWire] at h
  split at h
  · cases h
    trivial
  · obtain ⟨segments, hsg, rfl⟩ := map_eq_some_iff.mp h
    exact parseSegments_eq_some hsg

theorem wire_name : (FieldPath.field [nameText]).Valid ∧
    parseWire (FieldPath.field [nameText]).toChars = some .documentId :=
  ⟨⟨by decide, by decide⟩, rfl⟩

end Firenook.FieldPaths
