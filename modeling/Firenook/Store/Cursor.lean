import Firenook.Support.ByteCodes
import Firenook.Store.Write

/-!
# Cursor — walking document keys under a path prefix

A key cursor walks the documents of one database whose path starts with a prefix, in byte order,
and can be sent ahead to a path. What it returns is the first visible key from a floor on
(`firstFrom`): the floor starts at the prefix, moves just past a key when it is returned and up to
a path when it is sought.

A cursor that keeps to its floor (`Tracks`) is determined by what is visible as long as no call
sends it back (`Tracks.trace_eq`). The memory cursor keeps to it whatever the calls are, so that
each key it returns is the least one after all keys returned and from all paths sought on
(`MemoryCursor.follows`).
-/

namespace Firenook

open List Std Ordering TransCmp LexOrder

variable {k : DocumentKey} {visible returned : List DocumentKey} {floor path : List UInt8}
  {sought : List (List UInt8)}

/-! ### Cursors and their traces -/

/-- A cursor over states of one type. -/
structure Cursor (σ : Type) where
  next : σ → Option DocumentKey × σ
  seek : σ → List UInt8 → σ

inductive CursorCall where
  | next
  | seek (path : List UInt8)

/-- What a call of a cursor shows. -/
inductive CursorEvent where
  | returned (key : Option DocumentKey)
  | sought (path : List UInt8)
  deriving DecidableEq

def Cursor.trace {σ : Type} (c : Cursor σ) : σ → List CursorCall → List CursorEvent
  | _, [] => []
  | s, .next :: calls => .returned (c.next s).1 :: c.trace (c.next s).2 calls
  | s, .seek path :: calls => .sought path :: c.trace (c.seek s path) calls

/-- Every path sought extends the prefix. -/
def Extending (start : List UInt8) (calls : List CursorCall) : Prop :=
  ∀ path, .seek path ∈ calls → start <+: path

/-! ### What a trace should be -/

section Specification

variable (docs : Documents) (db : DatabaseName) (start : List UInt8)

/-- A key a cursor may still return: visible, after every key returned and from every path sought
on. -/
structure Eligible (returned : List DocumentKey) (sought : List (List UInt8)) (k : DocumentKey) :
    Prop where
  visible : k ∈ docs
  database : k.database = db
  extended : start <+: k.path.bytes
  after : ∀ r ∈ returned, compare r.path.bytes k.path.bytes = .lt
  reached : ∀ path ∈ sought, (compare path k.path.bytes).isLE

/-- The least eligible key, or no key when there is none. -/
def IsNext (returned : List DocumentKey) (sought : List (List UInt8)) : Option DocumentKey → Prop
  | some k => Eligible docs db start returned sought k ∧
      ∀ j, Eligible docs db start returned sought j →
        (compare k.path.bytes j.path.bytes).isLE
  | none => ∀ k, ¬Eligible docs db start returned sought k

/-- Each key of the trace is the least eligible one when it is returned. -/
def Follows : List DocumentKey → List (List UInt8) → List CursorEvent → Prop
  | _, _, [] => True
  | returned, sought, .returned key :: events =>
    IsNext docs db start returned sought key ∧
      Follows (key.toList ++ returned) sought events
  | returned, sought, .sought path :: events => Follows returned (path :: sought) events

/-- No call sends the cursor back: a path sought is after every key returned, and from every path
sought before on. -/
def Forward : List DocumentKey → List (List UInt8) → List CursorEvent → Prop
  | _, _, [] => True
  | returned, sought, .returned key :: events => Forward (key.toList ++ returned) sought events
  | returned, sought, .sought path :: events =>
    (∀ r ∈ returned, compare r.path.bytes path = .lt) ∧
      (∀ earlier ∈ sought, (compare earlier path).isLE) ∧
      Forward returned (path :: sought) events

/-! ### Visible keys -/

def inScope (k : DocumentKey) : Bool := k.database = db && start.isPrefixOf k.path.bytes

/-- The visible keys, in byte order. -/
def visibleKeys : List DocumentKey := docs.keys.filter (inScope db start)

end Specification

def firstFrom (visible : List DocumentKey) (floor : List UInt8) : Option DocumentKey :=
  visible.find? fun k => (compare floor k.path.bytes).isLE

/-- The least path after a key's. -/
def after (k : DocumentKey) : List UInt8 := k.path.bytes ++ [0]

variable {docs : Documents} {db : DatabaseName} {start : List UInt8}

theorem inScope_iff :
    inScope db start k = true ↔ k.database = db ∧ start <+: k.path.bytes := by
  simp [inScope]

theorem mem_visibleKeys : k ∈ visibleKeys docs db start ↔
      k ∈ docs ∧ k.database = db ∧ start <+: k.path.bytes := by
  rw [visibleKeys, mem_filter, ExtTreeMap.mem_keys, inScope_iff]

theorem compare_key (j k : DocumentKey) :
    compare j k = (compare j.database k.database).then (compare j.path.bytes k.path.bytes) := rfl

/-- Paths increase. -/
def Ascending (keys : List DocumentKey) : Prop :=
  keys.Pairwise fun j k => compare j.path.bytes k.path.bytes = .lt

theorem ascending_visibleKeys : Ascending (visibleKeys docs db start) := by
  have hord := (docs.ordered_keys).filter (inScope db start)
  refine hord.imp_of_mem fun {j k} hj hk hlt => ?_
  have hj := (inScope_iff.mp (mem_filter.mp hj).2).1
  have hk := (inScope_iff.mp (mem_filter.mp hk).2).1
  rw [compare_key, hj, hk, then_eq_lt] at hlt
  rcases hlt with hlt | ⟨-, hlt⟩
  · exact absurd hlt (by rw [(ReflCmp.compare_self : compare db db = .eq)]; decide)
  · exact hlt

theorem isLE_after_iff (k : DocumentKey) (path : List UInt8) :
    (compare (after k) path).isLE ↔ compare k.path.bytes path = .lt := by
  constructor
  · intro hle
    exact lt_of_lt_of_isLE (compare_append_right_lt (by simp)) hle
  intro hlt
  rcases below_or_prefix_of_lt hlt with hbel | ⟨rest, hne, rfl⟩
  · have := (Below.append hbel [0] []).compare
    rw [append_nil] at this
    exact isLE_of_eq_lt this
  · obtain ⟨b, rest, rfl⟩ := List.exists_cons_of_ne_nil hne
    rw [after, compare_append_left, List.compare_cons_cons, isLE_then_iff_or]
    cases hb : compare 0 b with
    | lt => exact .inl rfl
    | eq => exact .inr ⟨rfl, isLE_of_isPrefix nil_prefix⟩
    | gt =>
      rw [compare_eq_gt] at hb
      exact absurd hb (Nat.not_lt_zero _)

/-! ### Keeping to a floor -/

/-- A cursor whose states keep to a floor: the next key is the first one from it on, and a path
from it on moves it there. -/
structure Tracks {σ : Type} (c : Cursor σ) (visible : List DocumentKey) (start : List UInt8)
    (R : σ → List UInt8 → Prop) : Prop where
  next : ∀ {s floor}, R s floor → (c.next s).1 = firstFrom visible floor ∧
    R (c.next s).2 (((firstFrom visible floor).map after).getD floor)
  seek : ∀ {s floor path}, R s floor → start <+: path → (compare floor path).isLE →
    R (c.seek s path) path

/-- The floor is where the eligible keys begin. -/
def FloorOf (start : List UInt8) (returned : List DocumentKey) (sought : List (List UInt8))
    (floor : List UInt8) : Prop :=
  ∀ path, start <+: path → ((compare floor path).isLE ↔
    (∀ r ∈ returned, compare r.path.bytes path = .lt) ∧
      ∀ earlier ∈ sought, (compare earlier path).isLE)

theorem floorOf_start : FloorOf start [] [] start :=
  fun _ hpt => ⟨fun _ => ⟨nofun, nofun⟩, fun _ => isLE_of_isPrefix hpt⟩

theorem firstFrom_eq_some (hsrt : Ascending visible) (h : firstFrom visible floor = some k) :
    k ∈ visible ∧ (compare floor k.path.bytes).isLE ∧
      ∀ j ∈ visible, (compare floor j.path.bytes).isLE →
        (compare k.path.bytes j.path.bytes).isLE := by
  obtain ⟨hflr, before, later, rfl, hbef⟩ := find?_eq_some_iff_append.mp h
  refine ⟨by simp, hflr, fun j hj hle => ?_⟩
  rcases mem_append.mp hj with hj | hj
  · have hnot := hbef j hj
    rw [hle] at hnot
    cases hnot
  · rcases mem_cons.mp hj with rfl | hj
    · exact isLE_of_eq_eq ReflCmp.compare_self
    · obtain ⟨-, hlat, -⟩ := pairwise_append.mp hsrt
      exact isLE_of_eq_lt ((pairwise_cons.mp hlat).1 j hj)

theorem firstFrom_eq_none :
    firstFrom visible floor = none ↔ ∀ k ∈ visible, ¬(compare floor k.path.bytes).isLE := by
  simp [firstFrom]

/-- From a later floor on there is nothing when there was nothing before. -/
theorem firstFrom_eq_none_of_le (h : firstFrom visible floor = none)
    (hle : (compare floor path).isLE) : firstFrom visible path = none :=
  firstFrom_eq_none.mpr fun k hk hpt =>
    firstFrom_eq_none.mp h k hk (isLE_trans hle hpt)

section

variable (h : FloorOf start returned sought floor)

include h

/-- The floor moves just past a key that is returned. -/
theorem FloorOf.next :
    FloorOf start ((firstFrom (visibleKeys docs db start) floor).toList ++ returned)
      sought (((firstFrom (visibleKeys docs db start) floor).map after).getD floor) := by
  cases hfst : firstFrom (visibleKeys docs db start) floor with
  | none => exact h
  | some k =>
    obtain ⟨hmem, hflr, -⟩ := firstFrom_eq_some ascending_visibleKeys hfst
    obtain ⟨hret, hsgt⟩ := (h _ (mem_visibleKeys.mp hmem).2.2).mp hflr
    intro path hpt
    change (compare (after k) path).isLE ↔ (∀ r ∈ k :: returned, _) ∧ _
    rw [isLE_after_iff, forall_mem_cons]
    refine ⟨fun hlt => ⟨⟨hlt, fun r hr => ?_⟩, fun earlier he => ?_⟩, fun hall => hall.1.1⟩
    · exact lt_trans (hret r hr) hlt
    · exact isLE_of_eq_lt (lt_of_isLE_of_lt (hsgt earlier he) hlt)

/-- The floor moves to a path from it on, and stays where it is otherwise. -/
theorem FloorOf.seek (path : List UInt8) : FloorOf start returned (path :: sought)
      (if (compare floor path).isLE then path else floor) := by
  intro other hoth
  rw [forall_mem_cons, and_left_comm, ← h other hoth]
  split
  · next hle =>
    exact ⟨fun hpt => ⟨hpt, isLE_trans hle hpt⟩, And.left⟩
  next hgt =>
  have hlt : compare path floor = .lt := by
    cases hcmp : compare floor path with
    | gt => exact OrientedCmp.lt_of_gt hcmp
    | _ => simp [hcmp] at hgt
  refine ⟨fun hflr => ⟨?_, hflr⟩, And.right⟩
  exact isLE_of_eq_lt (lt_of_lt_of_isLE hlt hflr)

theorem FloorOf.isNext : IsNext docs db start returned sought
      (firstFrom (visibleKeys docs db start) floor) := by
  have helg : ∀ k, Eligible docs db start returned sought k ↔
      k ∈ visibleKeys docs db start ∧ (compare floor k.path.bytes).isLE := by
    intro k
    rw [mem_visibleKeys]
    constructor
    · intro hk
      exact ⟨⟨hk.visible, hk.database, hk.extended⟩, (h _ hk.extended).mpr ⟨hk.after, hk.reached⟩⟩
    · rintro ⟨⟨hmem, hdb, hbeg⟩, hflr⟩
      obtain ⟨haft, hrch⟩ := (h _ hbeg).mp hflr
      exact ⟨hmem, hdb, hbeg, haft, hrch⟩
  cases hfst : firstFrom (visibleKeys docs db start) floor with
  | none =>
    intro k hk
    obtain ⟨hmem, hflr⟩ := (helg k).mp hk
    exact firstFrom_eq_none.mp hfst k hmem hflr
  | some k =>
    obtain ⟨hmem, hflr, hlst⟩ := firstFrom_eq_some ascending_visibleKeys hfst
    refine ⟨(helg k).mpr ⟨hmem, hflr⟩, fun j hj => ?_⟩
    obtain ⟨hj, hjf⟩ := (helg j).mp hj
    exact hlst j hj hjf

end

namespace Tracks

variable {calls : List CursorCall} {σ τ : Type} {c : Cursor σ} {d : Cursor τ}
  {R : σ → List UInt8 → Prop} {S : τ → List UInt8 → Prop}

section

variable (hc : Tracks c (visibleKeys docs db start) start R)

include hc

/-- **A cursor that is never sent back follows its trace**, and any other such cursor shows the
same. -/
theorem trace_eq (hd : Tracks d (visibleKeys docs db start) start S)
    {s t floor returned sought} (hexg : Extending start calls) (hs : R s floor) (ht : S t floor)
    (hflr : FloorOf start returned sought floor)
    (hfwd : Forward returned sought (c.trace s calls)) : d.trace t calls = c.trace s calls := by
  induction calls generalizing s t floor returned sought with
  | nil => rfl
  | cons call calls ih =>
    have hrs : Extending start calls := fun path hpt =>
      hexg path (mem_cons_of_mem _ hpt)
    cases call with
    | next =>
      obtain ⟨hkey, hs'⟩ := hc.next hs
      obtain ⟨hkey', ht'⟩ := hd.next ht
      rw [Cursor.trace, hkey] at hfwd
      rw [Cursor.trace, Cursor.trace, hkey, hkey', ih hrs hs' ht' hflr.next hfwd]
    | seek path =>
      have hpt := hexg path mem_cons_self
      obtain ⟨hret, hsgt, hfwd⟩ := hfwd
      have hle := (hflr path hpt).mpr ⟨hret, hsgt⟩
      have hflr' := hflr.seek path
      rw [if_pos hle] at hflr'
      rw [Cursor.trace, Cursor.trace, ih hrs (hc.seek hs hpt hle) (hd.seek ht hpt hle) hflr' hfwd]

/-- A cursor that ignores what would send it back follows every trace. -/
theorem follows
    (hbc : ∀ {s floor path}, R s floor → ¬(compare floor path).isLE → R (c.seek s path) floor) :
    ∀ {s floor returned sought}, Extending start calls → R s floor →
      FloorOf start returned sought floor →
      Follows docs db start returned sought (c.trace s calls) := by
  induction calls with
  | nil => exact fun _ _ _ => trivial
  | cons call calls ih =>
    intro s floor returned sought hexg hs hflr
    have hrs : Extending start calls := fun path hpt =>
      hexg path (mem_cons_of_mem _ hpt)
    cases call with
    | next =>
      obtain ⟨hkey, hs'⟩ := hc.next hs
      rw [Cursor.trace, hkey]
      exact ⟨hflr.isNext, ih hrs hs' hflr.next⟩
    | seek path =>
      refine ih hrs ?_ (hflr.seek path)
      split
      · next hle => exact hc.seek hs (hexg path mem_cons_self) hle
      · next hgt => exact hbc hs hgt

end

end Tracks

/-! ### The memory cursor -/

/-- The memory backend's cursor: the lower bound of the next key, or nothing once exhausted. -/
structure MemoryCursor where
  documents : Documents
  database : DatabaseName
  start : List UInt8
  position : Option (List UInt8)

namespace MemoryCursor

def «open» (documents : Documents) (database : DatabaseName) (start : List UInt8) : MemoryCursor :=
  ⟨documents, database, start, some start⟩

/-- Whether a key is at or after a path of a database. -/
def atOrAfter (database : DatabaseName) (path : List UInt8) (k : DocumentKey) : Bool :=
  ((compare database k.database).then (compare path k.path.bytes)).isLE

def next (c : MemoryCursor) : Option DocumentKey × MemoryCursor :=
  match c.position with
  | none => (none, c)
  | some lower =>
    let found := (c.documents.keys.find? (atOrAfter c.database lower)).filter
      (inScope c.database c.start)
    (found, { c with position := found.map after })

def seek (c : MemoryCursor) (path : List UInt8) : MemoryCursor :=
  match c.position with
  | none => c
  | some current => if compare current path = .lt then { c with position := some path } else c

def cursor : Cursor MemoryCursor := ⟨next, seek⟩

end MemoryCursor

/-- The first key from a bound on, if it is in scope, is the first one in scope from there on: what
lies between two keys of the scope is in it. -/
theorem find?_filter {α : Type} {p q r : α → Bool} {l : List α}
    (hsm : ∀ x ∈ l, q x = true → p x = r x)
    (hbtw : l.Pairwise fun x y => p x = true → q y = true → q x = true) :
    (l.find? p).filter q = (l.filter q).find? r := by
  induction l with
  | nil => rfl
  | cons x l ih =>
    obtain ⟨hx, hl⟩ := pairwise_cons.mp hbtw
    obtain ⟨hsmx, hsm⟩ := forall_mem_cons.mp hsm
    cases hp : p x with
    | true =>
      rw [find?_cons_of_pos hp]
      cases hq : q x with
      | true =>
        rw [filter_cons_of_pos hq, find?_cons_of_pos (hsmx hq ▸ hp), Option.filter_some_pos hq]
      | false =>
        have hnn : l.filter q = [] := by
          refine filter_eq_nil_iff.mpr fun y hy hqy => ?_
          rw [hx y hy hp hqy] at hq
          cases hq
        rw [filter_cons_of_neg (by simp [hq]), hnn, Option.filter_some_neg (by simp [hq])]
        rfl
    | false =>
      rw [find?_cons_of_neg (by simp [hp]), ih hsm hl]
      cases hq : q x with
      | true =>
        rw [filter_cons_of_pos hq, find?_cons_of_neg (by simp [← hsmx hq, hp])]
      | false => rw [filter_cons_of_neg (by simp [hq])]

namespace MemoryCursor

theorem atOrAfter_of_database (h : k.database = db) :
    atOrAfter db path k = (compare path k.path.bytes).isLE := by
  rw [atOrAfter, h, (ReflCmp.compare_self : compare db db = .eq), eq_then]

/-- What lies between a floor of a scope and a key of it is in it. -/
theorem inScope_of_between {j : DocumentKey} (hflr : (compare start floor).isLE)
    (hj : atOrAfter db floor j = true) (hlt : compare j k = .lt)
    (hk : inScope db start k = true) : inScope db start j = true := by
  obtain ⟨hdb, hbeg⟩ := inScope_iff.mp hk
  rw [atOrAfter, isLE_then_iff_or] at hj
  rw [compare_key, hdb, then_eq_lt] at hlt
  have hsm : j.database = db := by
    rcases hj with hj | ⟨hj, -⟩
    · rcases hlt with hlt | ⟨heq, -⟩
      · rw [OrientedCmp.gt_of_lt hj] at hlt
        cases hlt
      · exact LawfulEqCmp.eq_of_compare heq
    · exact (LawfulEqCmp.eq_of_compare hj).symm
  rw [hsm] at hlt hj
  have hlt : compare j.path.bytes k.path.bytes = .lt := by simpa using hlt
  have hj : (compare floor j.path.bytes).isLE := by simpa using hj
  exact inScope_iff.mpr ⟨hsm, prefix_of_between (isLE_trans hflr hj) hlt hbeg⟩

/-- The memory cursor's lookup. -/
theorem find?_atOrAfter (hflr : (compare start floor).isLE) :
    (docs.keys.find? (atOrAfter db floor)).filter (inScope db start) =
      firstFrom (visibleKeys docs db start) floor := by
  refine find?_filter (fun k _ hk => ?_) (docs.ordered_keys.imp fun {j k} hlt hj hk => ?_)
  · exact atOrAfter_of_database (inScope_iff.mp hk).1
  · exact inScope_of_between hflr hj hlt hk

/-- The position is the floor, or nothing is left from the floor on. -/
structure At (documents : Documents) (database : DatabaseName) (start : List UInt8)
    (c : MemoryCursor) (floor : List UInt8) : Prop where
  above : (compare start floor).isLE
  position : c.position = some floor ∨
    (c.position = none ∧ firstFrom (visibleKeys documents database start) floor = none)
  documents : c.documents = documents
  database : c.database = database
  start : c.start = start

theorem tracks : Tracks cursor (visibleKeys docs db start) start (At docs db start) where
  next := by
    rintro ⟨_, _, _, position⟩ floor ⟨hab, hpos, rfl, rfl, rfl⟩
    rcases hpos with rfl | ⟨rfl, hnn⟩
    · simp only [cursor, next, find?_atOrAfter hab, true_and]
      cases hfst : firstFrom _ floor with
      | none => exact ⟨hab, .inr ⟨rfl, hfst⟩, rfl, rfl, rfl⟩
      | some k =>
        obtain ⟨hmem, -, -⟩ := firstFrom_eq_some ascending_visibleKeys hfst
        refine ⟨?_, .inl rfl, rfl, rfl, rfl⟩
        exact isLE_of_isPrefix ((mem_visibleKeys.mp hmem).2.2.trans (prefix_append _ _))
    · simp only [cursor, next, hnn, true_and]
      exact ⟨hab, .inr ⟨rfl, hnn⟩, rfl, rfl, rfl⟩
  seek := by
    rintro ⟨_, _, _, position⟩ floor path ⟨hab, hpos, rfl, rfl, rfl⟩ hpt hle
    have hab' := isLE_of_isPrefix hpt
    rcases hpos with rfl | ⟨rfl, hnn⟩
    · simp only [cursor, seek]
      split
      · exact ⟨hab', .inl rfl, rfl, rfl, rfl⟩
      next hnot =>
      have heq := (isLE_iff_eq_lt_or_eq_eq.mp hle).resolve_left hnot
      obtain rfl := LawfulEqCmp.eq_of_compare heq
      exact ⟨hab', .inl rfl, rfl, rfl, rfl⟩
    · exact ⟨hab', .inr ⟨rfl, firstFrom_eq_none_of_le hnn hle⟩, rfl, rfl, rfl⟩

theorem seek_back {c : MemoryCursor} (h : At docs db start c floor)
    (hbc : ¬(compare floor path).isLE) : At docs db start (c.seek path) floor := by
  obtain ⟨_, _, _, position⟩ := c
  obtain ⟨hab, hpos, rfl, rfl, rfl⟩ := h
  rcases hpos with rfl | ⟨rfl, hnn⟩
  · have hnot : compare floor path ≠ .lt := fun hlt => hbc (isLE_of_eq_lt hlt)
    simp only [seek, if_neg hnot]
    exact ⟨hab, .inl rfl, rfl, rfl, rfl⟩
  · exact ⟨hab, .inr ⟨rfl, hnn⟩, rfl, rfl, rfl⟩

theorem at_open (docs : Documents) (db : DatabaseName) (start : List UInt8) :
    At docs db start («open» docs db start) start :=
  ⟨isLE_of_eq_eq ReflCmp.compare_self, .inl rfl, rfl, rfl, rfl⟩

/-- **The memory cursor never goes back**, whatever the calls are. -/
theorem follows (docs : Documents) (db : DatabaseName) (start : List UInt8)
    (h : Extending start calls) :
    Follows docs db start [] [] (cursor.trace («open» docs db start) calls) :=
  tracks.follows seek_back h (at_open docs db start) floorOf_start

end MemoryCursor

end Firenook
