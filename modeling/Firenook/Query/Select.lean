import Firenook.Query.Matching
import Firenook.Store.Usage
import Firenook.Support.Selection

/-!
# Select — offsets and limits without sorting everything

A buffered query keeps a window of its candidates: as many as its offset and limit can reach, from
the front or the back of the order as the limit says. The window is sorted, the offset skipped and
the limit taken. An index-ordered query keeps such a window for each run of entries the index
cannot tell apart.

Both give what sorting everything and cutting gives, for candidates no two of which compare equal
(`bounded_selection`).
-/

namespace Firenook.QueryEngine

open List Option Std OrderKey Selection

variable {offset : Nat}

/-! ### Buffered queries -/

structure OrderedCandidate (orders : List Order) extends OrderKey orders where
  document : Document
  deriving DecidableEq

def OrderedCandidate.compare (edition : DatabaseEdition) {orders : List Order}
    (left right : OrderedCandidate orders) : Ordering :=
  left.toOrderKey.compare edition right.toOrderKey

instance (edition : DatabaseEdition) (orders : List Order) :
    TransCmp (OrderedCandidate.compare edition :
      OrderedCandidate orders → OrderedCandidate orders → Ordering) where
  eq_swap := (inferInstance : OrientedCmp (compare edition :
    OrderKey orders → OrderKey orders → Ordering)).eq_swap
  isLE_trans := (inferInstance : TransCmp (compare edition :
    OrderKey orders → OrderKey orders → Ordering)).isLE_trans

def Limit.count : Limit → Nat
  | .first count => count
  | .last count => count

variable {orders : List Order} (ed : DatabaseEdition)

def collectBoundedCandidates (candidates : List (OrderedCandidate orders)) (offset : Nat) :
    Option Limit → List (OrderedCandidate orders)
  | none => candidates
  | some limit =>
    if limit.count = 0 then []
    else
      let bound := saturatingAdd offset limit.count
      match limit with
      | .first _ => candidates.foldl (keepFirst (OrderedCandidate.compare ed) bound) []
      | .last _ => candidates.foldl (keepLast (OrderedCandidate.compare ed) bound) []

/-- The offset and the limit of an ordered list of documents. -/
def limited {α : Type} (documents : List α) (offset : Nat) (limit : Option Limit) : List α :=
  let afterOffset := documents.drop offset
  match limit with
  | none => afterOffset
  | some (.first count) => afterOffset.take count
  | some (.last count) => afterOffset.drop (afterOffset.length - count)

/-- What `execute_buffered` makes of its candidates. -/
def executeBuffered (candidates : List (OrderedCandidate orders)) (offset : Nat)
    (limit : Option Limit) : List (OrderedCandidate orders) :=
  let documents := collectBoundedCandidates ed candidates offset limit
  limited (sortBy (OrderedCandidate.compare ed) documents) offset limit

/-! ### Runs of an index walk -/

/-- One entry of a field-order walk. Entries of one run have values the index cannot order. -/
structure FieldOrderEntry where
  key : DocumentKey
  document : Document
  tied : Option Nat

/-- The state of an index-ordered query. -/
structure IndexOrderIterator where
  walk : List FieldOrderEntry
  pending : Option FieldOrderEntry
  tied : List DocumentKey
  remainingLimit : Option Nat
  remainingOffset : Nat

/-- The loop of `sort_run`: the members of the run, the entry after it and the rest of the walk. -/
def readRun {μ : Type} (run : Nat) (add : List μ → FieldOrderEntry → List μ) :
    List FieldOrderEntry → List μ → List μ × Option FieldOrderEntry × List FieldOrderEntry
  | [], members => (members, none, [])
  | entry :: entries, members =>
    if entry.tied ≠ some run then (members, some entry, entries)
    else readRun run add entries (add members entry)

/-- Adds a member to a run: at the end, or below the bound in order. -/
def addMember (bound : Option Nat) (members : List (OrderKey orders)) (k : OrderKey orders) :
    List (OrderKey orders) :=
  match bound with
  | none => members ++ [k]
  | some bound => keepBelow (OrderKey.compare ed) bound members k

/-- Adds an entry to a run if it matches. -/
def addEntry (query : Query) (orders : List Order) (bound : Option Nat)
    (members : List (OrderKey orders)) (entry : FieldOrderEntry) : List (OrderKey orders) :=
  match rank query orders ed entry.key entry.document with
  | none => members
  | some k => addMember ed bound members k

namespace IndexOrderIterator

/-- Reads the run that starts with `first` and queues its matches in the query's order. -/
def sortRun (query : Query) (orders : List Order) (it : IndexOrderIterator)
    (first : FieldOrderEntry) (run : Nat) : IndexOrderIterator :=
  let bound := it.remainingLimit.map (saturatingAdd it.remainingOffset)
  let (members, found, walk) :=
    readRun run (addEntry ed query orders bound) (first :: it.walk) []
  let members := if bound.isNone then sortBy (OrderKey.compare ed) members else members
  { it with
    walk
    pending := found.or it.pending
    tied := members.map OrderKey.key }

end IndexOrderIterator

/-! ### Sorting and cutting -/

/-- A sum that does not fit stays above the length of any list that does. -/
theorem saturatingAdd_cases {count length : Nat} (h : offset + count ≤ maxU64 ∨ length ≤ maxU64) :
    saturatingAdd offset count = offset + count ∨
      (length ≤ saturatingAdd offset count ∧ length ≤ offset + count) := by
  simp only [saturatingAdd]
  omega

section

variable {α : Type} (l : List α) {count bound : Nat}
  (h : bound = offset + count ∨ (l.length ≤ bound ∧ l.length ≤ offset + count))

include l h

theorem limited_take : limited (l.take bound) offset (some (.first count)) =
      limited l offset (some (.first count)) := by
  simp only [limited, drop_take, take_take]
  rcases h with rfl | ⟨hbd, hsum⟩
  · rw [Nat.add_sub_cancel_left, Nat.min_self]
  · rw [take_of_length_le, take_of_length_le] <;> rw [length_drop] <;> omega

theorem limited_lastOf : limited (lastOf bound l) offset (some (.last count)) =
      limited l offset (some (.last count)) := by
  simp only [limited, lastOf, drop_drop, length_drop]
  rcases h with rfl | ⟨hbd, hsum⟩
  · congr 1
    omega
  · rw [Nat.sub_eq_zero_of_le hbd, Nat.zero_add]

end

theorem limited_zero {α : Type} (l : List α) (offset : Nat) {limit : Limit}
    (h : limit.count = 0) : limited l offset (some limit) = [] := by
  cases limit with
  | first count =>
    obtain rfl : count = 0 := h
    rw [limited, take_zero]
  | last count =>
    obtain rfl : count = 0 := h
    rw [limited, Nat.sub_zero, drop_length]

variable {ed}

/-- **Buffered selection is sort-then-cut.** -/
theorem executeBuffered_eq {candidates : List (OrderedCandidate orders)}
    (hdis : Distinct (OrderedCandidate.compare ed) candidates) {limit : Option Limit}
    (hft : ∀ l ∈ limit, offset + l.count ≤ maxU64 ∨ candidates.length ≤ maxU64) :
    executeBuffered ed candidates offset limit =
      limited (sortBy (OrderedCandidate.compare ed) candidates) offset limit := by
  have hsrt := increasing_sortBy hdis
  have hlen : (sortBy (OrderedCandidate.compare ed) candidates).length =
      candidates.length := (perm_sortBy candidates).length_eq
  simp only [executeBuffered]
  cases limit with
  | none => rfl
  | some limit =>
    have hcas := saturatingAdd_cases (hft limit rfl)
    rw [← hlen] at hcas
    simp only [collectBoundedCandidates]
    split
    · next hzr => rw [limited_zero _ _ hzr, limited_zero _ _ hzr]
    cases limit with
    | first count =>
      simp only [foldl_keepFirst hdis]
      rw [sortBy_of_increasing (increasing_take hsrt _)]
      exact limited_take _ hcas
    | last count =>
      simp only [foldl_keepLast hdis]
      rw [sortBy_of_increasing (increasing_lastOf hsrt _)]
      exact limited_lastOf _ hcas

/-! ### Runs -/

/-- The entries of the run at the head of a walk. -/
def runOf (run : Nat) (entries : List FieldOrderEntry) : List FieldOrderEntry :=
  entries.takeWhile fun entry => entry.tied = some run

/-- The members of a run: its matches, ranked. -/
def membersOf (edition : DatabaseEdition) (query : Query) (orders : List Order) (run : Nat)
    (entries : List FieldOrderEntry) : List (OrderKey orders) :=
  (runOf run entries).filterMap fun entry => rank query orders edition entry.key entry.document

theorem readRun_eq {μ : Type} (run : Nat) (add : List μ → FieldOrderEntry → List μ) :
    ∀ (entries : List FieldOrderEntry) (members : List μ),
      readRun run add entries members = ((runOf run entries).foldl add members,
        (entries.drop (runOf run entries).length).head?,
        (entries.drop (runOf run entries).length).tail)
  | [], members => rfl
  | entry :: entries, members => by
    rw [readRun, runOf, takeWhile_cons]
    by_cases h : entry.tied = some run
    · rw [if_neg (not_not_intro h), readRun_eq run add entries, decide_eq_true h]
      rfl
    · rw [if_pos h, decide_eq_false h]
      rfl

theorem foldl_addEntry (query : Query) (bound : Option Nat) (entries : List FieldOrderEntry)
    (members : List (OrderKey orders)) :
    entries.foldl (addEntry ed query orders bound) members =
      (entries.filterMap fun entry => rank query orders ed entry.key entry.document).foldl
        (addMember ed bound) members := by
  rw [foldl_filterMap]
  congr 1
  funext members entry
  rw [addEntry]
  cases rank query orders ed entry.key entry.document <;> rfl

theorem foldl_addMember_none (ks members : List (OrderKey orders)) :
    ks.foldl (addMember ed none) members = members ++ ks := by
  induction ks generalizing members with
  | nil => exact (append_nil members).symm
  | cons k ks ih => rw [foldl_cons, ih, addMember, append_assoc, singleton_append]

/-- **A sorted run is sort-then-cut.** -/
theorem sortRun_tied (query : Query) {it : IndexOrderIterator} {first : FieldOrderEntry} {run : Nat}
    (hdis : Distinct (OrderKey.compare ed) (membersOf ed query orders run (first :: it.walk)))
    (hft : ∀ limit ∈ it.remainingLimit, it.remainingOffset + limit ≤ maxU64 ∨
      (membersOf ed query orders run (first :: it.walk)).length ≤ maxU64) :
    (it.sortRun ed query orders first run).tied = (match it.remainingLimit with
      | none => sortBy (OrderKey.compare ed) (membersOf ed query orders run (first :: it.walk))
      | some limit => (sortBy (OrderKey.compare ed)
          (membersOf ed query orders run (first :: it.walk))).take
            (it.remainingOffset + limit)).map OrderKey.key := by
  have hlen := (perm_sortBy (membersOf ed query orders run (first :: it.walk)) :
    (sortBy (compare ed) _).Perm _).length_eq
  simp only [IndexOrderIterator.sortRun, readRun_eq, foldl_addEntry]
  cases hlim : it.remainingLimit with
  | none =>
    rw [map_none, foldl_addMember_none]
    rfl
  | some limit =>
    change map key (foldl (keepBelow (compare ed) (saturatingAdd it.remainingOffset limit)) []
      (membersOf ed query orders run (first :: it.walk))) = _
    rw [foldl_keepBelow hdis]
    rcases saturatingAdd_cases (hft limit hlim) with hsum | ⟨hbd, hsum⟩
    · rw [hsum]
    rw [← hlen] at hbd hsum
    rw [take_of_length_le hbd]
    dsimp only
    rw [take_of_length_le hsum]

/-! ### Sort, then cut -/

/-- All candidates sorted, the offset skipped, and the first or last of the rest. -/
def sortThenCut (edition : DatabaseEdition) (candidates : List (OrderedCandidate orders))
    (offset : Nat) : Limit → List (OrderedCandidate orders)
  | .first count =>
    ((sortBy (OrderedCandidate.compare edition) candidates).drop offset).take count
  | .last count =>
    lastOf count ((sortBy (OrderedCandidate.compare edition) candidates).drop offset)

/-- **Bounded selection is sort-then-cut.** The window of a buffered query, sorted, skipped and
taken from, is the cut of all its candidates sorted; and the window of a run is what the offset and
the limit can reach of the sorted run. A sum of offset and limit past the machine's range is not
missed by any list within it. -/
theorem bounded_selection (ed : DatabaseEdition) (orders : List Order) :
    (∀ (candidates : List (OrderedCandidate orders)) (offset : Nat) (limit : Limit),
      Distinct (OrderedCandidate.compare ed) candidates →
      (offset + limit.count ≤ maxU64 ∨ candidates.length ≤ maxU64) →
      executeBuffered ed candidates offset (some limit) = sortThenCut ed candidates offset limit) ∧
    (∀ (query : Query) (it : IndexOrderIterator) (first : FieldOrderEntry) (run limit : Nat),
      it.remainingLimit = some limit →
      Distinct (OrderKey.compare ed) (membersOf ed query orders run (first :: it.walk)) →
      (it.remainingOffset + limit ≤ maxU64 ∨
        (membersOf ed query orders run (first :: it.walk)).length ≤ maxU64) →
      (it.sortRun ed query orders first run).tied = ((sortBy (OrderKey.compare ed)
          (membersOf ed query orders run (first :: it.walk))).take
            (it.remainingOffset + limit)).map OrderKey.key) := by
  refine ⟨fun candidates offset limit hdis hft => ?_,
    fun query it first run limit hlim hdis hft => ?_⟩
  · rw [executeBuffered_eq hdis fun l hl => mem_some.mp hl ▸ hft]
    cases limit <;> rfl
  rw [sortRun_tied query hdis fun l hl => by
    obtain rfl := some.inj (hlim.symm.trans hl)
    exact hft]
  rw [hlim]

/-- A candidate of a query ordered by name. -/
def namedCandidate (path : Str) (h : checkDocumentPath path = .ok ()) :
    OrderedCandidate [⟨.documentId, .ascending⟩] where
  key := ⟨exampleDatabase, path, h⟩
  values := [none]
  size := rfl
  document := ⟨.empty, .zero, .zero⟩

/-- The last of two candidates after the first one. -/
theorem bounded_selection_two : let a := namedCandidate ⟨ascii "c/a", by decide⟩ (by decide)
    let b := namedCandidate ⟨ascii "c/b", by decide⟩ (by decide)
    Distinct (OrderedCandidate.compare .standard) [b, a] ∧
      executeBuffered .standard [b, a] 1 (some (.last 1)) =
        sortThenCut .standard [b, a] 1 (.last 1) :=
  ⟨by decide +kernel, (bounded_selection .standard _).1 _ 1 (.last 1) (by decide +kernel)
    (.inl (by decide))⟩

end Firenook.QueryEngine
