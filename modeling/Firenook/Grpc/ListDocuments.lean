import Mathlib.Data.List.InsertIdx
import Firenook.Rules.Match
import Firenook.Grpc.Transactions
import Firenook.Store.Cursor
import Firenook.Support.Selection

/-!
# Grpc — ListDocuments

`list_documents`: the answer is collected from the snapshot by one path, and the rules decide on a
candidate key made up beside it. With a collection id both name the same collection, so every
document of the answer lies in a collection the client may list (`listed_allowed`). Without one the
answer ranges over every collection below the parent, and the rules are asked about a collection
called `rules-candidate` (`unnamed_leaks`).
-/

namespace Firenook.Grpc
open ChangeLog GroupIndex Rules List Std Prod ExtTreeMap Bytes Selection

variable {key : DocumentKey}

/-- A snapshot whose collections list exactly its documents. -/
structure Snapshot where
  documents : Documents
  collections : ScopeIndex
  indexed : Indexes collectionKey collections (State.Live documents)

structure ListedDocument where
  key : DocumentKey
  document : Option Document

/-- The order asked for, as parsed: the default is by name, ascending. -/
structure ListOrders where
  clauses : List (Text × Text)
  isDefault : Bool
  holds : Document → Bool
  compare : DocumentKey × Document → DocumentKey × Document → Ordering

/-- A request, its parent and page token decoded and its order trimmed. -/
structure ListDocumentsRequest where
  database : DatabaseName
  parent : Option Str
  collectionId : Str
  pageSize : Int
  pageToken : Option DocumentKey
  showMissing : Bool
  orderBy : Text := []

namespace ListDocumentsRequest

def slashStr : Str := ⟨[slash], by decide⟩

def below (r : ListDocumentsRequest) (name : Str) : Str :=
  r.parent.elim name fun parent => parent ++ slashStr ++ name

def normalizePageSize (r : ListDocumentsRequest) : Nat :=
  if r.pageSize ≤ 0 then 100 else min r.pageSize.toNat 1000

end ListDocumentsRequest

/-! ### Direct children -/

/-- The child a path names below a prefix, and whether the path is the child's own. -/
def childOf (depth : Nat) (rest : Text) : Option (Text × Bool) :=
  let parts := segments rest
  if parts.length < depth ∨ (parts.take depth).any isEmpty then none
  else some (join (parts.take depth), parts.length = depth)

/-- The least path after every path that starts with the given one. -/
def successorPath (start : Text) : Text :=
  let bytes := (successor start).getD []
  if Utf8.valid bytes then bytes else []

/-- A walk over a cursor: each key is entered into what is collected, and may send the cursor
ahead. `none` is a walk that has not ended within its fuel. -/
def visit {σ α : Type} (c : Cursor σ) (enter : DocumentKey → α → α × Option Text) :
    Nat → σ → α → Option α
  | 0, _, _ => none
  | fuel + 1, s, collected =>
    match c.next s with
    | (none, _) => some collected
    | (some key, s') =>
      let (collected, target) := enter key collected
      visit c enter fuel (target.elim s' (c.seek s')) collected

def listStart (parent collectionId : Option Str) : Text :=
  let base : Text := parent.elim [] fun parent => parent.bytes ++ [slash]
  collectionId.elim base fun id => base ++ id.bytes ++ [slash]

/-- Enters the child a key is or lies below, and skips what is below the child. -/
def enterChild (depth : Nat) (start : Text) (key : DocumentKey) (children : Map Text Bool) :
    Map Text Bool × Option Text :=
  match childOf depth (key.path.bytes.drop start.length) with
  | none => (children, none)
  | some (child, true) => (children.insert child true, none)
  | some (child, false) =>
    (if children.contains child then children else children.insert child false,
      some (successorPath (start ++ child ++ [slash])))

def listDepth (collectionId : Option Str) : Nat := if collectionId.isSome then 1 else 2

/-- `direct_children`, over a cursor opened at the prefix. -/
def directChildren {σ : Type} (c : Cursor σ) (fuel : Nat) (s : σ) (database : DatabaseName)
    (parent collectionId : Option Str) : Option (List (DocumentKey × Bool)) :=
  let start := listStart parent collectionId
  (visit c (enterChild (listDepth collectionId) start) fuel s ∅).map fun children =>
    children.toList.filterMap fun child => do
      let path ← Str.fromUtf8 (start ++ child.1)
      let key ← (DocumentKey.new database path).toOption
      some (key, child.2)

/-- `Snapshot::direct_children` of the memory backend: each direct child once, present or missing. -/
def Snapshot.directChildren (s : Snapshot) (database : DatabaseName) (parent collectionId : Option Str) :
    List (DocumentKey × Bool) :=
  -- More steps than documents are never taken.
  (Grpc.directChildren MemoryCursor.cursor (s.documents.size + 1)
    (.open s.documents database (listStart parent collectionId)) database parent collectionId).getD []

/-- `iter_collection` of the memory backend. -/
def Snapshot.iterCollection (s : Snapshot) (database : DatabaseName) (path : Text) :
    List (DocumentKey × Document) :=
  let keys := (keysOf s.collections ⟨database, path⟩).toList.insertionSort fun a b =>
    (compareResourcePaths a.path.bytes b.path.bytes).isLE
  keys.filterMap fun key => s.documents[key]?.map fun document => (key, document)

/-! ### Collecting -/

/-- `paginate_keys`: what follows the token, at most a page of it. -/
def paginateKeys (sorted : List (DocumentKey × Bool)) (r : ListDocumentsRequest) :
    List (DocumentKey × Bool) × Option DocumentKey :=
  let sorted := r.pageToken.elim sorted fun token => (sorted.dropWhile fun k => k.1 ≠ token).drop 1
  let page := sorted.take r.normalizePageSize
  (page, if r.normalizePageSize < sorted.length then page.getLast?.map fst else none)

def sortChildren (children : List (DocumentKey × Bool)) : List (DocumentKey × Bool) :=
  children.insertionSort fun a b => (compareResourcePaths a.1.path.bytes b.1.path.bytes).isLE

def directChildMatches (path : Text) (r : ListDocumentsRequest) : Bool :=
  let parts := segments path
  let parentParts := r.parent.elim [] fun parent => segments parent.bytes
  parts.length = parentParts.length + 2 && parts.take parentParts.length = parentParts &&
    (r.collectionId.bytes.isEmpty || parts[parentParts.length]? = some r.collectionId.bytes)

/-- The loop over a named collection: the first page, and one more, in the order asked for. -/
def presentLoop (r : ListDocumentsRequest) (orders : ListOrders)
    (token : Option (DocumentKey × Document)) :
    List (DocumentKey × Document) → List (DocumentKey × Document) → List (DocumentKey × Document)
  | [], documents => documents
  | candidate :: rest, documents =>
    if !directChildMatches candidate.1.path.bytes r || !orders.holds candidate.2 ||
        token.any (fun token => orders.compare candidate token ≠ .gt) then
      presentLoop r orders token rest documents
    else
      let documents := (place orders.compare candidate documents).take (r.normalizePageSize + 1)
      if orders.isDefault && r.normalizePageSize < documents.length then documents
      else presentLoop r orders token rest documents

/-- `collect_present_list_documents`. -/
def collectPresent (s : Snapshot) (r : ListDocumentsRequest) (orders : ListOrders) :
    List ListedDocument × Option DocumentKey :=
  match r.pageToken with
  | some key =>
    match s.documents[key]? with
    | none => ([], none)
    | some document => collect (some (key, document))
  | none => collect none
where
  collect (token : Option (DocumentKey × Document)) : List ListedDocument × Option DocumentKey :=
    if r.collectionId.bytes.isEmpty then
      let children := (s.directChildren r.database r.parent none).filter snd
      let page := paginateKeys (sortChildren children) r
      (page.1.filterMap fun key => s.documents[key.1]?.map fun document => ⟨key.1, some document⟩,
        page.2)
    else
      let found := presentLoop r orders token
        (s.iterCollection r.database (r.below r.collectionId).bytes) []
      let page := found.take r.normalizePageSize
      (page.map fun d => ⟨d.1, some d.2⟩,
        if r.normalizePageSize < found.length then page.getLast?.map fst else none)

def collectListDocuments (s : Snapshot) (r : ListDocumentsRequest) (orders : ListOrders) :
    List ListedDocument × Option DocumentKey :=
  if !r.showMissing then collectPresent s r orders
  else
    let collectionId := if r.collectionId.bytes.isEmpty then none else some r.collectionId
    let page := paginateKeys (sortChildren (s.directChildren r.database r.parent collectionId)) r
    (page.1.map fun key => ⟨key.1, if key.2 then s.documents[key.1]? else none⟩, page.2)

/-! ### The handler -/

def pageTokenLists (token : DocumentKey) (r : ListDocumentsRequest) : Bool :=
  let container := rsplitOnce token.collectionPath
  token.database = r.database &&
    (container.map fst : Option Text) = r.parent.map Str.bytes &&
    (r.collectionId.bytes.isEmpty || container.elim token.collectionPath snd = r.collectionId.bytes)

def candidateId : Str := ⟨ascii "rules-candidate", by decide⟩

def listCandidateKey (r : ListDocumentsRequest) : Except NameError DocumentKey :=
  let collection := if r.collectionId.bytes.isEmpty then candidateId else r.collectionId
  DocumentKey.new r.database (r.below collection ++ ListDocumentsRequest.slashStr ++ candidateId)

variable {Auth : Type} {r : ListDocumentsRequest} {orders : ListOrders}

/-- The request the rules decide (`evaluation_request`): the scope is the candidate's collection. -/
def listRequest (r : ListDocumentsRequest) (orders : ListOrders) (time : Timestamp)
    (candidate : DocumentKey) : ListRequest Auth where
  databaseId := candidate.database.databaseId.bytes
  auth := none
  time := time
  limit := if 0 < r.pageSize then some r.pageSize else none
  offset := some 0
  orderBy := orders.clauses
  scope := .collection candidate.collectionPath

/-- `list_documents`; `indexed` is the verdict on the query of a named collection: its scope is one,
and the index policy admits it. -/
def listDocuments (installed : Option (List (MatchBlock Auth))) (authorization : Authorization Auth)
    (time : Timestamp) (s : Snapshot) (orders : ListOrders) (indexed : Bool)
    (r : ListDocumentsRequest) : Except Status (List ListedDocument × Option DocumentKey) :=
  if r.showMissing && !r.orderBy.isEmpty then
    .error (.invalidArgument "show_missing cannot be combined with order_by")
  else if r.pageSize < 0 then .error (.invalidArgument "Page size must be nonnegative.")
  else if r.pageToken.any fun token => !pageTokenLists token r then
    .error (.invalidArgument "invalid page token")
  else if r.collectionId.bytes.isEmpty && !orders.isDefault then
    .error (.invalidArgument "kind is required for all orders except __key__ ascending")
  else if !r.collectionId.bytes.isEmpty && !indexed then
    .error (.failedPrecondition "the query is refused by the index policy")
  else
    match listCandidateKey r with
    | .error _ => .error (.invalidArgument "invalid document path")
    | .ok candidate =>
      if allowed installed authorization (listRequest r orders time candidate) s.documents then
        .ok (collectListDocuments s r orders)
      else .error .permissionDenied

/-! ### What a named collection lists -/

/-- A path with one more segment lies in the collection before it. -/
theorem collectionPath_of_path {collection id : Text}
    (h : key.path.bytes = collection ++ slash :: id) (hid : slash ∉ id) :
    key.collectionPath = collection := by
  have hspl := rsplitOnce_eq_some.mpr ⟨h, hid⟩
  rw [key.rsplitOnce_path] at hspl
  exact (mk.inj (Option.some.inj hspl)).1

theorem slash_notMem_segments (path : Text) : ∀ part ∈ segments path, slash ∉ part := by
  induction hlen : path.length using Nat.strong_induction_on generalizing path with
  | _ n ih =>
    cases hspl : rsplitOnce path with
    | none =>
      have hsl := rsplitOnce_eq_none.mp hspl
      rw [segments, splitOn_eq_singleton hsl]
      exact fun part hpr => mem_singleton.mp hpr ▸ hsl
    | some parts =>
      obtain ⟨left, right⟩ := parts
      obtain ⟨hpt, hrt⟩ := rsplitOnce_eq_some.mp hspl
      have hsg : segments path = segments left ++ [right] := by
        rw [segments, hpt, splitOn_append_cons_self, splitOn_eq_singleton hrt]
        rfl
      intro part hpr
      rw [hsg] at hpr
      rcases mem_append.mp hpr with hpr | hpr
      · refine ih left.length ?_ left rfl part hpr
        rw [← hlen, hpt, length_append, length_cons]
        omega
      · exact mem_singleton.mp hpr ▸ hrt

theorem slash_notMem_childOf {rest child : Text} {own : Bool}
    (h : childOf 1 rest = some (child, own)) : slash ∉ child := by
  unfold childOf at h
  dsimp only at h
  split at h
  · cases h
  next hpts =>
  obtain ⟨hch, -⟩ := mk.inj (Option.some.inj h)
  cases hsg : segments rest with
  | nil => simp [hsg] at hpts
  | cons part parts =>
    rw [hsg] at hch
    have hpr : slash ∉ part := slash_notMem_segments rest part (by simp [hsg])
    rw [← hch]
    simpa [join] using hpr

/-- A walk keeps what entering a key keeps. -/
theorem visit_kept {σ α : Type} {c : Cursor σ} {enter : DocumentKey → α → α × Option Text}
    {P : α → Prop} (hen : ∀ key collected, P collected → P (enter key collected).1) :
    ∀ {fuel s collected found}, P collected → visit c enter fuel s collected = some found →
      P found := by
  intro fuel
  induction fuel with
  | zero => exact fun _ h => nomatch h
  | succ fuel ih =>
    intro s collected found hP h
    rw [visit] at h
    split at h
    · exact Option.some.inj h ▸ hP
    · exact ih (hen _ _ hP) h

/-- The children entered in a collection are single segments. -/
theorem slash_notMem_enterChild {start : Text} (key : DocumentKey) (children : Map Text Bool)
    (h : ∀ child ∈ children, slash ∉ child) :
    ∀ child ∈ (enterChild 1 start key children).1, slash ∉ child := by
  have hin : ∀ {child : Text} {own present : Bool},
      childOf 1 (key.path.bytes.drop start.length) = some (child, own) →
      ∀ c ∈ children.insert child present, slash ∉ c := by
    intro child own present hch c hc
    rcases mem_insert.mp hc with heq | hc
    · exact LawfulEqOrd.eq_of_compare heq ▸ slash_notMem_childOf hch
    · exact h c hc
  unfold enterChild
  split
  · exact h
  · next hch => exact hin hch
  · next hch =>
    dsimp only
    split
    · exact h
    · exact hin hch

/-- The children of a named collection lie in it. -/
theorem collection_directChildren {s : Snapshot} {child : DocumentKey × Bool}
    (h : child ∈ s.directChildren r.database r.parent (some r.collectionId)) :
    child.1.database = r.database ∧ child.1.collectionPath = (r.below r.collectionId).bytes := by
  simp only [Snapshot.directChildren, Grpc.directChildren, listDepth, Option.isSome_some, if_true] at h
  generalize hvst : visit _ _ _ _ _ = found at h
  cases found with
  | none => cases h
  | some children =>
  obtain ⟨⟨name, own⟩, hname, hkey⟩ := mem_filterMap.mp h
  obtain ⟨path, hpt, hkey⟩ := Option.bind_eq_some_iff.mp hkey
  obtain ⟨key, hnew, hkey⟩ := Option.bind_eq_some_iff.mp hkey
  obtain rfl := Option.some.inj hkey
  have hsl : slash ∉ name := visit_kept slash_notMem_enterChild (fun _ h => absurd h not_mem_empty)
    hvst name (mem_iff_isSome_getElem?.mpr (by rw [mem_toList_iff_getElem?_eq_some.mp hname]; rfl))
  obtain ⟨hdb, hkp⟩ := DocumentKey.new_eq_some hnew
  have hspl : key.path.bytes = (r.below r.collectionId).bytes ++ slash :: name := by
    rw [hkp, Str.bytes_of_fromUtf8 hpt]
    cases hpar : r.parent with
    | none => simp [listStart, ListDocumentsRequest.below, hpar]
    | some parent => simp [listStart, ListDocumentsRequest.below, hpar, ListDocumentsRequest.slashStr]
  exact ⟨hdb, collectionPath_of_path hspl hsl⟩

theorem segments_inj {a b : Text} (h : segments a = segments b) : a = b := by
  calc
    a = join (segments a) := (intercalate_splitOn slash).symm
    _ = join (segments b) := congrArg join h
    _ = b := intercalate_splitOn slash

/-- A direct child of a named collection lies in it. -/
theorem collection_of_directChildMatches (hid : r.collectionId.bytes ≠ [])
    (h : directChildMatches key.path.bytes r = true) :
    key.collectionPath = (r.below r.collectionId).bytes := by
  simp only [directChildMatches, Bool.and_eq_true, Bool.or_eq_true, decide_eq_true_eq,
    List.isEmpty_iff, hid, false_or] at h
  obtain ⟨⟨hlen, htk⟩, hget⟩ := h
  rw [key.segments_path] at hlen htk hget
  have hone : (segments key.collectionPath).length
      = (r.parent.elim [] fun parent => segments parent.bytes).length + 1 := by
    simpa using hlen
  rw [take_append_of_le_length (by omega)] at htk
  rw [getElem?_append_left (by omega)] at hget
  have hpts : segments key.collectionPath
      = (r.parent.elim [] fun parent => segments parent.bytes) ++ [r.collectionId.bytes] := by
    have hlast := take_add_one (l := segments key.collectionPath)
      (i := (r.parent.elim [] fun parent => segments parent.bytes).length)
    rw [List.take_of_length_le hone.le, htk, hget] at hlast
    exact hlast
  have hsl : slash ∉ r.collectionId.bytes :=
    slash_notMem_segments key.collectionPath _ (by simp [hpts])
  apply segments_inj
  rw [hpts]
  cases hpar : r.parent with
  | none =>
    simp only [ListDocumentsRequest.below, hpar, Option.elim]
    rw [segments, splitOn_eq_singleton hsl]
    rfl
  | some parent =>
    have hbyt : (r.below r.collectionId).bytes = parent.bytes ++ slash :: r.collectionId.bytes := by
      simp [ListDocumentsRequest.below, hpar, ListDocumentsRequest.slashStr]
    rw [hbyt, segments, splitOn_append_cons_self, splitOn_eq_singleton hsl]
    rfl

/-- The loop over a named collection keeps candidates of it. -/
theorem mem_presentLoop {token : Option (DocumentKey × Document)}
    {source docs : List (DocumentKey × Document)} {d : DocumentKey × Document}
    (h : d ∈ presentLoop r orders token source docs) :
    d ∈ docs ∨ d ∈ source ∧ directChildMatches d.1.path.bytes r = true := by
  induction source generalizing docs with
  | nil => exact .inl h
  | cons candidate rest ih =>
    have later : ∀ {docs' : List (DocumentKey × Document)},
        d ∈ presentLoop r orders token rest docs' →
        d ∈ docs' ∨ d ∈ candidate :: rest ∧ directChildMatches d.1.path.bytes r = true :=
      fun h => (ih h).imp_right fun h => ⟨mem_cons_of_mem _ h.1, h.2⟩
    rw [presentLoop] at h
    split at h
    · exact later h
    next hkp =>
    have hmt : directChildMatches candidate.1.path.bytes r = true := by
      by_contra hno
      simp [hno] at hkp
    have inserted : ∀ {n : Nat}, d ∈ (place orders.compare candidate docs).take n →
        d ∈ docs ∨ d ∈ candidate :: rest ∧ directChildMatches d.1.path.bytes r = true := by
      intro n hmem
      rcases eq_or_mem_of_mem_insertIdx (mem_of_mem_take hmem) with rfl | hmem
      · exact .inr ⟨mem_cons_self, hmt⟩
      · exact .inl hmem
    dsimp only at h
    split at h
    · exact inserted h
    · exact (later h).elim inserted .inr

theorem mem_paginateKeys {sorted : List (DocumentKey × Bool)} {k : DocumentKey × Bool}
    (h : k ∈ (paginateKeys sorted r).1) : k ∈ sorted := by
  have hmem := mem_of_mem_take h
  cases htok : r.pageToken with
  | none => simpa [htok] using hmem
  | some token =>
    rw [htok] at hmem
    exact (dropWhile_sublist _).subset (mem_of_mem_drop hmem)

/-- **A named collection lists its own documents.** -/
theorem collection_collect {s : Snapshot} (hid : r.collectionId.bytes ≠ []) {d : ListedDocument}
    (h : d ∈ (collectListDocuments s r orders).1) :
    d.key.database = r.database ∧ d.key.collectionPath = (r.below r.collectionId).bytes := by
  unfold collectListDocuments at h
  split at h
  · have hcol : ∃ token, d ∈ (collectPresent.collect s r orders token).1 := by
      unfold collectPresent at h
      split at h
      · split at h
        · cases h
        · exact ⟨_, h⟩
      · exact ⟨_, h⟩
    obtain ⟨token, hcol⟩ := hcol
    rw [collectPresent.collect, if_neg (by simpa using hid)] at hcol
    obtain ⟨found, hfd, rfl⟩ := mem_map.mp hcol
    rcases mem_presentLoop (mem_of_mem_take hfd) with hnn | ⟨hsrc, hmt⟩
    · cases hnn
    refine ⟨?_, collection_of_directChildMatches hid hmt⟩
    obtain ⟨key, hkey, hsm⟩ := mem_filterMap.mp hsrc
    obtain ⟨doc, -, rfl⟩ := Option.map_eq_some_iff.mp hsm
    have hgrp := ((s.indexed.members _ key).mp
      (ExtTreeSet.mem_toList.mp ((mem_insertionSort _).mp hkey))).2
    exact congrArg ScopeKey.database hgrp
  · simp only [List.isEmpty_iff, hid, if_false] at h
    obtain ⟨k, hk, rfl⟩ := List.mem_map.mp h
    exact collection_directChildren ((List.mem_insertionSort _).mp (mem_paginateKeys hk))

/-- The candidate of a named collection lies in it. -/
theorem collection_candidate (hid : r.collectionId.bytes ≠ []) {candidate : DocumentKey}
    (h : listCandidateKey r = .ok candidate) :
    candidate.database = r.database ∧
      candidate.collectionPath = (r.below r.collectionId).bytes := by
  simp only [listCandidateKey, List.isEmpty_iff, hid, if_false] at h
  obtain ⟨hdb, hpt⟩ := DocumentKey.new_eq_some (congrArg Except.toOption h)
  have hspl : candidate.path.bytes
      = (r.below r.collectionId).bytes ++ slash :: candidateId.bytes := by
    rw [hpt]
    simp [ListDocumentsRequest.slashStr]
  exact ⟨hdb, collectionPath_of_path hspl (by decide)⟩

/-- **A listing of a named collection shows only collections the client may list**: its documents
lie in one collection, and the rules allow a `list` with that scope and no filter. -/
theorem listed_allowed {installed : Option (List (MatchBlock Auth))} {auth : Option Auth}
    {time : Timestamp} {s : Snapshot} {orders : ListOrders} {indexed : Bool}
    {r : ListDocumentsRequest} (hid : r.collectionId.bytes ≠ [])
    {docs : List ListedDocument} {token : Option DocumentKey}
    (h : listDocuments installed (.client auth) time s orders indexed r = .ok (docs, token)) :
    ∀ d ∈ docs, d.key.database = r.database ∧
      ∃ request : ListRequest Auth, request.scope = .collection d.key.collectionPath ∧
        request.databaseId = r.database.databaseId.bytes ∧ request.time = time ∧
        allowed installed (.client auth) request s.documents = true := by
  unfold listDocuments at h
  split at h; · cases h
  split at h; · cases h
  split at h; · cases h
  split at h; · cases h
  split at h; · cases h
  split at h
  · cases h
  next candidate hcan =>
  split at h
  · next hall =>
    obtain ⟨rfl, rfl⟩ := mk.inj (Except.ok.inj h).symm
    intro d hd
    obtain ⟨hdb, hcol⟩ := collection_collect hid hd
    obtain ⟨hsm, hcan⟩ := collection_candidate hid hcan
    refine ⟨hdb, listRequest r orders time candidate, ?_, ?_, rfl, hall⟩
    · rw [listRequest, hcol, hcan]
    · rw [listRequest, hsm]
  · cases h

/-! ### Without a collection id -/

/-- One document, `c/a`. -/
def sampleSnapshot : Snapshot where
  documents := put ∅ exampleKey (some ⟨.sample, .zero, .zero⟩)
  collections := updateCollectionIndex ∅ exampleKey true
  indexed :=
    have hemp : Indexes collectionKey ∅ (State.Live ∅) :=
      Indexes.empty.congr fun k => by simp [State.Live]
    State.indexes_put hemp exampleKey (some _)

def nameOrder : ListOrders where
  clauses := []
  isDefault := true
  holds _ := true
  compare a b := compareResourcePaths a.1.path.bytes b.1.path.bytes

/-- Lists one collection to everyone. -/
def onlyCollection (collection : Text) : List (MatchBlock Unit) :=
  [.mk [.literal (ascii "databases"), .wildcard (ascii "database"), .literal (ascii "documents")] []
    [.mk [.literal collection, .wildcard (ascii "document")] [⟨[.list], fun _ _ _ => true⟩] []]]

/-- The first page below the root. -/
def firstPage (collectionId : Str) : ListDocumentsRequest :=
  { database := exampleDatabase, parent := none, collectionId, pageSize := 0, pageToken := none
    showMissing := false }

def epoch : Timestamp := .zero

theorem listed_allowed_one :
    ∃ docs token, listDocuments (some (onlyCollection (ascii "c"))) (.client none) epoch
        sampleSnapshot nameOrder true (firstPage ⟨ascii "c", by decide⟩) = .ok (docs, token) ∧
      docs.length = 1 ∧ ∀ d ∈ docs, d.key.database = exampleDatabase ∧
        ∃ request : ListRequest Unit, request.scope = .collection d.key.collectionPath ∧
          request.databaseId = exampleDatabase.databaseId.bytes ∧ request.time = epoch ∧
          allowed (some (onlyCollection (ascii "c"))) (.client none) request
            sampleSnapshot.documents = true := by
  have hlis : ((listDocuments (some (onlyCollection (ascii "c"))) (.client none) epoch
      sampleSnapshot nameOrder true (firstPage ⟨ascii "c", by decide⟩)).toOption.any
        fun answer => answer.1.length == 1) = true := by decide +kernel
  obtain ⟨⟨docs, token⟩, hans, hlen⟩ := (Option.any_eq_true _ _).mp hlis
  have hok : listDocuments (some (onlyCollection (ascii "c"))) (.client none) epoch
      sampleSnapshot nameOrder true (firstPage ⟨ascii "c", by decide⟩) = .ok (docs, token) := by
    revert hans
    cases listDocuments (some (onlyCollection (ascii "c"))) (.client none) epoch
      sampleSnapshot nameOrder true (firstPage ⟨ascii "c", by decide⟩) with
    | error e => exact fun h => nomatch h
    | ok answer => exact fun h => congrArg Except.ok (Option.some.inj h)
  exact ⟨docs, token, hok, eq_of_beq hlen, listed_allowed (by decide) hok⟩

/-- **A listing without a collection id shows what no `list` allows**: rules that let a client list
only a collection called `rules-candidate` answer with the document `c/a`, and refuse every `list` of
the collection `c`. -/
theorem unnamed_leaks :
    ((listDocuments (some (onlyCollection candidateId.bytes)) (.client none) epoch
        sampleSnapshot nameOrder true (firstPage ⟨[], by decide⟩)).toOption.any
          fun answer => answer.1.any fun d => d.key = exampleKey) = true ∧
      exampleKey.collectionPath = ascii "c" ∧
      ∀ request : ListRequest Unit, request.scope = .collection (ascii "c") →
        allowed (some (onlyCollection candidateId.bytes)) (.client none) request
          sampleSnapshot.documents = false := by
  refine ⟨by decide +kernel, by decide, fun request hsc => ?_⟩
  have hoth : ¬candidateId.bytes = ascii "c" := by decide
  have hone : segments (ascii "c") = [ascii "c"] := by decide
  simp [allowed, evaluate, walkAll, walk, onlyCollection, domain, hsc, hone, matchDomain, hoth]

end Firenook.Grpc
