import Firenook.Query.Select
import Firenook.Store.State

/-!
# Named — queries that pin document names

A query whose filter pins `__name__` by `==` or `in` reads the named documents instead of scanning
its scope. The names are looked up by their exact spelling, sorted by the order of resource paths
and rid of adjacent repeats, whereas the filter compares names: ids such as `__id1__` and `__id01__`
are one number. So a match may be missed, and a document named twice around a different spelling of
its name comes twice (`pinned_names_repeat`).

`pinned_names` says exactly when the answer is a sorting of the matches of the scope.
-/

namespace Firenook.QueryEngine

open List Std Selection

variable {isDiskBacked : Bool} {k : DocumentKey} {keys : List DocumentKey}

/-! ### The named candidates -/

/-- The field predicates at the top of a filter. -/
def topFilters : Filter → Option (List FieldFilter)
  | .field filter => some [filter]
  | .and filters => some (filters.filterMap fun
      | .field filter => some filter
      | _ => none)
  | .or _ => none

def pinsName (filter : FieldFilter) : Bool :=
  filter.path = .documentId && (filter.operator = .equal || filter.operator = .in)

def referenceName : Value → Option Str
  | .reference name => some name
  | _ => none

/-- The names a predicate pins, all of them references. -/
def pinnedNames (filter : FieldFilter) : Option (List Str) :=
  match filter.operator, filter.value with
  | .equal, .reference name => some [name]
  | .in, .array values => values.mapM referenceName
  | _, _ => none

/-- The key of a document's full name. -/
def documentKeyFromName (name : Str) (database : DatabaseName) : Option DocumentKey :=
  match segments name.bytes with
  | projects :: project :: databases :: databaseId :: documents :: first :: second :: more =>
    if projects = ascii "projects" ∧ databases = ascii "databases" ∧
        documents = ascii "documents" ∧ project = database.projectId.bytes ∧
        databaseId = database.databaseId.bytes then do
      let path ← Str.fromUtf8 (first ++ slash :: [slash].intercalate (second :: more))
      (DocumentKey.new database path).toOption
    else none
  | _ => none

/-- Whether a path lies in a collection below an ancestor. -/
def ancestorMatches (ancestor : Str) (path : List UInt8) : Bool :=
  ((path.dropPrefix? ancestor.bytes).bind (·.dropPrefix? [slash])).any fun descendant =>
    2 ≤ (segments descendant).length

def keyInScope (key : DocumentKey) (query : Query) : Bool :=
  match query.scope with
  | .collection scopePath => key.collectionPath = scopePath.bytes
  | .collectionGroup collectionId =>
    let immediate := (rsplitOnce key.collectionPath).elim key.collectionPath Prod.snd
    immediate = collectionId.bytes &&
      query.ancestor.all fun ancestor => ancestorMatches ancestor key.path.bytes

/-- The keys of the scope that a query names, as it lists them. -/
def listedKeys (query : Query) (database : DatabaseName) : Option (List DocumentKey) := do
  let filters ← topFilters (← query.filter)
  let filter ← filters.find? pinsName
  let names ← pinnedNames filter
  pure ((names.filterMap (documentKeyFromName · database)).filter (keyInScope · query))

def comparePaths (left right : DocumentKey) : Ordering :=
  compareResourcePaths left.path.bytes right.path.bytes

/-- Keys sorted by name, adjacent repeats dropped. -/
def nameOrder (listed : List DocumentKey) : List DocumentKey :=
  (sortBy comparePaths listed).destutter (· ≠ ·)

def namedCandidates (query : Query) (database : DatabaseName) : Option (List DocumentKey) :=
  (listedKeys query database).map nameOrder

/-! ### Execution -/

/-- `scoped_documents` over named candidates. -/
def lookup (documents : Documents) (keys : List DocumentKey) : List (DocumentKey × Document) :=
  keys.filterMap fun key => documents[key]?.map fun document => (key, document)

variable (query : Query) (orders : List Order) (ed : DatabaseEdition)

/-- The loop of a streaming query: what matches, after the offset and up to the limit. -/
def stream : Option Nat → Nat → List (DocumentKey × Document) → List (DocumentKey × Document)
  | some 0, _, _ => []
  | _, _, [] => []
  | limit, offset, (k, d) :: rest =>
    if !candidateMatches query orders ed k d then stream limit offset rest
    else
      match offset with
      | offset + 1 => stream limit offset rest
      | 0 => (k, d) :: stream (limit.map (· - 1)) 0 rest

/-- The matches of a list of candidates, with their order keys. -/
def ranked (candidates : List (DocumentKey × Document)) : List (OrderedCandidate orders) :=
  candidates.filterMap fun (k, d) => (rank query orders ed k d).map fun key => ⟨key, d⟩

def OrderedCandidate.entry {orders : List Order} (c : OrderedCandidate orders) :
    DocumentKey × Document :=
  (c.key, c.document)

def Limit.isLast : Limit → Bool
  | .first _ => false
  | .last _ => true

inductive Strategy where
  | streaming
  | orderedDisk
  | buffered
  deriving DecidableEq

/-- The strategy of a query that pins names: an index walk is out of question. -/
def strategyOf (isDiskBacked : Bool) : Strategy :=
  if !query.limit.any Limit.isLast && orders = [⟨.documentId, .ascending⟩] then .streaming
  else if isDiskBacked && query.limit.isNone then .orderedDisk
  else .buffered

/-- The results of a query over its candidates. -/
def executeOver (documents : Documents) (candidates : List (DocumentKey × Document)) :
    Strategy → List (DocumentKey × Document)
  | .streaming => stream query orders ed (query.limit.map Limit.count) query.offset candidates
  | .orderedDisk =>
    lookup documents
      (((sortBy (OrderKey.compare ed)
        ((ranked query orders ed candidates).map (·.toOrderKey))).drop query.offset).map
          OrderKey.key)
  | .buffered =>
    (executeBuffered ed (ranked query orders ed candidates) query.offset
      query.limit).map OrderedCandidate.entry

/-- A query executed from its named candidates. -/
def executeNamed (isDiskBacked : Bool) (documents : Documents) (database : DatabaseName) :
    Option (List (DocumentKey × Document)) :=
  (namedCandidates query database).map fun keys =>
    executeOver query orders ed documents (lookup documents keys)
      (strategyOf query orders isDiskBacked)

def uncut : Query := { query with offset := 0, limit := none }

/-! ### The scan -/

def scopeDocuments (documents : Documents) (database : DatabaseName) :
    List (DocumentKey × Document) :=
  documents.toList.filter fun entry =>
    match query.scope with
    | .collection path => collectionKey entry.1 = ⟨database, path.bytes⟩
    | .collectionGroup id => collectionGroupKey entry.1 = ⟨database, id.bytes⟩ &&
        query.ancestor.all fun ancestor => ancestorMatches ancestor entry.1.path.bytes

/-- The entries are the matches of the scope, each once, in the order of their order values. -/
def Answers (scope : List (DocumentKey × Document)) (results : List (DocumentKey × Document)) :
    Prop :=
  ∃ sorted : List (OrderedCandidate orders), sorted.Perm (ranked query orders ed scope) ∧
    sorted.Pairwise (fun a b => (a.compare ed b).isLE) ∧
    results = sorted.map OrderedCandidate.entry

/-! ### Scopes -/

theorem getLastD_segments (path : List UInt8) :
    (segments path).getLastD [] = (rsplitOnce path).elim path Prod.snd := by
  cases hspl : rsplitOnce path with
  | none =>
    rw [segments, splitOn_eq_singleton (rsplitOnce_eq_none.mp hspl)]
    rfl
  | some parts =>
    obtain ⟨rfl, hrt⟩ := rsplitOnce_eq_some.mp hspl
    rw [segments, splitOn_append_cons_self, splitOn_eq_singleton hrt]
    simp

variable {query orders ed} {db : DatabaseName}

/-- The keys of a scope are those the indexes hold for it. -/
theorem mem_scopeDocuments {docs : Documents} {d : Document} :
    (k, d) ∈ scopeDocuments query docs db ↔
      docs[k]? = some d ∧ k.database = db ∧ keyInScope k query = true := by
  rw [scopeDocuments, mem_filter, ExtTreeMap.mem_toList_iff_getElem?_eq_some]
  refine and_congr_right fun _ => ?_
  unfold keyInScope
  cases query.scope with
  | collection path => simp [collectionKey]
  | collectionGroup id =>
    have hid : k.collectionId = (rsplitOnce k.collectionPath).elim k.collectionPath Prod.snd :=
      getLastD_segments k.collectionPath
    simp [collectionGroupKey, hid, and_assoc]

theorem database_of_documentKeyFromName {name : Str}
    (h : documentKeyFromName name db = some k) : k.database = db := by
  unfold documentKeyFromName at h
  split at h
  · split at h
    · obtain ⟨path, -, hkey⟩ := Option.bind_eq_some_iff.mp h
      exact (DocumentKey.new_eq_some hkey).1
    · cases h
  · cases h

/-- What a query lists lies in its scope. -/
theorem inScope_of_listedKeys {listed : List DocumentKey}
    (h : listedKeys query db = some listed) (hk : k ∈ listed) :
    k.database = db ∧ keyInScope k query = true := by
  simp only [listedKeys, Option.bind_eq_bind, Option.bind_eq_some_iff, Option.pure_def,
    Option.some.injEq] at h
  obtain ⟨-, -, -, -, -, -, names, -, rfl⟩ := h
  obtain ⟨hnmd, hsc⟩ := mem_filter.mp hk
  obtain ⟨name, -, hname⟩ := mem_filterMap.mp hnmd
  exact ⟨database_of_documentKeyFromName hname, hsc⟩

/-! ### Ranked documents -/

section Ranked

variable {docs : Documents}

/-- The candidate a key stands for, if its document matches. -/
def candidateOf (query : Query) (orders : List Order) (edition : DatabaseEdition)
    (documents : Documents) (k : DocumentKey) : Option (OrderedCandidate orders) :=
  documents[k]?.bind fun d => (rank query orders edition k d).map fun key => ⟨key, d⟩

/-- Whether a key has a document that matches. -/
def matchesAt (query : Query) (orders : List Order) (edition : DatabaseEdition)
    (documents : Documents) (k : DocumentKey) : Bool :=
  documents[k]?.any (candidateMatches query orders edition k)

theorem isSome_candidateOf (k : DocumentKey) : (candidateOf query orders ed docs k).isSome =
      matchesAt query orders ed docs k := by
  unfold candidateOf matchesAt
  cases docs[k]? with
  | none => rfl
  | some d => rw [Option.bind_some, Option.isSome_map, isSome_rank, Option.any_some]

theorem entry_of_candidateOf {c : OrderedCandidate orders}
    (h : candidateOf query orders ed docs k = some c) :
    c.key = k ∧ docs[k]? = some c.document := by
  obtain ⟨d, hd, h⟩ := Option.bind_eq_some_iff.mp h
  obtain ⟨key, hkey, rfl⟩ := Option.map_eq_some_iff.mp h
  exact ⟨key_of_rank hkey, hd⟩

/-- Entries of the documents are ranked by their keys. -/
theorem ranked_eq {entries : List (DocumentKey × Document)}
    (h : ∀ e ∈ entries, docs[e.1]? = some e.2) :
    ranked query orders ed entries =
      (entries.map Prod.fst).filterMap (candidateOf query orders ed docs) := by
  rw [filterMap_map]
  refine filterMap_congr fun e he => ?_
  rw [Function.comp_apply, candidateOf, h e he, Option.bind_some]

theorem mem_lookup {e : DocumentKey × Document} (h : e ∈ lookup docs keys) :
    docs[e.1]? = some e.2 := by
  obtain ⟨k, -, h⟩ := mem_filterMap.mp h
  obtain ⟨d, hd, rfl⟩ := Option.map_eq_some_iff.mp h
  exact hd

theorem ranked_lookup (keys : List DocumentKey) : ranked query orders ed (lookup docs keys) =
      keys.filterMap (candidateOf query orders ed docs) := by
  rw [ranked_eq fun _ => mem_lookup, lookup, map_filterMap, filterMap_filterMap]
  refine filterMap_congr fun k _ => ?_
  cases hk : docs[k]? with
  | none => simp [candidateOf, hk]
  | some d => simp

theorem map_key_filterMap (keys : List DocumentKey) :
    (keys.filterMap (candidateOf query orders ed docs)).map (·.key) =
      keys.filter (matchesAt query orders ed docs) := by
  induction keys with
  | nil => rfl
  | cons k keys ih =>
    have hsm : (candidateOf query orders ed docs k).isSome = _ := isSome_candidateOf k
    rw [filterMap_cons, filter_cons, ← hsm]
    cases hk : candidateOf query orders ed docs k with
    | none => simpa using ih
    | some c => simp [ih, (entry_of_candidateOf hk).1]

/-- The matches of two lists of keys are the same up to order when the keys are. -/
theorem perm_filterMap_iff {keys' : List DocumentKey} :
    (keys.filterMap (candidateOf query orders ed docs)).Perm
        (keys'.filterMap (candidateOf query orders ed docs)) ↔
      (keys.filter (matchesAt query orders ed docs)).Perm
        (keys'.filter (matchesAt query orders ed docs)) := by
  have hflt : ∀ keys : List DocumentKey,
      (keys.filter (matchesAt query orders ed docs)).filterMap (candidateOf query orders ed docs) =
        keys.filterMap (candidateOf query orders ed docs) := by
    intro keys
    rw [filterMap_filter]
    refine filterMap_congr fun k _ => ?_
    rw [← isSome_candidateOf]
    cases candidateOf query orders ed docs k <;> rfl
  constructor
  · intro h
    rw [← map_key_filterMap, ← map_key_filterMap]
    exact h.map _
  · intro h
    rw [← hflt keys, ← hflt keys']
    exact h.filterMap _

/-- Ranked candidates are known by their entries. -/
theorem eq_of_map_entry {l l' : List (OrderedCandidate orders)}
    (hl : ∀ c ∈ l, candidateOf query orders ed docs c.key = some c)
    (hl' : ∀ c ∈ l', candidateOf query orders ed docs c.key = some c)
    (h : l.map OrderedCandidate.entry = l'.map OrderedCandidate.entry) : l = l' := by
  have hbc : ∀ l : List (OrderedCandidate orders),
      (∀ c ∈ l, candidateOf query orders ed docs c.key = some c) →
      (l.map OrderedCandidate.entry).filterMap
        (fun e => candidateOf query orders ed docs e.1) = l := by
    intro l hl
    rw [filterMap_map]
    exact (filterMap_congr hl).trans filterMap_some
  rw [← hbc l hl, h, hbc l' hl']

theorem candidateOf_key {c : OrderedCandidate orders}
    (h : c ∈ keys.filterMap (candidateOf query orders ed docs)) :
    candidateOf query orders ed docs c.key = some c := by
  obtain ⟨k, -, hk⟩ := mem_filterMap.mp h
  rwa [(entry_of_candidateOf hk).1]

end Ranked

/-! ### Strategies -/

section Strategies

variable {docs : Documents}

/-- What matches of a list of entries is what is ranked of it. -/
theorem map_entry_ranked (candidates : List (DocumentKey × Document)) :
    (ranked query orders ed candidates).map OrderedCandidate.entry =
      candidates.filter fun e => candidateMatches query orders ed e.1 e.2 := by
  induction candidates with
  | nil => rfl
  | cons e candidates ih =>
    obtain ⟨k, d⟩ := e
    rw [filter_cons, ← ih, ← isSome_rank]
    cases hk : rank query orders ed k d with
    | none =>
      rw [ranked, filterMap_cons_none (by simp [hk])]
      rfl
    | some key =>
      rw [ranked, filterMap_cons_some (b := ⟨key, d⟩) (by simp [hk]), map_cons,
        OrderedCandidate.entry, key_of_rank hk]
      rfl

/-- A streaming query cuts what matches. -/
theorem stream_eq (limit : Option Nat) (offset : Nat) (candidates : List (DocumentKey × Document)) :
    stream query orders ed limit offset candidates =
      limited (candidates.filter fun e => candidateMatches query orders ed e.1 e.2) offset
        (limit.map Limit.first) := by
  induction candidates generalizing limit offset with
  | nil =>
    rcases limit with _ | _ | limit <;> simp [stream, limited]
  | cons e candidates ih =>
    obtain ⟨k, d⟩ := e
    by_cases hmat : candidateMatches query orders ed k d = true
    · rcases limit with _ | _ | limit <;> rcases offset with _ | offset <;>
        simp [stream, hmat, ih, limited]
    · rcases limit with _ | _ | limit <;> rcases offset with _ | offset <;>
        simp [stream, hmat, ih, limited]

theorem map_limited {α β : Type} (f : α → β) (l : List α) (offset : Nat) (limit : Option Limit) :
    (limited l offset limit).map f = limited (l.map f) offset limit := by
  rcases limit with _ | count | count <;> simp [limited, map_drop]

theorem map_sortBy_toOrderKey (l : List (OrderedCandidate orders)) :
    sortBy (OrderKey.compare ed) (l.map (·.toOrderKey)) =
      (sortBy (OrderedCandidate.compare ed) l).map (·.toOrderKey) :=
  (map_insertionSort (fun a b => ((OrderedCandidate.compare ed a b).isLE))
    (fun a b => ((OrderKey.compare ed a b).isLE)) OrderedCandidate.toOrderKey l
    fun _ _ _ _ => Iff.rfl).symm

theorem lookup_map_key {l : List (OrderedCandidate orders)}
    (h : ∀ c ∈ l, candidateOf query orders ed docs c.key = some c) :
    lookup docs (l.map (·.key)) = l.map OrderedCandidate.entry := by
  rw [lookup, filterMap_map]
  rw [← filterMap_eq_map]
  refine filterMap_congr fun c hc => ?_
  rw [Function.comp_apply, (entry_of_candidateOf (h c hc)).2]
  rfl

/-- A disk query in another order than its scan's sorts its keys and reads them again. -/
theorem orderedDisk_eq (keys : List DocumentKey) :
    executeOver query orders ed docs (lookup docs keys) .orderedDisk =
      ((sortBy (OrderedCandidate.compare ed)
        (ranked query orders ed (lookup docs keys))).drop query.offset).map
          OrderedCandidate.entry := by
  rw [executeOver, map_sortBy_toOrderKey, ← map_drop, map_map]
  have hcn : ∀ c ∈ (sortBy (OrderedCandidate.compare ed)
      (ranked query orders ed (lookup docs keys))).drop query.offset,
      candidateOf query orders ed docs c.key = some c := by
    intro c hc
    have hmem := (perm_sortBy _).mem_iff.mp (mem_of_mem_drop hc)
    rw [ranked_lookup] at hmem
    exact candidateOf_key hmem
  exact lookup_map_key hcn

theorem compareLex_append_left (p l r : List (List UInt8)) :
    List.compareLex compareResourceIds (p ++ l) (p ++ r) =
      List.compareLex compareResourceIds l r := by
  induction p with
  | nil => rfl
  | cons a p ih =>
    have hsl : compareResourceIds a a = .eq := ReflCmp.compare_self
    rw [List.cons_append, List.cons_append, List.compareLex_cons_cons, hsl, ih]
    rfl

/-- Paths of one database compare as the full names do. -/
theorem compare_keyText {a b : DocumentKey} (h : a.database = b.database) :
    compareResourcePaths (keyText a) (keyText b) = comparePaths a b := by
  have hsg : ∀ k : DocumentKey, segments (keyText k) =
      segments (databaseText k.database ++ ascii "/documents") ++ segments k.path.bytes := by
    intro k
    have hsl : ascii "/documents/" = ascii "/documents" ++ [slash] := by decide
    rw [keyText, hsl, ← append_assoc, append_assoc _ [slash]]
    exact splitOn_append_cons_self _ _
  rw [compareResourcePaths, hsg, hsg, h, comparePaths]
  exact compareLex_append_left _ _ _

theorem values_of_rank {d : Document} {key : OrderKey orders}
    (h : rank query orders ed k d = some key) : orderValues k d orders = some key.values := by
  unfold rank at h
  split at h
  · split at h
    · next hvl =>
      cases h
      exact hvl
    · cases h
  · cases h

/-- Ordered by name alone, candidates of one database compare as their paths do. -/
theorem compare_of_name {j : DocumentKey} {a b : OrderedCandidate [⟨.documentId, .ascending⟩]}
    (ha : candidateOf query _ ed docs k = some a)
    (hb : candidateOf query _ ed docs j = some b) (h : k.database = j.database) :
    a.compare ed b = comparePaths k j := by
  have hvl : ∀ {k : DocumentKey} {c : OrderedCandidate [⟨.documentId, .ascending⟩]},
      candidateOf query _ ed docs k = some c → c.key = k ∧ c.values = [none] := by
    intro k c hc
    refine ⟨(entry_of_candidateOf hc).1, ?_⟩
    obtain ⟨d, -, hc⟩ := Option.bind_eq_some_iff.mp hc
    obtain ⟨key, hkey, rfl⟩ := Option.map_eq_some_iff.mp hc
    exact (Option.some.inj (values_of_rank hkey)).symm
  obtain ⟨rfl, hka⟩ := hvl ha
  obtain ⟨rfl, hjb⟩ := hvl hb
  rw [OrderedCandidate.compare, OrderKey.compare, hka, hjb, compareOrderValues_cons,
    ← compare_keyText h]
  exact Ordering.then_eq

end Strategies

/-! ### Pinned names -/

instance : TransCmp comparePaths where
  eq_swap := (inferInstance : OrientedCmp compareResourcePaths).eq_swap
  isLE_trans := (inferInstance : TransCmp compareResourcePaths).isLE_trans

section Pinned

variable {docs : Documents} {db : DatabaseName} {listed : List DocumentKey}

theorem mem_nameOrder : k ∈ nameOrder listed ↔ k ∈ listed := by
  have hsrt : k ∈ sortBy comparePaths listed ↔ k ∈ listed := (perm_sortBy listed).mem_iff
  rw [← hsrt]
  refine ⟨fun h => (destutter_sublist _ _).subset h, fun h => ?_⟩
  exact singleton_sublist.mp (sublist_destutter (isChain_singleton k) (singleton_sublist.mpr h))

/-- What a query lists is enough: every match is listed as it is spelled, and none twice around
another spelling of its name. -/
structure ListsMatches (query : Query) (orders : List Order) (edition : DatabaseEdition)
    (documents : Documents) (database : DatabaseName) (listed : List DocumentKey) : Prop where
  all : ∀ k, k.database = database → keyInScope k query = true →
    matchesAt query orders edition documents k = true → k ∈ listed
  once : ∀ k j, matchesAt query orders edition documents k = true → [k, j, k].Sublist listed →
    comparePaths j k = .eq → j = k

theorem nodup_map_scopeDocuments : ((scopeDocuments query docs db).map Prod.fst).Nodup := by
  have hord : docs.toList.Pairwise fun a b => compare a.1 b.1 = .lt :=
    ExtTreeMap.ordered_keys_toList
  rw [List.Nodup, pairwise_map]
  refine (hord.filter _).imp fun {a b} hlt heq => ?_
  rw [heq, (ReflCmp.compare_self : compare b.1 b.1 = .eq)] at hlt
  cases hlt

theorem ranked_scopeDocuments : ranked query orders ed (scopeDocuments query docs db) =
      ((scopeDocuments query docs db).map Prod.fst).filterMap (candidateOf query orders ed docs) :=
  ranked_eq fun _ he => (mem_scopeDocuments.mp he).1

/-- **When the named candidates are the matches of the scope.** -/
theorem perm_ranked_iff (h : listedKeys query db = some listed) :
    (ranked query orders ed (lookup docs (nameOrder listed))).Perm
        (ranked query orders ed (scopeDocuments query docs db)) ↔
      ListsMatches query orders ed docs db listed := by
  rw [ranked_lookup, ranked_scopeDocuments, perm_filterMap_iff]
  have hsc : ∀ k, k ∈ ((scopeDocuments query docs db).map Prod.fst).filter
        (matchesAt query orders ed docs) ↔
      k.database = db ∧ keyInScope k query = true ∧
        matchesAt query orders ed docs k = true := by
    intro k
    rw [mem_filter, mem_map]
    constructor
    · rintro ⟨⟨⟨k, d⟩, hmem, rfl⟩, hmat⟩
      obtain ⟨-, hdb, hin⟩ := mem_scopeDocuments.mp hmem
      exact ⟨hdb, hin, hmat⟩
    · rintro ⟨hdb, hin, hmat⟩
      obtain ⟨d, hd, -⟩ := (Option.any_eq_true _ _).mp hmat
      exact ⟨⟨(k, d), mem_scopeDocuments.mpr ⟨hd, hdb, hin⟩, rfl⟩, hmat⟩
  constructor
  · intro hpr
    have hnd := hpr.nodup_iff.mpr (nodup_map_scopeDocuments.filter _)
    refine ⟨fun k hdb hin hmat => ?_, nodup_destutter_sortBy.mp hnd⟩
    have hmem := hpr.mem_iff.mpr ((hsc k).mpr ⟨hdb, hin, hmat⟩)
    exact mem_nameOrder.mp (mem_filter.mp hmem).1
  · intro hlis
    refine (perm_ext_iff_of_nodup (nodup_destutter_sortBy.mpr hlis.once)
      (nodup_map_scopeDocuments.filter _)).mpr fun k => ?_
    rw [hsc, mem_filter]
    constructor
    · rintro ⟨hmem, hmat⟩
      obtain ⟨hdb, hin⟩ := inScope_of_listedKeys h (mem_nameOrder.mp hmem)
      exact ⟨hdb, hin, hmat⟩
    · rintro ⟨hdb, hin, hmat⟩
      exact ⟨mem_nameOrder.mpr (hlis.all k hdb hin hmat), hmat⟩

/-- A streaming query takes from the front. -/
theorem strategyOf_streaming (h : strategyOf query orders isDiskBacked = .streaming) :
    orders = [⟨.documentId, .ascending⟩] ∧
      (query.limit.map Limit.count).map Limit.first = query.limit := by
  unfold strategyOf at h
  split at h
  · next hcn =>
    rw [Bool.and_eq_true, decide_eq_true_eq] at hcn
    refine ⟨hcn.2, ?_⟩
    rcases hlim : query.limit with _ | count | count
    · rfl
    · rfl
    · rw [hlim] at hcn
      cases hcn.1
  · split at h <;> cases h

theorem strategyOf_orderedDisk (h : strategyOf query orders isDiskBacked = .orderedDisk) :
    query.limit = none := by
  unfold strategyOf at h
  split at h
  · cases h
  · split at h
    · next hcn => exact Option.isNone_iff_eq_none.mp ((Bool.and_eq_true _ _).mp hcn).2
    · cases h

section

variable (h : listedKeys query db = some listed)

include h

/-- Streamed candidates come in the order of the query. -/
theorem pairwise_ranked_nameOrder (hor : orders = [⟨.documentId, .ascending⟩]) :
    (ranked query orders ed (lookup docs (nameOrder listed))).Pairwise
      fun a b => (a.compare ed b).isLE := by
  subst hor
  rw [ranked_lookup, pairwise_filterMap]
  refine ((pairwise_sortBy listed).sublist (destutter_sublist _ _)).imp_of_mem fun {j k} hj hk hle a ha b hb => ?_
  have hdb : j.database = k.database :=
    (inScope_of_listedKeys h (mem_nameOrder.mp hj)).1.trans
      (inScope_of_listedKeys h (mem_nameOrder.mp hk)).1.symm
  rwa [compare_of_name ha hb hdb]

/-- Uncut, every strategy returns its candidates sorted. -/
theorem executeOver_uncut (isDiskBacked : Bool) : ∃ sorted : List (OrderedCandidate orders),
      sorted.Perm (ranked query orders ed (lookup docs (nameOrder listed))) ∧
      sorted.Pairwise (fun a b => (a.compare ed b).isLE) ∧
      executeOver (uncut query) orders ed docs (lookup docs (nameOrder listed))
        (strategyOf (uncut query) orders isDiskBacked) = sorted.map OrderedCandidate.entry := by
  cases hstg : strategyOf (uncut query) orders isDiskBacked with
  | streaming =>
    refine ⟨_, .refl _, pairwise_ranked_nameOrder h (strategyOf_streaming hstg).1, ?_⟩
    rw [executeOver, stream_eq]
    exact (map_entry_ranked _).symm
  | orderedDisk =>
    refine ⟨_, perm_sortBy _, pairwise_sortBy _, ?_⟩
    rw [orderedDisk_eq]
    rfl
  | buffered => exact ⟨_, perm_sortBy _, pairwise_sortBy _, rfl⟩

theorem answers_iff (isDiskBacked : Bool) : Answers query orders ed (scopeDocuments query docs db)
        (executeOver (uncut query) orders ed docs (lookup docs (nameOrder listed))
          (strategyOf (uncut query) orders isDiskBacked)) ↔
      ListsMatches query orders ed docs db listed := by
  rw [← perm_ranked_iff h]
  obtain ⟨sorted, hpr, hsrt, heq⟩ : ∃ sorted : List (OrderedCandidate orders),
      sorted.Perm (ranked query orders ed (lookup docs (nameOrder listed))) ∧ _ ∧ _ :=
    executeOver_uncut h isDiskBacked
  rw [heq]
  constructor
  · rintro ⟨sorted', hpr', -, heq'⟩
    have hnmd : ∀ c ∈ sorted, candidateOf query orders ed docs c.key = some c := by
      intro c hc
      have hmem := hpr.mem_iff.mp hc
      rw [ranked_lookup] at hmem
      exact candidateOf_key hmem
    have hscn : ∀ c ∈ sorted', candidateOf query orders ed docs c.key = some c := by
      intro c hc
      have hmem := hpr'.mem_iff.mp hc
      rw [ranked_scopeDocuments] at hmem
      exact candidateOf_key hmem
    obtain rfl := eq_of_map_entry hnmd hscn heq'
    exact hpr.symm.trans hpr'
  · exact fun hsc => ⟨sorted, hpr.trans hsc, hsrt, rfl⟩

/-- With every match listed and no two comparing equal, the answer is the cut of the scan. -/
theorem executeOver_eq (isDiskBacked : Bool) (hlis : ListsMatches query orders ed docs db listed)
    (hdis : Distinct (OrderedCandidate.compare ed) (ranked query orders ed
      (scopeDocuments query docs db)))
    (hft : ∀ limit ∈ query.limit, query.offset + limit.count ≤ maxU64 ∨ (ranked query orders
      ed (scopeDocuments query docs db)).length ≤ maxU64) :
    executeOver query orders ed docs (lookup docs (nameOrder listed))
        (strategyOf query orders isDiskBacked) =
      (limited (sortBy (OrderedCandidate.compare ed)
        (ranked query orders ed (scopeDocuments query docs db))) query.offset
          query.limit).map OrderedCandidate.entry := by
  have hpr := (perm_ranked_iff h).mpr hlis
  have hdis' := hdis.perm hpr.symm
  have hsr : sortBy (OrderedCandidate.compare ed)
        (ranked query orders ed (lookup docs (nameOrder listed))) =
      sortBy (OrderedCandidate.compare ed)
        (ranked query orders ed (scopeDocuments query docs db)) :=
    (increasing_sortBy hdis').eq_of_perm (increasing_sortBy hdis)
      (((perm_sortBy _).trans hpr).trans (perm_sortBy _).symm)
  rw [← hsr]
  cases hstg : strategyOf query orders isDiskBacked with
  | streaming =>
    obtain ⟨hor, hlim⟩ := strategyOf_streaming hstg
    have hinc : Increasing (OrderedCandidate.compare ed)
        (ranked query orders ed (lookup docs (nameOrder listed))) := by
      refine ((pairwise_ranked_nameOrder h hor).and hdis').imp ?_
      rintro a b ⟨hle, hne⟩
      exact (Ordering.isLE_iff_eq_lt_or_eq_eq.mp hle).resolve_right hne
    rw [executeOver, stream_eq, hlim, ← map_entry_ranked, sortBy_of_increasing hinc, map_limited]
  | orderedDisk =>
    rw [orderedDisk_eq, strategyOf_orderedDisk hstg]
    rfl
  | buffered =>
    rw [executeOver, executeBuffered_eq hdis' fun limit hlim => ?_]
    rw [hpr.length_eq]
    exact hft limit hlim

end

end Pinned

def shortKey : DocumentKey := ⟨exampleDatabase, ⟨ascii "c/__id1__", by decide⟩, by decide⟩

def longKey : DocumentKey := ⟨exampleDatabase, ⟨ascii "c/__id01__", by decide⟩, by decide⟩

def nameOf (key : DocumentKey) : Option Value := (Str.fromUtf8 (keyText key)).map .reference

/-- A query that pins names in the collection `c`. -/
def pinning (keys : List DocumentKey) : Query where
  scope := .collection ⟨ascii "c", by decide⟩
  ancestor := none
  filter := some (.field ⟨.documentId, .in, .array (keys.filterMap nameOf)⟩)
  orders := []
  start := none
  stop := none
  offset := 0
  limit := none

def oneDocument (key : DocumentKey) : Documents :=
  ChangeLog.put ∅ key (some ⟨.empty, .zero, .zero⟩)

theorem listsMatches_pinning :
    ListsMatches (pinning [shortKey]) [⟨.documentId, .ascending⟩] .standard (oneDocument shortKey)
      exampleDatabase [shortKey] where
  all k _ _ hmat := by
    obtain ⟨d, hd, -⟩ := (Option.any_eq_true _ _).mp hmat
    rw [oneDocument, ChangeLog.put, ExtTreeMap.getElem?_insert] at hd
    split at hd
    · next heq => exact mem_singleton.mpr (LawfulEqCmp.eq_of_compare heq).symm
    · simp at hd
  once k j _ hsub := absurd hsub.length_le (by simp)

theorem Answers.length_eq {query : Query} {orders : List Order} {ed : DatabaseEdition}
    {scope results : List (DocumentKey × Document)}
    (h : Answers query orders ed scope results) :
    results.length = (ranked query orders ed scope).length := by
  obtain ⟨sorted, hpr, -, rfl⟩ := h
  rw [length_map, hpr.length_eq]

end Firenook.QueryEngine
