import Firenook.Storage.Levels

/-!
# Views — sorted and filtered views of a folder, and the cache that serves them

A view is built from a base, the rows of a folder copied in rounds under short holds of the lock;
objects may change between two rounds. Views and bases are kept with the stamp the folder had when
their request began. The model leaves the scheduling open: requests, builds and changes interleave
in any order, the cache may drop anything at any time, and a request that finds its folder moved may
be answered with the old view, marked stale, or have it rebuilt.
-/

namespace Firenook.Storage

/-! ### Rows -/

inductive ListKind where
  | all
  | folders
  | files
  deriving DecidableEq

inductive SortColumn where
  | name
  | size
  | updated
  | type
  deriving DecidableEq

structure ListOrder where
  column : SortColumn
  descending : Bool
  deriving DecidableEq

/-- What a sort or a filter reads of one entry. -/
structure Facts where
  size : Nat
  updated : Int
  contentType : Option Text
  folder : Bool
  token : Bool
  metadata : Bool
  encoding : Bool
  cache : Bool
  deriving DecidableEq

/-- An entry of a base: its name below the folder, and its facts. -/
structure Row where
  name : Text
  facts : Facts
  deriving DecidableEq

def folderFacts (stats : FolderStats) : Facts :=
  ⟨stats.bytes, stats.changedAtMs.getD 0, none, true, false, false, false, false⟩

def fileFacts (millis : Text → Option Int) (o : StoredObject) : Facts :=
  ⟨o.size, (millis o.updated).getD 0, o.contentType, false, !o.downloadTokens.isEmpty,
    !o.customMetadata.isEmpty, o.contentEncoding.isSome, o.cacheControl.isSome⟩

/-- What the cache asks of a filter. -/
structure StorageFilter where
  namesOnly : Bool
  needsObjects : Bool
  matchesFolder : Text → Bool
  matchesFacts : Text → Facts → Bool
  matchesObject : Text → StoredObject → Bool

/-! ### Rounds -/

/-- The entries one hold of the lock copies. -/
def chunkSize : Nat := 10000

/-- Where a walk continues. -/
inductive Resume where
  | start
  | afterItem (key : Text)
  | afterGroup (group : Text)
  | done
  deriving DecidableEq

/-- The keys a walk has yet to reach. -/
def Resume.ahead : Resume → Text → Bool
  | .start, _ => true
  | .afterItem k, key => compare k key = .lt
  | .afterGroup g, key => compare (g ++ lastScalar) key = .lt
  | .done, _ => false

def Resume.group : Resume → Option Text
  | .afterGroup g => some g
  | _ => none

/-- A folder as a view sees it: one level, or everything below it. -/
structure Place where
  bucket : Text
  path : Text
  flat : Bool
  deriving DecidableEq

def Place.level (l : Place) : Level := ⟨l.bucket, l.path, if l.flat then none else some [slash]⟩

/-- The range of a round. `scope_end` is where the keys of a scope end that is the bucket's root or
a prefix with a slash at its end. -/
def roundRange (objects : Objects) (l : Place) (resume : Resume) : List (Text × StoredObject) :=
  objects.toList.filter fun e => l.level.scope.isPrefixOf e.1 && resume.ahead e.1

/-- The entries a round steps over. -/
def roundEntries (data : StorageData) (l : Place) (resume : Resume) : List LevelEntry :=
  let range := roundRange data.objects l resume
  (levelWalk l.level range.length range resume.group).take chunkSize

def resumeAfter (l : Place) (entries : List LevelEntry) : Resume :=
  if entries.length < chunkSize then .done
  else match entries.getLast? with
    | some (.group g) => .afterGroup (objectKey l.bucket g)
    | some (.item o) => .afterItem (objectKey l.bucket o.name)
    | none => .done

/-- The level's own marker is left out and, in a flat walk, every marker. -/
def visits (l : Place) : LevelEntry → Bool
  | .group _ => true
  | .item o => !(o.isMarker && (l.flat || o.name == l.path))

/-- A walk in progress: what it has found, and where it continues. -/
structure Walk (α : Type) where
  found : List α := []
  resume : Resume := .start

/-- One round of `walk_chunks`. -/
def walkRound {α : Type} (visit : StorageData → LevelEntry → List α) (l : Place) (data : StorageData)
    (w : Walk α) : Walk α :=
  if w.resume = .done then w
  else
    let entries := roundEntries data l w.resume
    ⟨w.found ++ (entries.filter (visits l)).flatMap (visit data), resumeAfter l entries⟩

/-- `build_base`'s visit. -/
def rowOf (millis : Text → Option Int) (l : Place) (data : StorageData) : LevelEntry → List Row
  | .group g => [⟨g.drop l.path.length, folderFacts ((data.stats l.bucket g).getD {})⟩]
  | .item o => [⟨o.name.drop l.path.length, fileFacts millis o⟩]

/-- `object_matches`'s visit: the names that match. -/
def matchOf (filter : StorageFilter) (l : Place) (_ : StorageData) : LevelEntry → List Text
  | .group _ => []
  | .item o =>
    if filter.matchesObject (o.name.drop l.path.length) o then [o.name.drop l.path.length] else []

/-! ### What a view shows -/

structure ViewKey where
  place : Place
  kind : ListKind
  order : ListOrder
  filter : Text
  deriving DecidableEq

/-- `ViewKey::subtree`: whether the view is stamped by its folder's subtree. -/
def ViewKey.subtree (k : ViewKey) : Bool :=
  k.place.flat || k.order.column == .size || k.order.column == .updated

section

variable (key : ViewKey) (filter : Option StorageFilter)

def keepFolders : Bool := key.kind != .files && !key.place.flat && filter.all (·.namesOnly)

def keepFiles : Bool := key.kind != .folders

/-- A filter that reads objects needs a walk of its own. -/
def readsObjects : Bool := filter.any (·.needsObjects) && keepFiles key

/-- Whether a row of the base is kept; `matched` are the names such a walk found. The names of a
base are in order, so its binary search finds a name iff the base has it. -/
def keeps (matched : Option (List Text)) (r : Row) : Bool :=
  if r.facts.folder then keepFolders key filter && filter.all (·.matchesFolder r.name)
  else if !keepFiles key then false
  else match matched with
    | some names => names.contains r.name
    | none => filter.all (·.matchesFacts r.name r.facts)

end

/-- The content types of a base, sorted. -/
def typesOf (rows : List Row) : List Text :=
  ((rows.filterMap (·.facts.contentType)).foldl (fun types t => types.insert t)
    (∅ : Std.ExtTreeSet Text)).toList

def typeId (types : List Text) : Option Text → Nat
  | none => 2 ^ 32 - 1
  | some t => types.idxOf t

/-- `Base::key`. -/
def sortKey (column : SortColumn) (types : List Text) (facts : Facts) : Nat :=
  match column with
  | .name => 0
  | .size => facts.size
  | .updated => (facts.updated + 2 ^ 63).toNat
  | .type => if facts.folder then 0 else typeId types facts.contentType

/-- A kept entry, with what orders it and what it adds to the totals. -/
structure Entry where
  folder : Bool
  key : Nat
  index : Nat
  name : Text
  bytes : Nat

def Entry.of (column : SortColumn) (types : List Text) (r : Row × Nat) : Entry :=
  ⟨r.1.facts.folder, sortKey column types r.1.facts, r.2, r.1.name,
    if r.1.facts.folder then 0 else r.1.facts.size⟩

/-- Folders first whatever the direction; names are in base order, so the index orders as the
name. -/
def Entry.compare (descending : Bool) (a b : Entry) : Ordering :=
  (Ord.compare b.folder a.folder).then
    (let ordering := (Ord.compare a.key b.key).then (Ord.compare a.index b.index)
     if descending then ordering.swap else ordering)

/-- What a view shows: its entries in order, each by its folder flag, its key and its name, and its
totals. -/
structure Shown where
  entries : List (Bool × Nat × Text)
  folders : Nat
  files : Nat
  bytes : Nat
  deriving DecidableEq

/-- The part of `build` after the walks. -/
def arrange (key : ViewKey) (filter : Option StorageFilter) (rows : List Row)
    (matched : Option (List Text)) : Shown :=
  let kept := rows.zipIdx.filter fun r => keeps key filter matched r.1
  let entries := (kept.map (Entry.of key.order.column (typesOf rows))).insertionSort
    fun a b => (Entry.compare key.order.descending a b).isLE = true
  { entries := entries.map fun e => (e.folder, e.key, e.name)
    folders := entries.countP (·.folder)
    files := entries.countP (!·.folder)
    bytes := min (entries.map (·.bytes)).sum (2 ^ 64 - 1) }

/-! ### The cache -/

/-- Every entry of a level, or of everything below a folder, in name order, with the revision of the
folder's subtree when its request began. -/
structure Base where
  rows : List Row
  stamp : Nat

/-- What a view shows, the revision it stands for and the folder's change counter. -/
structure View where
  stamp : Nat
  changes : Nat
  shown : Shown

/-- `stamp_of`: the revision and the change counter a view stands for. -/
def stampOf (stats : Option FolderStats) (subtree : Bool) : Nat × Nat :=
  match stats with
  | none => (0, 0)
  | some s => if subtree then (s.subtreeRev, s.subtreeChanges) else (s.levelRev, s.levelChanges)

/-- A request with the stamps it read, at the data's revision `began`. -/
structure ViewRequest where
  key : ViewKey
  stamp : Nat
  changes : Nat
  subtreeStamp : Nat
  began : Nat
  deriving DecidableEq

def StorageData.request (data : StorageData) (key : ViewKey) : ViewRequest :=
  let figures := data.stats key.place.bucket key.place.path
  ⟨key, (stampOf figures key.subtree).1, (stampOf figures key.subtree).2, (stampOf figures true).1,
    data.revision⟩

/-- A build in progress. -/
inductive Job where
  | begun (request : ViewRequest)
  | walking (request : ViewRequest) (walk : Walk Row)
  | matching (request : ViewRequest) (base : Base) (walk : Walk Text)
  | built (request : ViewRequest) (view : View)

def Job.request : Job → ViewRequest
  | .begun r => r
  | .walking r _ => r
  | .matching r _ _ => r
  | .built r _ => r

structure Service where
  data : StorageData
  views : ViewKey → Option View
  bases : Place → Option Base
  /-- Requests that have read their stamps. -/
  waiting : List ViewRequest
  /-- Requests that wait for a build of their key and stamp. -/
  joined : List ViewRequest
  jobs : List Job

/-- A view as a request gets it. -/
structure Served where
  request : ViewRequest
  view : View
  stale : Bool

section

variable (millis : Text → Option Int) (filters : Text → Option StorageFilter)

/-- The view of a request from its base and the names a walk has matched. -/
def viewOf (r : ViewRequest) (base : Base) (matched : Option (List Text)) : View :=
  ⟨r.stamp, r.changes, arrange r.key (filters r.key.filter) base.rows matched⟩

/-- `build` with its base at hand. -/
def withBase (r : ViewRequest) (base : Base) : Job :=
  if readsObjects r.key (filters r.key.filter) then .matching r base {}
  else .built r (viewOf filters r base none)

/-- One hold of a lock by a build: the base is looked up, rows are copied, or names are matched. -/
def Job.advance (s : Service) : Job → Job × Option Base
  | .begun r =>
    match (s.bases r.key.place).filter fun base => base.stamp = r.subtreeStamp with
    | some base => (withBase filters r base, none)
    | none => (.walking r {}, none)
  | .walking r w =>
    if w.resume = .done then
      (withBase filters r ⟨w.found, r.subtreeStamp⟩, some ⟨w.found, r.subtreeStamp⟩)
    else (.walking r (walkRound (rowOf millis r.key.place) r.key.place s.data w), none)
  | .matching r base w =>
    match filters r.key.filter with
    | none => (.matching r base w, none)
    | some filter =>
      if w.resume = .done then (.built r (viewOf filters r base (some w.found)), none)
      else (.matching r base (walkRound (matchOf filter r.key.place) r.key.place s.data w), none)
  | .built r v => (.built r v, none)

namespace Service

/-- The cache as a finished build leaves it: a view with a later stamp stays. -/
def keep (s : Service) (r : ViewRequest) (v : View) : ViewKey → Option View :=
  if (s.views r.key).any fun old => v.stamp < old.stamp then s.views
  else Function.update s.views r.key (some v)

/-- A build moves on, and a base it has finished goes to the cache. -/
def advance (s : Service) (before after : List Job) (job : Job) : Service :=
  { s with
    jobs := before ++ (job.advance millis filters s).1 :: after
    bases := match (job.advance millis filters s).2 with
      | some base => Function.update s.bases job.request.key.place (some base)
      | none => s.bases }

/-- The steps of a service whose folder index is built. A key is asked for only if `permitted`. -/
inductive Step (permitted : StorageData → ViewKey → Prop) (s : Service) :
    Option Served → Service → Prop
  | change {data : StorageData} (h : StorageData.Step millis s.data data) (hfits : Fits data.values) :
      Step permitted s none { s with data }
  | evict {views : ViewKey → Option View} {bases : Place → Option Base}
      (hviews : ∀ k, views k = none ∨ views k = s.views k)
      (hbases : ∀ l, bases l = none ∨ bases l = s.bases l) : Step permitted s none { s with views, bases }
  | begin {key : ViewKey} (ok : permitted s.data key) :
      Step permitted s none { s with waiting := s.data.request key :: s.waiting }
  | hit {r : ViewRequest} {v : View} (hr : r ∈ s.waiting) (hv : s.views r.key = some v)
      (hstamp : v.stamp = r.stamp) :
      Step permitted s (some ⟨r, v, false⟩) { s with waiting := s.waiting.erase r }
  | stale {r : ViewRequest} {v : View} (hr : r ∈ s.waiting) (hv : s.views r.key = some v)
      (hstamp : v.stamp ≠ r.stamp) :
      Step permitted s (some ⟨r, v, true⟩) { s with waiting := s.waiting.erase r }
  | build {r : ViewRequest} (hr : r ∈ s.waiting)
      (miss : ∀ v, s.views r.key = some v → v.stamp ≠ r.stamp) :
      Step permitted s none { s with
        waiting := s.waiting.erase r, joined := r :: s.joined, jobs := .begun r :: s.jobs }
  | join {r : ViewRequest} {job : Job} (hr : r ∈ s.waiting)
      (miss : ∀ v, s.views r.key = some v → v.stamp ≠ r.stamp) (hjob : job ∈ s.jobs)
      (hkey : job.request.key = r.key) (hstamp : job.request.stamp = r.stamp) :
      Step permitted s none { s with waiting := s.waiting.erase r, joined := r :: s.joined }
  | job {before after : List Job} {job : Job} (hjobs : s.jobs = before ++ job :: after) :
      Step permitted s none (s.advance millis filters before after job)
  | finish {r q : ViewRequest} {v : View} (hr : r ∈ s.joined) (hjob : .built q v ∈ s.jobs)
      (hkey : q.key = r.key) (hstamp : q.stamp = r.stamp) :
      Step permitted s (some ⟨r, v, false⟩)
        { s with joined := s.joined.erase r, views := s.keep r v }

/-- The states a service goes through from the moment its folder index is built. -/
inductive Run (permitted : StorageData → ViewKey → Prop) : Service → Prop
  | start {data : StorageData} (run : StorageData.Run millis data) {index : FolderIndex}
      (hindex : data.folders = some index) (hbuilt : index.progress = .built) :
      Run permitted ⟨data, fun _ => none, fun _ => none, [], [], []⟩
  | step {s s' : Service} {served : Option Served} (run : Run permitted s)
      (h : Step millis filters permitted s served s') : Run permitted s'

end Service

/-- A view built from scratch while nothing changes, in at most `fuel` rounds a walk. -/
def scratch (data : StorageData) (key : ViewKey) (fuel : Nat) : Option Shown :=
  let rows := (walkRound (rowOf millis key.place) key.place data)^[fuel] {}
  let filter := filters key.filter
  if rows.resume ≠ .done then none
  else match filter with
    | some f =>
      if readsObjects key filter then
        let matched := (walkRound (matchOf f key.place) key.place data)^[fuel] {}
        if matched.resume ≠ .done then none
        else some (arrange key filter rows.found (some matched.found))
      else some (arrange key filter rows.found none)
    | none => some (arrange key filter rows.found none)

end

end Firenook.Storage
