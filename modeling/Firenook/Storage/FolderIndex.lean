import Firenook.Storage.Object

/-!
# FolderIndex — counts, sizes and the last change under every folder

A folder is a prefix of names that ends in a slash, or the empty prefix of a bucket's root. The
index keeps the figures of a folder under its parent's prefix and its own segment. One change of
an object (`FolderIndex.apply`) moves the figures of every folder on the chain of its name, notes
the folders that came or went, counts those in every folder above them, and drops the entries of
the ones that went.
-/

namespace Firenook.Storage

open Std

/-! ### Figures -/

/-- One folder's figures. -/
structure FolderStats where
  objects : Nat := 0
  bytes : Nat := 0
  directFiles : Nat := 0
  directBytes : Nat := 0
  folders : Nat := 0
  foldersBelow : Nat := 0
  changedAtMs : Option Int := none
  levelRev : Nat := 0
  subtreeRev : Nat := 0
  levelChanges : Nat := 0
  subtreeChanges : Nat := 0
  placeholder : Bool := false
  markers : Nat := 0
  deriving DecidableEq

/-- `FolderStats::exists`. -/
def FolderStats.present (s : FolderStats) : Bool := decide (0 < s.objects) || decide (0 < s.markers)

/-- What the index needs of an object. -/
structure Shape where
  size : Nat
  marker : Bool
  deriving DecidableEq

def endsInSlash (name : Text) : Bool := name.getLast? == some slash

/-- `Shape::of`: a zero-byte object whose name ends in a slash is a marker, not a file. -/
def Shape.of (o : StoredObject) : Shape := ⟨o.size, o.size == 0 && endsInSlash o.name⟩

/-- How a figure moved: a change the index observed, or an object the walk found. -/
inductive Change where
  | committed (revision : Nat) (atMs : Int)
  | walked (updatedMs : Option Int)

/-- `shift`: a `u64` moved by a signed amount, held at its ends. -/
def shift (value : Nat) (delta : Int) : Nat := min (max (value + delta) 0).toNat (2 ^ 64 - 1)

/-! ### Folders -/

/-- A folder by its parent's prefix and its own segment, slash included; `none` is the root. -/
abbrev Folder := Option (Text × Text)

def Folder.path : Folder → Text
  | none => []
  | some (parent, segment) => parent ++ segment

/-- The folders of a name, from the top, below the prefix `parent` and the part `segment` of the
next segment that has been read. -/
def chainFrom (parent segment : Text) : Text → List (Text × Text)
  | [] => []
  | c :: cs =>
    if c = slash then (parent, segment ++ [c]) :: chainFrom (parent ++ (segment ++ [c])) [] cs
    else chainFrom parent (segment ++ [c]) cs

/-- The root and the folders of a name. -/
def chain (name : Text) : List Folder := none :: (chainFrom [] [] name).map some

theorem exists_last_chain (name : Text) : ∃ last, (chain name).getLast? = some last :=
  ⟨_, List.getLast?_eq_some_getLast (List.cons_ne_nil _ _)⟩

/-- The parent prefix and the segment of a prefix that ends in a slash. -/
def splitFolder (folder : Text) : Text × Text :=
  match rsplitOnce folder.dropLast with
  | none => ([], folder)
  | some (parent, own) => (parent ++ [slash], own ++ [slash])

structure BucketIndex where
  root : FolderStats := {}
  /-- Parent prefix, child segment, the child's figures. -/
  children : ExtTreeMap Text (ExtTreeMap Text FolderStats) := ∅

namespace BucketIndex

/-- `folder_mut`, to read. -/
def folder (index : BucketIndex) : Folder → Option FolderStats
  | none => some index.root
  | some (parent, segment) => index.children[parent]?.bind fun siblings => siblings[segment]?

/-- `folder_mut`, to write; the folder's entry is created when it does not exist yet. -/
def setFolder (index : BucketIndex) (stats : FolderStats) : Folder → BucketIndex
  | none => { index with root := stats }
  | some (parent, segment) => { index with
      children := index.children.insert parent ((index.children.getD parent ∅).insert segment stats) }

/-- `folder_mut`, to change an entry. -/
def modify (index : BucketIndex) (update : FolderStats → FolderStats) (f : Folder) : BucketIndex :=
  match index.folder f with
  | some s => index.setFolder (update s) f
  | none => index

/-- A folder's entry goes, and with the last one the map of its siblings. -/
def dropFolder (index : BucketIndex) : Folder → BucketIndex
  | none => index
  | some (parent, segment) =>
    match index.children[parent]? with
    | none => index
    | some siblings =>
      if (siblings.erase segment).isEmpty then
        { index with children := index.children.erase parent }
      else { index with children := index.children.insert parent (siblings.erase segment) }

end BucketIndex

/-! ### One change -/

def isFile (shape : Option Shape) : Bool := shape.any fun s => !s.marker

def isMarker (shape : Option Shape) : Bool := shape.any fun s => s.marker

def fileBytes (shape : Option Shape) : Nat := shape.elim 0 fun s => if s.marker then 0 else s.size

/-- An object's change, as the folders of its name see it. -/
structure Move where
  name : Text
  before : Option Shape
  after : Option Shape
  change : Change

namespace Move

def objects (m : Move) : Int := (isFile m.after).toNat - (isFile m.before).toNat

def bytes (m : Move) : Int := fileBytes m.after - fileBytes m.before

def markers (m : Move) : Int := (isMarker m.after).toNat - (isMarker m.before).toNat

/-- The figures of a folder of the chain, the last one (`leaf`) or one above it. -/
def counts (m : Move) (leaf : Bool) (s : FolderStats) : FolderStats :=
  let s := { s with
    objects := shift s.objects m.objects
    bytes := shift s.bytes m.bytes
    markers := shift s.markers m.markers }
  if leaf then { s with
    directFiles := shift s.directFiles m.objects
    directBytes := shift s.directBytes m.bytes
    -- The object named exactly this folder: a marker, or a file with an empty name inside it.
    placeholder := if endsInSlash m.name then isMarker m.after else s.placeholder }
  else s

/-- The revisions and the time of a folder of the chain. -/
def stamps (m : Move) (leaf : Bool) (s : FolderStats) : FolderStats :=
  match m.change with
  | .committed revision atMs =>
    let s := { s with
      subtreeRev := revision
      subtreeChanges := s.subtreeChanges + 1
      changedAtMs := some (s.changedAtMs.elim atMs (max · atMs)) }
    if leaf then { s with levelRev := revision, levelChanges := s.levelChanges + 1 } else s
  | .walked none => s
  | .walked (some updatedMs) =>
    { s with changedAtMs := some (s.changedAtMs.elim updatedMs (max · updatedMs)) }

/-- What a folder above one that came (`came`) or went counts. -/
def flip (m : Move) (came isParent : Bool) (s : FolderStats) : FolderStats :=
  let delta := if came then 1 else -1
  let s := { s with foldersBelow := shift s.foldersBelow delta }
  if isParent then
    let s := { s with folders := shift s.folders delta }
    match m.change with
    | .committed revision _ => { s with levelRev := revision, levelChanges := s.levelChanges + 1 }
    | .walked _ => s
  else s

/-- The first pass: every folder of the chain moves. The flips and the folders that are gone are
numbered by their depth. -/
def descend (m : Move) : Nat → List Folder → BucketIndex →
    BucketIndex × List (Nat × Bool) × List Nat
  | _, [], index => (index, [], [])
  | depth, f :: rest, index =>
    let before := (index.folder f).getD {}
    let after := m.stamps rest.isEmpty (m.counts rest.isEmpty before)
    let (index, flips, gone) := m.descend (depth + 1) rest (index.setFolder after f)
    (index,
      if 0 < depth ∧ before.present ≠ after.present then (depth, after.present) :: flips else flips,
      if 0 < depth ∧ after.present = false then depth :: gone else gone)

/-- The folders above one that came or went, down to its parent. -/
def countFlip (m : Move) (came : Bool) : List Folder → BucketIndex → BucketIndex
  | [], index => index
  | f :: rest, index =>
    m.countFlip came rest (index.modify (m.flip came rest.isEmpty) f)

def apply (m : Move) (index : BucketIndex) : BucketIndex :=
  let folders := chain m.name
  let (index, flips, gone) := m.descend 0 folders index
  let index := flips.foldl (fun index flip => m.countFlip flip.2 (folders.take flip.1) index) index
  -- Deepest first, so a parent's empty child map goes with it.
  gone.reverse.foldl (fun index depth => index.dropFolder (folders.getD depth none)) index

end Move

/-! ### The index -/

inductive Progress where
  /-- The walk has added every key up to and including this one (none yet). -/
  | walking (cursor : Option Text)
  | built
  deriving DecidableEq

structure FolderIndex where
  buckets : ExtTreeMap Text BucketIndex
  progress : Progress

namespace FolderIndex

/-- An index the walk is about to fill. -/
def walking : FolderIndex := ⟨∅, .walking none⟩

/-- An index of nothing, complete. -/
def built : FolderIndex := ⟨∅, .built⟩

def apply (index : FolderIndex) (bucket name : Text) (before after : Option Shape)
    (change : Change) : FolderIndex :=
  let moved := (⟨name, before, after, change⟩ : Move).apply (index.buckets.getD bucket {})
  { index with
    buckets := if moved.root.present then index.buckets.insert bucket moved
      else index.buckets.erase bucket }

/-- Whether the walk has passed a key. -/
def passed (index : FolderIndex) (key : Text) : Bool :=
  match index.progress with
  | .walking none => false
  | .walking (some cursor) => (compare key cursor).isLE
  | .built => true

/-- A committed change: applied once the walk has passed the key, left to the walk otherwise. -/
def observe (index : FolderIndex) (key bucket name : Text) (before after : Option Shape)
    (revision : Nat) (atMs : Int) : FolderIndex :=
  if index.passed key then index.apply bucket name before after (.committed revision atMs) else index

/-- `add_walked`; `millis` reads an RFC 3339 time. -/
def addWalked (millis : Text → Option Int) (index : FolderIndex) (o : StoredObject) : FolderIndex :=
  index.apply o.bucket o.name none (some (.of o)) (.walked (millis o.updated))

/-- The figures of a prefix, empty or ending in a slash. -/
def stats (index : FolderIndex) (bucket folder : Text) : Option FolderStats :=
  index.buckets[bucket]?.bind fun b =>
    if folder = [] then some b.root
    else if endsInSlash folder then b.folder (some (splitFolder folder)) else none

/-- The direct subfolders of a prefix, segment to figures. -/
def children (index : FolderIndex) (bucket folder : Text) :
    Option (ExtTreeMap Text FolderStats) :=
  index.buckets[bucket]?.bind fun b => b.children[folder]?

end FolderIndex

end Firenook.Storage
