import Firenook.Storage.Data

/-!
# Listing — looking an object up, and listing a level of a bucket

`LevelWalk` steps through the keys of a level and seeks past every group it has named;
`list_objects` pages through what it yields. Both find a bucket's objects by the key's text, so
they keep buckets apart as long as no bucket's name holds a NUL (**`buckets_apart`**). With one,
the same key is an object of two buckets (`buckets_alias`).
-/

namespace Firenook.Storage

variable {maximum : Nat} {data : StorageData}

open List Std

/-! ### Levels -/

/-- The highest Unicode scalar. -/
def lastScalar : Text := [0xF4, 0x8F, 0xBF, 0xBF]

/-- One entry of a level, in key order. -/
inductive LevelEntry where
  /-- The objects whose name continues past the level with the delimiter. -/
  | group (name : Text)
  | item (object : StoredObject)
  deriving DecidableEq

/-- `str::find`. -/
def findText (needle : Text) : Text → Option Nat
  | [] => if needle = [] then some 0 else none
  | c :: cs => if needle <+: c :: cs then some 0 else (findText needle cs).map (· + 1)

def groupEnd (name : Text) (pathLength : Nat) (delimiter : Option Text) : Option Nat :=
  delimiter.bind fun d =>
    (findText d (name.drop pathLength)).map fun offset => pathLength + offset + d.length

structure Level where
  bucket : Text
  path : Text
  delimiter : Option Text

def Level.scope (l : Level) : Text := objectKey l.bucket l.path

/-- `LevelWalk::next` until it ends. The walk ends at the first key outside the scope, steps over
the keys of the last group and seeks past a new one; a seek only goes forward, so what is past it is
part of the rest. Every step takes an entry off the range, and the fuel is its length. -/
def levelWalk (l : Level) : Nat → List (Text × StoredObject) → Option Text → List LevelEntry
  | 0, _, _ => []
  | _ + 1, [], _ => []
  | fuel + 1, (key, object) :: rest, group =>
    if ¬l.scope <+: key then []
    else if group.any (·.isPrefixOf key) then levelWalk l fuel rest group
    else
      let name := key.drop (l.bucket.length + 1)
      match groupEnd name l.path.length l.delimiter with
      | none => .item object :: levelWalk l fuel rest group
      | some stop =>
        let groupKey := key.take (l.bucket.length + 1 + stop)
        .group (name.take stop) :: levelWalk l fuel
          (rest.filter fun e => compare (groupKey ++ lastScalar) e.1 = .lt) (some groupKey)

/-- The items of a walk lie under the level's scope. -/
theorem item_levelWalk (l : Level) {fuel : Nat} {range : List (Text × StoredObject)}
    {group : Option Text} {o : StoredObject} (h : .item o ∈ levelWalk l fuel range group) :
    ∃ key, (key, o) ∈ range ∧ l.scope <+: key := by
  induction fuel generalizing range group with
  | zero =>
    cases h
  | succ fuel ih =>
    cases range with
    | nil => cases h
    | cons e rest =>
      obtain ⟨key, object⟩ := e
      rw [levelWalk] at h
      split at h
      · cases h
      next hsc =>
      have hrs : ∀ {rest' group'}, rest' ⊆ rest → LevelEntry.item o ∈ levelWalk l fuel rest' group' →
          ∃ k, (k, o) ∈ (key, object) :: rest ∧ l.scope <+: k := by
        intro rest' group' hsub hmem
        obtain ⟨k, hk, hs⟩ := ih hmem
        exact ⟨k, mem_cons_of_mem _ (hsub hk), hs⟩
      split at h
      · exact hrs (fun _ => id) h
      dsimp only at h
      split at h
      · rcases mem_cons.mp h with h | h
        · obtain rfl := LevelEntry.item.inj h
          exact ⟨key, mem_cons_self, not_not.mp hsc⟩
        · exact hrs (fun _ => id) h
      · rcases mem_cons.mp h with h | h
        · cases h
        · exact hrs (fun _ he => mem_of_mem_filter he) h

/-! ### The list route -/

/-- The entries of the map from a key on. -/
def rangeFrom (objects : Objects) (start : Text) : List (Text × StoredObject) :=
  objects.toList.filter fun e => (compare start e.1).isLE

/-- `LevelWalk::new`, collected. -/
def walkLevel (objects : Objects) (l : Level) (start : Option Text) : List LevelEntry :=
  let range := rangeFrom objects (start.elim l.scope (objectKey l.bucket))
  levelWalk l range.length range none

structure ObjectListPage where
  items : List StoredObject := []
  groups : List Text := []
  nextPageToken : Option Text := none

/-- The loop of `list_objects` over the entries of the level. -/
def pageLoop (delimiter start : Option Text) (maximum : Nat) :
    List LevelEntry → ObjectListPage → ObjectListPage
  | [], page => page
  | .group g :: rest, page => pageLoop delimiter start maximum rest { page with
      groups := page.groups ++ [g] }
  | .item o :: rest, page =>
    if page.nextPageToken.isSome || start.any (fun s => compare o.name s = .lt) then
      pageLoop delimiter start maximum rest page
    else if page.items.length = maximum then
      let page := { page with nextPageToken := some o.name }
      if delimiter.isNone then page else pageLoop delimiter start maximum rest page
    else pageLoop delimiter start maximum rest { page with items := page.items ++ [o] }

def listObjects (data : StorageData) (l : Level) (pageToken : Option Text) (maximum : Nat) :
    ObjectListPage :=
  -- A token resumes only when it names a direct item of this level.
  let start := pageToken.filter fun token => l.path.isPrefixOf token &&
    data.objects[objectKey l.bucket token]?.any (fun o => o.bucket == l.bucket) &&
    (groupEnd token l.path.length l.delimiter).isNone
  let walkFrom := if l.delimiter.isNone then start else none
  pageLoop l.delimiter start maximum (walkLevel data.objects l walkFrom) {}

theorem items_pageLoop {delimiter start : Option Text} {entries : List LevelEntry} :
    ∀ {page : ObjectListPage} {o : StoredObject},
      o ∈ (pageLoop delimiter start maximum entries page).items →
      o ∈ page.items ∨ .item o ∈ entries := by
  induction entries with
  | nil => exact fun h => .inl h
  | cons entry rest ih =>
    intro page o h
    cases entry with
    | group g =>
      rcases ih h with h | h
      · exact .inl h
      · exact .inr (mem_cons_of_mem _ h)
    | item object =>
      rw [pageLoop] at h
      split at h
      · exact (ih h).imp_right (mem_cons_of_mem _)
      split at h
      · split at h
        · exact .inl h
        · exact (ih h).imp_right (mem_cons_of_mem _)
      · rcases ih h with h | h
        · rcases mem_append.mp h with h | h
          · exact .inl h
          · rw [mem_singleton.mp h]
            exact .inr mem_cons_self
        · exact .inr (mem_cons_of_mem _ h)

/-- **A listing returns objects of its bucket.** -/
theorem bucket_listObjects (hkd : Keyed data.objects) {l : Level} (hl : 0 ∉ l.bucket)
    {pageToken : Option Text} {o : StoredObject}
    (h : o ∈ (listObjects data l pageToken maximum).items) : o.bucket = l.bucket := by
  rcases items_pageLoop h with h | h
  · cases h
  obtain ⟨key, hmem, hsc⟩ := item_levelWalk l h
  have hget := ExtTreeMap.mem_toList_iff_getElem?_eq_some.mp (mem_of_mem_filter hmem)
  obtain ⟨hkey, hbkt⟩ := hkd key o hget
  rw [← hkey] at hsc
  exact ((isPrefix_objectKey hl hbkt).mp hsc).1.symm

/-! ### Requests -/

def getObject (data : StorageData) (bucket name : Text) : Option StoredObject :=
  data.objects[objectKey bucket name]?

/-- A request that changes an object of a bucket, and when. -/
inductive Request where
  | put (object : StoredObject) (atMs : Int)
  | remove (bucket name : Text) (atMs : Int)

namespace Request

def bucket : Request → Text
  | .put o _ => o.bucket
  | .remove b _ _ => b

def name : Request → Text
  | .put o _ => o.name
  | .remove _ n _ => n

/-- What the request leaves at its place. -/
def leaves : Request → Option StoredObject
  | .put o _ => some o
  | .remove _ _ _ => none

def apply (data : StorageData) : Request → StorageData
  | .put o atMs => data.put o atMs
  | .remove b n atMs => data.remove (objectKey b n) atMs

end Request

/-- What the last request at a place left there. -/
def lastAt (requests : List Request) (bucket name : Text) : Option StoredObject :=
  requests.foldl (fun found r => if r.bucket = bucket ∧ r.name = name then r.leaves else found) none

/-- One request changes its own place in the map. -/
theorem objects_apply (data : StorageData) (r : Request) (key : Text) : (r.apply data).objects[key]?
      = if key = objectKey r.bucket r.name then r.leaves else data.objects[key]? := by
  by_cases hk : key = objectKey r.bucket r.name
  · rw [if_pos hk, hk]
    cases r with
    | put o atMs => exact ExtTreeMap.getElem?_insert_self
    | remove b n atMs =>
      simp only [Request.apply, StorageData.remove, Request.bucket, Request.name, Request.leaves]
      split
      · next hbef => exact hbef
      · exact ExtTreeMap.getElem?_erase_self
  · rw [if_neg hk]
    cases r with
    | put o atMs =>
      rw [Request.bucket, Request.name] at hk
      simp only [Request.apply, StorageData.put, ExtTreeMap.getElem?_insert]
      rw [if_neg]
      simpa [StoredObject.key] using Ne.symm hk
    | remove b n atMs =>
      rw [Request.bucket, Request.name] at hk
      simp only [Request.apply, StorageData.remove]
      split
      · rfl
      · simp only [ExtTreeMap.getElem?_erase]
        rw [if_neg]
        simpa using Ne.symm hk

/-- A request changes no other place. -/
theorem getObject_apply (data : StorageData) {r : Request} (hr : 0 ∉ r.bucket) {b : Text}
    (hb : 0 ∉ b) (n : Text) : getObject (r.apply data) b n
      = if r.bucket = b ∧ r.name = n then r.leaves else getObject data b n := by
  rw [getObject, objects_apply]
  by_cases hplc : r.bucket = b ∧ r.name = n
  · rw [if_pos hplc, hplc.1, hplc.2, if_pos rfl]
  rw [if_neg hplc, if_neg]
  · rfl
  · intro h
    obtain ⟨hbkt, hname⟩ := objectKey_inj hb hr h
    exact hplc ⟨hbkt.symm, hname.symm⟩

theorem keyed_apply (hkd : Keyed data.objects) {r : Request} (hr : 0 ∉ r.bucket) :
    Keyed (r.apply data).objects := by
  intro k o hk
  rw [objects_apply] at hk
  split at hk
  · next hkey =>
    cases r with
    | put object atMs =>
      obtain rfl := Option.some.inj hk
      exact ⟨hkey.symm, hr⟩
    | remove b n atMs => cases hk
  · exact hkd k o hk

/-- **Buckets are apart**, where no request's bucket holds a NUL: a lookup finds what the last
request at exactly that place left, a request changes no other place, and a listing returns objects
of its bucket. -/
theorem buckets_apart (requests : List Request) (h : ∀ r ∈ requests, 0 ∉ r.bucket) :
    let data := requests.foldl Request.apply {}
    (∀ b n, 0 ∉ b → getObject data b n = lastAt requests b n) ∧
      (∀ (r : Request) (b n : Text), 0 ∉ r.bucket → 0 ∉ b → ¬(r.bucket = b ∧ r.name = n) →
        getObject (r.apply data) b n = getObject data b n) ∧
      ∀ l (pageToken : Option Text) (maximum : Nat), 0 ∉ l.bucket →
        ∀ o ∈ (listObjects data l pageToken maximum).items, o.bucket = l.bucket := by
  intro data
  have hdt : Keyed data.objects ∧ ∀ b n, 0 ∉ b → getObject data b n = lastAt requests b n := by
    simp only [data, lastAt]
    induction requests using reverseRecOn with
    | nil => exact ⟨by simp [Keyed], fun b n _ => by simp [getObject]⟩
    | append_singleton requests r ih =>
      obtain ⟨hkd, hfd⟩ := ih fun x hx => h x (mem_append_left _ hx)
      have hr := h r (mem_append_right _ (mem_singleton_self r))
      simp only [foldl_append, foldl_cons, foldl_nil]
      refine ⟨keyed_apply hkd hr, ?_⟩
      intro b n hb
      rw [getObject_apply _ hr hb, hfd b n hb]
  refine ⟨hdt.2, ?_, ?_⟩
  · intro r b n hr hb hplc
    rw [getObject_apply data hr hb, if_neg hplc]
  · intro l pageToken maximum hl o ho
    exact bucket_listObjects hdt.1 hl ho

/-- An object of the same name in another bucket. -/
def namesake : StoredObject := { sampleObject with bucket := [120] }

/-- Two buckets get an object of one name, and the first loses it. -/
def namesakeRequests : List Request :=
  [.put sampleObject 0, .put namesake 0, .remove sampleObject.bucket sampleObject.name 1]

theorem buckets_apart_namesake : let data := namesakeRequests.foldl Request.apply {}
    getObject data sampleObject.bucket sampleObject.name = none ∧
      getObject data namesake.bucket namesake.name = some namesake ∧
      ∀ l (pageToken : Option Text) (maximum : Nat), 0 ∉ l.bucket →
        ∀ o ∈ (listObjects data l pageToken maximum).items, o.bucket = l.bucket := by
  intro data
  obtain ⟨hget, -, hlis⟩ := buckets_apart namesakeRequests (by decide)
  exact ⟨(hget _ _ (by decide)).trans rfl, (hget _ _ (by decide)).trans rfl, hlis⟩

/-- An object of a bucket whose name holds a NUL. -/
def nulObject : StoredObject := { sampleObject with bucket := [120, 0, 121], name := [122] }

/-- **Two buckets share an object**: `x\0y` and its object `z` are found as `y\0z` of the bucket
`x`, and listed there. -/
theorem buckets_alias : let data := [Request.put nulObject 0].foldl Request.apply {}
    getObject data [120] [121, 0, 122] = some nulObject ∧
      lastAt [.put nulObject 0] [120] [121, 0, 122] = none ∧
      (listObjects data ⟨[120], [], none⟩ none 10).items = [nulObject] ∧
      nulObject.bucket ≠ [120] := by
  decide +kernel

end Firenook.Storage
