import Mathlib.Data.List.Dedup
import Mathlib.Data.List.Perm.Subperm
import Firenook.Support.IndexTable
import Firenook.Disk.Stored
import Firenook.Disk.ValueKey

/-!
# Field index entries — prefix ids and the entries of a document

Every `[database][collection path][field]` that the index holds entries for is named once by a
4-byte id, kept in a table of its own whose empty key is the next id to give (`getOrAssign`). A
document has one entry for each top-level field: the id, the key of the field's value and the
document's ordered id (`entryKey`), with the document id as stored.

`PrefixIds.Valid` is what the prefix table keeps: ids are given in order, one for each prefix.
Under it an entry tells the collection, the field, the value's key and the document's ordered id
apart (**`entryOf_inj`**).
-/

namespace Firenook.Disk

open List Std Bytes Fallible

variable {d' : DatabaseName} {s t c name e f : List UInt8} {names : List (List UInt8)}
  {d : DatabaseName} {key : DocumentKey} {field : Str × Indexed} {fields : List (Str × Indexed)}

/-! ### Prefix ids -/

/-- A redb table of byte strings. -/
abbrev Table := ExtTreeMap (List UInt8) (List UInt8)

/-- The prefix table: ids are `u32`. -/
abbrev PrefixIds := ExtTreeMap (List UInt8) Nat

/-- The prefix table's own key for the next unassigned id. -/
def nextPrefixId : List UInt8 := []

/-- `field_prefix`: every entry of one field of one collection starts with it. -/
def fieldPrefix (database : DatabaseName) (collectionPath field : List UInt8) :
    Except DiskError (List UInt8) := do
  let scope ← collectionIndexPrefix database collectionPath
  let name ← lengthPrefixed field
  return scope ++ name

namespace PrefixIds

variable {ids ids' : PrefixIds}

/-- The id the next new prefix gets. -/
def counter (ids : PrefixIds) : Nat := ids[nextPrefixId]?.getD 0

/-- `PrefixIds::get_or_assign`. -/
def getOrAssign (ids : PrefixIds) (name : List UInt8) : Except DiskError (Nat × PrefixIds) :=
  match ids[name]? with
  | some id => .ok (id, ids)
  | none =>
    let id := ids.counter
    if id + 1 < 2 ^ 32 then .ok (id, (ids.insert name id).insert nextPrefixId (id + 1))
    else .error (.encoding "field index prefix ids exhausted")

/-- Ids are given in order, one for each prefix. -/
structure Valid (ids : PrefixIds) : Prop where
  bounded : ids.counter < 2 ^ 32
  below : ∀ p i, p ≠ nextPrefixId → ids[p]? = some i → i < ids.counter
  inj : ∀ p q i, p ≠ nextPrefixId → q ≠ nextPrefixId → ids[p]? = some i → ids[q]? = some i → p = q
  onto : ∀ i < ids.counter, ∃ p, p ≠ nextPrefixId ∧ ids[p]? = some i

/-- No prefix changes its id. -/
def Extends (ids ids' : PrefixIds) : Prop :=
  ∀ p i, p ≠ nextPrefixId → ids[p]? = some i → ids'[p]? = some i

theorem Extends.refl (ids : PrefixIds) : Extends ids ids := fun _ _ _ h => h

theorem Extends.trans {ids'' : PrefixIds} (h : Extends ids ids') (h' : Extends ids' ids'') :
    Extends ids ids'' :=
  fun p i hp hi => h' p i hp (h p i hp hi)

theorem valid_empty : Valid ∅ where
  bounded := by simp [counter]
  below p i _ h := by simp at h
  inj p q i _ _ h _ := by simp at h
  onto i h := by simp [counter] at h

/-- What a new assignment leaves in the table. -/
theorem getElem?_assign (ids : PrefixIds) (name : List UInt8) (i : Nat) {p : List UInt8}
    (hp : p ≠ nextPrefixId) :
    ((ids.insert name i).insert nextPrefixId (i + 1))[p]?
      = if name = p then some i else ids[p]? := by
  rw [ExtTreeMap.getElem?_insert, ExtTreeMap.getElem?_insert]
  simp [Ne.symm hp]

theorem counter_assign (ids : PrefixIds) (name : List UInt8) (i n : Nat) :
    counter ((ids.insert name i).insert nextPrefixId n) = n := by
  simp [counter]

/-- **What naming a prefix does**: the table stays valid, keeps every id it gave, and holds the
prefix. -/
theorem getOrAssign_eq_ok {id : Nat} (hname : name ≠ nextPrefixId) (hvld : ids.Valid)
    (h : ids.getOrAssign name = .ok (id, ids')) :
    ids'.Valid ∧ ids.Extends ids' ∧ ids'[name]? = some id
      ∧ ∀ p i, p ≠ nextPrefixId → ids'[p]? = some i → p = name ∨ ids[p]? = some i := by
  unfold getOrAssign at h
  split at h
  · next i hi =>
    cases h
    exact ⟨hvld, .refl _, hi, fun p i _ hp => .inr hp⟩
  · next hnn =>
    simp only at h
    split at h
    · next hrm =>
      cases h
      have hget := fun {p} => getElem?_assign ids name ids.counter (p := p)
      refine ⟨⟨?_, ?_, ?_, ?_⟩, ?_, ?_, ?_⟩
      · rw [counter_assign]
        exact hrm
      · intro p i hp hi
        rw [hget hp] at hi
        rw [counter_assign]
        split at hi
        · cases hi
          omega
        · have := hvld.below p i hp hi
          omega
      · intro p q i hp hq hpi hqi
        rw [hget hp] at hpi
        rw [hget hq] at hqi
        split at hpi <;> split at hqi
        · next h₁ h₂ => exact h₁.symm.trans h₂
        · cases hpi
          have := hvld.below q _ hq hqi
          omega
        · cases hqi
          have := hvld.below p _ hp hpi
          omega
        · exact hvld.inj p q i hp hq hpi hqi
      · intro i hi
        rw [counter_assign] at hi
        rcases Nat.lt_succ_iff_lt_or_eq.mp hi with hlt | rfl
        · obtain ⟨p, hp, hpi⟩ := hvld.onto i hlt
          refine ⟨p, hp, ?_⟩
          rw [hget hp, if_neg, hpi]
          rintro rfl
          rw [hnn] at hpi
          cases hpi
        · exact ⟨name, hname, by rw [hget hname, if_pos rfl]⟩
      · intro p i hp hi
        rw [hget hp, if_neg, hi]
        rintro rfl
        rw [hnn] at hi
        cases hi
      · rw [hget hname, if_pos rfl]
      · intro p i hp hi
        rw [hget hp] at hi
        split at hi
        · next heq => exact .inl heq.symm
        · exact .inr hi
    · cases h

/-- Every prefix with an id is one of these. -/
def Within (ids : PrefixIds) (names : List (List UInt8)) : Prop :=
  ∀ p i, p ≠ nextPrefixId → ids[p]? = some i → p ∈ names

/-- Ids are given in order, so a prefix without one leaves fewer ids than prefixes. -/
theorem counter_lt (hvld : ids.Valid) (hwi : ids.Within names) (hname : name ∈ names)
    (hnew : ids[name]? = none) : ids.counter < names.length := by
  choose! named hnmd using hvld.onto
  have hnd : (name :: (range ids.counter).map named).Nodup := by
    refine nodup_cons.mpr ⟨?_, ?_⟩
    · intro hmem
      obtain ⟨i, hi, rfl⟩ := mem_map.mp hmem
      rw [(hnmd i (mem_range.mp hi)).2] at hnew
      cases hnew
    · refine (nodup_map_iff_inj_on nodup_range).mpr fun i hi j hj heq => ?_
      have hi := (hnmd i (mem_range.mp hi)).2
      rw [heq, (hnmd j (mem_range.mp hj)).2] at hi
      exact (Option.some.inj hi).symm
  have hsub : name :: (range ids.counter).map named ⊆ names := by
    intro p hp
    rcases mem_cons.mp hp with rfl | hp
    · exact hname
    · obtain ⟨i, hi, rfl⟩ := mem_map.mp hp
      obtain ⟨hne, hid⟩ := hnmd i (mem_range.mp hi)
      exact hwi _ i hne hid
  have hlen := (subperm_of_subset hnd hsub).length_le
  rw [length_cons, length_map, length_range] at hlen
  exact hlen

/-- Fewer prefixes than ids never run out. -/
theorem getOrAssign_returns (hvld : ids.Valid) (hwi : ids.Within names)
    (hnms : names.length < 2 ^ 32) (hname : name ∈ names) :
    ∃ r, ids.getOrAssign name = .ok r := by
  unfold getOrAssign
  cases hid : ids[name]? with
  | some id => exact ⟨_, rfl⟩
  | none =>
    have hctr := counter_lt hvld hwi hname hid
    exact ⟨_, if_pos (by omega)⟩

end PrefixIds

/-! ### The entries of a document -/

/-- `Indexed::from(&StoredField)`. -/
def Indexed.ofStored : StoredField → Indexed
  | .value v => .ofValue v
  | .array empty => .array empty
  | .map empty => .map empty

theorem Indexed.ofStored_of (v : Value) : Indexed.ofStored (StoredField.of v) = .ofValue v := by
  cases v <;> rfl

/-- One document's index entries: entry key and document id, sorted. -/
abbrev Entries := List (List UInt8 × List UInt8)

/-- `sort_unstable` and `dedup`: in a sorted list all duplicates are neighbours. -/
def sortDedup (entries : Entries) : Entries :=
  (entries.insertionSort fun a b =>
    ((compare a.1 b.1).then (compare a.2 b.2)).isLE).dedup

theorem mem_sortDedup {entries : Entries} {e : List UInt8 × List UInt8} :
    e ∈ sortDedup entries ↔ e ∈ entries := by
  rw [sortDedup, mem_dedup, mem_insertionSort]

section

variable {found : Entries} (sha : Sha256)

/-- `[prefix id][value key][ordered document id]`. -/
def entryKey (id : Nat) (value : Indexed) (documentId : List UInt8) : List UInt8 :=
  beBytes 4 id ++ (indexedKey sha value ++ orderedResourceId documentId)

/-- The loop of `entries` over the fields of a document. With `assign` a field's prefix is named
on first use; without it, a field whose prefix was never named has no entry. -/
def fieldEntries (assign : Bool) (database : DatabaseName) (collectionPath documentId : List UInt8) :
    PrefixIds → List (Str × Indexed) → Except DiskError (Entries × PrefixIds)
  | ids, [] => .ok ([], ids)
  | ids, (field, value) :: fields => do
    let name ← fieldPrefix database collectionPath field.bytes
    if assign then
      let (id, ids) ← ids.getOrAssign name
      let (entries, ids) ← fieldEntries assign database collectionPath documentId ids fields
      return ((entryKey sha id value documentId, documentId) :: entries, ids)
    else
      match ids[name]? with
      | some id => do
        let (entries, ids) ← fieldEntries assign database collectionPath documentId ids fields
        return ((entryKey sha id value documentId, documentId) :: entries, ids)
      | none => fieldEntries assign database collectionPath documentId ids fields

/-- `entries`: the index entries of one document, one per top-level field. -/
def entries (ids : PrefixIds) (assign : Bool) (key : DocumentKey) (fields : List (Str × Indexed)) :
    Except DiskError (Entries × PrefixIds) :=
  match rsplitOnce key.path.bytes with
  | none => .error (.corrupt "document path has no collection")
  | some (collectionPath, documentId) => do
    let (found, ids) ← fieldEntries sha assign key.database collectionPath documentId ids fields
    return (sortDedup found, ids)

/-- The fields of a document as the index sees them. -/
def indexedFields (document : Document) : List (Str × Indexed) :=
  document.fields.entries.map fun f => (f.1, Indexed.ofValue f.2)

/-- `document_entries`: the entries of a decoded document, naming new prefixes. -/
def documentEntries (ids : PrefixIds) (key : DocumentKey) (document : Document) :
    Except DiskError (Entries × PrefixIds) :=
  entries sha ids true key (indexedFields document)

/-! ### What the entries are -/

/-- `e` is the entry of `field` in the document `key`. -/
def EntryOf (ids : PrefixIds) (key : DocumentKey) (field : Str × Indexed) (e : List UInt8) : Prop :=
  ∃ name id, fieldPrefix key.database key.collectionPath field.1.bytes = .ok name
    ∧ ids[name]? = some id ∧ e = entryKey sha id field.2 key.documentId

/-- The prefix of `field` in the document `key` has an id. -/
def Named (ids : PrefixIds) (key : DocumentKey) (field : Str × Indexed) : Prop :=
  ∃ name id, fieldPrefix key.database key.collectionPath field.1.bytes = .ok name
    ∧ ids[name]? = some id

theorem fieldPrefix_eq_ok : fieldPrefix d c f = .ok e ↔ ∃ p, collectionIndexPrefix d c = .ok p
      ∧ ∃ n, lengthPrefixed f = .ok n ∧ p ++ n = e := by
  simp only [fieldPrefix, bind_eq_ok, pure_eq_ok]

/-- A prefix starts with a length, so it is not the key of the counter. -/
theorem fieldPrefix_ne_nil (h : fieldPrefix d c f = .ok e) : e ≠ nextPrefixId := by
  obtain ⟨p, -, n, hn, rfl⟩ := fieldPrefix_eq_ok.mp h
  obtain ⟨-, rfl⟩ := lengthPrefixed_eq_ok.mp hn
  intro heq
  have := congrArg length heq
  simp [nextPrefixId] at this

theorem EntryOf.extend (h : ids.Extends ids') (he : EntryOf sha ids key field e) :
    EntryOf sha ids' key field e := by
  obtain ⟨name, id, hname, hid, rfl⟩ := he
  exact ⟨name, id, hname, h name id (fieldPrefix_ne_nil hname) hid, rfl⟩

theorem Named.extend (h : ids.Extends ids') (hn : Named ids key field) : Named ids' key field := by
  obtain ⟨name, id, hname, hid⟩ := hn
  exact ⟨name, id, hname, h name id (fieldPrefix_ne_nil hname) hid⟩

/-- A field that was named keeps its entry. -/
theorem EntryOf.of_extend (h : ids.Extends ids') (hn : Named ids key field)
    (he : EntryOf sha ids' key field e) : EntryOf sha ids key field e := by
  obtain ⟨name, id, hname, hid⟩ := hn
  obtain ⟨name', id', hname', hid', rfl⟩ := he
  obtain rfl : name = name' := Except.ok.inj (hname.symm.trans hname')
  have hkp := h name id (fieldPrefix_ne_nil hname) hid
  rw [hid'] at hkp
  cases hkp
  exact ⟨name, id, hname, hid, rfl⟩

variable {sha}

/-- Naming a document's fields: the entries are those of the fields, all of which are then
named, and no other prefix is. -/
theorem fieldEntries_assign (hvld : ids.Valid)
    (h : fieldEntries sha true key.database key.collectionPath key.documentId ids fields =
      .ok (found, ids')) :
    ids'.Valid ∧ ids.Extends ids' ∧ (∀ f ∈ fields, Named ids' key f)
      ∧ (∀ x, x ∈ found ↔ ∃ f ∈ fields, EntryOf sha ids' key f x.1 ∧ x.2 = key.documentId)
      ∧ ∀ p i, p ≠ nextPrefixId → ids'[p]? = some i → ids[p]? = some i
        ∨ ∃ f ∈ fields, fieldPrefix key.database key.collectionPath f.1.bytes = .ok p := by
  induction fields generalizing ids found with
  | nil =>
    cases h
    exact ⟨hvld, .refl _, by simp, by simp, fun p i _ hp => .inl hp⟩
  | cons f fields ih =>
    obtain ⟨field, value⟩ := f
    simp only [fieldEntries, if_true, bind_eq_ok, pure_eq_ok, Prod.exists, Prod.mk.injEq] at h
    obtain ⟨name, hname, id, mid, hasg, es, end', hrs, rfl, rfl⟩ := h
    have hne := fieldPrefix_ne_nil hname
    obtain ⟨hmid, hext, hid, hnew⟩ := PrefixIds.getOrAssign_eq_ok hne hvld hasg
    obtain ⟨hvld', hext', hnmd, hmem, hon⟩ := ih hmid hrs
    have hid' := hext' name id hne hid
    refine ⟨hvld', hext.trans hext', ?_, ?_, ?_⟩
    · intro f hf
      rcases mem_cons.mp hf with rfl | hf
      · exact ⟨name, id, hname, hid'⟩
      · exact hnmd f hf
    · intro x
      rw [mem_cons, hmem, exists_mem_cons_iff]
      refine or_congr ⟨?_, ?_⟩ Iff.rfl
      · rintro rfl
        exact ⟨⟨name, id, hname, hid', rfl⟩, rfl⟩
      rintro ⟨⟨name', id', hname', hidx, hx⟩, hdoc⟩
      obtain rfl : name = name' := Except.ok.inj (hname.symm.trans hname')
      rw [hid'] at hidx
      cases hidx
      exact Prod.ext hx hdoc
    · intro p i hp hi
      rcases hon p i hp hi with hmd | ⟨f, hf, hfp⟩
      · rcases hnew p i hp hmd with rfl | hold
        · exact .inr ⟨(field, value), mem_cons_self, hname⟩
        · exact .inl hold
      · exact .inr ⟨f, mem_cons_of_mem _ hf, hfp⟩

/-- Reading a document's entries leaves the prefix table alone. -/
theorem fieldEntries_read
    (h : fieldEntries sha false key.database key.collectionPath key.documentId ids fields =
      .ok (found, ids')) :
    ids' = ids
      ∧ ∀ x, x ∈ found ↔ ∃ f ∈ fields, EntryOf sha ids key f x.1 ∧ x.2 = key.documentId := by
  induction fields generalizing found with
  | nil =>
    cases h
    exact ⟨rfl, by simp⟩
  | cons f fields ih =>
    simp only [fieldEntries, Bool.false_eq_true, if_false, bind_eq_ok] at h
    obtain ⟨name, hname, h⟩ := h
    cases hid : ids[name]? with
    | none =>
      simp only [hid] at h
      obtain ⟨rfl, hmem⟩ := ih h
      refine ⟨rfl, fun x => ?_⟩
      rw [hmem, exists_mem_cons_iff]
      refine ⟨.inr, ?_⟩
      rintro (⟨⟨name', id', hname', hidx, -⟩, -⟩ | hrs)
      · obtain rfl : name = name' := Except.ok.inj (hname.symm.trans hname')
        rw [hid] at hidx
        cases hidx
      · exact hrs
    | some id =>
      simp only [hid, bind_eq_ok, pure_eq_ok, Prod.exists, Prod.mk.injEq] at h
      obtain ⟨es, end', hrs, rfl, rfl⟩ := h
      obtain ⟨rfl, hmem⟩ := ih hrs
      refine ⟨rfl, fun x => ?_⟩
      rw [mem_cons, hmem, exists_mem_cons_iff]
      refine or_congr ⟨?_, ?_⟩ Iff.rfl
      · rintro rfl
        exact ⟨⟨name, id, hname, hid, rfl⟩, rfl⟩
      rintro ⟨⟨name', id', hname', hidx, hx⟩, hdoc⟩
      obtain rfl : name = name' := Except.ok.inj (hname.symm.trans hname')
      rw [hid] at hidx
      cases hidx
      exact Prod.ext hx hdoc

/-- A document's fields can be named, where there are fewer prefixes than ids. -/
theorem fieldEntries_returns (sha : Sha256) (key : DocumentKey)
    (hnms : names.length < 2 ^ 32) {ids : PrefixIds} (hvld : ids.Valid)
    (hwi : ids.Within names) (hfl : ∀ f ∈ fields, ∃ p ∈ names,
      fieldPrefix key.database key.collectionPath f.1.bytes = .ok p) :
    ∃ r, fieldEntries sha true key.database key.collectionPath key.documentId ids fields
      = .ok r := by
  induction fields generalizing ids with
  | nil => exact ⟨_, rfl⟩
  | cons f fields ih =>
    obtain ⟨p, hp, hpre⟩ := hfl f mem_cons_self
    obtain ⟨⟨id, mid⟩, hasg⟩ := PrefixIds.getOrAssign_returns hvld hwi hnms hp
    obtain ⟨hmid, -, -, hon⟩ :=
      PrefixIds.getOrAssign_eq_ok (fieldPrefix_ne_nil hpre) hvld hasg
    have hwi' : mid.Within names := by
      intro q i hq hi
      rcases hon q i hq hi with rfl | hi
      · exact hp
      · exact hwi q i hq hi
    obtain ⟨⟨es, ids'⟩, hrs⟩ := ih hmid hwi' fun g hg => hfl g (mem_cons_of_mem _ hg)
    refine ⟨((entryKey sha id f.2 key.documentId, key.documentId) :: es, ids'),
      bind_eq_ok.mpr ⟨p, hpre, ?_⟩⟩
    exact bind_eq_ok.mpr ⟨_, hasg, bind_eq_ok.mpr ⟨_, hrs, rfl⟩⟩

/-- Reading a document's entries fails only on a prefix that cannot be encoded. -/
theorem fieldEntries_read_returns (sha : Sha256) (ids : PrefixIds)
    (h : ∀ f ∈ fields, ∃ p, fieldPrefix key.database key.collectionPath f.1.bytes = .ok p) :
    ∃ r, fieldEntries sha false key.database key.collectionPath key.documentId ids fields
      = .ok r := by
  induction fields with
  | nil => exact ⟨_, rfl⟩
  | cons f fields ih =>
    obtain ⟨p, hpre⟩ := h f mem_cons_self
    obtain ⟨⟨es, ids'⟩, hrs⟩ := ih fun g hg => h g (mem_cons_of_mem _ hg)
    cases hid : ids[p]? with
    | none =>
      refine ⟨(es, ids'), bind_eq_ok.mpr ⟨p, hpre, ?_⟩⟩
      simp only [hid]
      exact hrs
    | some id =>
      refine ⟨((entryKey sha id f.2 key.documentId, key.documentId) :: es, ids'),
        bind_eq_ok.mpr ⟨p, hpre, ?_⟩⟩
      simp only [hid]
      exact bind_eq_ok.mpr ⟨_, hrs, rfl⟩

theorem entries_eq_ok {assign : Bool} : entries sha ids assign key fields = .ok (found, ids') ↔
      ∃ es, fieldEntries sha assign key.database key.collectionPath key.documentId ids fields
        = .ok (es, ids') ∧ found = sortDedup es := by
  unfold entries
  simp only [key.rsplitOnce_path, bind_eq_ok, pure_eq_ok, Prod.exists, Prod.mk.injEq]
  refine ⟨?_, ?_⟩
  · rintro ⟨es, end', h, rfl, rfl⟩
    exact ⟨es, h, rfl⟩
  · rintro ⟨es, h, rfl⟩
    exact ⟨es, ids', h, rfl, rfl⟩

/-! ### What an entry tells apart -/

theorem databasePrefix_append_inj (he : databasePrefix d = .ok e) (hf : databasePrefix d' = .ok f)
    (h : e ++ s = f ++ t) : d = d' ∧ s = t := by
  simp only [databasePrefix, bind_eq_ok, pure_eq_ok] at he hf
  obtain ⟨p, hp, n, hn, rfl⟩ := he
  obtain ⟨q, hq, m, hm, rfl⟩ := hf
  rw [append_assoc, append_assoc] at h
  obtain ⟨hprj, -, h⟩ := lengthPrefixed_append_inj hp hq h
  obtain ⟨hname, -, h⟩ := lengthPrefixed_append_inj hn hm h
  exact ⟨DatabaseName.ext (Str.ext hprj) (Str.ext hname), h⟩

theorem fieldPrefix_inj {c' f' : List UInt8} (h : fieldPrefix d c f = .ok e)
    (h' : fieldPrefix d' c' f' = .ok e) : d = d' ∧ c = c' ∧ f = f' := by
  obtain ⟨p, hp, n, hn, rfl⟩ := fieldPrefix_eq_ok.mp h
  obtain ⟨q, hq, m, hm, heq⟩ := fieldPrefix_eq_ok.mp h'
  obtain ⟨x, hx, s, hs, rfl⟩ := collectionIndexPrefix_eq_ok.mp hp
  obtain ⟨y, hy, t, ht, rfl⟩ := collectionIndexPrefix_eq_ok.mp hq
  rw [append_assoc, append_assoc] at heq
  obtain ⟨rfl, heq⟩ := databasePrefix_append_inj hy hx heq
  obtain ⟨rfl, -, heq⟩ := lengthPrefixed_append_inj ht hs heq
  have heq' : m ++ [] = n ++ [] := by rw [heq]
  obtain ⟨rfl, -, -⟩ := lengthPrefixed_append_inj hm hn heq'
  exact ⟨rfl, rfl, rfl⟩

/-- A value key ends where its extent says, whatever follows. -/
theorem valueKey_append_inj {v w : Value} (h : valueKey sha v ++ s = valueKey sha w ++ t) :
    valueKey sha v = valueKey sha w ∧ s = t := by
  have hv := valueKeyExtent_valueKey sha v s
  rw [h, valueKeyExtent_valueKey sha w t, Option.some.injEq, KeyExtent.mk.injEq] at hv
  exact append_inj h hv.2.1.symm

/-- **An entry tells apart** the database, the collection, the field, the key of the value and the
ordered id of the document. -/
theorem entryOf_inj (hvld : ids.Valid) {key' : DocumentKey} {field field' : Str} {v v' : Value}
    (h : EntryOf sha ids key (field, .ofValue v) e)
    (h' : EntryOf sha ids key' (field', .ofValue v') e) :
    key.database = key'.database ∧ key.collectionPath = key'.collectionPath ∧ field = field'
      ∧ valueKey sha v = valueKey sha v'
      ∧ orderedResourceId key.documentId = orderedResourceId key'.documentId := by
  obtain ⟨name, id, hname, hid, rfl⟩ := h
  obtain ⟨name', id', hname', hid', heq⟩ := h'
  have hne := fieldPrefix_ne_nil hname
  have hne' := fieldPrefix_ne_nil hname'
  have hlt := hvld.below name id hne hid
  have hlt' := hvld.below name' id' hne' hid'
  have hbd := hvld.bounded
  obtain ⟨hids, htl⟩ := append_inj heq (by simp)
  obtain rfl := beBytes_injective (by omega) (by omega) hids
  obtain rfl := hvld.inj name name' id hne hne' hid hid'
  obtain ⟨hdb, hcl, hfld⟩ := fieldPrefix_inj hname hname'
  obtain ⟨hval, hord⟩ := valueKey_append_inj (v := v) (w := v') htl
  exact ⟨hdb, hcl, Str.ext hfld, hval, hord⟩

end

end Firenook.Disk
