import Firenook.Disk.Tables

/-!
# Contents — what the tables hold after a list of mutations

The tables are the result of mutations applied one by one from the empty store. Whatever the
mutations are, the documents table holds the documents they leave (`Represents`) and the prefix
ids stay valid. What the derived tables hold depends on the names:

* a scope table has one entry for each document (`Scopes`) if no mutation's key shares its entry
  with another stored document (`Unshared`);
* the field index has one entry for each top-level field of each document (`IndexExact`) if the
  stored documents of a collection always have ordered ids of their own (`Distinguished`), and if
  every mutation since the index was last exact maintained it.

`Contents` puts them together and is kept by a mutation (`Contents.mutation`).
-/

namespace Firenook.Disk

open List Except Fallible ChangeLog IndexTable State

variable {e : List UInt8} {found : Entries} {ms' : List Mutation} {key : List UInt8}
  {ids : PrefixIds} {m : Mutation} {k : DocumentKey} {ms : List Mutation}

/-! ### Scope tables -/

/-- The table has exactly one entry for each document: its key under `encode`, pointing to the
document's own key. -/
structure Scopes (encode : DocumentKey → Except DiskError (List UInt8)) (table : Table)
    (documents : Documents) : Prop where
  table : Describes table fun e v => ∃ k, Live documents k ∧ encode k = .ok e ∧
    encodeDocumentKey k = .ok v
  encodable : ∀ k, Live documents k → ∃ e, encode k = .ok e

namespace Scopes

variable {encode : DocumentKey → Except DiskError (List UInt8)} {table : Table}
  {docs : Documents}

theorem empty : Scopes encode ∅ ∅ where
  table := by
    intro e v
    simp [Live]
  encodable := by
    intro k hk
    simp [Live] at hk

/-- Writing one document's entry, when no other document has it. -/
theorem put (h : Scopes encode table docs) {doc : Option Document}
    {value : Option (List UInt8)} (he : encode k = .ok e) (hkey : encodeDocumentKey k = .ok key)
    (hval : Encodes doc value) (haln : ∀ j, Live docs j → encode j = .ok e → j = k) :
    Scopes encode (ChangeLog.put table e (value.map fun _ => key)) (ChangeLog.put docs k doc) where
  table := by
    have hoth : ∀ j, j ≠ k → (Live (ChangeLog.put docs k doc) j ↔ Live docs j) := by
      intro j hj
      rw [Live, Live, getElem?_put_of_ne _ hj.symm]
    intro x v
    by_cases hx : e = x
    · subst hx
      rw [getElem?_put_self]
      refine ⟨?_, ?_⟩
      · intro hv
        cases doc with
        | none =>
          cases value with
          | none => cases hv
          | some w => cases hval
        | some d =>
          cases value with
          | none => cases hval
          | some w =>
            obtain rfl := Option.some.inj hv
            exact ⟨k, by rw [Live, getElem?_put_self]; rfl, he, hkey⟩
      · rintro ⟨j, hlv, hj, hjy⟩
        by_cases hjk : j = k
        · subst hjk
          rw [Live, getElem?_put_self] at hlv
          obtain rfl : key = v := ok.inj (hkey.symm.trans hjy)
          cases doc with
          | none => cases hlv
          | some d =>
            cases value with
            | none => cases hval
            | some w => rfl
        · exact absurd (haln j ((hoth j hjk).mp hlv) hj) hjk
    · rw [getElem?_put_of_ne _ hx, h.table x v]
      refine exists_congr fun j => ?_
      by_cases hjk : j = k
      · subst hjk
        refine ⟨?_, ?_⟩ <;>
        · rintro ⟨-, hj, -⟩
          exact absurd (ok.inj (he.symm.trans hj)) hx
      · rw [hoth j hjk]
  encodable := by
    intro j hj
    by_cases hjk : k = j
    · subst hjk
      exact ⟨e, he⟩
    · rw [Live, getElem?_put_of_ne _ hjk] at hj
      exact h.encodable j hj

end Scopes

/-! ### The field index -/

/-- The documents of one collection have ordered ids of their own. -/
def Apart (documents : Documents) : Prop :=
  ∀ j k : DocumentKey, Live documents j → Live documents k → j.database = k.database →
    j.collectionPath = k.collectionPath →
    orderedResourceId j.documentId = orderedResourceId k.documentId → j = k

section

variable (sha : Sha256)

/-- `e` is the entry of a top-level field of a document, and `i` the document's id. -/
def FieldEntry (ids : PrefixIds) (docs : Documents) (e i : List UInt8) : Prop :=
  ∃ (k : DocumentKey) (d : Document) (f : Str × Indexed), docs[k]? = some d ∧
    f ∈ indexedFields d ∧ EntryOf sha ids k f e ∧ i = k.documentId

/-- The index has exactly the entries of the documents' top-level fields, all of whose prefixes
have an id. -/
structure IndexExact (index : Table) (ids : PrefixIds) (docs : Documents) : Prop where
  named : ∀ (k : DocumentKey) d, docs[k]? = some d → ∀ f ∈ indexedFields d, Named ids k f
  table : Describes index (FieldEntry sha ids docs)

variable {sha} {docs : Documents}

theorem IndexExact.empty : IndexExact sha ∅ ∅ ∅ where
  named := by
    intro k d hd
    simp at hd
  table := by
    intro e i
    simp [FieldEntry]

/-- Two fields with one entry belong to one document, where ordered ids tell documents apart. -/
theorem eq_of_entryOf (hvld : ids.Valid) (hapt : Apart docs)
    {j : DocumentKey} {d d' : Document} {f f' : Str × Indexed} (hj : Live docs j)
    (hk : Live docs k) (hf : f ∈ indexedFields d) (hf' : f' ∈ indexedFields d')
    (he : EntryOf sha ids j f e) (he' : EntryOf sha ids k f' e) : j = k := by
  obtain ⟨⟨name, v⟩, -, rfl⟩ := mem_map.mp hf
  obtain ⟨⟨name', v'⟩, -, rfl⟩ := mem_map.mp hf'
  obtain ⟨hdb, hcol, -, -, hid⟩ := entryOf_inj hvld he he'
  exact hapt j k hj hk hdb hcol hid

theorem live_of_eq_some {d : Document} (h : docs[k]? = some d) : Live docs k := by
  rw [Live, h]
  rfl

/-- What the stored document's entries are. -/
theorem previousEntries_eq_ok {t : Tables} (h : Represents t docs)
    (hkey : encodeDocumentKey k = .ok key) (hfd : previousEntries sha t key k = .ok found) :
    ∀ x, x ∈ found ↔ ∃ d, docs[k]? = some d ∧ ∃ f ∈ indexedFields d,
      EntryOf sha t.fieldPrefixes k f x.1 ∧ x.2 = k.documentId := by
  intro x
  unfold previousEntries at hfd
  cases hk : docs[k]? with
  | none =>
    rw [h.lookup_none hkey hk] at hfd
    obtain rfl := ok.inj hfd
    simp
  | some d =>
    obtain ⟨v, hv, hd⟩ := h.lookup_some hkey hk
    rw [hv] at hfd
    obtain ⟨fields, hfl, hfd⟩ := bind_eq_ok.mp hfd
    obtain ⟨⟨es, ids⟩, hes, hfd⟩ := bind_eq_ok.mp hfd
    obtain rfl := pure_eq_ok.mp hfd
    rw [coded_eq_ok, storedIndexFields_encode hd, ok.injEq] at hfl
    obtain ⟨raw, hraw, rfl⟩ := entries_eq_ok.mp hes
    have hixd : (fields.map fun f => (f.1, Indexed.ofStored f.2)) = indexedFields d := by
      rw [← hfl, map_map]
      exact map_congr_left fun f _ => by simp [Indexed.ofStored_of]
    rw [hixd] at hraw
    rw [mem_sortDedup, (fieldEntries_read hraw).2 x]
    simp

/-- What the written document's entries are, and what naming its prefixes does. -/
theorem nextEntries_eq_ok {t : Tables} (hvld : t.fieldPrefixes.Valid)
    (h : nextEntries sha t m = .ok (found, ids)) :
    ids.Valid ∧ t.fieldPrefixes.Extends ids ∧
      (∀ d, m.document = some d → ∀ f ∈ indexedFields d, Named ids m.key f) ∧
      (∀ x, x ∈ found ↔ ∃ d, m.document = some d ∧ ∃ f ∈ indexedFields d,
        EntryOf sha ids m.key f x.1 ∧ x.2 = m.key.documentId) ∧
      ∀ p i, p ≠ nextPrefixId → ids[p]? = some i → t.fieldPrefixes[p]? = some i ∨
        ∃ d, m.document = some d ∧ ∃ f ∈ indexedFields d,
          fieldPrefix m.key.database m.key.collectionPath f.1.bytes = .ok p := by
  unfold nextEntries at h
  cases hm : m.document with
  | none =>
    rw [hm] at h
    obtain ⟨rfl, rfl⟩ := Prod.mk.inj (ok.inj h)
    exact ⟨hvld, .refl _, nofun, by simp, fun p i _ hi => .inl hi⟩
  | some d =>
    rw [hm] at h
    obtain ⟨raw, hraw, rfl⟩ := entries_eq_ok.mp h
    obtain ⟨hvld', hext, hnmd, hmem, hon⟩ := fieldEntries_assign hvld hraw
    refine ⟨hvld', hext, ?_, ?_, ?_⟩
    · rintro _ ⟨⟩
      exact hnmd
    · intro x
      rw [mem_sortDedup, hmem x]
      simp
    · intro p i hp hi
      rcases hon p i hp hi with hold | hnew
      · exact .inl hold
      · exact .inr ⟨d, rfl, hnew⟩

/-- The index once the entries that differ are written. -/
theorem indexExact_put {index : Table} {ids' : PrefixIds} (k : DocumentKey)
    (doc : Option Document) (prev next : Entries)
    (h : IndexExact sha index ids docs) (hvld : ids.Valid) (hvld' : ids'.Valid)
    (hext : ids.Extends ids') (hapt : Apart docs)
    (hapt' : Apart (put docs k doc))
    (hnmd : ∀ d, doc = some d → ∀ f ∈ indexedFields d, Named ids' k f)
    (hprv : ∀ x, x ∈ prev ↔ ∃ d, docs[k]? = some d ∧
      ∃ f ∈ indexedFields d, EntryOf sha ids k f x.1 ∧ x.2 = k.documentId)
    (hnx : ∀ x, x ∈ next ↔ ∃ d, doc = some d ∧
      ∃ f ∈ indexedFields d, EntryOf sha ids' k f x.1 ∧ x.2 = k.documentId) :
    IndexExact sha ((next.filter fun e => e ∉ prev).foldl (fun i e => i.insert e.1 e.2)
        ((prev.filter fun e => e ∉ next).foldl (fun i e => i.erase e.1) index))
      ids' (put docs k doc) := by
  have hoth : ∀ j : DocumentKey, j ≠ k → (put docs k doc)[j]? = docs[j]? :=
    fun j hj => getElem?_put_of_ne _ hj.symm _
  have hsl : (put docs k doc)[k]? = doc := getElem?_put_self _ _ _
  have hlv : ∀ {j : DocumentKey}, j ≠ k → Live docs j → Live (put docs k doc) j := by
    intro j hj hlv
    rwa [Live, hoth j hj]
  refine ⟨?_, ?_⟩
  · intro j d hd f hf
    by_cases hj : j = k
    · subst hj
      exact hnmd d (hsl.symm.trans hd) f hf
    · exact (h.named j d ((hoth j hj).symm.trans hd) f hf).extend hext
  · -- an entry of `k` under the new ids is an entry of no other document
    have haln : ∀ {j : DocumentKey} {d d' : Document} {f f' : Str × Indexed} {e : List UInt8},
        docs[j]? = some d → f ∈ indexedFields d → EntryOf sha ids j f e →
        doc = some d' → f' ∈ indexedFields d' → EntryOf sha ids' k f' e → j = k := by
      intro j d d' f f' e hd hf he hd' hf' he'
      by_contra hj
      refine hj (eq_of_entryOf hvld' hapt' (hlv hj (live_of_eq_some hd)) ?_ hf hf'
        (he.extend _ hext) he')
      rw [Live, hsl, hd']
      rfl
    have hrm := h.table.eraseAll (prev.filter fun e => e ∉ next)
    have hwrn := hrm.insertAll (next.filter fun e => e ∉ prev) (by
        rintro ⟨e, i⟩ hx w ⟨⟨j, d, f, hd, hf, he, rfl⟩, -⟩
        obtain ⟨d', hd', f', hf', he', hi⟩ := (hnx _).mp (mem_filter.mp hx).1
        rw [haln hd hf he hd' hf' he']
        exact hi.symm)
      (by
        intro x hx y hy _
        obtain ⟨_, -, _, -, -, hi⟩ := (hnx x).mp (mem_filter.mp hx).1
        obtain ⟨_, -, _, -, -, hi'⟩ := (hnx y).mp (mem_filter.mp hy).1
        rw [hi, hi'])
    refine hwrn.congr fun e i => ?_
    simp only [mem_filter, decide_eq_true_eq]
    refine ⟨?_, ?_⟩
    · rintro (⟨⟨j, d, f, hd, hf, he, rfl⟩, hkp⟩ | ⟨hin, -⟩)
      · by_cases hj : j = k
        · -- an entry of the stored document that was not removed is one of the new ones
          subst hj
          have hold : (e, j.documentId) ∈ prev := (hprv _).mpr ⟨d, hd, f, hf, he, rfl⟩
          have hin : (e, j.documentId) ∈ next := by
            by_contra hout
            exact hkp _ ⟨hold, hout⟩ rfl
          obtain ⟨d', hd', f', hf', he', -⟩ := (hnx _).mp hin
          exact ⟨j, d', f', hsl.trans hd', hf', he', rfl⟩
        · exact ⟨j, d, f, (hoth j hj).trans hd, hf, he.extend _ hext, rfl⟩
      · obtain ⟨d, hd, f, hf, he, rfl⟩ := (hnx _).mp hin
        exact ⟨k, d, f, hsl.trans hd, hf, he, rfl⟩
    · rintro ⟨j, d, f, hd, hf, he, rfl⟩
      by_cases hj : j = k
      · subst hj
        have hin : (e, j.documentId) ∈ next := (hnx _).mpr ⟨d, hsl.symm.trans hd, f, hf, he, rfl⟩
        by_cases hold : (e, j.documentId) ∈ prev
        · obtain ⟨d', hd', f', hf', he', -⟩ := (hprv _).mp hold
          refine .inl ⟨⟨j, d', f', hd', hf', he', rfl⟩, ?_⟩
          rintro ⟨e', i'⟩ ⟨hx, hout⟩ rfl
          obtain ⟨_, -, _, -, -, rfl⟩ := (hprv _).mp hx
          exact hout hin
        · exact .inr ⟨hin, hold⟩
      · -- another document keeps its entry: none of `k`'s entries is one of its
        have hd' := (hoth j hj).symm.trans hd
        have he' := he.of_extend _ hext (h.named j d hd' f hf)
        refine .inl ⟨⟨j, d, f, hd', hf, he', rfl⟩, ?_⟩
        rintro ⟨e', i'⟩ ⟨hx, -⟩ rfl
        obtain ⟨d₀, hd₀, f₀, hf₀, he₀, -⟩ := (hprv _).mp hx
        exact hj (eq_of_entryOf hvld hapt (live_of_eq_some hd') (live_of_eq_some hd₀) hf hf₀
          he' he₀)

end

/-! ### Histories of mutations -/

/-- No mutation's key shares its entry with another document stored at the time. -/
def Unshared (encode : DocumentKey → Except DiskError (List UInt8)) (ms : List Mutation) : Prop :=
  ∀ past m, past ++ [m] <+: ms →
    ∀ j e, Live (mutate ∅ past) j → encode j = .ok e → encode m.key = .ok e → j = m.key

/-- At every point the stored documents of a collection have ordered ids of their own. -/
def Distinguished (ms : List Mutation) : Prop := ∀ past, past <+: ms → Apart (mutate ∅ past)

/-- The database, collection and name of every field the mutations write. -/
def fieldNames (ms : List Mutation) : List (DatabaseName × List UInt8 × List UInt8) :=
  ms.flatMap fun m => (m.document.elim [] indexedFields).map fun f =>
    (m.key.database, m.key.collectionPath, f.1.bytes)

theorem mem_fieldNames {x : DatabaseName × List UInt8 × List UInt8} :
    x ∈ fieldNames ms ↔ ∃ m ∈ ms, ∃ d, m.document = some d ∧ ∃ f ∈ indexedFields d,
      x = (m.key.database, m.key.collectionPath, f.1.bytes) := by
  simp only [fieldNames, mem_flatMap, mem_map]
  refine exists_congr fun m => and_congr_right fun _ => ?_
  cases m.document with
  | none => simp
  | some d => simp [eq_comm]

theorem Unshared.of_isPrefix {encode : DocumentKey → Except DiskError (List UInt8)}
    (h : Unshared encode ms') (hms : ms <+: ms') : Unshared encode ms :=
  fun past m hps => h past m (hps.trans hms)

theorem Distinguished.of_isPrefix (h : Distinguished ms') (hms : ms <+: ms') : Distinguished ms :=
  fun past hps => h past (hps.trans hms)

theorem mutate_concat (docs : Documents) (ms : List Mutation) (m : Mutation) :
    mutate docs (ms ++ [m]) = put (mutate docs ms) m.key m.document :=
  foldl_append

/-- A stored document was written by a mutation. -/
theorem exists_of_mutate :
    ∀ {k : DocumentKey} {d : Document}, (mutate ∅ ms)[k]? = some d → ⟨k, some d⟩ ∈ ms := by
  induction ms using reverseRecOn with
  | nil =>
    intro k d hd
    simp [mutate] at hd
  | append_singleton ms m ih =>
    intro k d hd
    rw [mutate_concat] at hd
    by_cases hk : m.key = k
    · subst hk
      rw [getElem?_put_self] at hd
      rw [← hd]
      exact mem_append_right _ (mem_singleton_self _)
    · rw [getElem?_put_of_ne _ hk] at hd
      exact mem_append_left _ (ih hd)

/-- **What the tables hold after the mutations.** `exact` is whether the field index was
maintained. -/
structure Contents (sha : Sha256) (exact : Prop) (t : Tables) (ms : List Mutation) : Prop where
  represents : Represents t (mutate ∅ ms)
  inScope : ∀ k, Live (mutate ∅ ms) k →
    (∃ e, encodeCollectionIndexKey k = .ok e) ∧ ∃ e, encodeCollectionGroupIndexKey k = .ok e
  ids : t.fieldPrefixes.Valid
  named : ∀ p i, p ≠ nextPrefixId → t.fieldPrefixes[p]? = some i →
    ∃ x ∈ fieldNames ms, fieldPrefix x.1 x.2.1 x.2.2 = .ok p
  collections : Unshared encodeCollectionIndexKey ms →
    Scopes encodeCollectionIndexKey t.collections (mutate ∅ ms)
  collectionGroups : Unshared encodeCollectionGroupIndexKey ms →
    Scopes encodeCollectionGroupIndexKey t.collectionGroups (mutate ∅ ms)
  index : exact → Distinguished ms →
    IndexExact sha t.fieldIndex t.fieldPrefixes (mutate ∅ ms)

section

variable {sha : Sha256} {fieldIndexes : Bool} {exact : Prop} {t t' : Tables}
  {ms : List Mutation}

theorem contents_empty (sha : Sha256) : Contents sha True .empty [] where
  represents := represents_empty rfl
  inScope := by
    intro k hk
    simp [mutate, Live] at hk
  ids := PrefixIds.valid_empty
  named := by
    intro p i _ hi
    simp [Tables.empty] at hi
  collections _ := Scopes.empty
  collectionGroups _ := Scopes.empty
  index _ _ := IndexExact.empty

namespace Contents

theorem weaken {other : Prop} (h : Contents sha exact t ms) (himp : other → exact) :
    Contents sha other t ms :=
  { h with index := fun hoth => h.index (himp hoth) }

section

variable (h : Contents sha exact t ms)

include h

/-- Only the four tables and the prefix ids matter. -/
theorem congr (hdc : t'.documents = t.documents) (hcl : t'.collections = t.collections)
    (hgr : t'.collectionGroups = t.collectionGroups) (hidx : t'.fieldIndex = t.fieldIndex)
    (hids : t'.fieldPrefixes = t.fieldPrefixes) : Contents sha exact t' ms where
  represents := h.represents.congr hdc
  inScope := h.inScope
  ids := hids ▸ h.ids
  named := hids ▸ h.named
  collections := hcl ▸ h.collections
  collectionGroups := hgr ▸ h.collectionGroups
  index := by
    rw [hidx, hids]
    exact h.index

/-- The prefix ids after a mutation, and the index if it was exact and is maintained. -/
theorem indexMutation (hkey : encodeDocumentKey m.key = .ok key)
    (hm : Disk.indexMutation sha fieldIndexes t key m = .ok t') :
    t'.fieldPrefixes.Valid ∧
    (∀ p i, p ≠ nextPrefixId → t'.fieldPrefixes[p]? = some i →
      ∃ x ∈ fieldNames (ms ++ [m]), fieldPrefix x.1 x.2.1 x.2.2 = .ok p) ∧
    (exact ∧ fieldIndexes = true → Distinguished (ms ++ [m]) →
      IndexExact sha t'.fieldIndex t'.fieldPrefixes (mutate ∅ (ms ++ [m]))) := by
  have hold : ∀ x ∈ fieldNames ms, x ∈ fieldNames (ms ++ [m]) := by
    intro x hx
    rw [fieldNames, flatMap_append]
    exact mem_append_left _ hx
  cases fieldIndexes with
  | false =>
    obtain rfl := ok.inj hm
    refine ⟨h.ids, ?_, nofun⟩
    intro p i hp hi
    obtain ⟨x, hx, hpre⟩ := h.named p i hp hi
    exact ⟨x, hold x hx, hpre⟩
  | true =>
    obtain ⟨prev, hprv, hm⟩ := bind_eq_ok.mp hm
    obtain ⟨⟨next, ids⟩, hnx, hm⟩ := bind_eq_ok.mp hm
    obtain rfl := pure_eq_ok.mp hm
    obtain ⟨hvld, hext, hnmd, hmem, hon⟩ := nextEntries_eq_ok h.ids hnx
    refine ⟨hvld, ?_, ?_⟩
    · intro p i hp hi
      rcases hon p i hp hi with hi | ⟨d, hd, f, hf, hpre⟩
      · obtain ⟨x, hx, hpre⟩ := h.named p i hp hi
        exact ⟨x, hold x hx, hpre⟩
      · exact ⟨_, mem_fieldNames.mpr ⟨m, mem_append_right _ (mem_singleton_self _), d,
          hd, f, hf, rfl⟩, hpre⟩
    · rintro ⟨hex, -⟩ hapt
      have hbef := hapt.of_isPrefix (prefix_append ms [m])
      have haft := hapt (ms ++ [m]) (prefix_refl _)
      rw [mutate_concat] at haft ⊢
      exact indexExact_put _ _ _ _ (h.index hex hbef) h.ids hvld hext
        (hbef ms (prefix_refl _)) haft hnmd
        (previousEntries_eq_ok h.represents hkey hprv) hmem

/-- **One mutation.** -/
theorem mutation (hm : applyMutation sha fieldIndexes t m = .ok t') :
    Contents sha (exact ∧ fieldIndexes = true) t' (ms ++ [m]) := by
  have hrep := applyMutation_represents h.represents hm
  obtain ⟨key, collection, group, value, mid, hkey, hcol, hgrp, hval, hmid, rfl⟩ :=
    applyMutation_eq_ok hm
  obtain ⟨hids, hnmd, hidx⟩ := h.indexMutation hkey hmid
  rw [← mutate_concat] at hrep
  refine ⟨hrep, ?_, hids, hnmd, ?_, ?_, hidx⟩
  · intro k hk
    by_cases hkm : m.key = k
    · subst hkm
      exact ⟨⟨collection, hcol⟩, ⟨group, hgrp⟩⟩
    · rw [mutate_concat, Live, getElem?_put_of_ne _ hkm] at hk
      exact h.inScope k hk
  · intro huns
    rw [mutate_concat]
    exact (h.collections (huns.of_isPrefix (prefix_append ms [m]))).put hcol hkey
      hval fun j hj he => huns ms m (prefix_refl _) j _ hj he hcol
  · intro huns
    rw [mutate_concat]
    exact (h.collectionGroups (huns.of_isPrefix (prefix_append ms [m]))).put hgrp hkey
      hval fun j hj he => huns ms m (prefix_refl _) j _ hj he hgrp

end

/-- **A list of mutations.** -/
theorem mutations {added : List Mutation} {exact : Prop} {t : Tables}
    (h : Contents sha exact t ms) (ht : applyMutations sha fieldIndexes t added = .ok t') :
    Contents sha (exact ∧ fieldIndexes = true) t' (ms ++ added) := by
  induction added generalizing exact t ms with
  | nil =>
    cases ht
    rw [append_nil]
    exact h.weaken And.left
  | cons m added ih =>
    obtain ⟨mid, hmid, ht⟩ := applyMutations_cons ht
    have hrs := ih (h.mutation hmid) ht
    rw [append_assoc] at hrs
    exact hrs.weaken fun hex => ⟨hex, hex.2⟩

end Contents

end

end Firenook.Disk
