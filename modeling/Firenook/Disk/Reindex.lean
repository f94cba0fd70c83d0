import Firenook.Disk.Contents

/-!
# Reindex — rebuilding the field index, and when writing it cannot fail

A rebuild reads every stored document and writes the index and its prefix ids anew. Whatever the
index held before, it is exact afterwards (**`Contents.rebuild`**).

The index is the one part of a transaction that can fail on what the store already holds: prefix
ids are 32 bits wide and never given back. Where fewer field names than ids are written, neither a
record of storable mutations (**`Contents.mutations_returns`**) nor a rebuild
(**`Contents.rebuild_returns`**) fails.
-/

namespace Firenook.Disk

open List Std Except Fallible ChangeLog State

variable {done : Documents} {ids : PrefixIds} {v : List UInt8} {x : List UInt8 × List UInt8}
  {rest : List (List UInt8 × List UInt8)} {names : List (List UInt8)} {docs : Documents}
  {k : DocumentKey} {d : Document}

section

variable {sha : Sha256} {fieldIndexes : Bool} {exact : Prop} {t t' : Tables}
  {ms : List Mutation}

/-! ### Rebuilding the index -/

/-- What the rebuild has done after some of the documents. -/
structure Reindexed (sha : Sha256) (docs done : Documents) (index : Table)
    (ids : PrefixIds) : Prop where
  sub : ∀ (k : DocumentKey) d, done[k]? = some d → docs[k]? = some d
  valid : ids.Valid
  named : ∀ p i, p ≠ nextPrefixId → ids[p]? = some i →
    ∃ (k : DocumentKey) (d : Document), docs[k]? = some d ∧ ∃ f ∈ indexedFields d,
      fieldPrefix k.database k.collectionPath f.1.bytes = .ok p
  exact : Apart docs → IndexExact sha index ids done

theorem Apart.of_sub (h : Apart docs)
    (hsub : ∀ (k : DocumentKey) d, done[k]? = some d → docs[k]? = some d) : Apart done := by
  have hlv : ∀ k, Live done k → Live docs k := by
    intro k hk
    obtain ⟨d, hd⟩ := Option.isSome_iff_exists.mp hk
    exact live_of_eq_some (hsub k d hd)
  intro j k hj hk
  exact h j k (hlv j hj) (hlv k hk)

theorem Reindexed.entry {index : Table} (h : Reindexed sha docs done index ids)
    {usage : LogicalMemoryUsage} (hd : docs[k]? = some d)
    (hkey : encodeDocumentKey k = .ok x.1) (hval : encodeStoredDocument d = .ok x.2)
    (hnew : done[k]? = none) {r : Table × PrefixIds × LogicalMemoryUsage}
    (hr : reindexEntry sha (index, ids, usage) x = .ok r) :
    Reindexed sha docs (put done k (some d)) r.1 r.2.1 := by
  obtain ⟨⟨k', d'⟩, hdec, hr⟩ := bind_eq_ok.mp hr
  obtain ⟨⟨found, ids'⟩, hfd, hr⟩ := bind_eq_ok.mp hr
  obtain rfl := pure_eq_ok.mp hr
  obtain ⟨key, hdk, hdec⟩ := bind_eq_ok.mp hdec
  obtain ⟨doc, hdv, hdec⟩ := bind_eq_ok.mp hdec
  obtain ⟨rfl, rfl⟩ := Prod.mk.inj (pure_eq_ok.mp hdec)
  obtain rfl : k = key := ok.inj ((decodeDocumentKey_encode hkey).symm.trans hdk)
  obtain rfl : d = doc :=
    ok.inj ((decodeStoredDocument_encode hval).symm.trans (coded_eq_ok.mp hdv))
  obtain ⟨raw, hraw, rfl⟩ := entries_eq_ok.mp hfd
  obtain ⟨hvld, hext, hnmd, hmem, hon⟩ := fieldEntries_assign h.valid hraw
  have hsub : ∀ (j : DocumentKey) e, (put done k (some d))[j]? = some e → docs[j]? = some e := by
    intro j e he
    by_cases hj : k = j
    · subst hj
      rw [getElem?_put_self] at he
      rw [hd, he]
    · rw [getElem?_put_of_ne _ hj] at he
      exact h.sub j e he
  refine ⟨hsub, hvld, ?_, ?_⟩
  · intro p i hp hi
    rcases hon p i hp hi with hi | ⟨f, hf, hpre⟩
    · exact h.named p i hp hi
    · exact ⟨k, d, hd, f, hf, hpre⟩
  · intro hapt
    have hput := indexExact_put k (some d) [] (sortDedup raw)
      (h.exact hapt) h.valid hvld hext (hapt.of_sub h.sub)
      (hapt.of_sub hsub)
      (by
        rintro _ ⟨⟩
        exact hnmd)
      (by
        simp [hnew])
      (by
        intro x
        rw [mem_sortDedup, hmem x]
        simp)
    simpa using hput

/-- What a rebuild still has to read: the entries of stored documents, each once and none done. -/
structure Unread (documents done : Documents) (rest : List (List UInt8 × List UInt8)) : Prop where
  stored : ∀ x ∈ rest, ∃ (k : DocumentKey) (d : Document), documents[k]? = some d ∧
    encodeDocumentKey k = .ok x.1 ∧ encodeStoredDocument d = .ok x.2
  distinct : rest.Pairwise fun a b => a.1 ≠ b.1
  fresh : ∀ k, Live done k → ∀ x ∈ rest, encodeDocumentKey k ≠ .ok x.1

/-- The next entry is that of a document not done yet, and the others are still to be read. -/
theorem Unread.cons (h : Unread docs done (x :: rest)) :
    ∃ (k : DocumentKey) (d : Document), docs[k]? = some d ∧ encodeDocumentKey k = .ok x.1 ∧
      encodeStoredDocument d = .ok x.2 ∧ done[k]? = none ∧
      Unread docs (put done k (some d)) rest := by
  obtain ⟨k, d, hd, hkey, hval⟩ := h.stored x mem_cons_self
  obtain ⟨hhd, htl⟩ := pairwise_cons.mp h.distinct
  refine ⟨k, d, hd, hkey, hval, ?_, fun y hy => h.stored y (mem_cons_of_mem _ hy), htl, ?_⟩
  · by_contra hlv
    exact h.fresh k (Option.isSome_iff_ne_none.mpr hlv) x mem_cons_self hkey
  intro j hj y hy hjy
  by_cases hjk : k = j
  · subst hjk
    exact hhd y hy (ok.inj (hkey.symm.trans hjy))
  · rw [Live, getElem?_put_of_ne _ hjk] at hj
    exact h.fresh j hj y (mem_cons_of_mem _ hy) hjy

/-- The entries of the documents table. -/
theorem Represents.unread (h : Represents t docs) : Unread docs ∅ t.documents.toList where
  stored x hx := (h.table x.1 x.2).mp (ExtTreeMap.mem_toList_iff_getElem?_eq_some.mp hx)
  distinct := by
    refine ExtTreeMap.distinct_keys_toList.imp fun {a b} hne heq => hne ?_
    rw [heq]
    exact ReflCmp.compare_self
  fresh := by simp [Live]

theorem Reindexed.entries {r : Table × PrefixIds × LogicalMemoryUsage} {done : Documents}
    {index : Table} {ids : PrefixIds} {usage : LogicalMemoryUsage}
    (h : Reindexed sha docs done index ids) (hunr : Unread docs done rest)
    (hr : rest.foldlM (reindexEntry sha) (index, ids, usage) = .ok r) :
    ∃ done', Reindexed sha docs done' r.1 r.2.1 ∧ ∀ (k : DocumentKey) d, docs[k]? = some d →
        (done[k]? = some d ∨ ∃ x ∈ rest, encodeDocumentKey k = .ok x.1) → done'[k]? = some d := by
  induction rest generalizing done index ids usage with
  | nil =>
    obtain rfl := ok.inj hr
    exact ⟨done, h, fun k d _ hk => by simpa using hk⟩
  | cons x rest ih =>
    obtain ⟨⟨index', ids', usage'⟩, hx, hr⟩ := bind_eq_ok.mp hr
    obtain ⟨k, d, hd, hkey, hval, hfrs, hunr⟩ := hunr.cons
    obtain ⟨done', hdn', hcov⟩ := ih (h.entry hd hkey hval hfrs hx) hunr hr
    refine ⟨done', hdn', ?_⟩
    intro j e he hj
    refine hcov j e he ?_
    by_cases hjk : k = j
    · subst hjk
      rw [hd] at he
      exact .inl (by rw [getElem?_put_self, he])
    · rcases hj with hj | ⟨y, hy, hjy⟩
      · exact .inl (by rw [getElem?_put_of_ne _ hjk, hj])
      · rcases mem_cons.mp hy with rfl | hy
        · exact absurd (encodeDocumentKey_inj hkey hjy) hjk
        · exact .inr ⟨y, hy, hjy⟩

theorem reindexed_empty (sha : Sha256) (docs : Documents) :
    Reindexed sha docs ∅ ∅ ∅ :=
  ⟨by simp, PrefixIds.valid_empty, by simp, fun _ => IndexExact.empty⟩

/-- **A rebuild makes the index exact**, whatever it was. -/
theorem Contents.rebuild (h : Contents sha exact t ms) {counted : LogicalMemoryUsage}
    (ht : rebuildFieldIndex sha t = .ok (t', counted)) :
    Contents sha True t' ms ∧
      t' = { t with
        fieldIndex := t'.fieldIndex, fieldPrefixes := t'.fieldPrefixes,
        fieldIndexRevision := some (loadPersistedState t).revision } := by
  obtain ⟨⟨index, ids, usage⟩, hfl, ht⟩ := bind_eq_ok.mp ht
  obtain ⟨rfl, rfl⟩ := Prod.mk.inj (pure_eq_ok.mp ht)
  obtain ⟨done, hdn, hcov⟩ := (reindexed_empty sha (mutate ∅ ms)).entries h.represents.unread hfl
  have hall : done = mutate ∅ ms := by
    refine ExtTreeMap.ext_getElem? fun {k} => Option.ext fun d => ⟨hdn.sub k d, fun hd => ?_⟩
    obtain ⟨e, v, he, hv⟩ := h.represents.encodable k d hd
    have hent := (h.represents.table e v).mpr ⟨k, d, hd, he, hv⟩
    exact hcov k d hd (.inr ⟨(e, v), ExtTreeMap.mem_toList_iff_getElem?_eq_some.mpr hent, he⟩)
  subst hall
  refine ⟨?_, rfl⟩
  refine
    { h with
      represents := h.represents.congr rfl
      ids := hdn.valid
      named := ?_
      index := fun _ hdst => hdn.exact (hdst ms (prefix_refl _)) }
  intro p i hp hi
  obtain ⟨k, d, hd, f, hf, hpre⟩ := hdn.named p i hp hi
  exact ⟨_, mem_fieldNames.mpr ⟨_, exists_of_mutate hd, d, rfl, f, hf, rfl⟩, hpre⟩

/-! ### When nothing fails -/

/-- There are fewer field names than prefix ids. -/
def FewNames (ms : List Mutation) : Prop := (fieldNames ms).dedup.length < 2 ^ 32

theorem FewNames.of_subset {ms ms' : List Mutation} (h : FewNames ms') (hms : ms ⊆ ms') :
    FewNames ms := by
  have hsub : (fieldNames ms).dedup ⊆ (fieldNames ms').dedup := by
    intro x hx
    rw [mem_dedup, mem_fieldNames] at hx ⊢
    obtain ⟨m, hm, hrs⟩ := hx
    exact ⟨m, hms hm, hrs⟩
  exact (subperm_of_subset (nodup_dedup _) hsub).length_le.trans_lt h

/-- The prefixes of the fields the mutations write. -/
def prefixNames (ms : List Mutation) : List (List UInt8) :=
  (fieldNames ms).dedup.map fun x => ((fieldPrefix x.1 x.2.1 x.2.2).toOption).getD []

theorem mem_prefixNames {x : DatabaseName × List UInt8 × List UInt8} {p : List UInt8}
    (hx : x ∈ fieldNames ms) (hp : fieldPrefix x.1 x.2.1 x.2.2 = .ok p) : p ∈ prefixNames ms := by
  refine mem_map.mpr ⟨x, mem_dedup.mpr hx, ?_⟩
  rw [hp]
  rfl

theorem length_prefixNames (h : FewNames ms) : (prefixNames ms).length < 2 ^ 32 := by
  rw [prefixNames, length_map]
  exact h

/-- The mutation's keys and document can be encoded. -/
structure Storable (m : Mutation) : Prop where
  key : ∃ e, encodeDocumentKey m.key = .ok e
  scope : ∃ e, encodeCollectionIndexKey m.key = .ok e
  group : ∃ e, encodeCollectionGroupIndexKey m.key = .ok e
  document : ∃ value, Encodes m.document value

/-- The prefixes of a stored document's fields can be encoded. -/
theorem fieldPrefix_returns (hk : ∃ e, encodeCollectionIndexKey k = .ok e)
    (hd : encodeStoredDocument d = .ok v) :
    ∀ f ∈ indexedFields d, ∃ p, fieldPrefix k.database k.collectionPath f.1.bytes = .ok p := by
  intro f hf
  obtain ⟨⟨name, value⟩, hin, rfl⟩ := mem_map.mp hf
  obtain ⟨e, he⟩ := hk
  obtain ⟨scope, hsc, -⟩ := encodeCollectionIndexKey_eq_ok.mp he
  exact ⟨_, fieldPrefix_eq_ok.mpr ⟨scope, hsc, _,
    lengthPrefixed_eq_ok.mpr ⟨length_fieldName_lt hd _ hin, rfl⟩, rfl⟩⟩

/-- A document's entries can be computed, where there are fewer names than ids. -/
theorem documentEntries_returns (sha : Sha256) (hnms : names.length < 2 ^ 32)
    (hvld : ids.Valid) (hwi : ids.Within names) (hk : ∃ e, encodeCollectionIndexKey k = .ok e)
    (hd : encodeStoredDocument d = .ok v)
    (hmem : ∀ f ∈ indexedFields d, ∀ p,
      fieldPrefix k.database k.collectionPath f.1.bytes = .ok p → p ∈ names) :
    ∃ r, documentEntries sha ids k d = .ok r := by
  obtain ⟨⟨es, ids'⟩, hes⟩ := fieldEntries_returns sha k hnms hvld hwi fun f hf => by
      obtain ⟨p, hp⟩ := fieldPrefix_returns hk hd f hf
      exact ⟨p, hmem f hf p hp, hp⟩
  exact ⟨_, entries_eq_ok.mpr ⟨es, hes, rfl⟩⟩

theorem Contents.within (h : Contents sha exact t ms) :
    t.fieldPrefixes.Within (prefixNames ms) := by
  intro p i hp hi
  obtain ⟨x, hx, hpre⟩ := h.named p i hp hi
  exact mem_prefixNames hx hpre

theorem Contents.indexMutation_returns (h : Contents sha exact t ms) (fieldIndexes : Bool)
    {m : Mutation} (hm : Storable m) (hnms : FewNames (ms ++ [m])) {key : List UInt8}
    (hkey : encodeDocumentKey m.key = .ok key) :
    ∃ t', Disk.indexMutation sha fieldIndexes t key m = .ok t' := by
  cases fieldIndexes with
  | false => exact ⟨t, rfl⟩
  | true =>
    have hprv : ∃ prev, previousEntries sha t key m.key = .ok prev := by
      unfold previousEntries
      cases hd : (mutate ∅ ms)[m.key]? with
      | none =>
        rw [h.represents.lookup_none hkey hd]
        exact ⟨_, rfl⟩
      | some d =>
        obtain ⟨v, hv, hstd⟩ := h.represents.lookup_some hkey hd
        have hfl : ((d.fields.entries.map fun f => (f.1, StoredField.of f.2)).map
            fun f => (f.1, Indexed.ofStored f.2)) = indexedFields d := by
          rw [map_map]
          exact map_congr_left fun f _ => by simp [Indexed.ofStored_of]
        obtain ⟨⟨es, ids⟩, hes⟩ := fieldEntries_read_returns sha
          t.fieldPrefixes (fieldPrefix_returns hm.scope hstd)
        rw [hv]
        refine ⟨sortDedup es, bind_eq_ok.mpr ⟨_, coded_eq_ok.mpr (storedIndexFields_encode hstd),
          bind_eq_ok.mpr ⟨(sortDedup es, ids), ?_, rfl⟩⟩⟩
        rw [hfl]
        exact entries_eq_ok.mpr ⟨es, hes, rfl⟩
    have hnx : ∃ r, nextEntries sha t m = .ok r := by
      unfold nextEntries
      cases hdoc : m.document with
      | none => exact ⟨_, rfl⟩
      | some d =>
        obtain ⟨value, hval⟩ := hm.document
        rw [hdoc] at hval
        have hold : prefixNames ms ⊆ prefixNames (ms ++ [m]) := by
          intro p hp
          obtain ⟨x, hx, rfl⟩ := mem_map.mp hp
          refine mem_map.mpr ⟨x, ?_, rfl⟩
          rw [mem_dedup, fieldNames, flatMap_append] at *
          exact mem_append_left _ hx
        cases value with
        | none => cases hval
        | some v =>
          refine documentEntries_returns sha (length_prefixNames hnms) h.ids
            (fun p i hp hi => hold (h.within p i hp hi)) hm.scope hval fun f hf p hp => ?_
          exact mem_prefixNames (mem_fieldNames.mpr
            ⟨m, mem_append_right _ (mem_singleton_self _), d, hdoc, f, hf, rfl⟩) hp
    obtain ⟨prev, hprv⟩ := hprv
    obtain ⟨next, hnx⟩ := hnx
    exact ⟨_, bind_eq_ok.mpr ⟨prev, hprv, bind_eq_ok.mpr ⟨next, hnx, rfl⟩⟩⟩

theorem Contents.mutation_returns (h : Contents sha exact t ms) (fieldIndexes : Bool)
    {m : Mutation} (hm : Storable m) (hnms : FewNames (ms ++ [m])) :
    ∃ t', applyMutation sha fieldIndexes t m = .ok t' := by
  obtain ⟨key, hkey⟩ := hm.key
  obtain ⟨collection, hcol⟩ := hm.scope
  obtain ⟨group, hgrp⟩ := hm.group
  obtain ⟨mid, hmid⟩ := h.indexMutation_returns fieldIndexes hm hnms hkey
  obtain ⟨value, hval⟩ := hm.document
  rw [applyMutation, hkey, ok_bind, hcol, ok_bind, hgrp, ok_bind, hmid, ok_bind]
  cases hdoc : m.document with
  | none => exact ⟨_, rfl⟩
  | some d =>
    rw [hdoc] at hval
    cases value with
    | none => cases hval
    | some v => exact ⟨_, bind_eq_ok.mpr ⟨v, coded_eq_ok.mpr hval, rfl⟩⟩

/-- **A record's mutations can be applied**: each can be encoded, and there are ids for their
fields. -/
theorem Contents.mutations_returns (fieldIndexes : Bool) {added : List Mutation} {exact : Prop}
    {t : Tables} {ms : List Mutation} (h : Contents sha exact t ms)
    (hstb : ∀ m ∈ added, Storable m) (hnms : FewNames (ms ++ added)) :
    ∃ t', applyMutations sha fieldIndexes t added = .ok t' := by
  induction added generalizing exact t ms with
  | nil => exact ⟨_, rfl⟩
  | cons m added ih =>
    obtain ⟨mid, hmid⟩ := h.mutation_returns fieldIndexes
      (hstb m mem_cons_self) (hnms.of_subset (by simp))
    obtain ⟨t', ht'⟩ := ih (h.mutation hmid) (fun x hx => hstb x (mem_cons_of_mem _ hx))
      (by rwa [append_assoc])
    refine ⟨t', ?_⟩
    rw [applyMutations, foldlM_cons, hmid]
    exact ht'

theorem decodeStored_encode (hkey : encodeDocumentKey k = .ok x.1)
    (hval : encodeStoredDocument d = .ok x.2) : decodeStored x = .ok (k, d) :=
  bind_eq_ok.mpr ⟨k, decodeDocumentKey_encode hkey, bind_eq_ok.mpr
    ⟨d, coded_eq_ok.mpr (decodeStoredDocument_encode hval), rfl⟩⟩

theorem Reindexed.entries_return (hnms : names.length < 2 ^ 32)
    (hsc : ∀ k, Live docs k → ∃ e, encodeCollectionIndexKey k = .ok e)
    (hmem : ∀ (k : DocumentKey) d, docs[k]? = some d →
      ∀ f ∈ indexedFields d, ∀ p, fieldPrefix k.database k.collectionPath f.1.bytes = .ok p →
      p ∈ names) :
    ∀ {done : Documents} {index : Table} {ids : PrefixIds} (usage : LogicalMemoryUsage),
      Reindexed sha docs done index ids → Unread docs done rest →
      ∃ r, rest.foldlM (reindexEntry sha) (index, ids, usage) = .ok r := by
  induction rest with
  | nil => exact fun _ _ _ => ⟨_, rfl⟩
  | cons x rest ih =>
    intro done index ids usage h hunr
    obtain ⟨k, d, hd, hkey, hval, hfrs, hunr⟩ := hunr.cons
    have hwi : ids.Within names := by
      intro p i hp hi
      obtain ⟨j, e, he, f, hf, hpre⟩ := h.named p i hp hi
      exact hmem j e he f hf p hpre
    obtain ⟨⟨found, ids'⟩, hfd⟩ := documentEntries_returns sha hnms h.valid
      hwi (hsc k (live_of_eq_some hd)) hval (hmem k d hd)
    have hx : reindexEntry sha (index, ids, usage) x
        = .ok (found.foldl (fun i e => i.insert e.1 e.2) index, ids', usage.addEntry k (some d)) :=
      bind_eq_ok.mpr ⟨_, decodeStored_encode hkey hval, bind_eq_ok.mpr ⟨_, hfd, rfl⟩⟩
    rw [foldlM_cons, hx]
    exact ih _ (h.entry hd hkey hval hfrs hx) hunr

/-- **The index can be rebuilt**, where there are fewer names than ids. -/
theorem Contents.rebuild_returns (h : Contents sha exact t ms) (hnms : FewNames ms) :
    ∃ r, rebuildFieldIndex sha t = .ok r := by
  obtain ⟨r, hr⟩ := Reindexed.entries_return
    (length_prefixNames hnms) (fun k hk => (h.inScope k hk).1)
    (fun k d hd f hf p hp =>
      mem_prefixNames (mem_fieldNames.mpr ⟨_, exists_of_mutate hd, d, rfl, f, hf, rfl⟩) hp)
    .zero (reindexed_empty sha (mutate ∅ ms)) h.represents.unread
  exact ⟨_, bind_eq_ok.mpr ⟨r, hr, rfl⟩⟩

end

end Firenook.Disk
