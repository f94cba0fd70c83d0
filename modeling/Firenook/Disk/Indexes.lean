import Firenook.Disk.Opening

/-!
# Indexes — what the index tables hold in every run

`Stores` says what the tables hold after a history of records, and every world of a run stores a
prefix of its history (`World.Inv`). Two facts about whole runs follow.

* **`trusted_index`**: wherever the persisted revision of the field index is the persisted revision
  of the state, the index has exactly one entry for each top-level field of each stored document.
* **`scopes_exact`**: the two scope tables have exactly one entry for each stored document, as long
  as no record touches a name while a twin of it is stored. Twins are two names that
  `compare_resource_paths` does not tell apart.
  `scopes_lost` deletes one twin, and the other one is in no scope any more.
-/

namespace Firenook.Disk

variable {j k : DocumentKey} {e : List UInt8} {ms : List Mutation}

open State Option List

/-! ### Twins -/

/-- Two names of one database that the scope tables cannot tell apart. -/
def Twins (j k : DocumentKey) : Prop :=
  j.database = k.database ∧ j.collectionId = k.collectionId ∧
    compareResourcePaths j.path.bytes k.path.bytes = .eq

/-- No mutation touches a name while a twin of it is stored. -/
def Untwinned (ms : List Mutation) : Prop :=
  ∀ past m, past ++ [m] <+: ms → ∀ j, Live (mutate ∅ past) j → Twins j m.key → j = m.key

theorem untwinned_of_keys
    (h : ∀ j ∈ ms.map Mutation.key, ∀ k ∈ ms.map Mutation.key, Twins j k → j = k) :
    Untwinned ms := by
  intro past m hps j hj
  obtain ⟨d, hd⟩ := isSome_iff_exists.mp hj
  have hold := hps.subset (mem_append_left _ (exists_of_mutate hd))
  exact h _ (mem_map_of_mem hold) _ (mem_map_of_mem (hps.subset mem_concat_self))

theorem collectionIndexPrefix_database {d d' : DatabaseName} {c c' p q s t : List UInt8}
    (hp : collectionIndexPrefix d c = .ok p) (hq : collectionIndexPrefix d' c' = .ok q)
    (h : p ++ s = q ++ t) : d = d' := by
  obtain ⟨x, hx, y, hy, rfl⟩ := collectionIndexPrefix_eq_ok.mp hp
  obtain ⟨x', hx', y', hy', rfl⟩ := collectionIndexPrefix_eq_ok.mp hq
  rw [append_assoc, append_assoc] at h
  exact (databasePrefix_append_inj hx hx' h).1

/-- Two keys that share a collection entry are twins. -/
theorem twins_of_collection (hj : encodeCollectionIndexKey j = .ok e)
    (hk : encodeCollectionIndexKey k = .ok e) : Twins j k := by
  obtain ⟨p, hp, hpe⟩ := encodeCollectionIndexKey_eq_ok.mp hj
  obtain ⟨q, hq, hqe⟩ := encodeCollectionIndexKey_eq_ok.mp hk
  have hdb := collectionIndexPrefix_database hp hq (hpe.trans hqe.symm)
  obtain ⟨hcol, htie⟩ := (encodeCollectionIndexKey_eq_iff hdb hj hk).mp rfl
  refine ⟨hdb, by rw [DocumentKey.collectionId, hcol]; rfl, ?_⟩
  rw [← compare_orderedPath, j.segments_path, k.segments_path, hcol, flatMap_append,
    flatMap_append, flatMap_singleton, flatMap_singleton,
    orderCode_orderedResourceId.eq_of_eq _ _ htie]
  exact Std.ReflCmp.compare_self

/-- Two keys that share a collection-group entry are twins. -/
theorem twins_of_collectionGroup (hj : encodeCollectionGroupIndexKey j = .ok e)
    (hk : encodeCollectionGroupIndexKey k = .ok e) : Twins j k := by
  obtain ⟨p, hp, hpe⟩ := encodeCollectionGroupIndexKey_eq_ok.mp hj
  obtain ⟨q, hq, hqe⟩ := encodeCollectionGroupIndexKey_eq_ok.mp hk
  have hdb := collectionIndexPrefix_database hp hq (hpe.trans hqe.symm)
  exact ⟨hdb, (encodeCollectionGroupIndexKey_eq_iff hdb hj hk).mp rfl⟩

theorem Untwinned.collections (h : Untwinned ms) : Unshared encodeCollectionIndexKey ms :=
  fun past m hps j _ hlv hj hm => h past m hps j hlv (twins_of_collection hj hm)

theorem Untwinned.collectionGroups (h : Untwinned ms) : Unshared encodeCollectionGroupIndexKey ms :=
  fun past m hps j _ hlv hj hm => h past m hps j hlv (twins_of_collectionGroup hj hm)

/-! ### The tables of a run -/

namespace World

variable {sha : Sha256} {crc : List UInt8 → UInt32} {journaled : Bool}
  {permitted : State → Elapsed → List Write → Prop} {w : World}

/-- The tables and their durable version each store a part of the history. -/
theorem Run.stores (run : Run sha crc journaled permitted w) {t : Tables}
    (ht : t = w.media.tables ∨ t = w.media.durable) :
    ∃ h, h <+: w.history ∧ Stores sha t h := by
  rcases ht with rfl | rfl
  · exact run.inv.tables
  · obtain ⟨h, torn, hfd, m, -, hsto, -⟩ := run.inv.recovers
    have hpre := take_prefix m h
    exact ⟨h.take m, hpre.trans hfd.sub, hsto⟩

/-- **A trusted field index is exact**: the ids are distinct and below the counter, the entries are
those of the stored documents' top-level fields, and no two of them are the same. -/
theorem trusted_index (run : Run sha crc journaled permitted w)
    (hapart : Distinguished (mutationsOf w.history)) {t : Tables}
    (ht : t = w.media.tables ∨ t = w.media.durable) (hvalid : fieldIndexValid t = true) :
    ∃ docs, Represents t docs ∧ t.fieldPrefixes.Valid ∧
      IndexExact sha t.fieldIndex t.fieldPrefixes docs ∧
      ∀ (j k : DocumentKey) d d' f f' e, docs[j]? = some d → docs[k]? = some d' →
        f ∈ indexedFields d → f' ∈ indexedFields d' → EntryOf sha t.fieldPrefixes j f e →
        EntryOf sha t.fieldPrefixes k f' e → j = k ∧ f.1 = f'.1 := by
  obtain ⟨h, hpre, hs⟩ := run.stores ht
  have hd := hapart.of_isPrefix (mutationsOf_isPrefix hpre)
  refine ⟨_, hs.contents.represents, hs.contents.ids, hs.contents.index hvalid hd, ?_⟩
  intro j k d d' f f' e hj hk hf hf' he he'
  refine ⟨eq_of_entryOf hs.contents.ids (hd _ (prefix_refl _)) (live_of_eq_some hj)
    (live_of_eq_some hk) hf hf' he he', ?_⟩
  obtain ⟨⟨name, v⟩, -, rfl⟩ := mem_map.mp hf
  obtain ⟨⟨name', v'⟩, -, rfl⟩ := mem_map.mp hf'
  exact (entryOf_inj hs.contents.ids he he').2.2.1

def oneCreated : List (Elapsed × List Write) :=
  [(.ofSeconds 1, [.create exampleKey .sample])]

theorem apart_of_single {past : List Mutation} {m : Mutation} (h : past <+: [m]) :
    Apart (mutate ∅ past) := by
  have hlv : ∀ k, Live (mutate ∅ past) k → k = m.key := by
    intro k hk
    obtain ⟨d, hd⟩ := isSome_iff_exists.mp hk
    rw [← mem_singleton.mp (h.subset (exists_of_mutate hd))]
  exact fun j k hj hk _ _ _ => (hlv j hj).trans (hlv k hk).symm

theorem trusted_index_one : ∃ w, Run noDigest noChecksum true (fun _ _ _ => True) w ∧
    w.media.tables.fieldIndex.size = 1 ∧ ∃ docs, Represents w.media.tables docs ∧
      w.media.tables.fieldPrefixes.Valid ∧
      IndexExact noDigest w.media.tables.fieldIndex w.media.tables.fieldPrefixes docs ∧
      ∀ (j k : DocumentKey) d d' f f' e, docs[j]? = some d → docs[k]? = some d' →
        f ∈ indexedFields d → f' ∈ indexedFields d' →
        EntryOf noDigest w.media.tables.fieldPrefixes j f e →
        EntryOf noDigest w.media.tables.fieldPrefixes k f' e → j = k ∧ f.1 = f'.1 := by
  have hone : ((served writeBehind oneCreated).any fun w => fieldIndexValid w.media.tables &&
      w.media.tables.fieldIndex.size == 1 && (mutationsOf w.history).length == 1) = true := by
    decide +kernel
  obtain ⟨w, hw, h⟩ := (any_eq_true _ _).mp hone
  simp only [Bool.and_eq_true, beq_iff_eq] at h
  obtain ⟨⟨hvld, hsz⟩, hlen⟩ := h
  obtain ⟨m, hm⟩ := length_eq_one_iff.mp hlen
  have run : Run _ _ true (fun _ _ _ => True) w := run_served (fun _ _ _ => trivial) hw
  exact ⟨w, run, hsz, trusted_index run (fun past hps => apart_of_single (hm ▸ hps)) (.inl rfl)
    hvld⟩

/-- **The scope tables are exact.** Two keys of one database share an entry iff they are twins in
the table's scope, and in every run that touches no name while a twin of it is stored, each table
has exactly one entry for each stored document. -/
theorem scopes_exact (sha : Sha256) (crc : List UInt8 → UInt32) (journaled : Bool)
    (permitted : State → Elapsed → List Write → Prop) :
    (∀ a b : DocumentKey, a.database = b.database → ∀ e f, encodeCollectionIndexKey a = .ok e →
      encodeCollectionIndexKey b = .ok f →
      (e = f ↔ a.collectionPath = b.collectionPath ∧
        compareResourceIds a.documentId b.documentId = .eq)) ∧
    (∀ a b : DocumentKey, a.database = b.database → ∀ e f, encodeCollectionGroupIndexKey a = .ok e →
      encodeCollectionGroupIndexKey b = .ok f → (e = f ↔ Twins a b)) ∧
    ∀ {w : World}, Run sha crc journaled permitted w → Untwinned (mutationsOf w.history) →
      ∀ t, t = w.media.tables ∨ t = w.media.durable → ∃ docs, Represents t docs ∧
        Scopes encodeCollectionIndexKey t.collections docs ∧
        Scopes encodeCollectionGroupIndexKey t.collectionGroups docs := by
  refine ⟨?_, ?_, ?_⟩
  · intro a b hd e f ha hb
    exact encodeCollectionIndexKey_eq_iff hd ha hb
  · intro a b hd e f ha hb
    rw [encodeCollectionGroupIndexKey_eq_iff hd ha hb]
    exact (and_iff_right hd).symm
  · intro w run htw t ht
    obtain ⟨h, hpre, hs⟩ := run.stores ht
    have hpre := mutationsOf_isPrefix hpre
    exact ⟨_, hs.contents.represents, hs.contents.collections (htw.collections.of_isPrefix hpre),
      hs.contents.collectionGroups (htw.collectionGroups.of_isPrefix hpre)⟩

instance (j k : DocumentKey) : Decidable (Twins j k) := inferInstanceAs (Decidable (_ ∧ _ ∧ _))

theorem scopes_exact_two : ∃ w, Run noDigest noChecksum true (fun _ _ _ => True) w ∧
    w.media.tables.collections.size = 2 ∧ ∃ docs, Represents w.media.tables docs ∧
      Scopes encodeCollectionIndexKey w.media.tables.collections docs ∧
      Scopes encodeCollectionGroupIndexKey w.media.tables.collectionGroups docs := by
  have htwo : ((served writeBehind twoCreated).any fun w => w.media.tables.collections.size == 2 &&
      decide ((mutationsOf w.history).map Mutation.key = [exampleKey, otherKey])) = true := by
    decide +kernel
  obtain ⟨w, hw, h⟩ := (any_eq_true _ _).mp htwo
  simp only [Bool.and_eq_true, beq_iff_eq, decide_eq_true_eq] at h
  have run : Run _ _ true (fun _ _ _ => True) w := run_served (fun _ _ _ => trivial) hw
  have hky : ∀ j ∈ [exampleKey, otherKey], ∀ k ∈ [exampleKey, otherKey], Twins j k → j = k := by
    decide +kernel
  exact ⟨w, run, h.1, (scopes_exact _ _ _ _).2.2 run (untwinned_of_keys (h.2 ▸ hky)) _ (.inl rfl)⟩

def fiveKey : DocumentKey := ⟨exampleDatabase, ⟨ascii "c/__id5__", by decide⟩, by decide⟩

/-- The same number in another spelling. -/
def zeroFiveKey : DocumentKey := ⟨exampleDatabase, ⟨ascii "c/__id05__", by decide⟩, by decide⟩

/-- Two twins are created and one of them is deleted, one commit each. -/
def twinCommits : List (Elapsed × List Write) :=
  [(.ofSeconds 1, [.create fiveKey .empty]), (.ofSeconds 2, [.create zeroFiveKey .empty]),
    (.ofSeconds 3, [.delete zeroFiveKey .none])]

/-- **Deleting a document can take another one out of every scope.** -/
theorem scopes_lost : fiveKey.database = zeroFiveKey.database ∧ fiveKey ≠ zeroFiveKey ∧
    encodeCollectionIndexKey fiveKey = encodeCollectionIndexKey zeroFiveKey ∧
    encodeCollectionGroupIndexKey fiveKey = encodeCollectionGroupIndexKey zeroFiveKey ∧
    ∃ w, Run noDigest noChecksum true (fun _ _ _ => True) w ∧
      (encodeDocumentKey fiveKey).map (fun key => w.media.tables.documents.contains key) = .ok true ∧
      w.media.tables.collections.isEmpty = true ∧
      w.media.tables.collectionGroups.isEmpty = true := by
  refine ⟨rfl, by decide, by decide +kernel, by decide +kernel, ?_⟩
  have htw : ((served writeBehind twinCommits).any fun w =>
      decide ((encodeDocumentKey fiveKey).map (fun key => w.media.tables.documents.contains key)
        = .ok true) && w.media.tables.collections.isEmpty &&
      w.media.tables.collectionGroups.isEmpty) = true := by decide +kernel
  obtain ⟨w, hw, h⟩ := (any_eq_true _ _).mp htw
  simp only [Bool.and_eq_true, decide_eq_true_eq] at h
  exact ⟨w, run_served (fun _ _ _ => trivial) hw, h.1.1, h.1.2, h.2⟩

end World

end Firenook.Disk
