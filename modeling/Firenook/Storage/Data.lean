import Firenook.Storage.FolderCounts

/-!
# Data — the object map, its changes, and the walk that builds the folder index

Every change of an object goes through `put` or `remove` (a reset through `clear`), which tell the
folder index in the same step. The walk that builds the index adds the objects chunk by chunk in
key order; a change meanwhile is applied when the walk has passed its key and left to the walk
otherwise. So at every moment the index is exact for the objects it has passed (`Data.Inv`), and
once it is built it is exact (**`folders_exact`**).
-/

namespace Firenook.Storage

open List Std FolderIndex ExtTreeMap

/-! ### The data -/

/-- `StorageData`, without the upload sessions and the change feed. -/
structure StorageData where
  objects : Objects := ∅
  revision : Nat := 0
  folders : Option FolderIndex := none

namespace StorageData

/-- The one way to create or replace an object. -/
def put (data : StorageData) (object : StoredObject) (atMs : Int) : StorageData :=
  let revision := data.revision + 1
  let before := data.objects[object.key]?
  { objects := data.objects.insert object.key object
    revision
    folders := data.folders.map fun index => index.observe object.key object.bucket object.name
      (before.map .of) (some (.of object)) revision atMs }

/-- The one way to delete an object. -/
def remove (data : StorageData) (key : Text) (atMs : Int) : StorageData :=
  match data.objects[key]? with
  | none => data
  | some before =>
    let revision := data.revision + 1
    { objects := data.objects.erase key
      revision
      folders := data.folders.map fun index => index.observe key before.bucket before.name
        (some (.of before)) none revision atMs }

/-- Every object goes; the revision moves on, and an index of nothing is complete at once. -/
def clear (data : StorageData) : StorageData := ⟨∅, data.revision + 1, some .built⟩

/-- `ensure_built`, up to the start of the walk. -/
def startWalk (data : StorageData) : StorageData :=
  if data.folders.isSome then data else { data with folders := some .walking }

/-- A walk that could not start or failed leaves no index. -/
def abandonWalk (data : StorageData) : StorageData :=
  match data.folders with
  | some ⟨_, .walking _⟩ => { data with folders := none }
  | _ => data

/-- The entries the walk has not passed, in key order. -/
def ahead (data : StorageData) (index : FolderIndex) : List (Text × StoredObject) :=
  data.objects.toList.filter fun e => !index.passed e.1

/-- Where the walk stands after the first entries of those ahead. -/
def walkedTo (range : List (Text × StoredObject)) (limit : Nat) (progress : Progress) : Progress :=
  if range.length ≤ limit then .built
  else match (range.take limit).getLast? with
    | some last => .walking (some last.1)
    | none => progress

/-- One round of `walk_chunks`, stopped after `limit` entries if there are more. -/
def walkChunk (millis : Text → Option Int) (limit : Nat) (data : StorageData) : StorageData :=
  match data.folders with
  | none => data
  | some index =>
    if index.progress = .built then data
    else
      let range := data.ahead index
      let walked := (range.take limit).foldl (fun i e => addWalked millis i e.2) index
      { data with folders := some ⟨walked.buckets, walkedTo range limit index.progress⟩ }

def values (data : StorageData) : List StoredObject := data.objects.toList.map Prod.snd

end StorageData

/-! ### Runs -/

/-- Every object is stored under its own key, and no bucket's name holds a NUL. -/
def Keyed (objects : Objects) : Prop :=
  ∀ k (o : StoredObject), objects[k]? = some o → o.key = k ∧ 0 ∉ o.bucket

theorem Keyed.place {objects : Objects} (h : Keyed objects) {b n : Text} (hb : 0 ∉ b) :
    ∀ o ∈ objects[objectKey b n]?, o.bucket = b ∧ o.name = n := by
  intro o ho
  obtain ⟨hkey, hbkt⟩ := h _ o ho
  exact objectKey_inj hbkt hb hkey

inductive StorageData.Step (millis : Text → Option Int) (data : StorageData) : StorageData → Prop
  | put (o : StoredObject) (atMs : Int) (hbucket : 0 ∉ o.bucket) : Step millis data (data.put o atMs)
  | remove (key : Text) (atMs : Int) : Step millis data (data.remove key atMs)
  | clear : Step millis data data.clear
  | startWalk : Step millis data data.startWalk
  | walkChunk (limit : Nat) : Step millis data (data.walkChunk millis limit)
  | abandonWalk : Step millis data data.abandonWalk

/-- The states a service goes through from the objects it loaded, as long as they fit. -/
inductive StorageData.Run (millis : Text → Option Int) : StorageData → Prop
  | start (objects : Objects) (hkeyed : Keyed objects)
      (hfits : Fits (StorageData.values { objects })) : Run millis { objects }
  | step {data data' : StorageData} (run : Run millis data) (h : Step millis data data')
      (hfits : Fits data'.values) : Run millis data'

/-! ### One key's part of a map -/

section

variable {objects : Objects} {P : Text → Bool} {k : Text}

/-- The objects of the keys that satisfy `P`. -/
def select (objects : Objects) (P : Text → Bool) : List StoredObject :=
  (objects.toList.filter fun e => P e.1).map Prod.snd

theorem nodup_toList (objects : Objects) : objects.toList.Nodup :=
  List.Pairwise.imp (fun h heq => by simp [heq] at h) objects.distinct_keys_toList

theorem select_perm_of_mem {objects' : Objects} {P' : Text → Bool}
    (h : ∀ j o, (objects[j]? = some o ∧ P j = true) ↔ (objects'[j]? = some o ∧ P' j = true)) :
    (select objects P).Perm (select objects' P') := by
  refine List.Perm.map _ ((perm_ext_iff_of_nodup ((nodup_toList _).filter _)
    ((nodup_toList _).filter _)).mpr ?_)
  rintro ⟨j, o⟩
  simp only [mem_filter, mem_toList_iff_getElem?_eq_some]
  exact h j o

/-- A key that satisfies `P` and the rest. -/
theorem select_perm (hk : P k = true) :
    (select objects P).Perm (objects[k]?.toList ++ select objects fun j => P j && j != k) := by
  have hcn : ∀ o, objects[k]? = some o →
      (select objects P).Perm (o :: select objects fun j => P j && j != k) := by
    intro o ho
    have hpr : (objects.toList.filter fun e => P e.1).Perm
        ((k, o) :: objects.toList.filter fun e => P e.1 && e.1 != k) := by
      refine (perm_ext_iff_of_nodup ((nodup_toList _).filter _)
        (nodup_cons.mpr ⟨by simp, (nodup_toList _).filter _⟩)).mpr ?_
      rintro ⟨j, a⟩
      by_cases hjk : j = k
      · subst hjk
        simp [hk, ho, eq_comm]
      · simp [hjk]
    exact hpr.map Prod.snd
  cases ho : objects[k]? with
  | some o => exact hcn o ho
  | none =>
    rw [Option.toList_none, nil_append]
    refine select_perm_of_mem fun j o => ?_
    by_cases hjk : j = k
    · subst hjk
      simp [ho]
    · simp [hjk]

theorem mem_select {o : StoredObject} :
    o ∈ select objects P ↔ ∃ j, objects[j]? = some o ∧ P j = true := by
  simp [select]

theorem select_subperm {P' : Text → Bool} (h : ∀ j, P j = true → P' j = true) :
    (select objects P).Subperm (select objects P') := by
  refine (List.Sublist.map _ ?_).subperm
  have hflt : objects.toList.filter (fun e => P e.1)
      = (objects.toList.filter fun e => P' e.1).filter fun e => P e.1 := by
    rw [filter_filter]
    refine filter_congr fun e _ => ?_
    cases hP : P e.1 with
    | false => rfl
    | true => rw [h _ hP]; rfl
  rw [hflt]
  exact filter_sublist

theorem select_true (objects : Objects) :
    select objects (fun _ => true) = objects.toList.map Prod.snd := by
  rw [select, filter_eq_self.mpr fun _ _ => rfl]

theorem Fits.select (h : Fits (objects.toList.map Prod.snd)) : Fits (select objects P) :=
  h.of_subperm (select_true objects ▸ select_subperm fun _ _ => rfl)

end

/-! ### The invariant -/

/-- The index is exact for the objects it has passed. -/
structure StorageData.Inv (data : StorageData) : Prop where
  keyed : Keyed data.objects
  fits : Fits data.values
  exact : ∀ index ∈ data.folders, Exact (select data.objects index.passed) index

@[simp] theorem FolderIndex.progress_apply (index : FolderIndex) (b n : Text)
    (before after : Option Shape) (change : Change) :
    (index.apply b n before after change).progress = index.progress := rfl

/-- **An observed change**: `objects'` differs from `objects` at the key of the place `(b, n)`. -/
theorem Exact.observe {objects objects' : Objects} {index : FolderIndex}
    (hex : Exact (select objects index.passed) index) (hkd : Keyed objects)
    (hkd' : Keyed objects') (hft : Fits (objects.toList.map Prod.snd))
    (hft' : Fits (objects'.toList.map Prod.snd)) {b n : Text} (hb : 0 ∉ b)
    (hot : ∀ j, j ≠ objectKey b n → objects'[j]? = objects[j]?) (rev : Nat) (atMs : Int) :
    let next := index.observe (objectKey b n) b n (objects[objectKey b n]?.map .of)
      (objects'[objectKey b n]?.map .of) rev atMs
    Exact (select objects' next.passed) next := by
  intro next
  have hrs : ∀ P : Text → Bool, (select objects fun j => P j && j != objectKey b n).Perm
        (select objects' fun j => P j && j != objectKey b n) := by
    intro P
    refine select_perm_of_mem fun j o => ?_
    by_cases hj : j = objectKey b n
    · simp [hj]
    · rw [hot j hj]
  by_cases hpas : index.passed (objectKey b n) = true
  · have hnx : next = index.apply b n (objects[objectKey b n]?.map .of)
        (objects'[objectKey b n]?.map .of) (.committed rev atMs) := if_pos hpas
    have htr : Turn b n objects[objectKey b n]? objects'[objectKey b n]?
        (select objects fun j => index.passed j && j != objectKey b n) := by
      refine ⟨hkd.place hb, hkd'.place hb, ?_⟩
      rintro o ho ⟨rfl, rfl⟩
      obtain ⟨j, hj, hne⟩ := mem_select.mp ho
      simp only [Bool.and_eq_true, bne_iff_ne] at hne
      exact hne.2 (hkd j o hj).1.symm
    have haft : (select objects' index.passed).Perm (objects'[objectKey b n]?.toList ++
        select objects fun j => index.passed j && j != objectKey b n) :=
      (select_perm hpas).trans ((hrs index.passed).symm.append_left _)
    have hbef : (select objects index.passed).Perm (objects[objectKey b n]?.toList ++
        select objects fun j => index.passed j && j != objectKey b n) := select_perm hpas
    have hst := (hex.perm hbef).apply htr (hft.select.of_subperm hbef.symm.subperm)
      (hft'.select.of_subperm haft.symm.subperm) (.committed rev atMs)
    rw [hnx]
    exact hst.perm haft.symm
  · have hnx : next = index := if_neg hpas
    rw [hnx]
    refine hex.perm (select_perm_of_mem fun j o => ?_)
    by_cases hj : j = objectKey b n
    · subst hj
      simp [hpas]
    · rw [hot j hj]

/-! ### The walk -/

/-- Objects the walk finds. -/
theorem Exact.addAll (millis : Text → Option Int) (es : List (Text × StoredObject))
    {base : List StoredObject} {index : FolderIndex} (hex : Exact base index)
    (hkd : ∀ e ∈ es, e.2.key = e.1) (hnd : es.Pairwise fun e e' => e.1 ≠ e'.1)
    (hapt : ∀ e ∈ es, ∀ o ∈ base, o.key ≠ e.1) (hft : Fits (es.map Prod.snd ++ base)) :
    Exact (es.map Prod.snd ++ base) (es.foldl (fun i e => addWalked millis i e.2) index) := by
  induction es generalizing base index with
  | nil => exact hex
  | cons e es ih =>
    obtain ⟨hhd, htl⟩ := pairwise_cons.mp hnd
    have hkey := hkd e mem_cons_self
    have hpr : (es.map Prod.snd ++ e.2 :: base).Perm ((e :: es).map Prod.snd ++ base) :=
      perm_middle
    have htr : Turn e.2.bucket e.2.name none (some e.2) base := by
      refine ⟨by simp, by simp, ?_⟩
      rintro o ho ⟨hbkt, hname⟩
      refine hapt e mem_cons_self o ho ?_
      rw [← hkey, StoredObject.key, StoredObject.key, hbkt, hname]
    have hnx : Exact (e.2 :: base) (addWalked millis index e.2) :=
      (show Exact ((none).toList ++ base) index from hex).apply htr
        (hft.of_subperm (sublist_append_right _ base).subperm)
        (hft.of_subperm ((sublist_append_right (es.map Prod.snd) _).subperm.trans hpr.subperm)) _
    refine (ih hnx (fun x hx => hkd x (mem_cons_of_mem _ hx)) htl ?_
      (hft.of_subperm hpr.subperm)).perm hpr
    intro x hx o ho
    rcases mem_cons.mp ho with rfl | ho
    · rw [hkey]
      exact hhd x hx
    · exact hapt x (mem_cons_of_mem _ hx) o ho

theorem sorted_toList (objects : Objects) :
    objects.toList.Pairwise fun e e' => compare e.1 e'.1 = .lt := objects.ordered_keys_toList

/-- What the walk has passed after a chunk. -/
theorem passed_walkedTo (data : StorageData) (index : FolderIndex)
    (hblt : index.progress ≠ .built) (limit : Nat) (buckets : ExtTreeMap Text BucketIndex)
    {e : Text × StoredObject} (he : e ∈ data.objects.toList) :
    (mk buckets (StorageData.walkedTo (data.ahead index) limit index.progress)).passed e.1
      = true ↔ index.passed e.1 = true ∨ e ∈ (data.ahead index).take limit := by
  have hahd : index.passed e.1 = false ↔ e ∈ data.ahead index := by
    simp [StorageData.ahead, he]
  rw [StorageData.walkedTo]
  split
  · next hall =>
    rw [take_of_length_le hall, ← hahd]
    refine iff_of_true rfl ?_
    cases index.passed e.1 <;> simp
  · next hmr =>
    cases hlast : ((data.ahead index).take limit).getLast? with
    | none =>
      rw [getLast?_eq_none_iff.mp hlast]
      simp only [not_mem_nil, or_false]
      exact Iff.rfl
    | some last =>
      obtain ⟨init, hin⟩ := getLast?_eq_some_iff.mp hlast
      have hlm : last ∈ data.ahead index :=
        mem_of_mem_take (mem_of_getLast? hlast)
      have hsrt : (data.ahead index).Pairwise fun e e' => compare e.1 e'.1 = .lt :=
        (sorted_toList data.objects).filter _
      have hspl : data.ahead index = (init ++ [last]) ++ (data.ahead index).drop limit := by
        rw [← hin, take_append_drop]
      have hpas : ∀ x ∈ data.objects.toList, index.passed x.1 = true →
          (compare x.1 last.1).isLE = true := by
        intro x hx hp
        have hnot : index.passed last.1 = false := by
          have := (mem_filter.mp hlm).2
          simpa using this
        -- The cursor lies between the two keys.
        unfold passed at hp hnot
        cases hcsr : index.progress with
        | built => exact absurd hcsr hblt
        | walking cursor =>
          rw [hcsr] at hp hnot
          cases cursor with
          | none => cases hp
          | some c =>
            have hgt : compare last.1 c = .gt := by
              cases h : compare last.1 c <;> simp [h] at hnot ⊢
            refine TransCmp.isLE_trans hp ?_
            rw [OrientedOrd.eq_swap (α := Text), hgt]
            rfl
      change (compare e.1 last.1).isLE = true ↔ _
      rw [hin]
      constructor
      · intro hle
        by_cases hp : index.passed e.1 = true
        · exact .inl hp
        right
        have hmem := hahd.mp (Bool.eq_false_iff.mpr hp)
        rw [hspl] at hmem hsrt
        refine (mem_append.mp hmem).resolve_right fun hdr => ?_
        have hlt := (pairwise_append.mp hsrt).2.2 last (by simp) e hdr
        rw [OrientedOrd.eq_swap (α := Text), hlt] at hle
        cases hle
      · rintro (hp | hmem)
        · exact hpas e he hp
        rw [hspl] at hsrt
        rcases mem_append.mp hmem with hmem | hmem
        · have := (pairwise_append.mp (pairwise_append.mp hsrt).1).2.2 e hmem last
            (mem_singleton_self _)
          rw [this]
          rfl
        · rw [mem_singleton.mp hmem]
          simp

/-- An index of nothing is exact for nothing. -/
theorem exact_empty {index : FolderIndex} (h : index.buckets = ∅) : Exact [] index := by
  have hent : ∀ b x, index.entry b x = none := by
    simp [entry, h]
  refine ⟨?_, ?_, ?_⟩
  · intro b x _
    rw [hent]
    rfl
  · simp [hent]
  · intro b x hx
    simp [hent] at hx

/-- A chunk of the walk keeps the index exact for what it has passed. -/
theorem StorageData.Inv.walkChunk {data : StorageData} (hi : data.Inv) (millis : Text → Option Int)
    (limit : Nat) : (data.walkChunk millis limit).Inv := by
  rw [StorageData.walkChunk]
  cases hfl : data.folders with
  | none => exact hi
  | some index =>
    dsimp only
    split
    · exact hi
    next hblt =>
    refine ⟨hi.keyed, hi.fits, ?_⟩
    rintro _ ⟨⟩
    generalize hwlk : ((data.ahead index).take limit).foldl
      (fun i e => addWalked millis i e.2) index = walked
    have hmem : ∀ e ∈ (data.ahead index).take limit,
        e ∈ data.objects.toList ∧ index.passed e.1 = false := by
      intro e he
      obtain ⟨hls, hnot⟩ := mem_filter.mp (mem_of_mem_take he)
      exact ⟨hls, by simpa using hnot⟩
    have hget : ∀ {e : Text × StoredObject}, e ∈ data.objects.toList →
        data.objects[e.1]? = some e.2 := fun he =>
      mem_toList_iff_getElem?_eq_some.mp he
    have hdis : ((data.ahead index).take limit).Pairwise fun e e' => e.1 ≠ e'.1 :=
      (((sorted_toList data.objects).filter _).sublist (take_sublist _ _)).imp
        fun h heq => by simp [heq] at h
    have hpr : (select data.objects (FolderIndex.mk walked.buckets
        (walkedTo (data.ahead index) limit index.progress)).passed).Perm
        (((data.ahead index).take limit).map Prod.snd ++ select data.objects index.passed) := by
      rw [select, select, ← map_append]
      refine List.Perm.map _ ((perm_ext_iff_of_nodup ((nodup_toList _).filter _) ?_).mpr ?_)
      · refine nodup_append.mpr ⟨hdis.imp fun h heq => h (congrArg Prod.fst heq),
          (nodup_toList _).filter _, ?_⟩
        rintro e he _ he' rfl
        have := (mem_filter.mp he').2
        rw [(hmem e he).2] at this
        cases this
      · intro e
        rw [mem_filter, mem_append, mem_filter]
        constructor
        · rintro ⟨he, hp⟩
          rcases (passed_walkedTo data index hblt limit walked.buckets he).mp hp with hp | hp
          · exact .inr ⟨he, hp⟩
          · exact .inl hp
        · rintro (he | ⟨he, hp⟩)
          · exact ⟨(hmem e he).1, (passed_walkedTo data index hblt limit _ (hmem e he).1).mpr
              (.inr he)⟩
          · exact ⟨he, (passed_walkedTo data index hblt limit _ he).mpr (.inl hp)⟩
    have hadd := Exact.addAll millis ((data.ahead index).take limit)
      (hi.exact index hfl) (fun e he => (hi.keyed _ _ (hget (hmem e he).1)).1) hdis
      (by
        intro e he o ho heq
        obtain ⟨j, hj, hp⟩ := mem_select.mp ho
        rw [(hi.keyed j o hj).1] at heq
        rw [heq, (hmem e he).2] at hp
        cases hp)
      (hi.fits.select.of_subperm hpr.symm.subperm)
    rw [hwlk] at hadd
    have hen := hadd.perm hpr.symm
    exact ⟨hen.figures, hen.present, hen.valid⟩

/-- **A step keeps the invariant.** -/
theorem StorageData.Inv.step {millis : Text → Option Int} {data data' : StorageData} (hi : data.Inv)
    (h : Step millis data data') (hft : Fits data'.values) : data'.Inv := by
  cases h with
  | put o atMs hbkt =>
    have hkd : Keyed (data.objects.insert o.key o) := by
      intro k x hx
      rw [ExtTreeMap.getElem?_insert] at hx
      split at hx
      · next hk =>
        obtain rfl := Option.some.inj hx
        exact ⟨by simpa using hk, hbkt⟩
      · exact hi.keyed k x hx
    refine ⟨hkd, hft, ?_⟩
    intro next hnx
    obtain ⟨index, hidx, rfl⟩ := Option.map_eq_some_iff.mp hnx
    have hst := (hi.exact index hidx).observe hi.keyed hkd hi.fits hft (n := o.name) hbkt
      (fun j hj => by
        rw [ExtTreeMap.getElem?_insert, if_neg (by simpa [StoredObject.key] using Ne.symm hj)])
      (data.revision + 1) atMs
    rwa [show (data.objects.insert o.key o)[objectKey o.bucket o.name]? = some o from
      getElem?_insert_self] at hst
  | remove key atMs =>
    cases hbef : data.objects[key]? with
    | none =>
      rw [StorageData.remove, hbef]
      exact hi
    | some before =>
      obtain ⟨hkey, hbkt⟩ := hi.keyed key before hbef
      rw [StorageData.remove, hbef] at hft ⊢
      have hkd : Keyed (data.objects.erase key) := by
        intro k x hx
        rw [getElem?_erase] at hx
        split at hx
        · cases hx
        · exact hi.keyed k x hx
      refine ⟨hkd, hft, ?_⟩
      intro next hnx
      obtain ⟨index, hidx, rfl⟩ := Option.map_eq_some_iff.mp hnx
      have hst := (hi.exact index hidx).observe hi.keyed hkd hi.fits hft (n := before.name) hbkt
        (fun j hj => by
          rw [getElem?_erase, if_neg (by simpa [← hkey, StoredObject.key] using Ne.symm hj)])
        (data.revision + 1) atMs
      have hplc : objectKey before.bucket before.name = key := hkey
      rw [hplc, hbef, getElem?_erase_self] at hst
      exact hst
  | clear =>
    refine ⟨?_, hft, ?_⟩
    · intro k o hk
      simp [StorageData.clear] at hk
    · rintro _ ⟨⟩
      exact exact_empty rfl
  | startWalk =>
    rw [StorageData.startWalk]
    split
    · exact hi
    refine ⟨hi.keyed, hi.fits, ?_⟩
    rintro _ ⟨⟩
    have hnn : select data.objects walking.passed = [] := by
      rw [select, filter_eq_nil_iff.mpr fun _ _ => by simp [passed, walking], map_nil]
    exact hnn ▸ exact_empty rfl
  | walkChunk limit => exact hi.walkChunk millis limit
  | abandonWalk =>
    rw [StorageData.abandonWalk]
    split
    · exact ⟨hi.keyed, hi.fits, nofun⟩
    · exact hi

/-- **Runs keep the invariant.** -/
theorem StorageData.Run.inv {millis : Text → Option Int} {data : StorageData}
    (run : Run millis data) : data.Inv := by
  induction run with
  | start objects hkd hft => exact ⟨hkd, hft, nofun⟩
  | step _ h hft ih => exact ih.step h hft

/-! ### A built index -/

theorem FolderIndex.stats_eq_entry {index : FolderIndex} {b p : Text} {x : Folder} (hx : x.Valid)
    (hp : x.path = p) : index.stats b p = index.entry b x := by
  subst hp
  refine congrArg _ (funext fun bucket => ?_)
  by_cases hnil : x.path = []
  · have hrt : x = none := hx.eq_of_path (y := none) trivial hnil
    rw [hrt]
    rfl
  · have hend := hx.path_cases.resolve_left hnil
    obtain ⟨hvld, hpt⟩ := splitFolder_spec hend
    rw [if_neg hnil, if_pos hend, hvld.eq_of_path hx hpt]

/-- **A built folder index is exact**: it has a folder iff something lies in it, its figures are the
recount, and a folder lists its subfolders. -/
theorem folders_exact {millis : Text → Option Int} {data : StorageData}
    (run : StorageData.Run millis data) {index : FolderIndex} (hindex : data.folders = some index)
    (hbuilt : index.progress = .built) (b p : Text) (hp : p = [] ∨ endsInSlash p = true) :
    ((index.stats b p).isSome = true ↔ ∃ o ∈ data.values, within b p o = true) ∧
      (∀ s, index.stats b p = some s → s.figures = recount data.values b p) ∧
      ∀ segment s, ((index.children b p).bind fun siblings => siblings[segment]?) = some s ↔
        (∃ own, slash ∉ own ∧ segment = own ++ [slash]) ∧ index.stats b (p ++ segment) = some s := by
  have hi := run.inv
  have hpas : index.passed = fun _ => true := by
    funext key
    rw [passed, hbuilt]
  have hex : Exact data.values index := by
    have h := hi.exact index hindex
    rwa [hpas, select_true] at h
  obtain ⟨x, hx, hpt⟩ := exists_folder hp
  refine ⟨?_, ?_, ?_⟩
  · rw [stats_eq_entry hx hpt, ← hpt]
    exact hex.present b x hx
  · intro s hs
    rw [stats_eq_entry hx hpt] at hs
    have hfig := hex.figures b x hx
    rwa [hs, hpt] at hfig
  · intro segment s
    have hch : ((index.children b p).bind fun siblings => siblings[segment]?)
        = index.entry b (some (p, segment)) := by
      rw [children, Option.bind_assoc]
      rfl
    rw [hch]
    constructor
    · intro hs
      have hvld := hex.valid b (some (p, segment)) (by rw [hs]; rfl)
      exact ⟨hvld.2, (stats_eq_entry hvld rfl).trans hs⟩
    · rintro ⟨hseg, hs⟩
      have hvld : Folder.Valid (some (p, segment)) := ⟨hp, hseg⟩
      exact (stats_eq_entry hvld rfl).symm.trans hs

/-- A file in a folder of a bucket. -/
def sampleObject : StoredObject where
  name := ascii "a/x"
  bucket := ascii "b"
  generation := 1
  contentType := none
  contentEncoding := none
  cacheControl := none
  downloadTokens := []
  customMetadata := []
  updated := []
  size := 3

/-- The walk finds nothing, and the file comes afterwards. -/
def sampleData : StorageData :=
  ((({} : StorageData).startWalk).walkChunk (fun _ => none) 1).put sampleObject 0

theorem fits_nil : Fits [] := ⟨by decide, by decide, fun _ => by simp [folderSet]⟩

theorem fits_sample : Fits sampleData.values := by
  have hvl : sampleData.values = [sampleObject] := by decide +kernel
  rw [hvl]
  refine ⟨by decide, by decide, fun bucket => ?_⟩
  refine (toFinset_card_le _).trans_lt ?_
  rw [filter_singleton]
  cases sampleObject.bucket == bucket <;> decide

theorem folders_exact_sample : ∃ index, sampleData.folders = some index ∧
    (((index.stats (ascii "b") (ascii "a/")).isSome = true ↔
      ∃ o ∈ sampleData.values, within (ascii "b") (ascii "a/") o = true) ∧
      (∀ s, index.stats (ascii "b") (ascii "a/") = some s →
        s.figures = recount sampleData.values (ascii "b") (ascii "a/")) ∧
      ∀ segment s, ((index.children (ascii "b") (ascii "a/")).bind fun siblings => siblings[segment]?)
        = some s ↔ (∃ own, slash ∉ own ∧ segment = own ++ [slash]) ∧
          index.stats (ascii "b") (ascii "a/" ++ segment) = some s) := by
  have run : StorageData.Run (fun _ => none) sampleData := by
    refine .step (.step (.step (.start ∅ (by simp [Keyed]) fits_nil) .startWalk fits_nil)
      (.walkChunk 1) fits_nil) (.put sampleObject 0 (by decide)) fits_sample
  have hblt : (sampleData.folders.any fun index => decide (index.progress = .built)) = true := by
    decide +kernel
  obtain ⟨index, hidx, hprg⟩ := (Option.any_eq_true _ _).mp hblt
  exact ⟨index, hidx, folders_exact run hidx (of_decide_eq_true hprg) _ _ (.inr (by decide))⟩

end Firenook.Storage
