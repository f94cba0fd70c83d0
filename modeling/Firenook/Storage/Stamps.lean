import Firenook.Storage.Listing

/-!
# Stamps — what a folder's revisions say about its contents

The index stamps a folder with the revision of the last change below it (`subtreeRev`) and of the
last change of its own level (`levelRev`). After one change of the data a folder has the new
revision as its stamp, or it is stamped as before and what the stamp stands for is unchanged:
everything below it (**`Moves.tree`**), or its own files and the names of its subfolders
(**`Moves.level`**). This is of folders the index knows; one that is gone has no stamp.
-/

namespace Firenook.Storage

open List Std FolderIndex ExtTreeMap Move

variable {change : Change} {data' : StorageData} {millis : Text → Option Int} {data : StorageData}
  {index : FolderIndex}

/-! ### The stamps of one change -/

namespace Move

variable {m : Move} {rev : Nat} {atMs : Int} {last x : Folder} {s : FolderStats}

theorem subtreeRev_flip (m : Move) (came isParent : Bool) (s : FolderStats) :
    (m.flip came isParent s).subtreeRev = s.subtreeRev := by
  unfold flip
  cases isParent <;> cases m.change <;> rfl

theorem levelRev_flip (hchg : m.change = .committed rev atMs) (came isParent : Bool)
    (s : FolderStats) :
    (m.flip came isParent s).levelRev = if isParent then rev else s.levelRev := by
  unfold flip
  rw [hchg]
  cases isParent <;> rfl

theorem subtreeRev_counted (m : Move) (x : Folder) (flips : List ((Text × Text) × Bool)) :
    ∀ s, (m.counted x flips s).subtreeRev = s.subtreeRev := by
  induction flips with
  | nil => exact fun s => rfl
  | cons p flips ih =>
    intro s
    rw [counted, foldl_cons]
    refine (ih _).trans ?_
    split
    · exact subtreeRev_flip m _ _ s
    · rfl

/-- A folder's level is stamped when one of its subfolders came or went. -/
theorem levelRev_counted (hchg : m.change = .committed rev atMs) (x : Folder)
    (flips : List ((Text × Text) × Bool)) :
    ∀ s, (m.counted x flips s).levelRev = rev ∨
      (m.counted x flips s).levelRev = s.levelRev ∧ ∀ p ∈ flips, p.1.1 ≠ x.path := by
  induction flips with
  | nil => exact fun s => .inr ⟨rfl, nofun⟩
  | cons p flips ih =>
    intro s
    rcases ih (if x.Above p.1 then m.flip p.2 (decide (x.path = p.1.1)) s else s) with
      h | ⟨h, hrs⟩
    · exact .inl h
    by_cases hpar : x.path = p.1.1
    · have hab : x.path <+: p.1.1 := hpar ▸ prefix_refl _
      refine .inl (h.trans ?_)
      rw [if_pos (show x.Above p.1 from hab), levelRev_flip hchg, if_pos (decide_eq_true hpar)]
    · refine .inr ⟨h.trans ?_, ?_⟩
      · split
        · rw [levelRev_flip hchg, if_neg (by simpa using hpar)]
        · rfl
      · intro q hq
        rcases mem_cons.mp hq with rfl | hq
        · exact Ne.symm hpar
        · exact hrs q hq

theorem subtreeRev_moved (hchg : m.change = .committed rev atMs) :
    (m.moved last x s).subtreeRev = rev := by
  simp only [moved, stamps, hchg]
  cases decide (x = last) <;> rfl

theorem levelRev_moved (hchg : m.change = .committed rev atMs) :
    (m.moved last x s).levelRev = if x = last then rev else s.levelRev := by
  have hkp : (m.counts (decide (x = last)) s).levelRev = s.levelRev := by
    cases decide (x = last) <;> rfl
  simp only [moved, stamps, hchg]
  by_cases hx : x = last
  · simp [hx]
  · simp only [hx, decide_false, if_false] at hkp ⊢
    exact hkp

end Move

section

variable {b n : Text} {before after : Option StoredObject} {others : List StoredObject}
  {index : FolderIndex} {rev : Nat} {atMs : Int} {x : Folder} {s' : FolderStats}

section

variable (h : Turn b n before after others)

include h

/-- A place the changed name is not below holds the other objects, before and after. -/
theorem exists_within_off {p : Text} (hp : ¬p <+: n) :
    (∃ o ∈ before.toList ++ others, within b p o = true) ↔
      ∃ o ∈ after.toList ++ others, within b p o = true := by
  have hoff : ∀ {o : Option StoredObject}, (∀ a ∈ o, a.bucket = b ∧ a.name = n) →
      ((∃ a ∈ o.toList ++ others, within b p a = true) ↔ ∃ a ∈ others, within b p a = true) := by
    intro o ho
    constructor
    · rintro ⟨a, ha, hw⟩
      rcases mem_append.mp ha with ha | ha
      · exact absurd ((ho a (Option.mem_toList.mp ha)).2 ▸ (within_iff.mp hw).2) hp
      · exact ⟨a, ha, hw⟩
    · rintro ⟨a, ha, hw⟩
      exact ⟨a, mem_append_right _ ha, hw⟩
  exact (hoff h.before).trans (hoff h.after).symm

/-- No subfolder of a folder of the chain comes or goes unless its presence flips. -/
theorem same_subfolders (hx : x ∈ chain n) {m : Move} (hname : m.name = n) {last : Folder}
    {g : Folder → FolderStats}
    (hprs : ∀ f ∈ chain n,
      ((g f).present = true ↔ ∃ o ∈ before.toList ++ others, within b f.path o = true) ∧
      ((m.moved last f (g f)).present = true ↔ ∃ o ∈ after.toList ++ others, within b f.path o = true))
    (hfls : ∀ p ∈ m.flipped last g, p.1.1 ≠ x.path) {own : Text} (hown : slash ∉ own) :
    (∃ o ∈ before.toList ++ others, within b (x.path ++ (own ++ [slash])) o = true) ↔
      ∃ o ∈ after.toList ++ others, within b (x.path ++ (own ++ [slash])) o = true := by
  subst hname
  by_cases hf : some (x.path, own ++ [slash]) ∈ chain m.name
  · have hsm : (g (some (x.path, own ++ [slash]))).present =
        (m.moved last (some (x.path, own ++ [slash])) (g (some (x.path, own ++ [slash])))).present := by
      by_contra hne
      refine hfls ((x.path, own ++ [slash]), _) (mem_filterMap.mpr
        ⟨(x.path, own ++ [slash]), ?_, if_pos hne⟩) rfl
      exact (mem_map_of_injective (Option.some_injective _)).mp
        ((mem_cons.mp hf).resolve_left (by simp))
    exact (hprs _ hf).1.symm.trans ((Bool.eq_iff_iff.mp hsm).trans (hprs _ hf).2)
  · exact exists_within_off h fun hpt => hf (mem_chain.mpr
      ⟨⟨(mem_chain.mp hx).1.path_cases, own, hown, rfl⟩, hpt⟩)

/-- A folder that comes brings the subfolder on the chain with it. -/
theorem exists_within_before (hx : x ∈ chain n) (hsl : slash ∈ n.drop x.path.length)
    (hgr : ∀ own, slash ∉ own →
      ((∃ o ∈ before.toList ++ others, within b (x.path ++ (own ++ [slash])) o = true) ↔
      ∃ o ∈ after.toList ++ others, within b (x.path ++ (own ++ [slash])) o = true))
    (haft : ∃ o ∈ after.toList ++ others, within b x.path o = true) :
    ∃ o ∈ before.toList ++ others, within b x.path o = true := by
  obtain ⟨o, ho, hw⟩ := haft
  rcases mem_append.mp ho with ha | ha
  · obtain ⟨hbkt, hname⟩ := h.after o (Option.mem_toList.mp ha)
    obtain ⟨own, rest, hdr, hown⟩ := eq_append_cons_of_mem hsl
    have hpt : n = x.path ++ (own ++ [slash]) ++ rest := by
      rw [append_assoc, append_assoc, singleton_append, ← hdr]
      exact (prefix_iff_eq_append.mp (mem_chain.mp hx).2).symm
    obtain ⟨a, ha, hwa⟩ := (hgr own hown).mpr
      ⟨o, ho, within_iff.mpr ⟨hbkt, hname ▸ hpt ▸ prefix_append _ _⟩⟩
    obtain ⟨hab, hap⟩ := within_iff.mp hwa
    exact ⟨a, ha, within_iff.mpr ⟨hab, (prefix_append _ _).trans hap⟩⟩
  · exact ⟨o, mem_append_right _ ha, hw⟩

end

/-- The stamps of a folder of the chain: a level that is not stamped anew has the changed name in a
subfolder, and no subfolder came or went. -/
theorem Exact.stamps (hex : Exact (before.toList ++ others) index)
    (h : Turn b n before after others) (hft : Fits (before.toList ++ others))
    (hft' : Fits (after.toList ++ others)) (hx : x ∈ chain n)
    (hs' : (index.apply b n (before.map .of) (after.map .of) (.committed rev atMs)).entry b x =
      some s') :
    s'.subtreeRev = rev ∧ (s'.levelRev = rev ∨
      slash ∈ n.drop x.path.length ∧ (∃ s, index.entry b x = some s ∧ s.levelRev = s'.levelRev) ∧
      ∀ own, slash ∉ own →
        ((∃ o ∈ before.toList ++ others, within b (x.path ++ (own ++ [slash])) o = true) ↔
          ∃ o ∈ after.toList ++ others, within b (x.path ++ (own ++ [slash])) o = true)) := by
  obtain ⟨last, hlast⟩ := exists_last_chain n
  have hex' := hex.apply h hft hft' (.committed rev atMs)
  have hvld := (mem_chain.mp hx).1
  let m := Turn.move n before after (.committed rev atMs)
  let g : Folder → FolderStats := fun f => ((index.buckets.getD b {}).folder f).getD {}
  have hprs : ∀ f ∈ chain n, ((g f).present = true ↔
      ∃ o ∈ before.toList ++ others, within b f.path o = true) ∧
      ((m.moved last f (g f)).present = true ↔
        ∃ o ∈ after.toList ++ others, within b f.path o = true) := by
    intro f hf
    have hfig : (g f).figures = recount (before.toList ++ others) b f.path := by
      rw [show g f = _ from index.getD_folder b f]
      exact hex.figures b f (mem_chain.mp hf).1
    have hmov := h.moved_figures (.committed rev atMs) hft' hlast hf hfig
    exact ⟨present_iff (congrArg Figures.objects hfig) (congrArg Figures.markers hfig),
      present_iff (congrArg Figures.objects hmov) (congrArg Figures.markers hmov)⟩
  have hfol := m.folder_apply (index.buckets.getD b {}) hlast (fun f _ => (rfl)) x
  have hent := hs'
  rw [entry_apply, if_pos rfl] at hent
  split at hent
  · change (m.apply (index.buckets.getD b {})).folder x = some s' at hent
    rw [hfol, if_pos (show x ∈ chain m.name from hx)] at hent
    split at hent
    · cases hent
    obtain rfl := Option.some.inj hent
    have hchg : m.change = .committed rev atMs := rfl
    refine ⟨(m.subtreeRev_counted x _ _).trans (subtreeRev_moved hchg), ?_⟩
    rcases levelRev_counted hchg x (m.flipped last g) (m.moved last x (g x)) with
      hlev | ⟨hlev, hfls⟩
    · exact .inl hlev
    rw [levelRev_moved hchg] at hlev
    by_cases hlf : x = last
    · exact .inl (by rw [hlev, if_pos hlf])
    rw [if_neg hlf] at hlev
    have hsl : slash ∈ n.drop x.path.length := by
      by_contra hnn
      exact hlf (Option.some.inj (((getLast_chain hx).mpr hnn).symm.trans hlast))
    have hgr := fun own hown =>
      @same_subfolders b n before after others x h hx m rfl last g hprs hfls own hown
    obtain ⟨s, hs⟩ := Option.isSome_iff_exists.mp ((hex.present b x hvld).mpr
      (exists_within_before h hx hsl hgr ((hex'.present b x hvld).mp (by rw [hs']; rfl))))
    refine .inr ⟨hsl, ⟨s, hs, ?_⟩, hgr⟩
    rw [hlev, show g x = _ from index.getD_folder b x, hs]
    rfl
  · cases hent

/-- A folder the changed name is not below keeps its entry, and so do the folders below it. -/
theorem FolderIndex.entry_apply_off {c : Text} {before after : Option Shape} (hx : x.Valid)
    (hoff : b = c → x ∉ chain n) (hs' : (index.apply b n before after change).entry c x = some s')
    {y : Folder} (hxy : x.path <+: y.path) :
    (index.apply b n before after change).entry c y = index.entry c y := by
  rw [entry_apply] at hs' ⊢
  by_cases hbc : b = c
  · subst hbc
    rw [if_pos rfl] at hs' ⊢
    split at hs'
    · next hrt =>
      rw [if_pos hrt]
      obtain ⟨last, hlast⟩ := exists_last_chain n
      have hy : y ∉ chain n := by
        intro hy
        exact hoff rfl (mem_chain.mpr ⟨hx, hxy.trans (mem_chain.mp hy).2⟩)
      have hfol := (⟨n, before, after, change⟩ : Move).folder_apply (index.buckets.getD b {})
        hlast (fun f _ => rfl) y
      rw [hfol, if_neg hy, entry]
      rw [getD_eq_getD_getElem?]
      cases index.buckets[b]? with
      | some bucket => rfl
      | none =>
        cases y with
        | none => exact absurd mem_cons_self hy
        | some f => simp [BucketIndex.folder]
    · cases hs'
  · rw [if_neg hbc]

end

/-! ### What a stamp stands for -/

/-- The figures of a prefix, if the index has them. -/
def StorageData.stats (data : StorageData) (bucket folder : Text) : Option FolderStats :=
  data.folders.bind fun index => index.stats bucket folder

/-- Nothing below a folder differs. -/
structure SameTree (b p : Text) (d d' : StorageData) : Prop where
  objects : ∀ n, p <+: n → d'.objects[objectKey b n]? = d.objects[objectKey b n]?
  stats : ∀ g, p <+: g → d'.stats b g = d.stats b g

/-- A folder has the same files and the same subfolders, whatever lies in those. -/
structure SameLevel (b p : Text) (d d' : StorageData) : Prop where
  files : ∀ n, p <+: n → slash ∉ n.drop p.length →
    d'.objects[objectKey b n]? = d.objects[objectKey b n]?
  groups : ∀ own, slash ∉ own →
    ((∃ n, p ++ (own ++ [slash]) <+: n ∧ d.objects[objectKey b n]?.isSome = true) ↔
      ∃ n, p ++ (own ++ [slash]) <+: n ∧ d'.objects[objectKey b n]?.isSome = true)

theorem SameTree.level {b p : Text} {d d' : StorageData} (h : SameTree b p d d') :
    SameLevel b p d d' where
  files n hn _ := h.objects n hn
  groups own _ := by
    refine exists_congr fun n => and_congr_right fun hn => ?_
    rw [h.objects n ((prefix_append _ _).trans hn)]

/-- An object changed its state at one place of data with a built index. -/
structure Moves (index : FolderIndex) (b n : Text) (atMs : Int) (d d' : StorageData) : Prop where
  bucket : 0 ∉ b
  before : d.folders = some index
  after : d'.folders = some (index.apply b n (d.objects[objectKey b n]?.map .of)
    (d'.objects[objectKey b n]?.map .of) (.committed d'.revision atMs))
  revision : d'.revision = d.revision + 1
  others : ∀ j, j ≠ objectKey b n → d'.objects[j]? = d.objects[j]?

/-- **What a step does to data with a built index**: nothing, a reset, or one object's change. -/
theorem StorageData.Step.built_cases {d d' : StorageData}
    (h : Step millis d d') (hkd : Keyed d.objects) (hidx : d.folders = some index)
    (hbuilt : index.progress = .built) :
    d' = d ∨ d' = d.clear ∨ ∃ b n atMs, Moves index b n atMs d d' := by
  have hpas : ∀ key, index.passed key = true := by
    intro key
    rw [passed, hbuilt]
  cases h with
  | put o atMs hbkt =>
    refine .inr (.inr ⟨o.bucket, o.name, atMs, hbkt, hidx, ?_, rfl, ?_⟩)
    · have haft : (d.objects.insert o.key o)[objectKey o.bucket o.name]? = some o :=
        getElem?_insert_self
      simp only [StorageData.put, hidx, Option.map_some, observe, hpas, if_true]
      rw [haft]
      rfl
    · intro j hj
      rw [StorageData.put, ExtTreeMap.getElem?_insert, if_neg]
      exact fun he => hj (LawfulEqCmp.eq_of_compare he).symm
  | remove key atMs =>
    cases hold : d.objects[key]? with
    | none =>
      refine .inl ?_
      rw [StorageData.remove, hold]
    | some o =>
      obtain ⟨rfl, hbkt⟩ := hkd key o hold
      refine .inr (.inr ⟨o.bucket, o.name, atMs, hbkt, hidx, ?_, ?_, ?_⟩)
      · have hold' : d.objects[objectKey o.bucket o.name]? = some o := hold
        simp only [StorageData.remove, hold, hidx, Option.map_some, observe, hpas, if_true]
        rw [hold']
        have haft : (d.objects.erase o.key)[objectKey o.bucket o.name]? = none :=
          getElem?_erase_self
        rw [haft]
        rfl
      · simp [StorageData.remove, hold]
      · intro j hj
        simp only [StorageData.remove, hold]
        rw [getElem?_erase, if_neg]
        exact fun he => hj (LawfulEqCmp.eq_of_compare he).symm
  | clear => exact .inr (.inl rfl)
  | startWalk =>
    refine .inl ?_
    rw [StorageData.startWalk, hidx]
    rfl
  | walkChunk limit =>
    refine .inl ?_
    rw [StorageData.walkChunk, hidx]
    exact if_pos hbuilt
  | abandonWalk =>
    refine .inl ?_
    obtain ⟨buckets, progress⟩ := index
    obtain rfl : progress = .built := hbuilt
    rw [StorageData.abandonWalk, hidx]

/-! ### One change -/

/-- Something lies below a prefix. -/
theorem Keyed.exists_within {objects : Objects} (hkd : Keyed objects) {b : Text} (hb : 0 ∉ b)
    (p : Text) : (∃ o ∈ select objects (fun _ => true), within b p o = true) ↔
      ∃ n, p <+: n ∧ objects[objectKey b n]?.isSome = true := by
  constructor
  · rintro ⟨o, ho, hw⟩
    obtain ⟨k, hk, -⟩ := mem_select.mp ho
    obtain ⟨rfl, hp⟩ := within_iff.mp hw
    obtain ⟨rfl, -⟩ := hkd k o hk
    exact ⟨o.name, hp, by rw [show objectKey o.bucket o.name = o.key from rfl, hk]; rfl⟩
  · rintro ⟨n, hp, hsm⟩
    obtain ⟨o, ho⟩ := Option.isSome_iff_exists.mp hsm
    obtain ⟨hkey, hbkt⟩ := hkd _ o ho
    obtain ⟨rfl, rfl⟩ := objectKey_inj hbkt hb hkey
    exact ⟨o, mem_select.mpr ⟨_, ho, rfl⟩, within_iff.mpr ⟨rfl, hp⟩⟩

section

variable {index : FolderIndex} {b n : Text} {atMs : Int} {d d' : StorageData} {c p : Text}
  {s' : FolderStats}

/-- The change as one of lists of objects. -/
theorem Moves.turn (hm : Moves index b n atMs d d') (hi : d.Inv) (hi' : d'.Inv) :
    ∃ others, Turn b n d.objects[objectKey b n]? d'.objects[objectKey b n]? others ∧
      (select d.objects fun _ => true).Perm (d.objects[objectKey b n]?.toList ++ others) ∧
      (select d'.objects fun _ => true).Perm (d'.objects[objectKey b n]?.toList ++ others) := by
  refine ⟨select d.objects fun j => true && j != objectKey b n,
    ⟨hi.keyed.place hm.bucket, hi'.keyed.place hm.bucket, ?_⟩,
    select_perm rfl, (select_perm rfl).trans (List.Perm.append_left _ ?_)⟩
  · rintro o ho ⟨rfl, rfl⟩
    obtain ⟨j, hj, hne⟩ := mem_select.mp ho
    simp only [Bool.true_and, bne_iff_ne] at hne
    exact hne (hi.keyed j o hj).1.symm
  · refine select_perm_of_mem fun j o => ?_
    by_cases hj : j = objectKey b n
    · simp [hj]
    · rw [hm.others j hj]

theorem StorageData.Inv.exact_built (hi : d.Inv) (hidx : d.folders = some index)
    (hbuilt : index.progress = .built) : Exact (select d.objects fun _ => true) index := by
  have hpas : index.passed = fun _ => true := by
    funext key
    rw [passed, hbuilt]
  exact hpas ▸ hi.exact index hidx

/-- A folder with figures is one of the index. -/
theorem StorageData.stats_eq_some (hidx : d.folders = some index) {s : FolderStats}
    (hs : d.stats c p = some s) :
    ∃ x, x.Valid ∧ x.path = p ∧ index.entry c x = some s := by
  rw [StorageData.stats, hidx, Option.bind_some] at hs
  have hp : p = [] ∨ endsInSlash p = true := by
    by_contra hnot
    rw [not_or] at hnot
    obtain ⟨bucket, -, hs⟩ := Option.bind_eq_some_iff.mp hs
    rw [if_neg hnot.1, if_neg hnot.2] at hs
    cases hs
  obtain ⟨x, hx, hpt⟩ := exists_folder hp
  exact ⟨x, hx, hpt, by rw [← stats_eq_entry hx hpt, hs]⟩

/-- A bucket with a folder has an object, so its name holds no NUL. -/
theorem StorageData.Inv.bucket_of_stats (hi : d.Inv)
    (hidx : d.folders = some index) (hbuilt : index.progress = .built) {b p : Text}
    {s : FolderStats} (hs : d.stats b p = some s) : 0 ∉ b := by
  obtain ⟨x, hx, -, hent⟩ := StorageData.stats_eq_some hidx hs
  obtain ⟨o, ho, hw⟩ := ((hi.exact_built hidx hbuilt).present b x hx).mp (by rw [hent]; rfl)
  obtain ⟨k, hk, -⟩ := mem_select.mp ho
  exact (within_iff.mp hw).1 ▸ (hi.keyed k o hk).2

/-- A folder the change is not below is as it was, with everything below it. -/
theorem Moves.off (hm : Moves index b n atMs d d') (hi : d.Inv) (hbuilt : index.progress = .built)
    {x : Folder} (hx : x.Valid) (hoff : b = c → x ∉ chain n) (hs' : d'.stats c x.path = some s') :
    d.stats c x.path = some s' ∧ SameTree c x.path d d' := by
  have hent := hs'
  rw [StorageData.stats, hm.after, Option.bind_some, stats_eq_entry hx rfl] at hent
  have hsts : ∀ g, x.path <+: g → d'.stats c g = d.stats c g := by
    intro g hg
    rw [StorageData.stats, StorageData.stats, hm.after, hm.before, Option.bind_some, Option.bind_some]
    by_cases hfol : g = [] ∨ endsInSlash g = true
    · obtain ⟨y, hy, rfl⟩ := exists_folder hfol
      rw [stats_eq_entry hy rfl, stats_eq_entry hy rfl]
      exact entry_apply_off hx hoff hent hg
    · rw [not_or] at hfol
      simp only [stats, if_neg hfol.1, if_neg hfol.2]
      simp
  have hold := (hsts _ (prefix_refl _)).symm.trans hs'
  refine ⟨hold, fun m hxm => hm.others _ fun hkey => ?_, hsts⟩
  obtain ⟨rfl, rfl⟩ := objectKey_inj (hi.bucket_of_stats hm.before hbuilt hold) hm.bucket hkey
  exact hoff rfl (mem_chain.mpr ⟨hx, hxm⟩)

section

variable (hm : Moves index b n atMs d d') (hi : d.Inv) (hi' : d'.Inv)
  (hbuilt : index.progress = .built)

include hm hi hi' hbuilt

/-- The stamps of a folder the change is below. -/
theorem Moves.on {x : Folder} (hx : x ∈ chain n) (hs' : d'.stats b x.path = some s') :
    s'.subtreeRev = d'.revision ∧ (s'.levelRev = d'.revision ∨
      ∃ s, d.stats b x.path = some s ∧ s.levelRev = s'.levelRev ∧ SameLevel b x.path d d') := by
  have hvld := (mem_chain.mp hx).1
  rw [StorageData.stats, hm.after, Option.bind_some, stats_eq_entry hvld rfl] at hs'
  obtain ⟨others, htr, hpr, hpr'⟩ := hm.turn hi hi'
  have hex := (hi.exact_built hm.before hbuilt).perm hpr
  have hft := (Fits.select (P := fun _ => true) hi.fits).of_subperm hpr.symm.subperm
  have hft' := (Fits.select (P := fun _ => true) hi'.fits).of_subperm hpr'.symm.subperm
  obtain ⟨hte, hlev⟩ := hex.stamps htr hft hft' hx hs'
  refine ⟨hte, hlev.imp_right ?_⟩
  rintro ⟨hsl, ⟨s, hs, hrev⟩, hgr⟩
  refine ⟨s, ?_, hrev, ?_, fun own hown => ?_⟩
  · rw [StorageData.stats, hm.before, Option.bind_some, stats_eq_entry hvld rfl, hs]
  · intro m _ hdir
    refine hm.others _ fun hkey => ?_
    obtain rfl := (cons.inj (append_cancel_left hkey)).2
    exact hdir hsl
  · rw [← hi.keyed.exists_within hm.bucket, ← hi'.keyed.exists_within hm.bucket]
    have hgrp := hgr own hown
    simp only [hpr.mem_iff, hpr'.mem_iff]
    exact hgrp

/-- **A folder that is not stamped with the change is as it was, with everything below it.** -/
theorem Moves.tree (hs' : d'.stats c p = some s') :
    s'.subtreeRev = d'.revision ∨ d.stats c p = some s' ∧ SameTree c p d d' := by
  obtain ⟨x, hx, rfl, -⟩ := StorageData.stats_eq_some hm.after hs'
  by_cases hon : b = c ∧ x ∈ chain n
  · obtain ⟨rfl, hchn⟩ := hon
    exact .inl (hm.on hi hi' hbuilt hchn hs').1
  · exact .inr (hm.off hi hbuilt hx (fun hbc hchn => hon ⟨hbc, hchn⟩) hs')

/-- **A folder whose level is not stamped with the change has the level it had.** -/
theorem Moves.level (hs' : d'.stats c p = some s') : s'.levelRev = d'.revision ∨
      ∃ s, d.stats c p = some s ∧ s.levelRev = s'.levelRev ∧ SameLevel c p d d' := by
  obtain ⟨x, hx, rfl, -⟩ := StorageData.stats_eq_some hm.after hs'
  by_cases hon : b = c ∧ x ∈ chain n
  · obtain ⟨rfl, hchn⟩ := hon
    exact (hm.on hi hi' hbuilt hchn hs').2
  · obtain ⟨hsm, htr⟩ := hm.off hi hbuilt hx (fun hbc hchn => hon ⟨hbc, hchn⟩) hs'
    exact .inr ⟨s', hsm, rfl, htr.level⟩

end

end

/-! ### Stamps are past revisions -/

/-- The stamps are at or below a revision. -/
structure FolderStats.Stamped (revision : Nat) (s : FolderStats) : Prop where
  tree : s.subtreeRev ≤ revision
  level : s.levelRev ≤ revision

/-- The change is of a revision at or below the given one, or of the walk. -/
def Change.UpTo (revision : Nat) : Change → Prop
  | .committed r _ => r ≤ revision
  | .walked _ => True

def FolderIndex.Stamped (index : FolderIndex) (revision : Nat) : Prop :=
  ∀ b x s, index.entry b x = some s → s.Stamped revision

section

variable {m : Move} {rev : Nat} {s : FolderStats}

theorem FolderStats.Stamped.mono {rev' : Nat} (h : s.Stamped rev)
    (hle : rev ≤ rev') : s.Stamped rev' := ⟨h.tree.trans hle, h.level.trans hle⟩

theorem FolderStats.Stamped.moved (hm : m.change.UpTo rev) (h : s.Stamped rev)
    (last x : Folder) : (m.moved last x s).Stamped rev := by
  have hcn : (m.counts (decide (x = last)) s).Stamped rev := by
    cases decide (x = last) <;> exact ⟨h.tree, h.level⟩
  cases hchg : m.change with
  | committed r atMs =>
    rw [hchg] at hm
    refine ⟨?_, ?_⟩
    · rw [subtreeRev_moved hchg]
      exact hm
    rw [levelRev_moved hchg]
    split
    · exact hm
    · exact h.level
  | walked updatedMs =>
    rw [Move.moved, Move.stamps, hchg]
    cases updatedMs <;> exact ⟨hcn.tree, hcn.level⟩

theorem FolderStats.Stamped.counted (hm : m.change.UpTo rev) (x : Folder)
    (flips : List ((Text × Text) × Bool)) (h : s.Stamped rev) :
    (m.counted x flips s).Stamped rev := by
  have hfl : ∀ {s : FolderStats} (came isParent), s.Stamped rev →
      (m.flip came isParent s).Stamped rev := by
    intro s came isParent hs
    refine ⟨(subtreeRev_flip m came isParent s).trans_le hs.tree, ?_⟩
    cases hchg : m.change with
    | committed r atMs =>
      rw [hchg] at hm
      rw [levelRev_flip hchg]
      split
      · exact hm
      · exact hs.level
    | walked updatedMs =>
      have hsm : (m.flip came isParent s).levelRev = s.levelRev := by
        unfold Move.flip
        rw [hchg]
        cases isParent <;> rfl
      exact hsm.trans_le hs.level
  refine foldlRecOn (motive := fun s : FolderStats => s.Stamped rev) flips _ h ?_
  intro s hs p _
  split
  · exact hfl _ _ hs
  · exact hs

theorem FolderIndex.Stamped.apply (h : index.Stamped rev)
    (hchg : change.UpTo rev) (b n : Text) (before after : Option Shape) :
    (index.apply b n before after change).Stamped rev := by
  intro c x s hs
  rw [entry_apply] at hs
  by_cases hbc : b = c
  · subst hbc
    obtain ⟨last, hlast⟩ := exists_last_chain n
    have hbef : ∀ f, (((index.buckets.getD b {}).folder f).getD {}).Stamped rev := by
      intro f
      rw [getD_eq_getD_getElem?]
      cases hbkt : index.buckets[b]? with
      | none => cases f <;> simp <;> exact ⟨Nat.zero_le _, Nat.zero_le _⟩
      | some bucket =>
        cases hf : bucket.folder f with
        | none =>
          simp only [Option.getD_some, hf]
          exact ⟨Nat.zero_le _, Nat.zero_le _⟩
        | some old =>
          simp only [Option.getD_some, hf]
          exact h b f old (by rw [entry, hbkt, Option.bind_some, hf])
    have hfol := (⟨n, before, after, change⟩ : Move).folder_apply (index.buckets.getD b {}) hlast
      (fun f _ => rfl) x
    rw [if_pos rfl] at hs
    split at hs
    · rw [hfol] at hs
      split at hs
      · split at hs
        · cases hs
        · obtain rfl := Option.some.inj hs
          exact ((hbef x).moved hchg last x).counted hchg x _
      · have hold := hbef x
        rw [hs] at hold
        exact hold
    · cases hs
  · rw [if_neg hbc] at hs
    exact h c x s hs

end

/-- Every stamp of the index is a revision of the past. -/
def StorageData.Stamped (data : StorageData) : Prop :=
  ∀ index ∈ data.folders, index.Stamped data.revision

theorem FolderIndex.stamped_of_empty (h : index.buckets = ∅) (rev : Nat) : index.Stamped rev := by
  intro b x s hs
  rw [entry, h] at hs
  simp at hs

theorem StorageData.Stamped.observe (h : data.Stamped) {key b n : Text}
    {before after : Option Shape} {atMs : Int} (hrev : data'.revision = data.revision + 1)
    (hfl : data'.folders = data.folders.map fun index =>
      index.observe key b n before after (data.revision + 1) atMs) :
    data'.Stamped := by
  intro index hidx
  rw [hfl] at hidx
  obtain ⟨old, hold, rfl⟩ := Option.map_eq_some_iff.mp hidx
  have hmn : old.Stamped data'.revision := fun b x s hs =>
    (h old hold b x s hs).mono (hrev ▸ Nat.le_succ _)
  unfold FolderIndex.observe
  split
  · have hup : Change.UpTo data'.revision (.committed (data.revision + 1) atMs) := hrev.ge
    exact hmn.apply hup _ _ _ _
  · exact hmn

theorem StorageData.Stamped.step (h : data.Stamped) (hst : Step millis data data') :
    data'.Stamped := by
  cases hst with
  | put o atMs hbkt => exact h.observe rfl rfl
  | remove key atMs =>
    unfold StorageData.remove
    split
    · exact h
    · exact h.observe rfl rfl
  | clear =>
    intro index hidx
    obtain rfl := Option.some.inj hidx
    exact stamped_of_empty rfl _
  | startWalk =>
    unfold StorageData.startWalk
    split
    · exact h
    · intro index hidx
      obtain rfl := Option.some.inj hidx
      exact stamped_of_empty rfl _
  | walkChunk limit =>
    unfold StorageData.walkChunk
    split
    · exact h
    next index hidx =>
    split
    · exact h
    intro walked hwlk
    obtain rfl := Option.some.inj hwlk
    have hfl : FolderIndex.Stamped (((data.ahead index).take limit).foldl
        (fun i e => FolderIndex.addWalked millis i e.2) index) data.revision := by
      refine foldlRecOn (motive := fun i : FolderIndex => i.Stamped data.revision) _ _
        (h index hidx) ?_
      intro i hi e _
      have hup : Change.UpTo data.revision (.walked (millis e.2.updated)) := trivial
      exact hi.apply hup _ _ _ _
    exact hfl
  | abandonWalk =>
    unfold StorageData.abandonWalk
    split
    · exact nofun
    · exact h

theorem StorageData.Run.stamped (run : Run millis data) : data.Stamped := by
  induction run with
  | start objects hkd hft => exact nofun
  | step _ h _ ih => exact ih.step h

end Firenook.Storage
