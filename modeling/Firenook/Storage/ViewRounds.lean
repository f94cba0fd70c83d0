import Firenook.Storage.Views

/-!
# ViewRounds — the rounds of a walk see only what the stamp stands for

A round depends on nothing but what lies below its folder (`rounds_tree`), and for one level, up to
the figures of the subfolders, on nothing but the level's files and the names of its subfolders
(`rounds_level`, `matches_level`). A view that is not stamped by the subtree does not show those
figures (`arrange_blur`).
-/

namespace Firenook.Storage

open List Std LexOrder

variable {x : LevelEntry}

/-! ### Ranges -/

section

variable {objects objects' : Objects} {l : Place} {r : Resume} {d d' : StorageData}

theorem mem_roundRange {e : Text × StoredObject} : e ∈ roundRange objects l r ↔
    objects[e.1]? = some e.2 ∧ l.level.scope <+: e.1 ∧ r.ahead e.1 = true := by
  rw [roundRange, mem_filter, ExtTreeMap.mem_toList_iff_getElem?_eq_some, Bool.and_eq_true,
    isPrefixOf_iff_prefix]

theorem sorted_roundRange (objects : Objects) (l : Place) (r : Resume) :
    (roundRange objects l r).Pairwise fun e e' => compare e.1 e'.1 = .lt :=
  (sorted_toList objects).filter _

theorem roundRange_congr (h : ∀ k, l.level.scope <+: k → objects'[k]? = objects[k]?) :
    roundRange objects' l r = roundRange objects l r := by
  refine eq_of_pairwise_lt (sorted_roundRange _ _ _) (sorted_roundRange _ _ _) fun e => ?_
  rw [mem_roundRange, mem_roundRange]
  constructor
  · rintro ⟨he, hsc, hahd⟩
    exact ⟨(h _ hsc).symm.trans he, hsc, hahd⟩
  · rintro ⟨he, hsc, hahd⟩
    exact ⟨(h _ hsc).trans he, hsc, hahd⟩

/-- A key of the scope is that of a name below the folder. -/
theorem scope_prefix {key : Text} (h : l.level.scope <+: key) :
    ∃ n, l.path <+: n ∧ key = objectKey l.bucket n := by
  obtain ⟨rest, rfl⟩ := h
  exact ⟨l.path ++ rest, prefix_append _ _, by simp [Level.scope, Place.level, objectKey]⟩

theorem ranged_roundRange (hkeyed : Keyed objects) (hb : 0 ∉ l.bucket) (r : Resume) :
    Ranged l.bucket l.path (roundRange objects l r) := by
  refine ⟨fun e he => ?_, sorted_roundRange _ _ _⟩
  obtain ⟨he, hsc, -⟩ := mem_roundRange.mp he
  obtain ⟨n, hn, hkey⟩ := scope_prefix hsc
  obtain ⟨hown, hbkt⟩ := hkeyed _ _ he
  obtain ⟨hb', rfl⟩ := objectKey_inj hbkt hb (hown.trans hkey)
  exact ⟨hkey, hn⟩

theorem roundEntries_tree (h : SameTree l.bucket l.path d d') :
    roundEntries d' l r = roundEntries d l r := by
  have hrng : roundRange d'.objects l r = roundRange d.objects l r := by
    refine roundRange_congr fun k hk => ?_
    obtain ⟨n, hn, rfl⟩ := scope_prefix hk
    exact h.objects n hn
  rw [roundEntries, roundEntries, hrng]

end

/-! ### One level -/

/-- A subfolder's name determines the subfolder a name lies in. -/
theorem folder_unique {p own own' n : Text} (hown : slash ∉ own) (hown' : slash ∉ own')
    (h : p ++ (own ++ [slash]) <+: n) (h' : p ++ (own' ++ [slash]) <+: n) :
    p ++ (own ++ [slash]) = p ++ (own' ++ [slash]) := by
  have hlen := (groupEnd_folder hown h).symm.trans (groupEnd_folder hown' h')
  rw [prefix_iff_eq_take.mp h, prefix_iff_eq_take.mp h', Option.some.inj hlen]

/-- A walk of a level continues after a file or after a subfolder of it. -/
def Resume.Valid (b p : Text) : Resume → Prop
  | .afterItem key => ∃ n, key = objectKey b n ∧ slash ∉ n.drop p.length
  | .afterGroup key => ∃ own, slash ∉ own ∧ key = objectKey b (p ++ (own ++ [slash]))
  | _ => True

/-- A subfolder lies ahead of a walk as a whole. -/
theorem Resume.Valid.ahead {b p : Text} {r : Resume} (hr : r.Valid b p) {own : Text}
    (hown : slash ∉ own) {key key' : Text} (hkey : objectKey b (p ++ (own ++ [slash])) <+: key)
    (hkey' : objectKey b (p ++ (own ++ [slash])) <+: key') (hsk : ¬Skipped r.group key)
    (hahd : r.ahead key = true) : r.ahead key' = true := by
  have hbtw : ∀ {k : Text}, compare k key = .lt → compare k key' ≠ .lt →
      objectKey b (p ++ (own ++ [slash])) <+: k := by
    intro k hlt hnot
    refine prefix_of_between ?_ hlt hkey
    refine TransCmp.isLE_trans (isLE_of_isPrefix hkey') ?_
    rw [Ordering.isLE_iff_ne_gt]
    exact fun hgt => hnot (OrientedCmp.lt_of_gt hgt)
  cases r with
  | start => rfl
  | done => cases hahd
  | afterItem k =>
    obtain ⟨n, rfl, hdir⟩ := hr
    refine decide_eq_true (Classical.byContradiction fun hnot => hdir ?_)
    obtain ⟨rest, rfl⟩ := (prefix_objectKey b _ _).mp (hbtw (of_decide_eq_true hahd) hnot)
    simp
  | afterGroup g =>
    obtain ⟨own', hown', rfl⟩ := hr
    refine decide_eq_true (Classical.byContradiction fun hnot => hsk ⟨_, rfl, ?_⟩)
    have hps := hbtw (of_decide_eq_true hahd) hnot
    rw [show objectKey b (p ++ (own' ++ [slash])) ++ lastScalar =
      objectKey b (p ++ (own' ++ [slash]) ++ lastScalar) by simp [objectKey], prefix_objectKey] at hps
    rw [← folder_unique hown hown' hps (prefix_append _ _)]
    exact hkey

theorem SameLevel.symm {b p : Text} {d d' : StorageData} (h : SameLevel b p d d') :
    SameLevel b p d' d where
  files n hn hdir := (h.files n hn hdir).symm
  groups own hown := (h.groups own hown).symm

section

variable {l : Place} {r : Resume} {d d' : StorageData}

/-- The entries of a round before it is cut off. -/
theorem roundWalk_spec (hflat : l.flat = false) (hkeyed : Keyed d.objects) (hb : 0 ∉ l.bucket)
    (r : Resume) :
    let range := roundRange d.objects l r
    (∀ x, x ∈ levelWalk l.level range.length range r.group ↔
      ∃ e ∈ range, ¬Skipped r.group e.1 ∧ x = entryOf l.path e.2) ∧
    (levelWalk l.level range.length range r.group).Pairwise
      fun x y => compare x.label y.label = .lt := by
  rw [Place.level, hflat]
  refine levelWalk_spec (folderLevel l.bucket l.path) _ _ _ (Nat.le_refl _) (ranged_roundRange hkeyed hb r) ?_
  intro g hg e he
  cases r with
  | afterGroup k =>
    obtain rfl := Option.some.inj hg
    have hps := of_decide_eq_true (mem_roundRange.mp he).2.2
    exact Ordering.isLE_of_eq_lt (TransCmp.lt_of_isLE_of_lt
      (isLE_of_isPrefix (prefix_append _ _)) hps)
  | start | afterItem | done => cases hg

theorem mem_roundWalk_level (hkeyed : Keyed d.objects) (hkeyed' : Keyed d'.objects)
    (hb : 0 ∉ l.bucket) (hr : r.Valid l.bucket l.path) (h : SameLevel l.bucket l.path d d')
    (hx : ∃ e ∈ roundRange d.objects l r, ¬Skipped r.group e.1 ∧ x = entryOf l.path e.2) :
    ∃ e ∈ roundRange d'.objects l r, ¬Skipped r.group e.1 ∧ x = entryOf l.path e.2 := by
  obtain ⟨e, he, hsk, rfl⟩ := hx
  obtain ⟨hkey, hpt⟩ := (ranged_roundRange hkeyed hb r).keyed e he
  obtain ⟨hget, hsc, hahd⟩ := mem_roundRange.mp he
  rcases entryOf_cases hpt with ⟨hdir, -⟩ | ⟨own, hown, hown', hent⟩
  · refine ⟨e, mem_roundRange.mpr ⟨?_, hsc, hahd⟩, hsk, rfl⟩
    rw [hkey] at hget ⊢
    exact (h.files _ hpt hdir).trans hget
  · have hkey' : objectKey l.bucket (l.path ++ (own ++ [slash])) <+: e.1 := by
      rw [hkey, prefix_objectKey]
      exact hown'
    rw [hkey] at hget
    obtain ⟨n, hn, hsm⟩ := (h.groups own hown).mp ⟨e.2.name, hown', by rw [hget]; rfl⟩
    obtain ⟨o, ho⟩ := Option.isSome_iff_exists.mp hsm
    obtain ⟨hown'', hbkt⟩ := hkeyed' _ o ho
    obtain ⟨-, rfl⟩ := objectKey_inj hbkt hb hown''
    have hn' := (prefix_objectKey l.bucket _ _).mpr hn
    refine ⟨(objectKey l.bucket o.name, o), mem_roundRange.mpr ⟨ho, ?_, ?_⟩, ?_, ?_⟩
    · exact (prefix_objectKey l.bucket _ _).mpr ((prefix_append _ _).trans hn)
    · exact hr.ahead hown hkey' hn' hsk hahd
    · rintro ⟨g, hg, hskp⟩
      cases r with
      | afterGroup k =>
        obtain rfl := Option.some.inj hg
        obtain ⟨own', hown₂, rfl⟩ := hr
        refine hsk ⟨_, rfl, ?_⟩
        rw [← folder_unique hown hown₂ hn ((prefix_objectKey _ _ _).mp hskp)]
        exact hkey'
      | start | afterItem | done => cases hg
    · rw [hent, entryOf_group hown hn]

section

variable (hflat : l.flat = false) (hkeyed : Keyed d.objects)

include hflat hkeyed

/-- **A round over a level** sees its files and the names of its subfolders. -/
theorem roundEntries_level (hkeyed' : Keyed d'.objects) (hb : 0 ∉ l.bucket)
    (hr : r.Valid l.bucket l.path) (h : SameLevel l.bucket l.path d d') :
    roundEntries d' l r = roundEntries d l r := by
  obtain ⟨hmem, hsrt⟩ := roundWalk_spec hflat hkeyed hb r
  obtain ⟨hmem', hsrt'⟩ := roundWalk_spec hflat hkeyed' hb r
  refine congrArg (take chunkSize) (eq_of_pairwise_lt hsrt' hsrt fun x => ?_)
  rw [hmem, hmem']
  exact ⟨mem_roundWalk_level hkeyed' hkeyed hb hr h.symm,
    mem_roundWalk_level hkeyed hkeyed' hb hr h⟩

theorem mem_roundEntries (hb : 0 ∉ l.bucket) (hx : x ∈ roundEntries d l r) :
    ∃ o : StoredObject, l.path <+: o.name ∧ x = entryOf l.path o := by
  obtain ⟨e, he, -, rfl⟩ := ((roundWalk_spec hflat hkeyed hb r).1 x).mp (mem_of_mem_take hx)
  exact ⟨e.2, ((ranged_roundRange hkeyed hb r).keyed e he).2, rfl⟩

theorem resumeAfter_valid (hb : 0 ∉ l.bucket) :
    (resumeAfter l (roundEntries d l r)).Valid l.bucket l.path := by
  unfold resumeAfter
  split
  · trivial
  split
  · next g hg =>
    obtain ⟨o, hpt, hent⟩ := mem_roundEntries hflat hkeyed hb (mem_of_getLast? hg)
    rcases entryOf_cases hpt with ⟨-, hit⟩ | ⟨own, hown, -, hgrp⟩
    · rw [hit] at hent
      cases hent
    · rw [hgrp] at hent
      exact ⟨own, hown, by rw [LevelEntry.group.inj hent]⟩
  · next o ho =>
    obtain ⟨o', hpt, hent⟩ := mem_roundEntries hflat hkeyed hb (mem_of_getLast? ho)
    rcases entryOf_cases hpt with ⟨hdir, hit⟩ | ⟨own, hown, -, hgrp⟩
    · rw [hit] at hent
      obtain rfl := LevelEntry.item.inj hent
      exact ⟨o.name, rfl, hdir⟩
    · rw [hgrp] at hent
      cases hent
  · trivial

end

end

/-! ### Rounds -/

/-- The walk after some rounds while nothing changes. -/
def rounds {α : Type} (visit : StorageData → LevelEntry → List α) (l : Place) (data : StorageData)
    (n : Nat) : Walk α := (walkRound visit l data)^[n] {}

section

variable {α : Type} {visit : StorageData → LevelEntry → List α} {l : Place} {d d' : StorageData}

theorem rounds_succ (visit : StorageData → LevelEntry → List α) (l : Place) (data : StorageData)
    (n : Nat) : rounds visit l data (n + 1) = walkRound visit l data (rounds visit l data n) :=
  Function.iterate_succ_apply' _ _ _

/-- A walk that is done stays as it is. -/
theorem rounds_of_le {n m : Nat} (h : (rounds visit l d n).resume = .done) (hnm : n ≤ m) :
    rounds visit l d m = rounds visit l d n := by
  induction hnm with
  | refl => rfl
  | step _ ih => rw [rounds_succ, ih, walkRound, if_pos h]

theorem resume_rounds_valid (hflat : l.flat = false) (hkeyed : Keyed d.objects) (hb : 0 ∉ l.bucket)
    (n : Nat) : (rounds visit l d n).resume.Valid l.bucket l.path := by
  induction n with
  | zero => trivial
  | succ n ih =>
    rw [rounds_succ, walkRound]
    split
    · exact ih
    · exact resumeAfter_valid hflat hkeyed hb

/-- A group of a walk lies below its folder. -/
theorem group_levelWalk (v : Level) {fuel : Nat} {range : List (Text × StoredObject)}
    {group : Option Text} {g : Text} (h : .group g ∈ levelWalk v fuel range group) :
    v.path <+: g := by
  induction fuel generalizing range group with
  | zero =>
    cases h
  | succ fuel ih =>
    cases range with
    | nil => cases h
    | cons e rest =>
      obtain ⟨key, object⟩ := e
      rw [levelWalk] at h
      split at h
      · cases h
      next hsc =>
      obtain ⟨tail, rfl⟩ := not_not.mp hsc
      split at h
      · exact ih h
      dsimp only at h
      split at h
      · exact ih ((mem_cons.mp h).resolve_left (by simp))
      next stop hst =>
      rcases mem_cons.mp h with h | h
      · have hname : (v.scope ++ tail).drop (v.bucket.length + 1) = v.path ++ tail := by
          simp [Level.scope, objectKey]
        rw [hname] at h
        obtain ⟨delimiter, -, hfd⟩ := Option.bind_eq_some_iff.mp hst
        obtain ⟨offset, -, rfl⟩ := Option.map_eq_some_iff.mp hfd
        rw [LevelEntry.group.inj h, Nat.add_assoc, take_length_add_append]
        exact prefix_append _ _
      · exact ih h

theorem rowOf_tree {millis : Text → Option Int} (h : SameTree l.bucket l.path d d') {r : Resume}
    (hx : x ∈ roundEntries d l r) : rowOf millis l d' x = rowOf millis l d x := by
  cases x with
  | item o => rfl
  | group g =>
    rw [rowOf, rowOf, h.stats g (group_levelWalk l.level (mem_of_mem_take hx))]

/-- **A walk sees what lies below its folder.** -/
theorem rounds_tree (h : SameTree l.bucket l.path d d')
    (hvst : ∀ r, ∀ x ∈ roundEntries d l r, visit d' x = visit d x) (n : Nat) :
    rounds visit l d' n = rounds visit l d n := by
  induction n with
  | zero => rfl
  | succ n ih =>
    rw [rounds_succ, rounds_succ, ih, walkRound, walkRound]
    split
    · rfl
    · simp only [roundEntries_tree h]
      congr 2
      exact flatMap_congr fun x hx => hvst _ x (mem_of_mem_filter hx)

/-! ### The figures of subfolders -/

/-- A row without the figures of a subfolder. -/
def Row.blur (r : Row) : Row :=
  if r.facts.folder then ⟨r.name, { r.facts with size := 0, updated := 0 }⟩ else r

def Walk.blur (w : Walk Row) : Walk Row := ⟨w.found.map Row.blur, w.resume⟩

variable {millis : Text → Option Int} {w w' : Walk Row}

theorem blur_rowOf (millis : Text → Option Int) (l : Place) (d d' : StorageData) (x : LevelEntry) :
    (rowOf millis l d' x).map Row.blur = (rowOf millis l d x).map Row.blur := by
  cases x <;> rfl

theorem walkRound_blur (h : w.blur = w'.blur) :
    (walkRound (rowOf millis l) l d w).blur = (walkRound (rowOf millis l) l d w').blur := by
  obtain ⟨hfd, hrsm⟩ := Walk.mk.inj h
  rw [walkRound, walkRound, ← hrsm]
  split
  · exact h
  · simp [Walk.blur, hfd]

section

variable (hflat : l.flat = false) (hkeyed : Keyed d.objects) (hkeyed' : Keyed d'.objects)
  (hb : 0 ∉ l.bucket) (h : SameLevel l.bucket l.path d d')

include hflat hkeyed hkeyed' hb h

/-- **A walk of a level** sees its files and the names of its subfolders, and their figures. -/
theorem rounds_level (n : Nat) :
    (rounds (rowOf millis l) l d' n).blur = (rounds (rowOf millis l) l d n).blur := by
  induction n with
  | zero => rfl
  | succ n ih =>
    rw [rounds_succ, rounds_succ]
    refine (walkRound_blur ih).trans ?_
    rw [walkRound, walkRound]
    split
    · rfl
    · have hw : (rounds (rowOf millis l) l d n).resume.Valid l.bucket l.path :=
        resume_rounds_valid hflat hkeyed hb n
      simp [roundEntries_level hflat hkeyed hkeyed' hb hw h, Walk.blur, map_flatMap, blur_rowOf millis l d d']

end

theorem matches_level {filter : StorageFilter} (hflat : l.flat = false) (hkeyed : Keyed d.objects)
    (hkeyed' : Keyed d'.objects) (hb : 0 ∉ l.bucket) (h : SameLevel l.bucket l.path d d')
    (n : Nat) :
    rounds (matchOf filter l) l d' n = rounds (matchOf filter l) l d n := by
  induction n with
  | zero => rfl
  | succ n ih =>
    rw [rounds_succ, rounds_succ, ih, walkRound, walkRound]
    split
    · rfl
    · simp only [roundEntries_level hflat hkeyed hkeyed' hb
        (resume_rounds_valid hflat hkeyed hb n) h]
      rfl

end

section

variable (r : Row)

@[simp] theorem Row.name_blur : r.blur.name = r.name := by
  unfold Row.blur
  split <;> rfl

@[simp] theorem Row.folder_blur : r.blur.facts.folder = r.facts.folder := by
  unfold Row.blur
  split <;> rfl

@[simp] theorem Row.contentType_blur : r.blur.facts.contentType = r.facts.contentType := by
  unfold Row.blur
  split <;> rfl

theorem Row.blur_file {r : Row} (h : r.facts.folder = false) : r.blur = r :=
  if_neg (Bool.eq_false_iff.mp h)

end

theorem typesOf_blur (rows : List Row) : typesOf (rows.map Row.blur) = typesOf rows := by
  rw [typesOf, typesOf]
  simp

theorem keeps_blur (key : ViewKey) (filter : Option StorageFilter) (matched : Option (List Text))
    (r : Row) : keeps key filter matched r.blur = keeps key filter matched r := by
  cases hfol : r.facts.folder with
  | false => rw [Row.blur_file hfol]
  | true => simp [keeps, hfol]

theorem Entry.of_blur {key : ViewKey} (hkey : key.subtree = false) (types : List Text) (r : Row)
    (i : Nat) :
    Entry.of key.order.column types (r.blur, i) = .of key.order.column types (r, i) := by
  cases hfol : r.facts.folder with
  | false => rw [Row.blur_file hfol]
  | true =>
    have hsr : sortKey key.order.column types r.blur.facts =
        sortKey key.order.column types r.facts := by
      cases hclm : key.order.column with
      | name => rfl
      | type => simp [sortKey]
      | size | updated => simp [ViewKey.subtree, hclm] at hkey
    simp [Entry.of, hsr, hfol]

/-- **A view that is not stamped by the subtree** does not show the figures of subfolders. -/
theorem arrange_blur {key : ViewKey} (hkey : key.subtree = false) (filter : Option StorageFilter)
    (rows : List Row) (matched : Option (List Text)) :
    arrange key filter (rows.map Row.blur) matched = arrange key filter rows matched := by
  have hen : ((rows.map Row.blur).zipIdx.filter fun r => keeps key filter matched r.1).map
        (Entry.of key.order.column (typesOf (rows.map Row.blur))) =
      (rows.zipIdx.filter fun r => keeps key filter matched r.1).map
        (Entry.of key.order.column (typesOf rows)) := by
    rw [typesOf_blur, zipIdx_map, filter_map, map_map]
    simp only [Function.comp_def, Prod.map, keeps_blur, id]
    exact map_congr_left fun r _ => Entry.of_blur hkey _ r.1 r.2
  simp [arrange, hen]

end Firenook.Storage
