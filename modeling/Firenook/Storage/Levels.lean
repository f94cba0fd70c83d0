import Firenook.Storage.Stamps

/-!
# Levels — what a walk of one level yields

A level has its own files and a group for every subfolder. A walk yields them once each, in the
order of their names (**`levelWalk_spec`**), whatever lies in the groups; so two maps with the same
files and the same subfolders give the same walk.
-/

namespace Firenook.Storage

open List Option Std TransCmp LexOrder

variable {path : Text} {e : Text × StoredObject} {o : StoredObject}

/-! ### Entries -/

/-- The entry an object of a level is seen as. -/
def Level.entry (l : Level) (o : StoredObject) : LevelEntry :=
  match groupEnd o.name l.path.length l.delimiter with
  | none => .item o
  | some stop => .group (o.name.take stop)

def folderLevel (bucket path : Text) : Level := ⟨bucket, path, some [slash]⟩

/-- The entry an object of a folder is seen as. -/
def entryOf (path : Text) (o : StoredObject) : LevelEntry :=
  match groupEnd o.name path.length (some [slash]) with
  | none => .item o
  | some stop => .group (o.name.take stop)

/-- The name an entry is ordered by. -/
def LevelEntry.label : LevelEntry → Text
  | .group name => name
  | .item object => object.name

/-- A search reads no further than the end of what it finds. -/
theorem findText_take {needle t : Text} {n : Nat} (h : findText needle t = some n) :
    n + needle.length ≤ t.length ∧
      ∀ rest, findText needle (t.take (n + needle.length) ++ rest) = some n := by
  have hhr : ∀ rest, findText needle (needle ++ rest) = some 0 := fun rest => by
    cases hfd : needle ++ rest with
    | nil => simp [findText, (append_eq_nil_iff.mp hfd).1]
    | cons c cs => rw [findText, if_pos (hfd ▸ prefix_append _ _)]
  induction t generalizing n with
  | nil =>
    rw [findText] at h
    split at h
    · next hnee =>
      obtain rfl := some.inj h
      exact ⟨by simp [hnee], fun rest => by simpa [hnee] using hhr rest⟩
    · cases h
  | cons c cs ih =>
    rw [findText] at h
    split at h
    · next hnee =>
      obtain rfl := some.inj h
      rw [Nat.zero_add, ← prefix_iff_eq_take.mp hnee]
      exact ⟨hnee.length_le, hhr⟩
    next hnee =>
    obtain ⟨m, hm, rfl⟩ := map_eq_some_iff.mp h
    obtain ⟨hlen, hrs⟩ := ih hm
    refine ⟨by simp; omega, fun rest => ?_⟩
    rw [Nat.add_right_comm, take_succ_cons, cons_append, findText, if_neg, hrs]
    · rfl
    -- an earlier place would lie in the part that is kept
    intro herl
    have hkp := (prefix_cons_inj c).mpr <| take_prefix (m + needle.length) cs
    refine hnee ((prefix_of_prefix_length_le herl
      ((prefix_cons_inj c).mpr (prefix_append _ _)) ?_).trans hkp)
    simp
    omega

theorem findText_slash_of_notMem {t : Text} (h : slash ∉ t) : findText [slash] t = none := by
  induction t with
  | nil => rfl
  | cons c t ih =>
    rw [mem_cons, not_or] at h
    simp [findText, h.1, ih h.2]

theorem findText_slash {own : Text} (h : slash ∉ own) (rest : Text) :
    findText [slash] (own ++ slash :: rest) = some own.length := by
  induction own with
  | nil => simp [findText]
  | cons c own ih =>
    rw [mem_cons, not_or] at h
    simp [findText, h.1, ih h.2]

theorem groupEnd_folder {own name : Text} (hown : slash ∉ own)
    (h : path ++ (own ++ [slash]) <+: name) :
    groupEnd name path.length (some [slash]) = some (path ++ (own ++ [slash])).length := by
  obtain ⟨rest, rfl⟩ := h
  have hdr : (path ++ (own ++ [slash]) ++ rest).drop path.length = own ++ slash :: rest := by
    simp
  rw [groupEnd, bind_some, hdr, findText_slash hown]
  simp [Nat.add_assoc]

/-- Everything under a subfolder's name is seen as that subfolder. -/
theorem entryOf_group {own : Text} (hown : slash ∉ own) (h : path ++ (own ++ [slash]) <+: o.name) :
    entryOf path o = .group (path ++ (own ++ [slash])) := by
  rw [entryOf, groupEnd_folder hown h]
  simp only
  rw [← prefix_iff_eq_take.mp h]

/-- A name below a folder is one of its files, or lies in one of its subfolders. -/
theorem entryOf_cases (h : path <+: o.name) :
    slash ∉ o.name.drop path.length ∧ entryOf path o = .item o ∨
      ∃ own, slash ∉ own ∧ path ++ (own ++ [slash]) <+: o.name ∧
        entryOf path o = .group (path ++ (own ++ [slash])) := by
  by_cases hsl : slash ∈ o.name.drop path.length
  · obtain ⟨own, rest, hdr, hown⟩ := eq_append_cons_of_mem hsl
    have hpt : path ++ (own ++ [slash]) <+: o.name := by
      refine ⟨rest, ?_⟩
      rw [append_assoc, append_assoc, singleton_append, ← hdr]
      exact (prefix_iff_eq_append.mp h)
    exact .inr ⟨own, hown, hpt, entryOf_group hown hpt⟩
  · refine .inl ⟨hsl, ?_⟩
    rw [entryOf, groupEnd, bind_some, findText_slash_of_notMem hsl]
    rfl

section

variable {l : Level} {o o' : StoredObject}

theorem Level.label_entry (l : Level) (o : StoredObject) : (l.entry o).label <+: o.name := by
  rw [entry]
  split
  · exact prefix_refl _
  · exact take_prefix _ _

theorem Level.entry_item {x : StoredObject} (h : l.entry o = .item x) : x = o := by
  rw [entry] at h
  split at h
  · exact (LevelEntry.item.inj h).symm
  · cases h

/-- Everything under a group's name is seen as that group. -/
theorem Level.entry_group {g : Text} (h : l.path <+: o.name) (hentry : l.entry o = .group g)
    (hg : g <+: o'.name) : l.entry o' = .group g := by
  rw [entry] at hentry
  split at hentry
  · cases hentry
  next stop hst =>
  obtain ⟨d, hd, hfd⟩ := bind_eq_some_iff.mp hst
  obtain ⟨n, hn, rfl⟩ := map_eq_some_iff.mp hfd
  obtain ⟨t, ht⟩ := h
  rw [← ht, drop_left] at hn
  obtain ⟨hlen, hrs⟩ := findText_take hn
  have hgroup : g = l.path ++ t.take (n + d.length) := by
    rw [← LevelEntry.group.inj hentry, ← ht, Nat.add_assoc, take_length_add_append]
  obtain ⟨rest, hname⟩ := hg
  rw [hgroup] at hname ⊢
  have hsz : (l.path ++ t.take (n + d.length)).length = l.path.length + n + d.length := by
    simp
    omega
  rw [entry, groupEnd, hd, bind_some, ← hname, append_assoc, drop_left, hrs, ← append_assoc]
  simp only [map_some]
  rw [← hsz, take_left]

/-- Entries are ordered as the objects they are seen in. -/
theorem label_lt (h' : l.path <+: o'.name) (hlt : compare o.name o'.name = .lt)
    (hne : l.entry o ≠ l.entry o') :
    compare (l.entry o).label (l.entry o').label = .lt := by
  by_contra hnot
  have hle : (compare (l.entry o').label o.name).isLE := by
    refine isLE_trans ?_ (isLE_of_isPrefix (l.label_entry o))
    rw [Ordering.isLE_iff_ne_gt]
    exact fun hgt => hnot (OrientedCmp.lt_of_gt hgt)
  have hex := prefix_of_between hle hlt (l.label_entry o')
  cases hentry : l.entry o' with
  | item x =>
    obtain rfl := Level.entry_item hentry
    rw [hentry] at hex
    have hge := isLE_of_isPrefix hex
    rw [Ordering.isLE_iff_ne_gt] at hge
    exact hge (OrientedCmp.gt_of_lt hlt)
  | group g =>
    rw [hentry] at hex hne
    exact hne (Level.entry_group h' hentry hex)

end

/-! ### Walks -/

/-- Entries of a map below a folder, in order. -/
structure Ranged (b p : Text) (range : List (Text × StoredObject)) : Prop where
  keyed : ∀ e ∈ range, e.1 = objectKey b e.2.name ∧ p <+: e.2.name
  sorted : range.Pairwise fun e e' => compare e.1 e'.1 = .lt

theorem Ranged.sublist {b p : Text} {range range' : List (Text × StoredObject)}
    (h : Ranged b p range) (hsub : range'.Sublist range) : Ranged b p range' :=
  ⟨fun e he => h.keyed e (hsub.subset he), h.sorted.sublist hsub⟩

/-- The keys of a group that has been named are stepped over. -/
def Skipped (group : Option Text) (key : Text) : Prop := ∃ g ∈ group, g <+: key

theorem compare_objectKey (b n m : Text) :
    compare (objectKey b n) (objectKey b m) = compare n m := by
  have hkey : ∀ n, objectKey b n = (b ++ [0]) ++ n := fun n => by simp [objectKey]
  rw [hkey, hkey, compare_append_left]

theorem prefix_objectKey (b n m : Text) : objectKey b n <+: objectKey b m ↔ n <+: m := by
  rw [objectKey, objectKey, prefix_append_right_inj, prefix_cons_inj]

theorem skipped_iff {group : Option Text} {key : Text} :
    Skipped group key ↔ group.any (·.isPrefixOf key) = true := by
  simp [Skipped, Option.any_eq_true]

section

variable {l : Level} {o : StoredObject} {rest : List (Text × StoredObject)}

theorem label_lt_rest (hranged : Ranged l.bucket l.path ((objectKey l.bucket o.name, o) :: rest))
    (he : e ∈ rest) (hne : l.entry o ≠ l.entry e.2) :
    compare (l.entry o).label (l.entry e.2).label = .lt := by
  obtain ⟨hkey, hpt⟩ := hranged.keyed e (mem_cons_of_mem _ he)
  refine label_lt hpt ?_ hne
  have hlt := (pairwise_cons.mp hranged.sorted).1 e he
  rwa [hkey, compare_objectKey] at hlt

section

variable {group : Option Text} {g : Text}
  (hranged : Ranged l.bucket l.path ((objectKey l.bucket o.name, o) :: rest))
  (hgroup : ∀ g ∈ group, (compare g (objectKey l.bucket o.name)).isLE)
  (hskip : ¬Skipped group (objectKey l.bucket o.name)) (hentry : l.entry o = .group g)

include hranged hgroup hskip hentry

/-- Naming a group: the keys past the seek that do not extend it are those of the other entries. -/
theorem mem_past_group (he : e ∈ rest) :
    (compare (objectKey l.bucket g ++ lastScalar) e.1 = .lt ∧ ¬objectKey l.bucket g <+: e.1) ↔
      ¬Skipped group e.1 ∧ l.entry e.2 ≠ .group g := by
  have hlt := (pairwise_cons.mp hranged.sorted).1 e he
  obtain ⟨hkey, hpe⟩ := hranged.keyed e (mem_cons_of_mem _ he)
  have hin : objectKey l.bucket g <+: e.1 ↔ l.entry e.2 = .group g := by
    rw [hkey, prefix_objectKey]
    refine ⟨Level.entry_group (hranged.keyed _ mem_cons_self).2 hentry, fun heq => ?_⟩
    have hlab := l.label_entry e.2
    rwa [heq] at hlab
  rw [Ne, ← hin]
  constructor
  · rintro ⟨-, hnot⟩
    refine ⟨?_, hnot⟩
    rintro ⟨g, hg, hge⟩
    exact hskip ⟨g, hg, prefix_of_between (hgroup g hg) hlt hge⟩
  · rintro ⟨-, hnot⟩
    refine ⟨?_, hnot⟩
    have hlab := l.label_entry o
    rw [hentry] at hlab
    have hle := isLE_of_isPrefix ((prefix_objectKey l.bucket _ _).mpr hlab)
    have hps := (below_of_lt_of_not_isPrefix (lt_of_isLE_of_lt hle hlt) hnot).append lastScalar []
    rw [append_nil] at hps
    exact hps.compare

/-- The walk past a named group has the other entries. -/
theorem mem_walk_past_group {x : LevelEntry} :
    (∃ e ∈ rest.filter (fun e => compare (objectKey l.bucket g ++ lastScalar) e.1 = .lt),
      ¬Skipped (some (objectKey l.bucket g)) e.1 ∧ x = l.entry e.2) ↔
      ∃ e ∈ rest, (¬Skipped group e.1 ∧ l.entry e.2 ≠ .group g) ∧ x = l.entry e.2 := by
  constructor
  · rintro ⟨e, he, hnot, rfl⟩
    obtain ⟨he, hps⟩ := mem_filter.mp he
    refine ⟨e, he, (mem_past_group hranged hgroup hskip hentry he).mp
      ⟨of_decide_eq_true hps, fun hg => ?_⟩, rfl⟩
    exact hnot ⟨_, rfl, hg⟩
  · rintro ⟨e, he, hoth, rfl⟩
    obtain ⟨hps, hnot⟩ := (mem_past_group hranged hgroup hskip hentry he).mpr hoth
    refine ⟨e, mem_filter.mpr ⟨he, decide_eq_true hps⟩, ?_, rfl⟩
    rintro ⟨g, hg, hge⟩
    exact hnot (some.inj hg ▸ hge)

end

end

/-- The entries of `range` that are not of the named group, once and in order. -/
def Lists (l : Level) (range : List (Text × StoredObject)) (group : Option Text)
    (entries : List LevelEntry) : Prop :=
  (∀ x, x ∈ entries ↔ ∃ e ∈ range, ¬Skipped group e.1 ∧ x = l.entry e.2) ∧
    entries.Pairwise fun x y => compare x.label y.label = .lt

section Steps

variable {l : Level} {o : StoredObject} {rest : List (Text × StoredObject)} {group : Option Text}
  {entries : List LevelEntry} {fuel : Nat}

theorem Lists.skip (h : Lists l rest group entries) (hskip : Skipped group e.1) :
    Lists l (e :: rest) group entries := by
  refine ⟨fun x => (h.1 x).trans ?_, h.2⟩
  simp [hskip]

/-- An object of the level itself is before every entry that follows. -/
theorem Lists.item (h : Lists l rest group entries)
    (hranged : Ranged l.bucket l.path ((objectKey l.bucket o.name, o) :: rest))
    (hskip : ¬Skipped group (objectKey l.bucket o.name)) (hentry : l.entry o = .item o) :
    Lists l ((objectKey l.bucket o.name, o) :: rest) group (.item o :: entries) := by
  refine ⟨fun x => ?_, pairwise_cons.mpr ⟨fun x hx => ?_, h.2⟩⟩
  · simp [hskip, hentry, h.1]
  obtain ⟨e, he, -, rfl⟩ := (h.1 x).mp hx
  have hlab := label_lt_rest hranged he
  rw [hentry] at hlab
  refine hlab fun heq => ?_
  -- two objects of one name would have one key
  have hlt := (pairwise_cons.mp hranged.sorted).1 e he
  rw [(hranged.keyed e (mem_cons_of_mem _ he)).1, Level.entry_item heq.symm] at hlt
  simp at hlt

/-- A group stands for its first object and for all that the seek leaves out. -/
theorem Lists.named {g : Text} (h : Lists l
      (rest.filter fun e => compare (objectKey l.bucket g ++ lastScalar) e.1 = .lt)
      (some (objectKey l.bucket g)) entries)
    (hranged : Ranged l.bucket l.path ((objectKey l.bucket o.name, o) :: rest))
    (hgroup : ∀ g ∈ group, (compare g (objectKey l.bucket o.name)).isLE)
    (hskip : ¬Skipped group (objectKey l.bucket o.name)) (hentry : l.entry o = .group g) :
    Lists l ((objectKey l.bucket o.name, o) :: rest) group (.group g :: entries) := by
  have hot := fun x => (h.1 x).trans (mem_walk_past_group hranged hgroup hskip hentry)
  refine ⟨fun x => ?_, pairwise_cons.mpr ⟨fun x hx => ?_, h.2⟩⟩
  · rw [mem_cons, hot]
    simp only [mem_cons, exists_eq_or_imp, hskip, not_false_eq_true, true_and, hentry]
    constructor
    · rintro (rfl | ⟨e, he, ⟨hnot, -⟩, rfl⟩)
      · exact .inl rfl
      · exact .inr ⟨e, he, hnot, rfl⟩
    · rintro (rfl | ⟨e, he, hnot, rfl⟩)
      · exact .inl rfl
      · by_cases hsm : l.entry e.2 = .group g
        · exact .inl hsm
        · exact .inr ⟨e, he, ⟨hnot, hsm⟩, rfl⟩
  · obtain ⟨e, he, ⟨-, hne⟩, rfl⟩ := (hot x).mp hx
    have hlab := label_lt_rest hranged he
    rw [hentry] at hlab
    exact hlab (Ne.symm hne)

/-- What a walk does at an object of the level. -/
theorem levelWalk_object (hpt : l.path <+: o.name)
    (hskip : ¬Skipped group (objectKey l.bucket o.name)) :
    levelWalk l (fuel + 1) ((objectKey l.bucket o.name, o) :: rest) group =
      match l.entry o with
      | .item o => .item o :: levelWalk l fuel rest group
      | .group g => .group g :: levelWalk l fuel
          (rest.filter fun e => compare (objectKey l.bucket g ++ lastScalar) e.1 = .lt)
          (some (objectKey l.bucket g)) := by
  have hsc : l.scope <+: objectKey l.bucket o.name :=
    (prefix_objectKey l.bucket _ _).mpr hpt
  have hname : (objectKey l.bucket o.name).drop (l.bucket.length + 1) = o.name := by
    simp [objectKey]
  have hkey : ∀ stop, (objectKey l.bucket o.name).take (l.bucket.length + 1 + stop) =
      objectKey l.bucket (o.name.take stop) := by
    intro stop
    rw [objectKey, Nat.add_assoc, take_length_add_append, Nat.add_comm, take_succ_cons, objectKey]
  rw [levelWalk, if_neg (not_not.mpr hsc), if_neg (mt skipped_iff.mpr hskip), Level.entry]
  simp only [hname, hkey]
  cases groupEnd o.name l.path.length l.delimiter <;> rfl

end Steps

/-- **A walk of a level** yields every entry that is not of the named group, once and in order. -/
theorem levelWalk_spec (l : Level) (fuel : Nat) (range : List (Text × StoredObject))
    (group : Option Text) (hfl : range.length ≤ fuel) (hranged : Ranged l.bucket l.path range)
    (hgroup : ∀ g ∈ group, ∀ e ∈ range, (compare g e.1).isLE) :
    Lists l range group (levelWalk l fuel range group) := by
  induction fuel generalizing range group with
  | zero =>
    rw [eq_nil_of_length_eq_zero (Nat.le_zero.mp hfl)]
    exact ⟨fun x => by simp [levelWalk], List.Pairwise.nil⟩
  | succ fuel ih =>
    cases range with
    | nil => exact ⟨fun x => by simp [levelWalk], List.Pairwise.nil⟩
    | cons e rest =>
      obtain ⟨key, object⟩ := e
      obtain ⟨hkey, hpt⟩ := hranged.keyed (key, object) mem_cons_self
      dsimp only at hkey
      subst hkey
      have hrs := hranged.sublist (sublist_cons_self _ rest)
      have hfl' : rest.length ≤ fuel := Nat.le_of_succ_le_succ hfl
      have hnx := ih rest group hfl' hrs fun g hg e he =>
        hgroup g hg e (mem_cons_of_mem _ he)
      by_cases hskip : Skipped group (objectKey l.bucket object.name)
      · have hsc : l.scope <+: _ := (prefix_objectKey l.bucket _ _).mpr hpt
        rw [levelWalk, if_neg (not_not.mpr hsc), if_pos (skipped_iff.mp hskip)]
        exact hnx.skip hskip
      rw [levelWalk_object hpt hskip]
      cases hentry : l.entry object with
      | item x =>
        obtain rfl := Level.entry_item hentry
        exact hnx.item hranged hskip hentry
      | group g =>
        have hsub : (rest.filter fun e =>
            compare (objectKey l.bucket g ++ lastScalar) e.1 = .lt).Sublist rest := filter_sublist
        refine Lists.named (ih _ _ (hsub.length_le.trans hfl') (hrs.sublist hsub) ?_)
          hranged (fun g hg => hgroup g hg _ mem_cons_self) hskip hentry
        intro g hg e he
        obtain rfl := some.inj hg
        exact Ordering.isLE_of_eq_lt (lt_of_isLE_of_lt
          (isLE_of_isPrefix (prefix_append _ _)) (of_decide_eq_true (mem_filter.mp he).2))

end Firenook.Storage
