import Mathlib.Data.Finset.Card
import Mathlib.Algebra.Order.BigOperators.Group.List
import Firenook.Storage.Folders

/-!
# FolderCounts — the folder index against a recount

`recount` says what the figures of a folder are for: it counts them from a list of objects. An
index is exact for the objects (`Exact`) when every folder's figures are the recount and the index
has an entry for exactly the folders something lies in. **`Exact.apply`** is the step: an index
that is exact for a list with an object's state before a change is, after it, exact for the list
with the state after.
-/

namespace Firenook.Storage

open List Std Prod

variable {p c b : Text} {objects : List StoredObject} {s : FolderStats} {index : FolderIndex}
  {o : StoredObject}

/-! ### Recounting -/

/-- An object lies in the folder or below it. -/
def within (bucket path : Text) (o : StoredObject) : Bool :=
  o.bucket == bucket && path.isPrefixOf o.name

/-- An object lies in the folder itself. -/
def direct (bucket path : Text) (o : StoredObject) : Bool :=
  within bucket path o && !(o.name.drop path.length).contains slash

def StoredObject.isMarker (o : StoredObject) : Bool := (Shape.of o).marker

def folderSet (objects : List StoredObject) (bucket : Text) : Finset (Text × Text) :=
  ((objects.filter fun o => o.bucket == bucket).flatMap fun o => chainFrom [] [] o.name).toFinset

structure Figures where
  objects : Nat
  bytes : Nat
  directFiles : Nat
  directBytes : Nat
  folders : Nat
  foldersBelow : Nat
  markers : Nat
  placeholder : Bool
  deriving DecidableEq

/-- The figures the index keeps of a folder. -/
def FolderStats.figures (s : FolderStats) : Figures where
  objects := s.objects
  bytes := s.bytes
  directFiles := s.directFiles
  directBytes := s.directBytes
  folders := s.folders
  foldersBelow := s.foldersBelow
  markers := s.markers
  placeholder := s.placeholder

def total (f : StoredObject → Nat) (objects : List StoredObject) : Nat := (objects.map f).sum

/-- **A folder's figures**, counted from the objects. -/
def recount (objects : List StoredObject) (bucket path : Text) : Figures where
  objects := total (fun o => (within bucket path o && !o.isMarker).toNat) objects
  bytes := total (fun o => if within bucket path o && !o.isMarker then o.size else 0) objects
  directFiles := total (fun o => (direct bucket path o && !o.isMarker).toNat) objects
  directBytes := total (fun o => if direct bucket path o && !o.isMarker then o.size else 0) objects
  folders := ((folderSet objects bucket).filter fun f => f.1 = path).card
  foldersBelow := ((folderSet objects bucket).filter fun f => path <+: f.1).card
  markers := total (fun o => (within bucket path o && o.isMarker).toNat) objects
  placeholder := objects.any fun o => o.bucket == bucket && o.name == path && o.isMarker

/-- What the machine's 64-bit figures can hold: the sizes, the objects and the folders. -/
structure Fits (objects : List StoredObject) : Prop where
  bytes : total (·.size) objects < 2 ^ 64
  count : objects.length < 2 ^ 64
  folders : ∀ bucket, (folderSet objects bucket).card < 2 ^ 64

/-- The figures the index has for a folder, zero where it has none. -/
def FolderIndex.entry (index : FolderIndex) (bucket : Text) (x : Folder) : Option FolderStats :=
  index.buckets[bucket]?.bind fun b => b.folder x

/-- **The index is exact** for the objects. -/
structure Exact (objects : List StoredObject) (index : FolderIndex) : Prop where
  figures : ∀ bucket (x : Folder), x.Valid →
    ((index.entry bucket x).getD {}).figures = recount objects bucket x.path
  present : ∀ bucket (x : Folder), x.Valid →
    ((index.entry bucket x).isSome = true ↔ ∃ o ∈ objects, within bucket x.path o = true)
  valid : ∀ bucket (x : Folder), (index.entry bucket x).isSome = true → x.Valid

/-! ### Sums -/

section

variable {f g : StoredObject → Nat} {xs : List StoredObject}

theorem total_le (h : ∀ o ∈ xs, f o ≤ g o) : total f xs ≤ total g xs := sum_le_sum h

end

theorem shift_of_eq {value target : Nat} {delta : Int} (h : (value : Int) + delta = target)
    (htgt : target < 2 ^ 64) : shift value delta = target := by
  rw [shift, h, Int.max_eq_left (Int.natCast_nonneg _)]
  exact Nat.min_eq_left (Nat.le_sub_one_of_lt htgt)

/-! ### What an object adds to a recount -/

theorem within_iff : within b p o = true ↔ o.bucket = b ∧ p <+: o.name := by simp [within]

theorem direct_iff :
    direct b p o = true ↔ within b p o = true ∧ slash ∉ o.name.drop p.length := by simp [direct]

theorem mem_folderSet {f : Text × Text} : f ∈ folderSet objects b ↔
      Folder.Valid (some f) ∧ ∃ o ∈ objects, within b (Folder.path (some f)) o = true := by
  simp only [folderSet, mem_toFinset, mem_flatMap, mem_filter, beq_iff_eq, within_iff,
    mem_chainFrom (.inl rfl) (not_mem_nil), nil_prefix, true_and, nil_append]
  constructor
  · rintro ⟨o, ⟨ho, hb⟩, hvld, hpt⟩
    exact ⟨hvld, o, ho, hb, hpt⟩
  · rintro ⟨hvld, o, ho, hb, hpt⟩
    exact ⟨o, ⟨ho, hb⟩, hvld, hpt⟩

/-- A folder an object is not in does not count it. -/
theorem recount_skip (h : within b p o = false)
    (rest : List StoredObject) : recount (o :: rest) b p = recount rest b p := by
  have hdir : direct b p o = false := by simp [direct, h]
  have hname : (o.bucket == b && o.name == p) = false := by
    rw [Bool.eq_false_iff] at h ⊢
    intro hsm
    simp only [Bool.and_eq_true, beq_iff_eq] at hsm
    exact h (within_iff.mpr ⟨hsm.1, hsm.2 ▸ prefix_refl _⟩)
  have hst : ∀ P : Text × Text → Prop, ∀ [DecidablePred P], (∀ f, P f → p <+: f.1) →
      (folderSet (o :: rest) b).filter P = (folderSet rest b).filter P := by
    intro P _ hP
    ext f
    simp only [Finset.mem_filter, mem_folderSet, mem_cons, exists_eq_or_imp, and_congr_left_iff]
    intro hf
    refine and_congr_right fun _ => or_iff_right fun hwi => ?_
    rw [within_iff] at hwi
    rw [Bool.eq_false_iff, Ne, within_iff] at h
    exact h ⟨hwi.1, ((hP f hf).trans (prefix_append _ _)).trans hwi.2⟩
  simp only [recount, total, map_cons, sum_cons, any_cons, h, hdir, hname,
    Bool.false_and, Bool.toNat_false, Bool.false_eq_true, if_false, zero_add, Bool.false_or]
  congr 2
  · exact hst (fun f => f.1 = p) fun f hf => hf ▸ prefix_refl _
  · exact hst (fun f => p <+: f.1) fun f hf => hf

/-- A folder nothing lies in counts nothing. -/
theorem recount_empty (h : ∀ o ∈ objects, within b p o = false) :
    recount objects b p = ({} : FolderStats).figures := by
  induction objects with
  | nil => simp [recount, total, folderSet, FolderStats.figures]
  | cons o rest ih =>
    rw [recount_skip (h o mem_cons_self), ih fun x hx => h x (mem_cons_of_mem _ hx)]

/-- Presence is a count. -/
theorem present_iff (hobj : s.objects = (recount objects b p).objects)
    (hmr : s.markers = (recount objects b p).markers) :
    s.present = true ↔ ∃ o ∈ objects, within b p o = true := by
  have hpos : ∀ f : StoredObject → Nat, 0 < total f objects ↔ ∃ o ∈ objects, 0 < f o := by
    intro f
    rw [Nat.pos_iff_ne_zero, total, Ne, sum_eq_zero_iff]
    simp [Nat.pos_iff_ne_zero]
  rw [FolderStats.present, hobj, hmr, Bool.or_eq_true, decide_eq_true_eq, decide_eq_true_eq]
  simp only [recount, hpos]
  rw [← exists_or]
  refine exists_congr fun o => ?_
  cases within b p o <;> cases o.isMarker <;> simp

/-! ### Folders that come and go -/

/-- A folder of the set goes, one that is not in it comes. -/
def toggle (folders : Finset (Text × Text)) (f : Text × Text) : Finset (Text × Text) :=
  if f ∈ folders then folders.erase f else insert f folders

theorem mem_foldl_toggle {flips : List (Text × Text)} : ∀ {folders : Finset (Text × Text)},
    flips.Nodup → ∀ f, f ∈ flips.foldl toggle folders ↔ (f ∈ folders ↔ f ∉ flips) := by
  induction flips with
  | nil => simp
  | cons p flips ih =>
    intro folders hnd f
    obtain ⟨hp, hnd⟩ := nodup_cons.mp hnd
    rw [foldl_cons, ih hnd, toggle]
    by_cases hfp : f = p
    · subst hfp
      by_cases hf : f ∈ folders <;> simp [hf, hp]
    · by_cases hm : p ∈ folders <;> simp [hm, hfp]

/-- What a toggle does to a count of the set. -/
theorem card_filter_toggle (folders : Finset (Text × Text)) (f : Text × Text)
    (P : Text × Text → Prop) [DecidablePred P] :
    (((toggle folders f).filter P).card : Int)
      = (folders.filter P).card + if P f then if f ∈ folders then -1 else 1 else 0 := by
  rw [toggle]
  by_cases hf : f ∈ folders
  · rw [if_pos hf, if_pos hf, Finset.filter_erase]
    by_cases hP : P f
    · have hmem : f ∈ folders.filter P := Finset.mem_filter.mpr ⟨hf, hP⟩
      have hpos := Finset.card_pos.mpr ⟨f, hmem⟩
      rw [Finset.card_erase_of_mem hmem, if_pos hP]
      omega
    · rw [Finset.erase_eq_of_notMem (by simp [hP]), if_neg hP, add_zero]
  · rw [if_neg hf, if_neg hf, Finset.filter_insert]
    by_cases hP : P f
    · rw [if_pos hP, if_pos hP, Finset.card_insert_of_notMem (by simp [hf]), Nat.cast_succ]
    · rw [if_neg hP, if_neg hP, add_zero]

namespace Move

theorem flip_folders (m : Move) (came isParent : Bool) (s : FolderStats) :
    (m.flip came isParent s).folders
      = if isParent then shift s.folders (if came then 1 else -1) else s.folders := by
  unfold flip
  cases isParent <;> cases m.change <;> rfl

theorem flip_foldersBelow (m : Move) (came isParent : Bool) (s : FolderStats) :
    (m.flip came isParent s).foldersBelow = shift s.foldersBelow (if came then 1 else -1) := by
  unfold flip
  cases isParent <;> cases m.change <;> rfl

/-- A folder that came or went moves nothing else above it. -/
theorem flip_figures (m : Move) (came isParent : Bool) (s : FolderStats) :
    (m.flip came isParent s).figures = { s.figures with
      folders := (m.flip came isParent s).folders
      foldersBelow := (m.flip came isParent s).foldersBelow } := by
  unfold flip
  cases isParent <;> cases m.change <;> rfl

/-- **The folders a folder counts** after some came and others went. -/
theorem counted_figures (m : Move) (x : Folder) {flips : List ((Text × Text) × Bool)} :
    ∀ {s : FolderStats} {folders : Finset (Text × Text)} (all : Finset (Text × Text)),
      all.card < 2 ^ 64 → folders ⊆ all → (∀ p ∈ flips, p.1 ∈ all) →
      (flips.map fst).Nodup → (∀ p ∈ flips, p.2 = true ↔ p.1 ∉ folders) →
      s.folders = (folders.filter fun f => f.1 = x.path).card →
      s.foldersBelow = (folders.filter fun f => x.path <+: f.1).card →
      (m.counted x flips s).figures = { s.figures with
        folders := (((flips.map fst).foldl toggle folders).filter fun f => f.1 = x.path).card
        foldersBelow :=
          (((flips.map fst).foldl toggle folders).filter fun f => x.path <+: f.1).card } := by
  induction flips with
  | nil =>
    intro s folders all _ _ _ _ _ hfl hbel
    simp only [counted, foldl_nil, map_nil, ← hfl, ← hbel]
    rfl
  | cons p flips ih =>
    intro s folders all hall hsub hmem hnd hcm hfl hbel
    obtain ⟨hp, hrs⟩ := nodup_cons.mp hnd
    have hdlt : (if p.2 = true then (1 : Int) else -1) = if p.1 ∈ folders then -1 else 1 := by
      have h := hcm p mem_cons_self
      by_cases hin : p.1 ∈ folders
      · rw [if_pos hin, if_neg (mt h.mp (not_not.mpr hin))]
      · rw [if_neg hin, if_pos (h.mpr hin)]
    have hsub' : toggle folders p.1 ⊆ all := by
      rw [toggle]
      split
      · exact (Finset.erase_subset _ _).trans hsub
      · exact Finset.insert_subset (hmem p mem_cons_self) hsub
    have hbd : ∀ P : Text × Text → Prop, ∀ [DecidablePred P],
        ((toggle folders p.1).filter P).card < 2 ^ 64 := fun P _ =>
      (Finset.card_le_card ((Finset.filter_subset _ _).trans hsub')).trans_lt hall
    have hcm' : ∀ q ∈ flips, q.2 = true ↔ q.1 ∉ toggle folders p.1 := by
      intro q hq
      have hne : q.1 ≠ p.1 := fun h => hp (mem_map.mpr ⟨q, hq, h⟩)
      rw [hcm q (mem_cons_of_mem _ hq), toggle]
      by_cases hin : p.1 ∈ folders <;> simp [hin, hne]
    have hmem' : ∀ q ∈ flips, q.1 ∈ all := fun q hq => hmem q (mem_cons_of_mem _ hq)
    by_cases hab : x.Above p.1
    · have hst : m.counted x (p :: flips) s
          = m.counted x flips (m.flip p.2 (decide (x.path = p.1.1)) s) := by
        rw [counted, foldl_cons, if_pos hab]
        rfl
      have hfl' : (m.flip p.2 (decide (x.path = p.1.1)) s).folders
          = ((toggle folders p.1).filter fun f => f.1 = x.path).card := by
        rw [flip_folders, hdlt]
        have hcr := card_filter_toggle folders p.1 fun f => f.1 = x.path
        by_cases hpar : x.path = p.1.1
        · rw [if_pos (decide_eq_true hpar)]
          rw [if_pos hpar.symm] at hcr
          exact shift_of_eq (by rw [hfl, hcr]) (hbd _)
        · rw [if_neg (by simpa using hpar), hfl]
          rw [if_neg (Ne.symm hpar)] at hcr
          exact_mod_cast hcr.symm
      have hbel' : (m.flip p.2 (decide (x.path = p.1.1)) s).foldersBelow
          = ((toggle folders p.1).filter fun f => x.path <+: f.1).card := by
        rw [flip_foldersBelow, hdlt]
        have hcr := card_filter_toggle folders p.1 fun f => x.path <+: f.1
        rw [if_pos (show x.path <+: p.1.1 from hab)] at hcr
        exact shift_of_eq (by rw [hbel, hcr]) (hbd _)
      rw [hst, ih all hall hsub' hmem' hrs hcm' hfl' hbel', flip_figures]
      rfl
    · have hst : m.counted x (p :: flips) s = m.counted x flips s := by
        rw [counted, foldl_cons, if_neg hab]
        rfl
      have hsm : ∀ P : Text × Text → Prop, ∀ [DecidablePred P], ¬P p.1 →
          (folders.filter P).card = ((toggle folders p.1).filter P).card := by
        intro P _ hP
        have hcr := card_filter_toggle folders p.1 P
        rw [if_neg hP] at hcr
        exact_mod_cast hcr.symm
      rw [hst, ih all hall hsub' hmem' hrs hcm'
        (hfl.trans (hsm _ fun h => hab (show x.path <+: p.1.1 from h ▸ prefix_refl _)))
        (hbel.trans (hsm _ hab))]
      rfl

theorem stamps_figures (m : Move) (leaf : Bool) (s : FolderStats) :
    (m.stamps leaf s).figures = s.figures := by
  unfold stamps
  split
  · cases leaf <;> rfl
  · rfl
  · rfl

end Move

/-! ### One object's change -/

/-- An object at one place changes its state; `others` are the rest of the objects. -/
structure Turn (b n : Text) (before after : Option StoredObject) (others : List StoredObject) :
    Prop where
  before : ∀ o ∈ before, o.bucket = b ∧ o.name = n
  after : ∀ o ∈ after, o.bucket = b ∧ o.name = n
  others : ∀ o ∈ others, ¬(o.bucket = b ∧ o.name = n)

theorem total_optional (f : StoredObject → Nat) (o : Option StoredObject)
    (others : List StoredObject) : total f (o.toList ++ others) = o.elim 0 f + total f others := by
  cases o <;> simp [total]

section

variable {b n : Text} {before after : Option StoredObject} {others : List StoredObject}
  {change : Change} {last x : Folder} {f : StoredObject → Nat}

/-- The change as the folders of the name see it. -/
def Turn.move (n : Text) (before after : Option StoredObject) (change : Change) : Move :=
  ⟨n, before.map .of, after.map .of, change⟩

section

variable {o : Option StoredObject} {P : StoredObject → Bool} (h : ∀ a ∈ o, P a = true)

include h

theorem isFile_eq :
    o.elim 0 (fun a => (P a && !a.isMarker).toNat) = (isFile (o.map .of)).toNat := by
  cases o with
  | none => rfl
  | some a => simp [h a rfl, isFile, StoredObject.isMarker]

theorem isMarker_eq :
    o.elim 0 (fun a => (P a && a.isMarker).toNat) = (isMarker (o.map .of)).toNat := by
  cases o with
  | none => rfl
  | some a => simp [h a rfl, isMarker, StoredObject.isMarker]

theorem fileBytes_eq :
    o.elim 0 (fun a => if P a && !a.isMarker then a.size else 0) = fileBytes (o.map .of) := by
  cases o with
  | none => rfl
  | some a =>
    have hsz : (Shape.of a).size = a.size := rfl
    simp only [Option.elim_some, h a rfl, Bool.true_and, Option.map_some, fileBytes,
      StoredObject.isMarker, hsz]
    cases (Shape.of a).marker <;> rfl

end

/-- A shift by what an object's share moved brings the total up to date. -/
theorem shift_total {value : Nat} (hval : value = total f (before.toList ++ others))
    (hft : total f (after.toList ++ others) < 2 ^ 64) {delta : Int}
    (hdlt : delta = (after.elim 0 f : Nat) - (before.elim 0 f : Nat)) :
    shift value delta = total f (after.toList ++ others) := by
  refine shift_of_eq ?_ hft
  rw [hval, total_optional, total_optional]
  omega

/-- The last folder of a name that ends in a slash is the name. -/
theorem path_eq_of_leaf (hx : x ∈ chain n) (hlf : slash ∉ n.drop x.path.length)
    (hend : endsInSlash n = true) : x.path = n := by
  obtain ⟨r, hr⟩ := (mem_chain.mp hx).2
  rw [← hr] at hlf
  rcases eq_nil_or_concat r with rfl | ⟨r, c, rfl⟩
  · rw [← hr, append_nil]
  exfalso
  obtain ⟨q, hq⟩ := endsInSlash_iff.mp hend
  rw [← hr, concat_eq_append, ← append_assoc] at hq
  obtain rfl := (cons.inj (append_inj_right' hq rfl)).1
  simp at hlf

theorem total_lt (hft : Fits objects)
    (h : (∀ o, f o ≤ 1) ∨ ∀ o, f o ≤ o.size) : total f objects < 2 ^ 64 := by
  rcases h with h | h
  · exact ((total_le fun o _ => h o).trans (by simp [total])).trans_lt hft.count
  · exact (total_le fun o _ => h o).trans_lt hft.bytes

/-- The share of a place in a folder of its name. -/
theorem Turn.within (h : ∀ o ∈ after, o.bucket = b ∧ o.name = n) (hx : x ∈ chain n) :
    ∀ o ∈ after, within b x.path o = true := fun o ho =>
  within_iff.mpr ⟨(h o ho).1, (h o ho).2 ▸ (mem_chain.mp hx).2⟩

theorem Turn.direct (h : ∀ o ∈ after, o.bucket = b ∧ o.name = n) (hx : x ∈ chain n) :
    ∀ o ∈ after, direct b x.path o = decide (slash ∉ n.drop x.path.length) := by
  intro o ho
  rw [Bool.eq_iff_iff, direct_iff, decide_eq_true_eq, Turn.within h hx o ho, (h o ho).2]
  simp

/-- What counts in neither state does not move. -/
theorem total_same (hb : ∀ o ∈ before, f o = 0) (ha : ∀ o ∈ after, f o = 0) :
    total f (before.toList ++ others) = total f (after.toList ++ others) := by
  have hzr : ∀ o : Option StoredObject, (∀ a ∈ o, f a = 0) → o.elim 0 f = 0 := by
    intro o ho
    cases o with
    | none => rfl
    | some a => exact ho a rfl
  rw [total_optional, total_optional, hzr before hb, hzr after ha]

/-- Whether a marker names the folder. -/
theorem Turn.placeholder (h : Turn b n before after others) (hx : x ∈ chain n) {s : Bool}
    (hs : s = (recount (before.toList ++ others) b x.path).placeholder) :
    (if slash ∉ n.drop x.path.length ∧ endsInSlash n = true then Storage.isMarker (after.map .of)
      else s) = (recount (after.toList ++ others) b x.path).placeholder := by
  have hany : ∀ o : Option StoredObject, (∀ a ∈ o, a.bucket = b ∧ a.name = n) →
      (recount (o.toList ++ others) b x.path).placeholder
        = ((n == x.path && isMarker (o.map .of)) ||
          others.any fun o => o.bucket == b && o.name == x.path && o.isMarker) := by
    intro o ho
    cases o with
    | none => simp [recount, isMarker]
    | some a =>
      simp [recount, (ho a rfl).1, (ho a rfl).2, isMarker, StoredObject.isMarker]
  rw [hany after h.after]
  split
  · next hlf =>
    have hpt := path_eq_of_leaf hx hlf.1 hlf.2
    have hot : (others.any fun o => o.bucket == b && o.name == x.path && o.isMarker) = false := by
      rw [any_eq_false]
      intro o ho hsm
      simp only [Bool.and_eq_true, beq_iff_eq] at hsm
      exact h.others o ho ⟨hsm.1.1, hsm.1.2.trans hpt⟩
    rw [hot, Bool.or_false, hpt, beq_self_eq_true, Bool.true_and]
  · next hlf =>
    -- A marker named as the folder would end in a slash and lie in it.
    have hnn : ∀ o : Option StoredObject, (∀ a ∈ o, a.bucket = b ∧ a.name = n) →
        (n == x.path && isMarker (o.map .of)) = false := by
      intro o ho
      rw [Bool.and_eq_false_iff, or_iff_not_imp_left]
      intro hpt
      have hpt : n = x.path := by simpa using hpt
      cases o with
      | none => rfl
      | some a =>
        refine Bool.eq_false_iff.mpr fun hmrk => hlf ⟨?_, ?_⟩
        · rw [hpt, drop_length]
          exact not_mem_nil
        · rw [← (ho a rfl).2]
          exact (Bool.and_eq_true_iff.mp hmrk).2
    rw [hs, hany before h.before, hnn before h.before, hnn after h.after]

/-- **The first pass** brings every figure but those of subfolders up to date. -/
theorem Turn.moved_figures (h : Turn b n before after others) (change : Change)
    (hft : Fits (after.toList ++ others)) (hlast : (chain n).getLast? = some last)
    (hx : x ∈ chain n) (hs : s.figures = recount (before.toList ++ others) b x.path) :
    ((move n before after change).moved last x s).figures
      = { recount (after.toList ++ others) b x.path with
          folders := s.folders, foldersBelow := s.foldersBelow } := by
  have hlf : x = last ↔ slash ∉ n.drop x.path.length := by
    rw [← getLast_chain hx, hlast, Option.some.injEq, eq_comm]
  have hb := Turn.within h.before hx
  have ha := Turn.within h.after hx
  have hone : ∀ c : Bool, c.toNat ≤ 1 := by decide
  have hsz : ∀ (c : Bool) (k : Nat), (if c then k else 0) ≤ k := by
    intro c k
    cases c <;> simp
  have hobj : shift s.objects (move n before after change).objects
      = (recount (after.toList ++ others) b x.path).objects :=
    shift_total (congrArg Figures.objects hs) (total_lt hft (.inl fun _ => hone _))
      (by rw [isFile_eq ha, isFile_eq hb]; rfl)
  have hbyt : shift s.bytes (move n before after change).bytes
      = (recount (after.toList ++ others) b x.path).bytes :=
    shift_total (congrArg Figures.bytes hs) (total_lt hft (.inr fun _ => hsz _ _))
      (by rw [fileBytes_eq ha, fileBytes_eq hb]; rfl)
  have hmr : shift s.markers (move n before after change).markers
      = (recount (after.toList ++ others) b x.path).markers :=
    shift_total (congrArg Figures.markers hs) (total_lt hft (.inl fun _ => hone _))
      (by rw [isMarker_eq ha, isMarker_eq hb]; rfl)
  have hph := h.placeholder hx (congrArg Figures.placeholder hs)
  rw [Move.moved, Move.stamps_figures]
  by_cases hlast : x = last
  · have hdb : ∀ o ∈ before, Storage.direct b x.path o = true := fun o ho =>
      (Turn.direct h.before hx o ho).trans (decide_eq_true (hlf.mp hlast))
    have hda : ∀ o ∈ after, Storage.direct b x.path o = true := fun o ho =>
      (Turn.direct h.after hx o ho).trans (decide_eq_true (hlf.mp hlast))
    have hfls : shift s.directFiles (move n before after change).objects
        = (recount (after.toList ++ others) b x.path).directFiles :=
      shift_total (congrArg Figures.directFiles hs) (total_lt hft (.inl fun _ => hone _))
        (by rw [isFile_eq hda, isFile_eq hdb]; rfl)
    have hdir : shift s.directBytes (move n before after change).bytes
        = (recount (after.toList ++ others) b x.path).directBytes :=
      shift_total (congrArg Figures.directBytes hs) (total_lt hft (.inr fun _ => hsz _ _))
        (by rw [fileBytes_eq hda, fileBytes_eq hdb]; rfl)
    rw [decide_eq_true hlast]
    simp only [hlf.mp hlast, not_false_eq_true, true_and] at hph
    simp only [Move.counts, if_true, FolderStats.figures, hobj, hbyt, hmr, hfls, hdir, ← hph]
    rfl
  · have hdb : ∀ o ∈ before, Storage.direct b x.path o = false := fun o ho =>
      (Turn.direct h.before hx o ho).trans (decide_eq_false (mt hlf.mpr hlast))
    have hda : ∀ o ∈ after, Storage.direct b x.path o = false := fun o ho =>
      (Turn.direct h.after hx o ho).trans (decide_eq_false (mt hlf.mpr hlast))
    have hfls : s.directFiles = (recount (after.toList ++ others) b x.path).directFiles :=
      (congrArg Figures.directFiles hs).trans
        (total_same (fun o ho => by simp [hdb o ho]) fun o ho => by simp [hda o ho])
    have hdir : s.directBytes = (recount (after.toList ++ others) b x.path).directBytes :=
      (congrArg Figures.directBytes hs).trans
        (total_same (fun o ho => by simp [hdb o ho]) fun o ho => by simp [hda o ho])
    rw [decide_eq_false hlast]
    rw [if_neg fun hbt => hlast (hlf.mpr hbt.1)] at hph
    simp [Move.counts, FolderStats.figures, hobj, hbyt, hmr, ← hfls, ← hdir, ← hph]

/-- Where the object is not, its change is not seen. -/
theorem Turn.recount_same (others : List StoredObject)
    (hb : ∀ o ∈ before, Storage.within c p o = false)
    (ha : ∀ o ∈ after, Storage.within c p o = false) :
    recount (before.toList ++ others) c p = recount (after.toList ++ others) c p ∧
      ((∃ o ∈ before.toList ++ others, Storage.within c p o = true) ↔
        ∃ o ∈ after.toList ++ others, Storage.within c p o = true) := by
  have hsk : ∀ o : Option StoredObject, (∀ a ∈ o, Storage.within c p a = false) →
      recount (o.toList ++ others) c p = recount others c p ∧
        ((∃ a ∈ o.toList ++ others, Storage.within c p a = true) ↔
          ∃ a ∈ others, Storage.within c p a = true) := by
    intro o ho
    cases o with
    | none => simp
    | some a =>
      refine ⟨recount_skip (ho a rfl) others, ?_⟩
      simp [ho a rfl]
  exact ⟨(hsk before hb).1.trans (hsk after ha).1.symm, (hsk before hb).2.trans
    (hsk after ha).2.symm⟩

/-- The folders before and after a change fit together. -/
theorem Turn.folders_fit (h : Turn b n before after others) (hb : Fits (before.toList ++ others))
    (ha : Fits (after.toList ++ others)) :
    (folderSet (before.toList ++ others) b ∪ folderSet (after.toList ++ others) b).card < 2 ^ 64 :=
      by
  have hsub : ∀ {o o' : Option StoredObject}, (∀ a ∈ o, ∃ a' ∈ o', a.bucket = a'.bucket ∧ a.name = a'.name) →
      folderSet (o.toList ++ others) b ⊆ folderSet (o'.toList ++ others) b := by
    intro o o' ho f hf
    rw [mem_folderSet] at hf ⊢
    obtain ⟨hvld, a, ha, hwi⟩ := hf
    rcases mem_append.mp ha with ha | ha
    · obtain ⟨a', ha', hbkt, hname⟩ := ho a (Option.mem_toList.mp ha)
      refine ⟨hvld, a', mem_append_left _ (Option.mem_toList.mpr ha'), ?_⟩
      rwa [within_iff, ← hbkt, ← hname, ← within_iff]
    · exact ⟨hvld, a, mem_append_right _ ha, hwi⟩
  cases after with
  | none =>
    rw [Finset.union_eq_left.mpr (hsub (by simp))]
    exact hb.folders b
  | some a =>
    have hsm : ∀ o ∈ before, ∃ a' ∈ some a, o.bucket = a'.bucket ∧ o.name = a'.name := by
      intro o ho
      exact ⟨a, rfl, (h.before o ho).1.trans (h.after a rfl).1.symm,
        (h.before o ho).2.trans (h.after a rfl).2.symm⟩
    rw [Finset.union_eq_right.mpr (hsub hsm)]
    exact ha.folders b

theorem Move.map_fst_flipped (m : Move) (last : Folder) (g : Folder → FolderStats) :
    (m.flipped last g).map fst = (chainFrom [] [] m.name).filter fun f =>
      (g (some f)).present != (m.moved last (some f) (g (some f))).present := by
  rw [Move.flipped]
  induction chainFrom [] [] m.name with
  | nil => rfl
  | cons f fs ih =>
    rw [filterMap_cons, filter_cons]
    by_cases hf : (g (some f)).present = (m.moved last (some f) (g (some f))).present
    · simp only [hf, ne_eq, not_true_eq_false, if_false, bne_self_eq_false, Bool.false_eq_true, ih]
    · simp only [ne_eq, hf, not_false_eq_true, if_true, map_cons, ih, bne_iff_ne]

section Turned

variable (h : Turn b n before after others)
  (hbefore : Fits (before.toList ++ others)) (hafter : Fits (after.toList ++ others))
  (hlast : (chain n).getLast? = some last) {g : Folder → FolderStats}
  (hg : ∀ f ∈ chain n, (g f).figures = recount (before.toList ++ others) b f.path)

include h hbefore hafter hlast hg in
/-- A folder of the name after all three passes. -/
theorem Turn.counted_figures (hx : x ∈ chain n) : let m := move n before after change
    (m.counted x (m.flipped last g) (m.moved last x (g x))).figures
      = recount (after.toList ++ others) b x.path := by
  intro m
  have hmov : ∀ f ∈ chain n, (m.moved last f (g f)).figures
      = { recount (after.toList ++ others) b f.path with
          folders := (g f).folders, foldersBelow := (g f).foldersBelow } :=
    fun f hf => h.moved_figures change hafter hlast hf (hg f hf)
  have hfol : ∀ {f}, f ∈ chainFrom [] [] n → (some f : Folder) ∈ chain n := fun hf =>
    mem_cons_of_mem _ (mem_map_of_mem hf)
  have hwas : ∀ f ∈ chainFrom [] [] n,
      (g (some f)).present = true ↔ f ∈ folderSet (before.toList ++ others) b := by
    intro f hf
    rw [mem_folderSet, and_iff_right (mem_chain.mp (hfol hf)).1]
    have hfig := hg _ (hfol hf)
    exact present_iff (congrArg Figures.objects hfig) (congrArg Figures.markers hfig)
  have his : ∀ f ∈ chainFrom [] [] n,
      (m.moved last (some f) (g (some f))).present = true ↔ f ∈ folderSet (after.toList ++ others) b := by
    intro f hf
    rw [mem_folderSet, and_iff_right (mem_chain.mp (hfol hf)).1]
    have hfig := hmov _ (hfol hf)
    exact present_iff (congrArg Figures.objects hfig) (congrArg Figures.markers hfig)
  have hmem : ∀ p ∈ m.flipped last g, p.1 ∈ chainFrom [] [] n ∧
      (g (some p.1)).present ≠ p.2 ∧ (m.moved last (some p.1) (g (some p.1))).present = p.2 := by
    intro p hp
    obtain ⟨f, hf, hfl⟩ := mem_filterMap.mp hp
    split at hfl
    · next hne =>
      obtain rfl := Option.some.inj hfl
      exact ⟨hf, hne, rfl⟩
    · cases hfl
  have hnd : ((m.flipped last g).map fst).Nodup := by
    rw [m.map_fst_flipped]
    refine List.Nodup.filter _ ?_
    have := (nodup_cons.mp (chain_nodup n)).2
    exact this.of_map _
  have htog : ((m.flipped last g).map fst).foldl toggle (folderSet (before.toList ++ others) b)
      = folderSet (after.toList ++ others) b := by
    ext f
    rw [mem_foldl_toggle hnd, m.map_fst_flipped, mem_filter, bne_iff_ne]
    by_cases hf : f ∈ chainFrom [] [] n
    · rw [← hwas f hf, ← his f hf]
      simp only [show f ∈ chainFrom [] [] m.name from hf, true_and]
      cases (g (some f)).present <;> cases (m.moved last (some f) (g (some f))).present <;> simp
    · rw [show f ∈ chainFrom [] [] m.name ↔ f ∈ chainFrom [] [] n from Iff.rfl]
      simp only [hf, false_and, not_false_eq_true, iff_true]
      have hout : ∀ o : Option StoredObject, (∀ a ∈ o, a.bucket = b ∧ a.name = n) →
          Folder.Valid (some f) → ∀ a ∈ o, Storage.within b (Folder.path (some f)) a = false := by
        intro o ho hvld a ha
        rw [Bool.eq_false_iff]
        intro hwi
        have hpt := (within_iff.mp hwi).2
        rw [(ho a ha).2] at hpt
        exact hf ((mem_chainFrom (.inl rfl) not_mem_nil f).mpr ⟨hvld, nil_prefix, hpt⟩)
      rw [mem_folderSet, mem_folderSet]
      exact and_congr_right fun hvld =>
        (recount_same others (hout before h.before hvld) (hout after h.after hvld)).2
  have hfig := hmov x hx
  rw [m.counted_figures x _ (h.folders_fit hbefore hafter) Finset.subset_union_left ?_ hnd ?_
    ((congrArg Figures.folders hfig).trans (congrArg Figures.folders (hg x hx)))
    ((congrArg Figures.foldersBelow hfig).trans (congrArg Figures.foldersBelow (hg x hx))),
    htog, hfig]
  · rfl
  · intro p hp
    obtain ⟨hf, hwas', his'⟩ := hmem p hp
    cases hcm : p.2 with
    | true =>
      exact Finset.mem_union_right _ ((his _ hf).mp (his'.trans hcm))
    | false =>
      refine Finset.mem_union_left _ ((hwas _ hf).mp ?_)
      rw [hcm] at hwas'
      exact Bool.eq_true_of_not_eq_false hwas'
  · intro p hp
    obtain ⟨hf, hwas', -⟩ := hmem p hp
    rw [← hwas _ hf]
    cases hcm : p.2 with
    | true | false =>
      rw [hcm] at hwas'
      simpa using hwas'

theorem FolderIndex.entry_apply (index : FolderIndex) (b n : Text) (before after : Option Shape)
    (change : Change) (c : Text) (x : Folder) :
    let moved := (⟨n, before, after, change⟩ : Move).apply (index.buckets.getD b {})
    (index.apply b n before after change).entry c x
      = if b = c then if moved.root.present then moved.folder x else none else index.entry c x := by
  intro moved
  have hmov : (⟨n, before, after, change⟩ : Move).apply (index.buckets.getD b {}) = moved := rfl
  simp only [entry, FolderIndex.apply, hmov]
  by_cases hbc : b = c
  · subst hbc
    split <;> simp
  · split <;> simp [ExtTreeMap.getElem?_insert, ExtTreeMap.getElem?_erase, hbc]

theorem FolderIndex.getD_folder (index : FolderIndex) (b : Text) (x : Folder) :
    ((index.buckets.getD b {}).folder x).getD {} = (index.entry b x).getD {} := by
  simp only [FolderIndex.entry, ExtTreeMap.getD_eq_getD_getElem?]
  cases index.buckets[b]? with
  | none => cases x <;> simp [BucketIndex.folder]
  | some bucket => simp

theorem FolderIndex.entry_of_ne_root (index : FolderIndex) {x : Folder}
    (hx : x ≠ none) : index.entry b x = (index.buckets.getD b {}).folder x := by
  simp only [FolderIndex.entry, ExtTreeMap.getD_eq_getD_getElem?]
  cases index.buckets[b]? with
  | none => cases x <;> simp_all [BucketIndex.folder]
  | some bucket => simp

/-- An entry shows of a folder what a recount of the objects would. -/
def Shows (objects : List StoredObject) (c : Text) (x : Folder) (entry : Option FolderStats) :
    Prop :=
  (entry.getD {}).figures = recount objects c x.path ∧
    (entry.isSome = true ↔ ∃ o ∈ objects, Storage.within c x.path o = true)

theorem shows_none (h : ∀ o ∈ objects, Storage.within c x.path o = false) :
    Shows objects c x none := by
  refine ⟨(recount_empty h).symm, iff_of_false (by simp) ?_⟩
  rintro ⟨o, ho, hw⟩
  rw [h o ho] at hw
  cases hw

/-- A folder that is not on the way to the name keeps its entry. -/
theorem Turn.shows_same (h : Turn b n before after others) (hx : x.Valid) (hc : b = c → x ∉ chain n)
    {entry : Option FolderStats} (he : Shows (before.toList ++ others) c x entry) :
    Shows (after.toList ++ others) c x entry := by
  have hout : ∀ o : Option StoredObject, (∀ a ∈ o, a.bucket = b ∧ a.name = n) →
      ∀ a ∈ o, Storage.within c x.path a = false := by
    intro o ho a ha
    rw [Bool.eq_false_iff]
    intro hwi
    obtain ⟨hbkt, hpt⟩ := within_iff.mp hwi
    exact hc ((ho a ha).1.symm.trans hbkt) (mem_chain.mpr ⟨hx, (ho a ha).2 ▸ hpt⟩)
  have hsm := Turn.recount_same others (hout before h.before) (hout after h.after)
  rwa [Shows, hsm.1, hsm.2] at he

include h hbefore hafter hlast hg in
/-- A folder on the way to the name, as the move leaves it. -/
theorem Turn.shows_moved
    (hkp : ∃ o ∈ after.toList ++ others, Storage.within b [] o = true) (hx : x ∈ chain n) :
    let m := move n before after change
    Shows (after.toList ++ others) b x
      (if x ≠ none ∧ (m.moved last x (g x)).present = false then none
      else some (m.counted x (m.flipped last g) (m.moved last x (g x)))) := by
  intro m
  have hfig := h.moved_figures change hafter hlast hx (hg x hx)
  have hprs : (m.moved last x (g x)).present = true ↔
      ∃ o ∈ after.toList ++ others, Storage.within b x.path o = true :=
    present_iff (congrArg Figures.objects hfig) (congrArg Figures.markers hfig)
  by_cases hgn : x ≠ none ∧ (m.moved last x (g x)).present = false
  · have hnn := mt hprs.mpr (by simp [hgn.2])
    rw [if_pos hgn]
    exact shows_none fun o ho => Bool.eq_false_iff.mpr fun hw => hnn ⟨o, ho, hw⟩
  · rw [if_neg hgn]
    refine ⟨h.counted_figures hbefore hafter hlast hg hx, iff_of_true rfl ?_⟩
    cases x with
    | none => exact hkp
    | some f =>
      refine hprs.mp (Bool.eq_true_of_not_eq_false fun hp => hgn ⟨?_, hp⟩)
      exact Option.some_ne_none f

end Turned

/-- **One object's change keeps the index exact.** -/
theorem Exact.apply (hex : Exact (before.toList ++ others) index)
    (h : Turn b n before after others) (hbefore : Fits (before.toList ++ others))
    (hafter : Fits (after.toList ++ others)) (change : Change) :
    Exact (after.toList ++ others) (index.apply b n (before.map .of) (after.map .of) change) := by
  obtain ⟨last, hlast⟩ := exists_last_chain n
  have hrt : (none) ∈ chain n := mem_cons_self
  let g : Folder → FolderStats := fun f => ((index.buckets.getD b {}).folder f).getD {}
  have hg : ∀ f ∈ chain n, (g f).figures = recount (before.toList ++ others) b f.path := by
    intro f hf
    rw [show g f = _ from index.getD_folder b f]
    exact hex.figures b f (mem_chain.mp hf).1
  let m := Turn.move n before after change
  obtain ⟨moved, hmov⟩ : ∃ moved, moved = m.apply (index.buckets.getD b {}) := ⟨_, rfl⟩
  have hapl : ∀ c x, (index.apply b n (before.map .of) (after.map .of) change).entry c x
      = if b = c then if moved.root.present then moved.folder x else none else index.entry c x := by
    intro c x
    rw [hmov]
    exact FolderIndex.entry_apply index b n _ _ change c x
  have hfol : ∀ x, moved.folder x = if x ∈ chain n then
      if x ≠ none ∧ (m.moved last x (g x)).present = false then none
      else some (m.counted x (m.flipped last g) (m.moved last x (g x)))
      else (index.buckets.getD b {}).folder x := by
    intro x
    rw [hmov]
    exact m.folder_apply _ hlast (fun f _ => rfl) x
  -- a folder outside the chain is not the root, so its entry is the one it had
  have hoth : ∀ x, x ∉ chain n → moved.folder x = index.entry b x := by
    intro x hx
    rw [hfol, if_neg hx, index.entry_of_ne_root fun hnn : x = none => hx (hnn ▸ hrt)]
  have hkp : moved.root.present = true ↔ ∃ o ∈ after.toList ++ others, within b [] o = true := by
    have hfig : (m.counted none (m.flipped last g) (m.moved last none (g none))).figures
        = recount (after.toList ++ others) b [] := h.counted_figures hbefore hafter hlast hg hrt
    have hsa : some moved.root
        = some (m.counted none (m.flipped last g) (m.moved last none (g none))) := by
      have := hfol none
      rwa [if_pos hrt] at this
    rw [Option.some.inj hsa]
    exact present_iff (congrArg Figures.objects hfig) (congrArg Figures.markers hfig)
  have hshs : ∀ c (x : Folder), x.Valid → Shows (after.toList ++ others) c x
      ((index.apply b n (before.map .of) (after.map .of) change).entry c x) := by
    intro c x hvld
    have hbef' : Shows (before.toList ++ others) c x (index.entry c x) :=
      ⟨hex.figures c x hvld, hex.present c x hvld⟩
    rw [hapl]
    by_cases hbc : b = c
    · subst hbc
      rw [if_pos rfl]
      by_cases hemp : moved.root.present = true
      · rw [if_pos hemp]
        by_cases hx : x ∈ chain n
        · rw [hfol x, if_pos hx]
          exact h.shows_moved hbefore hafter hlast hg (hkp.mp hemp) hx
        · rw [hoth x hx]
          exact h.shows_same hvld (fun _ => hx) hbef'
      · rw [if_neg hemp]
        refine shows_none fun o ho => Bool.eq_false_iff.mpr fun hw => hemp (hkp.mpr ⟨o, ho, ?_⟩)
        exact within_iff.mpr ⟨(within_iff.mp hw).1, nil_prefix⟩
    · rw [if_neg hbc]
      exact h.shows_same hvld (fun hc => absurd hc hbc) hbef'
  refine ⟨fun c x hx => (hshs c x hx).1, fun c x hx => (hshs c x hx).2, ?_⟩
  intro c x hsm
  by_cases hx : x ∈ chain n
  · exact (mem_chain.mp hx).1
  rw [hapl] at hsm
  split at hsm
  · next hbc =>
    split at hsm
    · rw [hoth x hx] at hsm
      exact hex.valid b x hsm
    · cases hsm
  · exact hex.valid c x hsm

/-! ### Other lists of the same objects -/

theorem folderSet_congr {xs ys : List StoredObject} (h : ∀ o, o ∈ xs ↔ o ∈ ys) (b : Text) :
    folderSet xs b = folderSet ys b := by
  ext f
  simp [mem_folderSet, h]

theorem Exact.perm {xs ys : List StoredObject} (h : Exact xs index) (hpr : xs.Perm ys) :
    Exact ys index := by
  have hmem : ∀ o, o ∈ xs ↔ o ∈ ys := fun o => hpr.mem_iff
  have htot : ∀ f, total f xs = total f ys := fun f => (hpr.map f).sum_eq
  have hany : ∀ P : StoredObject → Bool, xs.any P = ys.any P := fun P => by
    rw [Bool.eq_iff_iff]
    simp [hmem]
  have hrct : ∀ b p, recount xs b p = recount ys b p := by
    simp [recount, htot, folderSet_congr hmem, hany]
  refine ⟨?_, ?_, h.valid⟩
  · intro b x hx
    rw [← hrct]
    exact h.figures b x hx
  · intro b x hx
    rw [h.present b x hx]
    simp [hmem]

theorem Fits.of_subperm {xs ys : List StoredObject} (h : Fits ys) (hsub : xs.Subperm ys) :
    Fits xs := by
  obtain ⟨zs, hpr, hsub⟩ := hsub
  refine ⟨?_, ?_, ?_⟩
  · rw [total, ← (hpr.map _).sum_eq]
    exact ((hsub.map _).sum_le_sum fun _ _ => Nat.zero_le _).trans_lt h.bytes
  · rw [← hpr.length_eq]
    exact hsub.length_le.trans_lt h.count
  intro b
  refine (Finset.card_le_card ?_).trans_lt (h.folders b)
  intro f hf
  rw [mem_folderSet] at hf ⊢
  obtain ⟨hvld, o, ho, hw⟩ := hf
  exact ⟨hvld, o, hsub.subset (hpr.mem_iff.mpr ho), hw⟩

end

end Firenook.Storage
