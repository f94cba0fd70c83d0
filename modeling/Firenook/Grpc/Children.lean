import Firenook.Disk.Cursor
import Firenook.Grpc.ListDocuments

/-!
# Children — listings that skip subtrees

`direct_collection_ids` and `direct_children` walk a key cursor and leave each subtree in one seek,
to the byte successor of its path. A sibling such as `abc-2` sorts between `abc` and `abc/…`, so a
child, its siblings and its subtree come out of order.

The walk is `visit`; what holds of the keys below the floor at each of its steps holds of all keys
when it ends, and it ends (`visit_spec`). Both listings are what a scan of all keys gives, for
every cursor that keeps to its floor (`collectionIds_spec`, `children_spec`), so for those of both
backends (`direct_listings`).
-/

namespace Firenook.Grpc

open List Std Ordering LawfulEqCmp TransCmp ExtTreeMap DocumentKey ChangeLog LexOrder Bytes Rules

variable {q : Text} {present : Bool} {path tail rest child : Text} {own : Bool}
  {parent : Option Str} {k j : DocumentKey}

/-! ### The walks -/

/-- Enters the collection of a key, and skips the collection. -/
def enterCollection (start : Text) (key : DocumentKey) (ids : Map Text Unit) :
    Map Text Unit × Option Text :=
  let id := (segments (key.path.bytes.drop start.length)).headD []
  if id.isEmpty then (ids, none)
  else (ids.insert id (), some (successorPath (start ++ id ++ [slash])))

/-- `direct_collection_ids`, over a cursor opened at the prefix. -/
def directCollectionIds {σ : Type} (c : Cursor σ) (fuel : Nat) (s : σ) (parent : Option Str) :
    Option (List Text) :=
  (visit c (enterCollection (listStart parent none)) fuel s ∅).map fun ids => ids.keys

/-! ### What a walk has seen -/

section Walk

variable {σ α : Type} {c : Cursor σ} {enter : DocumentKey → α → α × Option Text}
  {visible : List DocumentKey} {start : Text} {R : σ → Text → Prop}

def keysFrom (visible : List DocumentKey) (floor : Text) : Nat :=
  visible.countP fun k => (compare floor k.path.bytes).isLE

theorem keysFrom_lt {floor : Text} (hk : k ∈ visible)
    (hflr : (compare floor k.path.bytes).isLE) (hpt : (compare (after k) path).isLE) :
    keysFrom visible path < keysFrom visible floor := by
  have hlt := (isLE_after_iff k path).mp hpt
  have hle : (compare floor path).isLE :=
    isLE_of_eq_lt (lt_of_isLE_of_lt hflr hlt)
  obtain ⟨before, later, rfl⟩ := append_of_mem hk
  have hmn : ∀ l : List DocumentKey, keysFrom l path ≤ keysFrom l floor := fun l =>
    countP_mono_left fun j _ hj => isLE_trans hle hj
  have hbef := hmn before
  have hlat := hmn later
  have hnot : (compare path k.path.bytes).isLE = false := by
    rw [OrientedCmp.gt_of_lt hlt]
    rfl
  simp only [keysFrom, countP_append, countP_cons, hflr, hnot] at hbef hlat ⊢
  simp only [if_true, Bool.false_eq_true, if_false]
  omega

/-- What is kept of the keys below a floor is kept of those below the floor a key leads to. -/
def Keeps (start : Text) (Inv : Text → α → Prop) (k : DocumentKey) : α × Option Text → Prop
  | (collected, none) => Inv (after k) collected
  | (collected, some path) =>
    start <+: path ∧ compare k.path.bytes path = .lt ∧ Inv path collected

/-- **A walk ends, and what it keeps of the keys below its floor it has of all keys.** -/
theorem visit_spec (hc : Tracks c visible start R) (hsorted : Ascending visible)
    {Inv : Text → α → Prop}
    (hst : ∀ floor k collected, firstFrom visible floor = some k → Inv floor collected →
      Keeps start Inv k (enter k collected)) :
    ∀ {fuel s floor collected}, R s floor → Inv floor collected →
      keysFrom visible floor < fuel → ∃ floor' collected',
        visit c enter fuel s collected = some collected' ∧ Inv floor' collected' ∧
          firstFrom visible floor' = none := by
  intro fuel
  induction fuel with
  | zero => exact fun _ _ hfl => absurd hfl (Nat.not_lt_zero _)
  | succ fuel ih =>
    intro s floor collected hs hinv hfl
    obtain ⟨hkey, hs'⟩ := hc.next hs
    rw [visit]
    cases hfirst : firstFrom visible floor with
    | none =>
      rw [hfirst] at hkey
      refine ⟨floor, collected, ?_, hinv, hfirst⟩
      rw [show c.next s = (none, (c.next s).2) from Prod.ext hkey rfl]
    | some k =>
      rw [hfirst] at hkey hs'
      rw [show c.next s = (some k, (c.next s).2) from Prod.ext hkey rfl]
      obtain ⟨hk, hflr, -⟩ := firstFrom_eq_some hsorted hfirst
      have hnx := hst floor k collected hfirst hinv
      dsimp only
      generalize enter k collected = entered at hnx
      obtain ⟨collected', target⟩ := entered
      cases target with
      | none =>
        refine ih hs' hnx ?_
        have hsl : (compare (after k) (after k)).isLE :=
          isLE_of_eq_eq ReflCmp.compare_self
        exact Nat.lt_of_lt_of_le (keysFrom_lt hk hflr hsl) (Nat.le_of_lt_succ hfl)
      | some path =>
        obtain ⟨hbeg, hlt, hinv'⟩ := hnx
        have hpt := (isLE_after_iff k path).mpr hlt
        refine ih (hc.seek hs' hbeg hpt) hinv' ?_
        exact Nat.lt_of_lt_of_le (keysFrom_lt hk hflr hpt) (Nat.le_of_lt_succ hfl)

end Walk

/-! ### Leaving a subtree -/

theorem successor_append {b : UInt8} (hb : b ≠ 255) (q : List UInt8) :
    successor (q ++ [b]) = some (q ++ [b + 1]) := by
  induction q with
  | nil => simp [successor, hb]
  | cons c q ih => rw [cons_append, successor, ih, cons_append]

theorem successorPath_slash (h : Utf8.valid (q ++ slash :: tail) = true) :
    successorPath (q ++ [slash]) = q ++ [slash + 1] := by
  obtain ⟨hq, -⟩ := (Utf8.valid_append_cons (by decide) q tail).mp h
  have hvld : Utf8.valid (q ++ [slash + 1]) = true := Utf8.valid_append hq (by decide)
  rw [successorPath, successor_append (by decide) q, Option.getD_some, if_pos hvld]

section Skipping

variable {visible : List DocumentKey} {floor : Text} {j k : DocumentKey}

section

variable (hsorted : Ascending visible) (hfirst : firstFrom visible floor = some k)

include hsorted hfirst

/-- Between a floor and what follows its first key there is only that key. -/
theorem before_after (hj : j ∈ visible) (hbef : ¬(compare (after k) j.path.bytes).isLE) :
    ¬(compare floor j.path.bytes).isLE ∨ j.path.bytes = k.path.bytes := by
  refine or_iff_not_imp_left.mpr fun hflr => ?_
  obtain ⟨-, -, hlst⟩ := firstFrom_eq_some hsorted hfirst
  have hle := hlst j hj (not_not.mp hflr)
  rw [isLE_after_iff] at hbef
  have heq := (isLE_iff_eq_lt_or_eq_eq.mp hle).resolve_left hbef
  exact (eq_of_compare heq).symm

/-- Between a floor and what follows the subtree of its first key there is only the subtree. -/
theorem before_successor (hk : k.path.bytes = q ++ slash :: tail) (hj : j ∈ visible)
    (hbef : ¬(compare (q ++ [slash + 1]) j.path.bytes).isLE) :
    ¬(compare floor j.path.bytes).isLE ∨ ∃ tail', j.path.bytes = q ++ slash :: tail' := by
  refine or_iff_not_imp_left.mpr fun hflr => ?_
  obtain ⟨-, -, hlst⟩ := firstFrom_eq_some hsorted hfirst
  have hle := hlst j hj (not_not.mp hflr)
  have hq : (compare (q ++ [slash]) k.path.bytes).isLE :=
    isLE_of_isPrefix ⟨tail, by rw [hk, append_assoc, singleton_append]⟩
  have hlt : compare j.path.bytes (q ++ [slash + 1]) = .lt := by
    rw [Bool.not_eq_true, isLE_eq_false] at hbef
    exact OrientedCmp.lt_of_gt hbef
  obtain ⟨tail', htl⟩ := (between_successor_iff (successor_append (by decide) q) _).mp
    ⟨isLE_trans hq hle, hlt⟩
  exact ⟨tail', by rw [← htl, append_assoc, singleton_append]⟩

end

theorem lt_successor (hk : k.path.bytes = q ++ slash :: tail) :
    compare k.path.bytes (q ++ [slash + 1]) = .lt :=
  ((between_successor_iff (successor_append (by decide) q) _).mpr
    ⟨tail, by rw [hk, append_assoc, singleton_append]⟩).2

end Skipping

/-! ### Children of a path -/

theorem segments_append (a b : Text) : segments (a ++ slash :: b) = segments a ++ segments b :=
  splitOn_append_cons_self a b

theorem segments_ne_nil (a : Text) : segments a ≠ [] := splitOn_ne_nil slash a

theorem join_segments (a : Text) : join (segments a) = a := intercalate_splitOn slash

theorem join_append {a b : List Text} (ha : a ≠ []) (hb : b ≠ []) :
    join (a ++ b) = join a ++ slash :: join b := by
  induction a with
  | nil => exact absurd rfl ha
  | cons part parts ih =>
    obtain ⟨next, more, rfl⟩ := exists_cons_of_ne_nil hb
    cases parts with
    | nil => simp [join]
    | cons part' parts =>
      have ih := ih (cons_ne_nil _ _)
      simp only [join, cons_append, intercalate_cons_cons] at ih ⊢
      rw [ih]
      simp

/-- A path is another's own, or lies below it. -/
def Reaches (path child : Text) : Bool → Prop
  | true => path = child
  | false => ∃ tail, path = child ++ slash :: tail

/-- The child of a path is its first segments; the path is the child's own or lies below it. -/
theorem childOf_eq_some {depth : Nat} (hdep : 0 < depth) : childOf depth rest = some (child, own) ↔
      (segments child).length = depth ∧ [] ∉ segments child ∧ Reaches rest child own := by
  constructor
  · intro h
    unfold childOf at h
    dsimp only at h
    split at h
    · cases h
    next hpts =>
    push Not at hpts
    obtain ⟨hlen, hfl⟩ := hpts
    obtain ⟨rfl, rfl⟩ := Prod.mk.inj (Option.some.inj h)
    have hne : (segments rest).take depth ≠ [] := by
      rw [Ne, take_eq_nil_iff, not_or]
      exact ⟨hdep.ne', segments_ne_nil rest⟩
    have hsg : segments (join ((segments rest).take depth)) = (segments rest).take depth :=
      splitOn_intercalate slash
        (fun part hpr => slash_notMem_segments rest part (mem_of_mem_take hpr)) hne
    rw [hsg]
    refine ⟨length_take_of_le hlen, fun hnil => hfl ?_, ?_⟩
    · exact any_eq_true.mpr ⟨[], hnil, rfl⟩
    by_cases hown : (segments rest).length = depth
    · rw [decide_eq_true hown, take_of_length_le hown.le]
      exact (join_segments rest).symm
    rw [decide_eq_false hown]
    have hmr : (segments rest).drop depth ≠ [] := by
      rw [Ne, drop_eq_nil_iff]
      omega
    refine ⟨join ((segments rest).drop depth), ?_⟩
    rw [← join_append hne hmr, take_append_drop, join_segments]
  · rintro ⟨rfl, hfl, hrch⟩
    have hany : (segments child).any List.isEmpty = false := by
      rw [any_eq_false]
      intro part hpr hemp
      rw [List.isEmpty_iff] at hemp
      exact hfl (hemp ▸ hpr)
    cases own with
    | true =>
      obtain rfl : rest = child := hrch
      simp [childOf, hany, join_segments]
    | false =>
      obtain ⟨tail, rfl⟩ := hrch
      have hmr : 0 < (segments tail).length := length_pos_of_ne_nil (segments_ne_nil tail)
      simp [childOf, segments_append, hany, join_segments, hmr.ne']

/-! ### The listing of children -/

section Children

variable {visible : List DocumentKey} {start : Text} {depth : Nat}

def keyChild (depth : Nat) (start : Text) (k : DocumentKey) : Option (Text × Bool) :=
  childOf depth (k.path.bytes.drop start.length)

/-- What has been listed once the keys below a floor are passed: each entry is the child of some
key, and each key's child is entered, as present when the key is the child's own. -/
structure Listed (visible : List DocumentKey) (start : Text) (depth : Nat) (floor : Text)
    (children : Map Text Bool) : Prop where
  sound : ∀ {child own}, children[child]? = some own →
    ∃ k ∈ visible, keyChild depth start k = some (child, own)
  seen : ∀ {k child own}, k ∈ visible → ¬(compare floor k.path.bytes).isLE →
    keyChild depth start k = some (child, own) →
      ∃ present, children[child]? = some present ∧ (own = true → present = true)

theorem listed_start (hvis : ∀ k ∈ visible, start <+: k.path.bytes) :
    Listed visible start depth start ∅ where
  sound h := by
    cases h
  seen hk hbef := absurd (isLE_of_isPrefix (hvis _ hk)) hbef

section

variable {floor floor' : Text} {children : Map Text Bool}

/-- A floor moves up past keys of one child once the child is entered. -/
theorem Listed.insert (h : Listed visible start depth floor children)
    (hk : k ∈ visible) (hch : keyChild depth start k = some (child, own))
    (hpas : ∀ j ∈ visible, ¬(compare floor' j.path.bytes).isLE →
      ¬(compare floor j.path.bytes).isLE ∨ keyChild depth start j = some (child, own))
    (hnew : own = false → children[child]? = none) :
    Listed visible start depth floor' (children.insert child own) where
  sound {c b} hc := by
    rw [ExtTreeMap.getElem?_insert] at hc
    split at hc
    · next heq =>
      obtain rfl := eq_of_compare heq
      obtain rfl := Option.some.inj hc
      exact ⟨k, hk, hch⟩
    · exact h.sound hc
  seen {j c b} hj hbef hc := by
    rw [ExtTreeMap.getElem?_insert]
    rcases hpas j hj hbef with hold | hsm
    · obtain ⟨present, hprs, hown⟩ := h.seen hj hold hc
      split
      · next heq =>
        obtain rfl := eq_of_compare heq
        refine ⟨own, rfl, fun _ => ?_⟩
        by_contra hfls
        rw [hnew (Bool.not_eq_true _ ▸ hfls)] at hprs
        cases hprs
      · exact ⟨present, hprs, hown⟩
    · obtain ⟨rfl, rfl⟩ := Prod.mk.inj (Option.some.inj (hsm.symm.trans hc))
      rw [if_pos ReflCmp.compare_self]
      exact ⟨own, rfl, id⟩

/-- A floor moves up past keys below a child that is entered. -/
theorem Listed.skip (h : Listed visible start depth floor children)
    (hen : children[child]? = some present)
    (hpas : ∀ j ∈ visible, ¬(compare floor' j.path.bytes).isLE →
      ¬(compare floor j.path.bytes).isLE ∨ keyChild depth start j = some (child, false)) :
    Listed visible start depth floor' children where
  sound := h.sound
  seen {j c b} hj hbef hc := by
    rcases hpas j hj hbef with hold | hsm
    · exact h.seen hj hold hc
    · obtain ⟨rfl, rfl⟩ := Prod.mk.inj (Option.some.inj (hsm.symm.trans hc))
      exact ⟨present, hen, nofun⟩

end

theorem drop_start (h : path = start ++ rest) : path.drop start.length = rest := by
  rw [h, drop_left]

theorem listed_step (hdep : 0 < depth) (hsorted : Ascending visible)
    (hvis : ∀ k ∈ visible, start <+: k.path.bytes) (floor : Text) (k : DocumentKey)
    (children : Map Text Bool) (hfirst : firstFrom visible floor = some k)
    (h : Listed visible start depth floor children) :
    Keeps start (Listed visible start depth) k (enterChild depth start k children) := by
  obtain ⟨hk, -, -⟩ := firstFrom_eq_some hsorted hfirst
  -- no key but `k` lies between the floor and what follows `k`
  have haft : ∀ j ∈ visible, ¬(compare (after k) j.path.bytes).isLE →
      ¬(compare floor j.path.bytes).isLE ∨ keyChild depth start j = keyChild depth start k :=
    fun j hj hbef => (before_after hsorted hfirst hj hbef).imp_right fun heq => by
      rw [keyChild, keyChild, heq]
  unfold enterChild
  cases hch : keyChild depth start k with
  | none =>
    rw [hch] at haft
    rw [show childOf _ _ = none from hch]
    refine ⟨h.sound, fun hj hbef hc => ?_⟩
    rcases haft _ hj hbef with hold | hnn
    · exact h.seen hj hold hc
    · cases hnn.symm.trans hc
  | some entry =>
    obtain ⟨child, own⟩ := entry
    rw [hch] at haft
    rw [show childOf _ _ = some (child, own) from hch]
    cases own with
    | true => exact h.insert hk hch haft nofun
    | false =>
      obtain ⟨hlen, hfl, tail, htl⟩ := (childOf_eq_some hdep).mp hch
      obtain ⟨rest, hrs⟩ := hvis k hk
      rw [drop_start hrs.symm] at htl
      have hpt : k.path.bytes = (start ++ child) ++ slash :: tail := by
        rw [← hrs, htl, append_assoc]
      have hsuc : successorPath (start ++ child ++ [slash]) = start ++ child ++ [slash + 1] :=
        successorPath_slash (hpt ▸ k.path.utf8)
      -- what the seek leaves out lies below the child
      have hpas : ∀ j ∈ visible, ¬(compare (start ++ child ++ [slash + 1]) j.path.bytes).isLE →
          ¬(compare floor j.path.bytes).isLE ∨ keyChild depth start j = some (child, false) :=
        fun j hj hbef =>
          (before_successor hsorted hfirst hpt hj hbef).imp_right fun ⟨tail', htl'⟩ => by
            rw [keyChild, drop_start (htl'.trans (append_assoc _ _ _))]
            exact (childOf_eq_some hdep).mpr ⟨hlen, hfl, tail', rfl⟩
      dsimp only
      rw [hsuc]
      refine ⟨?_, lt_successor hpt, ?_⟩
      · exact (prefix_append start child).trans (prefix_append _ _)
      cases hen : children[child]? with
      | none =>
        rw [if_neg (by simp [contains_eq_isSome_getElem?, hen])]
        exact h.insert hk hch hpas fun _ => hen
      | some present =>
        rw [if_pos (by simp [contains_eq_isSome_getElem?, hen])]
        exact h.skip hen hpas

end Children

/-! ### What a scan of all keys gives -/

section Scan

variable (docs : Documents) (db : DatabaseName)

/-- A document lies below a path, at any depth. -/
def HasBelow (path : Text) : Prop :=
  ∃ j, j ∈ docs ∧ j.database = db ∧ ∃ tail, j.path.bytes = path ++ slash :: tail

/-- A path that adds the depth's number of segments to the prefix. -/
def IsChild (start : Text) (depth : Nat) (path : Text) : Prop :=
  ∃ child, path = start ++ child ∧ (segments child).length = depth

/-- The direct children, each once: present when there is such a document, missing when there is
none and a document lies below it. -/
structure ChildrenOf (start : Text) (depth : Nat) (listed : List (DocumentKey × Bool)) : Prop where
  once : listed.Pairwise fun a b => compare a.1.path.bytes b.1.path.bytes = .lt
  exact : ∀ k present, (k, present) ∈ listed ↔
    k.database = db ∧ IsChild start depth k.path.bytes ∧
      ((present = true ∧ k ∈ docs) ∨
        (present = false ∧ k ∉ docs ∧ HasBelow docs db k.path.bytes))
  covers : ∀ path, IsChild start depth path → (segments path).length % 2 = 0 →
    HasBelow docs db path → ∃ k present, (k, present) ∈ listed ∧ k.path.bytes = path

/-- The ids of the collections with a document at any depth, each once. -/
structure CollectionsOf (start : Text) (ids : List Text) : Prop where
  once : ids.Pairwise fun a b => compare a b = .lt
  exact : ∀ id, id ∈ ids ↔ slash ∉ id ∧ HasBelow docs db (start ++ id)

end Scan

theorem forM_validateResourceId {parts : List Text} :
    parts.forM validateResourceId = .ok () ↔ ∀ part ∈ parts, validateResourceId part = .ok () := by
  induction parts with
  | nil => exact ⟨fun _ => nofun, fun _ => rfl⟩
  | cons part parts ih =>
    change (validateResourceId part >>= fun _ => parts.forM validateResourceId) = _ ↔ _
    rw [forall_mem_cons, ← ih]
    cases validateResourceId part with
    | error e => exact ⟨nofun, nofun⟩
    | ok _ => exact ⟨fun h => ⟨rfl, h⟩, fun h => h.2⟩

theorem checkDocumentPath_eq_ok {path : Str} : checkDocumentPath path = .ok () ↔
    2 ≤ (segments path.bytes).length ∧ (segments path.bytes).length % 2 = 0 ∧
      [] ∉ segments path.bytes ∧ ∀ part ∈ segments path.bytes, validateResourceId part = .ok () := by
  have hany : (segments path.bytes).any List.isEmpty = true ↔ [] ∈ segments path.bytes := by
    simp [List.isEmpty_iff]
  unfold checkDocumentPath
  dsimp only
  split
  · next hbad =>
    rw [hany] at hbad
    refine ⟨nofun, fun ⟨hlen, hev, hfl, _⟩ => ?_⟩
    rcases hbad with hbad | hbad | hbad
    · omega
    · exact absurd hev hbad
    · exact absurd hbad hfl
  · next hgd =>
    rw [hany] at hgd
    push Not at hgd
    rw [forM_validateResourceId]
    exact ⟨fun h => ⟨hgd.1, hgd.2.1, hgd.2.2, h⟩, fun h => h.2.2.2⟩

/-- A document's path cut after an even number of segments is a document's path. -/
theorem exists_key_of_below (hpt : j.path.bytes = path ++ slash :: tail)
    (hev : (segments path).length % 2 = 0) :
    ∃ k : DocumentKey, k.database = j.database ∧ k.path.bytes = path := by
  obtain ⟨-, -, hfl, hvld⟩ := checkDocumentPath_eq_ok.mp j.valid
  rw [hpt, segments_append] at hfl hvld
  have hutf8 : Utf8.valid path = true :=
    ((Utf8.valid_append_cons (by decide) path tail).mp (hpt ▸ j.path.utf8)).1
  have hpos := length_pos_of_ne_nil (segments_ne_nil path)
  refine ⟨⟨j.database, ⟨path, hutf8⟩, checkDocumentPath_eq_ok.mpr ⟨?_, hev, ?_, ?_⟩⟩, rfl, rfl⟩
  · change 2 ≤ (segments path).length
    omega
  · exact fun h => hfl (mem_append_left _ h)
  · exact fun part hpr => hvld part (mem_append_left _ hpr)

/-! ### The listings are exact -/

section Exact

variable {σ : Type} {c : Cursor σ} {R : σ → Text → Prop} {s : σ} {docs : Documents}
  {db : DatabaseName} {fuel : Nat}

theorem keysFrom_le_size (start floor : Text) :
    keysFrom (visibleKeys docs db start) floor ≤ docs.size := by
  calc
    _ ≤ (visibleKeys docs db start).length := countP_le_length
    _ ≤ docs.keys.length := length_filter_le _ _
    _ = docs.size := length_keys

/-- The keys whose child is a path of the prefix, in the terms of the scan. -/
theorem keyChild_eq_some {start : Text} {depth : Nat} (hdep : 0 < depth)
    (hk : start <+: k.path.bytes) :
    keyChild depth start k = some (child, own) ↔
      (segments child).length = depth ∧ [] ∉ segments child ∧
        Reaches k.path.bytes (start ++ child) own := by
  obtain ⟨rest, hrs⟩ := hk
  rw [keyChild, childOf_eq_some hdep, ← hrs]
  cases own <;> simp [Reaches]

/-- A prefix that ends at a separator, or is empty. -/
def EndsAtSlash (start : Text) : Prop :=
  ∃ before, ∀ rest, segments (start ++ rest) = before ++ segments rest

theorem endsAtSlash_listStart (parent collectionId : Option Str) :
    EndsAtSlash (listStart parent collectionId) := by
  have hbs : ∀ base : Text, EndsAtSlash (base ++ [slash]) :=
    fun base => ⟨segments base, fun rest => by
      rw [append_assoc, singleton_append, segments_append]⟩
  cases collectionId with
  | some id => exact hbs (parent.elim [] (fun parent => parent.bytes ++ [slash]) ++ id.bytes)
  | none =>
    cases parent with
    | some parent => exact hbs parent.bytes
    | none => exact ⟨[], fun _ => rfl⟩

theorem listDepth_pos (collectionId : Option Str) : 0 < listDepth collectionId := by
  unfold listDepth
  split <;> decide

/-- The listed keys are those the children name. -/
theorem mem_listedKeys {start : Text} {children : Map Text Bool} :
    ((k, present) ∈ children.toList.filterMap fun child => do
      let path ← Str.fromUtf8 (start ++ child.1)
      let key ← (DocumentKey.new db path).toOption
      some (key, child.2)) ↔
    k.database = db ∧ ∃ child, k.path.bytes = start ++ child ∧ children[child]? = some present := by
  simp only [mem_filterMap, Prod.exists, mem_toList_iff_getElem?_eq_some,
    Option.bind_eq_bind, Option.bind_eq_some_iff, Option.some.injEq, Prod.mk.injEq]
  constructor
  · rintro ⟨child, own, hch, path, hpt, key, hkey, rfl, rfl⟩
    obtain ⟨rfl, rfl⟩ := new_eq_some hkey
    exact ⟨rfl, child, Str.bytes_of_fromUtf8 hpt, hch⟩
  · rintro ⟨rfl, child, hpt, hch⟩
    refine ⟨child, present, hch, k.path, ?_, k, ?_, rfl, rfl⟩
    · rw [← hpt, Str.fromUtf8_bytes]
    · rw [new_self]
      rfl

theorem pairwise_listedKeys (start : Text) (children : Map Text Bool) :
    (children.toList.filterMap fun child => do
      let path ← Str.fromUtf8 (start ++ child.1)
      let key ← (DocumentKey.new db path).toOption
      some (key, child.2)).Pairwise fun a b => compare a.1.path.bytes b.1.path.bytes = .lt := by
  rw [pairwise_filterMap]
  refine ordered_keys_toList.imp fun {a b} hlt => ?_
  simp only [Option.bind_eq_bind, Option.bind_eq_some_iff, Option.some.injEq]
  rintro _ ⟨path, hpt, key, hkey, rfl⟩ _ ⟨path', hpt', key', hkey', rfl⟩
  obtain ⟨-, rfl⟩ := new_eq_some hkey
  obtain ⟨-, rfl⟩ := new_eq_some hkey'
  rw [Str.bytes_of_fromUtf8 hpt, Str.bytes_of_fromUtf8 hpt', compare_append_left]
  exact hlt

section Listing

variable {start floor : Text} {depth : Nat} {children : Map Text Bool}

/-- Every child entered is reached by a document. -/
theorem Listed.exists_reaches (h : Listed (visibleKeys docs db start) start depth floor children)
    (hdep : 0 < depth) (hch : children[child]? = some own) :
    (segments child).length = depth ∧
      ∃ j, j ∈ docs ∧ j.database = db ∧ Reaches j.path.bytes (start ++ child) own := by
  obtain ⟨j, hj, hen⟩ := h.sound hch
  obtain ⟨hmem, hdb, hsc⟩ := mem_visibleKeys.mp hj
  obtain ⟨hlen, -, hrch⟩ := (keyChild_eq_some hdep hsc).mp hen
  exact ⟨hlen, j, hmem, hdb, hrch⟩

theorem nil_notMem_of_reaches (hbeg : EndsAtSlash start)
    (hrch : Reaches j.path.bytes (start ++ child) own) : [] ∉ segments child := by
  intro hnil
  obtain ⟨before, hbef⟩ := hbeg
  have hmem : [] ∈ segments (start ++ child) := hbef child ▸ mem_append_right _ hnil
  refine (checkDocumentPath_eq_ok.mp j.valid).2.2.1 ?_
  cases own with
  | true => exact (show j.path.bytes = start ++ child from hrch) ▸ hmem
  | false =>
    obtain ⟨tail, htl⟩ := hrch
    rw [htl, segments_append]
    exact mem_append_left _ hmem

theorem prefix_of_reaches (hrch : Reaches path (start ++ child) own) : start <+: path := by
  cases own with
  | true => exact ⟨child, hrch.symm⟩
  | false =>
    obtain ⟨tail, rfl⟩ := hrch
    exact ⟨child ++ slash :: tail, (append_assoc _ _ _).symm⟩

/-- When no key is left, every document that reaches a child has entered it. -/
theorem Listed.entered (h : Listed (visibleKeys docs db start) start depth floor children)
    (hend : firstFrom (visibleKeys docs db start) floor = none) (hdep : 0 < depth)
    (hbeg : EndsAtSlash start) (hj : j ∈ docs)
    (hdb : j.database = db) (hlen : (segments child).length = depth)
    (hrch : Reaches j.path.bytes (start ++ child) own) :
    ∃ present, children[child]? = some present ∧ (own = true → present = true) := by
  have hsc := prefix_of_reaches hrch
  have hvis := mem_visibleKeys.mpr ⟨hj, hdb, hsc⟩
  exact h.seen hvis (firstFrom_eq_none.mp hend j hvis) ((keyChild_eq_some hdep hsc).mpr
      ⟨hlen, nil_notMem_of_reaches hbeg hrch, hrch⟩)

theorem key_of_reaches (hdb : j.database = k.database)
    (hk : k.path.bytes = child) (hrch : Reaches j.path.bytes child true) : j = k :=
  DocumentKey.ext hdb (Str.ext ((show j.path.bytes = child from hrch).trans hk.symm))

/-- When no key is left, the entries are the children a scan gives. -/
theorem Listed.entry_iff (h : Listed (visibleKeys docs db start) start depth floor children)
    (hend : firstFrom (visibleKeys docs db start) floor = none) (hdep : 0 < depth)
    (hbeg : EndsAtSlash start) (hk : k.database = db) (present : Bool) :
    (∃ child, k.path.bytes = start ++ child ∧ children[child]? = some present) ↔
      IsChild start depth k.path.bytes ∧ ((present = true ∧ k ∈ docs) ∨
          (present = false ∧ k ∉ docs ∧ HasBelow docs db k.path.bytes)) := by
  constructor
  · rintro ⟨child, hpt, hch⟩
    obtain ⟨hlen, j, hj, hdb, hrch⟩ := h.exists_reaches hdep hch
    refine ⟨⟨child, hpt, hlen⟩, ?_⟩
    cases present with
    | true =>
      obtain rfl := key_of_reaches (hdb.trans hk.symm) hpt hrch
      exact .inl ⟨rfl, hj⟩
    | false =>
      refine .inr ⟨rfl, fun hmem => ?_, j, hj, hdb, hpt ▸ hrch⟩
      have hown : Reaches k.path.bytes (start ++ child) true := hpt
      obtain ⟨present, hprs, htr⟩ := h.entered hend hdep hbeg hmem hk hlen hown
      rw [hch] at hprs
      cases (Option.some.inj hprs).trans (htr rfl)
  · rintro ⟨⟨child, hpt, hlen⟩, ⟨rfl, hmem⟩ | ⟨rfl, hmis, j, hj, hdb, hbel⟩⟩
    · have hown : Reaches k.path.bytes (start ++ child) true := hpt
      obtain ⟨present, hprs, htr⟩ := h.entered hend hdep hbeg hmem hk hlen hown
      exact ⟨child, hpt, hprs.trans (congrArg some (htr rfl))⟩
    · have hrch : Reaches j.path.bytes (start ++ child) false := hpt ▸ hbel
      obtain ⟨present, hprs, -⟩ := h.entered hend hdep hbeg hj hdb hlen hrch
      refine ⟨child, hpt, ?_⟩
      cases present with
      | false => exact hprs
      | true =>
        obtain ⟨-, j', hj', hdb', hown⟩ := h.exists_reaches hdep hprs
        obtain rfl := key_of_reaches (hdb'.trans hk.symm) hpt hown
        exact absurd hj' hmis

end Listing

/-- **The listing of children is exact**, over every cursor that keeps to its floor. -/
theorem children_spec {collectionId : Option Str}
    (hc : Tracks c (visibleKeys docs db (listStart parent collectionId)) (listStart
      parent collectionId) R)
    (hs : R s (listStart parent collectionId)) (hfl : docs.size < fuel) :
    ∃ listed, directChildren c fuel s db parent collectionId = some listed ∧
      ChildrenOf docs db (listStart parent collectionId) (listDepth collectionId)
        listed := by
  have hvis : ∀ k ∈ visibleKeys docs db (listStart parent collectionId),
      listStart parent collectionId <+: k.path.bytes := fun k hk => (mem_visibleKeys.mp hk).2.2
  obtain ⟨floor, children, hvst, hlis, hend⟩ := visit_spec hc ascending_visibleKeys
    (listed_step (listDepth_pos collectionId) ascending_visibleKeys hvis) hs
    (listed_start hvis) (Nat.lt_of_le_of_lt (keysFrom_le_size _ _) hfl)
  have hex := fun (k : DocumentKey) (present : Bool) => mem_listedKeys.trans
    (and_congr_right fun (hk : k.database = db) => hlis.entry_iff hend (listDepth_pos collectionId)
      (endsAtSlash_listStart parent collectionId) hk present)
  refine ⟨_, by rw [directChildren, hvst, Option.map_some], pairwise_listedKeys _ _, hex, ?_⟩
  intro path hch hev hbel
  obtain ⟨j, hj, hdb, tail, htl⟩ := id hbel
  obtain ⟨k, hk, rfl⟩ := exists_key_of_below htl hev
  by_cases hmem : k ∈ docs
  · exact ⟨k, true, (hex k true).mpr ⟨hk.trans hdb, hch, .inl ⟨rfl, hmem⟩⟩, rfl⟩
  · exact ⟨k, false, (hex k false).mpr ⟨hk.trans hdb, hch, .inr ⟨rfl, hmem, hbel⟩⟩, rfl⟩

/-! ### The listing of collections -/

section Collections

variable {visible : List DocumentKey} {start : Text}

/-- The collections entered once the keys below a floor are passed. -/
structure Collected (visible : List DocumentKey) (start floor : Text) (ids : Map Text Unit) :
    Prop where
  sound : ∀ {id}, id ∈ ids → slash ∉ id ∧ ∃ k ∈ visible, Reaches k.path.bytes (start ++ id) false
  seen : ∀ {k id}, k ∈ visible → ¬(compare floor k.path.bytes).isLE → slash ∉ id →
    Reaches k.path.bytes (start ++ id) false → id ∈ ids

/-- Two ids cut from one path at the first separator are the same. -/
theorem id_unique {id id' tail' : Text} (h : id ++ slash :: tail = id' ++ slash :: tail')
    (hid : slash ∉ id) (hid' : slash ∉ id') : id = id' := by
  have hsg := congrArg segments h
  have hone : ∀ {a : Text}, slash ∉ a → segments a = [a] := splitOn_eq_singleton
  rw [segments_append, segments_append, hone hid, hone hid'] at hsg
  exact (cons.inj hsg).1

/-- Below a document path every key goes on with a collection and a document. -/
theorem head_segment (hev : (segments rest).length % 2 = 0) :
    ∃ id tail, rest = id ++ slash :: tail ∧ slash ∉ id ∧ (segments rest).headD [] = id := by
  have hjn := join_segments rest
  have hsl := slash_notMem_segments rest
  rcases hpts : segments rest with _ | ⟨id, _ | ⟨next, more⟩⟩
  · exact absurd hpts (segments_ne_nil rest)
  · rw [hpts] at hev
    cases hev
  rw [hpts] at hjn hsl
  refine ⟨id, join (next :: more), ?_, hsl id (mem_cons_self ..), rfl⟩
  rw [← hjn]
  simp [join]

theorem collected_step (hsorted : Ascending visible)
    (hvis : ∀ k ∈ visible, ∃ id tail, k.path.bytes = start ++ id ++ slash :: tail ∧
      id ≠ [] ∧ slash ∉ id ∧ (segments (k.path.bytes.drop start.length)).headD [] = id)
    (floor : Text) (k : DocumentKey) (ids : Map Text Unit)
    (hfirst : firstFrom visible floor = some k) (h : Collected visible start floor ids) :
    Keeps start (Collected visible start) k (enterCollection start k ids) := by
  obtain ⟨hk, -, -⟩ := firstFrom_eq_some hsorted hfirst
  obtain ⟨id, tail, hpt, hne, hsl, hhd⟩ := hvis k hk
  have hsuc : successorPath (start ++ id ++ [slash]) = start ++ id ++ [slash + 1] :=
    successorPath_slash (hpt ▸ k.path.utf8)
  unfold enterCollection
  rw [hhd, if_neg (by simpa using hne), hsuc]
  refine ⟨(prefix_append start id).trans (prefix_append _ _), lt_successor hpt, ?_, ?_⟩
  · intro id' hid'
    rcases mem_insert.mp hid' with heq | hold
    · obtain rfl := eq_of_compare heq
      exact ⟨hsl, k, hk, tail, hpt⟩
    · exact h.sound hold
  · intro j id' hj hbef hsl' hrch
    rw [mem_insert]
    rcases before_successor hsorted hfirst hpt hj hbef with hold | ⟨tail', htl'⟩
    · exact .inr (h.seen hj hold hsl' hrch)
    obtain ⟨tail'', htl''⟩ := hrch
    rw [htl', append_assoc, append_assoc] at htl''
    obtain rfl := id_unique (append_cancel_left htl'') hsl hsl'
    exact .inl ReflCmp.compare_self

end Collections

/-- A parent that is a document path has an even number of segments. -/
def DocumentPath (parent : Option Str) : Prop :=
  ∀ path ∈ parent, (segments path.bytes).length % 2 = 0

/-- Below a document path, what is left of a document's path is even. -/
theorem even_rest (hpar : DocumentPath parent)
    (hrs : k.path.bytes = listStart parent none ++ rest) : (segments rest).length % 2 = 0 := by
  obtain ⟨-, hev, -⟩ := checkDocumentPath_eq_ok.mp k.valid
  cases parent with
  | none =>
    obtain rfl : k.path.bytes = rest := hrs
    exact hev
  | some parent =>
    have hpar := hpar parent rfl
    have hpt : k.path.bytes = parent.bytes ++ slash :: rest := by
      simpa [listStart] using hrs
    rw [hpt, segments_append, length_append] at hev
    omega

/-- **The listing of collections is exact**, over every cursor that keeps to its floor. -/
theorem collectionIds_spec (hpar : DocumentPath parent)
    (hc : Tracks c (visibleKeys docs db (listStart parent none)) (listStart parent none) R)
    (hs : R s (listStart parent none)) (hfl : docs.size < fuel) :
    ∃ ids, directCollectionIds c fuel s parent = some ids ∧
      CollectionsOf docs db (listStart parent none) ids := by
  have hsc : ∀ k ∈ visibleKeys docs db (listStart parent none),
      listStart parent none <+: k.path.bytes := fun k hk => (mem_visibleKeys.mp hk).2.2
  have hvis : ∀ k ∈ visibleKeys docs db (listStart parent none), ∃ id tail,
      k.path.bytes = listStart parent none ++ id ++ slash :: tail ∧ id ≠ [] ∧ slash ∉ id ∧
        (segments (k.path.bytes.drop (listStart parent none).length)).headD [] = id := by
    intro k hk
    obtain ⟨rest, hrs⟩ := hsc k hk
    obtain ⟨id, tail, htl, hsl, hhd⟩ := head_segment (even_rest hpar hrs.symm)
    have hpt : k.path.bytes = listStart parent none ++ id ++ slash :: tail := by
      rw [← hrs, htl, append_assoc]
    have hrch : Reaches k.path.bytes (listStart parent none ++ id) false := ⟨tail, hpt⟩
    refine ⟨id, tail, hpt, ?_, hsl, (drop_start hrs.symm).symm ▸ hhd⟩
    rintro rfl
    exact nil_notMem_of_reaches (endsAtSlash_listStart parent none) hrch (by decide)
  obtain ⟨floor, ids, hvst, hcl, hend⟩ := visit_spec hc ascending_visibleKeys
    (collected_step ascending_visibleKeys hvis) hs
    ⟨fun h => absurd h not_mem_empty, fun hk hbef => absurd (isLE_of_isPrefix (hsc _ hk)) hbef⟩
    (Nat.lt_of_le_of_lt (keysFrom_le_size _ _) hfl)
  refine ⟨_, by rw [directCollectionIds, hvst, Option.map_some], ordered_keys, fun id => ?_⟩
  rw [ExtTreeMap.mem_keys]
  constructor
  · intro hid
    obtain ⟨hsl, k, hk, hrch⟩ := hcl.sound hid
    obtain ⟨hmem, hdb, -⟩ := mem_visibleKeys.mp hk
    exact ⟨hsl, k, hmem, hdb, hrch⟩
  · rintro ⟨hsl, j, hj, hdb, hbel⟩
    have hrch : Reaches j.path.bytes (listStart parent none ++ id) false := hbel
    have hvis := mem_visibleKeys.mpr ⟨hj, hdb, prefix_of_reaches hrch⟩
    exact hcl.seen hvis (firstFrom_eq_none.mp hend j hvis) hsl hrch

end Exact

/-! ### Both backends -/

/-- What the paths of a listing start with: the parent, then the collection id, each closed by a
separator. -/
def scanPrefix (parent collectionId : Option Str) : Text :=
  (parent.toList ++ collectionId.toList).flatMap fun part => part.bytes ++ [slash]

theorem listStart_eq_scanPrefix (parent collectionId : Option Str) :
    listStart parent collectionId = scanPrefix parent collectionId := by
  cases parent <;> cases collectionId <;> simp [listStart, scanPrefix]

/-- What a listing of children leaves of a path: the id in a collection, else a collection and an
id. -/
def scanDepth (collectionId : Option Str) : Nat := 2 - collectionId.toList.length

theorem listDepth_eq_scanDepth (collectionId : Option Str) :
    listDepth collectionId = scanDepth collectionId := by
  cases collectionId <;> rfl

/-- **Subtree-skipping listings are exact.** On every snapshot, of either backend and with any
overlay, the children listed are those a scan of all keys gives, for every parent and collection
id; below a document path, or the root, so are the collection ids. Both walks end. -/
theorem direct_listings (docs : Documents) (db : DatabaseName)
    (parent collectionId : Option Str) (fuel : Nat) (hfuel : docs.size < fuel) :
    ((∃ listed, directChildren MemoryCursor.cursor fuel
          (.open docs db (listStart parent collectionId)) db parent collectionId = some listed ∧
        ChildrenOf docs db (scanPrefix parent collectionId) (scanDepth collectionId) listed) ∧
      (DocumentPath parent → ∃ ids, directCollectionIds MemoryCursor.cursor fuel
          (.open docs db (listStart parent none)) parent = some ids ∧
        CollectionsOf docs db (scanPrefix parent none) ids)) ∧
    ∀ (stored : Documents) (s : Disk.DiskSnapshot), Disk.Represents s.tables stored →
      (∀ key, s.get key = docs[key]?) → (Disk.databasePrefix db).toOption.isSome →
      (∃ listed, directChildren Disk.DiskKeyCursor.cursor fuel
          (.open s db (listStart parent collectionId)) db parent collectionId = some listed ∧
        ChildrenOf docs db (scanPrefix parent collectionId) (scanDepth collectionId) listed) ∧
      (DocumentPath parent → ∃ ids, directCollectionIds Disk.DiskKeyCursor.cursor fuel
          (.open s db (listStart parent none)) parent = some ids ∧
        CollectionsOf docs db (scanPrefix parent none) ids) := by
  simp only [← listStart_eq_scanPrefix, ← listDepth_eq_scanDepth]
  refine ⟨⟨?_, fun hpar => ?_⟩, fun stored s hrep hsm hdb => ?_⟩
  · exact children_spec MemoryCursor.tracks (MemoryCursor.at_open docs db _) hfuel
  · exact collectionIds_spec hpar MemoryCursor.tracks (MemoryCursor.at_open docs db _) hfuel
  · obtain ⟨p, hp⟩ := Option.isSome_iff_exists.mp hdb
    rw [Fallible.toOption_eq_some] at hp
    have hds : ∀ start, Tracks Disk.DiskKeyCursor.cursor (visibleKeys docs db start)
        start (Disk.DiskKeyCursor.At s stored docs db start p) :=
      fun _ => Disk.DiskKeyCursor.tracks hrep hsm hp
    exact ⟨children_spec (hds _) (Disk.DiskKeyCursor.at_open hrep hp) hfuel,
      fun hpar => collectionIds_spec hpar (hds _) (Disk.DiskKeyCursor.at_open hrep hp) hfuel⟩

/-- A sibling that sorts into a subtree, the subtree, and a subtree without a document above it. -/
def nestedKeys : List DocumentKey :=
  [⟨exampleDatabase, ⟨ascii "c/a-2", rfl⟩, by decide⟩,
    ⟨exampleDatabase, ⟨ascii "c/a/d/x", rfl⟩, by decide⟩,
    ⟨exampleDatabase, ⟨ascii "c/m/d/y", rfl⟩, by decide⟩]

def nestedDocuments : Documents :=
  nestedKeys.foldl (fun docs key => put docs key (some ⟨.empty, .zero, .zero⟩))
    Disk.walkedDocuments

/-- The store with one document, and the others in its overlay. -/
def nestedSnapshot : Disk.DiskSnapshot := { Disk.walkedSnapshot with
  overlay := nestedKeys.foldl (fun overlay key => overlay.insert key (some ⟨.empty, .zero, .zero⟩)) ∅ }

theorem get_foldl_insert {s : Disk.DiskSnapshot} (d : Document) (keys : List DocumentKey) :
    ∀ {overlay : Map DocumentKey (Option Document)} {docs : Documents},
      (∀ key, Disk.DiskSnapshot.get { s with overlay } key = docs[key]?) → ∀ key,
      Disk.DiskSnapshot.get
          { s with overlay := keys.foldl (fun o key => o.insert key (some d)) overlay } key =
        (keys.foldl (fun docs key => put docs key (some d)) docs)[key]? := by
  induction keys with
  | nil => exact fun h => h
  | cons first keys ih =>
    refine fun h => ih fun key => ?_
    by_cases hkey : first = key
    · subst hkey
      simp [Disk.DiskSnapshot.get]
    · rw [getElem?_put_of_ne _ hkey, ← h key]
      simp [Disk.DiskSnapshot.get, ExtTreeMap.getElem?_insert, hkey]

theorem get_nestedSnapshot (key : DocumentKey) : nestedSnapshot.get key = nestedDocuments[key]? :=
  get_foldl_insert _ nestedKeys Disk.get_walkedSnapshot key

/-- The collection of a store with nested documents: two that are there and a missing one. -/
theorem direct_listings_nested : ∃ listed, directChildren Disk.DiskKeyCursor.cursor 5
        (.open nestedSnapshot exampleDatabase (listStart none (some ⟨ascii "c", rfl⟩))) exampleDatabase
        none (some ⟨ascii "c", rfl⟩) = some listed ∧
      listed.map Prod.snd = [true, true, false] ∧
      ChildrenOf nestedDocuments exampleDatabase (ascii "c/") 1 listed := by
  obtain ⟨listed, hlis, hex⟩ := ((direct_listings nestedDocuments exampleDatabase none
    (some ⟨ascii "c", rfl⟩) 5 (by decide +kernel)).2 Disk.walkedDocuments nestedSnapshot
    Disk.represents_walkedSnapshot get_nestedSnapshot (by decide +kernel)).1
  have hmap : (directChildren Disk.DiskKeyCursor.cursor 5 (.open nestedSnapshot exampleDatabase
      (listStart none (some ⟨ascii "c", rfl⟩))) exampleDatabase none (some ⟨ascii "c", rfl⟩)).any
        (fun listed => listed.map Prod.snd == [true, true, false]) = true := by decide +kernel
  rw [hlis] at hmap
  exact ⟨listed, hlis, eq_of_beq hmap, hex⟩

end Firenook.Grpc
