import Mathlib.Data.List.Pairwise
import Firenook.Store.Write

/-!
# Paths — field maps read and edited by path

What a key holds is a cell: a value or nothing. `look` follows a path of map keys from a cell and
`edit` puts a cell at the end of a path: a value makes the maps it needs on the way, an empty cell
makes none. `nestedValue`, `setNestedValue` and `deleteNestedValue` are `look` and `edit` from a
field map (`nestedValue_eq`, `setNestedValue_eq`, `deleteNestedValue_eq`).

On cells in key order the two satisfy the laws of a lens: an edit is read back
(`look_edit_append`), reads elsewhere do not see it (`look_edit_off`), writing what is there
changes nothing (`edit_look`), and edits at paths of which neither begins with the other commute
(**`edit_comm`**), as do the patches of several clients (**`patches_commute`**).
-/

namespace Firenook

variable {fields : List (Str × Value)}

open List Option Assoc Bool Fallible Value

/-- Neither path begins with the other. -/
def Apart (p q : List Str) : Prop := ¬p <+: q ∧ ¬q <+: p

theorem Apart.symm {p q : List Str} (h : Apart p q) : Apart q p := ⟨h.2, h.1⟩

theorem apart_cons {k : Str} {p q : List Str} : Apart (k :: p) (k :: q) ↔ Apart p q := by
  simp [Apart]

/-! ### Cells -/

/-- The entries of a map, none for anything else. -/
def entriesOf (c : Option Value) : List (Str × Value) := (c.bind asMap).getD []

def isMap (c : Option Value) : Bool := (c.bind asMap).isSome

def look (c : Option Value) : List Str → Option Value
  | [] => c
  | k :: rest => look (get k (entriesOf c)) rest

/-- Binds a key to what a cell holds. -/
def bindKey (k : Str) (c : Option Value) (fields : List (Str × Value)) : List (Str × Value) :=
  match c with
  | some v => insert k v fields
  | none => erase k fields

def edit (c : Option Value) : List Str → Option Value → Option Value
  | [], v => v
  | k :: rest, v =>
    if isMap c || v.isSome then
      some (.map (bindKey k (edit (get k (entriesOf c)) rest v) (entriesOf c)))
    else c

/-- Every map of the cell is in key order. -/
def Ordered (c : Option Value) : Prop := ∀ v ∈ c, v.ordered = true

section

variable {c c' v w : Option Value} {k : Str} {p q : List Str}

theorem Ordered.entries (h : Ordered c) : (map (entriesOf c)).ordered = true := by
  unfold entriesOf
  cases hc : c.bind asMap with
  | none => rfl
  | some fields =>
    obtain ⟨v, rfl, hv⟩ := bind_eq_some_iff.mp hc
    exact ordered_of_asMap (h v rfl) hv

theorem Ordered.sorted (h : Ordered c) : Sorted (entriesOf c) :=
  ((ordered_map_iff _).mp h.entries).1

theorem Ordered.get (h : Ordered c) (k : Str) : Ordered (get k (entriesOf c)) := fun _ hv =>
  ordered_of_get ((orderedFields_iff _).mpr ((ordered_map_iff _).mp h.entries).2) hv

theorem Ordered.look (h : Ordered c) (p : List Str) : Ordered (look c p) := by
  induction p generalizing c with
  | nil => exact h
  | cons k p ih => exact ih (h.get k)

theorem get_bindKey (h : Sorted fields) (j : Str) :
    get j (bindKey k c fields) = if j = k then c else get j fields := by
  split
  · next hj =>
    subst hj
    cases c with
    | some v => exact get_insert_self j v fields
    | none => exact get_erase_self h j
  · next hj =>
    cases c with
    | some v => exact get_insert_of_ne hj v fields
    | none => exact get_erase_of_ne hj fields

theorem ordered_edit (hc : Ordered c) (hv : Ordered v) : Ordered (edit c p v) := by
  induction p generalizing c with
  | nil => exact hv
  | cons k p ih =>
    rw [edit]
    split
    · rintro _ ⟨⟩
      have hch := ih (hc.get k)
      cases hed : edit (get k (entriesOf c)) p v with
      | some u => exact ordered_insert hc.entries k (hch u hed)
      | none => exact ordered_erase hc.entries k
    · exact hc

theorem edit_none (p : List Str) : edit none p none = none := by
  cases p <;> rfl

theorem look_none (p : List Str) : look none p = none := by
  induction p with
  | nil => rfl
  | cons k p ih => exact ih

theorem edit_of_not (h : (isMap c || v.isSome) = false) : edit c (k :: p) v = c := by
  rw [edit, h, if_neg (by decide)]

theorem get_of_not_isMap (h : isMap c = false) (j : Str) : get j (entriesOf c) = none := by
  rw [entriesOf, not_isSome_iff_eq_none.mp (eq_false_iff.mp h)]
  rfl

@[simp] theorem isMap_edit : isMap (edit c (k :: p) v) = (isMap c || v.isSome) := by
  cases h : isMap c || v.isSome with
  | true => rw [edit, h]; rfl
  | false => rw [edit_of_not h, (or_eq_false_iff.mp h).1]

/-- What a key holds after an edit. -/
theorem get_edit (h : Ordered c) (j : Str) : get j (entriesOf (edit c (k :: p) v)) =
      if j = k then edit (get k (entriesOf c)) p v else get j (entriesOf c) := by
  cases hmap : isMap c || v.isSome with
  | true =>
    rw [edit, hmap]
    exact get_bindKey h.sorted j
  | false =>
    obtain ⟨hc, hv⟩ := or_eq_false_iff.mp hmap
    obtain rfl := not_isSome_iff_eq_none.mp (eq_false_iff.mp hv)
    rw [edit_of_not hmap, get_of_not_isMap hc, get_of_not_isMap hc, edit_none, ite_self]

/-- Maps in key order that hold the same are the same. -/
theorem cell_ext (hc : Ordered c) (hc' : Ordered c') (hmap : isMap c = true)
    (hmap' : isMap c' = true) (h : ∀ j, get j (entriesOf c) = get j (entriesOf c')) :
    c = c' := by
  have hcl : ∀ {c : Option Value}, isMap c = true → c = some (.map (entriesOf c)) := by
    intro c hmap
    obtain ⟨fields, hfl⟩ := isSome_iff_exists.mp hmap
    obtain ⟨u, rfl, hu⟩ := bind_eq_some_iff.mp hfl
    cases u <;> cases hu
    rfl
  rw [hcl hmap, hcl hmap', ext_get hc.sorted hc'.sorted h]

/-! ### The laws -/

/-- An edit is read back, at its path and below. -/
theorem look_edit_append (h : Ordered c) (p q : List Str) :
    look (edit c p v) (p ++ q) = look v q := by
  induction p generalizing c with
  | nil => rfl
  | cons k p ih =>
    rw [cons_append, look, get_edit h, if_pos rfl]
    exact ih (h.get k)

/-- A read at a path apart from an edit does not see it. -/
theorem look_edit_off (h : Ordered c) (hpq : Apart p q) : look (edit c p v) q = look c q := by
  induction p generalizing c q with
  | nil => exact absurd nil_prefix hpq.1
  | cons k p ih =>
    cases q with
    | nil => exact absurd nil_prefix hpq.2
    | cons j q =>
      rw [look, get_edit h]
      split
      · next hj =>
        subst hj
        exact ih (h.get j) (apart_cons.mp hpq)
      · rfl

/-- Writing what is there changes nothing. -/
theorem edit_look (h : Ordered c) (p : List Str) : edit c p (look c p) = c := by
  induction p generalizing c with
  | nil => rfl
  | cons k p ih =>
    cases hmap : isMap c with
    | true =>
      refine cell_ext (ordered_edit h (h.look _)) h (by simp [hmap]) hmap fun j => ?_
      rw [get_edit h]
      split
      · next hj => rw [hj, look, ih (h.get k)]
      · rfl
    | false =>
      refine edit_of_not ?_
      rw [hmap, look, get_of_not_isMap hmap, look_none]
      rfl

/-- **Edits at paths apart commute.** -/
theorem edit_comm (hc : Ordered c) (hv : Ordered v) (hw : Ordered w) (hpq : Apart p q) :
    edit (edit c p v) q w = edit (edit c q w) p v := by
  induction p generalizing c q with
  | nil => exact absurd nil_prefix hpq.1
  | cons k p ih =>
    cases q with
    | nil => exact absurd nil_prefix hpq.2
    | cons j q =>
      have hcv := ordered_edit (p := k :: p) hc hv
      have hcw := ordered_edit (p := j :: q) hc hw
      cases hmap : isMap c || v.isSome || w.isSome with
      | true =>
        refine cell_ext (ordered_edit hcv hw) (ordered_edit hcw hv) (by simpa using hmap) ?_
          fun i => ?_
        · rw [isMap_edit, isMap_edit, Bool.or_right_comm]
          exact hmap
        rw [get_edit hcv, get_edit hcw, get_edit hc, get_edit hc, get_edit hc, get_edit hc]
        by_cases hjk : j = k
        · subst hjk
          simp only [if_true]
          rw [ih (hc.get j) (apart_cons.mp hpq)]
          split <;> rfl
        · simp only [if_neg hjk, if_neg (Ne.symm hjk)]
          split
          · next hi => rw [if_neg (hi ▸ hjk)]
          · rfl
      | false =>
        obtain ⟨hcv', hw'⟩ := or_eq_false_iff.mp hmap
        obtain ⟨hc', hv'⟩ := or_eq_false_iff.mp hcv'
        rw [edit_of_not hcv', edit_of_not (v := w) (by rw [hc', hw']; rfl), edit_of_not hcv']

/-- A value replaces what was written below its path. -/
theorem edit_append_edit (hc : Ordered c) (hv : Ordered v) (hw : Ordered w) (h : v.isSome = true)
    (p q : List Str) : edit (edit c (p ++ q) w) p v = edit c p v := by
  induction p generalizing c with
  | nil => rfl
  | cons k p ih =>
    have hcw := ordered_edit (p := k :: p ++ q) hc hw
    refine cell_ext (ordered_edit hcw hv) (ordered_edit hc hv) (by simp [h]) (by simp [h]) fun j => ?_
    rw [get_edit hcw, get_edit hc, cons_append, get_edit hc, get_edit hc, if_pos rfl]
    split
    · rw [ih (hc.get k)]
    · rfl

/-- A value is written below maps that are not empty. -/
theorem look_edit_above (hc : Ordered c) (h : v.isSome = true) (p : List Str) (k : Str)
    (q : List Str) :
    ∃ e fields, look (edit c (p ++ k :: q) v) p = some (.map (e :: fields)) := by
  have hsm : ∀ p (c : Option Value), (edit c p v).isSome = true := by
    intro p c
    cases p with
    | nil => exact h
    | cons k p => rw [edit, h, Bool.or_true, if_pos rfl]; rfl
  induction p generalizing c with
  | nil =>
    obtain ⟨u, hu⟩ := isSome_iff_exists.mp (hsm q (get k (entriesOf c)))
    rw [nil_append, look, edit, h, Bool.or_true, if_pos rfl, hu, bindKey]
    cases hen : Assoc.insert k u (entriesOf c) with
    | nil => simpa [hen, Assoc.get] using Assoc.get_insert_self k u (entriesOf c)
    | cons e fields => exact ⟨e, fields, rfl⟩
  | cons j p ih =>
    rw [cons_append, look, get_edit hc, if_pos rfl]
    exact ih (hc.get j)

/-! ### The source's functions -/

theorem nestedValue_eq (fields : List (Str × Value)) (k : Str) (p : List Str) :
    nestedValue fields (k :: p) = look (some (.map fields)) (k :: p) := by
  induction p generalizing fields k with
  | nil => rfl
  | cons j p ih =>
    rw [nestedValue]
    cases hmap : (get k fields).bind asMap with
    | none =>
      have hnn := get_of_not_isMap (c := get k fields) (by rw [isMap, hmap]; rfl) j
      change none = look (get k fields) (j :: p)
      rw [look, hnn, look_none]
    | some child =>
      change nestedValue child (j :: p) = look (get k fields) (j :: p)
      rw [ih, look, look, entriesOf, entriesOf, hmap]
      rfl

theorem setNestedValue_eq (fields : List (Str × Value)) (k : Str) (p : List Str) (u : Value) :
    some (.map (setNestedValue fields (k :: p) u)) =
      edit (some (.map fields)) (k :: p) (some u) := by
  induction p generalizing fields k with
  | nil => rfl
  | cons j p ih =>
    have hch := ih (((get k fields).bind asMap).getD []) j
    change _ = some (map (bindKey k (edit (get k fields) (j :: p) (some u)) fields))
    rw [edit, isSome_some, Bool.or_true, if_pos rfl]
    exact congrArg (fun c => some (map (bindKey k c fields))) hch

theorem deleteNestedValue_eq (h : (map fields).ordered = true) (k : Str) (p : List Str) :
    some (.map (deleteNestedValue fields (k :: p))) = edit (some (.map fields)) (k :: p) none := by
  induction p generalizing fields k with
  | nil => rfl
  | cons j p ih =>
    rw [deleteNestedValue]
    cases hmap : (get k fields).bind asMap with
    | none =>
      have hsm := edit_look (c := some (.map fields)) (fun _ hv => some.inj hv ▸ h) [k]
      have hkp : edit (get k fields) (j :: p) none = get k fields :=
        edit_of_not (by rw [isMap, hmap]; rfl)
      change _ = some (map (bindKey k (edit (get k fields) (j :: p) none) fields))
      rw [hkp]
      exact hsm.symm
    | some child =>
      obtain ⟨u, hu, hch⟩ := bind_eq_some_iff.mp hmap
      obtain rfl : u = .map child := by cases u <;> cases hch; rfl
      change _ = some (map (bindKey k (edit (get k fields) (j :: p) none) fields))
      rw [hu, ← ih (ordered_child h hmap)]
      rfl

end

/-! ### Masked updates -/

def Fields.cell (f : Fields) : Option Value := some (.map f.entries)

theorem Fields.ordered_cell (f : Fields) : Ordered f.cell := fun _ hv => some.inj hv ▸ f.ordered

theorem Fields.cell_inj {f g : Fields} (h : f.cell = g.cell) : f = g :=
  Fields.ext (map.inj (some.inj h))

theorem Fields.nestedValue_entries (f : Fields) {p : List Str} (hp : p ≠ []) :
    nestedValue f.entries p = look f.cell p := by
  cases p with
  | nil => exact absurd rfl hp
  | cons k p => exact nestedValue_eq f.entries k p

theorem Fields.val_atPath (f : Fields) (path : FieldPath) :
    (f.atPath path).map Subtype.val = look f.cell path.segments := by
  rw [← f.nestedValue_entries path.valid.1, atPath]
  split <;> simp_all

theorem Fields.cell_setPath (f : Fields) (path : FieldPath) (v : OrderedValue) :
    (f.setPath path v).cell = edit f.cell path.segments (some v.val) := by
  obtain ⟨k, p, hpt⟩ := exists_cons_of_ne_nil path.valid.1
  have hset := setNestedValue_eq f.entries k p v.val
  rw [← hpt] at hset
  exact hset

/-- A masked path takes the cell the source has there. -/
theorem cell_applyMask (source f : Fields) (path : FieldPath) : (applyMask source f path).cell =
      edit f.cell path.segments (look source.cell path.segments) := by
  rw [← source.val_atPath, applyMask]
  cases source.atPath path with
  | some value => exact f.cell_setPath path value
  | none =>
    obtain ⟨k, p, hpt⟩ := exists_cons_of_ne_nil path.valid.1
    have hdel := deleteNestedValue_eq f.ordered k p
    rw [← hpt] at hdel
    exact hdel

section

variable {source : Fields} {mask : List FieldPath}

instance : Std.Symm fun p q : FieldPath => Apart p.segments q.segments := ⟨fun _ _ h => h.symm⟩

theorem look_masked_off {q : List Str} (h : ∀ path ∈ mask, Apart path.segments q) (f : Fields) :
    look (mask.foldl (applyMask source) f).cell q = look f.cell q := by
  induction mask generalizing f with
  | nil => rfl
  | cons path mask ih =>
    rw [foldl_cons, ih fun p hp => h p (mem_cons_of_mem _ hp), cell_applyMask,
      look_edit_off f.ordered_cell (h path mem_cons_self)]

theorem look_masked (h : mask.Pairwise fun p q => Apart p.segments q.segments) (f : Fields) :
    ∀ path ∈ mask, look (mask.foldl (applyMask source) f).cell path.segments
      = look source.cell path.segments := by
  induction mask generalizing f with
  | nil => exact nofun
  | cons first mask ih =>
    obtain ⟨hfst, hrs⟩ := pairwise_cons.mp h
    intro path hpt
    rcases mem_cons.mp hpt with rfl | hpt
    · have hsl := look_edit_append (v := look source.cell path.segments) f.ordered_cell
        path.segments []
      rw [append_nil] at hsl
      rw [foldl_cons, look_masked_off fun p hp => (hfst p hp).symm, cell_applyMask, hsl]
      rfl
    · exact ih hrs _ path hpt

theorem foldl_applyMask_perm {mask' : List FieldPath} (hpr : mask.Perm mask')
    (h : mask.Pairwise fun p q => Apart p.segments q.segments) (f : Fields) :
    mask.foldl (applyMask source) f = mask'.foldl (applyMask source) f := by
  refine hpr.foldl_eq' (fun p hp q hq f => ?_) f
  by_cases hpq : p = q
  · rw [hpq]
  refine Fields.cell_inj ?_
  rw [cell_applyMask, cell_applyMask, cell_applyMask, cell_applyMask]
  refine edit_comm f.ordered_cell (source.ordered_cell.look _) (source.ordered_cell.look _) ?_
  exact h.forall hp hq hpq

end

/-- **A patch touches only its mask.** At a masked path the document has what the source has, at a
path apart from the mask what it had, and the order of the mask does not matter. -/
theorem patch_within_mask (docs : Documents) (time : Timestamp) (key : DocumentKey)
    (source : Fields) (mask : List FieldPath) (precondition : Precondition)
    (hmask : mask.Pairwise fun p q => Apart p.segments q.segments)
    (outcome : DocumentKey × Option Document)
    (h : applyWrite docs time (.patch key source mask [] precondition) = .ok outcome) :
    (∃ next, outcome = (key, some next) ∧
      (∀ path ∈ mask, nestedValue next.fields.entries path.segments
        = nestedValue source.entries path.segments) ∧
      ∀ q, (∀ path ∈ mask, Apart path.segments q) → nestedValue next.fields.entries q
        = nestedValue (docs[key]?.elim .empty Document.fields).entries q) ∧
    ∀ mask', mask'.Perm mask →
      applyWrite docs time (.patch key source mask' [] precondition) = .ok outcome := by
  refine ⟨?_, fun mask' hpr => ?_⟩
  · obtain ⟨-, -, h⟩ := bind_eq_ok.mp h
    obtain ⟨fields, hfl, h⟩ := bind_eq_ok.mp h
    obtain rfl := pure_eq_ok.mp hfl
    obtain rfl := pure_eq_ok.mp h
    refine ⟨_, rfl, fun path hpt => ?_, fun q hq => ?_⟩
    · rw [Fields.nestedValue_entries _ path.valid.1, Fields.nestedValue_entries _ path.valid.1]
      exact look_masked hmask _ path hpt
    cases q with
    | nil => rfl
    | cons k q =>
      rw [Fields.nestedValue_entries _ (cons_ne_nil k q),
        Fields.nestedValue_entries _ (cons_ne_nil k q)]
      exact look_masked_off hq _
  · rw [← h, applyWrite, applyWrite, foldl_applyMask_perm hpr (hpr.symm.pairwise hmask Apart.symm)]

/-- A patch of one field of a new document. -/
theorem patch_within_mask_one : let path : FieldPath := ⟨[exampleField], by decide⟩
    let source : Fields := ⟨[(exampleField, .null)], rfl⟩
    ∃ next, applyWrite ∅ .zero (.patch exampleKey source [path] [] .none)
        = .ok (exampleKey, some next) ∧
      nestedValue next.fields.entries path.segments = some .null := by
  intro path source
  obtain ⟨⟨next, hnx, hms, -⟩, -⟩ := patch_within_mask ∅ .zero exampleKey source [path] .none
    (pairwise_singleton _ _) _ rfl
  exact ⟨next, congrArg Except.ok hnx, (hms path mem_cons_self).trans (by decide)⟩

/-! ### Patches from several clients -/

/-- A commit of one patch: its time, source and mask. -/
abbrev Patch := Timestamp × Fields × List FieldPath

/-- The documents after patches of one of them. -/
def patchAll (key : DocumentKey) (documents : Documents) (patches : List Patch) :
    Except CommitError Documents :=
  patches.foldlM (fun documents (time, source, mask) => do
    let (key, next) ← applyWrite documents time (.patch key source mask [] .none)
    return ChangeLog.put documents key next) documents

/-- The paths that patches assign, each with its source. -/
def assigned (patches : List Patch) : List (Fields × FieldPath) :=
  patches.flatMap fun (_, source, mask) => mask.map (source, ·)

def fieldsAt (documents : Documents) (key : DocumentKey) : Fields :=
  documents[key]?.elim .empty Document.fields

theorem fieldsAt_patchAll (key : DocumentKey) (docs : Documents) (patches : List Patch) :
    ∃ d, patchAll key docs patches = .ok d ∧ fieldsAt d key =
      (assigned patches).foldl (fun f a => applyMask a.1 f a.2) (fieldsAt docs key) := by
  induction patches generalizing docs with
  | nil => exact ⟨docs, rfl, rfl⟩
  | cons patch patches ih =>
    obtain ⟨d, hd, hfl⟩ := ih (ChangeLog.put docs key (some _))
    refine ⟨d, hd, hfl.trans ?_⟩
    rw [assigned, assigned, flatMap_cons, foldl_append, foldl_map, fieldsAt,
      ChangeLog.getElem?_put_self]
    rfl

/-- **Patches of different fields commute**: in whatever order they are applied, the document
ends with the same fields. -/
theorem patches_commute (key : DocumentKey) (docs : Documents) {patches patches' : List Patch}
    (hperm : patches.Perm patches')
    (h : (assigned patches).Pairwise fun a b => Apart a.2.segments b.2.segments) :
    ∃ d d', patchAll key docs patches = .ok d ∧ patchAll key docs patches' = .ok d' ∧
      fieldsAt d key = fieldsAt d' key := by
  obtain ⟨d, hd, hfl⟩ := fieldsAt_patchAll key docs patches
  obtain ⟨d', hd', hfl'⟩ := fieldsAt_patchAll key docs patches'
  refine ⟨d, d', hd, hd', hfl.trans (.trans ?_ hfl'.symm)⟩
  refine (hperm.flatMap_right _).foldl_eq' (fun a ha b hb f => ?_) _
  by_cases hab : a = b
  · rw [hab]
  have : Std.Symm fun a b : Fields × FieldPath => Apart a.2.segments b.2.segments :=
    ⟨fun _ _ h => h.symm⟩
  refine Fields.cell_inj ?_
  rw [cell_applyMask, cell_applyMask, cell_applyMask, cell_applyMask]
  exact edit_comm f.ordered_cell (a.1.ordered_cell.look _) (b.1.ordered_cell.look _)
    (h.forall ha hb hab)

theorem patches_commute_two :
    let x : FieldPath := ⟨[exampleField], by decide⟩
    let y : FieldPath := ⟨[⟨ascii "y", rfl⟩], by decide⟩
    ∃ d d', patchAll exampleKey ∅ [(.zero, .sample, [x]), (.zero, .sample, [y])] = .ok d ∧
      patchAll exampleKey ∅ [(.zero, .sample, [y]), (.zero, .sample, [x])] = .ok d' ∧
      fieldsAt d exampleKey = fieldsAt d' exampleKey :=
  patches_commute exampleKey ∅ (.swap ..) (by simp only [Apart]; decide)

end Firenook
