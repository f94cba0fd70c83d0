import Firenook.Query.Matching
import Firenook.Store.Paths
import Mathlib.Data.List.Perm.Basic

/-!
# Projection — the fields a query selects

`project` inserts the selected values one after another into an empty map. Seen from a cell each
insertion is an edit with what the document has at the path (`reveal`): an insertion meets maps
only, since what is shown so far is part of the document (`Shown.within`). Reveals commute and
absorb those below them (`reveal_comm`, `reveal_below`), so the result depends only on which paths
are selected (**`project_selected`**).
-/

namespace Firenook.QueryEngine

open List Option Assoc Bool

/-- `insert_projected`: what is there and is no map stays. -/
def insertProjected (fields : List (Str × Value)) : List Str → Value → List (Str × Value)
  | [], _ => fields
  | [k], value => insert k value fields
  | k :: next :: rest, value =>
    match get k fields with
    | none => insert k (.map (insertProjected [] (next :: rest) value)) fields
    | some (.map child) => insert k (.map (insertProjected child (next :: rest) value)) fields
    | some _ => fields

def projectPath (fields projected : List (Str × Value)) : FieldPath → List (Str × Value)
  | .documentId => projected
  | .field segments =>
    match nestedValue fields segments with
    | some value => insertProjected projected segments value
    | none => projected

def project (fields : List (Str × Value)) (projection : List FieldPath) : List (Str × Value) :=
  projection.foldl (projectPath fields) []

/-- A fold of a commuting, idempotent step depends on the members of the list only. -/
theorem foldl_eq_of_mem_iff {α β : Type} {step : β → α → β} [RightCommutative step]
    (hid : ∀ b a, step (step b a) a = step b a) {l l' : List α} (h : ∀ a, a ∈ l ↔ a ∈ l')
    (b : β) :
    l.foldl step b = l'.foldl step b := by
  have habs : ∀ {l : List α} {a : α} (b), a ∈ l → l.foldl step (step b a) = l.foldl step b := by
    intro l a
    induction l with
    | nil => exact fun _ ha => nomatch ha
    | cons first l ih =>
      intro b ha
      rcases mem_cons.mp ha with rfl | ha
      · rw [foldl_cons, hid, foldl_cons]
      · have hcm : step (step b a) first = _ := RightCommutative.right_comm b a first
        rw [foldl_cons, hcm, ih _ ha, foldl_cons]
  have hov : ∀ {l l' : List α} (b : β), (∀ a ∈ l', a ∈ l) →
      (l' ++ l).foldl step b = l.foldl step b := by
    intro l l'
    induction l' with
    | nil => exact fun _ _ => rfl
    | cons a l' ih =>
      intro b hsub
      rw [cons_append, foldl_cons, ih _ fun a ha => hsub a (mem_cons_of_mem _ ha),
        habs b (hsub a mem_cons_self)]
  rw [← hov b fun a ha => (h a).mpr ha, perm_append_comm.foldl_eq, hov b fun a ha => (h a).mp ha]

/-! ### Revealing -/

/-- Shows what `f` has at a path. -/
def reveal (f c : Option Value) (s : List Str) : Option Value :=
  if (look f s).isSome then edit c s (look f s) else c

/-- One path begins with the other or they are apart. -/
theorem prefix_or_apart (s q : List Str) :
    (∃ r, q = s ++ r) ∨ (∃ k r, s = q ++ k :: r) ∨ Apart s q := by
  by_cases hsq : s <+: q
  · obtain ⟨r, rfl⟩ := hsq
    exact .inl ⟨r, rfl⟩
  by_cases hqs : q <+: s
  · obtain ⟨r, rfl⟩ := hqs
    cases r with
    | nil => exact absurd (by simp) hsq
    | cons k r => exact .inr (.inl ⟨k, r, rfl⟩)
  · exact .inr (.inr ⟨hsq, hqs⟩)

theorem look_append (c : Option Value) (p q : List Str) : look c (p ++ q) = look (look c p) q := by
  induction p generalizing c with
  | nil => rfl
  | cons k p ih => exact ih _

section

variable {f c : Option Value} (hf : Ordered f) (hc : Ordered c)

include hf hc in
theorem ordered_reveal (s : List Str) : Ordered (reveal f c s) := by
  unfold reveal
  split
  · exact ordered_edit hc (hf.look s)
  · exact hc

include hf hc in
/-- A path shows what lies below it, before or after. -/
theorem reveal_below {s : List Str} (h : (look f s).isSome = true) (r : List Str) :
    reveal f (reveal f c s) (s ++ r) = reveal f c s ∧
      reveal f (reveal f c (s ++ r)) s = reveal f c s := by
  have hlk := look_edit_append (v := look f s) hc s r
  rw [← look_append] at hlk
  constructor
  · rw [reveal]
    split
    · rw [reveal, if_pos h, ← hlk, edit_look (ordered_edit hc (hf.look s))]
    · rfl
  · rw [reveal, if_pos h, reveal, reveal, if_pos h]
    split
    · exact edit_append_edit hc (hf.look s) (hf.look _) h s r
    · rfl

include hf hc in
theorem reveal_comm (s t : List Str) : reveal f (reveal f c s) t = reveal f (reveal f c t) s := by
  by_cases hs : (look f s).isSome = true
  · by_cases ht : (look f t).isSome = true
    · rcases prefix_or_apart s t with ⟨r, rfl⟩ | ⟨k, r, rfl⟩ | hst
      · rw [(reveal_below hf hc hs r).1, (reveal_below hf hc hs r).2]
      · rw [(reveal_below hf hc ht _).1, (reveal_below hf hc ht _).2]
      · simp only [reveal, hs, ht, if_true]
        exact edit_comm hc (hf.look s) (hf.look t) hst
    · simp [reveal, ht]
  · simp [reveal, hs]

end

/-! ### What has been shown -/

/-- A value that holds no other: anything but a map with entries. -/
def Leaf (v : Value) : Prop := ∀ e fields, v ≠ .map (e :: fields)

/-- `c` is part of `f`, below the given paths. -/
structure Shown (f : Option Value) (paths : List (List Str)) (c : Option Value) : Prop where
  ordered : Ordered c
  within : ∀ q, (look c q).isSome = true →
    (look f q).isSome = true ∧ isMap (look c q) = isMap (look f q)
  leaves : ∀ q v, q ≠ [] → look c q = some v → Leaf v → look f q = some v ∧ ∃ s ∈ paths, s <+: q

theorem isMap_of_look {c : Option Value} {k : Str} {r : List Str}
    (h : (look c (k :: r)).isSome = true) : isMap c = true := by
  by_contra hmap
  rw [look, get_of_not_isMap (eq_false_iff.mpr hmap), look_none] at h
  cases h

theorem Shown.reveal {f c : Option Value} {paths : List (List Str)} {s : List Str} (hf : Ordered f)
    (h : Shown f paths c) (hs : s ∈ paths) : Shown f paths (reveal f c s) := by
  unfold QueryEngine.reveal
  split
  · next hsm =>
    have hbel : ∀ r, look (edit c s (look f s)) (s ++ r) = look f (s ++ r) := fun r => by
      rw [look_edit_append h.ordered, look_append]
    refine ⟨ordered_edit h.ordered (hf.look s), fun q hq => ?_, fun q v hne hv hlf => ?_⟩
    · rcases prefix_or_apart s q with ⟨r, rfl⟩ | ⟨k, r, rfl⟩ | hapt
      · rw [hbel] at hq ⊢
        exact ⟨hq, rfl⟩
      · obtain ⟨e, fields, hmap⟩ := look_edit_above h.ordered hsm q k r
        have hcl : isMap (look f q) = true := isMap_of_look (by rwa [← look_append])
        rw [hmap, hcl]
        exact ⟨by rw [isMap] at hcl; exact isSome_of_isSome_bind hcl, rfl⟩
      · rw [look_edit_off h.ordered hapt] at hq ⊢
        exact h.within q hq
    · rcases prefix_or_apart s q with ⟨r, rfl⟩ | ⟨k, r, rfl⟩ | hapt
      · rw [hbel] at hv
        exact ⟨hv, s, hs, prefix_append _ _⟩
      · obtain ⟨e, fields, hmap⟩ := look_edit_above h.ordered hsm q k r
        rw [hmap] at hv
        exact absurd (some.inj hv).symm (hlf e fields)
      · rw [look_edit_off h.ordered hapt] at hv
        exact h.leaves q v hne hv hlf
  · exact h

/-- On a part of the document an insertion is an edit. -/
theorem insertProjected_eq (value : Value) (p : List Str) : ∀ {f : Option Value} {k : Str}
    (fields : List (Str × Value)), (look f (k :: p)).isSome = true →
    (∀ q, (look (some (.map fields)) q).isSome = true →
      isMap (look (some (.map fields)) q) = isMap (look f q)) →
    some (.map (insertProjected fields (k :: p) value))
      = edit (some (.map fields)) (k :: p) (some value) := by
  induction p with
  | nil => exact fun _ _ _ => rfl
  | cons j p ih =>
    intro f k fields hsm hwi
    have hmap : isMap (look f [k]) = true := isMap_of_look hsm
    -- what is bound to the key, if anything, is a map as in the document
    have hst : insertProjected fields (k :: j :: p) value = insert k
        (.map (insertProjected (entriesOf (get k fields)) (j :: p) value)) fields := by
      have hk := hwi [k]
      rw [hmap, look, look] at hk
      rw [insertProjected]
      cases hget : get k fields with
      | none => rfl
      | some v => cases v <;> simp_all [isMap, asMap, entriesOf]
    have hch := ih (f := look f [k]) (k := j) (entriesOf (get k fields)) hsm fun q hq => ?_
    · rw [hst]
      simp only [edit, isSome_some, Bool.or_true, if_true] at ⊢
      exact congrArg (fun c => some (Value.map (bindKey k c fields))) hch
    · cases q with
      | nil => exact hmap.symm
      | cons i q => exact hwi (k :: i :: q) hq

/-! ### The projection as a fold of reveals -/

/-- A cell in field-name order. -/
abbrev Cell := { c : Option Value // Ordered c }

def revealCell (f : Fields) (c : Cell) (s : List Str) : Cell :=
  ⟨reveal f.cell c.1 s, ordered_reveal f.ordered_cell c.2 s⟩

instance (f : Fields) : RightCommutative (revealCell f) where
  right_comm c s t := Subtype.ext (reveal_comm f.ordered_cell c.2 s t)

theorem revealCell_revealCell (f : Fields) (c : Cell) (s : List Str) :
    revealCell f (revealCell f c s) s = revealCell f c s := by
  refine Subtype.ext ?_
  by_cases hs : (look f.cell s).isSome = true
  · have hbel := (reveal_below f.ordered_cell c.2 hs []).1
    rwa [append_nil] at hbel
  · simp [revealCell, reveal, hs]

def shownPaths (projection : List FieldPath) : List (List Str) :=
  projection.filterMap fun
    | .field (k :: p) => some (k :: p)
    | _ => none

theorem mem_shownPaths {proj : List FieldPath} {s : List Str} :
    s ∈ shownPaths proj ↔ s ≠ [] ∧ .field s ∈ proj := by
  rw [shownPaths, mem_filterMap]
  constructor
  · rintro ⟨path, hpt, h⟩
    split at h <;> cases h
    exact ⟨cons_ne_nil _ _, hpt⟩
  · rintro ⟨hne, hs⟩
    cases s with
    | nil => exact absurd rfl hne
    | cons k p => exact ⟨_, hs, rfl⟩

/-- Nothing shown yet. -/
def Cell.blank : Cell := ⟨some (.map []), Fields.ordered_cell .empty⟩

theorem foldl_projectPath {f : Fields} {paths : List (List Str)} (proj : List FieldPath)
    (hpas : ∀ s ∈ shownPaths proj, s ∈ paths) : ∀ {fields : List (Str × Value)}
    (h : Shown f.cell paths (some (.map fields))),
    some (Value.map (proj.foldl (projectPath f.entries) fields)) =
        ((shownPaths proj).foldl (revealCell f) ⟨_, h.ordered⟩).1 ∧
      Shown f.cell paths (some (.map (proj.foldl (projectPath f.entries) fields))) := by
  induction proj with
  | nil => exact fun h => ⟨rfl, h⟩
  | cons path proj ih =>
    intro fields h
    have htl : ∀ s ∈ shownPaths proj, s ∈ paths := fun s hs =>
      hpas s (mem_shownPaths.mpr ((mem_shownPaths.mp hs).imp_right (mem_cons_of_mem _)))
    rcases path with _ | (_ | ⟨k, p⟩)
    · exact ih htl h
    · exact ih htl h
    have hnx := h.reveal f.ordered_cell (hpas (k :: p) mem_cons_self)
    have hcl : some (.map (projectPath f.entries fields (.field (k :: p)))) =
        reveal f.cell (some (.map fields)) (k :: p) := by
      rw [projectPath, f.nestedValue_entries (cons_ne_nil k p), reveal]
      cases hlk : look f.cell (k :: p) with
      | none => rfl
      | some value =>
        exact insertProjected_eq value p fields (by rw [hlk]; rfl) fun q hq => (h.within q hq).2
    rw [← hcl] at hnx
    obtain ⟨hfl, hshn⟩ := ih htl hnx
    refine ⟨hfl.trans ?_, hshn⟩
    have hbeg : (⟨_, hnx.ordered⟩) = revealCell f ⟨_, h.ordered⟩ (k :: p) :=
      Subtype.ext hcl
    rw [hbeg]
    rfl

section

variable (f : Fields) (proj : List FieldPath)

theorem shown_blank (paths : List (List Str)) : Shown f.cell paths Cell.blank.1 where
  ordered := Cell.blank.2
  within q hq := by
    cases q with
    | nil => exact ⟨rfl, rfl⟩
    | cons k q => exact absurd (look_none q ▸ hq) nofun
  leaves q v hne hv _ := by
    cases q with
    | nil => exact absurd rfl hne
    | cons k q => exact nomatch (look_none q).symm.trans hv

theorem project_eq : some (Value.map (project f.entries proj)) =
    ((shownPaths proj).foldl (revealCell f) Cell.blank).1 :=
  (foldl_projectPath proj (fun _ h => h) (shown_blank f _)).1

theorem project_shown :
    Shown f.cell (shownPaths proj) (some (.map (project f.entries proj))) :=
  (foldl_projectPath proj (fun _ h => h) (shown_blank f _)).2

theorem project_eq_of_mem_iff {proj' : List FieldPath} (h : ∀ p, p ∈ proj ↔ p ∈ proj') :
    project f.entries proj = project f.entries proj' := by
  refine Value.map.inj (some.inj ?_)
  rw [project_eq, project_eq, foldl_eq_of_mem_iff (revealCell_revealCell f) fun s => ?_]
  rw [mem_shownPaths, mem_shownPaths, h]

/-- Selecting a path once more reveals nothing, so it was shown. -/
theorem look_project {s : List Str} (hs : s ∈ shownPaths proj) :
    look (some (.map (project f.entries proj))) s = look f.cell s := by
  have hshn := project_shown f proj
  have haga : reveal f.cell (some (.map (project f.entries proj))) s =
      some (.map (project f.entries proj)) := by
    have hmem : ∀ t, t ∈ shownPaths proj ++ [s] ↔ t ∈ shownPaths proj := by
      intro t
      rw [mem_append, mem_singleton, or_iff_left_of_imp (· ▸ hs)]
    have := foldl_eq_of_mem_iff (revealCell_revealCell f) hmem Cell.blank
    rw [foldl_append] at this
    rw [project_eq]
    exact congrArg Subtype.val this
  rw [reveal] at haga
  split at haga
  · have hlk := look_edit_append (v := look f.cell s) hshn.ordered s []
    rwa [append_nil, haga] at hlk
  · next hnn =>
    rw [not_isSome_iff_eq_none.mp hnn, eq_none_iff_forall_not_mem]
    exact fun v hv => hnn (hshn.within s (isSome_of_mem hv)).1

theorem project_project :
    project (project f.entries proj) proj = project f.entries proj := by
  let g : Fields := ⟨project f.entries proj, (project_shown f proj).ordered _ rfl⟩
  refine Value.map.inj (some.inj ?_)
  rw [project_eq f, project_eq g]
  refine congrArg Subtype.val (foldl_ext _ _ _ fun c s hs => Subtype.ext ?_)
  have hlk : look g.cell s = look f.cell s := look_project f proj hs
  change reveal g.cell c.1 s = reveal f.cell c.1 s
  rw [reveal, hlk, reveal]

end

/-- **A projection shows exactly the selected paths**: it depends on which paths are selected, has
at each what the document has, shows nothing else, and projecting again changes nothing. -/
theorem project_selected (f : Fields) (proj : List FieldPath) :
    (∀ proj', (∀ p, p ∈ proj ↔ p ∈ proj') → project f.entries proj = project f.entries proj') ∧
      (∀ s, .field s ∈ proj → nestedValue (project f.entries proj) s = nestedValue f.entries s) ∧
      (∀ q v, nestedValue (project f.entries proj) q = some v → Leaf v →
        nestedValue f.entries q = some v ∧ ∃ s, s ≠ [] ∧ .field s ∈ proj ∧ s <+: q) ∧
      project (project f.entries proj) proj = project f.entries proj := by
  refine ⟨fun _ h => project_eq_of_mem_iff f proj h, fun s hs => ?_, fun q v hv hlf => ?_,
    project_project f proj⟩
  · cases s with
    | nil => rfl
    | cons k p =>
      rw [nestedValue_eq, nestedValue_eq]
      exact look_project f proj (mem_shownPaths.mpr ⟨cons_ne_nil k p, hs⟩)
  · cases q with
    | nil => cases hv
    | cons k p =>
      rw [nestedValue_eq] at hv ⊢
      obtain ⟨hf, s, hs, hpre⟩ :=
        (project_shown f proj).leaves _ v (cons_ne_nil k p) hv hlf
      obtain ⟨hne, hmem⟩ := mem_shownPaths.mp hs
      exact ⟨hf, s, hne, hmem, hpre⟩

end Firenook.QueryEngine
