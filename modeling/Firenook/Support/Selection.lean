import Mathlib.Data.List.Destutter
import Mathlib.Data.List.Sort

/-!
# Selection — the first or last of an ordered list, kept in a bounded window

A list can be cut to its first or last elements under a comparator without sorting it whole: a
window of bounded size takes one element after the other, at the place a binary search finds, and
drops what falls out.

`binarySearchBy` is the search of the Rust standard library. On an ordered list it finds the place
of every element that compares equal to none (`insertion_binarySearchBy`). The windows
`keepFirst`, `keepBelow` and `keepLast` then hold the first or last elements of what was seen
(`foldl_keepFirst`, `foldl_keepBelow`, `foldl_keepLast`).

A list that is sorted and rid of adjacent repeats may still hold an element twice, when different
elements compare equal; `nodup_destutter_sortBy` says when.
-/

namespace Selection

open List Std OrientedCmp TransCmp Nat

variable {α : Type*}

/-! ### Binary search -/

/-- The loop of the search: the range of `size` elements from `base` is halved until one is left.
The first argument bounds the number of rounds. -/
def searchLoop (probe : α → Ordering) (l : List α) : Nat → Nat → Nat → Nat
  | 0, _, base => base
  | rounds + 1, size, base =>
    if size ≤ 1 then base
    else
      let half := size / 2
      let mid := base + half
      searchLoop probe l rounds (size - half)
        (if l[mid]?.map probe = some .gt then base else mid)

/-- `slice::binary_search_by`: the index of a match, or the index to insert at. -/
def binarySearchBy (probe : α → Ordering) (l : List α) : Except Nat Nat :=
  if l.length = 0 then .error 0
  else
    let base := searchLoop probe l l.length l.length 0
    match l[base]?.map probe with
    | some .eq => .ok base
    | some .lt => .error (base + 1)
    | _ => .error base

/-- The index found, a match or not. -/
def insertion : Except Nat Nat → Nat
  | .ok i => i
  | .error i => i

variable {probe : α → Ordering} {lo hi l : List α}

theorem probe_of_lt (hlo : ∀ x ∈ lo, probe x = .lt) {i : Nat} (h : i < lo.length) :
    (lo ++ hi)[i]?.map probe = some .lt := by
  rw [getElem?_append_left h, getElem?_eq_getElem h, Option.map_some, hlo _ (getElem_mem h)]

theorem probe_of_ge (hhi : ∀ x ∈ hi, probe x = .gt) {i : Nat} (h : lo.length ≤ i)
    (hi' : i < (lo ++ hi).length) : (lo ++ hi)[i]?.map probe = some .gt := by
  rw [length_append] at hi'
  have hlt : i - lo.length < hi.length := by omega
  rw [getElem?_append_right h, getElem?_eq_getElem hlt, Option.map_some, hhi _ (getElem_mem hlt)]

section

variable (hlo : ∀ x ∈ lo, probe x = .lt) (hhi : ∀ x ∈ hi, probe x = .gt)

include hlo hhi

/-- The boundary stays in the range, past its first element unless that is the list's. -/
theorem searchLoop_spec (rounds size base : Nat) (hrn : size ≤ rounds + 1)
    (hrng : base + size ≤ (lo ++ hi).length) (hsz : 1 ≤ size)
    (hbs : base = 0 ∨ base < lo.length) (hbd : lo.length ≤ base + size) :
    let found := searchLoop probe (lo ++ hi) rounds size base
    found < (lo ++ hi).length ∧ (found = 0 ∨ found < lo.length) ∧ lo.length ≤ found + 1 := by
  induction rounds generalizing size base with
  | zero =>
    exact ⟨by simp only [searchLoop]; omega, hbs, by simp only [searchLoop]; omega⟩
  | succ rounds ih =>
    simp only [searchLoop]
    split
    · exact ⟨by omega, hbs, by omega⟩
    next hmr =>
    by_cases hmid : base + size / 2 < lo.length
    · rw [probe_of_lt hlo hmid, if_neg (by decide)]
      exact ih _ _ (by omega) (by omega) (by omega) (.inr hmid) (by omega)
    · rw [probe_of_ge hhi (Nat.le_of_not_lt hmid) (by omega), if_pos rfl]
      exact ih _ _ (by omega) (by omega) (by omega) hbs (by omega)

/-- **Binary search finds the boundary** between what probes less and what probes greater. -/
theorem insertion_binarySearchBy : insertion (binarySearchBy probe (lo ++ hi)) = lo.length := by
  unfold binarySearchBy
  split
  · next hemp =>
    rw [length_append] at hemp
    rw [insertion]
    omega
  · next hsm =>
    obtain ⟨hfd, hbs, hbd⟩ := searchLoop_spec hlo hhi (lo ++ hi).length (lo ++ hi).length 0
      (by omega) (by omega) (by omega) (.inl rfl) (by simp)
    dsimp only
    by_cases hlt : searchLoop probe (lo ++ hi) (lo ++ hi).length (lo ++ hi).length 0 < lo.length
    · rw [probe_of_lt hlo hlt]
      exact Nat.le_antisymm hlt hbd
    · rw [probe_of_ge hhi (Nat.le_of_not_lt hlt) hfd]
      simp only [insertion]
      omega

end

/-! ### Ordered lists -/

section Ordered

variable (cmp : α → α → Ordering)

/-- Elements strictly increase. -/
def Increasing (l : List α) : Prop := l.Pairwise fun x y => cmp x y = .lt

/-- No two elements compare equal. -/
def Distinct (l : List α) : Prop := l.Pairwise fun x y => cmp x y ≠ .eq

instance (l : List α) : Decidable (Distinct cmp l) :=
  inferInstanceAs (Decidable (l.Pairwise fun x y => cmp x y ≠ .eq))

/-- A stable sort. -/
def sortBy (l : List α) : List α := l.insertionSort fun x y => (cmp x y).isLE

/-- The list with `a` at the place a binary search finds. -/
def place (a : α) (l : List α) : List α :=
  l.insertIdx (insertion (binarySearchBy (cmp · a) l)) a

variable {cmp}

theorem insertIdx_length (lo hi : List α) (a : α) :
    (lo ++ hi).insertIdx lo.length a = lo ++ a :: hi := by
  induction lo with
  | nil => exact insertIdx_zero
  | cons x lo ih => rw [cons_append, length_cons, insertIdx_succ_cons, ih, cons_append]

theorem place_append {a : α} (hlo : ∀ x ∈ lo, cmp x a = .lt) (hhi : ∀ x ∈ hi, cmp x a = .gt) :
    place cmp a (lo ++ hi) = lo ++ a :: hi := by
  rw [place, insertion_binarySearchBy hlo hhi, insertIdx_length]

theorem perm_sortBy (l : List α) : (sortBy cmp l).Perm l := perm_insertionSort _ l

theorem increasing_take (hl : Increasing cmp l) (n : Nat) :
    Increasing cmp (l.take n) := List.Pairwise.sublist (take_sublist n l) hl

/-- The last `bound` elements. -/
def lastOf (bound : Nat) (l : List α) : List α := l.drop (l.length - bound)

/-- The last elements of an ordered list are ordered. -/
theorem increasing_lastOf (hl : Increasing cmp l) (bound : Nat) :
    Increasing cmp (lastOf bound l) := List.Pairwise.sublist (drop_sublist _ l) hl

variable [TransCmp cmp]

section

variable {l : List α} (hl : Increasing cmp l) {a : α} (ha : ∀ x ∈ l, cmp x a ≠ .eq)

include hl ha

/-- An ordered list splits at an element that compares equal to none of its own. -/
theorem exists_split :
    ∃ lo hi, l = lo ++ hi ∧ (∀ x ∈ lo, cmp x a = .lt) ∧ ∀ x ∈ hi, cmp x a = .gt := by
  induction l with
  | nil => exact ⟨[], [], rfl, nofun, nofun⟩
  | cons x l ih =>
    obtain ⟨hx, hl⟩ := pairwise_cons.mp hl
    obtain ⟨hxa, ha⟩ := forall_mem_cons.mp ha
    cases hcmp : cmp x a with
    | lt =>
      obtain ⟨lo, hi, rfl, hlo, hhi⟩ := ih hl ha
      exact ⟨x :: lo, hi, rfl, forall_mem_cons.mpr ⟨hcmp, hlo⟩, hhi⟩
    | eq => exact absurd hcmp hxa
    | gt =>
      refine ⟨[], x :: l, rfl, nofun, forall_mem_cons.mpr ⟨hcmp, fun y hy => ?_⟩⟩
      exact gt_trans (gt_of_lt (hx y hy)) hcmp

theorem increasing_place : Increasing cmp (place cmp a l) := by
  obtain ⟨lo, hi, rfl, hlo, hhi⟩ := exists_split hl ha
  rw [place_append hlo hhi]
  obtain ⟨hlf, hrt, hacr⟩ := pairwise_append.mp hl
  refine pairwise_append.mpr ⟨hlf, pairwise_cons.mpr ⟨fun x hx => ?_, hrt⟩, ?_⟩
  · exact lt_of_gt (hhi x hx)
  intro x hx y hy
  rcases mem_cons.mp hy with rfl | hy
  · exact hlo x hx
  · exact hacr x hx y hy

theorem perm_place : (place cmp a l).Perm (a :: l) := by
  obtain ⟨lo, hi, rfl, hlo, hhi⟩ := exists_split hl ha
  rw [place_append hlo hhi]
  exact perm_middle

theorem length_place : (place cmp a l).length = l.length + 1 :=
  (perm_place hl ha).length_eq

end

/-- An ordered list is determined by its elements. -/
theorem Increasing.eq_of_perm {l' : List α} (hl : Increasing cmp l) (hl' : Increasing cmp l')
    (h : l.Perm l') : l = l' := by
  refine h.eq_of_pairwise (fun x y _ _ hxy hyx => ?_) hl hl'
  rw [gt_of_lt hyx] at hxy
  cases hxy

theorem Distinct.perm {l' : List α} (hl : Distinct cmp l) (h : l.Perm l') : Distinct cmp l' :=
  List.Pairwise.perm hl h fun hne heq => hne (eq_symm heq)

theorem pairwise_sortBy (l : List α) : (sortBy cmp l).Pairwise fun x y => (cmp x y).isLE := by
  have : Std.Total fun x y => ((cmp x y).isLE) :=
    ⟨fun x y => by
      cases hxy : cmp x y with
      | gt => exact .inr (Ordering.isLE_of_eq_lt (lt_of_gt hxy))
      | _ => exact .inl rfl⟩
  have : IsTrans α fun x y => ((cmp x y).isLE) := ⟨fun _ _ _ => isLE_trans⟩
  exact pairwise_insertionSort (fun x y => ((cmp x y).isLE : Prop)) l

/-- Sorting distinct elements orders them strictly. -/
theorem increasing_sortBy (hl : Distinct cmp l) : Increasing cmp (sortBy cmp l) := by
  refine ((pairwise_sortBy l).and (hl.perm (perm_sortBy l).symm)).imp ?_
  rintro x y ⟨hle, hne⟩
  exact Ordering.isLE_iff_eq_lt_or_eq_eq.mp hle |>.resolve_right hne

theorem sortBy_of_increasing (h : Increasing cmp l) : sortBy cmp l = l :=
  (increasing_sortBy (h.imp fun hlt => by rw [hlt]; decide)).eq_of_perm h (perm_sortBy l)

/-- Sorting one more element places it. -/
theorem sortBy_concat {a : α} (h : Distinct cmp (l ++ [a])) :
    sortBy cmp (l ++ [a]) = place cmp a (sortBy cmp l) := by
  obtain ⟨hl, -, hacr⟩ := pairwise_append.mp h
  have ha : ∀ x ∈ sortBy cmp l, cmp x a ≠ .eq := fun x hx =>
    hacr x ((perm_sortBy l).mem_iff.mp hx) a (mem_singleton_self a)
  have hinc := increasing_sortBy hl
  refine (increasing_sortBy h).eq_of_perm (increasing_place hinc ha) ?_
  calc (sortBy cmp (l ++ [a])).Perm (l ++ [a]) := perm_sortBy _
    _ |>.Perm (a :: l) := perm_append_singleton a l
    _ |>.Perm (a :: sortBy cmp l) := (perm_sortBy l).symm.cons a
    _ |>.Perm (place cmp a (sortBy cmp l)) := (perm_place hinc ha).symm

/-! ### Windows -/

variable (cmp)

/-- Places the element and drops the last one of a window that is too long. -/
def keepFirst (bound : Nat) (selected : List α) (a : α) : List α :=
  let selected := place cmp a selected
  if bound < selected.length then selected.dropLast else selected

/-- Places the element only below the bound, and cuts the window to it. -/
def keepBelow (bound : Nat) (selected : List α) (a : α) : List α :=
  let position := insertion (binarySearchBy (cmp · a) selected)
  if position < bound then (selected.insertIdx position a).take bound else selected

/-- Places the element and drops the first one of a window that is too long. -/
def keepLast (bound : Nat) (selected : List α) (a : α) : List α :=
  let selected := place cmp a selected
  if bound < selected.length then selected.tail else selected

variable {cmp}

section Step

variable {l : List α} (hl : Increasing cmp l) {a : α} (ha : ∀ x ∈ l, cmp x a ≠ .eq)

include hl ha

/-- Placing an element in the first elements, and in the whole list. -/
theorem take_place_take (bound : Nat) :
    (place cmp a (l.take bound)).take bound = (place cmp a l).take bound := by
  obtain ⟨lo, hi, rfl, hlo, hhi⟩ := exists_split hl ha
  rw [place_append hlo hhi]
  rcases le_total bound lo.length with hb | hb
  · have hlf : ∀ x ∈ lo.take bound, cmp x a = .lt := fun x hx => hlo x (mem_of_mem_take hx)
    have hplc : place cmp a (lo.take bound ++ []) = _ := place_append hlf nofun
    rw [append_nil] at hplc
    rw [take_append_of_le_length hb, hplc, take_append_of_le_length hb,
      take_append_of_le_length (by rw [length_take]; omega), take_take, Nat.min_self]
  · have hrt : ∀ x ∈ hi.take (bound - lo.length), cmp x a = .gt :=
      fun x hx => hhi x (mem_of_mem_take hx)
    rw [take_append, take_of_length_le hb, place_append hlo hrt, take_append, take_append]
    cases bound - lo.length with
    | zero => rfl
    | succ n => rw [take_succ_cons, take_succ_cons, take_take, min_eq_left (le_succ n)]

theorem lastOf_place_lastOf (bound : Nat) :
    lastOf bound (place cmp a (lastOf bound l)) = lastOf bound (place cmp a l) := by
  obtain ⟨lo, hi, rfl, hlo, hhi⟩ := exists_split hl ha
  rw [place_append hlo hhi]
  simp only [lastOf, length_append, length_cons]
  rcases lt_or_ge hi.length bound with hb | hb
  · have hlf : ∀ x ∈ lo.drop (lo.length + hi.length - bound), cmp x a = .lt :=
      fun x hx => hlo x (mem_of_mem_drop hx)
    have hin : lo.length + hi.length - bound ≤ lo.length := by omega
    have hrs : lo.length - (lo.length + hi.length - bound) + (hi.length + 1) - bound ≤
        (lo.drop (lo.length + hi.length - bound)).length := by
      rw [length_drop]
      omega
    have hwhl : lo.length + (hi.length + 1) - bound ≤ lo.length := by omega
    rw [drop_append_of_le_length hin, place_append hlf hhi, length_append,
      length_drop, length_cons, drop_append_of_le_length hrs, drop_drop,
      drop_append_of_le_length hwhl]
    congr 2
    omega
  · have hrt : ∀ x ∈ hi.drop (hi.length - bound), cmp x a = .gt :=
      fun x hx => hhi x (mem_of_mem_drop hx)
    have hplc : place cmp a ([] ++ hi.drop (hi.length - bound)) = _ := place_append nofun hrt
    rw [nil_append, nil_append] at hplc
    have hdr : (lo ++ hi).drop (lo.length + hi.length - bound) = hi.drop (hi.length - bound) := by
      rw [Nat.add_sub_assoc hb, drop_append, drop_eq_nil_of_le (Nat.le_add_right _ _),
        Nat.add_sub_cancel_left, nil_append]
    have hwhl : (lo ++ a :: hi).drop (lo.length + (hi.length + 1) - bound) =
        hi.drop (hi.length - bound) := by
      rw [Nat.add_sub_assoc (by omega), drop_append,
        drop_eq_nil_of_le (Nat.le_add_right _ _), Nat.add_sub_cancel_left, nil_append,
        Nat.sub_add_comm hb, drop_succ_cons]
    rw [hdr, hplc, hwhl, length_cons, length_drop,
      show hi.length - (hi.length - bound) + 1 - bound = 0 + 1 by omega, drop_succ_cons,
      drop_zero]

theorem keepFirst_take (bound : Nat) :
    keepFirst cmp bound (l.take bound) a = (place cmp a l).take bound := by
  have hlen := length_place (increasing_take hl bound) fun x hx => ha x (mem_of_mem_take hx)
  rw [length_take] at hlen
  rw [← take_place_take hl ha]
  simp only [keepFirst]
  split
  · next hln =>
    rw [dropLast_eq_take]
    congr 1
    omega
  · next hsh => rw [take_of_length_le (Nat.le_of_not_lt hsh)]

theorem keepLast_lastOf (bound : Nat) :
    keepLast cmp bound (lastOf bound l) a = lastOf bound (place cmp a l) := by
  have hlen : (place cmp a (lastOf bound l)).length = (lastOf bound l).length + 1 :=
    length_place (increasing_lastOf hl _) fun x hx => ha x (mem_of_mem_drop hx)
  have hle : (lastOf bound l).length ≤ bound := by
    rw [lastOf, length_drop]
    omega
  rw [← lastOf_place_lastOf hl ha, keepLast]
  generalize place cmp a (lastOf bound l) = placed at hlen
  rw [lastOf]
  split
  · rw [← drop_one]
    congr 1
    omega
  · next hsh => rw [Nat.sub_eq_zero_of_le (Nat.le_of_not_lt hsh), drop_zero]

theorem keepBelow_take (bound : Nat) :
    keepBelow cmp bound (l.take bound) a = (place cmp a l).take bound := by
  rw [← take_place_take hl ha]
  obtain ⟨lo, hi, hspl, hlo, hhi⟩ := exists_split (increasing_take hl bound)
    fun x hx => ha x (mem_of_mem_take hx)
  have hlen : lo.length + hi.length ≤ bound := by
    rw [← length_append, ← hspl, length_take]
    omega
  simp only [keepBelow]
  rw [hspl, place_append hlo hhi, insertion_binarySearchBy hlo hhi, insertIdx_length]
  split
  · rfl
  next hfl =>
  obtain rfl : hi = [] := eq_nil_of_length_eq_zero (by omega)
  rw [append_nil, take_append_of_le_length (by omega), take_of_length_le (by omega)]

end Step

/-- **A window over a whole list.** A step that follows the placement of one element in the cut of
an ordered list gives, element by element, the cut of the sorted list. -/
theorem foldl_window (cut : List α → List α) {keep : List α → α → List α}
    (hst : ∀ l a, Increasing cmp l → (∀ x ∈ l, cmp x a ≠ .eq) →
      keep (cut l) a = cut (place cmp a l)) (l seen : List α) (h : Distinct cmp (seen ++ l)) :
    l.foldl keep (cut (sortBy cmp seen)) = cut (sortBy cmp (seen ++ l)) := by
  induction l generalizing seen with
  | nil =>
    rw [append_nil, foldl_nil]
  | cons a l ih =>
    have hall : seen ++ a :: l = seen ++ [a] ++ l := by simp
    rw [hall] at h ⊢
    have hsn : Distinct cmp (seen ++ [a]) := (pairwise_append.mp h).1
    have ha : ∀ x ∈ sortBy cmp seen, cmp x a ≠ .eq := fun x hx =>
      (pairwise_append.mp hsn).2.2 x ((perm_sortBy seen).mem_iff.mp hx) a (mem_singleton_self a)
    rw [foldl_cons, hst _ a (increasing_sortBy (pairwise_append.mp hsn).1) ha,
      ← sortBy_concat hsn, ih _ h]

variable {l : List α} (h : Distinct cmp l)

include h

theorem foldl_keepFirst (bound : Nat) :
    l.foldl (keepFirst cmp bound) [] = (sortBy cmp l).take bound := by
  have hwin := foldl_window (·.take bound) (fun _ _ hl ha => keepFirst_take hl ha bound) l [] h
  rwa [sortBy, insertionSort_nil, take_nil] at hwin

theorem foldl_keepBelow (bound : Nat) :
    l.foldl (keepBelow cmp bound) [] = (sortBy cmp l).take bound := by
  have hwin := foldl_window (·.take bound) (fun _ _ hl ha => keepBelow_take hl ha bound) l [] h
  rwa [sortBy, insertionSort_nil, take_nil] at hwin

theorem foldl_keepLast (bound : Nat) :
    l.foldl (keepLast cmp bound) [] = lastOf bound (sortBy cmp l) := by
  have hwin := foldl_window (lastOf bound) (fun _ _ hl ha => keepLast_lastOf hl ha bound) l [] h
  rwa [sortBy, insertionSort_nil, lastOf, drop_nil] at hwin

end Ordered

/-! ### Sorting and dropping repeats -/

section Repeats

variable {cmp : α → α → Ordering} [TransCmp cmp]

/-- The sort is stable: elements equal to a given one keep their order. -/
theorem filter_sortBy (l : List α) (x : α) :
    (sortBy cmp l).filter (fun y => cmp y x = .eq) = l.filter fun y => cmp y x = .eq := by
  have hins : ∀ a (s),
      (s.orderedInsert (fun y z => (cmp y z).isLE) a).filter (fun y => cmp y x = .eq) =
        (a :: s).filter fun y => cmp y x = .eq := by
    intro a s
    induction s with
    | nil => rfl
    | cons b s ih =>
      rw [orderedInsert_cons]
      split
      · rfl
      next hle =>
      rw [filter_cons, ih, filter_cons, filter_cons, filter_cons]
      -- an element passed over is below `a`, so `a` and it are not both equal to `x`
      have hlt : cmp b a = .lt := by
        rw [Bool.not_eq_true, Ordering.isLE_eq_false] at hle
        exact lt_of_gt hle
      by_cases ha : cmp a x = .eq
      · have hb : cmp b x = .lt := lt_of_lt_of_eq hlt ha
        simp [hb]
      · simp [ha]
  induction l with
  | nil => rfl
  | cons a l ih =>
    rw [sortBy, insertionSort_cons, hins, filter_cons, filter_cons]
    rw [sortBy] at ih
    rw [ih]

/-- What stands between two occurrences in a sorted list compares equal, and stood there before. -/
theorem repeats_sortBy {x j : α} :
    [x, j, x].Sublist (sortBy cmp l) ↔ [x, j, x].Sublist l ∧ cmp j x = .eq := by
  have hflt : ∀ s : List α, cmp j x = .eq →
      ([x, j, x].Sublist s ↔ [x, j, x].Sublist (s.filter fun y => cmp y x = .eq)) := by
    intro s hj
    have hsl : [x, j, x].filter (fun y => cmp y x = .eq) = [x, j, x] := by
      simp [hj, (ReflCmp.compare_self)]
    exact ⟨fun h => hsl ▸ h.filter _, fun h => h.trans filter_sublist⟩
  constructor
  · intro h
    have hsrt := (pairwise_sortBy l).sublist h
    simp only [pairwise_cons, mem_cons, not_mem_nil, or_false, forall_eq_or_imp, forall_eq] at hsrt
    have hj : cmp j x = .eq := isLE_antisymm hsrt.2.1 hsrt.1.1
    rw [hflt _ hj, filter_sortBy, ← hflt _ hj] at h
    exact ⟨h, hj⟩
  · rintro ⟨h, hj⟩
    rwa [hflt _ hj, filter_sortBy, ← hflt _ hj]

/-- Between two occurrences of an element that is never repeated at once lies another. -/
theorem exists_between {d : List α} {x : α} (hd : d.IsChain (· ≠ ·)) (h : [x, x].Sublist d) :
    ∃ j, j ≠ x ∧ [x, j, x].Sublist d := by
  induction d with
  | nil => cases h
  | cons a d ih =>
    cases h with
    | cons _ h =>
      obtain ⟨j, hj, hsub⟩ := ih hd.tail h
      exact ⟨j, hj, hsub.cons a⟩
    | cons_cons _ h =>
      cases d with
      | nil => cases h
      | cons b d =>
        have hne := (isChain_cons_cons.mp hd).1
        refine ⟨b, hne.symm, ?_⟩
        cases h with
        | cons _ h => exact (h.cons_cons b).cons_cons x
        | cons_cons _ h => exact absurd rfl hne

variable [DecidableEq α]

/-- Dropping adjacent repeats keeps every sublist without adjacent repeats. -/
theorem sublist_destutter {c : List α} (hc : c.IsChain (· ≠ ·)) (h : c.Sublist l) :
    c.Sublist (l.destutter (· ≠ ·)) := by
  cases l with
  | nil => exact h
  | cons a l =>
    rw [destutter_cons']
    induction l generalizing a c with
    | nil => exact h
    | cons b l ih =>
      by_cases hab : a = b
      · subst hab
        rw [destutter'_cons_neg _ (not_not_intro rfl)]
        refine ih hc a ?_
        -- the repeated head is used at once
        cases h with
        | cons _ h => exact h
        | cons_cons _ h =>
          cases h with
          | cons _ h => exact h.cons_cons a
          | cons_cons _ h => exact absurd rfl (isChain_cons_cons.mp hc).1
      · rw [destutter'_cons_pos _ hab]
        cases h with
        | cons _ h => exact (ih hc b h).cons a
        | cons_cons _ h => exact (ih hc.tail b h).cons_cons a

theorem repeats_destutter {x : α} :
    [x, x].Sublist (l.destutter (· ≠ ·)) ↔ ∃ j, j ≠ x ∧ [x, j, x].Sublist l := by
  constructor
  · intro h
    obtain ⟨j, hj, hsub⟩ := exists_between (isChain_destutter _ l) h
    exact ⟨j, hj, hsub.trans (destutter_sublist _ l)⟩
  · rintro ⟨j, hj, h⟩
    have hchn : [x, j, x].IsChain (· ≠ ·) := by simp [hj, hj.symm]
    exact ((List.Sublist.refl [x]).cons j |>.cons_cons x).trans (sublist_destutter hchn h)

/-- **When sorting and dropping adjacent repeats leaves no repeat**: an element stays twice exactly
when it was listed twice around a different one that compares equal to it. -/
theorem nodup_destutter_sortBy {p : α → Bool} :
    (((sortBy cmp l).destutter (· ≠ ·)).filter p).Nodup ↔
      ∀ x j, p x = true → [x, j, x].Sublist l → cmp j x = .eq → j = x := by
  rw [nodup_iff_sublist]
  constructor
  · intro h x j hx hsub hj
    by_contra hne
    have hrpt := repeats_destutter.mpr ⟨j, hne, repeats_sortBy.mpr ⟨hsub, hj⟩⟩
    refine h x ?_
    have hfl := hrpt.filter p
    simpa [hx] using hfl
  · intro h x hsub
    have hx : p x = true := (mem_filter.mp (hsub.subset (mem_cons_self ..))).2
    obtain ⟨j, hne, hbtw⟩ := repeats_destutter.mp (hsub.trans filter_sublist)
    obtain ⟨hlis, hj⟩ := repeats_sortBy.mp hbtw
    exact hne (h x j hx hlis hj)

end Repeats
end Selection
