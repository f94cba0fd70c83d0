import Mathlib.Algebra.BigOperators.Ring.List
import Firenook.Rules.Match

/-!
# Rules — the branches of a query filter

A `list` request is proved once for every alternative its filter leaves open (`branches` of
`query_constraints.rs`). The filter is a tree of conjunctions and disjunctions over field
predicates; its branches are the conjunctions of a disjunctive form, at most `maxBranches` of them.

`QueryFilter.Holds` says what a filter means under an assignment of truth to atomic predicates, and
`QueryFilter.Refused` says which filters have no form: an empty disjunction or list of alternatives,
alternatives that are no list, or more than `maxBranches` conjunctions on the way.

**Normal form** (`branches_normal_form`). The branches of an accepted filter mean the filter, and a
filter is rejected exactly when it is refused.
-/

namespace Firenook.Rules

open List Fallible Nat

variable {size : Nat}

/-! ### Filters -/

/-- An operand of a predicate. A float is its bits. -/
inductive Value where
  | null
  | bool (b : Bool)
  | integer (n : Int)
  | float (bits : UInt64)
  | string (text : Text)
  | list (values : List Value)
  | map (fields : List (Text × Value))
  | timestamp (time : Timestamp)
  | duration (seconds nanoseconds : Int)
  | path (text : Text)
  | bytes (data : List UInt8)
  | latLng (latitude longitude : UInt64)

inductive ConstraintOperator where
  | equal
  | greater
  | greaterEqual
  | less
  | lessEqual
  | notEqual
  | in
  | notIn
  | arrayContains
  | arrayContainsAny
  deriving DecidableEq

structure FieldConstraint where
  field : List Text
  operator : ConstraintOperator
  value : Value

inductive QueryFilter where
  | field (constraint : FieldConstraint)
  | and (filters : List QueryFilter)
  | or (filters : List QueryFilter)

/-- An evaluation failure, which the evaluator carries as text. -/
structure RuntimeError where
  message : String

abbrev Branch := List FieldConstraint

/-! ### The code -/

def maxBranches : Nat := 30

/-- `usize::saturating_mul` -/
def saturatingMul (a b : Nat) : Nat := min (a * b) (2 ^ 64 - 1)

def checkSize (size : Nat) : Except RuntimeError Unit :=
  if size > maxBranches then .error ⟨"query proof exceeds 30 disjunctions"⟩ else .ok ()

/-- The operator that each alternative of an `in` or an `array-contains-any` has. -/
def ConstraintOperator.alternative : ConstraintOperator → Option ConstraintOperator
  | .in => some .equal
  | .arrayContainsAny => some .arrayContains
  | _ => none

/-- The arm of `branches` for a field. -/
def FieldConstraint.branches (c : FieldConstraint) : Except RuntimeError (List Branch) :=
  match c.operator.alternative with
  | none => .ok [[c]]
  | some operator =>
    match c.value with
    | .list [] => .error ⟨"query alternatives cannot be empty"⟩
    | .list values => do
      checkSize values.length
      .ok (values.map fun value => [⟨c.field, operator, value⟩])
    | _ => .error ⟨"query alternatives must be a list"⟩

/-- Every conjunction of `left` joined with every one of `right`. -/
def product (left right : List Branch) : List Branch :=
  left.flatMap fun l => right.map fun r => l ++ r

/-- The checks that close `branches`. -/
def checked (result : List Branch) : Except RuntimeError (List Branch) := do
  checkSize result.length
  if result.isEmpty then .error ⟨"query proof cannot have an empty disjunction"⟩ else .ok result

mutual

def QueryFilter.branches : QueryFilter → Except RuntimeError (List Branch)
  | .field c => do checked (← c.branches)
  | .or filters => do checked (← orBranches [] filters)
  | .and filters => do checked (← andBranches [[]] filters)

/-- The loop of a disjunction. -/
def orBranches (result : List Branch) : List QueryFilter → Except RuntimeError (List Branch)
  | [] => .ok result
  | filter :: filters => do
    let alternatives ← filter.branches
    checkSize (result ++ alternatives).length
    orBranches (result ++ alternatives) filters

/-- The loop of a conjunction. -/
def andBranches (result : List Branch) : List QueryFilter → Except RuntimeError (List Branch)
  | [] => .ok result
  | filter :: filters => do
    let alternatives ← filter.branches
    checkSize (saturatingMul result.length alternatives.length)
    andBranches (product result alternatives) filters

end

def branches : Option QueryFilter → Except RuntimeError (List Branch)
  | none => .ok [[]]
  | some filter => filter.branches

/-! ### What a filter means -/

/-- The operands of an `in` or an `array-contains-any`. -/
def Value.operands : Value → List Value
  | .list values => values
  | _ => []

/-- **Meaning of a predicate** under an assignment: an `in` is some equality, an
`array-contains-any` some `array-contains`, any other predicate itself. -/
def FieldConstraint.Holds (truth : FieldConstraint → Prop) (c : FieldConstraint) : Prop :=
  match c.operator with
  | .in => ∃ value ∈ c.value.operands, truth ⟨c.field, .equal, value⟩
  | .arrayContainsAny => ∃ value ∈ c.value.operands, truth ⟨c.field, .arrayContains, value⟩
  | _ => truth c

mutual

/-- **Meaning of a filter** under an assignment of truth to atomic predicates. -/
def QueryFilter.Holds (truth : FieldConstraint → Prop) : QueryFilter → Prop
  | .field c => c.Holds truth
  | .or filters => someHolds truth filters
  | .and filters => everyHolds truth filters

def someHolds (truth : FieldConstraint → Prop) : List QueryFilter → Prop
  | [] => False
  | filter :: filters => filter.Holds truth ∨ someHolds truth filters

def everyHolds (truth : FieldConstraint → Prop) : List QueryFilter → Prop
  | [] => True
  | filter :: filters => filter.Holds truth ∧ everyHolds truth filters

end

/-- A branch is a conjunction, a list of branches their disjunction. -/
def SomeBranch (truth : FieldConstraint → Prop) (result : List Branch) : Prop :=
  ∃ branch ∈ result, ∀ c ∈ branch, truth c

/-- The predicate is no list of alternatives. -/
def FieldConstraint.Atomic (c : FieldConstraint) : Prop :=
  c.operator ≠ .in ∧ c.operator ≠ .arrayContainsAny

/-! ### How many conjunctions it stands for -/

def FieldConstraint.conjunctions (c : FieldConstraint) : Nat :=
  match c.operator with
  | .in | .arrayContainsAny => c.value.operands.length
  | _ => 1

mutual

/-- The number of conjunctions, whatever the bound. -/
def QueryFilter.conjunctions : QueryFilter → Nat
  | .field c => c.conjunctions
  | .or filters => (counts filters).sum
  | .and filters => (counts filters).prod

def counts : List QueryFilter → List Nat
  | [] => []
  | filter :: filters => filter.conjunctions :: counts filters

end

/-- **The filters without a normal form.** A sum or a product over the bound counts as soon as the
operands up to some place reach it. -/
inductive QueryFilter.Refused : QueryFilter → Prop where
  | notList {c : FieldConstraint} (halt : ¬ c.Atomic)
      (hvalue : ∀ values, c.value ≠ .list values) : Refused (.field c)
  | noAlternative {c : FieldConstraint} (halt : ¬ c.Atomic) (hvalue : c.value = .list []) :
      Refused (.field c)
  | alternatives {c : FieldConstraint} (hmany : maxBranches < c.conjunctions) : Refused (.field c)
  | emptyOr : Refused (.or [])
  | sum {filters done : List QueryFilter} (hdone : done <+: filters)
      (hmany : maxBranches < (counts done).sum) : Refused (.or filters)
  | product {filters done : List QueryFilter} (hdone : done <+: filters)
      (hmany : maxBranches < (counts done).prod) : Refused (.and filters)
  | inOr {filters : List QueryFilter} {filter : QueryFilter} (hmem : filter ∈ filters)
      (h : Refused filter) : Refused (.or filters)
  | inAnd {filters : List QueryFilter} {filter : QueryFilter} (hmem : filter ∈ filters)
      (h : Refused filter) : Refused (.and filters)

/-! ### Disjunctions of conjunctions -/

variable {truth : FieldConstraint → Prop} {left right : List Branch} {c : FieldConstraint}
  {m₁ m₂ : (FieldConstraint → Prop) → Prop} {operator : ConstraintOperator} {result : List Branch}

theorem FieldConstraint.holds_eq : c.Holds truth = match c.operator.alternative with
    | none => truth c
    | some operator => ∃ value ∈ c.value.operands, truth ⟨c.field, operator, value⟩ := by
  obtain ⟨field, operator, value⟩ := c
  cases operator <;> rfl

theorem FieldConstraint.conjunctions_eq : c.conjunctions = match c.operator.alternative with
    | none => 1
    | some _ => c.value.operands.length := by
  obtain ⟨field, operator, value⟩ := c
  cases operator <;> rfl

theorem FieldConstraint.atomic_iff : c.Atomic ↔ c.operator.alternative = none := by
  obtain ⟨field, operator, value⟩ := c
  cases operator <;> simp [Atomic, ConstraintOperator.alternative]

theorem someBranch_product :
    SomeBranch truth (product left right) ↔ SomeBranch truth left ∧ SomeBranch truth right := by
  constructor
  · rintro ⟨joined, hmem, htu⟩
    obtain ⟨l, hl, hjoi⟩ := mem_flatMap.mp hmem
    obtain ⟨r, hr, rfl⟩ := mem_map.mp hjoi
    obtain ⟨htl, htr⟩ := forall_mem_append.mp htu
    exact ⟨⟨l, hl, htl⟩, ⟨r, hr, htr⟩⟩
  · rintro ⟨⟨l, hl, htl⟩, ⟨r, hr, htr⟩⟩
    exact ⟨l ++ r, mem_flatMap.mpr ⟨l, hl, mem_map_of_mem hr⟩, forall_mem_append.mpr ⟨htl, htr⟩⟩

@[simp] theorem length_product : (product left right).length = left.length * right.length := by
  simp [product]

theorem checkSize_of_le (h : size ≤ maxBranches) : checkSize size = .ok () :=
  if_neg (not_lt.mpr h)

theorem checkSize_of_lt (h : maxBranches < size) : ∃ e, checkSize size = .error e :=
  ⟨_, if_pos h⟩

/-- Saturation starts far above the bound. -/
theorem saturatingMul_le (a b : Nat) : saturatingMul a b ≤ maxBranches ↔ a * b ≤ maxBranches := by
  simp only [saturatingMul, maxBranches]
  omega

/-! ### Induction over filters -/

mutual

/-- Induction on a filter, with the hypothesis for every operand. -/
theorem QueryFilter.induction {motive : QueryFilter → Prop} (field : ∀ c, motive (.field c))
    (or : ∀ filters, (∀ f ∈ filters, motive f) → motive (.or filters))
    (and : ∀ filters, (∀ f ∈ filters, motive f) → motive (.and filters)) : ∀ f, motive f
  | .field c => field c
  | .or filters => or filters (filters_induction field or and filters)
  | .and filters => and filters (filters_induction field or and filters)

theorem filters_induction {motive : QueryFilter → Prop} (field : ∀ c, motive (.field c))
    (or : ∀ filters, (∀ f ∈ filters, motive f) → motive (.or filters))
    (and : ∀ filters, (∀ f ∈ filters, motive f) → motive (.and filters)) :
    ∀ filters : List QueryFilter, ∀ f ∈ filters, motive f
  | [], _, h => nomatch h
  | first :: rest, f, h => by
    rcases mem_cons.mp h with hfst | hrs
    · exact hfst ▸ QueryFilter.induction field or and first
    · exact filters_induction field or and rest f hrs

end

/-! ### One result per filter -/

/-- `result` is the disjunctive form of what `meaning` says, `size` conjunctions long. -/
structure Form (meaning : (FieldConstraint → Prop) → Prop) (size : Nat) (result : List Branch) :
    Prop where
  length : result.length = size
  means : ∀ truth, meaning truth ↔ SomeBranch truth result
  atomic : ∀ branch ∈ result, ∀ c ∈ branch, c.Atomic

theorem Form.product {m₁ m₂ : (FieldConstraint → Prop) → Prop} {n₁ n₂ : Nat}
    (h₁ : Form m₁ n₁ left) (h₂ : Form m₂ n₂ right) :
    Form (fun truth => m₁ truth ∧ m₂ truth) (n₁ * n₂) (product left right) where
  length := by rw [length_product, h₁.length, h₂.length]
  means truth := by rw [h₁.means, h₂.means, someBranch_product]
  atomic branch hbr := by
    obtain ⟨l, hl, hjoi⟩ := mem_flatMap.mp hbr
    obtain ⟨r, hr, rfl⟩ := mem_map.mp hjoi
    exact forall_mem_append.mpr ⟨h₁.atomic l hl, h₂.atomic r hr⟩

theorem Form.append {n₁ n₂ : Nat} (h₁ : Form m₁ n₁ left) (h₂ : Form m₂ n₂ right) :
    Form (fun truth => m₁ truth ∨ m₂ truth) (n₁ + n₂) (left ++ right) where
  length := by rw [length_append, h₁.length, h₂.length]
  means truth := by simp [h₁.means, h₂.means, SomeBranch, or_and_right, exists_or]
  atomic := forall_mem_append.mpr ⟨h₁.atomic, h₂.atomic⟩

theorem Form.congr {n₁ n₂ : Nat} (h : Form m₁ n₁ left) (hm : ∀ truth, m₁ truth ↔ m₂ truth)
    (hn : n₁ = n₂) : Form m₂ n₂ left :=
  ⟨h.length.trans hn, fun truth => (hm truth).symm.trans (h.means truth), h.atomic⟩

/-- A computation yields the form when nothing refuses it, and fails otherwise. -/
def Decides (meaning : (FieldConstraint → Prop) → Prop) (size : Nat) (refused : Prop)
    (outcome : Except RuntimeError (List Branch)) : Prop :=
  (∃ result, outcome = .ok result ∧ Form meaning size result ∧ ¬ refused) ∨
    (∃ e, outcome = .error e ∧ refused)

/-- What every filter's branches satisfy. -/
def QueryFilter.Decided (filter : QueryFilter) : Prop :=
  Decides (fun truth => filter.Holds truth) filter.conjunctions filter.Refused filter.branches

theorem counts_eq_map (filters : List QueryFilter) :
    counts filters = filters.map QueryFilter.conjunctions := by
  induction filters with
  | nil => rfl
  | cons filter filters ih => rw [counts, ih, map_cons]

theorem QueryFilter.conjunctions_le {filter : QueryFilter} (h : ¬ filter.Refused) :
    filter.conjunctions ≤ maxBranches := by
  refine not_lt.mp fun hmn => h ?_
  cases filter with
  | field c => exact .alternatives hmn
  | or filters => exact .sum (prefix_refl _) hmn
  | and filters => exact .product (prefix_refl _) hmn

theorem QueryFilter.conjunctions_pos :
    ∀ filter : QueryFilter, ¬ filter.Refused → 0 < filter.conjunctions := by
  refine QueryFilter.induction ?_ ?_ ?_
  · intro c h
    show 0 < c.conjunctions
    rw [FieldConstraint.conjunctions_eq]
    cases halt : c.operator.alternative with
    | none => exact one_pos
    | some operator =>
      have hnot : ¬ c.Atomic := by simp [FieldConstraint.atomic_iff, halt]
      by_cases hls : ∃ values, c.value = .list values
      · obtain ⟨values, hvl⟩ := hls
        rw [hvl]
        refine length_pos_iff.mpr fun hnil => h (.noAlternative hnot ?_)
        rw [hvl, show values = [] from hnil]
      · exact absurd (.notList hnot fun values hvl => hls ⟨values, hvl⟩) h
  · intro filters ih h
    cases filters with
    | nil => exact absurd .emptyOr h
    | cons first rest =>
      have hfst := ih first mem_cons_self fun hr => h (.inOr mem_cons_self hr)
      show 0 < (counts (first :: rest)).sum
      rw [counts, sum_cons]
      omega
  · intro filters ih h
    show 0 < (counts filters).prod
    rw [counts_eq_map]
    refine pos_of_ne_zero fun hzr => ?_
    obtain ⟨filter, hmem, hcnt⟩ := mem_map.mp (prod_eq_zero_iff.mp hzr)
    exact (ih filter hmem fun hr => h (.inAnd hmem hr)).ne' hcnt

/-- The closing checks pass on the form of a filter that is not refused. -/
theorem Decides.checked {filter : QueryFilter} {outcome : Except RuntimeError (List Branch)}
    (h : Decides (fun truth => filter.Holds truth) filter.conjunctions filter.Refused outcome) :
    Decides (fun truth => filter.Holds truth) filter.conjunctions filter.Refused
      (outcome >>= Rules.checked) := by
  rcases h with ⟨result, rfl, hfr, hnot⟩ | ⟨e, rfl, hrfs⟩
  · refine .inl ⟨result, ?_, hfr, hnot⟩
    have hle := hfr.length ▸ QueryFilter.conjunctions_le hnot
    have hpos := hfr.length ▸ QueryFilter.conjunctions_pos filter hnot
    simp [Rules.checked, checkSize_of_le hle, length_pos_iff.mp hpos]
  · exact .inr ⟨e, rfl, hrfs⟩

/-! ### A field -/

theorem form_atomic (h : c.Atomic) : Form (fun truth => c.Holds truth) c.conjunctions [[c]] where
  length := by
    rw [FieldConstraint.conjunctions_eq, FieldConstraint.atomic_iff.mp h]
    rfl
  means truth := by
    rw [FieldConstraint.holds_eq, FieldConstraint.atomic_iff.mp h]
    simp [SomeBranch]
  atomic := by simpa using h

theorem form_alternatives {values : List Value} (halt : c.operator.alternative = some operator)
    (hval : c.value = .list values) :
    Form (fun truth => c.Holds truth) c.conjunctions
      (values.map fun value => [⟨c.field, operator, value⟩]) where
  length := by
    rw [FieldConstraint.conjunctions_eq, halt, hval, length_map]
    rfl
  means truth := by
    rw [FieldConstraint.holds_eq, halt, hval]
    simp [SomeBranch, Value.operands]
  atomic branch hbr c' hc' := by
    obtain ⟨value, -, rfl⟩ := mem_map.mp hbr
    rw [mem_singleton.mp hc', FieldConstraint.atomic_iff]
    cases hop : c.operator <;> rw [hop] at halt <;> cases halt <;> rfl

/-- The only ways a list of alternatives is refused. -/
theorem refused_field (h : (QueryFilter.field c).Refused) :
    (¬ c.Atomic ∧ ((∀ values, c.value ≠ .list values) ∨ c.value = .list [])) ∨
      maxBranches < c.conjunctions := by
  cases h with
  | notList halt hval => exact .inl ⟨halt, .inl hval⟩
  | noAlternative halt hval => exact .inl ⟨halt, .inr hval⟩
  | alternatives hmn => exact .inr hmn

theorem field_decides (c : FieldConstraint) :
    Decides (fun truth => (QueryFilter.field c).Holds truth) (QueryFilter.field c).conjunctions
      (QueryFilter.field c).Refused c.branches := by
  cases halt : c.operator.alternative with
  | none =>
    have hat := FieldConstraint.atomic_iff.mpr halt
    refine .inl ⟨[[c]], by simp [FieldConstraint.branches, halt], form_atomic hat, fun h => ?_⟩
    rcases refused_field h with ⟨hnot, -⟩ | hmn
    · exact hnot hat
    · rw [FieldConstraint.conjunctions_eq, halt] at hmn
      exact absurd (show maxBranches < 1 from hmn) (by decide)
  | some operator =>
    have hnot : ¬ c.Atomic := by simp [FieldConstraint.atomic_iff, halt]
    by_cases hls : ∃ first rest, c.value = .list (first :: rest)
    · obtain ⟨first, rest, hval⟩ := hls
      have hfr := form_alternatives halt hval
      have hlen : (first :: rest).length = c.conjunctions := by
        rw [← hfr.length, length_map]
      rcases lt_or_ge maxBranches c.conjunctions with hmn | hle
      · obtain ⟨e, he⟩ := checkSize_of_lt hmn
        refine .inr ⟨e, ?_, .alternatives hmn⟩
        rw [FieldConstraint.branches, halt, hval]
        simp only [hlen, he]
        rfl
      · refine .inl ⟨_, ?_, hfr, fun h => ?_⟩
        · rw [FieldConstraint.branches, halt, hval]
          simp only [hlen, checkSize_of_le hle]
          rfl
        · rcases refused_field h with ⟨-, hno | hnil⟩ | hmn
          · exact hno _ hval
          · simp [hval] at hnil
          · exact not_lt.mpr hle hmn
    · refine .inr ?_
      rw [FieldConstraint.branches, halt]
      -- What is left is an empty list or no list.
      cases hval : c.value with
      | list values =>
        cases values with
        | nil => exact ⟨_, rfl, .noAlternative hnot hval⟩
        | cons first rest => exact absurd ⟨first, rest, hval⟩ hls
      | _ => exact ⟨_, rfl, .notList hnot (by simp [hval])⟩

/-! ### The two loops -/

/-- A loop over `filters` that has `n` conjunctions so far and combines the next with `op` meets a
refused operand or goes over the bound. -/
def LoopRefused (op : Nat → Nat → Nat) (n : Nat) (filters : List QueryFilter) : Prop :=
  (∃ filter ∈ filters, filter.Refused) ∨
    ∃ done, done <+: filters ∧ maxBranches < (counts done).foldl op n

section Loops

variable {op : Nat → Nat → Nat} {n : Nat} {filter : QueryFilter} {filters : List QueryFilter}
  {meaning : (FieldConstraint → Prop) → Prop}

theorem loopRefused_nil (hn : n ≤ maxBranches) : ¬ LoopRefused op n [] := by
  rintro (⟨_, h, -⟩ | ⟨done, hdn, hmn⟩)
  · cases h
  · rw [prefix_nil.mp hdn] at hmn
    exact not_lt.mpr hn hmn

/-- The first operand is refused, or the rest is with its conjunctions counted. -/
theorem loopRefused_cons (hn : n ≤ maxBranches) : LoopRefused op n (filter :: filters) ↔
      filter.Refused ∨ LoopRefused op (op n filter.conjunctions) filters := by
  constructor
  · rintro (⟨f, hmem, hrfs⟩ | ⟨done, hdn, hmn⟩)
    · rcases mem_cons.mp hmem with rfl | hrs
      · exact .inl hrfs
      · exact .inr (.inl ⟨f, hrs, hrfs⟩)
    · rcases prefix_cons_iff.mp hdn with rfl | ⟨done, rfl, hrs⟩
      · exact absurd hmn (not_lt.mpr hn)
      · exact .inr (.inr ⟨done, hrs, hmn⟩)
  · rintro (hrfs | ⟨f, hmem, hrfs⟩ | ⟨done, hdn, hmn⟩)
    · exact .inl ⟨filter, mem_cons_self, hrfs⟩
    · exact .inl ⟨f, mem_cons_of_mem _ hmem, hrfs⟩
    · exact .inr ⟨filter :: done, cons_prefix_cons.mpr ⟨rfl, hdn⟩, hmn⟩

/-- **One operand of a loop** is refused, goes over the bound, or leaves the loop with what the
operands before it and it stand for. -/
theorem Decides.operand
    {rest : List Branch → Except RuntimeError (List Branch)} (hflt : filter.Decided)
    (hn : n ≤ maxBranches)
    (hmn : ∀ {more : List Branch}, Form (fun truth => filter.Holds truth) filter.conjunctions more →
      maxBranches < op n filter.conjunctions → ∃ e, rest more = .error e)
    (hle : ∀ {more : List Branch}, Form (fun truth => filter.Holds truth) filter.conjunctions more →
      op n filter.conjunctions ≤ maxBranches →
      Decides meaning size (LoopRefused op (op n filter.conjunctions) filters) (rest more)) :
    Decides meaning size (LoopRefused op n (filter :: filters)) (filter.branches >>= rest) := by
  rcases hflt with ⟨more, hok, hmr, hnot⟩ | ⟨e, he, hrfs⟩
  · rw [hok, ok_bind]
    rcases lt_or_ge maxBranches (op n filter.conjunctions) with hlt | hge
    · obtain ⟨e, he⟩ := hmn hmr hlt
      exact .inr ⟨e, he, (loopRefused_cons hn).mpr (.inr (.inr ⟨[], nil_prefix, hlt⟩))⟩
    · simpa only [loopRefused_cons hn, hnot, false_or] using hle hmr hge
  · exact .inr ⟨e, by rw [he]; rfl, (loopRefused_cons hn).mpr (.inl hrfs)⟩

/-- **The loop of a disjunction** adds the form of what is left to what it has. -/
theorem orBranches_decides (filters : List QueryFilter) (hdcd : ∀ f ∈ filters, f.Decided) {n : Nat}
    (hfr : Form meaning n result) (hn : n ≤ maxBranches) :
    Decides (fun truth => meaning truth ∨ someHolds truth filters)
      ((counts filters).foldl (· + ·) n) (LoopRefused (· + ·) n filters)
      (orBranches result filters) := by
  induction filters generalizing meaning n result with
  | nil =>
    refine .inl ⟨result, rfl, hfr.congr (fun truth => ?_) rfl, loopRefused_nil hn⟩
    simp [someHolds]
  | cons filter filters ih =>
    simp only [someHolds, ← or_assoc, orBranches]
    refine Decides.operand (hdcd filter mem_cons_self) hn ?_ ?_
    · intro more hmr hmn
      obtain ⟨e, he⟩ := checkSize_of_lt hmn
      exact ⟨e, by rw [(hfr.append hmr).length, he]; rfl⟩
    · intro more hmr hle
      rw [(hfr.append hmr).length, checkSize_of_le hle]
      exact ih (fun f hf => hdcd f (mem_cons_of_mem _ hf)) (hfr.append hmr) hle

/-- **The loop of a conjunction** multiplies. -/
theorem andBranches_decides (filters : List QueryFilter) (hdcd : ∀ f ∈ filters, f.Decided) {n : Nat}
    (hfr : Form meaning n result) (hn : n ≤ maxBranches) :
    Decides (fun truth => meaning truth ∧ everyHolds truth filters)
      ((counts filters).foldl (· * ·) n) (LoopRefused (· * ·) n filters)
      (andBranches result filters) := by
  induction filters generalizing meaning n result with
  | nil =>
    refine .inl ⟨result, rfl, hfr.congr (fun truth => ?_) rfl, loopRefused_nil hn⟩
    simp [everyHolds]
  | cons filter filters ih =>
    simp only [everyHolds, ← and_assoc, andBranches]
    refine Decides.operand (hdcd filter mem_cons_self) hn ?_ ?_
    · intro more hmr hmn
      obtain ⟨e, he⟩ := checkSize_of_lt (Nat.lt_of_not_le fun hle =>
        Nat.not_le.mpr hmn ((saturatingMul_le n filter.conjunctions).mp hle))
      exact ⟨e, by rw [hfr.length, hmr.length, he]; rfl⟩
    · intro more hmr hle
      rw [hfr.length, hmr.length, checkSize_of_le ((saturatingMul_le _ _).mpr hle)]
      exact ih (fun f hf => hdcd f (mem_cons_of_mem _ hf)) (hfr.product hmr) hle

end Loops

/-! ### The normal form -/

theorem refused_or {filters : List QueryFilter} :
    (QueryFilter.or filters).Refused ↔ filters = [] ∨ LoopRefused (· + ·) 0 filters := by
  constructor
  · intro h
    cases h with
    | emptyOr => exact .inl rfl
    | sum hdn hmn => exact .inr (.inr ⟨_, hdn, by rwa [← sum_eq_foldl]⟩)
    | inOr hmem h => exact .inr (.inl ⟨_, hmem, h⟩)
  · rintro (rfl | ⟨filter, hmem, h⟩ | ⟨done, hdn, hmn⟩)
    · exact .emptyOr
    · exact .inOr hmem h
    · exact .sum hdn (by rwa [sum_eq_foldl])

theorem refused_and {filters : List QueryFilter} :
    (QueryFilter.and filters).Refused ↔ LoopRefused (· * ·) 1 filters := by
  constructor
  · intro h
    cases h with
    | product hdn hmn => exact .inr ⟨_, hdn, by rwa [← prod_eq_foldl]⟩
    | inAnd hmem h => exact .inl ⟨_, hmem, h⟩
  · rintro (⟨filter, hmem, h⟩ | ⟨done, hdn, hmn⟩)
    · exact .inAnd hmem h
    · exact .product hdn (by rwa [prod_eq_foldl])

/-- Every filter has its normal form or is refused. -/
theorem QueryFilter.decided : ∀ filter : QueryFilter, filter.Decided := by
  refine QueryFilter.induction (fun c => ?_) (fun filters ih => ?_) (fun filters ih => ?_)
  · exact (field_decides c).checked
  · cases filters with
    | nil => exact .inr ⟨_, rfl, .emptyOr⟩
    | cons first rest =>
      refine Decides.checked ?_
      have hbeg : Form (fun _ => False) 0 [] := ⟨rfl, by simp [SomeBranch], by simp⟩
      have hlp := orBranches_decides (first :: rest) ih hbeg (zero_le _)
      simpa only [QueryFilter.Holds, QueryFilter.conjunctions, refused_or, sum_eq_foldl,
        reduceCtorEq, false_or] using hlp
  · rw [QueryFilter.Decided, QueryFilter.branches]
    refine Decides.checked ?_
    have hbeg : Form (fun _ => True) 1 [[]] := ⟨rfl, by simp [SomeBranch], by simp⟩
    have hlp := andBranches_decides filters ih hbeg (by decide)
    simp only [true_and] at hlp
    simpa only [QueryFilter.Holds, QueryFilter.conjunctions, refused_and, prod_eq_foldl] using hlp

/-- **Normal form.** What `branches` returns is between one and `maxBranches` conjunctions of
atomic predicates whose disjunction means the filter, under every assignment; and it fails exactly
on the refused filters. -/
theorem branches_normal_form (filter : Option QueryFilter) :
    (∀ result, branches filter = .ok result → 1 ≤ result.length ∧ result.length ≤ maxBranches ∧
      (∀ branch ∈ result, ∀ c ∈ branch, c.Atomic) ∧
      ∀ truth : FieldConstraint → Prop,
        (∀ f ∈ filter, f.Holds truth) ↔ ∃ branch ∈ result, ∀ c ∈ branch, truth c) ∧
    ((∃ e, branches filter = .error e) ↔ ∃ f ∈ filter, f.Refused) := by
  cases filter with
  | none =>
    refine ⟨fun result h => ?_, by simp [branches]⟩
    cases h
    simp [maxBranches]
  | some f =>
    rcases f.decided with ⟨form, hok, hfr, hnot⟩ | ⟨e, he, hrfs⟩
    · refine ⟨fun result h => ?_, by simp [branches, hok, hnot]⟩
      obtain rfl : form = result := Except.ok.inj (hok.symm.trans h)
      refine ⟨?_, ?_, hfr.atomic, fun truth => by simpa [SomeBranch] using hfr.means truth⟩
      · rw [hfr.length]
        exact f.conjunctions_pos hnot
      · rw [hfr.length]
        exact QueryFilter.conjunctions_le hnot
    · refine ⟨fun result h => ?_, by simp [branches, he, hrfs]⟩
      exact nomatch he.symm.trans h

end Firenook.Rules
