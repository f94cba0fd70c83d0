import Mathlib.Data.Finset.Card
import Firenook.Auth.Lookups
import Firenook.Auth.UserIndex
import Firenook.Support.Tally

/-!
# Auth — the console's index against the records

`Exact` says of an index that it is the index of a users map: one slot per account, the empty slots
free, each account in every column under its current key, digests that read as the records do, and
counters and counts that are the tallies over the records. Upserting and removing an account keep
it (`Exact.upsert`, `Exact.remove`), so it holds of an index built from scratch (`Exact.build`).

Interned ids and slots are 32-bit numbers. The index stays exact while fewer than `2 ^ 32`
accounts are there and the interners hold at most `2 ^ 32` names (`IndexData.Fits`).
-/

namespace Firenook.Auth

open List Std ExtTreeMap IndexData UserIndex Nat Tally

variable {i : Nat} {providers claims : Text → Prop} {name uid localId : Text}
  {l : List (Text × UserRecord)} {prev : Option (UserDigest Nat)} {d : UserDigest Nat}
  {p : UserDigest Text} {record : UserRecord} {data : IndexData} {slot : Nat} {counts : Counts}
  {ids : List Nat}

/-! ### Interning -/

namespace Interner

/-- The two directions of an interner agree. -/
def Ok (interner : Interner) : Prop :=
  ∀ (name : Text) (id : Nat), interner.ids[name]? = some id ↔ interner.names[id]? = some name

def Reads (interner : Interner) (ids : List Nat) (names : List Text) : Prop :=
  ids.map (interner.names[·]?) = names.map some

variable {interner later : Interner} {ids : List Nat} {names : List Text}

theorem Reads.nil : interner.Reads [] [] := rfl

theorem Ok.inj (h : interner.Ok) {j : Nat} (hi : interner.names[i]? = some name)
    (hj : interner.names[j]? = some name) : i = j :=
  Option.some.inj (((h name i).mpr hi).symm.trans ((h name j).mpr hj))

theorem getElem?_of_grows (h : interner.names <+: later.names)
    (hi : interner.names[i]? = some name) :
    later.names[i]? = some name := by
  obtain ⟨more, hmr⟩ := h
  rw [← hmr, List.getElem?_append_left (List.getElem?_eq_some_iff.mp hi).1, hi]

section

variable (h : interner.Reads ids names)

include h

theorem Reads.mem_names (hi : i ∈ ids) : ∃ name ∈ names, interner.names[i]? = some name := by
  have hmem : interner.names[i]? ∈ names.map some := h ▸ mem_map_of_mem hi
  obtain ⟨name, hname, heq⟩ := mem_map.mp hmem
  exact ⟨name, hname, heq.symm⟩

theorem Reads.mem_ids (hname : name ∈ names) : ∃ i ∈ ids, interner.names[i]? = some name := by
  have hmem : some name ∈ ids.map (interner.names[·]?) := h ▸ mem_map_of_mem hname
  exact mem_map.mp hmem

/-- An id keeps its meaning while names are added. -/
theorem Reads.grow (hgr : interner.names <+: later.names) : later.Reads ids names := by
  refine Eq.trans (map_congr_left fun i hi => ?_) h
  obtain ⟨name, -, hname⟩ := h.mem_names hi
  rw [hname, getElem?_of_grows hgr hname]

end

theorem Reads.unique {names' : List Text} (h : interner.Reads ids names)
    (h' : interner.Reads ids names') : names = names' :=
  map_injective_iff.mpr (Option.some_injective _) (h.symm.trans h')

theorem Reads.isEmpty_eq (h : interner.Reads ids names) : ids.isEmpty = names.isEmpty := by
  have hlen := congrArg length h
  rw [length_map, length_map] at hlen
  rw [Bool.eq_iff_iff, isEmpty_iff_length_eq_zero, isEmpty_iff_length_eq_zero, hlen]

theorem Reads.nodup (h : interner.Reads ids names) (hnd : names.Nodup) : ids.Nodup := by
  refine List.Nodup.of_map (interner.names[·]?) ?_
  rw [h]
  exact hnd.map (Option.some_injective _)

theorem Reads.mem_iff (h : interner.Reads ids names) (hok : interner.Ok)
    (hi : interner.names[i]? = some name) : i ∈ ids ↔ name ∈ names := by
  constructor
  · intro hmem
    obtain ⟨name', hname', hi'⟩ := h.mem_names hmem
    rw [hi] at hi'
    exact Option.some.inj hi' ▸ hname'
  · intro hmem
    obtain ⟨j, hj, hname⟩ := h.mem_ids hmem
    exact hok.inj hname hi ▸ hj

theorem intern_grows (interner : Interner) (name : Text) :
    interner.names <+: (interner.intern name).1.names := by
  unfold intern
  split
  · exact prefix_rfl
  · exact prefix_append _ _

/-- What stands at a place of a list that a name was added to. -/
theorem getElem?_concat_eq_some {α : Type} {l : List α} {a b : α} :
    (l ++ [a])[i]? = some b ↔ l[i]? = some b ∨ i = l.length ∧ a = b := by
  grind

/-- An interned name has an id, which is its place. -/
theorem Ok.intern (h : interner.Ok) (hft : (interner.intern name).1.names.length ≤ 2 ^ 32) :
    (interner.intern name).1.Ok
      ∧ (interner.intern name).1.names[(interner.intern name).2]? = some name := by
  unfold Interner.intern at hft ⊢
  split
  · next id hid => exact ⟨h, (h name id).mp hid⟩
  next hnn =>
  rw [hnn] at hft
  simp only [length_append, length_singleton] at hft
  have hmin : min interner.names.length maxU32 = interner.names.length :=
    min_eq_left (by rw [maxU32]; omega)
  simp only [hmin]
  refine ⟨fun n i => ?_, by simp⟩
  simp only [ExtTreeMap.getElem?_insert, LawfulEqCmp.compare_eq_iff_eq]
  rw [getElem?_concat_eq_some]
  by_cases hn : name = n
  · subst hn
    have hnot : interner.names[i]? ≠ some name := fun hget => by
      rw [(h name i).mpr hget] at hnn
      cases hnn
    simp [hnot, eq_comm]
  · simp [hn, h n i]

theorem internAll_grows (interner : Interner) (names : List Text) :
    interner.names <+: (interner.internAll names).1.names := by
  induction names generalizing interner with
  | nil => exact prefix_rfl
  | cons name names ih => exact (intern_grows interner name).trans (ih _)

theorem Ok.internAll (h : interner.Ok) (hft : (interner.internAll names).1.names.length ≤ 2 ^ 32) :
    (interner.internAll names).1.Ok
      ∧ (interner.internAll names).1.Reads (interner.internAll names).2 names := by
  induction names generalizing interner with
  | nil => exact ⟨h, rfl⟩
  | cons name names ih =>
    rw [Interner.internAll] at ⊢
    have hgr := internAll_grows (interner.intern name).1 names
    obtain ⟨hok, hid⟩ := h.intern (hgr.length_le.trans hft)
    obtain ⟨hok', hrd⟩ := ih hok hft
    refine ⟨hok', ?_⟩
    simp only [Reads, map_cons, getElem?_of_grows hgr hid]
    rw [hrd]

theorem internNew_grows (interner : Interner) (names : List Text) (ids : List Nat) :
    interner.names <+: (interner.internNew names ids).1.names := by
  induction names generalizing interner ids with
  | nil => exact prefix_rfl
  | cons name names ih => exact (intern_grows interner name).trans (ih _ _)

/-- Each name once, as each id once. -/
theorem Ok.internNew (h : interner.Ok) {done : List Text} (hids : interner.Reads ids done)
    (hft : (interner.internNew names ids).1.names.length ≤ 2 ^ 32) :
    (interner.internNew names ids).1.Ok
      ∧ (interner.internNew names ids).1.Reads (interner.internNew names ids).2
          (names.foldl pushNew done) := by
  induction names generalizing interner ids done with
  | nil => exact ⟨h, hids⟩
  | cons name names ih =>
    have hgr := internNew_grows (interner.intern name).1 names
      (pushNew ids (interner.intern name).2)
    obtain ⟨hok, hid⟩ := h.intern (hgr.length_le.trans hft)
    have hrd := hids.grow (intern_grows interner name)
    refine ih hok ?_ hft
    unfold pushNew
    by_cases hmem : name ∈ done
    · rw [if_pos hmem, if_pos ((hrd.mem_iff hok hid).mpr hmem)]
      exact hrd
    · rw [if_neg hmem, if_neg (mt (hrd.mem_iff hok hid).mp hmem)]
      simp only [Reads, map_append, map_singleton, hid]
      rw [hrd]

/-- The names are distinct, have ids, and are all `allowed`. -/
structure Within (allowed : Text → Prop) (interner : Interner) : Prop where
  nodup : interner.names.Nodup
  ids : ∀ name, name ∈ interner.ids ↔ name ∈ interner.names
  allowed : ∀ name ∈ interner.names, allowed name

variable {allowed : Text → Prop}

section

variable (h : Within allowed interner)

include h

theorem Within.intern (hname : allowed name) : Within allowed (interner.intern name).1 := by
  unfold Interner.intern
  split
  · exact h
  next hnn =>
  have hnot : name ∉ interner.names := by
    rw [← h.ids, mem_iff_isSome_getElem?, hnn]
    exact Bool.false_ne_true
  refine ⟨nodup_append.mpr ⟨h.nodup, nodup_singleton _, ?_⟩, fun n => ?_, ?_⟩
  · intro a ha b hb heq
    exact hnot (mem_singleton.mp hb ▸ heq ▸ ha)
  · simp only [mem_insert, LawfulEqCmp.compare_eq_iff_eq, h.ids, mem_append, mem_singleton]
    rw [or_comm, eq_comm]
  · simp only [mem_append, mem_singleton, or_imp, forall_and, forall_eq]
    exact ⟨h.allowed, hname⟩

theorem Within.internAll (hnms : ∀ name ∈ names, allowed name) :
    Within allowed (interner.internAll names).1 := by
  induction names generalizing interner with
  | nil => exact h
  | cons name names ih =>
    rw [forall_mem_cons] at hnms
    exact ih (h.intern hnms.1) hnms.2

theorem Within.internNew (ids : List Nat)
    (hnms : ∀ name ∈ names, allowed name) : Within allowed (interner.internNew names ids).1 := by
  induction names generalizing interner ids with
  | nil => exact h
  | cons name names ih =>
    rw [forall_mem_cons] at hnms
    exact ih (h.intern hnms.1) _ hnms.2

end

theorem Within.length_le {l : List Text} (h : Within (· ∈ l) interner) :
    interner.names.length ≤ l.length :=
  (subperm_of_subset h.nodup h.allowed).length_le

end Interner

theorem mem_pushNew {α : Type} [DecidableEq α] {a : α} {all names : List α} :
    a ∈ names.foldl pushNew all ↔ a ∈ all ∨ a ∈ names := by
  induction names generalizing all with
  | nil => simp
  | cons name names ih =>
    rw [foldl_cons, pushNew]
    split <;> grind

theorem nodup_pushNew {α : Type} [DecidableEq α] {all : List α} (h : all.Nodup) (names : List α) :
    (names.foldl pushNew all).Nodup := by
  induction names generalizing all with
  | nil => exact h
  | cons name names ih =>
    refine ih ?_
    unfold pushNew
    split
    · exact h
    · next hnot => exact nodup_append.mpr ⟨h, nodup_singleton _,
        fun a ha b hb heq => hnot (mem_singleton.mp hb ▸ heq ▸ ha)⟩

/-! ### Counts -/

theorem getD_increment (counts : Counts) (id i : Nat) : (increment counts id)[i]?.getD 0
    = if i = id then counts[i]?.getD 0 + 1 else counts[i]?.getD 0 := by
  by_cases hi : i = id
  · simp [increment, hi]
  · simp [increment, ExtTreeMap.getElem?_insert, hi, Ne.symm hi]

theorem getD_decrement (counts : Counts) (id i : Nat) : (decrement counts id)[i]?.getD 0
    = if i = id then counts[i]?.getD 0 - 1 else counts[i]?.getD 0 := by
  unfold decrement
  simp only
  by_cases hi : i = id
  · split <;> simp [*]
  · split <;> simp [ExtTreeMap.getElem?_insert, getElem?_erase, Ne.symm hi]

/-- Each id of the list changes its count once. -/
theorem getD_foldl {f : Counts → Nat → Counts} {g : Nat → Nat}
    (hf : ∀ counts id i, (f counts id)[i]?.getD 0
      = if i = id then g (counts[i]?.getD 0) else counts[i]?.getD 0)
    (h : ids.Nodup) (counts : Counts) (i : Nat) : (ids.foldl f counts)[i]?.getD 0
      = if i ∈ ids then g (counts[i]?.getD 0) else counts[i]?.getD 0 := by
  induction ids generalizing counts with
  | nil => simp
  | cons id ids ih =>
    obtain ⟨hnot, h⟩ := nodup_cons.mp h
    rw [foldl_cons, ih h, hf]
    by_cases hi : i = id
    · simp [hi, hnot]
    · simp [hi]

/-- No count is kept at zero. -/
def Positive (counts : Counts) : Prop := ∀ (i c : Nat), counts[i]? = some c → 0 < c

theorem Positive.increment (h : Positive counts) (id : Nat) : Positive (increment counts id) := by
  intro i c hc
  simp only [Auth.increment, ExtTreeMap.getElem?_insert] at hc
  split at hc
  · cases hc; exact succ_pos _
  · exact h i c hc

theorem Positive.decrement (h : Positive counts) (id : Nat) : Positive (decrement counts id) := by
  intro i c hc
  unfold Auth.decrement at hc
  simp only at hc
  split at hc
  · rw [getElem?_erase] at hc
    split at hc
    · cases hc
    · exact h i c hc
  · next hne =>
    rw [ExtTreeMap.getElem?_insert] at hc
    split at hc
    · cases hc; exact pos_of_ne_zero hne
    · exact h i c hc

theorem Positive.foldl (h : Positive counts) {f : Counts → Nat → Counts}
    (hf : ∀ counts id, Positive counts → Positive (f counts id)) (ids : List Nat) :
    Positive (ids.foldl f counts) := by
  induction ids generalizing counts with
  | nil => exact h
  | cons id ids ih => exact ih (hf counts id h)

abbrev Users := ExtTreeMap Text UserRecord compare

local instance lawfulText : LawfulBEq Text := inferInstance

/-- How many accounts have the name among `names`. -/
def userTotal (names : Text → UserRecord → List Text) (users : Users) (name : Text) : Nat :=
  tally (fun uid record => if name ∈ names uid record then 1 else 0) users

/-- The names of the account at `uid`. -/
def namesAt (names : Text → UserRecord → List Text) (uid : Text) : Option UserRecord → List Text
  | some record => names uid record
  | none => []

section

variable (names : Text → UserRecord → List Text)

include names

@[simp] theorem namesAt_none (uid : Text) : namesAt names uid none = [] := rfl

theorem userTotal_put (users : Users) (uid : Text) (next : Option UserRecord) (name : Text) :
    userTotal names (ChangeLog.put users uid next) name
        + (if name ∈ namesAt names uid users[uid]? then 1 else 0)
      = userTotal names users name + if name ∈ namesAt names uid next then 1 else 0 := by
  have hput := tally_put (fun uid record => if name ∈ names uid record then 1 else 0) users uid next
  have hhl : ∀ value : Option UserRecord,
      held (fun uid record => if name ∈ names uid record then 1 else 0) uid value
        = if name ∈ namesAt names uid value then 1 else 0 := fun value => by
    cases value with
    | none => simp [held]
    | some record => rfl
  rwa [hhl, hhl] at hput

theorem namesAt_le_userTotal (users : Users) (uid : Text) (name : Text) :
    (if name ∈ namesAt names uid users[uid]? then 1 else 0) ≤ userTotal names users name := by
  have hput := userTotal_put names users uid none name
  simp only [namesAt_none, not_mem_nil, if_false] at hput
  omega

end

/-- The counts are the tallies over the records. -/
structure Counted (interner : Interner) (counts : Counts) (users : Users)
    (names : Text → UserRecord → List Text) : Prop where
  exact : ∀ i : Nat, counts[i]?.getD 0 = (interner.names[i]?).elim 0 (userTotal names users)
  pos : Positive counts
  absent : ∀ name, name ∉ interner.names → userTotal names users name = 0

namespace Counted

variable {interner later : Interner} {counts : Counts} {users : Users}
  {names : Text → UserRecord → List Text}

section

variable (h : Counted interner counts users names)

include h

/-- New names are nobody's yet. -/
theorem grow (hok : later.Ok) (hgr : interner.names <+: later.names) :
    Counted later counts users names := by
  obtain ⟨more, hmr⟩ := hgr
  refine ⟨fun i => ?_, h.pos, fun name hname => h.absent name fun hmem =>
    hname (hmr ▸ mem_append_left _ hmem)⟩
  by_cases hi : i < interner.names.length
  · rw [h.exact i, ← hmr, List.getElem?_append_left hi]
  rw [h.exact i, List.getElem?_eq_none (Nat.not_lt.mp hi)]
  cases hlat : later.names[i]? with
  | none => rfl
  | some name =>
    refine (h.absent name fun hmem => ?_).symm
    obtain ⟨j, hj⟩ := mem_iff_getElem?.mp hmem
    have hsm := hok.inj hlat (Interner.getElem?_of_grows ⟨more, hmr⟩ hj)
    exact hi (hsm ▸ (List.getElem?_eq_some_iff.mp hj).1)

/-- An account's names change from `old` to `new`, and the counts with them. -/
theorem put (hok : interner.Ok) (next : Option UserRecord) {prev : List Nat}
    (hprv : interner.Reads prev (namesAt names uid users[uid]?))
    (hids : interner.Reads ids (namesAt names uid next)) (hpnd : prev.Nodup)
    (hnd : ids.Nodup) :
    Counted interner (ids.foldl increment (prev.foldl decrement counts))
      (ChangeLog.put users uid next) names := by
  refine ⟨fun i => ?_, ?_, fun name hname => ?_⟩
  · rw [getD_foldl (g := (· + 1)) getD_increment hnd,
      getD_foldl (g := (· - 1)) getD_decrement hpnd, h.exact i]
    cases hi : interner.names[i]? with
    | none =>
      have hout : ∀ {l : List Nat} {all : List Text}, interner.Reads l all → i ∉ l :=
        fun hrd hmem => by
          obtain ⟨name, -, hname⟩ := hrd.mem_names hmem
          rw [hi] at hname
          cases hname
      simp [hout hids]
    | some name =>
      have hput := userTotal_put names users uid next name
      have hle := namesAt_le_userTotal names users uid name
      simp only [Option.elim_some, hprv.mem_iff hok hi, hids.mem_iff hok hi]
      split_ifs at hput hle ⊢ <;> omega
  · exact (h.pos.foldl (fun _ id hc => hc.decrement id) prev).foldl
      (fun _ id hc => hc.increment id) ids
  · have hput := userTotal_put names users uid next name
    have hnew : name ∉ namesAt names uid next := fun hmem => by
      obtain ⟨i, -, hi⟩ := hids.mem_ids hmem
      exact hname (mem_of_getElem? hi)
    rw [h.absent name hname, if_neg hnew] at hput
    omega

/-- An account whose names stay the same. -/
theorem same (hsm : namesAt names uid users[uid]? = names uid record) :
    Counted interner counts (users.insert uid record) names := by
  have htot : ∀ name, userTotal names (users.insert uid record) name
      = userTotal names users name := fun name => by
    have hput := userTotal_put names users uid (some record) name
    rw [hsm] at hput
    exact add_right_cancel hput
  refine ⟨fun i => ?_, h.pos, fun name hname => (htot name).trans (h.absent name hname)⟩
  rw [h.exact i, funext htot]

end

end Counted

/-! ### Columns -/

/-- A column holds each filled slot once: under its key, or among those without one. -/
structure Lists (column : Column) (key : UserDigest Nat → Option SortValue)
    (slots : List (Option (UserDigest Nat))) : Prop where
  values : ∀ (k : SortValue) (slot : Nat), (k, slot) ∈ column.values
    ↔ ∃ d, slots[slot]? = some (some d) ∧ key d = some k
  nulls : ∀ slot : Nat, slot ∈ column.nulls ↔ ∃ d, slots[slot]? = some (some d) ∧ key d = none

theorem getElem?_set_slot {slots : List (Option (UserDigest Nat))}
    {old : Option (UserDigest Nat)} (h : slots[slot]? = some old) (new : Option (UserDigest Nat))
    (s : Nat) : (slots.set slot new)[s]? = if slot = s then some new else slots[s]? := by
  simp [List.getElem?_set, (List.getElem?_eq_some_iff.mp h).1]

namespace Lists

variable {column : Column} {key : UserDigest Nat → Option SortValue}
  {slots : List (Option (UserDigest Nat))} {slot : Nat}

/-- A slot changes hands, and the others stay where they were. -/
theorem change {column' : Column} {old new : Option (UserDigest Nat)} (h : Lists column key slots)
    (hslot : slots[slot]? = some old)
    (hvl : ∀ (k : SortValue) s, (k, s) ∈ column'.values
      ↔ if slot = s then ∃ d, new = some d ∧ key d = some k else (k, s) ∈ column.values)
    (hnul : ∀ s : Nat, s ∈ column'.nulls
      ↔ if slot = s then ∃ d, new = some d ∧ key d = none else s ∈ column.nulls) :
    Lists column' key (slots.set slot new) := by
  constructor
  · intro k s
    rw [hvl, getElem?_set_slot hslot]
    split
    · simp
    · exact h.values k s
  · intro s
    rw [hnul, getElem?_set_slot hslot]
    split
    · simp
    · exact h.nulls s

theorem insertKeyed (h : Lists column key slots) (hslot : slots[slot]? = some none)
    (d : UserDigest Nat) :
    Lists (column.insertKeyed slot (key d)) key (slots.set slot (some d)) := by
  have hemp : ∀ k, (k, slot) ∉ column.values := fun k => by
    simp [h.values, hslot]
  have hnl : slot ∉ column.nulls := by
    simp [h.nulls, hslot]
  refine h.change hslot (fun k s => ?_) fun s => ?_
  · by_cases hs : slot = s
    · subst hs
      cases hkey : key d <;> simp [Column.insertKeyed, hemp, hkey, eq_comm]
    · cases key d <;> simp [Column.insertKeyed, hs, Ne.symm hs]
  · by_cases hs : slot = s
    · subst hs
      cases hkey : key d <;> simp [Column.insertKeyed, hnl, hkey]
    · cases key d <;> simp [Column.insertKeyed, hs, Ne.symm hs]

section

variable (h : Lists column key slots) (hslot : slots[slot]? = some (some d))

include h hslot

theorem mem_values (k : SortValue) : (k, slot) ∈ column.values ↔ key d = some k := by
  simp [h.values, hslot]

theorem mem_nulls : slot ∈ column.nulls ↔ key d = none := by
  simp [h.nulls, hslot]

theorem removeKeyed : Lists (column.removeKeyed slot (key d)) key (slots.set slot none) := by
  refine h.change hslot (fun k s => ?_) fun s => ?_
  · by_cases hs : slot = s
    · subst hs
      cases hkey : key d <;> simp +contextual [Column.removeKeyed, h.mem_values hslot, hkey, eq_comm]
    · cases key d <;> simp [Column.removeKeyed, hs, Ne.symm hs]
  · by_cases hs : slot = s
    · subst hs
      cases hkey : key d <;> simp [Column.removeKeyed, h.mem_nulls hslot, hkey]
    · cases key d <;> simp [Column.removeKeyed, hs, Ne.symm hs]

/-- A digest that is replaced moves in the columns where its key changed. -/
theorem replace (d' : UserDigest Nat) : Lists (if key d = key d' then column
      else (column.removeKeyed slot (key d)).insertKeyed slot (key d')) key
        (slots.set slot (some d')) := by
  split
  · next hsm =>
    refine h.change hslot (fun k s => ?_) fun s => ?_
    · by_cases hs : slot = s
      · subst hs
        simp [h.mem_values hslot, hsm]
      · rw [if_neg hs]
    · by_cases hs : slot = s
      · subst hs
        simp [h.mem_nulls hslot, hsm]
      · rw [if_neg hs]
  · have hrm := h.removeKeyed hslot
    have hfr : (slots.set slot none)[slot]? = some none := by
      rw [getElem?_set_slot hslot, if_pos rfl]
    have hin := hrm.insertKeyed hfr d'
    rwa [set_set] at hin

end

end Lists

/-! ### The index of a users map -/

/-- A digest reads as the one with names. -/
structure DigestReads (data : IndexData) (d : UserDigest Nat) (p : UserDigest Text) : Prop where
  profile : d.profile = p.profile
  haystack : d.haystack = p.haystack
  claims : d.claims = p.claims
  providers : data.providers.Reads d.providers p.providers
  claimKeys : data.claimNames.Reads d.claimKeys p.claimKeys

/-- Only the interners matter. -/
theorem DigestReads.move {later : IndexData} (h : DigestReads data d p)
    (hpr : later.providers = data.providers) (hclm : later.claimNames = data.claimNames) :
    DigestReads later d p :=
  ⟨h.profile, h.haystack, h.claims, hpr ▸ h.providers, hclm ▸ h.claimKeys⟩

theorem DigestReads.unique {p' : UserDigest Text} (h : DigestReads data d p)
    (h' : DigestReads data d p') : p = p' := by
  obtain ⟨profile', haystack', providers', claimKeys', claims'⟩ := p'
  cases h.profile.symm.trans h'.profile
  cases h.haystack.symm.trans h'.haystack
  cases h.claims.symm.trans h'.claims
  cases h.providers.unique h'.providers
  cases h.claimKeys.unique h'.claimKeys
  rfl

theorem DigestReads.applies (h : DigestReads data d p) (facet : Facet) :
    facet.applies d = facet.applies p := by
  cases facet <;> simp [Facet.applies, h.profile, h.claimKeys.isEmpty_eq]

def facetTotal (readings : Readings) (users : Users) (facet : Facet) : Nat :=
  tally (fun uid record => if facet.applies (digestOf readings uid record) then 1 else 0) users

theorem digest_of_slot (h : data.slots[slot]? = some (some d)) : data.digest slot = some d := by
  rw [digest, h]
  rfl

/-- The index is that of the users map. -/
structure Exact (readings : Readings) (index : UserIndex) (users : Users) : Prop where
  providersOk : index.data.providers.Ok
  claimNamesOk : index.data.claimNames.Ok
  byUid : ∀ (uid : Text) (slot : Nat), index.data.byUid[uid]? = some slot
    ↔ ∃ d, index.data.slots[slot]? = some (some d) ∧ d.profile.uid = uid
  accounts : ∀ uid : Text, uid ∈ users ↔ ∃ slot, index.data.byUid[uid]? = some slot
  digests : ∀ (slot : Nat) (d : UserDigest Nat), index.data.slots[slot]? = some (some d) →
    ∃ record, users[d.profile.uid]? = some record
      ∧ DigestReads index.data d (digestOf readings d.profile.uid record)
  freeNodup : index.free.Nodup
  freeIff : ∀ slot, slot ∈ index.free ↔ index.data.slots[slot]? = some none
  columns : ∀ column, Lists (index.data.columns column) column.key index.data.slots
  counters : ∀ facet, index.data.counters facet = facetTotal readings users facet
  providerCounts : Counted index.data.providers index.data.providerCounts users
    fun uid record => (digestOf readings uid record).providers
  claimCounts : Counted index.data.claimNames index.data.claimCounts users
    fun uid record => (digestOf readings uid record).claimKeys

namespace Exact

variable {readings : Readings} {index : UserIndex} {users : Users}

theorem empty (readings : Readings) : Exact readings {} ∅ where
  providersOk name id := by simp
  claimNamesOk name id := by simp
  byUid uid slot := by simp
  accounts uid := by simp
  digests slot d hd := by simp at hd
  freeNodup := .nil
  freeIff slot := by simp
  columns column := ⟨fun k slot => by simp, fun slot => by simp⟩
  counters facet := rfl
  providerCounts := ⟨fun i => by simp, fun i c hc => by simp at hc, fun _ _ => rfl⟩
  claimCounts := ⟨fun i => by simp, fun i c hc => by simp at hc, fun _ _ => rfl⟩

/-- Interning names changes nothing that the index says. -/
theorem grow (h : Exact readings index users) {providers claimNames : Interner}
    (hpr : providers.Ok) (hclm : claimNames.Ok)
    (hpg : index.data.providers.names <+: providers.names)
    (hcg : index.data.claimNames.names <+: claimNames.names) :
    Exact readings { index with data := { index.data with providers, claimNames } } users where
  providersOk := hpr
  claimNamesOk := hclm
  byUid := h.byUid
  accounts := h.accounts
  digests slot d hd := by
    obtain ⟨record, hrec, hrd⟩ := h.digests slot d hd
    exact ⟨record, hrec, hrd.profile, hrd.haystack, hrd.claims,
      hrd.providers.grow hpg, hrd.claimKeys.grow hcg⟩
  freeNodup := h.freeNodup
  freeIff := h.freeIff
  columns := h.columns
  counters := h.counters
  providerCounts := h.providerCounts.grow hpr hpg
  claimCounts := h.claimCounts.grow hclm hcg

/-- The slot of an account, its digest and its record. -/
theorem slot_of_mem (h : Exact readings index users) (hslot : index.data.byUid[uid]? = some slot) :
    ∃ d record, index.data.slots[slot]? = some (some d) ∧ d.profile.uid = uid
      ∧ users[uid]? = some record ∧ DigestReads index.data d (digestOf readings uid record) := by
  obtain ⟨d, hd, rfl⟩ := (h.byUid uid slot).mp hslot
  obtain ⟨record, hrec, hrd⟩ := h.digests slot d hd
  exact ⟨d, record, hd, rfl, hrec, hrd⟩

theorem facetTotal_put (readings : Readings) (users : Users) (uid : Text)
    (next : Option UserRecord) (facet : Facet) :
    facetTotal readings (ChangeLog.put users uid next) facet
        + held (fun uid record => if facet.applies (digestOf readings uid record) then 1 else 0) uid
          users[uid]?
      = facetTotal readings users facet
        + held (fun uid record => if facet.applies (digestOf readings uid record) then 1 else 0) uid
          next := tally_put _ users uid next

/-- The digest of a record that a record of the same digest takes the place of. -/
theorem same (h : Exact readings index users)
    (hd : index.data.slots[slot]? = some (some d)) (huid : d.profile.uid = uid)
    (hrd : DigestReads index.data d (digestOf readings uid record)) :
    Exact readings index (users.insert uid record) := by
  subst huid
  obtain ⟨old, hold, hrdo⟩ := h.digests slot d hd
  have hsm : digestOf readings d.profile.uid old = digestOf readings d.profile.uid record :=
    hrdo.unique hrd
  have hget := getElem?_insert_user users d.profile.uid record
  refine ⟨h.providersOk, h.claimNamesOk, h.byUid, fun uid => ?_, fun s e he => ?_, h.freeNodup,
    h.freeIff, h.columns, fun facet => ?_, h.providerCounts.same ?_, h.claimCounts.same ?_⟩
  · rw [← h.accounts, mem_insert, LawfulEqCmp.compare_eq_iff_eq]
    constructor
    · rintro (rfl | hmem)
      · exact mem_iff_isSome_getElem?.mpr (by rw [hold]; rfl)
      · exact hmem
    · exact .inr
  · obtain ⟨r, hr, hre⟩ := h.digests s e he
    rw [hget]
    by_cases hs : d.profile.uid = e.profile.uid
    · rw [if_pos hs]
      refine ⟨record, rfl, ?_⟩
      rw [← hs] at hr hre ⊢
      rw [hold] at hr
      cases hr
      rwa [← hsm]
    · rw [if_neg hs]
      exact ⟨r, hr, hre⟩
  · have hput := facetTotal_put readings users d.profile.uid (some record) facet
    rw [hold] at hput
    simp only [held, hsm] at hput
    rw [h.counters facet]
    exact (add_right_cancel hput).symm
  · simp [namesAt, hold, hsm]
  · simp [namesAt, hold, hsm]

/-! ### Slots -/

/-- A digest and what its names are. -/
theorem nodup_digest (h : DigestReads data d (digestOf readings uid record)) :
    d.providers.Nodup ∧ d.claimKeys.Nodup := by
  refine ⟨h.providers.nodup (nodup_pushNew .nil _), h.claimKeys.nodup ?_⟩
  simp only [digestOf, claimsOf]
  split
  · exact .nil
  · split
    · exact .nil
    · exact readings.claimNames_nodup _

/-- The counters after a digest came or went. -/
theorem counters_apply (counters : Facet → Nat) (d : UserDigest Nat) (facet : Facet) :
    IndexData.applyCounters counters d true facet
        = counters facet + (if facet.applies d then 1 else 0)
      ∧ IndexData.applyCounters counters d false facet
        = counters facet - if facet.applies d then 1 else 0 := by
  unfold applyCounters
  split <;> simp

theorem facetTotal_insert (users : Users)
    (hrd : DigestReads data d (digestOf readings uid record)) (facet : Facet) :
    facetTotal readings (users.insert uid record) facet
        + held (fun uid record => if facet.applies (digestOf readings uid record) then 1 else 0) uid
          users[uid]?
      = facetTotal readings users facet + if facet.applies d then 1 else 0 := by
  rw [hrd.applies]
  exact facetTotal_put readings users uid (some record) facet

section

variable (h : Exact readings index users)

include h

/-- Each account has one slot. -/
theorem apart {s : Nat} {e : UserDigest Nat} (hd : index.data.slots[slot]? = some (some d))
    (he : index.data.slots[s]? = some (some e)) (hs : slot ≠ s) : d.profile.uid ≠ e.profile.uid := by
  intro heq
  have huid := (h.byUid _ _).mpr ⟨d, hd, rfl⟩
  exact hs (Option.some.inj (huid.symm.trans ((h.byUid _ _).mpr ⟨e, he, heq.symm⟩)))

/-- A new account takes the slot on top of the free ones. -/
theorem link {free : List Nat} (hfr : index.free = slot :: free)
    (hnew : users[uid]? = none) (huid : d.profile.uid = uid)
    (hrd : DigestReads index.data d (digestOf readings uid record)) :
    Exact readings { data := index.data.link slot d, free } (users.insert uid record) := by
  subst huid
  have hslot : index.data.slots[slot]? = some none :=
    (h.freeIff slot).mp (hfr ▸ mem_cons_self)
  have hnd := hfr ▸ h.freeNodup
  have hset := getElem?_set_slot hslot (some d)
  have hget := getElem?_insert_user users d.profile.uid record
  have hapt : ∀ {s : Nat} {e : UserDigest Nat}, index.data.slots[s]? = some (some e) →
      e.profile.uid ≠ d.profile.uid := fun he heq => by
    obtain ⟨r, hr, -⟩ := h.digests _ _ he
    rw [heq, hnew] at hr
    cases hr
  obtain ⟨hpnd, hcnd⟩ := nodup_digest hrd
  refine ⟨h.providersOk, h.claimNamesOk, fun uid s => ?_, fun uid => ?_, fun s e he => ?_,
    (nodup_cons.mp hnd).2, fun s => ?_, fun column => (h.columns column).insertKeyed hslot d,
    fun facet => ?_, ?_, ?_⟩
  · simp only [link, hset, ExtTreeMap.getElem?_insert, LawfulEqCmp.compare_eq_iff_eq]
    by_cases huid : d.profile.uid = uid
    · rw [if_pos huid]
      by_cases hs : slot = s
      · simp [hs, huid]
      rw [if_neg hs]
      refine iff_of_false (fun heq => hs (Option.some.inj heq)) ?_
      rintro ⟨e, he, heq⟩
      exact hapt he (heq.trans huid.symm)
    · rw [if_neg huid, h.byUid]
      by_cases hs : slot = s
      · subst hs
        simp [hslot, huid]
      · rw [if_neg hs]
  · simp only [link, ExtTreeMap.mem_insert, ExtTreeMap.getElem?_insert,
      LawfulEqCmp.compare_eq_iff_eq, h.accounts]
    by_cases huid : d.profile.uid = uid
    · simp [huid]
    · simp [huid]
  · simp only [link, hset] at he
    split at he
    · cases he
      exact ⟨record, by rw [hget, if_pos rfl], hrd.move rfl rfl⟩
    · obtain ⟨r, hr, hre⟩ := h.digests s e he
      exact ⟨r, by rw [hget, if_neg (hapt he).symm, hr], hre.move rfl rfl⟩
  · simp only [link, hset]
    have hmem := h.freeIff s
    rw [hfr, mem_cons] at hmem
    by_cases hs : slot = s
    · subst hs
      simp [(nodup_cons.mp hnd).1]
    · simpa [hs, Ne.symm hs] using hmem
  · have htot := facetTotal_insert users hrd facet
    rw [hnew, held, add_zero] at htot
    simp [link, (counters_apply _ d facet).1, h.counters facet, htot]
  · exact h.providerCounts.put h.providersOk (some record)
      (by rw [hnew]; exact .nil) hrd.providers .nil hpnd
  · exact h.claimCounts.put h.claimNamesOk (some record)
      (by rw [hnew]; exact .nil) hrd.claimKeys .nil hcnd

theorem replace {prev : UserDigest Nat} (hslot : index.data.slots[slot]? = some (some prev))
    (hprv : prev.profile.uid = uid) (huid : d.profile.uid = uid)
    (hrd : DigestReads index.data d (digestOf readings uid record)) :
    Exact readings { index with data := index.data.replace slot prev d }
      (users.insert uid record) := by
  subst huid
  have hset := getElem?_set_slot hslot (some d)
  obtain ⟨old, hold, hrdo⟩ := h.digests slot prev hslot
  rw [hprv] at hold hrdo
  have hbyU : index.data.byUid[d.profile.uid]? = some slot :=
    (h.byUid _ _).mpr ⟨prev, hslot, hprv⟩
  have hget := getElem?_insert_user users d.profile.uid record
  obtain ⟨hpnd, hcnd⟩ := nodup_digest hrd
  obtain ⟨hpnd', hcnd'⟩ := nodup_digest hrdo
  refine ⟨h.providersOk, h.claimNamesOk, fun uid s => ?_, fun uid => ?_, fun s e he => ?_,
    h.freeNodup, fun s => ?_, fun column => (h.columns column).replace hslot d, fun facet => ?_,
    ?_, ?_⟩
  · simp only [IndexData.replace, hset]
    rw [h.byUid]
    by_cases hs : slot = s
    · subst hs
      simp [hslot, hprv]
    · simp [hs]
  · rw [mem_insert, LawfulEqCmp.compare_eq_iff_eq, h.accounts]
    constructor
    · rintro (rfl | hmem)
      · exact ⟨slot, hbyU⟩
      · exact hmem
    · exact .inr
  · simp only [IndexData.replace, hset] at he
    split at he
    · cases he
      exact ⟨record, by rw [hget, if_pos rfl], hrd.move rfl rfl⟩
    · next hs =>
      obtain ⟨r, hr, hre⟩ := h.digests s e he
      exact ⟨r, by rw [hget, if_neg (hprv ▸ h.apart hslot he hs), hr], hre.move rfl rfl⟩
  · simp only [IndexData.replace, hset]
    rw [h.freeIff]
    by_cases hs : slot = s
    · subst hs
      simp [hslot]
    · simp [hs]
  · have htot := facetTotal_insert users hrd facet
    have hle : _ ≤ facetTotal readings users facet := held_le_tally _ users d.profile.uid
    rw [hold] at htot hle
    simp only [held, ← hrdo.applies facet] at htot hle
    simp only [IndexData.replace, (counters_apply _ d facet).1, (counters_apply _ prev facet).2,
      h.counters facet]
    omega
  · simp only [IndexData.replace, IndexData.recount]
    split
    · next hsm =>
      refine h.providerCounts.same ?_
      rw [hold]
      exact hrdo.providers.unique (hsm ▸ hrd.providers)
    · exact h.providerCounts.put h.providersOk (some record)
        (by rw [hold]; exact hrdo.providers) hrd.providers hpnd' hpnd
  · simp only [IndexData.replace, IndexData.recount]
    split
    · next hsm =>
      refine h.claimCounts.same ?_
      rw [hold]
      exact hrdo.claimKeys.unique (hsm ▸ hrd.claimKeys)
    · exact h.claimCounts.put h.claimNamesOk (some record)
        (by rw [hold]; exact hrdo.claimKeys) hrd.claimKeys hcnd' hcnd

/-- An account is dropped, and its slot is free. -/
theorem unlink {prev : UserDigest Nat} (hslot : index.data.slots[slot]? = some (some prev))
    (hprv : prev.profile.uid = uid) :
    Exact readings
      { data := { index.data.unlink slot prev with slots := index.data.slots.set slot none }
        free := slot :: index.free } (users.erase uid) := by
  subst hprv
  have hset := getElem?_set_slot hslot none
  obtain ⟨old, hold, hrd⟩ := h.digests slot prev hslot
  have hget : ∀ k : Text, (users.erase prev.profile.uid)[k]?
      = if prev.profile.uid = k then none else users[k]? := fun k => by
    simp [getElem?_erase]
  obtain ⟨hpnd, hcnd⟩ := nodup_digest hrd
  refine ⟨h.providersOk, h.claimNamesOk, fun uid s => ?_, fun uid => ?_, fun s e he => ?_,
    nodup_cons.mpr ⟨fun hmem => ?_, h.freeNodup⟩, fun s => ?_,
    fun column => (h.columns column).removeKeyed hslot, fun facet => ?_, ?_, ?_⟩
  · simp only [unlink, hset, getElem?_erase, LawfulEqCmp.compare_eq_iff_eq]
    by_cases huid : prev.profile.uid = uid
    · rw [if_pos huid]
      refine iff_of_false nofun ?_
      rintro ⟨e, he, heq⟩
      by_cases hs : slot = s
      · simp [hs] at he
      · rw [if_neg hs] at he
        exact h.apart hslot he hs (huid.trans heq.symm)
    · rw [if_neg huid, h.byUid]
      by_cases hs : slot = s
      · subst hs
        simp [hslot, huid]
      · rw [if_neg hs]
  · simp only [unlink, mem_erase, getElem?_erase, LawfulEqCmp.compare_eq_iff_eq, h.accounts, ne_eq]
    by_cases huid : prev.profile.uid = uid
    · simp [huid]
    · simp [huid]
  · simp only [hset] at he
    split at he
    · cases he
    · next hs =>
      obtain ⟨r, hr, hre⟩ := h.digests s e he
      exact ⟨r, by rw [hget, if_neg (h.apart hslot he hs), hr], hre.move rfl rfl⟩
  · rw [h.freeIff, hslot] at hmem
    cases hmem
  · simp only [hset, mem_cons, h.freeIff]
    by_cases hs : slot = s
    · simp [hs]
    · simp [hs, Ne.symm hs]
  · have htot := facetTotal_put readings users prev.profile.uid none facet
    have hle : _ ≤ facetTotal readings users facet := held_le_tally _ users prev.profile.uid
    rw [hold] at htot hle
    simp only [held, ← hrd.applies facet] at htot hle
    simp only [unlink, (counters_apply _ prev facet).2, h.counters facet]
    change _ = facetTotal readings (ChangeLog.put users prev.profile.uid none) facet
    omega
  · exact h.providerCounts.put h.providersOk none (by rw [hold]; exact hrd.providers) .nil hpnd .nil
  · exact h.claimCounts.put h.claimNamesOk none (by rw [hold]; exact hrd.claimKeys) .nil hcnd .nil

/-- A slot at the end, free. -/
theorem extend (hfr : index.free = []) : Exact readings
      { data := { index.data with slots := index.data.slots ++ [none] }
        free := [index.data.slots.length] } users := by
  have hget : ∀ (s : Nat) (d : UserDigest Nat), (index.data.slots ++ [none])[s]? = some (some d)
      ↔ index.data.slots[s]? = some (some d) := fun s d => by simp [Interner.getElem?_concat_eq_some]
  refine ⟨h.providersOk, h.claimNamesOk, fun uid s => ?_, h.accounts, fun s e he => ?_,
    nodup_singleton _, fun s => ?_, fun column => ⟨fun k s => ?_, fun s => ?_⟩, h.counters,
    h.providerCounts, h.claimCounts⟩
  · simp [hget, h.byUid]
  · obtain ⟨r, hr, hre⟩ := h.digests s e ((hget s e).mp he)
    exact ⟨r, hr, hre.move rfl rfl⟩
  · have hnn := h.freeIff s
    rw [hfr] at hnn
    simp [Interner.getElem?_concat_eq_some, ← hnn]
  · simp [hget, (h.columns column).values]
  · simp [hget, (h.columns column).nulls]

/-- An index without free slots has no more slots than there are accounts. -/
theorem length_slots_le (hfr : index.free = []) : index.data.slots.length ≤ users.size := by
  have hslot : ∀ s < index.data.slots.length, ∃ d, index.data.slots[s]? = some (some d) :=
    fun s hs => by
      cases hd : index.data.slots.get ⟨s, hs⟩ with
      | some d => exact ⟨d, List.getElem?_eq_some_iff.mpr ⟨hs, hd⟩⟩
      | none =>
        have hmem := (h.freeIff s).mpr (List.getElem?_eq_some_iff.mpr ⟨hs, hd⟩)
        rw [hfr] at hmem
        cases hmem
  let uidAt : Nat → Option Text := fun s => (index.data.digest s).map (·.profile.uid)
  have huid : ∀ {s : Nat} {d : UserDigest Nat}, index.data.slots[s]? = some (some d) →
      uidAt s = some d.profile.uid := fun hd => by simp [uidAt, digest, hd]
  have hcr := Finset.card_le_card_of_injOn (s := Finset.range index.data.slots.length)
    (t := (users.keys.map some).toFinset) uidAt ?_ ?_
  · rw [Finset.card_range] at hcr
    refine hcr.trans ((toFinset_card_le _).trans ?_)
    rw [length_map, length_keys]
  · intro s hs
    obtain ⟨d, hd⟩ := hslot s (Finset.mem_range.mp hs)
    obtain ⟨record, hrec, -⟩ := h.digests s d hd
    rw [huid hd]
    simp only [coe_toFinset, mem_map, Option.some.injEq, exists_eq_right,
      ExtTreeMap.mem_keys, Set.mem_ofPred_eq]
    exact ExtTreeMap.mem_iff_isSome_getElem?.mpr (by rw [hrec]; rfl)
  · intro s hs s' hs' heq
    obtain ⟨d, hd⟩ := hslot s (Finset.mem_range.mp hs)
    obtain ⟨d', hd'⟩ := hslot s' (Finset.mem_range.mp hs')
    rw [huid hd, huid hd'] at heq
    have hs₁ := (h.byUid _ _).mpr ⟨d, hd, rfl⟩
    have hs₂ := (h.byUid _ _).mpr ⟨d', hd', (Option.some.inj heq).symm⟩
    exact Option.some.inj (hs₁.symm.trans hs₂)

/-- The slot taken was on top of the free ones, if need be after it was added. -/
theorem takeSlot (hsz : users.size < 2 ^ 32) :
    ∃ index', Exact readings index' users ∧ index'.free = index.takeSlot.2 :: index.takeSlot.1.free
      ∧ index'.data = index.takeSlot.1.data := by
  cases hfr : index.free with
  | cons slot free => exact ⟨index, h, by simp [UserIndex.takeSlot, hfr], by
      simp [UserIndex.takeSlot, hfr]⟩
  | nil =>
    have hle := h.length_slots_le hfr
    have hmin : min index.data.slots.length maxU32 = index.data.slots.length :=
      min_eq_left (by rw [maxU32]; omega)
    exact ⟨_, h.extend hfr, by simp [UserIndex.takeSlot, hfr, hmin], by
      simp [UserIndex.takeSlot, hfr]⟩

end

end Exact

/-! ### Digests that are built -/

/-- The interners hold no more names than there are ids. -/
structure IndexData.Fits (data : IndexData) : Prop where
  providers : data.providers.names.length ≤ 2 ^ 32
  claimNames : data.claimNames.names.length ≤ 2 ^ 32

section Built

variable {readings : Readings} {data : IndexData} {uid : Text} {record : UserRecord}

/-- The digest before is that of some record of the account. -/
def Before (readings : Readings) (data : IndexData) (localId : Text)
    (previous : Option (UserDigest Nat)) : Prop :=
  ∀ d ∈ previous, ∃ old, DigestReads data d (digestOf readings localId old)

/-- Claims whose text did not change have the keys they had. -/
theorem claimsOf_of_same_text {old : UserRecord}
    (h : (claimsOf readings old).2 = truthyStr record "customAttributes") :
    claimsOf readings record = claimsOf readings old := by
  unfold claimsOf at h ⊢
  rw [← h]
  cases truthyStr old "customAttributes" with
  | none => rfl
  | some text => by_cases hemp : (readings.claimNames text).isEmpty <;> simp [hemp]

theorem buildClaims_grows (data : IndexData) (readings : Readings) (record : UserRecord)
    (prev : Option (UserDigest Nat)) :
    data.claimNames.names <+: (data.buildClaims readings record prev).1.names := by
  have hgr := data.claimNames.internAll_grows (claimsOf readings record).1
  unfold buildClaims
  split
  · dsimp only
    split
    · exact prefix_rfl
    · exact hgr
  · exact hgr

theorem buildClaims_reads (hok : data.claimNames.Ok) (hbef : Before readings data uid prev)
    (hft : (data.buildClaims readings record prev).1.names.length ≤ 2 ^ 32) :
    (data.buildClaims readings record prev).1.Ok ∧ (data.buildClaims readings record prev).1.Reads
          (data.buildClaims readings record prev).2.1 (claimsOf readings record).1
      ∧ (data.buildClaims readings record prev).2.2 = (claimsOf readings record).2 := by
  have hfrs (hft : (data.claimNames.internAll (claimsOf readings record).1).1.names.length
      ≤ 2 ^ 32) := hok.internAll hft
  unfold buildClaims at hft ⊢
  split
  · next digest =>
    obtain ⟨old, hrd⟩ := hbef digest rfl
    by_cases hsm : digest.claims = truthyStr record "customAttributes"
        ∧ ((truthyStr record "customAttributes").isSome ∨ digest.claimKeys.isEmpty)
    · simp only [if_pos hsm]
      rw [claimsOf_of_same_text (hrd.claims ▸ hsm.1)]
      exact ⟨hok, hrd.claimKeys, hrd.claims⟩
    · simp only [if_neg hsm] at hft ⊢
      exact ⟨(hfrs hft).1, (hfrs hft).2, trivial⟩
  · exact ⟨(hfrs hft).1, (hfrs hft).2, rfl⟩

/-- **A digest reads as its record**, whatever it took over from the digest before. -/
theorem buildDigest_reads (hpr : data.providers.Ok) (hclm : data.claimNames.Ok)
    (hbef : Before readings data uid prev)
    (hft : (data.buildDigest readings uid record prev).1.Fits) :
    DigestReads (data.buildDigest readings uid record prev).1
      (data.buildDigest readings uid record prev).2 (digestOf readings uid record) := by
  have hfp : (data.providers.internNew (providerNames record) []).1.names.length
      ≤ 2 ^ 32 := hft.providers
  obtain ⟨-, hrd⟩ := hpr.internNew .nil hfp
  obtain ⟨-, hky, htx⟩ := buildClaims_reads hclm hbef hft.claimNames
  have hprf : (data.buildDigest readings uid record prev).2.profile
      = (digestOf readings uid record).profile := by
    simp [buildDigest, digestOf, hrd.isEmpty_eq]
  refine ⟨hprf, ?_, htx, hrd, hky⟩
  simp only [buildDigest]
  split
  · next digest =>
    split
    · next hsm =>
      obtain ⟨old, hold⟩ := hbef digest rfl
      have hdig : digest.haystack = haystackOf readings digest.profile := by
        rw [hold.haystack, hold.profile]
        rfl
      rw [hdig, haystackOf, hsm.1, hsm.2.1, hsm.2.2.1, hsm.2.2.2]
      rfl
    · rfl
  · rfl

end Built

/-! ### Upserting and removing -/

/-- The names that an upsert leaves are those that its digest interned. -/
theorem upsert_interners (readings : Readings) (index : UserIndex) (uid : Text)
    (record : UserRecord) :
    let built := (index.data.buildDigest readings uid record
      (index.data.byUid[uid]?.bind index.data.digest)).1
    (index.upsert readings uid record).data.providers = built.providers
      ∧ (index.upsert readings uid record).data.claimNames = built.claimNames := by
  dsimp [upsert]
  split
  · exact ⟨rfl, rfl⟩
  split
  · exact ⟨rfl, rfl⟩
  · unfold takeSlot
    split <;> exact ⟨rfl, rfl⟩

/-- Interners only grow. -/
theorem fits_of_upsert {readings : Readings} {index : UserIndex}
    (h : (index.upsert readings uid record).data.Fits) :
    index.data.Fits := by
  obtain ⟨hpr, hclm⟩ := upsert_interners readings index uid record
  refine ⟨?_, ?_⟩
  · have hgr := index.data.providers.internNew_grows (providerNames record) []
    have hle := h.providers
    rw [hpr] at hle
    exact hgr.length_le.trans hle
  · have hgr := buildClaims_grows index.data readings record
      (index.data.byUid[uid]?.bind index.data.digest)
    have hle := h.claimNames
    rw [hclm] at hle
    exact hgr.length_le.trans hle

namespace Exact

variable {readings : Readings} {index : UserIndex} {users : Users}

section

variable (h : Exact readings index users)

include h

theorem not_mem (hslot : index.data.byUid[uid]? = none) : uid ∉ users := fun hmem => by
  obtain ⟨slot, hsm⟩ := (h.accounts uid).mp hmem
  rw [hslot] at hsm
  cases hsm

/-- The digest that is there is that of the account's record. -/
theorem before (uid : Text) :
    Before readings index.data uid (index.data.byUid[uid]?.bind index.data.digest) := by
  intro d hd
  obtain ⟨slot, hslot, hdig⟩ := Option.bind_eq_some_iff.mp hd
  obtain ⟨d', record, hget, -, -, hrd⟩ := h.slot_of_mem hslot
  rw [digest_of_slot hget] at hdig
  cases hdig
  exact ⟨record, hrd⟩

/-- Building a digest interns names and does nothing else. -/
theorem built (hbef : Before readings index.data uid prev)
    (hft : (index.data.buildDigest readings uid record prev).1.Fits) :
    Exact readings
      { index with data := (index.data.buildDigest readings uid record prev).1 } users :=
  h.grow (h.providersOk.internNew .nil hft.providers).1
    (buildClaims_reads h.claimNamesOk hbef hft.claimNames).1
    (index.data.providers.internNew_grows _ _) (buildClaims_grows index.data readings record prev)

/-- **An upsert brings the index up to date with the record.** -/
theorem upsert (hsz : users.size < 2 ^ 32) (hft : (index.upsert readings uid record).data.Fits) :
    Exact readings (index.upsert readings uid record) (users.insert uid record) := by
  have hbef := h.before uid
  obtain ⟨hpr, hclm⟩ := upsert_interners readings index uid record
  have hfb : (index.data.buildDigest readings uid record
      (index.data.byUid[uid]?.bind index.data.digest)).1.Fits :=
    ⟨hpr ▸ hft.providers, hclm ▸ hft.claimNames⟩
  have hrd := buildDigest_reads h.providersOk h.claimNamesOk hbef hfb
  have hblt := h.built hbef hfb
  dsimp [UserIndex.upsert]
  cases hslot : index.data.byUid[uid]? with
  | some slot =>
    obtain ⟨d, -, hget, huid, -, -⟩ := h.slot_of_mem hslot
    have hdig := digest_of_slot hget
    rw [hslot, Option.bind_some, hdig] at hrd hblt
    simp only [Option.bind_some, hdig]
    split
    · next hsm =>
      rw [← Option.some.inj hsm] at hrd
      exact hblt.same hget huid hrd
    · exact hblt.replace hget huid rfl hrd
  | none =>
    rw [hslot, Option.bind_none] at hrd hblt
    simp only [Option.bind_none]
    obtain ⟨index', hidx', hfr, hdt⟩ := hblt.takeSlot hsz
    rw [← hdt]
    refine hidx'.link hfr (getElem?_eq_none (h.not_mem hslot)) rfl (hrd.move ?_ ?_)
    all_goals
      rw [hdt]
      unfold UserIndex.takeSlot
      split <;> rfl

/-- **A removal leaves the index of the other accounts.** -/
theorem remove (uid : Text) : Exact readings (index.remove uid) (users.erase uid) := by
  unfold UserIndex.remove
  cases hslot : index.data.byUid[uid]? with
  | none =>
    have hsm := ChangeLog.put_getElem? users uid
    rw [getElem?_eq_none (h.not_mem hslot), ChangeLog.put] at hsm
    rw [hsm]
    exact h
  | some slot =>
    obtain ⟨d, -, hget, huid, -, -⟩ := h.slot_of_mem hslot
    have hdig := digest_of_slot hget
    simp only [hdig]
    exact h.unlink hget huid

end

/-! ### Building from scratch -/

theorem size_le_foldl_insert (l : List (Text × UserRecord)) (users : Users) :
    users.size ≤ (l.foldl (fun users user => users.insert user.1 user.2) users).size := by
  induction l generalizing users with
  | nil => exact Nat.le_refl _
  | cons user l ih => exact size_le_size_insert.trans (ih _)

theorem fits_of_foldl_upsert {index : UserIndex}
    (h : (l.foldl (fun index user => index.upsert readings user.1 user.2) index).data.Fits) :
    index.data.Fits := by
  induction l generalizing index with
  | nil => exact h
  | cons user l ih => exact fits_of_upsert (ih h)

theorem foldl_upsert (h : Exact readings index users)
    (hsz : (l.foldl (fun users user => users.insert user.1 user.2) users).size < 2 ^ 32)
    (hft : (l.foldl (fun index user => index.upsert readings user.1 user.2) index).data.Fits) :
    Exact readings (l.foldl (fun index user => index.upsert readings user.1 user.2) index)
      (l.foldl (fun users user => users.insert user.1 user.2) users) := by
  induction l generalizing index users with
  | nil => exact h
  | cons user l ih =>
    refine ih (h.upsert ?_ (fits_of_foldl_upsert hft)) hsz hft
    exact Nat.lt_of_le_of_lt (size_le_foldl_insert (user :: l) users) hsz

theorem foldl_insert_toList (users : Users) :
    users.toList.foldl (fun users user => users.insert user.1 user.2) ∅ = users := by
  rw [← insertMany_list_eq_foldl]
  refine ext_getElem? fun k => ?_
  cases hk : users[k]? with
  | some record =>
    exact getElem?_insertMany_list_of_mem ReflCmp.compare_self
      distinct_keys_toList (mem_toList_iff_getElem?_eq_some.mpr hk)
  | none =>
    rw [getElem?_insertMany_list_of_contains_eq_false, getElem?_empty]
    rw [contains_eq_mem, decide_eq_false_iff_not]
    intro hmem
    obtain ⟨⟨k', record⟩, hin, rfl⟩ := mem_map.mp hmem
    rw [mem_toList_iff_getElem?_eq_some.mp hin] at hk
    cases hk

/-- The interners of an index hold allowed names only. -/
structure Names (providers claims : Text → Prop) (data : IndexData) : Prop where
  providers : data.providers.Within providers
  claimNames : data.claimNames.Within claims

theorem Names.upsert (h : Names providers claims index.data)
    (hpr : ∀ name ∈ providerNames record, providers name)
    (hclm : ∀ name ∈ (claimsOf readings record).1, claims name) :
    Names providers claims (index.upsert readings uid record).data := by
  obtain ⟨hp, hc⟩ := upsert_interners readings index uid record
  refine ⟨?_, ?_⟩
  · rw [hp]
    exact h.providers.internNew [] hpr
  rw [hc]
  dsimp [buildDigest, buildClaims]
  split
  · split
    · exact h.claimNames
    · exact h.claimNames.internAll hclm
  · exact h.claimNames.internAll hclm

theorem Names.foldl_upsert (h : Names providers claims index.data)
    (hall : ∀ user ∈ l, (∀ name ∈ providerNames user.2, providers name) ∧
      ∀ name ∈ (claimsOf readings user.2).1, claims name) :
    Names providers claims
      (l.foldl (fun index user => index.upsert readings user.1 user.2) index).data := by
  induction l generalizing index with
  | nil => exact h
  | cons user l ih =>
    rw [forall_mem_cons] at hall
    exact ih (h.upsert hall.1.1 hall.1.2) hall.2

/-- An index built from scratch interns no name that the index at hand has not. -/
theorem fits_build (h : Exact readings index users) (hft : index.data.Fits) :
    (UserIndex.build readings users).data.Fits := by
  have hnms : Names (· ∈ index.data.providers.names) (· ∈ index.data.claimNames.names)
      (build readings users).data := by
    refine Names.foldl_upsert ⟨⟨.nil, by simp, by simp⟩, ⟨.nil, by simp, by simp⟩⟩ fun user hus => ?_
    have hrec := mem_toList_iff_getElem?_eq_some.mp hus
    obtain ⟨slot, hslot⟩ := (h.accounts user.1).mp (mem_iff_isSome_getElem?.mpr (by rw [hrec]; rfl))
    obtain ⟨d, record, -, -, hsm, hrd⟩ := h.slot_of_mem hslot
    cases hrec.symm.trans hsm
    refine ⟨fun name hname => ?_, fun name hname => ?_⟩
    · obtain ⟨i, -, hi⟩ := hrd.providers.mem_ids (mem_pushNew.mpr (.inr hname))
      exact mem_of_getElem? hi
    · obtain ⟨i, -, hi⟩ := hrd.claimKeys.mem_ids hname
      exact mem_of_getElem? hi
  exact ⟨hnms.providers.length_le.trans hft.providers,
    hnms.claimNames.length_le.trans hft.claimNames⟩

/-- **An index built from scratch is exact.** -/
theorem build (hsz : users.size < 2 ^ 32) (hft : (UserIndex.build readings users).data.Fits) :
    Exact readings (UserIndex.build readings users) users := by
  have hfl := (Exact.empty readings).foldl_upsert (l := users.toList)
    (by rwa [foldl_insert_toList]) hft
  rwa [foldl_insert_toList] at hfl

end Exact

end Firenook.Auth
