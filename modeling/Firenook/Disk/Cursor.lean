import Firenook.Disk.TimeTravel
import Firenook.Store.Cursor

/-!
# Cursor — the disk backend's key cursor

The disk cursor merges a range of the documents table with the snapshot's overlay. It buffers one
key read ahead, and a seek keeps the buffered key or opens the range again at the path sought.

It remembers only where it started. A seek to a path it has passed opens the range there, and keys
already returned come again (`disk_cursor_returns_twice`). As long as no call sends it back it
shows what the memory cursor shows (`key_cursors`).
-/

namespace Firenook.Disk

open List Std Ordering OrientedCmp TransCmp MemoryCursor Fallible ChangeLog LexOrder Bytes

variable {key k : DocumentKey} {rest overlay : List (DocumentKey × Bool)} {path floor : List UInt8}

/-! ### The cursor -/

structure DiskKeyCursor where
  database : DatabaseName
  lower : List UInt8
  upper : Option (List UInt8)
  /-- The documents table of the snapshot's transaction. -/
  table : Table
  /-- The encoded keys the open range has left. -/
  range : Option (List (List UInt8))
  nextDisk : Option DocumentKey
  /-- The overlay entries from the overlay position on. -/
  overlay : List (DocumentKey × Bool)
  exhausted : Bool

namespace DiskKeyCursor

variable {c c' : DiskKeyCursor}

def openRange (table : Table) (upper : Option (List UInt8)) (lower : List UInt8) :
    Option (List (List UInt8)) := do
  let upper ← upper
  if (compare upper lower).isLE then none
  else some (table.keys.filter fun e => (compare lower e).isLE && compare e upper = .lt)

def overlayScope (overlay : Map DocumentKey (Option Document)) (database : DatabaseName)
    (start : List UInt8) : List (DocumentKey × Bool) :=
  ((overlay.toList.dropWhile fun entry => !MemoryCursor.atOrAfter database start entry.1).takeWhile
    fun entry => inScope database start entry.1).map fun entry => (entry.1, entry.2.isSome)

/-- `database_prefix(..).unwrap_or_default()`. -/
def databaseStart (database : DatabaseName) : List UInt8 :=
  (databasePrefix database).toOption.getD []

def «open» (s : DiskSnapshot) (database : DatabaseName) (start : List UInt8) : DiskKeyCursor :=
  let lower := databaseStart database ++ start
  let upper := successor lower
  { database
    lower
    upper
    table := s.tables.documents
    range := openRange s.tables.documents upper lower
    nextDisk := none
    overlay := overlayScope s.overlay database start
    exhausted := false }

/-- The next key of a range that decodes. -/
def nextStored : List (List UInt8) → Option DocumentKey × List (List UInt8)
  | [] => (none, [])
  | e :: es =>
    match decodeDocumentKey e with
    | .ok k => (some k, es)
    | .error _ => nextStored es

/-- Buffers a disk key if none is. -/
def fetch (c : DiskKeyCursor) : DiskKeyCursor :=
  match c.nextDisk, c.range with
  | none, some es => { c with nextDisk := (nextStored es).1, range := some (nextStored es).2 }
  | _, _ => c

/-- The loop of `next`, over the overlay entries left. -/
def walk (c : DiskKeyCursor) : List (DocumentKey × Bool) → Option DocumentKey × DiskKeyCursor
  | [] =>
    let c := c.fetch
    match c.nextDisk with
    | none => (none, { c with overlay := [], exhausted := true })
    | some disk => (some disk, { c with nextDisk := none, overlay := [] })
  | (key, present) :: rest =>
    let c := c.fetch
    match c.nextDisk with
    | none => if present then (some key, { c with overlay := rest }) else c.walk rest
    | some disk =>
      match compare disk key with
      | .lt => (some disk, { c with nextDisk := none, overlay := (key, present) :: rest })
      | .eq =>
        let c := { c with nextDisk := none }
        if present then (some key, { c with overlay := rest }) else c.walk rest
      | .gt => if present then (some key, { c with overlay := rest }) else c.walk rest

def next (c : DiskKeyCursor) : Option DocumentKey × DiskKeyCursor :=
  if c.exhausted then (none, c) else c.walk c.overlay

def seek (c : DiskKeyCursor) (path : List UInt8) : DiskKeyCursor :=
  let lower := databaseStart c.database ++ path
  if c.exhausted || compare lower c.lower = .lt then c
  else
    let c := if c.nextDisk.any fun key => (compare path key.path.bytes).isLE then c
      else { c with nextDisk := none, range := openRange c.table c.upper lower }
    { c with
      overlay := c.overlay.dropWhile fun entry =>
        !MemoryCursor.atOrAfter c.database path entry.1 }

def cursor : Cursor DiskKeyCursor := ⟨next, seek⟩

/-! ### One walk -/

/-- The keys a range decodes to. -/
def decoded (es : List (List UInt8)) : List DocumentKey :=
  es.filterMap fun e => (decodeDocumentKey e).toOption

/-- The disk keys a cursor has left. -/
def pending (c : DiskKeyCursor) : List DocumentKey :=
  c.nextDisk.toList ++ decoded (c.range.getD [])

theorem nextStored_eq : ∀ es, decoded es = (nextStored es).1.toList ++ decoded (nextStored es).2 ∧
      ((nextStored es).1 = none → decoded (nextStored es).2 = [])
  | [] => ⟨rfl, fun _ => rfl⟩
  | e :: es => by
    obtain ⟨heq, hnn⟩ := nextStored_eq es
    rw [nextStored, decoded, filterMap_cons]
    cases decodeDocumentKey e with
    | ok k => exact ⟨rfl, nofun⟩
    | error _ => exact ⟨heq, hnn⟩

/-- Fetching keeps the keys left and buffers the first of them. -/
theorem fetch_eq (c : DiskKeyCursor) :
    ∃ nextDisk range, c.fetch = { c with nextDisk, range } ∧ pending c.fetch = pending c ∧
      nextDisk = (pending c).head? := by
  unfold fetch
  split
  · next es hnx hrng =>
    obtain ⟨heq, hnn⟩ := nextStored_eq es
    have hpen : pending c = decoded es := by
      rw [pending, hnx, hrng]
      rfl
    refine ⟨_, _, rfl, ?_, ?_⟩
    · rw [hpen, heq]
      rfl
    rw [hpen, heq]
    cases hfst : (nextStored es).1 with
    | none => rw [hnn hfst]; rfl
    | some k => rfl
  · next hoth =>
    refine ⟨c.nextDisk, c.range, rfl, rfl, ?_⟩
    cases hnx : c.nextDisk with
    | some k => rw [pending, hnx]; rfl
    | none =>
      cases hrng : c.range with
      | some es => exact absurd hrng (hoth es hnx)
      | none => rw [pending, hnx, hrng]; rfl

/-- A key of a merge: present in the overlay, or on disk and not in the overlay. -/
def Merged (disk : List DocumentKey) (overlay : List (DocumentKey × Bool)) (k : DocumentKey) :
    Prop :=
  (k, true) ∈ overlay ∨ (k ∈ disk ∧ ∀ present, (k, present) ∉ overlay)

def laterThan (k : DocumentKey) (keys : List DocumentKey) : List DocumentKey :=
  keys.filter fun j => compare k j = .lt

def entriesAfter (k : DocumentKey) (overlay : List (DocumentKey × Bool)) :
    List (DocumentKey × Bool) :=
  overlay.filter fun entry => compare k entry.1 = .lt

/-- What a walk does: it returns the least key of the merge and leaves what is after it, or finds
nothing and is exhausted. -/
def Walked (c : DiskKeyCursor) (overlay : List (DocumentKey × Bool)) :
    Option DocumentKey × DiskKeyCursor → Prop
  | (some k, c') => Merged (pending c) overlay k ∧
      (∀ j, Merged (pending c) overlay j → (compare k j).isLE) ∧
      pending c' = laterThan k (pending c) ∧
      ∃ nextDisk range, c' = { c with nextDisk, range, overlay := entriesAfter k overlay }
  | (none, c') => (∀ j, ¬Merged (pending c) overlay j) ∧
      ∃ nextDisk range, c' = { c with nextDisk, range, overlay := [], exhausted := true }

section Entry

variable (hc : ∃ nextDisk range, c' = { c with nextDisk, range })
  (hdisk : pending c = pending c' ∨ pending c = key :: pending c')
  (hlater : ∀ k ∈ pending c', compare key k = .lt)
  (hrest : ∀ entry ∈ rest, compare key entry.1 = .lt)

include hc hdisk hlater hrest in
/-- Skipping an entry that hides its key, and the disk key it hides if that is next. -/
theorem Walked.skip {result : Option DocumentKey × DiskKeyCursor} (h : Walked c' rest result) :
    Walked c ((key, false) :: rest) result := by
  have hsl : compare key key = .eq := ReflCmp.compare_self
  have haft : ∀ j, Merged (pending c') rest j → compare key j = .lt := by
    rintro j (hj | ⟨hj, -⟩)
    · exact hrest _ hj
    · exact hlater j hj
  have hmrg : ∀ j, Merged (pending c) ((key, false) :: rest) j ↔ Merged (pending c') rest j := by
    intro j
    constructor
    · rintro (hj | ⟨hj, hnot⟩)
      · rcases mem_cons.mp hj with hj | hj
        · cases hj
        · exact .inl hj
      · refine .inr ⟨?_, fun present hp => hnot present (mem_cons_of_mem _ hp)⟩
        rcases hdisk with hdisk | hdisk <;> rw [hdisk] at hj
        · exact hj
        · rcases mem_cons.mp hj with rfl | hj
          · exact absurd mem_cons_self (hnot false)
          · exact hj
    · intro hj
      have hne : j ≠ key := by
        rintro rfl
        rw [haft _ hj] at hsl
        cases hsl
      rcases hj with hj | ⟨hj, hnot⟩
      · exact .inl (mem_cons_of_mem _ hj)
      refine .inr ⟨?_, fun present hp => ?_⟩
      · rcases hdisk with hdisk | hdisk <;> rw [hdisk]
        · exact hj
        · exact mem_cons_of_mem _ hj
      · rcases mem_cons.mp hp with hp | hp
        · exact hne (Prod.mk.inj hp).1
        · exact hnot present hp
  -- the hidden key is before whatever is returned
  have hbef : ∀ j, Merged (pending c') rest j → decide (compare j key = .lt) = false := by
    intro j hj
    rw [gt_of_lt (haft j hj)]
    rfl
  obtain ⟨nextDisk, range, rfl⟩ := hc
  match result, h with
  | (some k, c''), ⟨hk, hlst, hpen, nextDisk', range', hc''⟩ =>
    refine ⟨(hmrg k).mpr hk, fun j hj => hlst j ((hmrg j).mp hj), ?_, nextDisk', range', ?_⟩
    · rw [hpen]
      rcases hdisk with hdisk | hdisk <;> rw [hdisk]
      rw [laterThan, laterThan, filter_cons_of_neg (by simp [hbef k hk])]
    · rw [hc'', entriesAfter, entriesAfter, filter_cons_of_neg (by simp [hbef k hk])]
  | (none, c''), ⟨hnn, nextDisk', range', hc''⟩ =>
    exact ⟨fun j hj => hnn j ((hmrg j).mp hj), nextDisk', range', hc''⟩

section

variable {keys : List DocumentKey} (h : ∀ j ∈ keys, compare k j = .lt)

include h

theorem laterThan_of_forall : laterThan k keys = keys :=
  filter_eq_self.mpr fun j hj => decide_eq_true (h j hj)

theorem laterThan_cons : laterThan k (k :: keys) = keys := by
  rw [laterThan, filter_cons_of_neg (by simp)]
  exact laterThan_of_forall h

end

theorem entriesAfter_of_forall (h : ∀ entry ∈ overlay, compare k entry.1 = .lt) :
    entriesAfter k overlay = overlay :=
  filter_eq_self.mpr fun entry hent => decide_eq_true (h entry hent)

theorem entriesAfter_cons {present : Bool} (h : ∀ entry ∈ overlay, compare k entry.1 = .lt) :
    entriesAfter k ((k, present) :: overlay) = overlay := by
  rw [entriesAfter, filter_cons_of_neg (by simp)]
  exact entriesAfter_of_forall h

include hc hdisk hlater hrest

/-- A present entry that no disk key is before. -/
theorem Walked.present :
    Walked c ((key, true) :: rest) (some key, { c' with overlay := rest }) := by
  have hsl : (compare key key).isLE := isLE_of_eq_eq ReflCmp.compare_self
  obtain ⟨nextDisk, range, rfl⟩ := hc
  refine ⟨.inl mem_cons_self, ?_, ?_, nextDisk, range, by rw [entriesAfter_cons hrest]⟩
  · rintro j (hj | ⟨hj, -⟩)
    · rcases mem_cons.mp hj with hj | hj
      · rwa [(Prod.mk.inj hj).1]
      · exact isLE_of_eq_lt (hrest _ hj)
    · rcases hdisk with hdisk | hdisk <;> rw [hdisk] at hj
      · exact isLE_of_eq_lt (hlater j hj)
      · rcases mem_cons.mp hj with rfl | hj
        · exact hsl
        · exact isLE_of_eq_lt (hlater j hj)
  · rcases hdisk with hdisk | hdisk <;> rw [hdisk]
    · exact (laterThan_of_forall hlater).symm
    · exact (laterThan_cons hlater).symm

/-- An entry that no disk key is before is returned if it is present and passed otherwise. -/
theorem Walked.entry {present : Bool} (h : Walked c' rest (c'.walk rest)) :
    Walked c ((key, present) :: rest)
      (if present then (some key, { c' with overlay := rest }) else c'.walk rest) := by
  cases present with
  | true => exact .present hc hdisk hlater hrest
  | false => exact .skip hc hdisk hlater hrest h

end Entry

/-- A disk key before every entry. -/
theorem Walked.disk {c c' : DiskKeyCursor} {disk : DocumentKey} {keys : List DocumentKey}
    {overlay : List (DocumentKey × Bool)} (hc : ∃ nextDisk range, c' = { c with nextDisk, range })
    (hdisk : pending c = disk :: keys) (hky : ∀ k ∈ keys, compare disk k = .lt)
    (hpen : pending c' = keys) (hovl : ∀ entry ∈ overlay, compare disk entry.1 = .lt) :
    Walked c overlay (some disk, { c' with overlay }) := by
  have hsl : compare disk disk = .eq := ReflCmp.compare_self
  obtain ⟨nextDisk, range, rfl⟩ := hc
  refine ⟨.inr ⟨?_, fun present hp => ?_⟩, ?_, ?_, nextDisk, range, ?_⟩
  · rw [hdisk]
    exact mem_cons_self
  · have := hovl _ hp
    rw [hsl] at this
    cases this
  · rintro j (hj | ⟨hj, -⟩)
    · exact isLE_of_eq_lt (hovl _ hj)
    rw [hdisk] at hj
    rcases mem_cons.mp hj with rfl | hj
    · exact isLE_of_eq_eq hsl
    · exact isLE_of_eq_lt (hky j hj)
  · rw [hdisk, laterThan_cons hky]
    exact hpen
  · rw [entriesAfter_of_forall hovl]

/-- **A walk returns the least key of the merge.** -/
theorem walk_spec {c : DiskKeyCursor} (hky : (pending c).Pairwise fun j k => compare j k = .lt)
    (hovl : overlay.Pairwise fun a b => compare a.1 b.1 = .lt) :
    Walked c overlay (c.walk overlay) := by
  induction overlay generalizing c with
  | nil =>
    obtain ⟨nextDisk, range, hfet, hpen, hnx⟩ := fetch_eq c
    rw [hfet] at hpen
    rw [walk, hfet]
    cases hhd : nextDisk with
    | none =>
      have hnil : pending c = [] := head?_eq_none_iff.mp (hnx.symm.trans hhd)
      refine ⟨?_, none, range, rfl⟩
      rintro j (hj | ⟨hj, -⟩)
      · cases hj
      · rw [hnil] at hj
        cases hj
    | some disk =>
      obtain ⟨keys, hcn⟩ := head?_eq_some_iff.mp (hnx.symm.trans hhd)
      rw [hcn] at hky
      refine Walked.disk ⟨none, range, rfl⟩ hcn (pairwise_cons.mp hky).1 ?_ nofun
      rw [hhd, hcn] at hpen
      exact (cons.inj hpen).2
  | cons entry rest ih =>
    obtain ⟨key, present⟩ := entry
    obtain ⟨hrest, hen⟩ := pairwise_cons.mp hovl
    obtain ⟨nextDisk, range, hfet, hpen, hnx⟩ := fetch_eq c
    rw [hfet] at hpen
    rw [walk, hfet]
    cases hhd : nextDisk with
    | none =>
      subst hhd
      have hnil : pending c = [] := head?_eq_none_iff.mp hnx.symm
      refine Walked.entry (h := ih (hpen ▸ hky) hen) ⟨none, range, rfl⟩ (.inl hpen.symm) ?_ hrest
      rw [hpen, hnil]
      exact nofun
    | some disk =>
      subst hhd
      obtain ⟨keys, hcn⟩ := head?_eq_some_iff.mp hnx.symm
      rw [hcn] at hky hpen
      obtain ⟨hlater, htl⟩ := pairwise_cons.mp hky
      have hky' : pending { c with nextDisk := none, range } = keys :=
        (cons.inj hpen).2
      dsimp only
      cases hcmp : compare disk key with
      | lt =>
        refine Walked.disk ⟨none, range, rfl⟩ hcn hlater hky' ?_
        refine forall_mem_cons.mpr ⟨hcmp, fun entry he => ?_⟩
        exact lt_trans hcmp (hrest entry he)
      | eq =>
        obtain rfl := LawfulEqCmp.eq_of_compare hcmp
        refine Walked.entry (h := ih (hky'.symm ▸ htl) hen) ⟨none, range, rfl⟩
          (.inr (by rw [hcn, hky'])) ?_ hrest
        rw [hky']
        exact hlater
      | gt =>
        have hlt := lt_of_gt hcmp
        have hsm : pending { c with nextDisk := some disk, range } = pending c := by
          rw [hpen, hcn]
        refine Walked.entry (h := ih (hsm.symm ▸ hcn ▸ hky) hen)
          ⟨some disk, range, rfl⟩ (.inl hsm.symm) ?_ hrest
        rw [hsm, hcn]
        exact forall_mem_cons.mpr ⟨hlt, fun k hk =>
          lt_trans hlt (hlater k hk)⟩

/-! ### Ranges and scopes -/

def fromFloor (floor : List UInt8) (keys : List DocumentKey) : List DocumentKey :=
  keys.filter fun k => (compare floor k.path.bytes).isLE

def entriesFrom (floor : List UInt8) (overlay : List (DocumentKey × Bool)) :
    List (DocumentKey × Bool) :=
  overlay.filter fun entry => (compare floor entry.1.path.bytes).isLE

theorem encodeDocumentKey_eq_ok {e : List UInt8} : encodeDocumentKey k = .ok e ↔
      ∃ p, databasePrefix k.database = .ok p ∧ p ++ k.path.bytes = e := by
  simp only [encodeDocumentKey, bind_eq_ok, pure_eq_ok]

theorem databaseStart_eq {db : DatabaseName} {p : List UInt8}
    (hp : databasePrefix db = .ok p) : databaseStart db = p := by
  rw [databaseStart, hp]
  rfl

/-- Text does not start with the largest byte. -/
theorem exists_ne_largest {s : Str} (h : s.bytes ≠ []) : ∃ b ∈ s.bytes, b ≠ 255 := by
  obtain ⟨b, bs, hbs⟩ := exists_cons_of_ne_nil h
  refine ⟨b, by rw [hbs]; exact mem_cons_self, ?_⟩
  rintro rfl
  have hutf8 := s.utf8
  rw [hbs, Utf8.valid, decide_eq_true_eq] at hutf8
  change Utf8.run (Utf8.step .start 255) bs = .start at hutf8
  rw [show Utf8.step .start 255 = .dead by decide, Utf8.run_dead] at hutf8
  cases hutf8

/-- There is a path after every path of a database. -/
theorem exists_successor {db : DatabaseName} {p : List UInt8}
    (hp : databasePrefix db = .ok p) (start : List UInt8) :
    ∃ above, successor (p ++ start) = some above := by
  refine Option.ne_none_iff_exists'.mp fun hnn => ?_
  have hprj : db.projectId.bytes ≠ [] := by
    intro hnil
    have hvld := db.project_valid
    rw [validateIdentifier, hnil] at hvld
    cases hvld
  obtain ⟨b, hb, hne⟩ := exists_ne_largest hprj
  simp only [databasePrefix, bind_eq_ok, pure_eq_ok] at hp
  obtain ⟨x, hx, y, -, rfl⟩ := hp
  obtain ⟨-, rfl⟩ := lengthPrefixed_eq_ok.mp hx
  exact hne (successor_eq_none_iff.mp hnn b (by simp [hb]))

theorem mem_iff_exists_getElem? {κ ν : Type} {cmp : κ → κ → Ordering} [TransCmp cmp]
    {m : ExtTreeMap κ ν cmp} {k : κ} : k ∈ m ↔ ∃ v, m[k]? = some v := by
  rw [ExtTreeMap.mem_iff_isSome_getElem?, Option.isSome_iff_exists]

variable {t : Tables} {stored : Documents} {db : DatabaseName} {start p : List UInt8}

theorem pairwise_visibleKeys (docs : Documents) :
    (visibleKeys docs db start).Pairwise fun j k => compare j k = .lt :=
  docs.ordered_keys.filter _

theorem lt_successor {above : List UInt8} (hab : successor (p ++ start) = some above)
    {rest : List UInt8} (h : start <+: rest) : compare (p ++ rest) above = .lt :=
  ((between_successor_iff hab _).mpr ((prefix_append_right_inj p).mpr h)).2

section

variable (hrep : Represents t stored) (hp : databasePrefix db = .ok p)

include hrep hp

/-- The encoded keys of an open range are those of the scope from its path on. -/
theorem mem_range_iff {above : List UInt8} (hpt : start <+: path)
    (hab : successor (p ++ start) = some above) (e : List UInt8) :
    e ∈ t.documents.keys.filter (fun e => (compare (p ++ path) e).isLE && compare e above = .lt) ↔
      ∃ k, k ∈ fromFloor path (visibleKeys stored db start) ∧ p ++ k.path.bytes = e := by
  rw [mem_filter, ExtTreeMap.mem_keys, Bool.and_eq_true, decide_eq_true_eq]
  constructor
  · rintro ⟨he, hle, hlt⟩
    obtain ⟨v, hv⟩ := mem_iff_exists_getElem?.mp he
    obtain ⟨k, d, hk, hkey, -⟩ := (hrep.table e v).mp hv
    obtain ⟨q, hq, rfl⟩ := encodeDocumentKey_eq_ok.mp hkey
    have hbeg := isLE_of_isPrefix ((prefix_append_right_inj p).mpr hpt)
    obtain ⟨rest, hrest⟩ := (between_successor_iff hab _).mp ⟨isLE_trans hbeg hle, hlt⟩
    rw [append_assoc] at hrest
    obtain ⟨hdb, hext⟩ := databasePrefix_append_inj hp hq hrest
    obtain rfl : p = q := Except.ok.inj (hp.symm.trans (hdb ▸ hq))
    rw [compare_append_left] at hle
    refine ⟨k, mem_filter.mpr ⟨mem_visibleKeys.mpr ⟨?_, hdb.symm, ⟨rest, hext⟩⟩, hle⟩, rfl⟩
    exact mem_iff_exists_getElem?.mpr ⟨d, hk⟩
  · rintro ⟨k, hk, rfl⟩
    obtain ⟨hvis, hle⟩ := mem_filter.mp hk
    obtain ⟨hstd, hdb, hext⟩ := mem_visibleKeys.mp hvis
    obtain ⟨d, hd⟩ := mem_iff_exists_getElem?.mp hstd
    obtain ⟨v, hv, -⟩ := hrep.lookup_some (encodeDocumentKey_eq_ok.mpr ⟨p, hdb ▸ hp, rfl⟩) hd
    refine ⟨mem_iff_exists_getElem?.mpr ⟨v, hv⟩, ?_, lt_successor hab hext⟩
    rw [compare_append_left]
    exact hle

/-- **An open range decodes to the stored keys from its path on.** -/
theorem decoded_openRange (hpt : start <+: path) :
    ∃ es, openRange t.documents (successor (p ++ start)) (p ++ path) = some es ∧
      decoded es = fromFloor path (visibleKeys stored db start) := by
  obtain ⟨above, hab⟩ := exists_successor hp start
  have hbel : ¬(compare above (p ++ path)).isLE := by
    rw [gt_of_lt (lt_successor hab hpt)]
    decide
  refine ⟨_, by rw [hab]; exact if_neg hbel, ?_⟩
  have hmem := mem_range_iff hrep hp hpt hab
  have hdec : ∀ k, k ∈ fromFloor path (visibleKeys stored db start) →
      decodeDocumentKey (p ++ k.path.bytes) = .ok k := by
    intro k hk
    obtain ⟨-, hdb, -⟩ := mem_visibleKeys.mp (mem_filter.mp hk).1
    exact decodeDocumentKey_encode (encodeDocumentKey_eq_ok.mpr ⟨p, hdb ▸ hp, rfl⟩)
  refine eq_of_pairwise_lt (f := id) ?_ ((pairwise_visibleKeys stored).filter _) fun k => ?_
  · rw [decoded, pairwise_filterMap]
    refine (t.documents.ordered_keys.filter _).imp_of_mem fun {e e'} he he' hlt j hj k hk => ?_
    obtain ⟨j', hj', rfl⟩ := (hmem e).mp he
    obtain ⟨k', hk', rfl⟩ := (hmem e').mp he'
    rw [hdec j' hj'] at hj
    rw [hdec k' hk'] at hk
    obtain rfl := Option.some.inj hj
    obtain rfl := Option.some.inj hk
    obtain ⟨-, hjd, -⟩ := mem_visibleKeys.mp (mem_filter.mp hj').1
    obtain ⟨-, hkd, -⟩ := mem_visibleKeys.mp (mem_filter.mp hk').1
    rw [compare_append_left] at hlt
    change compare j' k' = .lt
    rw [compare_key, hjd, hkd, hlt, (ReflCmp.compare_self : compare db db = .eq)]
    rfl
  · rw [decoded, mem_filterMap]
    constructor
    · rintro ⟨e, he, hk⟩
      obtain ⟨k', hk', rfl⟩ := (hmem e).mp he
      rw [hdec k' hk'] at hk
      obtain rfl := Option.some.inj hk
      exact hk'
    · intro hk
      exact ⟨_, (hmem _).mpr ⟨k, hk, rfl⟩, by rw [hdec k hk]; rfl⟩

end

/-! ### The overlay's scope -/

theorem isLE_of_atOrAfter {j : DocumentKey} (hj : MemoryCursor.atOrAfter db path j = true)
    (hlt : compare j k = .lt) : MemoryCursor.atOrAfter db path k = true := by
  rw [atOrAfter, isLE_then_iff_or] at hj ⊢
  rw [compare_key, then_eq_lt] at hlt
  rcases hj with hj | ⟨hj, hpt⟩ <;> rcases hlt with hlt | ⟨heq, hlt⟩
  · exact .inl (lt_trans hj hlt)
  · exact .inl (lt_of_lt_of_eq hj heq)
  · exact .inl (lt_of_eq_of_lt hj hlt)
  · exact .inr ⟨eq_trans hj heq, isLE_of_eq_lt (lt_of_isLE_of_lt hpt hlt)⟩

/-- The entries of the scope, as a filter. -/
theorem overlayScope_eq (overlay : Map DocumentKey (Option Document)) (db : DatabaseName)
    (start : List UInt8) :
    overlayScope overlay db start =
      (overlay.toList.filter fun entry => inScope db start entry.1).map
        fun entry => (entry.1, entry.2.isSome) := by
  have hord := overlay.ordered_keys_toList
  have hdr := dropWhile_eq_filter (p := fun entry : DocumentKey × Option Document =>
    atOrAfter db start entry.1) (hord.imp fun hlt hj => isLE_of_atOrAfter hj hlt)
  rw [overlayScope, hdr, takeWhile_eq_filter, filter_filter]
  · congr 1
    refine filter_congr fun entry _ => ?_
    rw [Bool.eq_iff_iff, Bool.and_eq_true]
    refine ⟨And.left, fun hent => ⟨hent, ?_⟩⟩
    obtain ⟨hdb, hbeg⟩ := inScope_iff.mp hent
    rw [atOrAfter_of_database hdb]
    exact isLE_of_isPrefix hbeg
  · refine (hord.filter _).imp_of_mem fun hj _ hlt hk => ?_
    exact inScope_of_between (isLE_of_eq_eq ReflCmp.compare_self) (mem_filter.mp hj).2 hlt hk

theorem mem_overlayScope {overlay : Map DocumentKey (Option Document)} {present : Bool} :
    (k, present) ∈ overlayScope overlay db start ↔
      inScope db start k = true ∧ ∃ doc, overlay[k]? = some doc ∧ doc.isSome = present := by
  simp only [overlayScope_eq, mem_map, mem_filter, Prod.mk.injEq, Prod.exists,
    ExtTreeMap.mem_toList_iff_getElem?_eq_some]
  constructor
  · rintro ⟨_, doc, ⟨hent, hsc⟩, rfl, hprs⟩
    exact ⟨hsc, doc, hent, hprs⟩
  · rintro ⟨hsc, doc, hent, hprs⟩
    exact ⟨k, doc, ⟨hent, hsc⟩, rfl, hprs⟩

theorem pairwise_overlayScope (overlay : Map DocumentKey (Option Document)) :
    (overlayScope overlay db start).Pairwise fun a b => compare a.1 b.1 = .lt := by
  rw [overlayScope_eq, pairwise_map]
  exact overlay.ordered_keys_toList.filter _

/-! ### Keeping to the floor -/

variable {s : DiskSnapshot} {docs : Documents}

/-- From a floor on, the merge of disk and overlay is what is visible. -/
theorem merged_iff (hrep : Represents s.tables stored) (hsm : ∀ key, s.get key = docs[key]?) :
    Merged (fromFloor floor (visibleKeys stored db start))
        (entriesFrom floor (overlayScope s.overlay db start)) k ↔
      k ∈ visibleKeys docs db start ∧ (compare floor k.path.bytes).isLE := by
  simp only [Merged, fromFloor, entriesFrom, mem_filter, mem_overlayScope, mem_visibleKeys,
    inScope_iff, mem_iff_exists_getElem?, ← hsm]
  cases hovl : s.overlay[k]? with
  | none =>
    rw [s.get_of_overlay_eq_none hrep hovl]
    simp
  | some doc =>
    have hget : s.get k = doc := by rw [DiskSnapshot.get, hovl]
    rw [hget]
    cases doc with
    | none =>
      simp only [Option.some.injEq, exists_eq_left', Option.isSome_none, Bool.false_eq_true,
        and_false, false_and, false_or, Bool.forall_bool]
      constructor
      · rintro ⟨⟨⟨-, hsc⟩, hflr⟩, hnot, -⟩
        exact absurd ⟨⟨hsc, trivial⟩, hflr⟩ hnot
      · rintro ⟨⟨⟨d, hd⟩, -⟩, -⟩
        cases hd
    | some d =>
      simp only [Option.some.injEq, exists_eq_left', Option.isSome_some, and_true,
        Bool.forall_bool, exists_eq', true_and]
      exact ⟨fun h => h.elim id fun h => absurd ⟨h.1.1.2, h.1.2⟩ h.2.2, .inl⟩

theorem compare_of_database {j : DocumentKey} (hj : j.database = db)
    (hk : k.database = db) : compare j k = compare j.path.bytes k.path.bytes := by
  rw [compare_key, hj, hk, (ReflCmp.compare_self : compare db db = .eq), eq_then]

theorem database_of_mem {docs : Documents} (h : k ∈ visibleKeys docs db start) : k.database = db :=
  (mem_visibleKeys.mp h).2.1

theorem firstFrom_of_least (hk : k ∈ visibleKeys docs db start)
    (hflr : (compare floor k.path.bytes).isLE)
    (hlst : ∀ j ∈ visibleKeys docs db start, (compare floor j.path.bytes).isLE →
      (compare k j).isLE) :
    firstFrom (visibleKeys docs db start) floor = some k := by
  cases hfst : firstFrom (visibleKeys docs db start) floor with
  | none => exact absurd hflr (firstFrom_eq_none.mp hfst k hk)
  | some j =>
    obtain ⟨hj, hjf, hjl⟩ := firstFrom_eq_some ascending_visibleKeys hfst
    have hkj := hlst j hj hjf
    have hjk := hjl k hk hflr
    rw [← compare_of_database (database_of_mem hj) (database_of_mem hk)] at hjk
    exact congrArg some (LawfulEqCmp.eq_of_compare (isLE_antisymm hjk hkj))

/-- Past a key from the floor on, what is after it is what its own floor leaves. -/
theorem filter_floor {α : Type} (keyOf : α → DocumentKey) {l : List α}
    (hflr : (compare floor k.path.bytes).isLE)
    (hdb : ∀ x ∈ l, compare k (keyOf x) = compare k.path.bytes (keyOf x).path.bytes) :
    (l.filter fun x => (compare floor (keyOf x).path.bytes).isLE).filter
        (fun x => compare k (keyOf x) = .lt) =
      l.filter fun x => (compare (after k) (keyOf x).path.bytes).isLE := by
  rw [filter_filter]
  refine filter_congr fun x hx => ?_
  rw [Bool.eq_iff_iff, Bool.and_eq_true, decide_eq_true_eq, isLE_after_iff, hdb x hx]
  exact ⟨And.left, fun hlt =>
    ⟨hlt, isLE_of_eq_lt (lt_of_isLE_of_lt hflr hlt)⟩⟩

/-- What a cursor has left is what is on disk and in the overlay from the floor on, or it is
exhausted and nothing is visible from the floor on. -/
structure At (s : DiskSnapshot) (stored documents : Documents) (database : DatabaseName)
    (start p : List UInt8) (c : DiskKeyCursor) (floor : List UInt8) : Prop where
  state : (c.exhausted = false ∧ pending c = fromFloor floor (visibleKeys stored database start) ∧
      c.overlay = entriesFrom floor (overlayScope s.overlay database start)) ∨
    (c.exhausted = true ∧ firstFrom (visibleKeys documents database start) floor = none)
  database : c.database = database
  lower : c.lower = p ++ start
  upper : c.upper = successor (p ++ start)
  table : c.table = s.tables.documents

theorem tracks_next (hrep : Represents s.tables stored) (hsm : ∀ key, s.get key = docs[key]?)
    (h : At s stored docs db start p c floor) :
    (c.next).1 = firstFrom (visibleKeys docs db start) floor ∧
      At s stored docs db start p (c.next).2
        (((firstFrom (visibleKeys docs db start) floor).map after).getD floor) := by
  obtain ⟨⟨hexh, hpen, hovl⟩ | ⟨hexh, hnn⟩, hdb, hlow, hupr, htab⟩ := h
  · rw [next, hexh, if_neg (by decide)]
    have hsp : Walked c c.overlay (c.walk c.overlay) := by
      refine walk_spec ?_ ?_
      · rw [hpen]
        exact (pairwise_visibleKeys stored).filter _
      · rw [hovl]
        exact (pairwise_overlayScope s.overlay).filter _
    generalize c.walk c.overlay = result at hsp
    obtain ⟨key, c'⟩ := result
    cases key with
    | none =>
      obtain ⟨hnot, nextDisk, range, rfl⟩ := hsp
      rw [hpen, hovl] at hnot
      have hnn : firstFrom (visibleKeys docs db start) floor = none :=
        firstFrom_eq_none.mpr fun k hk hflr =>
          hnot k ((merged_iff hrep hsm).mpr ⟨hk, hflr⟩)
      rw [hnn]
      exact ⟨rfl, .inr ⟨rfl, hnn⟩, hdb, hlow, hupr, htab⟩
    | some k =>
      obtain ⟨hk, hlst, hpen', nextDisk, range, hc'⟩ := hsp
      rw [hpen, hovl] at hk hlst
      obtain ⟨hk, hflr⟩ := (merged_iff hrep hsm).mp hk
      have hfst := firstFrom_of_least hk hflr fun j hj hjf =>
        hlst j ((merged_iff hrep hsm).mpr ⟨hj, hjf⟩)
      rw [hfst]
      have hkd := database_of_mem hk
      refine ⟨rfl, .inl ⟨?_, ?_, ?_⟩, ?_, ?_, ?_, ?_⟩
      · rw [hc']
        exact hexh
      · rw [hpen', hpen]
        exact filter_floor id hflr fun j hj => compare_of_database hkd (database_of_mem hj)
      · rw [hc']
        rw [hovl]
        refine filter_floor Prod.fst hflr fun entry hent => ?_
        obtain ⟨hsc, -⟩ := mem_overlayScope.mp hent
        exact compare_of_database hkd (inScope_iff.mp hsc).1
      all_goals rw [hc']; assumption
  · rw [next, hexh, hnn]
    exact ⟨rfl, .inr ⟨hexh, hnn⟩, hdb, hlow, hupr, htab⟩

/-- Dropping the entries before a path leaves those from it on. -/
theorem dropWhile_entriesFrom (hle : (compare floor path).isLE) :
    (entriesFrom floor (overlayScope s.overlay db start)).dropWhile
        (fun entry => !MemoryCursor.atOrAfter db path entry.1) =
      entriesFrom path (overlayScope s.overlay db start) := by
  have hdb : ∀ entry ∈ overlayScope s.overlay db start, entry.1.database = db := fun entry hent =>
    (inScope_iff.mp (mem_overlayScope.mp hent).1).1
  have hord : (entriesFrom floor (overlayScope s.overlay db start)).Pairwise
      fun a b => compare a.1 b.1 = .lt := (pairwise_overlayScope s.overlay).filter _
  rw [dropWhile_eq_filter (hord.imp fun hlt hj => isLE_of_atOrAfter hj hlt), entriesFrom, filter_filter]
  refine filter_congr fun entry hent => ?_
  rw [atOrAfter_of_database (hdb entry hent), Bool.eq_iff_iff, Bool.and_eq_true]
  exact ⟨And.left, fun hpt => ⟨hpt, isLE_trans hle hpt⟩⟩

/-- A buffered key from a path on is the first one left, so nothing left is before the path. -/
theorem fromFloor_of_kept (hpen : pending c = fromFloor floor (visibleKeys stored db start))
    (hkey : c.nextDisk = some key) (hkp : (compare path key.path.bytes).isLE)
    (hle : (compare floor path).isLE) :
    fromFloor floor (visibleKeys stored db start) =
      fromFloor path (visibleKeys stored db start) := by
  have hord : (fromFloor floor (visibleKeys stored db start)).Pairwise
      fun j k => compare j k = .lt := (pairwise_visibleKeys stored).filter _
  have hcn : fromFloor floor (visibleKeys stored db start) =
      key :: decoded (c.range.getD []) := by
    rw [← hpen, pending, hkey]
    rfl
  have hall : ∀ j ∈ fromFloor floor (visibleKeys stored db start),
      (compare path j.path.bytes).isLE := by
    intro j hj
    have hjd := database_of_mem (mem_filter.mp hj).1
    have hkd := database_of_mem (mem_filter.mp (hcn ▸ mem_cons_self :
      key ∈ fromFloor floor (visibleKeys stored db start))).1
    rw [hcn] at hj hord
    rcases mem_cons.mp hj with rfl | hj
    · exact hkp
    · have hlt := (pairwise_cons.mp hord).1 j hj
      rw [compare_of_database hkd hjd] at hlt
      exact isLE_of_eq_lt (lt_of_isLE_of_lt hkp hlt)
  refine filter_congr fun j hj => ?_
  rw [Bool.eq_iff_iff]
  exact ⟨fun hflr => hall j (mem_filter.mpr ⟨hj, hflr⟩), fun hpt => isLE_trans hle hpt⟩

section

variable (hrep : Represents s.tables stored)

include hrep

theorem tracks_seek (hp : databasePrefix db = .ok p)
    (h : At s stored docs db start p c floor) (hpt : start <+: path)
    (hle : (compare floor path).isLE) :
    At s stored docs db start p (c.seek path) path := by
  obtain ⟨⟨hexh, hpen, hovl⟩ | ⟨hexh, hnn⟩, rfl, hlow, hupr, htab⟩ := h
  · have hnb : compare (p ++ path) (p ++ start) ≠ .lt := by
      rw [compare_append_left]
      intro hlt
      have hbeg := isLE_of_isPrefix hpt
      rw [gt_of_lt hlt] at hbeg
      cases hbeg
    have hdr : (entriesFrom floor (overlayScope s.overlay c.database start)).dropWhile
        (fun entry => !atOrAfter c.database path entry.1) = _ :=
      dropWhile_entriesFrom hle
    simp only [seek, databaseStart_eq hp, hexh, hlow, hnb, decide_false,
      Bool.or_self, Bool.false_eq_true, if_false]
    split
    · next hke =>
      refine ⟨.inl ⟨hexh, ?_, ?_⟩, rfl, hlow, hupr, htab⟩
      · obtain ⟨key, hkey, hkp⟩ := (Option.any_eq_true _ _).mp hke
        exact hpen.trans (fromFloor_of_kept hpen hkey hkp hle)
      · rw [hovl, hdr]
    · refine ⟨.inl ⟨rfl, ?_, ?_⟩, rfl, rfl, hupr, htab⟩
      · obtain ⟨es, hes, hdc⟩ := decoded_openRange hrep hp hpt
        rw [htab, hupr]
        simp only [pending, hes, Option.toList_none, nil_append, Option.getD_some]
        exact hdc
      · rw [hovl, hdr]
  · rw [seek, hexh, Bool.true_or, if_pos rfl]
    exact ⟨.inr ⟨hexh, firstFrom_eq_none_of_le hnn hle⟩, rfl, hlow, hupr, htab⟩

theorem tracks (hsm : ∀ key, s.get key = docs[key]?) (hp : databasePrefix db = .ok p) :
    Tracks cursor (visibleKeys docs db start) start (At s stored docs db start p) where
  next := tracks_next hrep hsm
  seek := tracks_seek hrep hp

theorem at_open (hp : databasePrefix db = .ok p) :
    At s stored docs db start p («open» s db start) start := by
  obtain ⟨es, hes, hdc⟩ := decoded_openRange hrep hp (prefix_refl start)
  rw [«open», databaseStart_eq hp, hes]
  refine ⟨.inl ⟨rfl, hdc, ?_⟩, rfl, rfl, rfl, rfl⟩
  refine (filter_eq_self.mpr fun entry hent => ?_).symm
  obtain ⟨hsc, -⟩ := mem_overlayScope.mp hent
  exact isLE_of_isPrefix (inScope_iff.mp hsc).2

end

end DiskKeyCursor

/-! ### Both backends -/

/-- **Key cursors.** On every snapshot the memory cursor returns the least visible key after every
key returned and from every path sought on, whatever the calls are. The disk cursor, with any
overlay, shows the same in every run of calls none of which sends it back. -/
theorem key_cursors (docs stored : Documents) (s : DiskSnapshot) (db : DatabaseName)
    (start : List UInt8) (calls : List CursorCall) (hcalls : Extending start calls)
    (hrep : Represents s.tables stored) (hsame : ∀ key, s.get key = docs[key]?)
    (hdatabase : (databasePrefix db).toOption.isSome) :
    Follows docs db start [] [] (MemoryCursor.cursor.trace (.open docs db start) calls) ∧
    (Forward [] [] (MemoryCursor.cursor.trace (.open docs db start) calls) →
      DiskKeyCursor.cursor.trace (.open s db start) calls =
        MemoryCursor.cursor.trace (.open docs db start) calls) := by
  obtain ⟨p, hp⟩ := Option.isSome_iff_exists.mp hdatabase
  rw [toOption_eq_some] at hp
  refine ⟨follows docs db start hcalls, fun hfwd => ?_⟩
  exact tracks.trace_eq (DiskKeyCursor.tracks hrep hsame hp) hcalls
    (at_open docs db start) (DiskKeyCursor.at_open hrep hp) floorOf_start
    hfwd

/-! ### One document -/

def walkedDocuments : Documents := put ∅ exampleKey (some ⟨.empty, .zero, .zero⟩)

/-- A snapshot of a store with one document. -/
def walkedSnapshot : DiskSnapshot where
  revision := 1
  tables := { Tables.empty with
    documents := put ∅ ((encodeDocumentKey exampleKey).toOption.getD [])
      (encodeStoredDocument ⟨.empty, .zero, .zero⟩).toOption }
  overlay := ∅
  logicalUsage := .zero

theorem represents_walkedSnapshot : Represents walkedSnapshot.tables walkedDocuments := by
  have hkey : (encodeDocumentKey exampleKey).toOption.isSome = true := by decide +kernel
  have hval : (encodeStoredDocument ⟨.empty, .zero, .zero⟩).toOption.isSome = true := by
    decide +kernel
  obtain ⟨key, hkey⟩ := Option.isSome_iff_exists.mp hkey
  obtain ⟨value, hval⟩ := Option.isSome_iff_exists.mp hval
  have henc : Encodes (some ⟨.empty, .zero, .zero⟩) (some value) := toOption_eq_some.mp hval
  refine (represents_empty (t := Tables.empty) rfl).put (toOption_eq_some.mp hkey) henc ?_
  rw [walkedSnapshot, hkey, hval]
  rfl

theorem get_walkedSnapshot (key : DocumentKey) : walkedSnapshot.get key = walkedDocuments[key]? :=
  DiskSnapshot.get_of_overlay_eq_none represents_walkedSnapshot (by simp [walkedSnapshot])

/-- A seek to the document, and the document. -/
theorem key_cursors_one :
    DiskKeyCursor.cursor.trace (.open walkedSnapshot exampleKey.database (ascii "c/"))
        [.seek (ascii "c/a"), .next] =
      MemoryCursor.cursor.trace (.open walkedDocuments exampleKey.database (ascii "c/"))
        [.seek (ascii "c/a"), .next] := by
  refine (key_cursors walkedDocuments walkedDocuments walkedSnapshot exampleKey.database (ascii "c/")
    [.seek (ascii "c/a"), .next] ?_ represents_walkedSnapshot get_walkedSnapshot
    (by decide +kernel)).2 ⟨nofun, nofun, trivial⟩
  intro path hpt
  simp only [mem_cons, CursorCall.seek.injEq, not_mem_nil, or_false, reduceCtorEq] at hpt
  subst hpt
  decide

/-- **The disk cursor returns a key twice**: after the only document is returned, a seek to it opens
the range again. The memory cursor stays past it. -/
theorem disk_cursor_returns_twice : Represents walkedSnapshot.tables walkedDocuments ∧
    (∀ key, walkedSnapshot.get key = walkedDocuments[key]?) ∧
    DiskKeyCursor.cursor.trace (.open walkedSnapshot exampleKey.database (ascii "c/"))
        [.next, .seek (ascii "c/a"), .next] =
      [.returned (some exampleKey), .sought (ascii "c/a"), .returned (some exampleKey)] ∧
    MemoryCursor.cursor.trace (.open walkedDocuments exampleKey.database (ascii "c/"))
        [.next, .seek (ascii "c/a"), .next] =
      [.returned (some exampleKey), .sought (ascii "c/a"), .returned none] :=
  ⟨represents_walkedSnapshot, get_walkedSnapshot, by decide +kernel, by decide +kernel⟩

end Firenook.Disk
