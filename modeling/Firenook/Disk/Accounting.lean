import Firenook.Support.Tally
import Firenook.Disk.Recovery

/-!
# Disk — the figures a replayed record leaves

A store keeps two figures of its documents, their number and their logical bytes. A commit updates
them by the change it makes of every document (`applyDocumentTransition`); a replay has only the
record, and reads what each mutation replaces from the table as it was before the record
(`usageAfterRecord`).

The figures of a commit are exact for every list of writes (`commit_figures`). Those of a replay are
exact when every change replaces a document as large as the one in the table; a change of a document
that the same commit already changed does not, and a document written twice is counted twice
(`written_twice`).
-/

namespace Firenook.Disk

open List Option Bool LogicalMemoryUsage ChangeLog Tally Fallible

variable {rev : Nat} {time : Timestamp} {writes : List Write} {read : Change → Option Document}
  {changes : List Change}

/-! ### The figures -/

def entryCount (_ : DocumentKey) (_ : Document) : Nat := 1

/-- **What the figures are of**: the number of documents and their logical bytes. -/
def usageOf (documents : Documents) : LogicalMemoryUsage :=
  ⟨tally entryCount documents, tally documentEntryLogicalBytes documents⟩

/-- A measure that documents equal for the source share. -/
def Blind (f : DocumentKey → Document → Nat) : Prop :=
  ∀ k {d d' : Document}, d.eqv d' = true → f k d = f k d'

theorem blind_entryCount : Blind entryCount := fun _ _ _ _ => rfl

mutual

theorem valueLogicalBytes_eqv :
    ∀ {a b : Value}, a.eqv b = true → valueLogicalBytes a = valueLogicalBytes b := by
  intro a b h
  cases a <;> cases b <;> simp only [Value.eqv, reduceCtorEq, decide_eq_true_eq] at h <;>
    try simp [valueLogicalBytes, h]
  case array.array s t => exact listLogicalBytes_eqv h
  case map.map s t => exact entriesLogicalBytes_eqv h
  case vector.vector s t =>
    rw [and_eq_true, decide_eq_true_eq] at h
    rw [h.1]

theorem listLogicalBytes_eqv : ∀ {s t : List Value} {total : Nat}, Value.eqvList s t = true →
    listLogicalBytes total s = listLogicalBytes total t
  | [], [], _, _ => rfl
  | a :: s, b :: t, total, h => by
    rw [Value.eqvList, and_eq_true] at h
    rw [listLogicalBytes, listLogicalBytes, valueLogicalBytes_eqv h.1, listLogicalBytes_eqv h.2]

theorem entriesLogicalBytes_eqv : ∀ {s t : List (Str × Value)} {total : Nat},
    Value.eqvFields s t = true → entriesLogicalBytes total s = entriesLogicalBytes total t
  | [], [], _, _ => rfl
  | (j, a) :: s, (k, b) :: t, total, h => by
    rw [Value.eqvFields, and_eq_true, and_eq_true, decide_eq_true_eq] at h
    rw [entriesLogicalBytes, entriesLogicalBytes, h.1.1, valueLogicalBytes_eqv h.1.2,
      entriesLogicalBytes_eqv h.2]

end

theorem blind_documentEntryLogicalBytes : Blind documentEntryLogicalBytes := by
  intro k d d' h
  rw [Document.eqv, and_eq_true, and_eq_true] at h
  rw [documentEntryLogicalBytes, documentEntryLogicalBytes, documentLogicalBytes,
    documentLogicalBytes, fieldsLogicalBytes, fieldsLogicalBytes, entriesLogicalBytes_eqv h.1.1]

/-! ### What the changes of a commit add and take -/

section Measure

variable {f : DocumentKey → Document → Nat}

/-- What the changes of a commit replace, and what they put in its place. -/
def taken (f : DocumentKey → Document → Nat) (changes : List Change) : Nat :=
  (changes.map fun c => held f c.key c.before).sum

def added (f : DocumentKey → Document → Nat) (changes : List Change) : Nat :=
  (changes.map fun c => held f c.key c.after).sum

/-- What a table holds, before all of them, under the keys of the changes. -/
def stored (f : DocumentKey → Document → Nat) (documents : Documents) (changes : List Change) : Nat :=
  (changes.map fun c => held f c.key documents[c.key]?).sum

theorem added_cons (c : Change) (changes : List Change) :
    added f (c :: changes) = held f c.key c.after + added f changes := rfl

theorem held_eq_of_not_differs (hf : Blind f) (k : DocumentKey) {a b : Option Document}
    (h : differs a b = false) : held f k a = held f k b := by
  cases a with
  | none => cases b with
    | none => rfl
    | some _ => cases h
  | some d => cases b with
    | none => cases h
    | some d' =>
      rw [differs, not_eq_false'] at h
      exact hf k h

/-- A figure after the changes, when what change `c` replaces is read as `read c`. -/
def settle (f : DocumentKey → Document → Nat) (read : Change → Option Document) (n : Nat)
    (changes : List Change) : Nat :=
  changes.foldl (fun n c => n - held f c.key (read c) + held f c.key c.after) n

theorem settle_cons (read : Change → Option Document) (n : Nat) (c : Change)
    (changes : List Change) : settle f read n (c :: changes) =
      settle f read (n - held f c.key (read c) + held f c.key c.after) changes := rfl

/-- While the figure covers what is taken from it, it is what was there, less that, and what is
added. -/
theorem settle_add :
    ∀ {changes : List Change} {n : Nat}, (changes.map fun c => held f c.key (read c)).sum ≤ n →
      settle f read n changes + (changes.map fun c => held f c.key (read c)).sum =
        n + added f changes
  | [], n, _ => rfl
  | c :: changes, n, h => by
    rw [map_cons, sum_cons] at h ⊢
    have hrm : (changes.map fun c => held f c.key (read c)).sum ≤
        n - held f c.key (read c) + held f c.key c.after := by omega
    have hrs := settle_add hrm
    rw [settle_cons, added_cons]
    omega

/-- Two figures that start alike and add the same agree iff they take the same. -/
theorem settle_eq_iff {n m sum read taken : Nat} (hn : n + read = sum) (hm : m + taken = sum) :
    n = m ↔ taken = read := by omega

theorem settle_congr {read' : Change → Option Document}
    (h : ∀ c ∈ changes, held f c.key (read c) = held f c.key (read' c)) (n : Nat) :
    settle f read n changes = settle f read' n changes := by
  refine foldl_ext _ _ n fun n c hc => ?_
  rw [h c hc]

/-- **The changes of a plan balance.** `working` is what the plan works on and `logged` what its
changes lead to; they may differ in documents that are equal for the source. -/
theorem settle_plans (hf : Blind f) {working final logged : Documents}
    (h : Plans rev time final working writes changes)
    (halk : ∀ k, held f k working[k]? = held f k logged[k]?) :
    settle f (·.before) (tally f logged) changes = tally f (redo logged changes) ∧
      tally f (redo logged changes) + taken f changes = tally f logged + added f changes := by
  induction h generalizing logged with
  | nil => exact ⟨rfl, rfl⟩
  | @cons working write writes next later _ _ ih =>
    have hput : ∀ logged' : Documents,
        held f (writeKey write) next = held f (writeKey write) logged'[writeKey write]? →
        (∀ k, writeKey write ≠ k → logged'[k]? = logged[k]?) →
        ∀ k : DocumentKey,
          held f k (put working (writeKey write) next)[k]? = held f k logged'[k]? := by
      intro logged' hsm hot k
      by_cases hk : writeKey write = k
      · subst hk
        rw [getElem?_put_self, hsm]
      · rw [getElem?_put_of_ne _ hk, hot k hk, halk]
    split
    · obtain ⟨hstl, hbal⟩ := ih (hput (put logged (writeKey write) next)
        (by rw [getElem?_put_self]) fun k hk => getElem?_put_of_ne _ hk _)
      have hone := tally_put f logged (writeKey write) next
      have hle := held_le_tally f logged (writeKey write)
      rw [← halk] at hone hle
      have hnx : tally f logged - held f (writeKey write) working[writeKey write]? +
          held f (writeKey write) next = tally f (put logged (writeKey write) next) := by omega
      refine ⟨?_, ?_⟩
      · rw [settle_cons, hnx]
        exact hstl
      show tally f (redo (put logged (writeKey write) next) later) +
          (held f (writeKey write) working[writeKey write]? + taken f later) =
        tally f logged + (held f (writeKey write) next + added f later)
      omega
    · next hsm =>
      refine ih (hput logged ?_ fun _ _ => rfl)
      rw [← halk]
      exact (held_eq_of_not_differs hf _ (not_eq_true _ ▸ hsm)).symm

end Measure

/-! ### Both figures at once -/

/-- The figures stay within 64 bits even if the changes take nothing. -/
structure Fits (usage : LogicalMemoryUsage) (changes : List Change) : Prop where
  entries : usage.entries + added entryCount changes ≤ maxU64
  bytes : usage.logicalBytes + added documentEntryLogicalBytes changes ≤ maxU64

/-- The figures cover what a replay takes from them. -/
structure Covers (usage : LogicalMemoryUsage) (documents : Documents) (changes : List Change) :
    Prop where
  entries : stored entryCount documents changes ≤ usage.entries
  bytes : stored documentEntryLogicalBytes documents changes ≤ usage.logicalBytes

/-- The figures of a list of changes, when what change `c` replaces is read as `read c`. -/
def figures (read : Change → Option Document) (usage : LogicalMemoryUsage)
    (changes : List Change) : LogicalMemoryUsage :=
  changes.foldl (fun usage c => (usage.subEntry c.key (read c)).addEntry c.key c.after) usage

theorem exchange_eq (usage : LogicalMemoryUsage) (k : DocumentKey) (before after : Option Document)
    (hen : usage.entries + held entryCount k after ≤ maxU64)
    (hbyt : usage.logicalBytes + held documentEntryLogicalBytes k after ≤ maxU64) :
    (usage.subEntry k before).addEntry k after =
      ⟨usage.entries - held entryCount k before + held entryCount k after,
        usage.logicalBytes - held documentEntryLogicalBytes k before +
          held documentEntryLogicalBytes k after⟩ := by
  cases before <;> cases after <;>
    simp only [held, entryCount] at hen hbyt <;>
    simp only [subEntry, addEntry, held, entryCount,
      saturatingAdd, Nat.sub_zero, Nat.add_zero, mk.injEq] <;>
    omega

/-- Within 64 bits the figures settle one by one. -/
theorem figures_eq : ∀ {changes : List Change} {usage : LogicalMemoryUsage}, Fits usage changes →
      figures read usage changes = ⟨settle entryCount read usage.entries changes,
        settle documentEntryLogicalBytes read usage.logicalBytes changes⟩
  | [], _, _ => rfl
  | c :: changes, usage, h => by
    have hen := h.entries
    have hbyt := h.bytes
    rw [added_cons] at hen hbyt
    have hone := exchange_eq usage c.key (read c) c.after (by omega) (by omega)
    rw [figures, foldl_cons, hone]
    refine figures_eq ⟨?_, ?_⟩
    · show usage.entries - held entryCount c.key (read c) + held entryCount c.key c.after +
        added entryCount changes ≤ maxU64
      omega
    · show usage.logicalBytes - held documentEntryLogicalBytes c.key (read c) +
        held documentEntryLogicalBytes c.key c.after +
          added documentEntryLogicalBytes changes ≤ maxU64
      omega

/-- A replay reads every document from the table as it was before the record. -/
theorem usageAfterRecord_eq {t : Tables} {docs : Documents} (hrep : Represents t docs)
    {plan : CommitPlan} (hky : ∀ c ∈ plan.changes, ∃ key, encodeDocumentKey c.key = .ok key)
    (usage : LogicalMemoryUsage) :
    usageAfterRecord t usage (.fromPlan plan) =
      .ok (figures (fun c => docs[c.key]?) usage plan.changes) := by
  rw [usageAfterRecord, WalRecord.fromPlan]
  generalize plan.changes = changes at hky
  induction changes generalizing usage with
  | nil => rfl
  | cons c changes ih =>
    obtain ⟨key, hkey⟩ := hky c mem_cons_self
    have hone : usageAfterMutation t usage ⟨c.key, c.after⟩ =
        .ok ((usage.subEntry c.key docs[c.key]?).addEntry c.key c.after) := by
      rw [usageAfterMutation, hkey, ok_bind]
      cases hd : docs[c.key]? with
      | none =>
        rw [hrep.lookup_none hkey hd]
        rfl
      | some d =>
        obtain ⟨v, hv, hstd⟩ := hrep.lookup_some hkey hd
        rw [hv]
        exact bind_eq_ok.mpr ⟨d, coded_eq_ok.mpr (decodeStoredDocument_encode hstd), rfl⟩
    rw [map_cons, foldlM_cons, hone, ok_bind, ih _ fun x hx => hky x (mem_cons_of_mem _ hx)]
    rfl

/-! ### A commit, and its record replayed -/

/-- A plan changes what its writes name. -/
theorem key_of_plans {docs final : Documents} (h : Plans rev time final docs writes changes) :
    ∀ c ∈ changes, ∃ w ∈ writes, c.key = writeKey w := by
  induction h with
  | nil => exact nofun
  | @cons docs write writes next later _ _ ih =>
    have hlat : ∀ c ∈ later, ∃ w ∈ write :: writes, c.key = writeKey w := fun c hc =>
      (ih c hc).imp fun _ => And.imp_left (mem_cons_of_mem _)
    split
    · exact forall_mem_cons.mpr ⟨⟨_, mem_cons_self, rfl⟩, hlat⟩
    · exact hlat

theorem foldlM_loadDocument_keys {t : Tables} :
    ∀ {keys : List DocumentKey} {docs loaded : Documents},
      keys.foldlM (loadDocument t) docs = .ok loaded →
      ∀ k ∈ keys, ∃ key, encodeDocumentKey k = .ok key
  | k :: keys, docs, loaded, h, j, hj => by
    obtain ⟨mid, hone, hrs⟩ := bind_eq_ok.mp h
    rcases mem_cons.mp hj with rfl | hj
    · obtain ⟨key, hkey, -⟩ := bind_eq_ok.mp hone
      exact ⟨key, hkey⟩
    · exact foldlM_loadDocument_keys hrs j hj

section Commit

variable {t : Tables} {docs loaded : Documents} {s : State} {now : Elapsed}
  {writes : List Write} {plan : CommitPlan}

section

variable (hrep : Represents t docs) (hload : loadWriteDocuments t writes = .ok loaded)
  (hplan : s.planWithDocuments now writes loaded = .ok plan)

include hrep hload hplan

/-- A plan of the loaded documents is one of the stored documents. -/
theorem planWrites_stored : ∃ rev time final, planWrites rev time docs writes =
      .ok (final, plan.changes) := by
  obtain ⟨-, -, hwrs⟩ := State.planWithDocuments_eq_ok hplan
  exact ⟨_, _, planWrites_congr (loadWriteDocuments_eq_ok hrep hload) hwrs⟩

/-- **The figures of a commit are exact**, whatever its writes. -/
theorem commit_figures (hft : Fits (usageOf docs) plan.changes) :
    plan.changes.foldl applyDocumentTransition (usageOf docs) =
      usageOf (redo docs plan.changes) := by
  obtain ⟨_, _, _, hwrs⟩ := planWrites_stored hrep hload hplan
  have hen := settle_plans blind_entryCount (plans hwrs) fun _ => rfl
  have hbyt := settle_plans blind_documentEntryLogicalBytes (plans hwrs) fun _ => rfl
  show figures (·.before) (usageOf docs) plan.changes = _
  rw [figures_eq hft, usageOf, usageOf, hen.1, hbyt.1]

end

/-- Every change replaces a document as large as the one stored before the commit. -/
def Steady (documents : Documents) (changes : List Change) : Prop :=
  ∀ c ∈ changes, held entryCount c.key c.before = held entryCount c.key documents[c.key]? ∧
    held documentEntryLogicalBytes c.key c.before =
      held documentEntryLogicalBytes c.key documents[c.key]?

/-- A plan that changes no document twice replaces what was stored. -/
theorem held_of_distinct {f : DocumentKey → Document → Nat} (hf : Blind f)
    {working final : Documents}
    (h : Plans rev time final working writes changes) (hnd : (changes.map (·.key)).Nodup)
    (halk : ∀ c ∈ changes, held f c.key working[c.key]? = held f c.key docs[c.key]?) :
    ∀ c ∈ changes, held f c.key c.before = held f c.key docs[c.key]? := by
  induction h with
  | nil => exact nofun
  | @cons working write writes next later _ _ ih =>
    by_cases hsm : differs working[writeKey write]? next = true
    · rw [if_pos hsm] at hnd halk ⊢
      rw [map_cons, nodup_cons] at hnd
      obtain ⟨hsl, halk⟩ := forall_mem_cons.mp halk
      refine forall_mem_cons.mpr ⟨hsl, ih hnd.2 fun c hc => ?_⟩
      have hne : writeKey write ≠ c.key := fun heq =>
        hnd.1 (show writeKey write ∈ _ from heq ▸ mem_map_of_mem hc)
      rw [getElem?_put_of_ne _ hne]
      exact halk c hc
    · rw [if_neg hsm] at hnd halk ⊢
      refine ih hnd fun c hc => ?_
      by_cases hk : writeKey write = c.key
      · rw [← hk, getElem?_put_self, ← held_eq_of_not_differs hf _ (not_eq_true _ ▸ hsm), hk]
        exact halk c hc
      · rw [getElem?_put_of_ne _ hk]
        exact halk c hc

theorem steady_of_distinct (hrep : Represents t docs)
    (hload : loadWriteDocuments t writes = .ok loaded)
    (hplan : s.planWithDocuments now writes loaded = .ok plan)
    (hdis : (plan.changes.map (·.key)).Nodup) : Steady docs plan.changes := by
  obtain ⟨_, _, _, hwrs⟩ := planWrites_stored hrep hload hplan
  exact fun c hc =>
    ⟨held_of_distinct blind_entryCount (plans hwrs) hdis (fun _ _ => rfl) c hc,
      held_of_distinct blind_documentEntryLogicalBytes (plans hwrs) hdis (fun _ _ => rfl) c hc⟩

/-- **The figures of a replay.** A commit's own figures are exact. The replay of its record has
the same when every change replaces a document as large as the stored one; and where the figures
cover what a replay takes from them, exactly when what the changes replace adds up to what is
stored under their keys. -/
theorem replayed_figures (hrep : Represents t docs)
    (hload : loadWriteDocuments t writes = .ok loaded)
    (hplan : s.planWithDocuments now writes loaded = .ok plan)
    (hfits : Fits (usageOf docs) plan.changes) :
    plan.changes.foldl applyDocumentTransition (usageOf docs) =
      usageOf (mutate docs (WalRecord.fromPlan plan).mutations) ∧
    ∃ usage, usageAfterRecord t (usageOf docs) (.fromPlan plan) = .ok usage ∧
      (Steady docs plan.changes ∨ (plan.changes.map (·.key)).Nodup →
        usage = usageOf (mutate docs (WalRecord.fromPlan plan).mutations)) ∧
      (Covers (usageOf docs) docs plan.changes →
        (usage = usageOf (mutate docs (WalRecord.fromPlan plan).mutations) ↔
          taken entryCount plan.changes = stored entryCount docs plan.changes ∧
          taken documentEntryLogicalBytes plan.changes =
            stored documentEntryLogicalBytes docs plan.changes)) := by
  obtain ⟨_, _, _, hwrs⟩ := planWrites_stored hrep hload hplan
  have hen := settle_plans blind_entryCount (plans hwrs) fun _ => rfl
  have hbyt := settle_plans blind_documentEntryLogicalBytes (plans hwrs) fun _ => rfl
  have hky : ∀ c ∈ plan.changes, ∃ key, encodeDocumentKey c.key = .ok key := by
    intro c hc
    obtain ⟨w, hw, hkey⟩ := key_of_plans (plans hwrs) c hc
    refine foldlM_loadDocument_keys hload _ ?_
    rw [Std.ExtTreeSet.mem_toList, Std.ExtTreeSet.mem_ofList, contains_iff_mem, hkey]
    exact mem_map_of_mem hw
  rw [mutate_fromPlan]
  refine ⟨commit_figures hrep hload hplan hfits, _, usageAfterRecord_eq hrep hky _, ?_, ?_⟩
  · intro h
    have hsdy : Steady docs plan.changes :=
      h.elim id (steady_of_distinct hrep hload hplan)
    rw [figures_eq hfits, ← settle_congr fun c hc => (hsdy c hc).1,
      ← settle_congr fun c hc => (hsdy c hc).2, usageOf, usageOf, hen.1, hbyt.1]
  · intro hcv
    rw [figures_eq hfits, LogicalMemoryUsage.ext_iff]
    exact and_congr (settle_eq_iff (settle_add hcv.entries) hen.2)
      (settle_eq_iff (settle_add hcv.bytes) hbyt.2)

end Commit

/-! ### A document written twice -/

def nullField : Fields := ⟨[(⟨ascii "a", by decide⟩, .null)], by decide⟩

def writtenOnce : List Write := [.set otherKey .empty [] .none]

def writtenTwice : List Write :=
  [.set otherKey .empty [] .none, .set otherKey nullField [] .none]

/-- The plan of a commit on an empty store, from the documents it loads. -/
def firstPlan (writes : List Write) : Option CommitPlan :=
  (loadWriteDocuments Tables.empty writes).toOption.bind fun loaded =>
    ((State.new ⟨1000, 1000000⟩).planWithDocuments (.ofSeconds 0) writes loaded).toOption

theorem firstPlan_eq_some {plan : CommitPlan} (h : firstPlan writes = some plan) :
    ∃ loaded, loadWriteDocuments Tables.empty writes = .ok loaded ∧
      (State.new ⟨1000, 1000000⟩).planWithDocuments (.ofSeconds 0) writes loaded = .ok plan := by
  obtain ⟨loaded, hload, hplan⟩ := bind_eq_some_iff.mp h
  exact ⟨loaded, toOption_eq_some.mp hload, toOption_eq_some.mp hplan⟩

/-- A document written once, replayed on an empty store. -/
theorem replayed_figures_once : ∃ plan, firstPlan writtenOnce = some plan ∧
    usageAfterRecord Tables.empty (usageOf ∅) (.fromPlan plan) =
      .ok (usageOf (mutate ∅ (WalRecord.fromPlan plan).mutations)) := by
  have hrun : (firstPlan writtenOnce).any (fun plan =>
      decide ((usageOf ∅).entries + added entryCount plan.changes ≤ maxU64) &&
      decide ((usageOf ∅).logicalBytes + added documentEntryLogicalBytes plan.changes ≤ maxU64) &&
      decide (plan.changes.map (·.key)).Nodup) = true := by decide +kernel
  obtain ⟨plan, hplan, hrun⟩ := (any_eq_true _ _).mp hrun
  simp only [and_eq_true, decide_eq_true_eq] at hrun
  obtain ⟨⟨hen, hbyt⟩, hdis⟩ := hrun
  obtain ⟨loaded, hload, hpl⟩ := firstPlan_eq_some hplan
  obtain ⟨-, usage, husg, hex, -⟩ :=
    replayed_figures (represents_empty rfl) hload hpl ⟨hen, hbyt⟩
  exact ⟨plan, hplan, hex (.inr hdis) ▸ husg⟩

/-- **A document written twice** by one commit: the replay counts two documents where the store
has one. -/
theorem written_twice : ∃ loaded plan usage, Represents Tables.empty ∅ ∧
    loadWriteDocuments Tables.empty writtenTwice = .ok loaded ∧
    (State.new ⟨1000, 1000000⟩).planWithDocuments (.ofSeconds 0) writtenTwice loaded = .ok plan ∧
    usageAfterRecord Tables.empty (usageOf ∅) (.fromPlan plan) = .ok usage ∧
    usage.entries = 2 ∧
    (usageOf (mutate ∅ (WalRecord.fromPlan plan).mutations)).entries = 1 := by
  have hrun : (firstPlan writtenTwice).any (fun plan =>
      (usageOf (mutate ∅ (WalRecord.fromPlan plan).mutations)).entries = 1 &&
      (usageAfterRecord Tables.empty (usageOf ∅) (.fromPlan plan)).toOption.any
        fun usage => usage.entries = 2) = true := by decide +kernel
  obtain ⟨plan, hplan, hrun⟩ := (any_eq_true _ _).mp hrun
  obtain ⟨hone, hrun⟩ := (and_eq_true _ _).mp hrun
  obtain ⟨usage, husg, htwo⟩ := (any_eq_true _ _).mp hrun
  obtain ⟨loaded, hload, hplan⟩ := firstPlan_eq_some hplan
  exact ⟨loaded, plan, usage, represents_empty rfl, hload, hplan, toOption_eq_some.mp husg,
    of_decide_eq_true htwo, of_decide_eq_true hone⟩

end Firenook.Disk
