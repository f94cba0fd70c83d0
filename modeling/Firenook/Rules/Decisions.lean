import Mathlib.Algebra.BigOperators.Group.Finset.Basic
import Firenook.Rules.Match

/-!
# Rules — the decisions kept for a re-run

The runtime keeps its newest decisions in a ring, within a number of entries and of bytes
(`DecisionRetention::retain`). A ruleset's source is charged once for all the decisions it made.

Every call returns, and the bytes and the count of each source are exact after it. The bytes are
within their limit where each decision fits it together with its source (**`decisions_kept`**).
Those kept are the newest (**`newest_kept`**).

While its source is kept a decision is admitted without it, and making room can release just that
source (`source_released`).
-/

namespace Firenook.Rules

open List Std

def retainedDecisions : Nat := 2000

def retainedBytes : Nat := 16 * 1024 * 1024

/-- A decision: the bytes charged for its request, and the hash of its ruleset's source. -/
structure Entry where
  bytes : Nat
  sourceHash : Text

structure Ring where
  entries : List Entry := []
  bytes : Nat := 0
  sources : ExtTreeMap Text Nat compare := ∅

namespace Ring

-- The length of the source that a hash determines.
variable (source : Text → Nat)

/-- What one more decision would be charged for its source. -/
def chargedSource (ring : Ring) (hash : Text) : Nat :=
  if ring.sources.contains hash then 0 else source hash

def evict (ring : Ring) : Ring :=
  match ring.entries with
  | [] => ring
  | entry :: entries =>
    let bytes := ring.bytes - entry.bytes
    match ring.sources[entry.sourceHash]? with
    | none => { ring with entries, bytes }
    | some count =>
      if count - 1 = 0 then
        ⟨entries, bytes - source entry.sourceHash, ring.sources.erase entry.sourceHash⟩
      else ⟨entries, bytes, ring.sources.insert entry.sourceHash (count - 1)⟩

/-- The eviction loop; `none` if it is not through after that many rounds. -/
def makeRoom (entry : Entry) : Nat → Ring → Option Ring
  | 0, _ => none
  | rounds + 1, ring =>
    if retainedDecisions ≤ ring.entries.length ∨ ring.entries ≠ [] ∧
        retainedBytes < ring.bytes + entry.bytes + ring.chargedSource source entry.sourceHash then
      makeRoom entry rounds (ring.evict source)
    else some ring

def push (ring : Ring) (entry : Entry) : Ring where
  entries := ring.entries ++ [entry]
  bytes := ring.bytes + (entry.bytes + ring.chargedSource source entry.sourceHash)
  sources := ring.sources.insert entry.sourceHash (ring.sources[entry.sourceHash]?.getD 0 + 1)

/-- `retain`, with whether the decision was kept. It is not `admitted` when the ring is contended
or its path names no database. -/
def retain (ring : Ring) (admitted : Bool) (entry : Entry) : Option (Bool × Ring) :=
  if admitted = false ∨ retainedBytes < entry.bytes + ring.chargedSource source entry.sourceHash then
    some (false, ring)
  else do
    let ring ← ring.makeRoom source entry (ring.entries.length + 1)
    pure (true, ring.push source entry)

def after (calls : List (Bool × Entry)) : Option Ring :=
  calls.foldlM (fun ring call => (ring.retain source call.1 call.2).map Prod.snd) {}

/-- The decisions that calls kept, with the ring after them. -/
def history (calls : List (Bool × Entry)) : Option (List Entry × Ring) :=
  calls.foldlM (fun (kept, ring) (admitted, entry) => do
    let (keep, ring) ← ring.retain source admitted entry
    pure (if keep then kept ++ [entry] else kept, ring)) ([], {})

/-! ### What is charged -/

abbrev hashes (entries : List Entry) : List Text := entries.map Entry.sourceHash

/-- The entries' bytes, and the length of each of their sources once. -/
def charge (entries : List Entry) : Nat :=
  (entries.map Entry.bytes).sum + ∑ hash ∈ (hashes entries).toFinset, source hash

variable {source} {ring : Ring} {entry : Entry} {entries : List Entry} {hash : Text}

theorem charge_cons : charge source (entry :: entries) = charge source entries + entry.bytes +
    if (hashes entries).count entry.sourceHash = 0 then source entry.sourceHash else 0 := by
  simp only [charge, map_cons, sum_cons, toFinset_cons, count_eq_zero]
  by_cases h : entry.sourceHash ∈ hashes entries
  · rw [Finset.insert_eq_of_mem (mem_toFinset.mpr h), if_neg (not_not.mpr h)]
    omega
  · rw [Finset.sum_insert (mt mem_toFinset.mp h), if_pos h]
    omega

theorem charge_concat : charge source (entries ++ [entry]) = charge source (entry :: entries) := by
  have h := perm_append_singleton entry entries
  rw [charge, charge, (h.map Entry.bytes).sum_eq, toFinset_eq_of_perm _ _ (h.map Entry.sourceHash)]

/-- What the table has for a source of that many entries. -/
def tally (n : Nat) : Option Nat := if n = 0 then none else some n

variable (source) in
/-- The ring's figures are those of its entries. -/
structure Exact (ring : Ring) : Prop where
  entries : ring.entries.length ≤ retainedDecisions
  bytes : ring.bytes = charge source ring.entries
  sources : ∀ hash, ring.sources[hash]? = tally ((hashes ring.entries).count hash)

namespace Exact

theorem chargedSource (h : ring.Exact source) : ring.chargedSource source hash =
    if (hashes ring.entries).count hash = 0 then source hash else 0 := by
  rw [Ring.chargedSource, ExtTreeMap.contains_eq_isSome_getElem?, h.sources, tally]
  split <;> rfl

/-- An eviction takes back what its entry added. -/
theorem evict (h : ring.Exact source) :
    (ring.evict source).Exact source ∧ (ring.evict source).entries = ring.entries.tail := by
  obtain ⟨_ | ⟨entry, entries⟩, bytes, sources⟩ := ring
  · exact ⟨h, rfl⟩
  have hlen : entries.length ≤ retainedDecisions := Nat.le_of_succ_le h.entries
  have hbyt : bytes = _ := h.bytes.trans charge_cons
  have hsr : ∀ hash, sources[hash]? = tally (count hash (hashes (entry :: entries))) :=
    h.sources
  have hown := hsr entry.sourceHash
  simp only [map_cons, count_cons_self, tally, Nat.succ_ne_zero, if_false] at hown
  simp only [Ring.evict, hown, Nat.add_sub_cancel]
  split at hbyt
  · next hzr =>
    rw [if_pos hzr]
    refine ⟨⟨hlen, by simp only; omega, fun hash => ?_⟩, rfl⟩
    simp only [ExtTreeMap.getElem?_erase, hsr, LawfulEqOrd.compare_eq_iff_eq]
    split
    · next heq => rw [← heq, hzr]; rfl
    · next hne => simp [hne]
  · next hmr =>
    rw [if_neg hmr]
    refine ⟨⟨hlen, by simp only; omega, fun hash => ?_⟩, rfl⟩
    simp only [ExtTreeMap.getElem?_insert, hsr, LawfulEqOrd.compare_eq_iff_eq]
    split
    · next heq => rw [← heq, tally, if_neg hmr]
    · next hne => simp [hne]

theorem push (h : ring.Exact source) (hrm : ring.entries.length < retainedDecisions) :
    (ring.push source entry).Exact source := by
  refine ⟨by simpa [Ring.push] using Nat.succ_le_of_lt hrm, ?_, fun hash => ?_⟩
  · simp only [Ring.push, h.bytes, h.chargedSource, charge_concat, charge_cons]
    omega
  · simp only [Ring.push, ExtTreeMap.getElem?_insert, h.sources, LawfulEqOrd.compare_eq_iff_eq]
    split
    · next heq =>
      subst heq
      cases hcnt : count entry.sourceHash (hashes ring.entries) <;> simp [tally, hcnt]
    · next hne => simp [hne]

/-- The loop ends, at the latest when the ring is empty. -/
theorem makeRoom : ∀ {rounds : Nat} {ring : Ring}, ring.Exact source →
    ring.entries.length < rounds → ∃ room, ring.makeRoom source entry rounds = some room ∧
      room.Exact source ∧ room.entries.length < retainedDecisions ∧ (room.entries ≠ [] →
        room.bytes + entry.bytes + room.chargedSource source entry.sourceHash ≤ retainedBytes)
  | rounds + 1, ring, h, hlen => by
    rw [Ring.makeRoom]
    split
    · next hfl =>
      have hpos : 0 < ring.entries.length :=
        hfl.elim (Nat.lt_of_lt_of_le (by decide)) fun hfl => length_pos_iff.mpr hfl.1
      refine makeRoom h.evict.1 ?_
      rw [h.evict.2, length_tail]
      omega
    · next hrm =>
      simp only [not_or, not_and, Nat.not_le, Nat.not_lt] at hrm
      exact ⟨ring, rfl, h, hrm⟩

/-- One call: what fits with its source leaves the bytes within. -/
theorem retain (h : ring.Exact source) (admitted : Bool) (entry : Entry) :
    ∃ kept ring', ring.retain source admitted entry = some (kept, ring') ∧ ring'.Exact source ∧
      (ring.bytes ≤ retainedBytes → entry.bytes + source entry.sourceHash ≤ retainedBytes →
        ring'.bytes ≤ retainedBytes) := by
  unfold Ring.retain
  split
  · exact ⟨_, _, rfl, h, fun hbyt _ => hbyt⟩
  obtain ⟨room, hrm, hex, hlen, hwi⟩ := h.makeRoom (Nat.lt_succ_self _)
  refine ⟨_, _, by rw [hrm]; rfl, hex.push hlen, fun _ hft => ?_⟩
  rw [Ring.push]
  by_cases hnil : room.entries = []
  · rw [hex.bytes, hex.chargedSource, hnil]
    simpa [charge] using hft
  · exact Nat.add_assoc .. ▸ hwi hnil

end Exact

/-- **The decisions kept.** After any calls the ring has at most its number of entries, and its
figures are exact. Its bytes are within their limit if each decision fits it with its source. -/
theorem decisions_kept (source : Text → Nat) (calls : List (Bool × Entry)) :
    ∃ ring, after source calls = some ring ∧ ring.Exact source ∧
      ((∀ call ∈ calls, call.2.bytes + source call.2.sourceHash ≤ retainedBytes) →
        ring.bytes ≤ retainedBytes) := by
  induction calls using reverseRecOn with
  | nil => exact ⟨{}, rfl, ⟨Nat.zero_le _, rfl, fun hash => by simp [tally]⟩, fun _ => Nat.zero_le _⟩
  | append_singleton calls call ih =>
    obtain ⟨ring, hrn, h, hbyt⟩ := ih
    obtain ⟨kept, ring', hrn', h', hbyt'⟩ := h.retain call.1 call.2
    refine ⟨ring', ?_, h', fun hft => ?_⟩
    · rw [after, foldlM_append, ← after, hrn]
      simp [hrn']
    · rw [forall_mem_append, forall_mem_singleton] at hft
      exact hbyt' (hbyt hft.1) hft.2

/-- The second decision fits once the first is evicted. -/
theorem decisions_kept_evicting : ∃ ring,
    after (fun _ => 1000) [(true, ⟨300, [1]⟩), (true, ⟨16776000, [2]⟩)] = some ring ∧
      ring.entries.length = 1 ∧ ring.bytes ≤ retainedBytes := by
  obtain ⟨ring, hrn, -, hbyt⟩ :=
    decisions_kept (fun _ => 1000) [(true, ⟨300, [1]⟩), (true, ⟨16776000, [2]⟩)]
  have hlen : (after (fun _ => 1000) [(true, ⟨300, [1]⟩), (true, ⟨16776000, [2]⟩)]).any
      (·.entries.length == 1) = true := by decide +kernel
  rw [hrn] at hlen
  exact ⟨ring, hrn, eq_of_beq hlen, hbyt (by decide)⟩

/-- **A source is released and charged again**: the second decision of its ruleset fits the limit
only without it. -/
theorem source_released : ∃ ring,
    after (fun _ => 1000) [(true, ⟨300, []⟩), (true, ⟨16777000, []⟩)] = some ring ∧
      retainedBytes < ring.bytes := by
  refine ⟨_, rfl, ?_⟩
  decide +kernel

theorem Exact.suffix_makeRoom : ∀ {rounds : Nat} {ring room : Ring}, ring.Exact source →
    ring.makeRoom source entry rounds = some room → room.entries <:+ ring.entries
  | rounds + 1, ring, room, h, hrm => by
    rw [Ring.makeRoom] at hrm
    split at hrm
    · exact (suffix_makeRoom h.evict.1 hrm).trans (h.evict.2 ▸ tail_suffix _)
    · cases hrm
      exact suffix_rfl

/-- **The newest decisions are kept**: the ring is the end of all that was kept, with the last. -/
theorem newest_kept (source : Text → Nat) (calls : List (Bool × Entry)) :
    ∃ kept ring, history source calls = some (kept, ring) ∧ ring.Exact source ∧
      ring.entries <:+ kept ∧ ring.entries.getLast? = kept.getLast? := by
  induction calls using reverseRecOn with
  | nil => exact ⟨[], {}, rfl, ⟨Nat.zero_le _, rfl, fun hash => by simp [tally]⟩, suffix_rfl, rfl⟩
  | append_singleton calls call ih =>
    obtain ⟨kept, ring, hrn, h, hsuf, hlast⟩ := ih
    rw [history, foldlM_append, ← history, hrn]
    simp only [Option.bind_eq_bind, Option.bind_some, foldlM_cons, foldlM_nil, Ring.retain]
    split
    · exact ⟨_, _, rfl, h, hsuf, hlast⟩
    obtain ⟨room, hrm, hex, hlen, -⟩ := h.makeRoom (Nat.lt_succ_self _)
    obtain ⟨old, rfl⟩ := (h.suffix_makeRoom hrm).trans hsuf
    exact ⟨_, _, by rw [hrm]; rfl, hex.push hlen, ⟨old, by simp [Ring.push]⟩, by simp [Ring.push]⟩

end Ring

end Firenook.Rules
