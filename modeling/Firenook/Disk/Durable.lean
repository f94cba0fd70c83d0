import Firenook.Disk.Store

/-!
# Durable — what the media hold of a history of records

A history is the list of records the store has committed, oldest first: numbered from one, and
later than each other as long as the clock's range lasts (`Chronicle`).

* `Stores`: tables hold exactly a history: its documents, its revision and time, and derived tables
  that describe them.
* `Journaled`: the journal holds the frames of a history from some revision on, behind frames of
  older records, and ends in at most one cut frame.
* `Backs`: the durable tables hold a history up to some revision and the journal the rest of it.
* `Recovers`: the media back what an open may find (`Found`): the acknowledged records, and possibly
  those that were in flight.
-/

namespace Firenook.Disk

open List Option Fallible

variable {h' : List WalRecord} {f : List UInt8} {added : List WalRecord} {r : WalRecord}

/-! ### Histories -/

def mutationsOf (h : List WalRecord) : List Mutation := h.flatMap WalRecord.mutations

/-- The documents a history leaves. -/
def documentsOf (h : List WalRecord) : Documents := mutate ∅ (mutationsOf h)

def lastTime (h : List WalRecord) : Timestamp := (h.getLast?.map WalRecord.commitTime).getD .zero

@[simp] theorem lastTime_concat (h : List WalRecord) (r : WalRecord) :
    lastTime (h ++ [r]) = r.commitTime := by
  rw [lastTime, getLast?_concat]
  rfl

@[simp] theorem mutationsOf_append (a b : List WalRecord) :
    mutationsOf (a ++ b) = mutationsOf a ++ mutationsOf b := flatMap_append

@[simp] theorem mutationsOf_singleton (r : WalRecord) : mutationsOf [r] = r.mutations :=
  flatMap_singleton _ _

theorem mutationsOf_isPrefix {h : List WalRecord} (hh : h <+: h') :
    mutationsOf h <+: mutationsOf h' := by
  obtain ⟨rest, rfl⟩ := hh
  rw [mutationsOf_append]
  exact prefix_append _ _

/-- Records numbered from one, each later than the last while the clock's range lasts. -/
structure Chronicle (h : List WalRecord) : Prop where
  numbered : ∀ i r, h[i]? = some r → r.revision = i + 1
  bounded : h.length < 2 ^ 64
  ticking : ∀ past r, past ++ [r] <+: h → ¬(lastTime past).Exhausted →
    compare (lastTime past) r.commitTime = .lt

namespace Chronicle

variable {h : List WalRecord}

theorem nil : Chronicle [] where
  numbered := by simp
  bounded := by simp
  ticking := by simp

theorem of_isPrefix (hh : Chronicle h') (hpre : h <+: h') : Chronicle h where
  numbered := by
    intro i r hr
    obtain ⟨rest, rfl⟩ := hpre
    exact hh.numbered i r (List.getElem?_append_left (List.getElem?_eq_some_iff.mp hr).1 ▸ hr)
  bounded := hpre.length_le.trans_lt hh.bounded
  ticking past r hps := hh.ticking past r (hps.trans hpre)

theorem take (hh : Chronicle h) (n : Nat) :
    Chronicle (h.take n) := hh.of_isPrefix <| take_prefix n h

theorem concat (hh : Chronicle h) (hrev : r.revision = h.length + 1) (hbd : h.length + 1 < 2 ^ 64)
    (htc : ¬(lastTime h).Exhausted → compare (lastTime h) r.commitTime = .lt) :
    Chronicle (h ++ [r]) where
  numbered := by
    intro i q hq
    rcases Nat.lt_or_ge i h.length with hi | hi
    · rw [List.getElem?_append_left hi] at hq
      exact hh.numbered i q hq
    rw [List.getElem?_append_right hi] at hq
    obtain ⟨hz, hget⟩ := List.getElem?_eq_some_iff.mp hq
    have hlast : i - h.length = 0 := Nat.lt_one_iff.mp hz
    have hiq : i = h.length := by omega
    obtain rfl : r = q := by simpa using hget
    rw [hrev, hiq]
  bounded := by
    rw [length_append]
    exact hbd
  ticking := by
    intro past q hps
    rcases prefix_concat_iff.mp hps with heq | hpre
    · obtain ⟨rfl, hq⟩ := append_inj' heq rfl
      obtain rfl := singleton_inj.mp hq
      exact htc
    · exact hh.ticking past q hpre

theorem revision_le (hh : Chronicle h) {n : Nat} (hr : r ∈ h.take n) : r.revision ≤ n := by
  obtain ⟨i, hi, hget⟩ := mem_iff_getElem.mp hr
  rw [length_take] at hi
  have hnum := (hh.take n).numbered i r (List.getElem?_eq_some_iff.mpr ⟨_, hget⟩)
  omega

end Chronicle

/-! ### Tables that hold a history -/

/-- The tables hold exactly the history. -/
structure Stores (sha : Sha256) (t : Tables) (h : List WalRecord) : Prop where
  contents : Contents sha (fieldIndexValid t = true) t (mutationsOf h)
  state : loadPersistedState t = ⟨h.length, lastTime h⟩
  fresh : t.state = none → h = []
  stamp : ∀ r ∈ t.fieldIndexRevision, r ≤ h.length

section

variable {sha : Sha256} {t t' : Tables} {h : List WalRecord} {fieldIndexes : Bool}
  {usage : Option LogicalMemoryUsage}

theorem stores_empty (sha : Sha256) : Stores sha .empty [] where
  contents := (contents_empty sha).weaken fun _ => trivial
  state := rfl
  fresh _ := rfl
  stamp := by
    intro r hr
    cases hr

namespace Stores

theorem represents (hs : Stores sha t h) : Represents t (documentsOf h) := hs.contents.represents

/-- Stamping a revision over tables with the right contents. The stamp of an index that is not
maintained falls behind. -/
theorem persistState {exact : Prop} (hcts : Contents sha exact t (mutationsOf h))
    (hex : fieldIndexes = true → exact)
    (hstp : fieldIndexes = false → ∀ r ∈ t.fieldIndexRevision, r < h.length ∨
      (r = h.length ∧ exact)) :
    Stores sha (Disk.persistState t ⟨h.length, lastTime h⟩ fieldIndexes usage) h where
  contents := by
    refine Contents.congr (t := t) (hcts.weaken ?_) rfl rfl rfl rfl rfl
    intro hvld
    cases fieldIndexes with
    | true => exact hex rfl
    | false =>
      have hrev : t.fieldIndexRevision = some h.length := by
        simpa [fieldIndexValid, Disk.persistState, loadPersistedState] using hvld
      rcases hstp rfl h.length hrev with hlt | ⟨-, hex⟩
      · exact absurd hlt (Nat.lt_irrefl _)
      · exact hex
  state := rfl
  fresh hnn := by cases hnn
  stamp := by
    intro r hr
    cases fieldIndexes with
    | true =>
      obtain rfl : h.length = r := some.inj hr
      exact Nat.le_refl _
    | false =>
      rcases hstp rfl r hr with hlt | ⟨heq, -⟩
      · exact hlt.le
      · exact heq.le

/-- Stamping the revision the tables already have: a flush. -/
theorem restamp (hs : Stores sha t h) (hvld : fieldIndexes = true → fieldIndexValid t = true) :
    Stores sha (Disk.persistState t ⟨h.length, lastTime h⟩ fieldIndexes usage) h := by
  refine persistState hs.contents hvld fun _ r hr => ?_
  rcases (hs.stamp r hr).lt_or_eq with hlt | heq
  · exact .inl hlt
  · refine .inr ⟨heq, ?_⟩
    rw [fieldIndexValid, hs.state, mem_def.mp hr, heq]
    exact beq_self_eq_true _

/-- Stamping a revision past the tables' own: the mutations of `added` are applied. -/
theorem advance (hs : Stores sha t h) (usage : Option LogicalMemoryUsage) (hadd : added ≠ [])
    (hcts : Contents sha (fieldIndexes = true) t' (mutationsOf (h ++ added)))
    (hrev : t'.fieldIndexRevision = t.fieldIndexRevision) :
    Stores sha (Disk.persistState t' ⟨(h ++ added).length, lastTime (h ++ added)⟩ fieldIndexes
      usage) (h ++ added) := by
  refine persistState hcts id fun _ r hr => .inl ?_
  have hle := hs.stamp r (hrev ▸ hr)
  have hpos := length_pos_of_ne_nil hadd
  rw [length_append]
  omega

/-- **A record's transaction.** -/
theorem persistRecord (hs : Stores sha t h) (hrev : r.revision = h.length + 1)
    (hvld : fieldIndexes = true → fieldIndexValid t = true)
    (ht : Disk.persistRecord sha t r fieldIndexes usage = .ok t') :
    Stores sha t' (h ++ [r]) := by
  obtain ⟨mid, hmid, ht⟩ := bind_eq_ok.mp ht
  obtain rfl := pure_eq_ok.mp ht
  have hcts : Contents sha (fieldIndexes = true) mid (mutationsOf (h ++ [r])) := by
    rw [mutationsOf_append, mutationsOf_singleton]
    exact (hs.contents.mutations hmid).weaken fun hfi => ⟨hvld hfi, hfi⟩
  have key := hs.advance usage (cons_ne_nil r []) hcts (applyMutations_metadata hmid).2.1
  rwa [lastTime_concat, length_append, length_singleton, ← hrev] at key

theorem fieldIndexValid_persistState (state : PersistedState) :
    fieldIndexValid (Disk.persistState t state true usage) = true := by
  exact beq_self_eq_true _

theorem fieldIndexValid_persistRecord (ht : Disk.persistRecord sha t r true usage = .ok t') :
    fieldIndexValid t' = true := by
  obtain ⟨mid, -, ht⟩ := bind_eq_ok.mp ht
  rw [← pure_eq_ok.mp ht]
  exact fieldIndexValid_persistState _

theorem rebuild (hs : Stores sha t h) {counted : LogicalMemoryUsage}
    (ht : rebuildFieldIndex sha t = .ok (t', counted)) :
    Stores sha t' h ∧ fieldIndexValid t' = true := by
  obtain ⟨hcts, heq⟩ := hs.contents.rebuild ht
  have hste : t'.state = t.state := by rw [heq]
  have hrev : t'.fieldIndexRevision = some h.length := by rw [heq, hs.state]
  have hld : loadPersistedState t' = ⟨h.length, lastTime h⟩ := by
    rw [loadPersistedState, hste]
    exact hs.state
  refine ⟨⟨hcts.weaken fun _ => trivial, hld, fun hnn => hs.fresh (hste ▸ hnn), ?_⟩, ?_⟩
  · intro r hr
    rw [hrev] at hr
    exact (some.inj hr).ge
  · rw [fieldIndexValid, hrev, hld]
    exact beq_self_eq_true _

/-- The documents' figures say nothing about the history. -/
theorem withUsage (hs : Stores sha t h) (saved : Option PersistedUsage) :
    Stores sha { t with documentUsage := saved } h :=
  ⟨hs.contents.congr rfl rfl rfl rfl rfl, hs.state, hs.fresh, hs.stamp⟩

end Stores

end

/-! ### The journal of a history -/

/-- The journal holds the frames of the history past `m`, behind frames of records up to `m`, and
ends in `torn`. -/
def Journaled (crc : List UInt8 → UInt32) (bytes torn : List UInt8) (m : Nat)
    (h : List WalRecord) : Prop :=
  ∃ old frames, Frames crc (old ++ h.drop m) frames ∧ bytes = frames ++ torn ∧
    Torn crc torn ∧ ∀ r ∈ old, r.revision ≤ m

namespace Journaled

variable {crc : List UInt8 → UInt32} {bytes torn : List UInt8} {m : Nat} {h : List WalRecord}

theorem empty (h : List WalRecord) : Journaled crc [] [] h.length h :=
  ⟨[], [], by rw [drop_length]; rfl, rfl, .inl rfl, by simp⟩

theorem append (hj : Journaled crc bytes [] m h) (hm : m ≤ h.length)
    (hf : appendFrame crc r = .ok f) : Journaled crc (bytes ++ f) [] m (h ++ [r]) := by
  obtain ⟨old, frames, hfr, rfl, -, hold⟩ := hj
  refine ⟨old, frames ++ f, ?_, by simp, .inl rfl, hold⟩
  rw [drop_append_of_le_length hm, ← append_assoc]
  exact hfr.append ⟨f, [], hf, rfl, (append_nil _).symm⟩

theorem tear (hj : Journaled crc bytes [] m h) (hf : appendFrame crc r = .ok f) {n : Nat}
    (hn : n < f.length) : Journaled crc (bytes ++ f.take n) (f.take n) m h := by
  obtain ⟨old, frames, hfr, rfl, -, hold⟩ := hj
  exact ⟨old, frames, hfr, by simp, .inr ⟨r, f, n, hf, hn, rfl⟩, hold⟩

section

variable (hj : Journaled crc bytes torn m h)

include hj

/-- A transaction that takes the tables further leaves older frames behind. -/
theorem settle (hh : Chronicle h) {m' : Nat} (hm : m ≤ m') : Journaled crc bytes torn m' h := by
  obtain ⟨old, frames, hfr, hbyt, htr, hold⟩ := hj
  refine ⟨old ++ (h.drop m).take (m' - m), frames, ?_, hbyt, htr, ?_⟩
  · have hspl : (h.drop m).take (m' - m) ++ h.drop m' = h.drop m := by
      rw [show h.drop m' = (h.drop m).drop (m' - m) by rw [drop_drop]; congr 1; omega]
      exact take_append_drop _ _
    rwa [append_assoc, hspl]
  · intro r hr
    rcases mem_append.mp hr with hr | hr
    · exact (hold r hr).trans hm
    · rw [← drop_take] at hr
      exact hh.revision_le (mem_of_mem_drop hr)

/-- Records that bypass the journal leave every frame behind. -/
theorem bypass (hm : m ≤ h.length) (hh : Chronicle (h ++ added)) :
    Journaled crc bytes torn (h ++ added).length (h ++ added) := by
  have hst := hj.settle (hh.of_isPrefix (prefix_append h added)) hm
  obtain ⟨old, frames, hfr, hbyt, htr, hold⟩ := hst
  rw [drop_length] at hfr
  refine ⟨old, frames, by rwa [drop_length], hbyt, htr, fun r hr => (hold r hr).trans ?_⟩
  rw [length_append]
  exact Nat.le_add_right _ _

/-- **What an open reads from the journal**: the history past `m`, behind older records. -/
theorem read (hm : m ≤ h.length) (hh : Chronicle h) :
    ∃ old n, readRecords crc bytes = .ok (old ++ h.drop m, n) ∧ (∀ r ∈ old, r.revision ≤ m) ∧
      (∀ r ∈ h.drop m, ∀ m ∈ r.mutations, Storable m) ∧
      Journaled crc (bytes.take n) [] m h := by
  obtain ⟨old, frames, hfr, rfl, htr, hold⟩ := hj
  refine ⟨old, frames.length, readRecords_frames hfr ?_ htr, hold, ?_, ?_⟩
  · intro r hr
    rcases mem_append.mp hr with hr | hr
    · exact (hold r hr).trans_lt (hm.trans_lt hh.bounded)
    have hle := hh.revision_le (n := h.length) (by
      rw [take_length]
      exact mem_of_mem_drop hr)
    exact hle.trans_lt hh.bounded
  · intro r hr
    obtain ⟨f, hf⟩ := hfr.framed r (mem_append_right _ hr)
    exact storable_of_length ((appendFrame_eq_ok hf).2.trans_lt (by decide))
  · exact ⟨old, frames, hfr, by rw [take_left, append_nil], .inl rfl, hold⟩

end

end Journaled

/-! ### Media that back a history -/

section

variable (sha : Sha256) (crc : List UInt8 → UInt32) (journaled : Bool)

/-- The durable tables hold the history up to some revision, and the journal, if there is one, the
rest of it. -/
def Backs (torn : List UInt8) (h : List WalRecord) (media : Media) : Prop :=
  ∃ m ≤ h.length, Stores sha media.durable (h.take m) ∧
    (journaled = true → Journaled crc media.journal torn m h)

/-- What an open may find: with a journal, the acknowledged records or those and the ones in
flight; without one, no more than that. -/
structure Found (acked inFlight h : List WalRecord) : Prop where
  sub : h <+: acked ++ inFlight
  full : journaled = true → h = acked ∨ h = acked ++ inFlight

/-- The media back a history an open may find. -/
def Recovers (acked inFlight : List WalRecord) (media : Media) : Prop :=
  ∃ h torn, Found journaled acked inFlight h ∧ Backs sha crc journaled torn h media

variable {sha crc journaled} {torn : List UInt8} {h : List WalRecord} {media : Media}

theorem Found.acked (acked inFlight : List WalRecord) : Found journaled acked inFlight acked :=
  ⟨prefix_append _ _, fun _ => .inl rfl⟩

theorem Found.all (acked inFlight : List WalRecord) :
    Found journaled acked inFlight (acked ++ inFlight) :=
  ⟨prefix_refl _, fun _ => .inr rfl⟩

theorem Backs.recovers (hb : Backs sha crc journaled torn h media) (inFlight : List WalRecord) :
    Recovers sha crc journaled h inFlight media := ⟨h, torn, Found.acked h inFlight, hb⟩

/-- Only the durable tables and the journal matter. -/
theorem Backs.congr {media' : Media} (hb : Backs sha crc journaled torn h media)
    (hdur : media'.durable = media.durable) (hjr : media'.journal = media.journal) :
    Backs sha crc journaled torn h media' := by
  unfold Backs
  rwa [hdur, hjr]

/-- A durable transaction that brings the tables up to the history. -/
theorem Backs.durable {t : Tables} (hs : Stores sha t h)
    (hj : journaled = true → Journaled crc media.journal torn h.length h) :
    Backs sha crc journaled torn h { media with tables := t, durable := t } :=
  ⟨h.length, Nat.le_refl _, by rwa [take_length], hj⟩

/-- A checkpoint after a durable transaction. -/
theorem Backs.checkpoint (hs : Stores sha media.durable h) :
    Backs sha crc journaled [] h { media with journal := [] } :=
  ⟨h.length, Nat.le_refl _, by rwa [take_length], fun _ => Journaled.empty h⟩

theorem Backs.settled (hb : Backs sha crc journaled torn h media) (hh : Chronicle h) :
    journaled = true → Journaled crc media.journal torn h.length h := by
  obtain ⟨m, hm, -, hj⟩ := hb
  exact fun hjrd => (hj hjrd).settle hh hm

end

end Firenook.Disk
