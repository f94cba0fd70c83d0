import Firenook.Disk.Reindex

/-!
# Journal — frames of records, and reading them back after a crash

A record is journaled as one frame: a magic number, the payload's length and checksum, and the
payload. A crash may cut the frame that is being appended at any byte. Reading stops at the first
frame that is cut short and refuses anything else that is not a frame.

**`readRecords_frames`**: from whole frames and a cut one, reading gives back the records of the
whole frames and the length they take, whatever the checksum function is.
-/

namespace Firenook.Disk

open List Nat Bincode Fallible

variable {k : DocumentKey} {fuel : Nat} {r : WalRecord} {tail : List UInt8}
  {records : List WalRecord}

/-! ### Records -/

/-- The derived encoding of a document key. -/
def encodeName (key : DocumentKey) : List UInt8 :=
  encodeStr key.database.projectId ++ (encodeStr key.database.databaseId ++ encodeStr key.path)

/-- The derived decoder does not validate names; no writer stores an invalid one. -/
def decodeName : Decoder DocumentKey := do
  let projectId ← decodeStr
  let databaseId ← decodeStr
  let path ← decodeStr
  match (DatabaseName.new projectId databaseId).bind fun database => DocumentKey.new database path with
  | .ok key => pure key
  | .error _ => Decoder.fail (.other "name")

def encodeMutation (m : Mutation) : List UInt8 :=
  encodeName m.key ++ encodeOption encodeDocument m.document

def decodeMutation (fuel : Nat) : Decoder Mutation := do
  let key ← decodeName
  let document ← decodeOption (decodeDocument fuel)
  pure ⟨key, document⟩

def encodeRecord (r : WalRecord) : List UInt8 :=
  encodeVarint r.revision ++ (encodeTimestamp r.commitTime ++ encodeList encodeMutation r.mutations)

def decodeRecord (fuel : Nat) : Decoder WalRecord := do
  let revision ← decodeVarint 8
  let commitTime ← decodeTimestamp
  let mutations ← decodeList (decodeMutation fuel)
  pure ⟨revision, commitTime, mutations⟩

theorem length_encodeStr (s : Str) : s.bytes.length < (encodeStr s).length := length_encodeBytes _

theorem reads_name (h : (encodeName k).length < 2 ^ 64) : Reads decodeName (encodeName k) k := by
  have hprj := length_encodeStr k.database.projectId
  have hdb := length_encodeStr k.database.databaseId
  have hpt := length_encodeStr k.path
  rw [encodeName, length_append, length_append] at h
  refine (reads_str (by omega)).bind ((reads_str (by omega)).bind ((reads_str (by omega)).bind_nil ?_))
  rw [DatabaseName.new_self]
  simp only [Except.bind, DocumentKey.new_self]
  exact .pure k

theorem length_encodeDocument_le {m : Mutation} {d : Document} (h : m.document = some d) :
    (encodeDocument d).length < (encodeMutation m).length := by
  simp only [encodeMutation, encodeName, h, encodeOption, length_append, length_cons]
  omega

theorem reads_mutation {m : Mutation} (hf : (encodeMutation m).length ≤ fuel) (hb : fuel < 2 ^ 64) :
    Reads (decodeMutation fuel) (encodeMutation m) m := by
  have hname : (encodeName m.key).length < 2 ^ 64 := by
    rw [encodeMutation, length_append] at hf
    omega
  refine (reads_name hname).bind (.bind_nil (reads_option fun d hd => ?_) (.pure _))
  have hdoc := length_encodeDocument_le hd
  exact reads_document (by omega) hb

/-- An element of a list is no longer than the list. -/
theorem length_le_flatMap {α : Type} {e : α → List UInt8} {a : α} {as : List α} (h : a ∈ as) :
    (e a).length ≤ (as.flatMap e).length := by
  induction as with
  | nil => cases h
  | cons b as ih =>
    rw [flatMap_cons, length_append]
    rcases mem_cons.mp h with rfl | h
    · exact le_add_right _ _
    · exact (ih h).trans (le_add_left _ _)

theorem length_encodeMutation_pos (m : Mutation) : 0 < (encodeMutation m).length := by
  have hpt := length_encodeStr m.key.path
  simp only [encodeMutation, encodeName, length_append]
  omega

theorem length_le_encodeMutations (ms : List Mutation) :
    ms.length ≤ (ms.flatMap encodeMutation).length := by
  induction ms with
  | nil => exact le_refl _
  | cons m ms ih =>
    have hm := length_encodeMutation_pos m
    rw [flatMap_cons, length_append, length_cons]
    omega

/-- A record's parts are no longer than its encoding. -/
theorem length_mutations_le (r : WalRecord) :
    (r.mutations.flatMap encodeMutation).length ≤ (encodeRecord r).length := by
  simp only [encodeRecord, encodeList, length_append]
  omega

theorem reads_record (hrev : r.revision < 2 ^ 64) (hf : (encodeRecord r).length ≤ fuel)
    (hb : fuel < 2 ^ 64) : Reads (decodeRecord fuel) (encodeRecord r) r := by
  have hpts := length_mutations_le r
  have hcnt := length_le_encodeMutations r.mutations
  refine (reads_varint 8 (by decide) (by decide) (by simpa using hrev)).bind
    ((reads_timestamp r.commitTime).bind (.bind_nil (reads_list (by omega) fun m hm => ?_) (.pure _)))
  exact reads_mutation ((length_le_flatMap hm).trans (hpts.trans hf)) hb

/-- A key that takes less than 4 GiB can be encoded for every table. -/
theorem encodeKeys_return (h : (encodeName k).length < 2 ^ 32) :
    (∃ e, encodeDocumentKey k = .ok e) ∧ (∃ e, encodeCollectionIndexKey k = .ok e) ∧
      ∃ e, encodeCollectionGroupIndexKey k = .ok e := by
  have hprj := length_encodeStr k.database.projectId
  have hdb := length_encodeStr k.database.databaseId
  have hpt := length_encodeStr k.path
  rw [encodeName, length_append, length_append] at h
  have hcol := k.length_collectionPath_lt
  have hgrp := k.length_collectionId_le
  have hname : ∃ e, databasePrefix k.database = .ok e :=
    ⟨_, bind_eq_ok.mpr ⟨_, lengthPrefixed_eq_ok.mpr ⟨by omega, rfl⟩,
      bind_eq_ok.mpr ⟨_, lengthPrefixed_eq_ok.mpr ⟨by omega, rfl⟩, rfl⟩⟩⟩
  obtain ⟨name, hname⟩ := hname
  have hsc : ∀ scope : List UInt8, scope.length < 2 ^ 32 →
      ∃ e, collectionIndexPrefix k.database scope = .ok e := fun scope hsc =>
    ⟨_, collectionIndexPrefix_eq_ok.mpr ⟨name, hname, _, lengthPrefixed_eq_ok.mpr ⟨hsc, rfl⟩, rfl⟩⟩
  obtain ⟨collection, hcol⟩ := hsc k.collectionPath (by omega)
  obtain ⟨group, hgrp⟩ := hsc k.collectionId (by omega)
  exact ⟨⟨_, bind_eq_ok.mpr ⟨name, hname, rfl⟩⟩,
    ⟨_, encodeCollectionIndexKey_eq_ok.mpr ⟨collection, hcol, rfl⟩⟩,
    ⟨_, encodeCollectionGroupIndexKey_eq_ok.mpr ⟨group, hgrp, rfl⟩⟩⟩

/-- The mutations of a record that takes less than 4 GiB can be stored. -/
theorem storable_of_length (h : (encodeRecord r).length < 2 ^ 32) :
    ∀ m ∈ r.mutations, Storable m := by
  intro m hm
  have hlen : (encodeMutation m).length < 2 ^ 32 :=
    (length_le_flatMap hm).trans_lt ((length_mutations_le r).trans_lt h)
  have hname : (encodeName m.key).length < 2 ^ 32 := by
    rw [encodeMutation, length_append] at hlen
    omega
  obtain ⟨hkey, hsc, hgrp⟩ := encodeKeys_return hname
  refine ⟨hkey, hsc, hgrp, ?_⟩
  cases hdoc : m.document with
  | none => exact ⟨none, trivial⟩
  | some d =>
    obtain ⟨v, hv⟩ := encodeStoredDocument_returns ((length_encodeDocument_le hdoc).trans hlen)
    exact ⟨some v, hv⟩

/-! ### Frames -/

def frameMagic : List UInt8 := ascii "FSWAL001"

def frameHeaderLen : Nat := 16

def maxWalRecordBytes : Nat := 64 * 1024 * 1024

section

variable (crc : List UInt8 → UInt32)

def frame (payload : List UInt8) : List UInt8 :=
  (frameMagic ++ (leBytes 4 payload.length ++ leBytes 4 (crc payload).toNat)) ++ payload

/-- The bytes `Journal::append` writes. -/
def appendFrame (record : WalRecord) : Except DiskError (List UInt8) := do
  let payload ← coded (toVec (encodeRecord record))
  if maxWalRecordBytes < payload.length then
    .error (.recordTooLarge payload.length maxWalRecordBytes)
  else .ok (frame crc payload)

def decodePayload (payload : List UInt8) : Except DiskError WalRecord :=
  match decodeRecord payload.length payload with
  | .error e => .error (.codec e)
  | .ok (record, []) => .ok record
  | .ok (_, _ :: _) => .error (.corrupt "encoded value contains trailing bytes")

/-- The loop of `read_records`: the records and the length of their frames. -/
def readFrames : Nat → List UInt8 → Except DiskError (List WalRecord × Nat)
  | 0, _ => .ok ([], 0)
  | fuel + 1, bytes =>
    -- a header cut short, or none
    if bytes.length < frameHeaderLen then .ok ([], 0)
    else if bytes.take 8 ≠ frameMagic then .error (.corrupt "invalid journal frame magic")
    else
      let length := ofLeBytes ((bytes.drop 8).take 4)
      if maxWalRecordBytes < length then
        .error (.corrupt s!"journal frame length {length} exceeds {maxWalRecordBytes}")
      else
        let expected := ofLeBytes ((bytes.drop 12).take 4)
        let rest := bytes.drop frameHeaderLen
        -- a payload cut short
        if rest.length < length then .ok ([], 0)
        else
          let payload := rest.take length
          if (crc payload).toNat ≠ expected then
            .error (.corrupt "journal frame checksum mismatch")
          else do
            let record ← decodePayload payload
            let (records, validLen) ← readFrames fuel (rest.drop length)
            pure (record :: records, frameHeaderLen + length + validLen)

/-- `read_records`: every frame takes at least a header, so the loop ends with the bytes. -/
def readRecords (bytes : List UInt8) : Except DiskError (List WalRecord × Nat) :=
  readFrames crc (bytes.length + 1) bytes

/-! ### Reading back -/

variable {crc}

section

variable {bytes : List UInt8} (h : appendFrame crc r = .ok bytes)

include h

theorem appendFrame_eq_ok :
    bytes = frame crc (encodeRecord r) ∧ (encodeRecord r).length ≤ maxWalRecordBytes := by
  obtain ⟨payload, hpay, h⟩ := bind_eq_ok.mp h
  obtain ⟨-, rfl⟩ := toVec_eq_ok.mp (coded_eq_ok.mp hpay)
  split at h
  · cases h
  · next hlen => exact ⟨(Except.ok.inj h).symm, not_lt.mp hlen⟩

end

theorem length_frameMagic : frameMagic.length = 8 := by decide

theorem length_frame (payload : List UInt8) :
    (frame crc payload).length = frameHeaderLen + payload.length := by
  simp only [frame, length_append, length_frameMagic, length_leBytes, frameHeaderLen]

variable (crc) in
/-- The fields of a frame's header. -/
theorem frame_fields (payload rest : List UInt8) : let bytes := frame crc payload ++ rest
    bytes.take 8 = frameMagic ∧ (bytes.drop 8).take 4 = leBytes 4 payload.length ∧
      (bytes.drop 12).take 4 = leBytes 4 (crc payload).toNat ∧
      bytes.drop frameHeaderLen = payload ++ rest := by
  simp only [frame, frameHeaderLen]
  have hlen : (leBytes 4 payload.length).length = 4 := length_leBytes _ _
  have hcrc : (leBytes 4 (crc payload).toNat).length = 4 := length_leBytes _ _
  refine ⟨?_, ?_, ?_, ?_⟩
  · rw [append_assoc, append_assoc, take_left' length_frameMagic]
  · rw [append_assoc, append_assoc, drop_left' length_frameMagic, append_assoc, take_left' hlen]
  · have hdr : (frameMagic ++ leBytes 4 payload.length).length = 12 := by
      rw [length_append, length_frameMagic, hlen]
    rw [append_assoc, ← append_assoc frameMagic, append_assoc _ _ (payload ++ rest),
      drop_left' hdr, take_left' hcrc]
  · have hdr : (frameMagic ++ (leBytes 4 payload.length ++
        leBytes 4 (crc payload).toNat)).length = 16 := by
      rw [length_append, length_append, length_frameMagic, hlen, hcrc]
    rw [append_assoc, drop_left' hdr]

theorem decodePayload_encodeRecord (hrev : r.revision < 2 ^ 64)
    (hlen : (encodeRecord r).length ≤ maxWalRecordBytes) :
    decodePayload (encodeRecord r) = .ok r := by
  have hrd := reads_record hrev (le_refl _) (hlen.trans_lt (by decide)) []
  rw [append_nil] at hrd
  rw [decodePayload, hrd]

theorem readFrames_frame {bytes : List UInt8} (hrev : r.revision < 2 ^ 64)
    (h : appendFrame crc r = .ok bytes) (fuel : Nat) (rest : List UInt8) :
    readFrames crc (fuel + 1) (bytes ++ rest) =
      (readFrames crc fuel rest).map fun p => (r :: p.1, bytes.length + p.2) := by
  obtain ⟨rfl, hlen⟩ := appendFrame_eq_ok h
  obtain ⟨hmag, hlng, hcrc, hdr⟩ := frame_fields crc (encodeRecord r) rest
  have hlrg : ¬(frame crc (encodeRecord r) ++ rest).length < frameHeaderLen := by
    rw [length_append, length_frame]
    omega
  have hbd : (encodeRecord r).length < 256 ^ 4 := hlen.trans_lt (by decide)
  rw [readFrames, if_neg hlrg, if_neg (not_not.mpr hmag), hlng, ofLeBytes_leBytes hbd,
    if_neg (not_lt.mpr hlen), hdr, if_neg (by simp), take_left, hcrc,
    ofLeBytes_leBytes (by simpa using (crc (encodeRecord r)).toNat_lt),
    if_neg (not_not.mpr rfl), decodePayload_encodeRecord hrev hlen, drop_left,
    length_frame]
  cases readFrames crc fuel rest with
  | error e => rfl
  | ok p => rfl

/-- A frame that is cut short, or nothing. -/
def Torn (crc : List UInt8 → UInt32) (tail : List UInt8) : Prop :=
  tail = [] ∨
    ∃ r bytes n, appendFrame crc r = .ok bytes ∧ n < bytes.length ∧ tail = bytes.take n

theorem readFrames_torn (h : Torn crc tail) (fuel : Nat) :
    readFrames crc fuel tail = .ok ([], 0) := by
  cases fuel with
  | zero => rfl
  | succ fuel =>
    rw [readFrames]
    split
    · rfl
    next hlrg =>
    rcases h with rfl | ⟨r, bytes, n, hfrm, hn, rfl⟩
    · exact absurd (show 0 < frameHeaderLen by decide) hlrg
    obtain ⟨rfl, hlen⟩ := appendFrame_eq_ok hfrm
    -- the header is whole, so it names more bytes than there are
    rw [length_take, not_lt] at hlrg
    obtain ⟨hmag, hlng, -, hdr⟩ :=
      frame_fields crc (encodeRecord r) []
    rw [append_nil] at *
    rw [frameHeaderLen] at hlrg
    have hbd : (encodeRecord r).length < 256 ^ 4 := hlen.trans_lt (by decide)
    rw [take_take, min_eq_left (by omega), if_neg (not_not.mpr hmag),
      drop_take, take_take, min_eq_left (by omega), hlng,
      ofLeBytes_leBytes hbd, if_neg (not_lt.mpr hlen), if_pos]
    rw [drop_take, hdr, length_take]
    rw [length_frame, frameHeaderLen] at hn
    rw [frameHeaderLen]
    omega

/-- The bytes are the frames of the records. -/
def Frames (crc : List UInt8 → UInt32) : List WalRecord → List UInt8 → Prop
  | [], bytes => bytes = []
  | r :: rs, bytes =>
    ∃ first rest, appendFrame crc r = .ok first ∧ Frames crc rs rest ∧ bytes = first ++ rest

theorem Frames.append {a b : List WalRecord} {x y : List UInt8} (ha : Frames crc a x)
    (hb : Frames crc b y) : Frames crc (a ++ b) (x ++ y) := by
  induction a generalizing x with
  | nil =>
    obtain rfl : x = [] := ha
    exact hb
  | cons r a ih =>
    obtain ⟨first, rest, hfst, hrs, rfl⟩ := ha
    exact ⟨first, rest ++ y, hfst, ih hrs, append_assoc _ _ _⟩

section

variable {bytes : List UInt8} (h : Frames crc records bytes)

include h

theorem Frames.framed : ∀ r ∈ records, ∃ f, appendFrame crc r = .ok f := by
  induction records generalizing bytes with
  | nil => exact fun r hr => absurd hr not_mem_nil
  | cons first records ih =>
    obtain ⟨f, rest, hf, hrs, -⟩ := h
    intro r hr
    rcases mem_cons.mp hr with rfl | hr
    · exact ⟨f, hf⟩
    · exact ih hrs r hr

theorem Frames.length_le : records.length ≤ bytes.length := by
  induction records generalizing bytes with
  | nil => exact zero_le _
  | cons r records ih =>
    obtain ⟨first, rest, hfst, hrs, rfl⟩ := h
    obtain ⟨rfl, -⟩ := appendFrame_eq_ok hfst
    have := ih hrs
    rw [length_append, length_frame, length_cons, frameHeaderLen]
    omega

section

variable (hrev : ∀ r ∈ records, r.revision < 2 ^ 64) (htail : Torn crc tail)

include hrev htail

theorem readFrames_frames (hfl : records.length ≤ fuel) :
    readFrames crc fuel (bytes ++ tail) = .ok (records, bytes.length) := by
  induction records generalizing bytes fuel with
  | nil =>
    obtain rfl : bytes = [] := h
    exact readFrames_torn htail fuel
  | cons r records ih =>
    obtain ⟨first, rest, hfst, hrs, rfl⟩ := h
    obtain ⟨fuel, rfl⟩ := exists_eq_succ_of_ne_zero (ne_zero_of_lt hfl)
    rw [append_assoc, readFrames_frame (hrev r mem_cons_self) hfst,
      ih hrs (fun q hq => hrev q (mem_cons_of_mem _ hq)) (le_of_succ_le_succ hfl),
      length_append]
    rfl

/-- **Opening a journal reads back every whole frame**, and finds where they end, whatever part of
a frame follows them. -/
theorem readRecords_frames : readRecords crc (bytes ++ tail) = .ok (records, bytes.length) := by
  refine readFrames_frames h hrev htail ?_
  rw [length_append]
  have := h.length_le
  omega

end

end

/-! ### A journal cut anywhere -/

/-- The frames of the records, one after the other. -/
def framesOf (crc : List UInt8 → UInt32) (records : List WalRecord) : List UInt8 :=
  records.flatMap fun r => frame crc (encodeRecord r)

def Taken (records : List WalRecord) : Prop :=
  ∀ r ∈ records, r.revision < 2 ^ 64 ∧ (encodeRecord r).length ≤ maxWalRecordBytes

theorem appendFrame_of_length_le (h : (encodeRecord r).length ≤ maxWalRecordBytes) :
    appendFrame crc r = .ok (frame crc (encodeRecord r)) := by
  have hvec : coded (toVec (encodeRecord r)) = .ok (encodeRecord r) :=
    coded_eq_ok.mpr (toVec_eq_ok.mpr ⟨h.trans_lt (by decide), rfl⟩)
  rw [appendFrame, hvec, ok_bind, if_neg (not_lt.mpr h)]

theorem frames_framesOf (h : Taken records) : Frames crc records (framesOf crc records) := by
  induction records with
  | nil => rfl
  | cons r records ih =>
    refine ⟨_, _, appendFrame_of_length_le (h r mem_cons_self).2, ih fun q hq => ?_, ?_⟩
    · exact h q (mem_cons_of_mem _ hq)
    · rfl

/-- How many frames lie wholly inside the first `n` bytes. -/
def wholeFrames (crc : List UInt8 → UInt32) : List WalRecord → Nat → Nat
  | [], _ => 0
  | r :: rs, n =>
    let length := (frame crc (encodeRecord r)).length
    if length ≤ n then wholeFrames crc rs (n - length) + 1 else 0

theorem wholeFrames_le (records : List WalRecord) (n : Nat) :
    wholeFrames crc records n ≤ records.length := by
  induction records generalizing n with
  | nil => exact le_refl _
  | cons r records ih =>
    simp only [wholeFrames]
    split
    · exact succ_le_succ (ih _)
    · exact zero_le _

/-- The frames counted lie inside the first `n` bytes, and the next one does not. -/
theorem wholeFrames_spec (records : List WalRecord) (n : Nat) :
    (framesOf crc (records.take (wholeFrames crc records n))).length ≤ n ∧
      (wholeFrames crc records n < records.length →
        n < (framesOf crc (records.take (wholeFrames crc records n + 1))).length) := by
  induction records generalizing n with
  | nil => exact ⟨zero_le _, fun h => absurd h (lt_irrefl 0)⟩
  | cons r records ih =>
    simp only [wholeFrames]
    split
    · next hle =>
      obtain ⟨hin, hout⟩ := ih (n - (frame crc (encodeRecord r)).length)
      simp only [framesOf, take_succ_cons, flatMap_cons, length_append, length_cons] at hin hout ⊢
      refine ⟨by omega, fun h => ?_⟩
      omega
    · next hgt =>
      refine ⟨zero_le _, fun _ => ?_⟩
      simp only [framesOf, zero_add, take_succ_cons, take_zero,
        flatMap_cons, flatMap_nil, append_nil]
      omega

/-- The first `n` bytes are whole frames and a torn one. -/
theorem take_framesOf (h : Taken records) (n : Nat) :
    ∃ tail, Torn crc tail ∧ (framesOf crc records).take n =
      framesOf crc (records.take (wholeFrames crc records n)) ++ tail := by
  induction records generalizing n with
  | nil => exact ⟨[], .inl rfl, by simp [framesOf]⟩
  | cons r records ih =>
    have hbyt : framesOf crc (r :: records) =
        frame crc (encodeRecord r) ++ framesOf crc records := rfl
    simp only [wholeFrames]
    split
    · next hle =>
      obtain ⟨tail, htr, htk⟩ := ih (fun q hq => h q (mem_cons_of_mem _ hq))
        (n - (frame crc (encodeRecord r)).length)
      refine ⟨tail, htr, ?_⟩
      rw [hbyt, take_append, take_of_length_le hle, htk, ← append_assoc]
      rfl
    · next hgt =>
      refine ⟨(frame crc (encodeRecord r)).take n, .inr ⟨r, _, n,
        appendFrame_of_length_le (h r mem_cons_self).2, by omega, rfl⟩, ?_⟩
      rw [hbyt, take_append_of_le_length (by omega)]
      rfl

/-- **A journal cut at any byte reads back exactly its whole frames.** Of the records that the
journal takes, reading the first `n` bytes of their frames gives those whose frames lie wholly
inside, and the length of these frames; cut there and with further records appended, the journal
reads back all of them. -/
theorem readRecords_cut (crc : List UInt8 → UInt32) {records : List WalRecord}
    (h : Taken records) (n : Nat) :
    (∀ r ∈ records, appendFrame crc r = .ok (frame crc (encodeRecord r))) ∧
    ∃ k ≤ records.length, (framesOf crc (records.take k)).length ≤ n ∧
      (k < records.length → n < (framesOf crc (records.take (k + 1))).length) ∧
      readRecords crc ((framesOf crc records).take n) =
        .ok (records.take k, (framesOf crc (records.take k)).length) ∧
      ∀ more, Taken more → readRecords crc (((framesOf crc records).take n).take
            (framesOf crc (records.take k)).length ++ framesOf crc more) =
          .ok (records.take k ++ more,
            (framesOf crc (records.take k)).length + (framesOf crc more).length) := by
  refine ⟨fun r hr => appendFrame_of_length_le (h r hr).2, wholeFrames crc records n,
    wholeFrames_le _ _, (wholeFrames_spec records n).1, (wholeFrames_spec records n).2, ?_, ?_⟩
  all_goals
    obtain ⟨tail, htr, htk⟩ : ∃ tail, Torn crc tail ∧ (framesOf crc records).take n =
        framesOf crc (records.take (wholeFrames crc records n)) ++ tail := take_framesOf h n
    generalize wholeFrames crc records n = k at htk
    have hkp : Taken (records.take k) := fun r hr => h r (mem_of_mem_take hr)
  · rw [htk]
    exact readRecords_frames (frames_framesOf hkp) (fun r hr => (hkp r hr).1) htr
  intro more hmr
  have hall : Taken (records.take k ++ more) := by
    intro r hr
    rcases mem_append.mp hr with hr | hr
    · exact hkp r hr
    · exact hmr r hr
  have hfr : Frames crc (records.take k ++ more)
      (framesOf crc (records.take k) ++ framesOf crc more) :=
    (frames_framesOf hkp).append (frames_framesOf hmr)
  have hrd := readRecords_frames hfr (fun r hr => (hall r hr).1) (.inl rfl)
  rw [htk, take_left]
  rwa [append_nil, length_append] at hrd

/-- Two records, cut inside the second one's header. -/
theorem readRecords_cut_header : (∀ r ∈ [WalRecord.mk 1 .zero [], WalRecord.mk 2 .zero []],
      appendFrame (fun _ => 0) r = .ok (frame (fun _ => 0) (encodeRecord r))) ∧
    readRecords (fun _ => 0) ((framesOf (fun _ => 0)
      [WalRecord.mk 1 .zero [], WalRecord.mk 2 .zero []]).take 30) = .ok ([⟨1, .zero, []⟩], 20) := by
  have htkn : Taken [WalRecord.mk 1 .zero [], WalRecord.mk 2 .zero []] := by
    unfold Taken
    decide +kernel
  obtain ⟨happ, k, hk, hin, hout, hrd, -⟩ := readRecords_cut (fun _ => 0) htkn 30
  refine ⟨happ, ?_⟩
  obtain rfl : k = 1 := by
    rcases k with _ | _ | _ | k
    · exact absurd (hout (by decide)) (by decide +kernel)
    · rfl
    · exact absurd hin (by decide +kernel)
    · exact absurd hk (by simp)
  exact hrd

end

end Firenook.Disk
