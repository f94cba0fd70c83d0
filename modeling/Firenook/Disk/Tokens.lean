import Firenook.Disk.Stored

/-!
# Tokens — the walk over a stored document, and both layouts

A stored document can be read as a flat list of tokens, without building its values: each field's
name and then its value in preorder, a container by the number of its members (`tokens`). What is
stored is either the layout with a directory or, from before there were directories, the plain
encoding. The first byte tells them apart: a plain encoding begins with a count, and no count begins
with the marker.

**`lazy_access`**: for both layouts the document decodes to itself, a field path reads what the
document holds there, the field index reads the top-level fields, and the tokens are those of the
document.
-/

namespace Firenook.Disk

open List

variable {d : Document}

open Binary64 (F64)
open Bincode Bincode.Decoder

/-! ### Tokens -/

inductive StoredToken where
  | key (name : Str)
  | null
  | boolean (b : Bool)
  | integer (i : Int64)
  | double (d : F64)
  | timestamp (t : Timestamp)
  | string (s : Str)
  | bytes (b : List UInt8)
  | reference (s : Str)
  | geoPoint (latitude longitude : F64)
  | array (length : Nat)
  | map (entries : Nat)
  | vector (length : Nat)

/-- `borrowed`: the next length-prefixed bytes of a body of `total` bytes. -/
def borrowed (total : Nat) : Decoder (List UInt8) := do
  let n ← length
  let start ← consumed total
  if start + n < 2 ^ 64 then peek n else fail (.other "length overflows")

def borrowedStr (total : Nat) : Decoder Str := do
  let bytes ← borrowed total
  match Str.fromUtf8 bytes with
  | some s => pure s
  | none => fail (.other "string is not UTF-8")

/-- A key and the tokens of its value. -/
def pushEntry (total : Nat) (value : Decoder (List StoredToken)) : Decoder (List StoredToken) := do
  let key ← borrowedStr total
  let tokens ← value
  pure (.key key :: tokens)

/-- `push_tokens`: the tokens of the value at the decoder, to the depth of the fuel. -/
def pushTokens (total : Nat) : Nat → Decoder (List StoredToken)
  | 0 => fail (.other "depth")
  | fuel + 1 => do
    match ← decodeVarint 4 with
    | variantNull => pure [.null]
    | variantBoolean => (fun b => [.boolean b]) <$> decodeBool
    | variantInteger => (fun i => [.integer i]) <$> decodeI64
    | variantDouble => (fun d => [.double d]) <$> decodeF64
    | variantTimestamp => (fun t => [.timestamp t]) <$> decodeTimestamp
    | variantString => (fun s => [.string s]) <$> borrowedStr total
    | variantBytes => (fun b => [.bytes b]) <$> borrowed total
    | variantReference => (fun s => [.reference s]) <$> borrowedStr total
    | variantGeoPoint => do
      let latitude ← decodeF64
      let longitude ← decodeF64
      pure [.geoPoint latitude longitude]
    | variantArray => do
      let n ← length
      let members ← times n (pushTokens total fuel)
      pure (.array n :: members.flatten)
    | variantMap => do
      let n ← length
      let entries ← times n (pushEntry total (pushTokens total fuel))
      pure (.map n :: entries.flatten)
    | variantVector => do
      let n ← length
      let members ← times n decodeF64
      pure (.vector n :: members.map .double)
    | _ => fail (.other "unknown Value variant")

/-- The walk of `EncodedDocument::tokens` over a body: its tokens, the number of its top-level
fields and its times. -/
def bodyTokens (total : Nat) : Decoder (List StoredToken × Nat × Timestamp × Timestamp) := do
  let fields ← length
  let entries ← times fields (pushEntry total (pushTokens total total))
  let createTime ← decodeTimestamp
  let updateTime ← decodeTimestamp
  pure (entries.flatten, fields, createTime, updateTime)

/-- `EncodedDocument::tokens` -/
def tokens (bytes : List UInt8) :
    Except Error (List StoredToken × Nat × Timestamp × Timestamp) := do
  let body ← documentBody bytes
  let (result, _) ← bodyTokens body.length body
  return result

/-- `EncodedDocument::field`: an encoding that does not decode has no fields. -/
def encodedField (bytes : List UInt8) (segments : List Str) : Option Value :=
  (findField bytes segments).toOption.join

/-! ### The tokens of a document -/

mutual

/-- A value in preorder. -/
def valueTokens : Value → List StoredToken
  | .null => [.null]
  | .boolean b => [.boolean b]
  | .integer i => [.integer i]
  | .double d => [.double d]
  | .timestamp t => [.timestamp t]
  | .string s => [.string s]
  | .bytes b => [.bytes b]
  | .reference s => [.reference s]
  | .geoPoint a b => [.geoPoint a b]
  | .array vs => .array vs.length :: listTokens vs
  | .map fs => .map fs.length :: entryTokens fs
  | .vector ds => .vector ds.length :: ds.map .double

def listTokens : List Value → List StoredToken
  | [] => []
  | v :: vs => valueTokens v ++ listTokens vs

def entryTokens : List (Str × Value) → List StoredToken
  | [] => []
  | (k, v) :: fs => .key k :: valueTokens v ++ entryTokens fs

end

theorem listTokens_eq (vs : List Value) : listTokens vs = (vs.map valueTokens).flatten := by
  induction vs with
  | nil => rfl
  | cons v vs ih => rw [listTokens, map_cons, flatten_cons, ih]

theorem entryTokens_eq (fs : List (Str × Value)) :
    entryTokens fs = (fs.map fun f => .key f.1 :: valueTokens f.2).flatten := by
  induction fs with
  | nil => rfl
  | cons f fs ih => rw [entryTokens, map_cons, flatten_cons, ih]

/-! ### The walk reads the tokens -/

section Walk

variable {total : Nat}

theorem reads_borrowed (htot : total < 2 ^ 63) {bs : List UInt8} (h : bs.length < 2 ^ 63) :
    Reads (borrowed total) (encodeBytes bs) bs := by
  intro rest
  have hpk := reads_peek bs rest
  unfold borrowed
  rw [encodeBytes, append_assoc, (reads_length (by omega)).bind_run]
  have hbeg : ∀ (f : Nat → Decoder (List UInt8)) (input : List UInt8),
      (consumed total >>= f) input = f (total - input.length) input := fun _ _ => rfl
  rw [hbeg, if_pos (by omega)]
  exact hpk

theorem reads_borrowedStr (htot : total < 2 ^ 63) {s : Str} (h : s.bytes.length < 2 ^ 63) :
    Reads (borrowedStr total) (encodeStr s) s := by
  refine (reads_borrowed htot h).bind_nil ?_
  rw [Str.fromUtf8_bytes]
  exact .pure s

theorem reads_pushEntries (htot : total < 2 ^ 63) {fuel : Nat} {fs : List (Str × Value)}
    (hf : (encodeEntries fs).length ≤ fuel) (hb : fuel < 2 ^ 63)
    (h : ∀ f ∈ fs, (encodeValue f.2).length ≤ fuel →
      Reads (pushTokens total fuel) (encodeValue f.2) (valueTokens f.2)) :
    Reads (times fs.length (pushEntry total (pushTokens total fuel))) (encodeEntries fs)
      (fs.map fun f => StoredToken.key f.1 :: valueTokens f.2) :=
  reads_pairs hf fun f hf hkey hlen => (reads_borrowedStr htot (by omega)).bind
    ((h f hf hlen).map (StoredToken.key f.1 :: ·))

/-- The walk over a value's encoding gives the value's tokens. -/
theorem reads_pushTokens (htot : total < 2 ^ 63) : ∀ (v : Value) (fuel : Nat),
    (encodeValue v).length ≤ fuel → fuel < 2 ^ 63 →
    Reads (pushTokens total fuel) (encodeValue v) (valueTokens v)
  | v, 0, hf, _ => by
    have := length_encodeValue_pos v
    omega
  | .null, fuel + 1, _, _ => (reads_index (by decide)).bind_nil (.pure _)
  | .boolean b, fuel + 1, _, _ => .variant rfl ((reads_bool b).map _)
  | .integer i, fuel + 1, _, _ => .variant rfl ((reads_i64 i).map _)
  | .double d, fuel + 1, _, _ => .variant rfl ((reads_f64 d).map _)
  | .timestamp t, fuel + 1, _, _ => .variant rfl ((reads_timestamp t).map _)
  | .string _, fuel + 1, hf, hb | .reference _, fuel + 1, hf, hb =>
    .variant rfl ((reads_borrowedStr htot (length_lt_of_encoded hf hb)).map _)
  | .bytes b, fuel + 1, hf, hb =>
    .variant rfl ((reads_borrowed htot (length_lt_of_encoded hf hb)).map _)
  | .geoPoint a b, fuel + 1, _, _ =>
    .variant rfl ((reads_f64 a).bind ((reads_f64 b).map fun b => [StoredToken.geoPoint a b]))
  | .array vs, fuel + 1, hf, hb => by
    obtain ⟨hn, hf⟩ := counted_fits (length_le_encodeValues vs) hf
    rw [valueTokens, listTokens_eq]
    exact .variant rfl ((reads_length (by omega)).bind ((reads_members hf fun v _ hlen =>
      reads_pushTokens htot v fuel hlen (by omega)).map
        fun members => StoredToken.array vs.length :: members.flatten))
  | .map fs, fuel + 1, hf, hb => by
    obtain ⟨hn, hf⟩ := counted_fits (length_le_encodeEntries fs) hf
    rw [valueTokens, entryTokens_eq]
    exact .variant rfl ((reads_length (by omega)).bind ((reads_pushEntries htot hf (by omega)
      fun f _ hlen => reads_pushTokens htot f.2 fuel hlen (by omega)).map
        fun entries => StoredToken.map fs.length :: entries.flatten))
  | .vector ds, fuel + 1, hf, hb => by
    have hlen := length_flatMap_encodeF64 ds
    simp only [encodeValue, encodeList, length_append] at hf
    exact .variant rfl ((reads_length (by omega)).bind ((Reads.times fun d _ => reads_f64 d).map
        fun members => StoredToken.vector ds.length :: members.map .double))

end Walk

theorem reads_bodyTokens (h : (encodeDocument d).length < 2 ^ 63) :
    Reads (bodyTokens (encodeDocument d).length) (encodeDocument d)
      (entryTokens d.fields.entries, d.fields.entries.length, d.createTime, d.updateTime) := by
  have hcnt := length_le_encodeEntries d.fields.entries
  have hsz : (encodeEntries d.fields.entries).length ≤ (encodeDocument d).length := by
    simp only [encodeDocument, length_append]
    omega
  have hen := reads_pushEntries h hsz h fun f _ hlen => reads_pushTokens h f.2 _ hlen h
  rw [entryTokens_eq]
  nth_rewrite 2 [encodeDocument]
  rw [append_assoc]
  exact (reads_length (by omega)).bind (hen.bind
    ((reads_timestamp d.createTime).bind ((reads_timestamp d.updateTime).map _)))

/-! ### The plain layout -/

/-- A count never begins with the marker. -/
theorem encodeVarint_eq_cons (n : Nat) :
    ∃ b rest, encodeVarint n = b :: rest ∧ b ≠ directoryMarker := by
  unfold encodeVarint
  split
  · next h =>
    refine ⟨_, [], rfl, fun hb => ?_⟩
    have hval := congrArg UInt8.toNat hb
    simp [directoryMarker] at hval
    omega
  · split
    · exact ⟨_, _, rfl, by decide⟩
    · split
      · exact ⟨_, _, rfl, by decide⟩
      · exact ⟨_, _, rfl, by decide⟩

theorem encodeDocument_eq_cons (d : Document) :
    ∃ b rest, encodeDocument d = b :: rest ∧ b ≠ directoryMarker := by
  obtain ⟨b, rest, hb, hne⟩ := encodeVarint_eq_cons d.fields.entries.length
  exact ⟨b, _, by rw [encodeDocument, hb]; rfl, hne⟩

theorem documentBody_plain (d : Document) :
    documentBody (encodeDocument d) = .ok (encodeDocument d) := by
  obtain ⟨b, rest, hb, hne⟩ := encodeDocument_eq_cons d
  rw [hb, documentBody, if_pos hne]

section

variable (h : (encodeDocument d).length < 2 ^ 63)

include h

theorem decodeStoredDocument_plain : decodeStoredDocument (encodeDocument d) = .ok d := by
  have hrd := reads_document (d := d) (le_refl _) (by omega)
  rw [decodeStoredDocument, documentBody_plain]
  exact hrd.whole _

theorem storedIndexFields_plain : storedIndexFields (encodeDocument d)
      = .ok (d.fields.entries.map fun f => (f.1, StoredField.of f.2)) := by
  have hdec := decodeStoredDocument_plain h
  obtain ⟨b, rest, hb, hne⟩ := encodeDocument_eq_cons d
  rw [hb] at hdec ⊢
  rw [storedIndexFields, if_pos hne, hdec]
  rfl

theorem findField_plain (segments : List Str) :
    findField (encodeDocument d) segments = .ok (nestedValue d.fields.entries segments) := by
  cases segments with
  | nil => rfl
  | cons first rest =>
    have hcnt := length_le_encodeEntries d.fields.entries
    have hsz : (encodeEntries d.fields.entries).length ≤ (encodeDocument d).length := by
      simp only [encodeDocument, length_append]
      omega
    obtain ⟨post, hfn⟩ := findInMap_run d.fields.ordered (encodeDocument d).length hsz
      (by omega) first rest (encodeTimestamp d.createTime ++ encodeTimestamp d.updateTime)
    have hrun := (reads_length (n := d.fields.entries.length) (by omega)).bind_run
      (fun entries => findInMap (encodeDocument d).length entries first rest)
      (encodeEntries d.fields.entries ++ (encodeTimestamp d.createTime
        ++ encodeTimestamp d.updateTime))
    rw [hfn, ← append_assoc, ← encodeDocument] at hrun
    obtain ⟨b, tail, hb, hne⟩ := encodeDocument_eq_cons d
    rw [hb] at hrun ⊢
    simp only [findField]
    rw [if_neg hne, hrun]
    rfl

end

/-! ### Both layouts -/

/-- What may be stored for a document: with a directory, or plain. -/
inductive Layout (d : Document) (bytes : List UInt8) : Prop
  | directory (h : encodeStoredDocument d = .ok bytes)
  | plain (h : toVec (encodeDocument d) = .ok bytes)

theorem tokens_of_body {bytes : List UInt8} (hbd : documentBody bytes = .ok (encodeDocument d))
    (h : (encodeDocument d).length < 2 ^ 63) :
    tokens bytes = .ok
      (entryTokens d.fields.entries, d.fields.entries.length, d.createTime, d.updateTime) := by
  have hrd := reads_bodyTokens h []
  rw [append_nil] at hrd
  rw [tokens, hbd, Fallible.ok_bind, hrd]
  rfl

/-- **Lazy access equals decoding**, for both layouts; a document below 4 GiB has both. -/
theorem lazy_access (d : Document) : ((encodeDocument d).length < 2 ^ 32 →
      (∃ bytes, encodeStoredDocument d = .ok bytes) ∧ ∃ bytes, toVec (encodeDocument d) = .ok bytes) ∧
    ∀ bytes, Layout d bytes → decodeStoredDocument bytes = .ok d ∧
      (∀ path, encodedField bytes path = nestedValue d.fields.entries path) ∧
      storedIndexFields bytes = .ok (d.fields.entries.map fun f => (f.1, StoredField.of f.2)) ∧
      tokens bytes = .ok
        (entryTokens d.fields.entries, d.fields.entries.length, d.createTime, d.updateTime) := by
  refine ⟨fun h => ⟨encodeStoredDocument_returns h, _, toVec_eq_ok.mpr ⟨by omega, rfl⟩⟩, ?_⟩
  rintro bytes (h | h)
  · refine ⟨decodeStoredDocument_encode h, fun path => ?_, storedIndexFields_encode h,
      tokens_of_body (documentBody_encode h) (stored_bounds h).1⟩
    rw [encodedField, findField_encode h]
    rfl
  · obtain ⟨hlen, rfl⟩ := toVec_eq_ok.mp h
    refine ⟨decodeStoredDocument_plain hlen, fun path => ?_, storedIndexFields_plain hlen,
      tokens_of_body (documentBody_plain d) hlen⟩
    rw [encodedField, findField_plain hlen]
    rfl

/-- A document with one integer field, walked from its stored layout. -/
theorem lazy_access_integer : ∃ bytes,
    encodeStoredDocument ⟨⟨[(⟨ascii "x", by decide⟩, .integer 1)], rfl⟩, .zero, .zero⟩ = .ok bytes ∧
      tokens bytes = .ok ([.key ⟨ascii "x", by decide⟩, .integer 1], 1, .zero, .zero) := by
  obtain ⟨hstd, hrd⟩ := lazy_access ⟨⟨[(⟨ascii "x", by decide⟩, .integer 1)], rfl⟩, .zero, .zero⟩
  obtain ⟨⟨bytes, hbyt⟩, -⟩ := hstd (by decide +kernel)
  exact ⟨bytes, hbyt, (hrd bytes (.directory hbyt)).2.2.2⟩

end Firenook.Disk
