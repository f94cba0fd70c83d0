import Firenook.Disk.Keys

/-!
# Stored documents — the encoding of the documents table

A document is stored as a marker byte, a *field directory* (the byte range of every top-level
field) and the bincode encoding of the document. A reader that wants one field looks it up in the
directory and decodes only that value; the field index reads arrays and maps by their emptiness
alone.

The readers agree with the document they were written from: **`decodeStoredDocument_encode`** for
the whole document, **`storedIndexFields_encode`** for what the field index reads, and
**`findField_encode`** for one field path. The decoders recurse to the depth of the value, bounded
here by the number of bytes they were given; every level of a value takes at least one.
-/

namespace Firenook.Disk

open List Assoc Option Fallible Value

variable {k : Str} {start bodyStart : Nat} {tail pre post : List UInt8} {fuel total : Nat}
  {dir : List (Str × Nat × Nat)} {v : Value} {d : Document} {fs : List (Str × Value)}
  {bytes bs : List UInt8}

open Binary64 (F64)
open Bincode Bincode.Decoder

/-! ### Values and documents -/

@[match_pattern] def variantNull : Nat := 0
@[match_pattern] def variantBoolean : Nat := 1
@[match_pattern] def variantInteger : Nat := 2
@[match_pattern] def variantDouble : Nat := 3
@[match_pattern] def variantTimestamp : Nat := 4
@[match_pattern] def variantString : Nat := 5
@[match_pattern] def variantBytes : Nat := 6
@[match_pattern] def variantReference : Nat := 7
@[match_pattern] def variantGeoPoint : Nat := 8
@[match_pattern] def variantArray : Nat := 9
@[match_pattern] def variantMap : Nat := 10
@[match_pattern] def variantVector : Nat := 11

def encodeF64 (d : F64) : List UInt8 := encodeBits d.bits

def decodeF64 : Decoder F64 := F64.mk <$> decodeBits

def encodeTimestamp (t : Timestamp) : List UInt8 := encodeI64 t.seconds ++ encodeU32 t.nanos

/-- The derived decoder does not check the fraction; no writer stores one out of range. -/
def decodeTimestamp : Decoder Timestamp := do
  let seconds ← decodeI64
  let nanos ← decodeU32
  if h : nanos < 1000000000 then pure ⟨seconds, nanos, h⟩ else fail (.other "timestamp")

def encodeStr (s : Str) : List UInt8 := encodeBytes s.bytes

def decodeStr : Decoder Str := do
  let bytes ← decodeBytes
  match Str.fromUtf8 bytes with
  | some s => pure s
  | none => fail .utf8

mutual

/-- The derived `Encode` of a value. -/
def encodeValue : Value → List UInt8
  | .null => encodeVarint variantNull
  | .boolean b => encodeVarint variantBoolean ++ encodeBool b
  | .integer i => encodeVarint variantInteger ++ encodeI64 i
  | .double d => encodeVarint variantDouble ++ encodeF64 d
  | .timestamp t => encodeVarint variantTimestamp ++ encodeTimestamp t
  | .string s => encodeVarint variantString ++ encodeStr s
  | .bytes b => encodeVarint variantBytes ++ encodeBytes b
  | .reference s => encodeVarint variantReference ++ encodeStr s
  | .geoPoint a b => encodeVarint variantGeoPoint ++ (encodeF64 a ++ encodeF64 b)
  | .array vs => encodeVarint variantArray ++ (encodeVarint vs.length ++ encodeValues vs)
  | .map fs => encodeVarint variantMap ++ (encodeVarint fs.length ++ encodeEntries fs)
  | .vector ds => encodeVarint variantVector ++ encodeList encodeF64 ds

def encodeValues : List Value → List UInt8
  | [] => []
  | v :: vs => encodeValue v ++ encodeValues vs

def encodeEntries : List (Str × Value) → List UInt8
  | [] => []
  | (k, v) :: fs => (encodeStr k ++ encodeValue v) ++ encodeEntries fs

end

/-- A `BTreeMap` decodes by inserting its entries one by one. -/
def collect (entries : List (Str × Value)) : List (Str × Value) :=
  entries.foldl (fun map entry => insert entry.1 entry.2 map) []

def decodeEntry (value : Decoder Value) : Decoder (Str × Value) := do
  let key ← decodeStr
  let v ← value
  pure (key, v)

/-- The derived `Decode` of a value, to the depth of the fuel. -/
def decodeValue : Nat → Decoder Value
  | 0 => fail (.other "depth")
  | fuel + 1 => do
    match ← decodeVarint 4 with
    | variantNull => pure .null
    | variantBoolean => boolean <$> decodeBool
    | variantInteger => integer <$> decodeI64
    | variantDouble => double <$> decodeF64
    | variantTimestamp => timestamp <$> decodeTimestamp
    | variantString => Value.string <$> decodeStr
    | variantBytes => Value.bytes <$> decodeBytes
    | variantReference => Value.reference <$> decodeStr
    | variantGeoPoint => do
      let latitude ← decodeF64
      let longitude ← decodeF64
      pure (.geoPoint latitude longitude)
    | variantArray => do
      let n ← length
      let values ← times n (decodeValue fuel)
      pure (.array values)
    | variantMap => do
      let n ← length
      let entries ← times n (decodeEntry (decodeValue fuel))
      pure (.map (collect entries))
    | variantVector => vector <$> decodeList decodeF64
    | variant => fail (.unexpectedVariant variant)

/-- The derived `Encode` of a document. -/
def encodeDocument (d : Document) : List UInt8 :=
  (encodeVarint d.fields.entries.length ++ encodeEntries d.fields.entries)
    ++ (encodeTimestamp d.createTime ++ encodeTimestamp d.updateTime)

/-- The field map of a document; maps decode in order, so the check never fails. -/
def decodeFields (fuel : Nat) : Decoder Fields := do
  let n ← length
  let entries ← times n (decodeEntry (decodeValue fuel))
  if h : (map (collect entries)).ordered = true then pure ⟨collect entries, h⟩
  else fail (.other "map order")

/-- The derived `Decode` of a document. -/
def decodeDocument (fuel : Nat) : Decoder Document := do
  let fields ← decodeFields fuel
  let createTime ← decodeTimestamp
  let updateTime ← decodeTimestamp
  pure ⟨fields, createTime, updateTime⟩

/-! ### Skipping -/

/-- `peek_read` and `consume`: unlike a read, the error names all of the bytes. -/
def peek (n : Nat) : Decoder (List UInt8) := fun input =>
  if n ≤ input.length then .ok (input.take n, input.drop n) else .error (.unexpectedEnd n)

def skipExact (n : Nat) : Decoder Unit := (fun _ => ()) <$> peek n

/-- Skips a length-prefixed string, byte string or reference. -/
def skipBytes : Decoder Unit := do
  let n ← length
  skipExact n

def skipEntry (value : Decoder Unit) : Decoder Unit := do
  skipBytes
  value

def skipValue : Nat → Decoder Unit
  | 0 => fail (.other "depth")
  | fuel + 1 => do
    match ← decodeVarint 4 with
    | variantNull => pure ()
    | variantBoolean => (fun _ => ()) <$> decodeBool
    | variantInteger => (fun _ => ()) <$> decodeI64
    | variantDouble => (fun _ => ()) <$> decodeF64
    | variantTimestamp => (fun _ => ()) <$> decodeTimestamp
    | variantString => skipBytes
    | variantBytes => skipBytes
    | variantReference => skipBytes
    | variantGeoPoint => do
      let _ ← decodeF64
      let _ ← decodeF64
      pure ()
    | variantArray => do
      let n ← length
      let _ ← times n (skipValue fuel)
      pure ()
    | variantMap => do
      let n ← length
      let _ ← times n (skipEntry (skipValue fuel))
      pure ()
    | variantVector => do
      let n ← length
      if n * 8 < 2 ^ 64 then skipExact (n * 8) else fail (.other "vector length overflows")
    | _ => fail (.other "unknown Value variant")

/-! ### Reading back what was written -/

theorem reads_f64 (d : F64) : Reads decodeF64 (encodeF64 d) d := (reads_bits d.bits).map F64.mk

theorem reads_timestamp (t : Timestamp) : Reads decodeTimestamp (encodeTimestamp t) t := by
  refine (reads_i64 t.seconds).bind ((reads_u32 t.nanos).bind_nil ?_)
  rw [dif_pos t.valid]
  exact .pure t

theorem reads_str {s : Str} (h : s.bytes.length < 2 ^ 64) : Reads decodeStr (encodeStr s) s := by
  refine (reads_bytes h).bind_nil ?_
  rw [Str.fromUtf8_bytes]
  exact .pure s

theorem collect_of_sorted {entries : List (Str × Value)} (h : Sorted entries) :
    collect entries = entries :=
  foldl_insert_of_sorted (s := []) h

theorem length_encodeValue_pos (v : Value) : 0 < (encodeValue v).length := by
  have hvar := length_encodeVarint_pos
  cases v with
  | null => exact hvar _
  | _ =>
    rw [encodeValue, length_append]
    exact Nat.add_pos_left (hvar _) _

theorem length_le_encodeValues (vs : List Value) : vs.length ≤ (encodeValues vs).length := by
  induction vs with
  | nil => simp
  | cons v vs ih =>
    have := length_encodeValue_pos v
    simp [encodeValues]
    omega

theorem length_le_encodeEntries (fs : List (Str × Value)) :
    fs.length ≤ (encodeEntries fs).length := by
  induction fs with
  | nil => simp
  | cons f fs ih =>
    obtain ⟨k, v⟩ := f
    have := length_encodeValue_pos v
    simp [encodeEntries]
    omega

theorem length_flatMap_encodeF64 (ds : List F64) :
    (ds.flatMap encodeF64).length = ds.length * 8 := by
  induction ds with
  | nil => rfl
  | cons d ds ih =>
    rw [flatMap_cons, length_append, encodeF64, encodeBits, length_leBytes, length_cons]
    omega

/-- What is in an encoding is shorter than the bound on it. -/
theorem length_lt_of_encoded {n m bound : Nat}
    (hf : (encodeVarint n ++ encodeBytes bs).length ≤ m) (hb : m < bound) : bs.length < bound := by
  have hlen := length_encodeBytes bs
  rw [length_append] at hf
  omega

/-- A collection behind its variant and its count. -/
theorem counted_fits {n count : Nat} (hcnt : count ≤ bs.length)
    (hf : (encodeVarint n ++ (encodeVarint count ++ bs)).length ≤ fuel + 1) :
    count ≤ fuel ∧ bs.length ≤ fuel := by
  have hpos := length_encodeVarint_pos n
  simp only [length_append] at hf
  omega

section

variable {α : Type} {r : Decoder α}

/-- Values in a row, each read on its own. -/
theorem reads_members {g : Value → α} {vs : List Value} (hf : (encodeValues vs).length ≤ fuel)
    (h : ∀ v ∈ vs, (encodeValue v).length ≤ fuel → Reads r (encodeValue v) (g v)) :
    Reads (times vs.length r) (encodeValues vs) (vs.map g) := by
  induction vs with
  | nil => exact .pure []
  | cons v vs ih =>
    simp only [encodeValues, length_append] at hf
    exact (h v mem_cons_self (by omega)).bind
      ((ih (by omega) fun w hw => h w (mem_cons_of_mem _ hw)).map (g v :: ·))

theorem reads_pairs {g : Str × Value → α} (hf : (encodeEntries fs).length ≤ fuel)
    (h : ∀ f ∈ fs, f.1.bytes.length < fuel → (encodeValue f.2).length ≤ fuel →
      Reads r (encodeStr f.1 ++ encodeValue f.2) (g f)) :
    Reads (times fs.length r) (encodeEntries fs) (fs.map g) := by
  induction fs with
  | nil => exact .pure []
  | cons f fs ih =>
    have hlen := length_encodeBytes f.1.bytes
    simp only [encodeEntries, encodeStr, length_append] at hf
    exact (h f mem_cons_self (by omega) (by omega)).bind
      ((ih (by omega) fun e he => h e (mem_cons_of_mem _ he)).map (g f :: ·))

end

theorem reads_decodeEntries (hf : (encodeEntries fs).length ≤ fuel) (hb : fuel < 2 ^ 64)
    (h : ∀ f ∈ fs, (encodeValue f.2).length ≤ fuel →
      Reads (decodeValue fuel) (encodeValue f.2) f.2) :
    Reads (times fs.length (decodeEntry (decodeValue fuel))) (encodeEntries fs) fs := by
  have key := reads_pairs (r := decodeEntry (decodeValue fuel)) (g := id) hf
    fun f hf hkey hlen => (reads_str (by omega)).bind ((h f hf hlen).map (Prod.mk f.1))
  rwa [List.map_id] at key

/-- A value is read back by a decoder whose fuel covers its encoding. -/
theorem reads_value : ∀ v, v.ordered = true → ∀ (fuel : Nat),
    (encodeValue v).length ≤ fuel → fuel < 2 ^ 64 → Reads (decodeValue fuel) (encodeValue v) v
  | v, hord, 0, hf, _ => by
    have := length_encodeValue_pos v
    omega
  | .null, _, fuel + 1, _, _ => (reads_index (by decide)).bind_nil (.pure null)
  | .boolean b, _, fuel + 1, _, _ => .variant rfl ((reads_bool b).map boolean)
  | .integer i, _, fuel + 1, _, _ => .variant rfl ((reads_i64 i).map integer)
  | .double d, _, fuel + 1, _, _ => .variant rfl ((reads_f64 d).map double)
  | .timestamp t, _, fuel + 1, _, _ => .variant rfl ((reads_timestamp t).map timestamp)
  | .string s, _, fuel + 1, hf, hb => .variant rfl ((reads_str (length_lt_of_encoded hf hb)).map string)
  | .bytes b, _, fuel + 1, hf, hb =>
    .variant rfl ((reads_bytes (length_lt_of_encoded hf hb)).map Value.bytes)
  | .reference s, _, fuel + 1, hf, hb =>
    .variant rfl ((reads_str (length_lt_of_encoded hf hb)).map reference)
  | .geoPoint a b, _, fuel + 1, _, _ =>
    .variant rfl ((reads_f64 a).bind ((reads_f64 b).map (geoPoint a)))
  | .array vs, hord, fuel + 1, hf, hb => by
    obtain ⟨hn, hf⟩ := counted_fits (length_le_encodeValues vs) hf
    have hmbs := reads_members (g := id) hf fun v hv hlen =>
      reads_value v ((orderedList_iff vs).mp hord v hv) fuel hlen (by omega)
    rw [List.map_id] at hmbs
    exact .variant rfl ((reads_length (by omega)).bind (hmbs.map array))
  | .map fs, hord, fuel + 1, hf, hb => by
    obtain ⟨hn, hf⟩ := counted_fits (length_le_encodeEntries fs) hf
    obtain ⟨hsrt, hord⟩ := (ordered_map_iff fs).mp hord
    have key := (reads_decodeEntries hf (by omega) fun f hf hlen =>
      reads_value f.2 (hord f hf) fuel hlen (by omega)).map fun entries => map (collect entries)
    rw [collect_of_sorted hsrt] at key
    exact .variant rfl ((reads_length (by omega)).bind key)
  | .vector ds, _, fuel + 1, hf, hb => by
    have hlen := length_flatMap_encodeF64 ds
    simp only [encodeValue, encodeList, length_append] at hf
    exact .variant rfl ((reads_list (by omega) fun d _ => reads_f64 d).map vector)

theorem reads_peek (bs : List UInt8) : Reads (peek bs.length) bs bs := by
  intro rest
  simp [peek]

theorem reads_skipBytes (h : bs.length < 2 ^ 64) : Reads skipBytes (encodeBytes bs) () :=
  (reads_length h).bind ((reads_peek bs).map fun _ => ())

/-- A skip passes over exactly one value. -/
theorem reads_skipValue : ∀ (v : Value) fuel, (encodeValue v).length ≤ fuel →
    fuel < 2 ^ 64 → Reads (skipValue fuel) (encodeValue v) ()
  | v, 0, hf, _ => by
    have := length_encodeValue_pos v
    omega
  | .null, fuel + 1, _, _ => (reads_index (by decide)).bind_nil (.pure ())
  | .boolean b, fuel + 1, _, _ => .variant rfl ((reads_bool b).map fun _ => ())
  | .integer i, fuel + 1, _, _ => .variant rfl ((reads_i64 i).map fun _ => ())
  | .double d, fuel + 1, _, _ => .variant rfl ((reads_f64 d).map fun _ => ())
  | .timestamp t, fuel + 1, _, _ => .variant rfl ((reads_timestamp t).map fun _ => ())
  | .string _, fuel + 1, hf, hb | .bytes _, fuel + 1, hf, hb | .reference _, fuel + 1, hf, hb =>
    .variant rfl (reads_skipBytes (length_lt_of_encoded hf hb))
  | .geoPoint a b, fuel + 1, _, _ => .variant rfl ((reads_f64 a).bind ((reads_f64 b).map fun _ => ()))
  | .array vs, fuel + 1, hf, hb => by
    obtain ⟨hn, hf⟩ := counted_fits (length_le_encodeValues vs) hf
    exact .variant rfl ((reads_length (by omega)).bind ((reads_members hf fun v _ hlen =>
      reads_skipValue v fuel hlen (by omega)).map fun _ => ()))
  | .map fs, fuel + 1, hf, hb => by
    obtain ⟨hn, hf⟩ := counted_fits (length_le_encodeEntries fs) hf
    exact .variant rfl ((reads_length (by omega)).bind ((reads_pairs (r := skipEntry (skipValue fuel))
      hf fun f _ hkey hlen => (reads_skipBytes (by omega)).bind
        (reads_skipValue f.2 fuel hlen (by omega))).map fun _ => ()))
  | .vector ds, fuel + 1, hf, hb => by
    have hlen := length_flatMap_encodeF64 ds
    simp only [encodeValue, encodeList, length_append] at hf
    refine .variant rfl ((reads_length (by omega)).bind ?_)
    rw [if_pos (by omega), ← hlen]
    exact (reads_peek _).map fun _ => ()

theorem reads_fields {f : Fields}
    (hf : (encodeVarint f.entries.length ++ encodeEntries f.entries).length ≤ fuel)
    (hb : fuel < 2 ^ 64) :
    Reads (decodeFields fuel) (encodeVarint f.entries.length ++ encodeEntries f.entries) f := by
  have hlen := length_le_encodeEntries f.entries
  rw [length_append] at hf
  have hord := ((ordered_map_iff f.entries).mp f.ordered).2
  refine (reads_length (by omega)).bind ((reads_decodeEntries (by omega) hb fun e he hlen =>
    reads_value e.2 (hord e he) fuel hlen hb).bind_nil ?_)
  simp only [collect_of_sorted f.sorted]
  rw [dif_pos f.ordered]
  exact .pure f

theorem reads_document (hf : (encodeDocument d).length ≤ fuel) (hb : fuel < 2 ^ 64) :
    Reads (decodeDocument fuel) (encodeDocument d) d := by
  rw [encodeDocument, length_append] at hf
  exact (reads_fields (by omega) hb).bind
    ((reads_timestamp d.createTime).bind ((reads_timestamp d.updateTime).map _))

/-! ### The stored layout -/

/-- The first byte of a stored document that carries a field directory. -/
def directoryMarker : UInt8 := 0xFF

/-- How many bytes of `total` have been read. -/
def consumed (total : Nat) : Decoder Nat := fun input => .ok (total - input.length, input)

/-- A length-prefixed field name. -/
def fieldKey : Decoder Str := do
  let keyLen ← length
  let key ← peek keyLen
  match Str.fromUtf8 key with
  | some key => pure key
  | none => fail (.other "field key is not UTF-8")

/-- The byte range of the field at the decoder. -/
def fieldRange (total : Nat) : Decoder (Str × Nat × Nat) := do
  let key ← fieldKey
  let start ← consumed total
  skipValue total
  let stop ← consumed total
  if start < 2 ^ 32 then
    if stop - start < 2 ^ 32 then pure (key, start, stop - start)
    else fail (.other "field exceeds 4 GiB")
  else fail (.other "document exceeds 4 GiB")

/-- `field_directory`: the byte ranges of every top-level field value inside a plain document. -/
def fieldDirectory (body : List UInt8) : Except Error (List (Str × Nat × Nat)) := do
  let (dir, _) ← (do let entries ← length; times entries (fieldRange body.length)) body
  return dir

def encodeDirectoryEntry (entry : Str × Nat × Nat) : List UInt8 :=
  encodeStr entry.1 ++ (encodeVarint entry.2.1 ++ encodeVarint entry.2.2)

/-- `encode_stored_document`: the marker, the directory, then the plain document. -/
def encodeStoredDocument (document : Document) : Except Error (List UInt8) := do
  let body ← toVec (encodeDocument document)
  let dir ← fieldDirectory body
  let dir ← toVec (encodeList encodeDirectoryEntry dir)
  toVec (directoryMarker :: (dir ++ body))

def skipDirectoryEntry : Decoder Unit := do
  skipBytes
  let _ ← decodeVarint 4
  let _ ← decodeVarint 4
  pure ()

def skipDirectory : Decoder Unit := do
  let entries ← length
  let _ ← times entries skipDirectoryEntry
  pure ()

/-- `document_body`: the plain document inside a stored value. -/
def documentBody (bytes : List UInt8) : Except Error (List UInt8) :=
  match bytes with
  | marker :: rest =>
    if marker ≠ directoryMarker then .ok bytes
    else do
      let (_, body) ← skipDirectory rest
      return body
  | [] => .ok []

/-- `decode_stored_document`: either layout. -/
def decodeStoredDocument (bytes : List UInt8) : Except Error Document := do
  let body ← documentBody bytes
  (decodeDocument body.length).whole (.other "trailing bytes after encoded document") body

/-- A top-level field as the field index needs it: an array or a map only by its emptiness. -/
inductive StoredField where
  | value (v : Value)
  | array (empty : Bool)
  | map (empty : Bool)
  deriving DecidableEq

def StoredField.of : Value → StoredField
  | .array values => .array values.isEmpty
  | .map fields => .map fields.isEmpty
  | v => .value v

/-- `bytes.get(start..stop)`. -/
def slice (bytes : List UInt8) (start stop : Nat) : Option (List UInt8) :=
  if start ≤ stop ∧ stop ≤ bytes.length then some ((bytes.drop start).take (stop - start)) else none

def directoryEntry : Decoder (Str × Nat × Nat) := do
  let key ← fieldKey
  let offset ← decodeVarint 4
  let len ← decodeVarint 4
  pure (key, offset, len)

/-- The field a directory entry points at, decoded as far as the index needs. -/
def storedField (bytes : List UInt8) (bodyStart : Nat) (entry : Str × Nat × Nat) :
    Except Error (Str × StoredField) := do
  -- Offsets and lengths are 32-bit and the value fits memory, so these sums do not overflow.
  let start := bodyStart + entry.2.1
  match slice bytes start (start + entry.2.2) with
  | none => .error (.unexpectedEnd entry.2.2)
  | some value =>
    let (variant, rest) ← decodeVarint 4 value
    match variant with
    | variantArray => do
      let (n, _) ← length rest
      return (entry.1, .array (n == 0))
    | variantMap => do
      let (n, _) ← length rest
      return (entry.1, .map (n == 0))
    | _ => do
      let (v, _) ← decodeValue value.length value
      return (entry.1, .value v)

/-- `stored_index_fields`: every top-level field of a stored value. -/
def storedIndexFields (bytes : List UInt8) : Except Error (List (Str × StoredField)) :=
  match bytes with
  | marker :: tail =>
    if marker ≠ directoryMarker then do
      let document ← decodeStoredDocument bytes
      return document.fields.entries.map fun (field, v) => (field, StoredField.of v)
    else do
      let (dir, rest) ← decodeList directoryEntry tail
      dir.mapM (storedField bytes (1 + (tail.length - rest.length)))
  | [] => do
    let document ← decodeStoredDocument []
    return document.fields.entries.map fun (field, v) => (field, StoredField.of v)

/-! ### What the directory points at -/

/-- The byte ranges of fields whose encoding starts at `start`. -/
def directoryAt : Nat → List (Str × Value) → List (Str × Nat × Nat)
  | _, [] => []
  | start, (k, v) :: fs =>
    (k, start + (encodeStr k).length, (encodeValue v).length)
      :: directoryAt (start + (encodeStr k).length + (encodeValue v).length) fs

theorem reads_fieldKey (h : k.bytes.length < 2 ^ 64) : Reads fieldKey (encodeStr k) k := by
  refine (reads_length h).bind ((reads_peek k.bytes).bind_nil ?_)
  rw [Str.fromUtf8_bytes]
  exact .pure k

/-- One field's range, with `rest` after it and `start` bytes before. -/
theorem fieldRange_run (k : Str) (v : Value) (rest : List UInt8)
    (h : start + (encodeStr k ++ (encodeValue v ++ rest)).length = total) (hb : total < 2 ^ 64) :
    fieldRange total (encodeStr k ++ (encodeValue v ++ rest))
      = if start + (encodeStr k).length < 2 ^ 32 then
          if (encodeValue v).length < 2 ^ 32 then
            .ok ((k, start + (encodeStr k).length, (encodeValue v).length), rest)
          else .error (.other "field exceeds 4 GiB")
        else .error (.other "document exceeds 4 GiB") := by
  have hlen := length_encodeBytes k.bytes
  simp only [encodeStr, length_append] at h
  have hkey := reads_fieldKey (k := k) (by omega)
  have hsk := reads_skipValue v total (by omega) hb
  have hpos : total - (encodeValue v ++ rest).length = start + (encodeStr k).length := by
    simp only [encodeStr, length_append]
    omega
  have hsp : total - rest.length - (start + (encodeStr k).length) = (encodeValue v).length := by
    simp only [encodeStr]
    omega
  unfold fieldRange
  rw [hkey.bind_run]
  have hbeg : ∀ (f : Nat → Decoder (Str × Nat × Nat)) (input : List UInt8),
      (consumed total >>= f) input = f (total - input.length) input := fun _ _ => rfl
  rw [hbeg, hsk.bind_run, hbeg]
  simp only [hpos, hsp]
  split
  · split <;> rfl
  · rfl

section

variable {rest : List UInt8}

theorem times_fieldRange (start : Nat) (htot : start + (encodeEntries fs ++ rest).length = total)
    (hb : total < 2 ^ 64)
    (h : times fs.length (fieldRange total) (encodeEntries fs ++ rest) = .ok (dir, tail)) :
    dir = directoryAt start fs ∧ ∀ e ∈ directoryAt start fs, e.2.1 < 2 ^ 32 ∧ e.2.2 < 2 ^ 32 := by
  induction fs generalizing start dir with
  | nil =>
    cases h
    exact ⟨rfl, by simp [directoryAt]⟩
  | cons f fs ih =>
    obtain ⟨k, v⟩ := f
    obtain ⟨a, mid, ha, h⟩ := bind_eq_ok.mp h
    obtain ⟨as, end', has, h⟩ := bind_eq_ok.mp h
    cases h
    simp only [encodeEntries, append_assoc] at htot ha
    rw [fieldRange_run k v _ htot hb] at ha
    split at ha
    · split at ha
      · next hbeg hsp =>
        cases ha
        obtain ⟨rfl, hbd⟩ := ih (start + (encodeStr k).length
          + (encodeValue v).length) (by simp only [length_append] at *; omega) has
        refine ⟨rfl, fun e he => ?_⟩
        rcases mem_cons.mp he with rfl | he
        · exact ⟨hbeg, hsp⟩
        · exact hbd e he
      · cases ha
    · cases ha

/-- A document below 4 GiB has a directory. -/
theorem times_fieldRange_returns (start : Nat)
    (htot : start + (encodeEntries fs ++ rest).length = total) (hb : total < 2 ^ 32) :
    times fs.length (fieldRange total) (encodeEntries fs ++ rest)
      = .ok (directoryAt start fs, rest) := by
  induction fs generalizing start with
  | nil => rfl
  | cons f fs ih =>
    obtain ⟨k, v⟩ := f
    simp only [encodeEntries, append_assoc] at htot ⊢
    have hrun := fieldRange_run k v _ htot (by omega)
    simp only [length_append] at htot
    rw [if_pos (by omega), if_pos (by omega)] at hrun
    have htl := ih (start + (encodeStr k).length + (encodeValue v).length)
      (by simp only [length_append]; omega)
    refine bind_eq_ok.mpr ⟨_, _, hrun, ?_⟩
    exact bind_eq_ok.mpr ⟨_, _, htl, rfl⟩

end

/-- Where the fields of a document's encoding start. -/
def fieldsStart (d : Document) : Nat := (encodeVarint d.fields.entries.length).length

theorem fieldCount_read (d : Document) (h : (encodeDocument d).length < 2 ^ 64) :
    fieldsStart d + (encodeEntries d.fields.entries ++ (encodeTimestamp d.createTime
        ++ encodeTimestamp d.updateTime)).length = (encodeDocument d).length
      ∧ Reads length (encodeVarint d.fields.entries.length) d.fields.entries.length := by
  have hcnt := length_le_encodeEntries d.fields.entries
  simp only [encodeDocument, fieldsStart, length_append] at h ⊢
  exact ⟨by omega, reads_length (by omega)⟩

/-- **What is stored for a document**: its directory points at each field's encoding. -/
theorem encodeStoredDocument_eq_ok (h : encodeStoredDocument d = .ok bytes) :
    bytes = directoryMarker :: (encodeList encodeDirectoryEntry
        (directoryAt (fieldsStart d) d.fields.entries) ++ encodeDocument d)
      ∧ bytes.length < 2 ^ 63
      ∧ ∀ e ∈ directoryAt (fieldsStart d) d.fields.entries, e.2.1 < 2 ^ 32 ∧ e.2.2 < 2 ^ 32 := by
  simp only [encodeStoredDocument, Fallible.bind_eq_ok, toVec_eq_ok] at h
  obtain ⟨body, ⟨hlen, rfl⟩, dir, hdir, encoded, ⟨-, rfl⟩, hbyt, rfl⟩ := h
  simp only [fieldDirectory, Fallible.bind_eq_ok, Prod.exists] at hdir
  obtain ⟨dir', tail, hrun, hdir⟩ := hdir
  cases hdir
  obtain ⟨hsz, hrd⟩ := fieldCount_read d (by omega)
  nth_rewrite 2 [encodeDocument] at hrun
  rw [append_assoc, hrd.bind_run] at hrun
  obtain ⟨rfl, hbd⟩ := times_fieldRange (fieldsStart d) hsz (by omega) hrun
  exact ⟨rfl, hbyt, hbd⟩

theorem length_encodeDirectoryEntry_le (start : Nat) (fs : List (Str × Value)) :
    ((directoryAt start fs).flatMap encodeDirectoryEntry).length ≤ 19 * (encodeEntries fs).length :=
      by
  induction fs generalizing start with
  | nil => exact Nat.zero_le _
  | cons f fs ih =>
    obtain ⟨k, v⟩ := f
    have hrs := ih (start + (encodeStr k).length + (encodeValue v).length)
    have hkey := length_encodeBytes k.bytes
    have hbeg := length_encodeVarint_le (start + (encodeStr k).length)
    have hsp := length_encodeVarint_le (encodeValue v).length
    simp only [directoryAt, flatMap_cons, length_append, encodeEntries,
      encodeDirectoryEntry, encodeStr] at *
    omega

/-- A document below 4 GiB can be stored. -/
theorem encodeStoredDocument_returns (h : (encodeDocument d).length < 2 ^ 32) :
    ∃ bytes, encodeStoredDocument d = .ok bytes := by
  obtain ⟨hsz, hrd⟩ := fieldCount_read d (by omega)
  have hdr : fieldDirectory (encodeDocument d)
      = .ok (directoryAt (fieldsStart d) d.fields.entries) := by
    have hrun := hrd.bind_run (fun n => times n (fieldRange (encodeDocument d).length))
      (encodeEntries d.fields.entries ++ (encodeTimestamp d.createTime
        ++ encodeTimestamp d.updateTime))
    rw [times_fieldRange_returns (fieldsStart d) hsz h] at hrun
    refine bind_eq_ok.mpr ⟨(directoryAt (fieldsStart d) d.fields.entries,
      encodeTimestamp d.createTime ++ encodeTimestamp d.updateTime), ?_, rfl⟩
    nth_rewrite 2 [encodeDocument]
    rw [append_assoc]
    exact hrun
  have hen := length_encodeDirectoryEntry_le (fieldsStart d) d.fields.entries
  have hlen := length_encodeVarint_le (directoryAt (fieldsStart d) d.fields.entries).length
  simp only [length_append] at hsz
  refine ⟨_, bind_eq_ok.mpr ⟨_, toVec_eq_ok.mpr ⟨by omega, rfl⟩,
    bind_eq_ok.mpr ⟨_, hdr, bind_eq_ok.mpr ⟨_, toVec_eq_ok.mpr ⟨?_, rfl⟩,
      toVec_eq_ok.mpr ⟨?_, rfl⟩⟩⟩⟩⟩
  · simp only [encodeList, length_append]
    omega
  · simp only [encodeList, length_cons, length_append]
    omega

/-- The names of a stored document's fields are below 4 GiB. -/
theorem length_fieldName_lt (h : encodeStoredDocument d = .ok bytes) :
    ∀ f ∈ d.fields.entries, f.1.bytes.length < 2 ^ 32 := by
  obtain ⟨-, -, hbd⟩ := encodeStoredDocument_eq_ok h
  generalize fieldsStart d = start at hbd
  generalize d.fields.entries = fs at hbd
  induction fs generalizing start with
  | nil => exact fun f hf => absurd hf not_mem_nil
  | cons f fs ih =>
    obtain ⟨k, v⟩ := f
    intro g hg
    rcases mem_cons.mp hg with rfl | hg
    · -- the name lies before its value
      have hkey := length_encodeBytes k.bytes
      have hbeg := (hbd _ mem_cons_self).1
      simp only [encodeStr] at hbeg ⊢
      omega
    · exact ih _ (fun e he => hbd e (mem_cons_of_mem _ he)) g hg

/-! ### The readers agree with the document -/

theorem mem_directoryAt {e : Str × Nat × Nat} (h : e ∈ directoryAt start fs) :
    (encodeStr e.1).length ≤ (encodeEntries fs).length := by
  induction fs generalizing start with
  | nil => simp [directoryAt] at h
  | cons f fs ih =>
    simp only [encodeEntries, length_append]
    rcases mem_cons.mp h with rfl | h
    · simp only
      omega
    · have := ih h
      omega

theorem length_directoryAt (start : Nat) (fs : List (Str × Value)) :
    (directoryAt start fs).length = fs.length := by
  induction fs generalizing start with
  | nil => rfl
  | cons f fs ih => simp [directoryAt, ih]

/-- A stored document in parts: the sizes every reader relies on. -/
theorem stored_bounds (h : encodeStoredDocument d = .ok bytes) :
    (encodeDocument d).length < 2 ^ 63 ∧ d.fields.entries.length < 2 ^ 63
      ∧ ∀ e ∈ directoryAt (fieldsStart d) d.fields.entries, e.1.bytes.length < 2 ^ 63 := by
  obtain ⟨rfl, hlen, -⟩ := encodeStoredDocument_eq_ok h
  have hcnt := length_le_encodeEntries d.fields.entries
  simp only [length_cons, length_append, encodeDocument] at hlen ⊢
  refine ⟨by omega, by omega, fun e he => ?_⟩
  have hkey := mem_directoryAt he
  have := length_encodeBytes e.1.bytes
  rw [encodeStr] at hkey
  omega

/-- The body of a stored document is the plain document. -/
theorem documentBody_encode (h : encodeStoredDocument d = .ok bytes) :
    documentBody bytes = .ok (encodeDocument d) := by
  obtain ⟨-, hcnt, hky⟩ := stored_bounds h
  obtain ⟨rfl, hlen, hbd⟩ := encodeStoredDocument_eq_ok h
  have hent : ∀ e ∈ directoryAt (fieldsStart d) d.fields.entries,
      Reads skipDirectoryEntry (encodeDirectoryEntry e) () := fun e he =>
    (reads_skipBytes (by have := hky e he; omega)).bind
      ((reads_index (hbd e he).1).bind ((reads_index (hbd e he).2).map fun _ => ()))
  have hsk : Reads skipDirectory (encodeList encodeDirectoryEntry
      (directoryAt (fieldsStart d) d.fields.entries)) () :=
    (reads_length (by rw [length_directoryAt]; omega)).bind
      ((Reads.times_map (g := fun _ => ()) hent).map fun _ => ())
  have hrun := hsk (encodeDocument d)
  unfold documentBody
  simp only [ne_eq, not_true, if_false, hrun]
  rfl

/-- **A stored document decodes to itself.** -/
theorem decodeStoredDocument_encode (h : encodeStoredDocument d = .ok bytes) :
    decodeStoredDocument bytes = .ok d := by
  obtain ⟨hbd, -, -⟩ := stored_bounds h
  have hrd := reads_document (d := d) (le_refl _) (by omega)
  rw [decodeStoredDocument, documentBody_encode h]
  exact hrd.whole _

theorem slice_append (pre mid post : List UInt8) :
    slice (pre ++ (mid ++ post)) pre.length (pre.length + mid.length) = some mid := by
  unfold slice
  simp

/-- A directory entry's field, where the directory points at the field's encoding. -/
theorem storedField_run (hord : v.ordered = true) {offset : Nat}
    (hpre : pre.length = bodyStart + offset) (hlen : (encodeValue v).length < 2 ^ 64) :
    storedField (pre ++ (encodeValue v ++ post)) bodyStart (k, offset, (encodeValue v).length)
      = .ok (k, StoredField.of v) := by
  have hval : decodeValue (encodeValue v).length (encodeValue v) = .ok (v, []) := by
    have key := reads_value v hord _ (le_refl _) hlen []
    rwa [append_nil] at key
  simp only [storedField, ← hpre, slice_append]
  cases v with
  | array vs =>
    have hcnt := length_le_encodeValues vs
    simp only [encodeValue, length_append] at hlen ⊢
    rw [reads_index (n := variantArray) (by decide)]
    simp only [ok_bind, reads_length (n := vs.length) (by omega) _]
    cases vs <;> rfl
  | map fs =>
    have hcnt := length_le_encodeEntries fs
    simp only [encodeValue, length_append] at hlen ⊢
    rw [reads_index (n := variantMap) (by decide)]
    simp only [ok_bind, reads_length (n := fs.length) (by omega) _]
    cases fs <;> rfl
  | null =>
    rfl
  | _ =>
    rw [hval]
    rfl

theorem split_encodeEntries (h : bytes = pre ++ (encodeEntries ((k, v) :: fs) ++ post)) :
    bytes = (pre ++ encodeStr k) ++ (encodeValue v ++ (encodeEntries fs ++ post))
      ∧ bytes = (pre ++ encodeStr k ++ encodeValue v) ++ (encodeEntries fs ++ post) := by
  simp [h, encodeEntries]

theorem mapM_storedField (hord : orderedFields fs = true) (pre post : List UInt8)
    (hbyt : bytes = pre ++ (encodeEntries fs ++ post)) (hlen : bytes.length < 2 ^ 64)
    (hpre : pre.length = bodyStart + start) :
    (directoryAt start fs).mapM (storedField bytes bodyStart)
      = .ok (fs.map fun f => (f.1, StoredField.of f.2)) := by
  induction fs generalizing pre start with
  | nil => rfl
  | cons f fs ih =>
    obtain ⟨k, v⟩ := f
    rw [orderedFields, Bool.and_eq_true] at hord
    obtain ⟨hhd, htl⟩ := split_encodeEntries hbyt
    have hfld : storedField bytes bodyStart
        (k, start + (encodeStr k).length, (encodeValue v).length) = .ok (k, StoredField.of v) := by
      rw [hhd]
      refine storedField_run hord.1 (by rw [length_append, hpre]; omega) ?_
      rw [hhd] at hlen
      simp only [length_append] at hlen
      omega
    rw [directoryAt, mapM_cons, hfld, ih hord.2 _ htl (by simp only [length_append, hpre]; omega)]
    rfl

theorem reads_directory (h : encodeStoredDocument d = .ok bytes) :
    Reads (decodeList directoryEntry) (encodeList encodeDirectoryEntry
      (directoryAt (fieldsStart d) d.fields.entries))
      (directoryAt (fieldsStart d) d.fields.entries) := by
  obtain ⟨-, hcnt, hky⟩ := stored_bounds h
  obtain ⟨-, -, hbd⟩ := encodeStoredDocument_eq_ok h
  refine reads_list (by rw [length_directoryAt]; omega) fun e he => ?_
  exact (reads_fieldKey (by have := hky e he; omega)).bind
    ((reads_index (hbd e he).1).bind ((reads_index (hbd e he).2).map _))

/-- **The field index reads a stored document as the document.** -/
theorem storedIndexFields_encode (h : encodeStoredDocument d = .ok bytes) :
    storedIndexFields bytes = .ok (d.fields.entries.map fun f => (f.1, StoredField.of f.2)) := by
  have hrd := reads_directory h (encodeDocument d)
  obtain ⟨hbyt, hlen, -⟩ := encodeStoredDocument_eq_ok h
  have hord := d.fields.ordered
  rw [ordered, Bool.and_eq_true] at hord
  rw [hbyt]
  simp only [storedIndexFields, ne_eq, not_true, if_false, hrd, ok_bind]
  rw [← hbyt]
  refine mapM_storedField hord.2 (directoryMarker :: (encodeList encodeDirectoryEntry
      (directoryAt (fieldsStart d) d.fields.entries) ++ encodeVarint d.fields.entries.length))
    (encodeTimestamp d.createTime ++ encodeTimestamp d.updateTime) ?_ (by omega) ?_
  · rw [hbyt, encodeDocument]
    simp
  · simp only [length_cons, length_append, fieldsStart]
    omega

/-! ### One field -/

/-- Walks map entries for `target` and stops before its value, or past where it would be. -/
def scanMap (fuel : Nat) (target : List UInt8) : Nat → Decoder Bool
  | 0 => pure false
  | entries + 1 => do
    let keyLen ← length
    let key ← peek keyLen
    match compare key target with
    | .lt => do
      skipValue fuel
      scanMap fuel target entries
    | .eq => pure true
    | .gt => pure false

def findInMap (fuel : Nat) : Nat → Str → List Str → Decoder (Option Value)
  | entries, target, [] => do
    if ← scanMap fuel target.bytes entries then some <$> decodeValue fuel else pure none
  | entries, target, next :: rest => do
    if ← scanMap fuel target.bytes entries then
      let variant ← decodeVarint 4
      if variant ≠ variantMap then pure none
      else
        let entries ← length
        findInMap fuel entries next rest
    else pure none

/-- One step of `directory_lookup`: the last entry of that name wins. -/
def lookupEntry (target : List UInt8) (found : Option (Nat × Nat)) :
    Decoder (Option (Nat × Nat)) := do
  let keyLen ← length
  let key ← peek keyLen
  let offset ← decodeVarint 4
  let len ← decodeVarint 4
  pure (if key = target then some (offset, len) else found)

def lookupEntries (target : List UInt8) :
    Nat → Option (Nat × Nat) → Decoder (Option (Nat × Nat))
  | 0, found => pure found
  | entries + 1, found => do
    let found ← lookupEntry target found
    lookupEntries target entries found

/-- `directory_lookup`: a field's encoded bytes. -/
def directoryLookup (bytes tail : List UInt8) (target : Str) :
    Except Error (Option (List UInt8)) := do
  let (found, rest) ← (do
    let entries ← length
    lookupEntries target.bytes entries none) tail
  match found with
  | none => return none
  | some (offset, len) =>
    let start := 1 + (tail.length - rest.length) + offset
    match slice bytes start (start + len) with
    | some value => return some value
    | none => .error (.unexpectedEnd len)

/-- `find_field`: decodes only the value at a path. -/
def findField (bytes : List UInt8) : List Str → Except Error (Option Value)
  | [] => return none
  | first :: rest =>
    match bytes with
    | marker :: tail =>
      if marker = directoryMarker then do
        match ← directoryLookup bytes tail first with
        | none => return none
        | some value =>
          match rest with
          | [] => do
            let (v, _) ← decodeValue value.length value
            return some v
          | next :: rest => do
            let (variant, input) ← decodeVarint 4 value
            if variant ≠ variantMap then return none
            else
              let (entries, input) ← length input
              let (found, _) ← findInMap value.length entries next rest input
              return found
      else do
        let (found, _) ← (do
          let entries ← length
          findInMap bytes.length entries first rest) bytes
        return found
    | [] => do
      let (found, _) ← (do
        let entries ← length
        findInMap 0 entries first rest) []
      return found

theorem eq_map_of_asMap (h : asMap v = some fs) : v = .map fs := by
  cases v <;> cases h
  rfl

/-- The variant of a value that is not a map. -/
theorem encodeValue_of_asMap_none (h : asMap v = none) :
    ∃ n rest, encodeValue v = encodeVarint n ++ rest ∧ n < 2 ^ 32 ∧ n ≠ variantMap := by
  cases v with
  | null => exact ⟨variantNull, [], (append_nil _).symm, by decide, by decide⟩
  | map fs => cases h
  | _ => exact ⟨_, _, rfl, by decide, by decide⟩

/-- A scan stops before the value of its key, when there is one. -/
theorem scanMap_run (hsrt : Sorted fs) (hf : (encodeEntries fs).length ≤ fuel)
    (hb : fuel < 2 ^ 64) (target : Str) (tail : List UInt8) :
    ∃ post, scanMap fuel target.bytes fs.length (encodeEntries fs ++ tail)
      = .ok ((get target fs).isSome, ((get target fs).map encodeValue).getD [] ++ post) := by
  induction fs with
  | nil => exact ⟨_, rfl⟩
  | cons f fs ih =>
    obtain ⟨k, v⟩ := f
    have hlen := length_encodeBytes k.bytes
    simp only [encodeEntries, encodeStr, length_append] at hf
    have hsk := reads_skipValue v fuel (by omega) hb
    have hst : scanMap fuel target.bytes ((k, v) :: fs).length
        (encodeEntries ((k, v) :: fs) ++ tail)
        = (match compare k.bytes target.bytes with
          | .lt => do
            skipValue fuel
            scanMap fuel target.bytes fs.length
          | .eq => pure true
          | .gt => pure false) (encodeValue v ++ (encodeEntries fs ++ tail)) := by
      rw [encodeEntries, encodeStr, encodeBytes, length_cons, scanMap]
      simp only [append_assoc]
      rw [(reads_length (n := k.bytes.length) (by omega)).bind_run, (reads_peek k.bytes).bind_run]
    rw [hst, Assoc.get]
    cases hc : compare k.bytes target.bytes with
    | lt =>
      have hgt : compare target k = .gt := Std.OrientedCmp.gt_of_lt hc
      simp only [hgt, hsk.bind_run, reduceCtorEq, if_false]
      exact ih hsrt.tail (by omega)
    | eq =>
      have heq : compare target k = .eq := Std.OrientedCmp.eq_symm hc
      simp only [heq, if_true]
      exact ⟨_, rfl⟩
    | gt =>
      have hlt : compare target k = .lt := Std.OrientedCmp.lt_of_gt hc
      have hnn : get target fs = none :=
        get_below hsrt (by rw [hlt]; rfl)
      simp only [hlt, reduceCtorEq, if_false, hnn]
      exact ⟨_, rfl⟩

theorem length_le_of_get {key : Str} (h : get key fs = some v) :
    (encodeValue v).length ≤ (encodeEntries fs).length := by
  induction fs with
  | nil => cases h
  | cons f fs ih =>
    simp only [encodeEntries, length_append]
    rw [Assoc.get] at h
    split at h
    · cases h
      omega
    · have := ih h
      omega

/-- The walk over nested maps finds what the document holds. -/
theorem findInMap_run (hord : (map fs).ordered = true) (fuel : Nat)
    (hf : (encodeEntries fs).length ≤ fuel) (hb : fuel < 2 ^ 64) (target : Str) (rest : List Str)
    (tail : List UInt8) :
    ∃ post, findInMap fuel fs.length target rest (encodeEntries fs ++ tail)
      = .ok (nestedValue fs (target :: rest), post) := by
  induction rest generalizing fs target tail with
  | nil =>
    rw [ordered, Bool.and_eq_true, decide_eq_true_eq] at hord
    obtain ⟨post, hsc⟩ := scanMap_run hord.1 hf hb target tail
    refine ⟨post, bind_eq_ok.mpr ⟨_, _, hsc, ?_⟩⟩
    cases hg : get target fs with
    | none => simp [nestedValue, hg]; rfl
    | some v =>
      have hlen := length_le_of_get hg
      have hrd := (reads_value v (ordered_of_get hord.2 hg) fuel (by omega) hb).map some post
      simpa [nestedValue, hg] using hrd
  | cons next rest ih =>
    rw [ordered, Bool.and_eq_true, decide_eq_true_eq] at hord
    obtain ⟨post, hsc⟩ := scanMap_run hord.1 hf hb target tail
    rw [nestedValue]
    cases hg : get target fs with
    | none =>
      rw [hg] at hsc
      exact ⟨post, bind_eq_ok.mpr ⟨false, post, hsc, rfl⟩⟩
    | some v =>
      rw [hg] at hsc
      have hlen := length_le_of_get hg
      cases hm : asMap v with
      | none =>
        obtain ⟨n, r, henc, hn, hne⟩ := encodeValue_of_asMap_none hm
        refine ⟨r ++ post, bind_eq_ok.mpr ⟨true, _, hsc, ?_⟩⟩
        rw [map_some, getD_some, henc, append_assoc, if_pos rfl, (reads_index hn).bind_run,
          if_pos hne]
        simp [hm]
        rfl
      | some gs =>
        obtain rfl := eq_map_of_asMap hm
        have hcnt := length_le_encodeEntries gs
        simp only [encodeValue, length_append] at hlen
        obtain ⟨post', hfn⟩ := ih (ordered_of_get hord.2 hg) (by omega) next post
        refine ⟨post', bind_eq_ok.mpr ⟨true, _, hsc, ?_⟩⟩
        rw [map_some, getD_some, encodeValue, append_assoc, append_assoc, if_pos rfl,
          (reads_index (n := variantMap) (by decide)).bind_run, if_neg (by simp),
          (reads_length (n := gs.length) (by omega)).bind_run]
        exact hfn

/-- A lookup in the directory finds the encoding of the field's value. -/
theorem lookup_directoryAt (hsrt : Sorted fs) (pre post : List UInt8)
    (bodyStart start : Nat) (hbyt : bytes = pre ++ (encodeEntries fs ++ post))
    (hpre : pre.length = bodyStart + start) (target : Str) (found : Option (Nat × Nat)) :
    let result := (directoryAt start fs).foldl
      (fun found e => if e.1.bytes = target.bytes then some e.2 else found) found
    match get target fs with
    | none => result = found
    | some v => ∃ offset, result = some (offset, (encodeValue v).length)
        ∧ slice bytes (bodyStart + offset) (bodyStart + offset + (encodeValue v).length)
          = some (encodeValue v) := by
  induction fs generalizing pre start found with
  | nil => rfl
  | cons f fs ih =>
    obtain ⟨k, v⟩ := f
    obtain ⟨hhd, htl⟩ := split_encodeEntries hbyt
    have key := ih hsrt.tail _ (start + (encodeStr k).length + (encodeValue v).length) htl
      (by simp only [length_append, hpre]; omega)
    have hiff : k.bytes = target.bytes ↔ compare target k = .eq := by
      rw [Str.compare_def, Std.LawfulEqCmp.compare_eq_iff_eq]
      exact eq_comm
    simp only [directoryAt, foldl_cons, Assoc.get]
    by_cases hk : compare target k = .eq
    · have hnn : get target fs = none :=
        Assoc.get_below hsrt (by rw [hk]; rfl)
      rw [if_pos (hiff.mpr hk), if_pos hk]
      have hlast := key (some (start + (encodeStr k).length, (encodeValue v).length))
      simp only [hnn] at hlast
      refine ⟨start + (encodeStr k).length, hlast, ?_⟩
      have hat : bodyStart + (start + (encodeStr k).length) = (pre ++ encodeStr k).length := by
        rw [length_append]
        omega
      rw [hat, hhd]
      exact slice_append _ _ _
    · rw [if_neg (mt hiff.mp hk), if_neg hk]
      exact key found

theorem lookupEntries_run {target : Str}
    (h : ∀ e ∈ dir, e.1.bytes.length < 2 ^ 63 ∧ e.2.1 < 2 ^ 32 ∧ e.2.2 < 2 ^ 32)
    (found : Option (Nat × Nat)) :
    Reads (lookupEntries target.bytes dir.length found)
      (dir.flatMap encodeDirectoryEntry) (dir.foldl
        (fun found e => if e.1.bytes = target.bytes then some e.2 else found) found) := by
  induction dir generalizing found with
  | nil => exact .pure found
  | cons e dir ih =>
    obtain ⟨hkey, hoff, hlen⟩ := h e mem_cons_self
    have hent : Reads (lookupEntry target.bytes found) (encodeDirectoryEntry e)
        (if e.1.bytes = target.bytes then some e.2 else found) := by
      have hbyt : encodeDirectoryEntry e = encodeVarint e.1.bytes.length ++ (e.1.bytes
          ++ (encodeVarint e.2.1 ++ encodeVarint e.2.2)) := by
        simp [encodeDirectoryEntry, encodeStr, encodeBytes]
      rw [hbyt]
      exact (reads_length (by omega)).bind ((reads_peek e.1.bytes).bind
        ((reads_index hoff).bind ((reads_index hlen).map _)))
    exact hent.bind (ih (fun e he => h e (mem_cons_of_mem _ he)) _)

/-- The encoded value of a top-level field of a stored document. -/
theorem directoryLookup_encode (h : encodeStoredDocument d = .ok (directoryMarker :: tail))
    (target : Str) :
    directoryLookup (directoryMarker :: tail) tail target
      = .ok ((get target d.fields.entries).map encodeValue) := by
  obtain ⟨-, hcnt, hky⟩ := stored_bounds h
  obtain ⟨hbyt, hlen, hbd⟩ := encodeStoredDocument_eq_ok h
  have htl := (cons.inj hbyt).2
  have hrd := ((reads_length (n := (directoryAt (fieldsStart d) d.fields.entries).length)
    (by rw [length_directoryAt]; omega)).bind (f := fun entries => lookupEntries target.bytes entries
      none) (lookupEntries_run (fun e he => ⟨hky e he, hbd e he⟩) none)) (encodeDocument d)
  have hpts : directoryMarker :: tail = directoryMarker :: (encodeList encodeDirectoryEntry
      (directoryAt (fieldsStart d) d.fields.entries) ++ encodeVarint d.fields.entries.length)
        ++ (encodeEntries d.fields.entries
          ++ (encodeTimestamp d.createTime ++ encodeTimestamp d.updateTime)) := by
    rw [htl, encodeDocument]
    simp
  have hlk := lookup_directoryAt d.fields.sorted _ _
    (1 + (tail.length - (encodeDocument d).length)) (fieldsStart d) hpts
    (by
      simp only [htl, length_cons, length_append, fieldsStart]
      omega) target none
  simp only [directoryLookup]
  nth_rewrite 1 [htl]
  rw [encodeList, hrd, ok_bind]
  cases hg : get target d.fields.entries with
  | none =>
    simp only [hg] at hlk
    simp only [hlk]
    rfl
  | some v =>
    simp only [hg] at hlk
    obtain ⟨offset, hres, hslc⟩ := hlk
    simp only [hres, hslc]
    rfl

/-- **Reading one field agrees with the document.** -/
theorem findField_encode (h : encodeStoredDocument d = .ok bytes) (segments : List Str) :
    findField bytes segments = .ok (nestedValue d.fields.entries segments) := by
  obtain ⟨tail, rfl⟩ : ∃ tail, bytes = directoryMarker :: tail :=
    ⟨_, (encodeStoredDocument_eq_ok h).1⟩
  obtain ⟨hbd, -, -⟩ := stored_bounds h
  have hord := d.fields.ordered
  rw [ordered, Bool.and_eq_true] at hord
  cases segments with
  | nil => rfl
  | cons first rest =>
    simp only [findField, if_true, directoryLookup_encode h, ok_bind]
    cases hg : get first d.fields.entries with
    | none => cases rest <;> simp [nestedValue, hg] <;> rfl
    | some v =>
      have hvr := ordered_of_get hord.2 hg
      have hvl := length_le_of_get hg
      simp only [encodeDocument, length_append] at hbd
      cases rest with
      | nil =>
        have hsl := reads_value v hvr _ (le_refl _) (by omega) []
        rw [append_nil] at hsl
        simp only [map_some, hsl, ok_bind, nestedValue, hg]
        rfl
      | cons next rest =>
        rw [nestedValue, hg]
        simp only [map_some, bind_some]
        cases hm : asMap v with
        | none =>
          obtain ⟨n, r, henc, hn, hne⟩ := encodeValue_of_asMap_none hm
          rw [henc, reads_index hn, ok_bind]
          simp only [hne, ne_eq, not_false_eq_true, if_true, bind_none]
          rfl
        | some gs =>
          obtain rfl := eq_map_of_asMap hm
          have hcnt := length_le_encodeEntries gs
          rw [encodeValue, length_append, length_append] at hvl
          obtain ⟨post, hfn⟩ := findInMap_run hvr (encodeValue (.map gs)).length
            (by rw [encodeValue, length_append, length_append]; omega)
            (by rw [encodeValue, length_append, length_append]; omega)
            next rest []
          rw [append_nil] at hfn
          generalize (encodeValue (.map gs)).length = fuel at hfn
          rw [encodeValue, reads_index (n := variantMap) (by decide), ok_bind]
          rw [reads_length (n := gs.length) (by omega), ok_bind, hfn]
          rfl

end Firenook.Disk
