import Firenook.Support.ByteCodes

/-!
# Bincode — variable-length integers, byte strings and lists

The layout of bincode's standard configuration. An unsigned integer is one byte below 251, or a
marker byte and two, four or eight little-endian bytes; a signed one is zigzagged first; a string
is its length and its bytes, and a list its length and its elements.

A `Decoder` reads the front of a byte string and returns what is left. `Reads d bytes a` says that
`d` reads `bytes` as `a` whatever follows. Readings compose as decoders do (`Reads.bind`,
`Reads.times`), so each writer below has one lemma that its reader inverts it.
-/

namespace Bincode

open List Bytes

variable {s : List UInt8} {n : Nat} {α β : Type} {e : α → List UInt8}

/-! ### Decoders -/

/-- Why a byte string is refused. -/
inductive Error where
  | unexpectedEnd (additional : Nat)
  | invalidIntegerType
  | invalidBooleanValue (found : UInt8)
  | unexpectedVariant (found : Nat)
  | utf8
  | other (message : String)
  deriving DecidableEq

/-- A reader of the front of a byte string. -/
def Decoder (α : Type) : Type := List UInt8 → Except Error (α × List UInt8)

namespace Decoder

instance : Monad Decoder where
  pure a := fun input => .ok (a, input)
  bind d f := fun input =>
    match d input with
    | .error e => .error e
    | .ok (a, input) => f a input

def fail (e : Error) : Decoder α := fun _ => .error e

/-- The next `n` bytes. -/
def take (n : Nat) : Decoder (List UInt8) := fun input =>
  if n ≤ input.length then .ok (input.take n, input.drop n)
  else .error (.unexpectedEnd (n - input.length))

def byte : Decoder UInt8 := fun input =>
  match input with
  | [] => .error (.unexpectedEnd 1)
  | b :: bs => .ok (b, bs)

/-- `n` readings in a row. -/
def times : Nat → Decoder α → Decoder (List α)
  | 0, _ => pure []
  | n + 1, d => do
    let a ← d
    let as ← times n d
    pure (a :: as)

/-- A reading that must leave nothing. -/
def whole (d : Decoder α) (trailing : Error) (input : List UInt8) : Except Error α :=
  match d input with
  | .error e => .error e
  | .ok (a, []) => .ok a
  | .ok (_, _ :: _) => .error trailing

/-- A decoder in two steps succeeds iff both steps do. -/
theorem bind_eq_ok {d : Decoder α} {f : α → Decoder β} {input : List UInt8}
    {result : β × List UInt8} :
    (d >>= f) input = .ok result ↔ ∃ a rest, d input = .ok (a, rest) ∧ f a rest = .ok result := by
  have hbn : (d >>= f) input = match d input with
        | .error e => .error e
        | .ok (a, input) => f a input := rfl
  rw [hbn]
  cases hd : d input with
  | error e => exact ⟨nofun, nofun⟩
  | ok p => exact ⟨fun h => ⟨p.1, p.2, rfl, h⟩, fun ⟨_, _, h, h'⟩ => by cases h; exact h'⟩

end Decoder

open Decoder

/-- `d` reads `bytes` as `a`, whatever follows. -/
def Reads (d : Decoder α) (bytes : List UInt8) (a : α) : Prop :=
  ∀ rest, d (bytes ++ rest) = .ok (a, rest)

namespace Reads

protected theorem pure (a : α) : Reads (pure a) [] a := fun _ => rfl

section

variable {d : Decoder α}

/-- Running a reading and then the rest of a decoder. -/
theorem bind_run {a : α} (hd : Reads d s a) (f : α → Decoder β) (rest : List UInt8) :
    (d >>= f) (s ++ rest) = f a rest := by
  have hbn : (d >>= f) (s ++ rest) = match d (s ++ rest) with
        | .error e => .error e
        | .ok (a, input) => f a input := rfl
  rw [hbn, hd]

/-- Readings in a row read a concatenation. -/
protected theorem bind {f : α → Decoder β} {t : List UInt8} {a : α} {b : β} (hd : Reads d s a)
    (hf : Reads (f a) t b) : Reads (d >>= f) (s ++ t) b := by
  intro rest
  rw [append_assoc, hd.bind_run]
  exact hf rest

/-- A step that reads nothing more. -/
theorem bind_nil {f : α → Decoder β} {a : α} {b : β} (hd : Reads d s a) (hf : Reads (f a) [] b) :
    Reads (d >>= f) s b := by
  have key := hd.bind hf
  rwa [append_nil] at key

protected theorem map {a : α} (hd : Reads d s a) (f : α → β) : Reads (f <$> d) s (f a) := by
  intro rest
  have hmap : (f <$> d) (s ++ rest) = match d (s ++ rest) with
        | .error e => .error e
        | .ok (a, input) => .ok (f a, input) := rfl
  rw [hmap, hd]

end

theorem take {bs : List UInt8} {n : Nat} (h : bs.length = n) : Reads (take n) bs bs := by
  intro rest
  subst h
  simp [Decoder.take]

theorem byte (b : UInt8) : Reads byte [b] b := fun _ => rfl

/-- Readings in a row, one for each of a list of encodings. -/
theorem times_map {d : Decoder α} {e : β → List UInt8} {g : β → α} {bs : List β}
    (h : ∀ b ∈ bs, Reads d (e b) (g b)) :
    Reads (times bs.length d) (bs.flatMap e) (bs.map g) := by
  induction bs with
  | nil => exact .pure []
  | cons b bs ih =>
    refine .bind (h b mem_cons_self) ?_
    exact (ih fun c hc => h c (mem_cons_of_mem _ hc)).map (g b :: ·)

/-- A list of readings reads the concatenated elements. -/
theorem times {d : Decoder α} {as : List α} (h : ∀ a ∈ as, Reads d (e a) a) :
    Reads (times as.length d) (as.flatMap e) as := by
  have key := times_map (g := id) h
  rwa [map_id] at key

theorem whole {d : Decoder α} {s : List UInt8} {a : α} (h : Reads d s a) (trailing : Error) :
    whole d trailing s = .ok a := by
  have key := h []
  rw [append_nil] at key
  rw [Decoder.whole, key]

end Reads

/-! ### Integers -/

/-- The `k` low bytes of `n`, least significant first. -/
def leBytes (k n : Nat) : List UInt8 := (beBytes k n).reverse

def ofLeBytes (bs : List UInt8) : Nat := ofBytes bs.reverse

@[simp] theorem length_leBytes (k n : Nat) : (leBytes k n).length = k := by simp [leBytes]

@[simp] theorem ofLeBytes_leBytes {k : Nat} (h : n < 256 ^ k) : ofLeBytes (leBytes k n) = n := by
  rw [ofLeBytes, leBytes, reverse_reverse, ofBytes_beBytes h]

/-- A little-endian integer of `k` bytes. -/
def fixed (k : Nat) : Decoder Nat := ofLeBytes <$> take k

theorem reads_fixed {k : Nat} (h : n < 256 ^ k) : Reads (fixed k) (leBytes k n) n := by
  have key := (Reads.take (length_leBytes k n)).map ofLeBytes
  rwa [ofLeBytes_leBytes h] at key

/-- An unsigned integer of at most eight bytes. -/
def encodeVarint (n : Nat) : List UInt8 :=
  if n < 251 then [UInt8.ofNat n]
  else if n < 2 ^ 16 then 251 :: leBytes 2 n
  else if n < 2 ^ 32 then 252 :: leBytes 4 n
  else 253 :: leBytes 8 n

/-- Reads an unsigned integer of a type of `width` bytes; a marker for a wider one is refused. -/
def decodeVarint (width : Nat) : Decoder Nat := do
  let marker ← byte
  if marker < 251 then pure marker.toNat
  else if marker = 251 ∧ 2 ≤ width then fixed 2
  else if marker = 252 ∧ 4 ≤ width then fixed 4
  else if marker = 253 ∧ 8 ≤ width then fixed 8
  else fail .invalidIntegerType

theorem length_encodeVarint_pos (n : Nat) : 0 < (encodeVarint n).length := by
  unfold encodeVarint
  split
  · simp
  · split
    · simp
    · split <;> simp

theorem length_encodeVarint_le (n : Nat) : (encodeVarint n).length ≤ 9 := by
  unfold encodeVarint
  split
  · simp
  · split
    · simp
    · split <;> simp

/-- A marker is read before the bytes it announces. -/
theorem reads_marker {width k : Nat} {marker : UInt8} (hn : n < 256 ^ k)
    (h : (if marker < 251 then pure marker.toNat else if marker = 251 ∧ 2 ≤ width then fixed 2
      else if marker = 252 ∧ 4 ≤ width then fixed 4 else if marker = 253 ∧ 8 ≤ width then fixed 8
      else fail .invalidIntegerType : Decoder Nat) = fixed k) :
    Reads (decodeVarint width) (marker :: leBytes k n) n := by
  refine Reads.bind (s := [marker]) (.byte marker) ?_
  rw [h]
  exact reads_fixed hn

/-- An integer that fits the type is read back. -/
theorem reads_varint (width : Nat) (hwid : 4 ≤ width) (h8 : width ≤ 8)
    (h : n < if width < 8 then 2 ^ 32 else 2 ^ 64) :
    Reads (decodeVarint width) (encodeVarint n) n := by
  unfold encodeVarint
  split
  · next hn =>
    have hb : (UInt8.ofNat n).toNat = n := by
      rw [UInt8.toNat_ofNat', Nat.mod_eq_of_lt (by omega)]
    have hlt : UInt8.ofNat n < 251 := by
      rw [UInt8.lt_iff_toNat_lt, hb]
      exact hn
    refine Reads.bind (t := []) (.byte (UInt8.ofNat n)) ?_
    rw [if_pos hlt, hb]
    exact .pure n
  split
  · next hn => exact reads_marker (k := 2) hn (by simp; omega)
  split
  · next hn => exact reads_marker (k := 4) hn (by simp; omega)
  next hn =>
  have h8 : width = 8 := by
    split at h <;> omega
  subst h8
  exact reads_marker (k := 8) h (by simp)

def encodeU32 (n : UInt32) : List UInt8 := encodeVarint n.toNat

def decodeU32 : Decoder UInt32 := UInt32.ofNat <$> decodeVarint 4

theorem reads_u32 (n : UInt32) : Reads decodeU32 (encodeU32 n) n := by
  have key := (reads_varint 4 (by omega) (by omega) (by simpa using n.toNat_lt)).map UInt32.ofNat
  rwa [UInt32.ofNat_toNat] at key

/-- An index of fewer than `2 ^ 32` is read back. -/
theorem reads_index (h : n < 2 ^ 32) : Reads (decodeVarint 4) (encodeVarint n) n :=
  reads_varint 4 (by omega) (by omega) (by simpa using h)

theorem Reads.variant {f : Nat → Decoder β} {t : List UInt8} {b : β} (h : decide (n < 2 ^ 32) = true)
    (hf : Reads (f n) t b) : Reads (decodeVarint 4 >>= f) (encodeVarint n ++ t) b :=
  (reads_index (of_decide_eq_true h)).bind hf

def length : Decoder Nat := decodeVarint 8

theorem reads_length (h : n < 2 ^ 64) : Reads length (encodeVarint n) n :=
  reads_varint 8 (by omega) (by omega) (by simpa using h)

/-- `zigzag`: the sign in the lowest bit. -/
def zigzag (i : Int64) : Nat :=
  if 0 ≤ i.toInt then 2 * i.toInt.toNat else 2 * (-i.toInt - 1).toNat + 1

def unzigzag (n : Nat) : Int64 :=
  if n % 2 = 0 then Int64.ofInt (n / 2 : Nat) else Int64.ofInt (-(n / 2 : Nat) - 1)

theorem unzigzag_zigzag (i : Int64) : unzigzag (zigzag i) = i := by
  unfold zigzag unzigzag
  split
  · next h =>
    rw [if_pos (by omega), Nat.mul_div_cancel_left _ (by omega), Int.toNat_of_nonneg h,
      Int64.ofInt_toInt]
  · next h =>
    have hhl : (2 * (-i.toInt - 1).toNat + 1) / 2 = (-i.toInt - 1).toNat := by omega
    rw [if_neg (by omega), hhl, Int.toNat_of_nonneg (by omega)]
    have : -(-i.toInt - 1) - 1 = i.toInt := by omega
    rw [this, Int64.ofInt_toInt]

theorem zigzag_lt (i : Int64) : zigzag i < 2 ^ 64 := by
  have hlo := i.le_toInt
  have hhi := i.toInt_lt
  unfold zigzag
  split <;> omega

def encodeI64 (i : Int64) : List UInt8 := encodeVarint (zigzag i)

def decodeI64 : Decoder Int64 := unzigzag <$> decodeVarint 8

theorem reads_i64 (i : Int64) : Reads decodeI64 (encodeI64 i) i := by
  have key := (reads_length (zigzag_lt i)).map unzigzag
  rwa [unzigzag_zigzag] at key

/-- Eight bytes, least significant first: the bits of a double. -/
def encodeBits (n : UInt64) : List UInt8 := leBytes 8 n.toNat

def decodeBits : Decoder UInt64 := UInt64.ofNat <$> fixed 8

theorem reads_bits (n : UInt64) : Reads decodeBits (encodeBits n) n := by
  have key := (reads_fixed (k := 8) (n := n.toNat) (by simpa using n.toNat_lt)).map UInt64.ofNat
  rwa [UInt64.ofNat_toNat] at key

/-! ### Booleans, options and byte strings -/

def encodeBool (b : Bool) : List UInt8 := [if b then 1 else 0]

def decodeBool : Decoder Bool := do
  let b ← byte
  if b = 0 then pure false
  else if b = 1 then pure true
  else fail (.invalidBooleanValue b)

theorem reads_bool (b : Bool) : Reads decodeBool (encodeBool b) b := by
  cases b <;> exact fun _ => rfl

def encodeOption (e : α → List UInt8) : Option α → List UInt8
  | none => [0]
  | some a => 1 :: e a

def decodeOption (d : Decoder α) : Decoder (Option α) := do
  let b ← byte
  if b = 0 then pure none
  else if b = 1 then some <$> d
  else fail (.unexpectedVariant b.toNat)

theorem reads_option {d : Decoder α} {o : Option α}
    (h : ∀ a, o = some a → Reads d (e a) a) : Reads (decodeOption d) (encodeOption e o) o := by
  cases o with
  | none => exact fun _ => rfl
  | some a => exact Reads.bind (s := [1]) (.byte 1) ((h a rfl).map some)

def encodeBytes (bs : List UInt8) : List UInt8 := encodeVarint bs.length ++ bs

def decodeBytes : Decoder (List UInt8) := do
  let n ← length
  take n

theorem reads_bytes {bs : List UInt8} (h : bs.length < 2 ^ 64) :
    Reads decodeBytes (encodeBytes bs) bs :=
  (reads_length h).bind (.take rfl)

theorem length_encodeBytes (bs : List UInt8) : bs.length < (encodeBytes bs).length := by
  have := length_encodeVarint_pos bs.length
  simp [encodeBytes]
  omega

/-- A list: its length, then its elements. -/
def encodeList (e : α → List UInt8) (as : List α) : List UInt8 :=
  encodeVarint as.length ++ as.flatMap e

def decodeList (d : Decoder α) : Decoder (List α) := do
  let n ← length
  times n d

theorem reads_list {d : Decoder α} {as : List α} (hlen : as.length < 2 ^ 64)
    (h : ∀ a ∈ as, Reads d (e a) a) : Reads (decodeList d) (encodeList e as) as :=
  (reads_length hlen).bind (.times h)

/-- A `Vec<u8>` holds at most `isize::MAX` bytes: a longer encoding is never returned. -/
def toVec (bytes : List UInt8) : Except Error (List UInt8) :=
  if bytes.length < 2 ^ 63 then .ok bytes else .error (.other "capacity overflow")

theorem toVec_eq_ok {bytes vec : List UInt8} :
    toVec bytes = .ok vec ↔ bytes.length < 2 ^ 63 ∧ bytes = vec := by
  unfold toVec
  split
  · next h =>
    rw [Except.ok.injEq]
    exact ⟨fun e => ⟨h, e⟩, fun e => e.2⟩
  · next h => exact ⟨nofun, fun e => absurd e.1 h⟩

end Bincode
