import Firenook.Store.Name
import Firenook.Support.Bincode

/-!
# Grpc — the bloom filter of an existence filter

`unchanged_names_bloom_filter` sets, for each name, the bits `(h1 + i * h2) mod bits` of a bitmap,
in 64-bit wrapping arithmetic, and a client probes the same bits. The bits that are set are those
the names have (`testBit_fill`), so no listed name is taken for a missing one
(**`no_false_negatives`**).
-/

namespace Firenook.Grpc.Bloom

open List Bincode

structure BloomFilter where
  bitmap : List UInt8
  padding : Nat
  hashCount : Nat

section
variable (digest : List UInt8 → Fin 16 → UInt8)

/-- Eight bytes of a name's digest, little endian. -/
def half (name : Str) (start : Nat) : UInt64 :=
  .ofNat (ofLeBytes (((ofFn (digest name.bytes)).drop start).take 8))

/-- The bit a name has for one of its hashes. -/
def probe (bits : Nat) (name : Str) (index : Nat) : Nat :=
  ((half digest name 0 + .ofNat index * half digest name 8) % .ofNat bits).toNat

def setBit (bitmap : List UInt8) (bit : Nat) : List UInt8 :=
  bitmap.modify (bit / 8) (· ||| 1 <<< UInt8.ofNat (bit % 8))

/-- The loop over the names. -/
def fill (bits byteCount hashCount : Nat) (names : List Str) : List UInt8 :=
  names.foldl (fun bitmap name => (range hashCount).foldl
    (fun bitmap index => setBit bitmap (probe digest bits name index)) bitmap) (replicate byteCount 0)

def unchangedNamesBloomFilter (names : List Str) : Except String BloomFilter :=
  if names.isEmpty then .ok ⟨[], 0, 0⟩
  else
    let bitCount := names.length * 24 + 5
    if 2 ^ 64 ≤ bitCount then .error "existence-filter bloom size overflow"
    else
      let byteCount := (bitCount + 7) / 8
      let hashes := max ((bitCount * 693 + names.length * 500) / (names.length * 1000)) 1
      let hashCount := min hashes (2 ^ 31 - 1)
      .ok ⟨fill digest bitCount byteCount hashCount names, byteCount * 8 - bitCount, hashCount⟩

/-! ### The client -/

def testBit (bitmap : List UInt8) (bit : Nat) : Bool :=
  (bitmap[bit / 8]?.getD 0).toNat.testBit (bit % 8)

def BloomFilter.bits (f : BloomFilter) : Nat := 8 * f.bitmap.length - f.padding

/-- The bit a client tests for one of the hashes: the first half of the digest and a multiple of the
second, as numbers. -/
def BloomFilter.tested (f : BloomFilter) (name : Str) (index : Nat) : Nat :=
  let bytes := ofFn (digest name.bytes)
  (ofLeBytes (bytes.take 8) + index * ofLeBytes (bytes.drop 8)) % 2 ^ 64 % f.bits

/-- Whether a client takes a name for a listed one. -/
def BloomFilter.mightContain (f : BloomFilter) (name : Str) : Bool :=
  f.bits ≠ 0 && (range f.hashCount).all fun index => testBit f.bitmap (f.tested digest name index)

end

/-! ### The bits that are set -/

variable {digest : List UInt8 → Fin 16 → UInt8} {bitmap : List UInt8} {names : List Str}
  {bits byteCount hashCount : Nat}

theorem toNat_mask : ∀ k < 8, (1 <<< UInt8.ofNat k : UInt8).toNat = 2 ^ k := by decide

/-- Setting a bit of the bitmap sets that bit and no other. -/
theorem testBit_setBit {bit : Nat} (h : bit < 8 * bitmap.length) (j : Nat) :
    testBit (setBit bitmap bit) j = true ↔ testBit bitmap j = true ∨ j = bit := by
  have hby : bit / 8 < bitmap.length := by omega
  rw [testBit, testBit, setBit]
  by_cases heq : bit / 8 = j / 8
  · have hsm : bit % 8 = j % 8 ↔ j = bit := by omega
    simp [heq, ← hsm, getElem?_eq_getElem (heq ▸ hby), toNat_mask _ (Nat.mod_lt bit _),
      Nat.testBit_two_pow]
  · have hne : j ≠ bit := fun h => heq (h ▸ rfl)
    simp [heq, hne]

theorem foldl_setBit {l : List Nat} (h : ∀ bit ∈ l, bit < 8 * bitmap.length) :
    (l.foldl setBit bitmap).length = bitmap.length ∧ ∀ j,
      testBit (l.foldl setBit bitmap) j = true ↔ testBit bitmap j = true ∨ j ∈ l := by
  induction l generalizing bitmap with
  | nil => simp
  | cons bit l ih =>
    rw [forall_mem_cons] at h
    have hlen : (setBit bitmap bit).length = bitmap.length := length_modify _ _ _
    obtain ⟨hlng, hset⟩ := ih (hlen ▸ h.2)
    refine ⟨hlng.trans hlen, fun j => ?_⟩
    rw [foldl_cons, hset, testBit_setBit h.1, or_assoc, mem_cons]

theorem probe_lt (hpos : 0 < bits) (hbt : bits < 2 ^ 64) (name : Str) (index : Nat) :
    probe digest bits name index < bits := by
  have hmod : (UInt64.ofNat bits).toNat = bits := UInt64.toNat_ofNat_of_lt hbt
  rw [probe, UInt64.toNat_mod, hmod]
  exact Nat.mod_lt _ hpos

/-- The client tests the bits that are set for a name. -/
theorem tested_eq_probe {f : BloomFilter} (hbt : f.bits < 2 ^ 64) (name : Str) (index : Nat) :
    f.tested digest name index = probe digest f.bits name index := by
  have hlast : ((ofFn (digest name.bytes)).drop 8).take 8 = (ofFn (digest name.bytes)).drop 8 :=
    take_of_length_le (by simp)
  simp only [BloomFilter.tested, probe, half, drop_zero, hlast, UInt64.toNat_mod, UInt64.toNat_add,
    UInt64.toNat_mul, UInt64.toNat_ofNat', Nat.mod_eq_of_lt hbt]
  rw [Nat.add_mod, Nat.mul_mod]

/-- The bits set are those the names have. -/
theorem testBit_fill (hprb : ∀ name index, probe digest bits name index < 8 * byteCount) :
    (fill digest bits byteCount hashCount names).length = byteCount ∧ ∀ j,
      testBit (fill digest bits byteCount hashCount names) j = true ↔
        ∃ name ∈ names, ∃ index < hashCount, probe digest bits name index = j := by
  set probes := names.flatMap fun name => (range hashCount).map (probe digest bits name) with hpr
  have hlp : fill digest bits byteCount hashCount names =
      probes.foldl setBit (replicate byteCount 0) := by
    simp [hpr, fill, foldl_flatMap, foldl_map]
  have hin : ∀ bit ∈ probes, bit < 8 * (replicate byteCount (0 : UInt8)).length := by
    simp only [hpr, mem_flatMap, mem_map, length_replicate]
    rintro _ ⟨name, -, index, -, rfl⟩
    exact hprb name index
  obtain ⟨hlen, hset⟩ := foldl_setBit hin
  rw [hlp]
  refine ⟨hlen.trans length_replicate, fun j => ?_⟩
  have hzr : testBit (replicate byteCount 0) j = false := by
    by_cases hj : j / 8 < byteCount <;> simp [testBit, hj]
  rw [hset, hzr]
  simp [hpr]

/-- **The bloom filter has no false negatives**: a client takes every listed name for a listed one. -/
theorem no_false_negatives (digest : List UInt8 → Fin 16 → UInt8) (names : List Str) :
    (names.length * 24 + 5 < 2 ^ 64 → ∃ f, unchangedNamesBloomFilter digest names = .ok f) ∧
    ∀ f, unchangedNamesBloomFilter digest names = .ok f →
      f.padding ≤ 7 ∧ (∀ name ∈ names, f.mightContain digest name = true) ∧
      (∀ bit, f.bits ≤ bit → testBit f.bitmap bit = false) ∧
      (names ≠ [] → f.bits = names.length * 24 + 5 ∧
        ∀ name index, probe digest f.bits name index < f.bits) ∧
      (names = [] → f.bitmap = [] ∧ ∀ name, f.mightContain digest name = false) := by
  unfold unchangedNamesBloomFilter
  split
  · next hemp =>
    obtain rfl := isEmpty_iff.mp hemp
    refine ⟨fun _ => ⟨_, rfl⟩, ?_⟩
    rintro _ ⟨⟩
    simp [BloomFilter.mightContain, BloomFilter.bits, testBit]
  · next hne =>
    dsimp only
    split
    · next hov => exact ⟨fun h => absurd hov (Nat.not_le.mpr h), nofun⟩
    next hft =>
    refine ⟨fun _ => ⟨_, rfl⟩, ?_⟩
    rintro _ ⟨⟩
    rw [Nat.not_le] at hft
    have hlt : ∀ name index, probe digest (names.length * 24 + 5) name index < _ :=
      probe_lt (Nat.succ_pos _) hft
    generalize names.length * 24 + 5 = bits at hlt hft
    generalize min (max _ 1) (2 ^ 31 - 1) = hashCount
    obtain ⟨hlen, hset⟩ := @testBit_fill digest names bits ((bits + 7) / 8) hashCount
      fun name index => (hlt name index).trans_le (by omega)
    have hbt : BloomFilter.bits ⟨fill digest bits ((bits + 7) / 8) hashCount names,
        (bits + 7) / 8 * 8 - bits, hashCount⟩ = bits := by
      simp only [BloomFilter.bits, hlen]
      omega
    simp only [BloomFilter.mightContain, tested_eq_probe (hbt.trans_lt hft), hbt]
    refine ⟨by omega, fun name hname => ?_, fun bit hbit => ?_, fun _ => ⟨trivial, hlt⟩,
      fun h => absurd (isEmpty_iff.mpr h) hne⟩
    · have hpos := (Nat.zero_le _).trans_lt (hlt name 0)
      simpa [hset, hpos.ne'] using fun index hidx => ⟨name, hname, index, hidx, rfl⟩
    · rw [Bool.eq_false_iff, Ne, hset]
      rintro ⟨name, -, index, -, rfl⟩
      exact absurd hbit (Nat.not_le.mpr (hlt name index))

end Firenook.Grpc.Bloom
