import Firenook.Store.Name

/-!
# Storage — objects and the one map they live in

Objects of every bucket live in one ordered map under the key `bucket\0name`. Text is the bytes of
its UTF-8 form, which is also how the map orders it.

A key says which object it is of as long as the bucket holds no NUL (`objectKey_inj`); with one it
does not, since the separator can then be read in two places.
-/

namespace Firenook.Storage

open List

/-- Decoded text, as its bytes. -/
abbrev Text := List UInt8

/-- A stored object, with what listings, views and the folder index read of it. -/
structure StoredObject where
  name : Text
  bucket : Text
  generation : Nat
  contentType : Option Text
  contentEncoding : Option Text
  cacheControl : Option Text
  downloadTokens : List Text
  customMetadata : List (Text × Text)
  updated : Text
  size : Nat
  deriving DecidableEq

abbrev Objects := Std.ExtTreeMap Text StoredObject

def objectKey (bucket name : Text) : Text := bucket ++ 0 :: name

def StoredObject.key (o : StoredObject) : Text := objectKey o.bucket o.name

/-- Without a NUL in the buckets, a key's first NUL is the separator. -/
theorem objectKey_inj {b c n : Text} (hb : 0 ∉ b) (hc : 0 ∉ c) {m : Text}
    (h : objectKey b n = objectKey c m) : b = c ∧ n = m := by
  have hspl : ∀ {b : Text} (n), 0 ∉ b → (objectKey b n).takeWhile (· != 0) = b := by
    intro b n hb
    rw [objectKey, takeWhile_append_of_pos]
    · simp
    · intro x hx
      exact bne_iff_ne.mpr fun h => hb (h ▸ hx)
  have hbkt : b = c := by rw [← hspl n hb, h, hspl m hc]
  subst hbkt
  exact ⟨rfl, (cons.inj (append_cancel_left h)).2⟩

/-- The objects under a key's scope are those of the bucket. -/
theorem isPrefix_objectKey {b c p n : Text} (hb : 0 ∉ b) (hc : 0 ∉ c) :
    objectKey b p <+: objectKey c n ↔ b = c ∧ p <+: n := by
  constructor
  · rintro ⟨rest, h⟩
    rw [objectKey, append_assoc] at h
    obtain ⟨rfl, rfl⟩ := objectKey_inj hb hc h
    exact ⟨rfl, prefix_append _ _⟩
  · rintro ⟨rfl, rest, rfl⟩
    exact ⟨rest, by simp [objectKey]⟩

end Firenook.Storage
