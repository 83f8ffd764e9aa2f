/-
  HashArchive.Proofs.Digest.Apart

  Byte strings that differ in one byte have different digests.  A step of the digest can be
  undone when its byte is known, and its byte told when the state before it is known; the
  folding at the end undoes itself.  So a difference, once it has come into the state, is not
  lost again, and texts whose encodings differ in one byte have different keys
  (`keys_apart_of_one_byte`).
-/
import Mathlib
import HashArchive.Name
import HashArchive.Proofs.Digest.Halves

namespace HashArchive

/-! ## One difference -/

/-- The lists are the same but for one place, and what they hold there differs as told. -/
def OneApart {α : Type} (differ : α → α → Prop) (xs ys : List α) : Prop :=
  ∃ before x y after, differ x y ∧ xs = before ++ [x] ++ after ∧ ys = before ++ [y] ++ after

/-- Where the pieces for two elements are one place apart, and the elements are all that differs,
    the lists made of all the pieces are one place apart. -/
theorem OneApart.flatMap {α β : Type} {differ : β → β → Prop} {f : α → List β} {xs ys : List α}
    (h : OneApart (fun x y => OneApart differ (f x) (f y)) xs ys) :
    OneApart differ (xs.flatMap f) (ys.flatMap f) := by
  obtain ⟨before, x, y, after, ⟨front, u, v, back, hdiffer, hx, hy⟩, rfl, rfl⟩ := h
  refine ⟨before.flatMap f ++ front, u, v, back ++ after.flatMap f, hdiffer, ?_, ?_⟩
  · simp only [List.flatMap_append, List.flatMap_singleton, hx, List.append_assoc]
  · simp only [List.flatMap_append, List.flatMap_singleton, hy, List.append_assoc]

/-- The units have one of their two bytes in common, and not the other. -/
def Text.Utf16.OneByteApart (u v : UInt16) : Prop :=
  OneApart (· ≠ ·) (Bytes.ofUInt16 u) (Bytes.ofUInt16 v)

namespace Digest

/-! ## Every step can be undone -/

/-- The inverse of the prime modulo `2 ^ 64`; it has one since it is odd. -/
def primeInverse : UInt64 := 0xCE965057AFF6957B

theorem prime_mul_primeInverse : prime * primeInverse = 1 := by decide

theorem mul_prime_injective : Function.Injective (· * prime) := by
  apply Function.LeftInverse.injective (g := (· * primeInverse))
  intro state
  show state * prime * primeInverse = state
  rw [UInt64.mul_assoc, prime_mul_primeInverse, UInt64.mul_one]

/-- After one and the same byte, different states are different. -/
theorem step_left_injective (byte : UInt8) : Function.Injective (step · byte) := by
  intro state state' h
  exact (UInt64.xor_left_inj byte.toUInt64).mp (mul_prime_injective h)

/-- Different bytes lead from one state to different ones. -/
theorem step_right_injective (state : UInt64) : Function.Injective (step state) := by
  intro byte byte' h
  exact UInt8.toUInt64_inj.mp ((UInt64.xor_right_inj state).mp (mul_prime_injective h))

/-- Different states stay so, whatever bytes follow. -/
theorem foldl_step_injective (bytes : Bytes) : Function.Injective (bytes.foldl step ·) := by
  induction bytes with
  | nil => exact Function.injective_id
  -- The first byte keeps states apart, and the others keep apart what it leaves.
  | cons byte bytes ih => exact ih.comp (step_left_injective byte)

/-- The high half is still there to be taken out of the low half again. -/
theorem Halves.fold_involutive : Function.Involutive Halves.fold := by
  intro halves
  rw [fold, fold, UInt32.xor_assoc, UInt32.xor_self, UInt32.xor_zero]

theorem fold_involutive : Function.Involutive fold := by
  intro state
  rw [← Halves.join_split (fold (fold state)), Halves.split_fold, Halves.split_fold,
    Halves.fold_involutive, Halves.join_split]

/-! ## Digests and keys -/

/-- One byte taken out of the middle of the run. -/
theorem fnv1a_around (before after : Bytes) (byte : UInt8) :
    fnv1a (before ++ [byte] ++ after) = after.foldl step (step (fnv1a before) byte) := by
  rw [fnv1a, List.foldl_append, List.foldl_append]
  rfl

theorem ofBytes_apart {xs ys : Bytes} (h : OneApart (· ≠ ·) xs ys) : ofBytes xs ≠ ofBytes ys := by
  obtain ⟨before, c, d, after, hne, rfl, rfl⟩ := h
  intro heq
  -- Undone from the end: the folding, the bytes behind the place, and the step at the place.
  have hstates := fold_involutive.injective heq
  rw [fnv1a_around, fnv1a_around] at hstates
  exact hne (step_right_injective _ (foldl_step_injective after hstates))

/-- Changing one byte changes the digest.  So the keys of two locations differ when one is the
    other with a single unit changed in one of its two bytes, and the UTF-8 keys of two names
    when their lower-case forms differ in one byte. -/
theorem keys_apart_of_one_byte :
    (∀ (before after : Bytes) (c d : UInt8), c ≠ d →
      ofBytes (before ++ [c] ++ after) ≠ ofBytes (before ++ [d] ++ after)) ∧
    (∀ a b : String,
      OneApart Text.Utf16.OneByteApart
          (Text.Utf16.encode a.toList) (Text.Utf16.encode b.toList) →
        Name.locationKey a ≠ Name.locationKey b) ∧
    (∀ a b : String,
      OneApart (· ≠ ·)
          (Encoding.utf8.bytes (Text.lowercase a)) (Encoding.utf8.bytes (Text.lowercase b)) →
        Name.key .utf8 a ≠ Name.key .utf8 b) := by
  refine ⟨?_, ?_, ?_⟩
  · intro before after c d hne
    exact ofBytes_apart ⟨before, c, d, after, hne, rfl, rfl⟩
  · intro a b h
    exact ofBytes_apart h.flatMap
  · intro a b h
    exact ofBytes_apart h

/-- Two characters beyond the basic plane that share their first unit. -/
theorem oneApart_faces :
    OneApart Text.Utf16.OneByteApart
      (Text.Utf16.encode "a/😀".toList) (Text.Utf16.encode "a/😁".toList) :=
  ⟨[0x61, 0x2F, 0xD83D], 0xDE00, 0xDE01, [],
    ⟨[], 0x00, 0x01, [0xDE], by decide, by decide, by decide⟩,
    by decide +kernel, by decide +kernel⟩

/-- Two letters that share their first byte, one of them a capital. -/
theorem oneApart_accents :
    OneApart (· ≠ ·)
      (Encoding.utf8.bytes (Text.lowercase "Ét")) (Encoding.utf8.bytes (Text.lowercase "èt")) :=
  ⟨[0xC3], 0xA9, 0xA8, [0x74], by decide, by decide +kernel, by decide +kernel⟩

theorem keys_apart_of_one_byte_accents :
    ofBytes [0x61, 0x00, 0x62] ≠ ofBytes [0x61, 0xFF, 0x62] ∧
      Name.locationKey "a/😀" ≠ Name.locationKey "a/😁" ∧
      Name.key .utf8 "Ét" ≠ Name.key .utf8 "èt" :=
  ⟨keys_apart_of_one_byte.1 [0x61] [0x62] 0x00 0xFF (by decide),
    keys_apart_of_one_byte.2.1 "a/😀" "a/😁" oneApart_faces,
    keys_apart_of_one_byte.2.2 "Ét" "èt" oneApart_accents⟩

end Digest

end HashArchive
