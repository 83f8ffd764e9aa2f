/-
  HashArchive.Proofs.Deflate.Store

  Inflating gives back what was stored.  A stored block begins on a byte boundary and is
  made of whole bytes, so the bits behind its header are the bits of a byte string again;
  that carries the induction over the blocks.
-/
import Mathlib
import HashArchive.Bytes.Lemmas
import HashArchive.Deflate.Inflate
import HashArchive.Deflate.Store

namespace HashArchive.Deflate

/-- Every content that an encoder deflates is inflated again. -/
def Lossless (deflate : Bytes → Bytes) : Prop := ∀ content, inflate (deflate content) = .ok content

namespace Bits

/-! ## Numbers and bytes in bits -/

theorem take_append (bits rest : List Bool) :
    take bits.length (bits ++ rest) = .ok (toNat bits, rest) := by
  induction bits with
  | nil => rfl
  | cons bit bits ih =>
    rw [List.length_cons, List.cons_append, take, ih]
    rfl

theorem toNat_append (front back : List Bool) :
    toNat (front ++ back) = toNat front + 2 ^ front.length * toNat back := by
  induction front with
  | nil => simp [toNat]
  | cons bit front ih =>
    rw [List.cons_append, toNat, toNat, ih, List.length_cons, Nat.pow_succ]
    ring

@[simp] theorem length_ofByte (byte : UInt8) : (ofByte byte).length = 8 := rfl

/-- The bits of a byte spell it. -/
theorem toNat_ofByte (byte : UInt8) : toNat (ofByte byte) = byte.toNat := by
  have hall : ∀ n < 256, toNat (ofByte (UInt8.ofNat n)) = n := by decide +kernel
  have hbyte := hall byte.toNat byte.toNat_lt
  rw [UInt8.ofNat_toNat] at hbyte
  exact hbyte

theorem ofBytes_cons (byte : UInt8) (bytes : Bytes) :
    ofBytes (byte :: bytes) = ofByte byte ++ ofBytes bytes := List.flatMap_cons

theorem ofBytes_append (front back : Bytes) :
    ofBytes (front ++ back) = ofBytes front ++ ofBytes back := List.flatMap_append

theorem length_ofBytes (bytes : Bytes) : (ofBytes bytes).length = 8 * bytes.length := by
  induction bytes with
  | nil => rfl
  | cons byte bytes ih =>
    rw [ofBytes_cons, List.length_append, length_ofByte, ih, List.length_cons]
    omega

/-- Bits spell the number that their bytes do. -/
theorem toNat_ofBytes (bytes : Bytes) : toNat (ofBytes bytes) = Bytes.toNat bytes := by
  induction bytes with
  | nil => rfl
  | cons byte bytes ih =>
    rw [ofBytes_cons, toNat_append, toNat_ofByte, ih, length_ofByte, Bytes.toNat]
    rfl

/-- A number that was written as bytes is taken off their bits. -/
theorem take_ofBytes_ofNat (width : Nat) {n : Nat} (h : n < 256 ^ width) (rest : List Bool) :
    take (8 * width) (ofBytes (Bytes.ofNat width n) ++ rest) = .ok (n, rest) := by
  have htake := take_append (ofBytes (Bytes.ofNat width n)) rest
  rw [length_ofBytes, Bytes.length_ofNat, toNat_ofBytes, Bytes.toNat_ofNat,
    Nat.mod_eq_of_lt h] at htake
  exact htake

/-- Whole bytes are taken as they are. -/
theorem takeBytes_ofBytes (content : Bytes) (rest : List Bool) (output : Array UInt8) :
    takeBytes content.length (ofBytes content ++ rest) output
      = .ok (output ++ content.toArray, rest) := by
  induction content generalizing output with
  | nil => simp [takeBytes, ofBytes]
  | cons byte content ih =>
    have hbyte : UInt8.ofNat (toNat (ofByte byte)) = byte := by
      rw [toNat_ofByte, UInt8.ofNat_toNat]
    have hstep : takeBytes (content.length + 1) (ofByte byte ++ (ofBytes content ++ rest)) output
        = takeBytes content.length (ofBytes content ++ rest)
            (output.push (UInt8.ofNat (toNat (ofByte byte)))) := rfl
    rw [ofBytes_cons, List.append_assoc, List.length_cons, hstep, hbyte, ih]
    simp

end Bits

/-! ## Blocks -/

/-- Behind the header of a stored block the bits go on at the next byte. -/
theorem inflateStored_append {content : Bytes} (h : content.length ≤ storedLimit)
    {padding : List Bool} (hpadding : padding.length = 5) (rest : Bytes) (output : Array UInt8) :
    inflateStored (padding ++ Bits.ofBytes (Bytes.ofNat 2 content.length
        ++ Bytes.ofNat 2 (0xFFFF - content.length) ++ content ++ rest)) output
      = .ok (output ++ content.toArray, Bits.ofBytes rest) := by
  rw [storedLimit] at h
  set body := Bytes.ofNat 2 content.length ++ Bytes.ofNat 2 (0xFFFF - content.length) ++ content
    ++ rest with hbody
  have halign : Bits.align (padding ++ Bits.ofBytes body) = Bits.ofBytes body := by
    have hmod : (padding ++ Bits.ofBytes body).length % 8 = padding.length := by
      rw [List.length_append, Bits.length_ofBytes]
      omega
    rw [Bits.align, hmod, List.drop_left]
  rw [inflateStored, halign, hbody]
  simp only [Bits.ofBytes_append, List.append_assoc]
  rw [Bits.take_ofBytes_ofNat 2 (by omega), Outcome.ok_bind]
  dsimp only
  rw [Bits.take_ofBytes_ofNat 2 (by omega), Outcome.ok_bind]
  dsimp only
  rw [if_neg (by omega)]
  exact Bits.takeBytes_ofBytes content (Bits.ofBytes rest) output

/-- A stored block adds its content; the blocks go on behind it unless it is the final
    one. -/
theorem inflateBlocks_storedBlock (final : Bool) {content : Bytes}
    (h : content.length ≤ storedLimit) (rest : Bytes) (output : Array UInt8) :
    inflateBlocks (Bits.ofBytes (storedBlock final content ++ rest)) output
      = if final then .ok (output ++ content.toArray, Bits.ofBytes rest)
        else inflateBlocks (Bits.ofBytes rest) (output ++ content.toArray) := by
  have hheader : Bits.ofByte (UInt8.ofNat final.toNat)
      = final :: false :: false :: List.replicate 5 false := by
    cases final <;> decide
  have hblock := inflateStored_append h (List.length_replicate (n := 5) (a := false)) rest output
  rw [storedBlock]
  rw [List.cons_append, List.cons_append, List.cons_append, Bits.ofBytes_cons, hheader]
  simp only [List.cons_append]
  rw [inflateBlocks]
  split
  · next fault hinflate => rw [inflateBlock, hblock] at hinflate; cases hinflate
  · next output' rest' hinflate =>
    rw [inflateBlock, hblock] at hinflate
    obtain ⟨rfl, rfl⟩ := Prod.mk.inj (Except.ok.inj hinflate)
    rfl

/-- Stored blocks give back their content and leave what follows them. -/
theorem inflateBlocks_store (content rest : Bytes) (output : Array UInt8) :
    inflateBlocks (Bits.ofBytes (store content ++ rest)) output
      = .ok (output ++ content.toArray, Bits.ofBytes rest) := by
  fun_induction store content generalizing output with
  | case1 content hlong ih =>
    have htake : (content.take storedLimit).length ≤ storedLimit := by
      rw [List.length_take]
      omega
    have hparts : (content.take storedLimit).toArray ++ (content.drop storedLimit).toArray
        = content.toArray := by
      rw [List.append_toArray, List.take_append_drop]
    rw [List.append_assoc, inflateBlocks_storedBlock false htake, if_neg Bool.false_ne_true, ih,
      Array.append_assoc, hparts]
  | case2 content hshort =>
    rw [inflateBlocks_storedBlock true (by omega), if_pos rfl]

/-- Bytes behind a stored stream are ignored. -/
theorem inflate_store_append (content rest : Bytes) :
    inflate (store content ++ rest) = .ok content := by
  rw [inflate, inflateBlocks_store, Outcome.ok_bind]
  dsimp only
  rw [Array.empty_append]
  rfl

/-- Storing loses nothing. -/
theorem lossless_store : Lossless store := by
  intro content
  have hinflate := inflate_store_append content []
  rw [List.append_nil] at hinflate
  exact hinflate

end HashArchive.Deflate
