/-
  HashArchive.Proofs.Packed

  Packed bytes hold a content exactly when two bytes stand before a whole stream of it
  (`unpack_eq_ok_iff`): the two bytes can be any, whatever follows the stream is not looked at,
  and a wrong size that was declared is noted but changes nothing (`unpackDeclared_reframed`).
-/
import Mathlib
import HashArchive.Packed
import HashArchive.Proofs.Deflate.Inflate

namespace HashArchive

variable {deflate : Bytes → Bytes} {content packed : Bytes}

namespace Packed

/-- Packed bytes are two bytes, a whole stream, and whatever follows it. -/
theorem unpack_eq_ok_iff :
    unpack packed = .ok content ↔ ∃ first second stream rest,
      packed = first :: second :: (stream ++ rest) ∧ Deflate.Deflated content stream := by
  constructor
  · intro h
    match packed with
    | [] => cases h
    | [_] => cases h
    | first :: second :: packed =>
      have hinflated : Deflate.inflate packed = .ok content := by
        cases hinflated : Deflate.inflate packed with
        | error fault => rw [unpack, hinflated] at h; cases h
        | ok inflated => rw [unpack, hinflated] at h; cases h; rfl
      obtain ⟨stream, rest, rfl, hstream⟩ := Deflate.inflate_eq_ok_iff.mp hinflated
      exact ⟨first, second, stream, rest, rfl, hstream⟩
  · rintro ⟨first, second, stream, rest, rfl, hstream⟩
    rw [unpack, hstream.inflate_append rest]
    rfl

/-- What is packed begins with the marker, and its content is found again when other bytes stand
    in the place of the marker, when more bytes follow, and whatever size was declared for it, so
    long as the encoder made a whole stream. -/
theorem unpackDeclared_reframed (h : Deflate.Deflated content (deflate content)) :
    (pack content deflate).take 2 = [0x78, 0x5E] ∧
      ∀ (first second : UInt8) (trailing : Bytes) (size : UInt32),
        unpackDeclared (first :: second :: ((pack content deflate).drop 2 ++ trailing)) size
          = .ok { content, asDeclared := content.length = size.toNat } := by
  refine ⟨rfl, fun first second trailing size => ?_⟩
  have hunpacked : unpack (first :: second :: (deflate content ++ trailing)) = .ok content :=
    unpack_eq_ok_iff.mpr ⟨first, second, deflate content, trailing, rfl, h⟩
  show (unpack (first :: second :: (deflate content ++ trailing)) >>= _) = _
  rw [hunpacked]
  rfl

/-- Two letters in the words of the fixed book. -/
theorem deflated_letters : Deflate.Deflated [0x61, 0x62] [0x4B, 0x4C, 0x02, 0x00] := by
  have hword (bits : List Bool) (symbol : Nat)
      (h : Deflate.fixedLiterals.decode bits = .ok (symbol, [])) :
      Deflate.fixedLiterals.Word bits symbol :=
    (Deflate.CodeBook.reads_decode _).derives h
  have hfirst := hword [true, false, false, true, false, false, false, true] 0x61
    (by decide +kernel)
  have hsecond := hword [true, false, false, true, false, false, true, false] 0x62
    (by decide +kernel)
  have hstop := hword (List.replicate 7 false) 256 (by decide +kernel)
  exact ⟨_, List.replicate 6 false, by decide, by decide, .final <| .fixed <|
    .more (.byte hfirst (by decide)) <| .more (.byte hsecond (by decide)) <| .stop (.stop hstop)⟩

theorem unpackDeclared_reframed_letters :
    Deflate.Deflated [0x61, 0x62] [0x4B, 0x4C, 0x02, 0x00] ∧
      unpackDeclared [0x00, 0xFF, 0x4B, 0x4C, 0x02, 0x00, 0x99] 7
        = .ok { content := [0x61, 0x62], asDeclared := false } :=
  ⟨deflated_letters,
    (@unpackDeclared_reframed (fun _ => [0x4B, 0x4C, 0x02, 0x00]) _ deflated_letters).2
      0x00 0xFF [0x99] 7⟩

end Packed

end HashArchive
