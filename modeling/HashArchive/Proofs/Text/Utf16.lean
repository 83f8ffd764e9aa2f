/-
  HashArchive.Proofs.Text.Utf16

  Every text is read back from its UTF-16 units: a character of the basic plane is no
  surrogate, and the two units of any other are one of each kind.  Any other list of units is
  decoded to the text that shows it, with a replacement for each surrogate that stands alone
  (`lossy_iff`).
-/
import Mathlib
import HashArchive.Text.Utf16

namespace HashArchive.Text.Utf16

theorem isHigh_eq_false {u : UInt16} (h : u.toNat < 0xD800 ∨ 0xDC00 ≤ u.toNat) :
    isHigh u = false := by
  simp only [isHigh, Bool.and_eq_false_iff, decide_eq_false_iff_not, UInt16.le_iff_toNat_le,
    UInt16.lt_iff_toNat_lt, UInt16.reduceToNat]
  omega

theorem isLow_eq_false {u : UInt16} (h : u.toNat < 0xDC00 ∨ 0xE000 ≤ u.toNat) :
    isLow u = false := by
  simp only [isLow, Bool.and_eq_false_iff, decide_eq_false_iff_not, UInt16.le_iff_toNat_le,
    UInt16.lt_iff_toNat_lt, UInt16.reduceToNat]
  omega

theorem isHigh_eq_true {u : UInt16} (h : 0xD800 ≤ u.toNat ∧ u.toNat < 0xDC00) :
    isHigh u = true := by
  simp only [isHigh, Bool.and_eq_true, decide_eq_true_eq, UInt16.le_iff_toNat_le,
    UInt16.lt_iff_toNat_lt, UInt16.reduceToNat]
  exact h

theorem isLow_eq_true {u : UInt16} (h : 0xDC00 ≤ u.toNat ∧ u.toNat < 0xE000) :
    isLow u = true := by
  simp only [isLow, Bool.and_eq_true, decide_eq_true_eq, UInt16.le_iff_toNat_le,
    UInt16.lt_iff_toNat_lt, UInt16.reduceToNat]
  exact h

/-- A unit that is no surrogate stands for a character by itself. -/
theorem decode_cons {u : UInt16} (hhigh : isHigh u = false) (hlow : isLow u = false)
    (rest : List UInt16) : decode (u :: rest) = Char.ofNat u.toNat :: decode rest := by
  cases rest with
  | nil => simp [decode, hhigh, hlow]
  | cons v rest => simp [decode, hhigh, hlow]

theorem decode_pair {u v : UInt16} (hhigh : isHigh u = true) (hlow : isLow v = true)
    (rest : List UInt16) : decode (u :: v :: rest) = pair u v :: decode rest := by
  rw [decode, hhigh, hlow]
  rfl

/-- No character has the number of a surrogate. -/
theorem toNat_cases (c : Char) :
    c.toNat < 0xD800 ∨ 0xE000 ≤ c.toNat ∧ c.toNat < 0x110000 := by
  have hvalid : c.val.toNat < 0xD800 ∨ 0xDFFF < c.val.toNat ∧ c.val.toNat < 0x110000 := c.valid
  show c.val.toNat < 0xD800 ∨ 0xE000 ≤ c.val.toNat ∧ c.val.toNat < 0x110000
  omega

theorem decode_ofChar_append (c : Char) (rest : List UInt16) :
    decode (ofChar c ++ rest) = c :: decode rest := by
  have hcode := toNat_cases c
  unfold ofChar
  dsimp only
  by_cases hbasic : c.toNat < 0x10000
  · have hunit : (UInt16.ofNat c.toNat).toNat = c.toNat := UInt16.toNat_ofNat_of_lt' hbasic
    rw [if_pos hbasic, List.singleton_append,
      decode_cons (isHigh_eq_false (by omega)) (isLow_eq_false (by omega)), hunit, Char.ofNat_toNat]
  · set high := (c.toNat - 0x10000) / 0x400 with hhigh
    set low := (c.toNat - 0x10000) % 0x400 with hlow
    have hhighUnit : (UInt16.ofNat (0xD800 + high)).toNat = 0xD800 + high :=
      UInt16.toNat_ofNat_of_lt' (by show _ < 65536; omega)
    have hlowUnit : (UInt16.ofNat (0xDC00 + low)).toNat = 0xDC00 + low :=
      UInt16.toNat_ofNat_of_lt' (by show _ < 65536; omega)
    have hsum : 0x10000 + (0xD800 + high - 0xD800) * 0x400 + (0xDC00 + low - 0xDC00) = c.toNat := by
      omega
    rw [if_neg hbasic, List.cons_append, List.singleton_append,
      decode_pair (isHigh_eq_true (by omega)) (isLow_eq_true (by omega)), pair, hhighUnit, hlowUnit,
      hsum, Char.ofNat_toNat]

/-- Every text is read back from its units. -/
theorem decode_encode (text : List Char) : decode (encode text) = text := by
  induction text with
  | nil => rfl
  | cons c text ih =>
    rw [encode, List.flatMap_cons, decode_ofChar_append]
    exact congrArg (c :: ·) ih

/-! ## Surrogates without their partners -/

theorem isHigh_iff {u : UInt16} : isHigh u = true ↔ 0xD800 ≤ u.toNat ∧ u.toNat < 0xDC00 := by
  refine ⟨fun h => ?_, isHigh_eq_true⟩
  by_contra hnot
  rw [isHigh_eq_false (by omega)] at h
  cases h

theorem isLow_iff {u : UInt16} : isLow u = true ↔ 0xDC00 ≤ u.toNat ∧ u.toNat < 0xE000 := by
  refine ⟨fun h => ?_, isLow_eq_true⟩
  by_contra hnot
  rw [isLow_eq_false (by omega)] at h
  cases h

/-- The text shows the units: characters by themselves, and a replacement for each surrogate
    whose partner does not follow. -/
inductive Lossy : List UInt16 → List Char → Prop
  | nil : Lossy [] []
  | char (c : Char) {units : List UInt16} {text : List Char} (rest : Lossy units text) :
      Lossy (ofChar c ++ units) (c :: text)
  | alone {u : UInt16} {units : List UInt16} {text : List Char}
      (surrogate : isHigh u = true ∨ isLow u = true)
      (single : ∀ v ∈ units.head?, ¬ (isHigh u = true ∧ isLow v = true))
      (rest : Lossy units text) : Lossy (u :: units) (replacement :: text)

/-- A surrogate alone is decoded to a replacement. -/
theorem decode_alone {u : UInt16} {units : List UInt16}
    (hsurrogate : isHigh u = true ∨ isLow u = true)
    (hsingle : ∀ v ∈ units.head?, ¬ (isHigh u = true ∧ isLow v = true)) :
    decode (u :: units) = replacement :: decode units := by
  have heither : (isHigh u || isLow u) = true := by rwa [Bool.or_eq_true]
  cases units with
  | nil => simp only [decode, heither, if_true]
  | cons v units =>
    have hnot : ¬ (isHigh u && isLow v) = true := by
      rw [Bool.and_eq_true]
      exact hsingle v rfl
    rw [decode, if_neg hnot, if_pos heither]

/-- A unit that is no surrogate is that of the character of its number. -/
theorem ofChar_ofNat {u : UInt16} (h : ¬ (isHigh u = true ∨ isLow u = true)) :
    ofChar (Char.ofNat u.toNat) = [u] := by
  rw [isHigh_iff, isLow_iff] at h
  have hlt : u.toNat < 65536 := u.toNat_lt
  have hvalid : u.toNat.isValidChar := by
    rw [Nat.isValidChar]
    omega
  rw [ofChar, Char.toNat_ofNat, if_pos hvalid, if_pos hlt, UInt16.ofNat_toNat]

/-- A pair is the two units of the character that it stands for. -/
theorem ofChar_pair {u v : UInt16} (hhigh : isHigh u = true) (hlow : isLow v = true) :
    ofChar (pair u v) = [u, v] := by
  rw [isHigh_iff] at hhigh
  rw [isLow_iff] at hlow
  set code := 0x10000 + (u.toNat - 0xD800) * 0x400 + (v.toNat - 0xDC00) with hcode
  have hvalid : code.isValidChar := by
    rw [Nat.isValidChar]
    omega
  have hfirst : 0xD800 + (code - 0x10000) / 0x400 = u.toNat := by omega
  have hsecond : 0xDC00 + (code - 0x10000) % 0x400 = v.toNat := by omega
  rw [ofChar, pair, ← hcode, Char.toNat_ofNat, if_pos hvalid, if_neg (by omega), hfirst, hsecond,
    UInt16.ofNat_toNat, UInt16.ofNat_toNat]

theorem lossy_cons_of_single {u : UInt16} {units : List UInt16}
    (hsingle : ∀ v ∈ units.head?, ¬ (isHigh u = true ∧ isLow v = true))
    (h : Lossy units (decode units)) : Lossy (u :: units) (decode (u :: units)) := by
  by_cases hsurrogate : isHigh u = true ∨ isLow u = true
  · rw [decode_alone hsurrogate hsingle]
    exact .alone hsurrogate hsingle h
  · have hunit : u :: units = ofChar (Char.ofNat u.toNat) ++ units := by
      rw [ofChar_ofNat hsurrogate, List.singleton_append]
    rw [hunit, decode_ofChar_append]
    exact .char _ h

theorem lossy_decode (units : List UInt16) : Lossy units (decode units) := by
  induction units using decode.induct with
  | case1 => exact .nil
  | case2 u => exact lossy_cons_of_single (fun _ hv => nomatch hv) .nil
  | case3 u v units hpair ih =>
    rw [Bool.and_eq_true] at hpair
    rw [decode_pair hpair.1 hpair.2]
    have hunits : u :: v :: units = ofChar (pair u v) ++ units := by
      rw [ofChar_pair hpair.1 hpair.2]
      rfl
    rw [hunits]
    exact .char _ ih
  | case4 u v units hpair ih =>
    refine lossy_cons_of_single ?_ ih
    rintro _ hv
    obtain rfl := Option.some.inj hv
    rwa [Bool.and_eq_true] at hpair

/-- Decoding shows the units, and nothing else does. -/
theorem lossy_iff {units : List UInt16} {text : List Char} :
    Lossy units text ↔ decode units = text := by
  constructor
  · intro h
    induction h with
    | nil => rfl
    | char c _ ih => rw [decode_ofChar_append, ih]
    | alone hsurrogate hsingle _ ih => rw [decode_alone hsurrogate hsingle, ih]
  · rintro rfl
    exact lossy_decode units

end HashArchive.Text.Utf16
