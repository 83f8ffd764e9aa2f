/-
  HashArchive.Deflate.Inflate

  Inflating: a stream is a sequence of blocks up to one marked final, each stored as
  it is, coded by the fixed books, or coded by books of its own.  Whatever follows the
  final block is left over.
-/
import HashArchive.Deflate.CodeBook

namespace HashArchive.Deflate

open Outcome

/-! ## Repetitions -/

/-- The least length that each length symbol stands for, and how many bits add to it. -/
def lengthTable : List (Nat × Nat) :=
  [(3, 0), (4, 0), (5, 0), (6, 0), (7, 0), (8, 0), (9, 0), (10, 0), (11, 1), (13, 1), (15, 1),
   (17, 1), (19, 2), (23, 2), (27, 2), (31, 2), (35, 3), (43, 3), (51, 3), (59, 3), (67, 4),
   (83, 4), (99, 4), (115, 4), (131, 5), (163, 5), (195, 5), (227, 5), (258, 0)]

/-- The least distance that each distance symbol stands for, and how many bits add to
    it. -/
def distanceTable : List (Nat × Nat) :=
  [(1, 0), (2, 0), (3, 0), (4, 0), (5, 1), (7, 1), (9, 2), (13, 2), (17, 3), (25, 3), (33, 4),
   (49, 4), (65, 5), (97, 5), (129, 6), (193, 6), (257, 7), (385, 7), (513, 8), (769, 8),
   (1025, 9), (1537, 9), (2049, 10), (3073, 10), (4097, 11), (6145, 11), (8193, 12),
   (12289, 12), (16385, 13), (24577, 13)]

/-- Adds bytes to the output, each the one that stands `distance` before its own place. -/
def repeatFrom (distance : Nat) : (length : Nat) → (output : Array UInt8) → Array UInt8
  | 0, output => output
  | length + 1, output =>
    -- The source may overlap what is being added: the pushed bytes count as output.
    repeatFrom distance length (output.push (output.getD (output.size - distance) 0))

/-- The number that a symbol stands for: its least value and the bits that add to it. -/
def takeValue (table : List (Nat × Nat)) (symbol : Nat) (bits : List Bool) :
    Except Fault (Nat × List Bool) :=
  match table[symbol]? with
  | none => .error .malformed
  | some (least, width) => do
    let (more, bits) ← Bits.take width bits
    return (least + more, bits)

/-- The repetition that a length symbol begins, of which 257 is the first; the source of
    the repetition has to lie in the output. -/
def takeRepeat (distances : CodeBook) (lengthSymbol : Nat) (bits : List Bool)
    (output : Array UInt8) : Except Fault (Array UInt8 × List Bool) := do
  let (length, bits) ← takeValue lengthTable (lengthSymbol - 257) bits
  let (distanceSymbol, bits) ← distances.decode bits
  let (distance, bits) ← takeValue distanceTable distanceSymbol bits
  if output.size < distance then
    .error .malformed
  else
    return (repeatFrom distance length output, bits)

theorem length_of_takeValue {table : List (Nat × Nat)} {symbol value : Nat}
    {bits rest : List Bool} (h : takeValue table symbol bits = .ok (value, rest)) :
    rest.length ≤ bits.length := by
  unfold takeValue at h
  split at h
  · cases h
  · obtain ⟨⟨more, bits₁⟩, hmore, h⟩ := bind_eq_ok_iff.mp h
    obtain ⟨-, rfl⟩ := pure_pair_eq_ok_iff.mp h
    have := Bits.length_of_take hmore
    omega

theorem length_of_takeRepeat {distances : CodeBook} {lengthSymbol : Nat}
    {bits rest : List Bool} {output output' : Array UInt8}
    (h : takeRepeat distances lengthSymbol bits output = .ok (output', rest)) :
    rest.length ≤ bits.length := by
  obtain ⟨⟨length, bits₁⟩, h₁, h⟩ := bind_eq_ok_iff.mp h
  obtain ⟨⟨symbol, bits₂⟩, h₂, h⟩ := bind_eq_ok_iff.mp h
  obtain ⟨⟨distance, bits₃⟩, h₃, h⟩ := bind_eq_ok_iff.mp h
  dsimp only at h
  split at h
  · cases h
  · obtain ⟨-, rfl⟩ := pure_pair_eq_ok_iff.mp h
    have := length_of_takeValue h₁
    have := CodeBook.length_of_decode h₂
    have := length_of_takeValue h₃
    omega

/-! ## Coded blocks -/

/-- What one symbol of a coded block adds to the output, and whether the block goes on
    after it: a symbol below 256 is a byte, 256 ends the block, and those above begin
    repetitions. -/
def takeSymbol (literals distances : CodeBook) (bits : List Bool) (output : Array UInt8) :
    Except Fault ((Array UInt8 × Bool) × List Bool) := do
  let (symbol, bits) ← literals.decode bits
  if symbol < 256 then
    return ((output.push (UInt8.ofNat symbol), true), bits)
  else if symbol = 256 then
    return ((output, false), bits)
  else
    let (output, bits) ← takeRepeat distances symbol bits output
    return ((output, true), bits)

theorem length_of_takeSymbol {literals distances : CodeBook} {bits rest : List Bool}
    {output : Array UInt8} {result : Array UInt8 × Bool}
    (h : takeSymbol literals distances bits output = .ok (result, rest)) :
    rest.length < bits.length := by
  obtain ⟨⟨symbol, bits₁⟩, hsymbol, h⟩ := bind_eq_ok_iff.mp h
  have hshorter := CodeBook.length_of_decode hsymbol
  dsimp only at h
  split at h
  · obtain ⟨-, rfl⟩ := pure_pair_eq_ok_iff.mp h
    exact hshorter
  · split at h
    · obtain ⟨-, rfl⟩ := pure_pair_eq_ok_iff.mp h
      exact hshorter
    · obtain ⟨⟨output₂, bits₂⟩, hrepeat, h⟩ := bind_eq_ok_iff.mp h
      obtain ⟨-, rfl⟩ := pure_pair_eq_ok_iff.mp h
      exact Nat.lt_of_le_of_lt (length_of_takeRepeat hrepeat) hshorter

/-- The content of a coded block. -/
def inflateCoded (literals distances : CodeBook) (bits : List Bool) (output : Array UInt8) :
    Except Fault (Array UInt8 × List Bool) :=
  match _taken : takeSymbol literals distances bits output with
  | .error fault => .error fault
  | .ok ((output, false), rest) => .ok (output, rest)
  | .ok ((output, true), rest) => inflateCoded literals distances rest output
termination_by bits.length
decreasing_by exact length_of_takeSymbol _taken

theorem length_of_inflateCoded {literals distances : CodeBook} {bits rest : List Bool}
    {output output' : Array UInt8}
    (h : inflateCoded literals distances bits output = .ok (output', rest)) :
    rest.length ≤ bits.length := by
  fun_induction inflateCoded literals distances bits output with
  | case1 => cases h
  | case2 bits output output₁ rest₁ htaken =>
    obtain ⟨-, rfl⟩ := Prod.mk.inj (Except.ok.inj h)
    exact Nat.le_of_lt (length_of_takeSymbol htaken)
  | case3 bits output output₁ rest₁ htaken ih =>
    exact Nat.le_trans (ih h) (Nat.le_of_lt (length_of_takeSymbol htaken))

/-- The word lengths of the fixed book for bytes and lengths. -/
def fixedLiteralLengths : List Nat :=
  List.replicate 144 8 ++ List.replicate 112 9 ++ List.replicate 24 7 ++ List.replicate 8 8

/-- The fixed book for bytes and lengths. -/
def fixedLiterals : CodeBook := CodeBook.ofLengths fixedLiteralLengths

/-- The fixed book for distances. -/
def fixedDistances : CodeBook := CodeBook.ofLengths (List.replicate 32 5)

/-! ## Books of a block's own -/

/-- The order in which a block lists the word lengths of the book for its other word
    lengths. -/
def lengthCodeOrder : List Nat := [16, 17, 18, 0, 8, 7, 9, 6, 10, 5, 11, 4, 12, 3, 13, 2, 14, 1, 15]

/-- What one symbol adds to a list of word lengths: a length, the last length a few
    times more, or a run of zeros. -/
def takeLength (symbol : Nat) (bits : List Bool) (lengths : Array Nat) :
    Except Fault (Array Nat × List Bool) :=
  if symbol < 16 then
    .ok (lengths.push symbol, bits)
  else if symbol = 16 then do
    let (more, bits) ← Bits.take 2 bits
    match lengths.back? with
    | none => .error .malformed
    | some last => return (lengths ++ Array.replicate (3 + more) last, bits)
  else if symbol = 17 then do
    let (more, bits) ← Bits.take 3 bits
    return (lengths ++ Array.replicate (3 + more) 0, bits)
  else do
    let (more, bits) ← Bits.take 7 bits
    return (lengths ++ Array.replicate (11 + more) 0, bits)

theorem length_of_takeLength {symbol : Nat} {bits rest : List Bool} {lengths lengths' : Array Nat}
    (h : takeLength symbol bits lengths = .ok (lengths', rest)) : rest.length ≤ bits.length := by
  have hrun : ∀ {width : Nat} {f : Nat → Array Nat},
      (do let (more, bits) ← Bits.take width bits
          return (f more, bits)) = Except.ok (lengths', rest) → rest.length ≤ bits.length := by
    intro width f h
    obtain ⟨⟨more, bits₁⟩, hmore, h⟩ := bind_eq_ok_iff.mp h
    obtain ⟨-, rfl⟩ := pure_pair_eq_ok_iff.mp h
    have := Bits.length_of_take hmore
    omega
  unfold takeLength at h
  split at h
  · obtain ⟨-, rfl⟩ := Prod.mk.inj (Except.ok.inj h)
    exact Nat.le_refl _
  · split at h
    · obtain ⟨⟨more, bits₁⟩, hmore, h⟩ := bind_eq_ok_iff.mp h
      dsimp only at h
      split at h
      · cases h
      · obtain ⟨-, rfl⟩ := pure_pair_eq_ok_iff.mp h
        have := Bits.length_of_take hmore
        omega
    · split at h
      · exact hrun (f := fun more => lengths ++ Array.replicate (3 + more) 0) h
      · exact hrun (f := fun more => lengths ++ Array.replicate (11 + more) 0) h

/-- What the next symbol adds to a list of word lengths. -/
def takeNextLengths (book : CodeBook) (bits : List Bool) (lengths : Array Nat) :
    Except Fault (Array Nat × List Bool) := do
  let (symbol, bits) ← book.decode bits
  takeLength symbol bits lengths

theorem length_of_takeNextLengths {book : CodeBook} {bits rest : List Bool}
    {lengths lengths' : Array Nat}
    (h : takeNextLengths book bits lengths = .ok (lengths', rest)) :
    rest.length < bits.length := by
  obtain ⟨⟨symbol, bits₁⟩, hsymbol, h⟩ := bind_eq_ok_iff.mp h
  exact Nat.lt_of_le_of_lt (length_of_takeLength h) (CodeBook.length_of_decode hsymbol)

/-- Word lengths until there are as many as announced, but not more. -/
def takeLengths (book : CodeBook) (total : Nat) (bits : List Bool) (lengths : Array Nat) :
    Except Fault (List Nat × List Bool) :=
  if lengths.size < total then
    match _taken : takeNextLengths book bits lengths with
    | .error fault => .error fault
    | .ok (lengths, rest) => takeLengths book total rest lengths
  else if lengths.size = total then
    .ok (lengths.toList, bits)
  else
    .error .malformed
termination_by bits.length
decreasing_by exact length_of_takeNextLengths _taken

theorem length_of_takeLengths {book : CodeBook} {total : Nat} {bits rest : List Bool}
    {lengths : Array Nat} {result : List Nat}
    (h : takeLengths book total bits lengths = .ok (result, rest)) :
    rest.length ≤ bits.length := by
  fun_induction takeLengths book total bits lengths with
  | case1 => cases h
  | case2 bits lengths _ lengths₁ rest₁ htaken ih =>
    exact Nat.le_trans (ih h) (Nat.le_of_lt (length_of_takeNextLengths htaken))
  | case3 bits lengths _ _ =>
    obtain ⟨-, rfl⟩ := Prod.mk.inj (Except.ok.inj h)
    exact Nat.le_refl _
  | case4 => cases h

/-- The book for word lengths that a block announces.  It may not leave bit strings
    without a word; but where no symbol has a word, every bit stands for the length zero,
    so that the lengths can still be read. -/
def lengthBookOf (lengths : List Nat) : Except Fault CodeBook :=
  if CodeBook.Complete lengths then .ok (CodeBook.ofLengths lengths)
  else if CodeBook.wordLengths lengths = [] then .ok (CodeBook.constant 0)
  else .error .malformed

/-- The book of word lengths that a block announces; only a book without words, or with a
    single word of one bit, may leave bit strings without a word. -/
def bookOf (lengths : List Nat) : Except Fault CodeBook :=
  if CodeBook.Complete lengths ∨ CodeBook.Sparse lengths then
    .ok (CodeBook.ofLengths lengths)
  else
    .error .malformed

/-- The books of the word lengths that a block lists: those of bytes and lengths come
    first, and the end of a block has to have a word among them. -/
def booksOf (literalCount : Nat) (lengths : List Nat) : Except Fault (CodeBook × CodeBook) :=
  if lengths.getD 256 0 = 0 then
    .error .malformed
  else do
    let literals ← bookOf (lengths.take literalCount)
    let distances ← bookOf (lengths.drop literalCount)
    return (literals, distances)

/-- The two books at the front of a block that brings its own. -/
def takeBooks (bits : List Bool) : Except Fault ((CodeBook × CodeBook) × List Bool) := do
  let (literalCount, bits) ← Bits.take 5 bits
  let (distanceCount, bits) ← Bits.take 5 bits
  let (lengthCount, bits) ← Bits.take 4 bits
  -- The counts are settled before any length is read.
  let literalCount := literalCount + 257
  let distanceCount := distanceCount + 1
  if 286 < literalCount ∨ 30 < distanceCount then
    .error .malformed
  else
    let (listed, bits) ← Bits.takeMany 3 (lengthCount + 4) bits
    -- A symbol that is not listed has no word.
    let lengthLengths :=
      (List.range 19).map fun symbol => ((lengthCodeOrder.zip listed).lookup symbol).getD 0
    let book ← lengthBookOf lengthLengths
    -- One list serves both books, so a repetition may run from the first into the second.
    let (lengths, bits) ← takeLengths book (literalCount + distanceCount) bits #[]
    let books ← booksOf literalCount lengths
    return (books, bits)

theorem length_of_takeBooks {bits rest : List Bool} {books : CodeBook × CodeBook}
    (h : takeBooks bits = .ok (books, rest)) : rest.length ≤ bits.length := by
  obtain ⟨⟨literalCount, bits₁⟩, h₁, h⟩ := bind_eq_ok_iff.mp h
  obtain ⟨⟨distanceCount, bits₂⟩, h₂, h⟩ := bind_eq_ok_iff.mp h
  obtain ⟨⟨lengthCount, bits₃⟩, h₃, h⟩ := bind_eq_ok_iff.mp h
  dsimp only at h
  split at h
  · cases h
  · obtain ⟨⟨listed, bits₄⟩, h₄, h⟩ := bind_eq_ok_iff.mp h
    obtain ⟨book, -, h⟩ := bind_eq_ok_iff.mp h
    obtain ⟨⟨lengths, bits₅⟩, h₅, h⟩ := bind_eq_ok_iff.mp h
    obtain ⟨books₆, -, h⟩ := bind_eq_ok_iff.mp h
    obtain ⟨-, rfl⟩ := pure_pair_eq_ok_iff.mp h
    have := Bits.length_of_take h₁
    have := Bits.length_of_take h₂
    have := Bits.length_of_take h₃
    have := Bits.length_of_takeMany h₄
    have : bits₅.length ≤ bits₄.length := length_of_takeLengths h₅
    show bits₅.length ≤ bits.length
    omega

/-! ## Blocks -/

/-- The content of a stored block: its length, the same length complemented, and the
    bytes, all on byte boundaries. -/
def inflateStored (bits : List Bool) (output : Array UInt8) :
    Except Fault (Array UInt8 × List Bool) := do
  let (length, bits) ← Bits.take 16 (Bits.align bits)
  let (complement, bits) ← Bits.take 16 bits
  if length + complement ≠ 0xFFFF then
    .error .malformed
  else
    Bits.takeBytes length bits output

/-- The content of a block of the type that two bits name. -/
def inflateBlock (low high : Bool) (bits : List Bool) (output : Array UInt8) :
    Except Fault (Array UInt8 × List Bool) :=
  match high, low with
  | false, false => inflateStored bits output
  | false, true => inflateCoded fixedLiterals fixedDistances bits output
  | true, false => do
    let ((literals, distances), bits) ← takeBooks bits
    inflateCoded literals distances bits output
  | true, true => .error .malformed

theorem length_of_inflateBlock {low high : Bool} {bits rest : List Bool}
    {output output' : Array UInt8}
    (h : inflateBlock low high bits output = .ok (output', rest)) : rest.length ≤ bits.length := by
  unfold inflateBlock at h
  split at h
  · obtain ⟨⟨length, bits₁⟩, h₁, h⟩ := bind_eq_ok_iff.mp h
    obtain ⟨⟨complement, bits₂⟩, h₂, h⟩ := bind_eq_ok_iff.mp h
    dsimp only at h
    split at h
    · cases h
    · have := Bits.length_align_le bits
      have := Bits.length_of_take h₁
      have := Bits.length_of_take h₂
      have := Bits.length_of_takeBytes h
      omega
  · exact length_of_inflateCoded h
  · obtain ⟨⟨⟨literals, distances⟩, bits₁⟩, h₁, h⟩ := bind_eq_ok_iff.mp h
    exact Nat.le_trans (length_of_inflateCoded h) (length_of_takeBooks h₁)
  · cases h

/-- The content of the blocks up to the final one, and the bits that follow it. -/
def inflateBlocks (bits : List Bool) (output : Array UInt8) :
    Except Fault (Array UInt8 × List Bool) :=
  match bits with
  | final :: low :: high :: bits =>
    match _inflated : inflateBlock low high bits output with
    | .error fault => .error fault
    | .ok (output, rest) => if final then .ok (output, rest) else inflateBlocks rest output
  | _ => .error .truncated
termination_by bits.length
decreasing_by
  have := length_of_inflateBlock _inflated
  simp only [List.length_cons]
  omega

/-- The content of a stream; bytes after its final block are ignored. -/
def inflate (stream : Bytes) : Except Fault Bytes := do
  let (output, _) ← inflateBlocks (Bits.ofBytes stream) #[]
  return output.toList

end HashArchive.Deflate
