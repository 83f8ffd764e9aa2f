/-
  HashArchive.Proofs.Deflate.Grammar

  What a deflate stream is, without a reader: which bits make a word, a repetition, a list of
  word lengths, a block, and a sequence of blocks up to the final one.  Each part is a relation
  between the bits and what they stand for; only a stored block depends on where in the stream
  it begins, since it goes on at the next byte.
-/
import HashArchive.Deflate.Inflate

namespace HashArchive.Deflate

/-! ## Fields and words -/

/-- A number of so many bits, lowest first. -/
structure Field (width : Nat) (bits : List Bool) (value : Nat) : Prop where
  length : bits.length = width
  value : value = Bits.toNat bits

/-- Several fields of one width. -/
inductive Fields (width : Nat) : (count : Nat) → (bits : List Bool) → (values : List Nat) → Prop
  | nil : Fields width 0 [] []
  | cons {count value : Nat} {front back : List Bool} {values : List Nat}
      (first : Field width front value) (others : Fields width count back values) :
      Fields width (count + 1) (front ++ back) (value :: values)

/-- The bits that lead to a symbol. -/
inductive Code.Word : Code → (word : List Bool) → (symbol : Nat) → Prop
  | done (symbol : Nat) : Word (.symbol symbol) [] symbol
  | zero {zero one : Code} {word : List Bool} {symbol : Nat} (rest : Word zero word symbol) :
      Word (.branch zero one) (false :: word) symbol
  | one {zero one : Code} {word : List Bool} {symbol : Nat} (rest : Word one word symbol) :
      Word (.branch zero one) (true :: word) symbol

/-- The word of a symbol. -/
def CodeBook.Word (book : CodeBook) : (word : List Bool) → (symbol : Nat) → Prop :=
  Code.Word (.branch book.zero book.one)

/-- The bits that say which of the numbers of a symbol is meant. -/
inductive Number (table : List (Nat × Nat)) (symbol : Nat) : (bits : List Bool) → Nat → Prop
  | mk {least width more : Nat} {bits : List Bool} (row : table[symbol]? = some (least, width))
      (field : Field width bits more) : Number table symbol bits (least + more)

/-! ## Coded blocks -/

/-- What follows a length symbol: its bits, and the distance, which leads into the output. -/
inductive Repetition (distances : CodeBook) (lengthSymbol : Nat) (before : Array UInt8) :
    (bits : List Bool) → (after : Array UInt8) → Prop
  | mk {lengthBits word distanceBits : List Bool} {length symbol distance : Nat}
      (number : Number lengthTable (lengthSymbol - 257) lengthBits length)
      (far : distances.Word word symbol) (place : Number distanceTable symbol distanceBits distance)
      (inside : distance ≤ before.size) :
      Repetition distances lengthSymbol before (lengthBits ++ (word ++ distanceBits))
        (repeatFrom distance length before)

/-- One symbol and what it adds to the output, and whether the block goes on after it. -/
inductive Element (literals distances : CodeBook) (before : Array UInt8) :
    (bits : List Bool) → (after : Array UInt8 × Bool) → Prop
  | byte {word : List Bool} {symbol : Nat} (literal : literals.Word word symbol)
      (isByte : symbol < 256) :
      Element literals distances before word (before.push (UInt8.ofNat symbol), true)
  | stop {word : List Bool} (literal : literals.Word word 256) :
      Element literals distances before word (before, false)
  | repetition {word bits : List Bool} {symbol : Nat} {after : Array UInt8}
      (literal : literals.Word word symbol) (isLength : 256 < symbol)
      (copy : Repetition distances symbol before bits after) :
      Element literals distances before (word ++ bits) (after, true)

/-- Symbols up to the one that ends the block. -/
inductive Coded (literals distances : CodeBook) :
    (before : Array UInt8) → (bits : List Bool) → (after : Array UInt8) → Prop
  | stop {before after : Array UInt8} {bits : List Bool}
      (last : Element literals distances before bits (after, false)) :
      Coded literals distances before bits after
  | more {before middle after : Array UInt8} {front back : List Bool}
      (first : Element literals distances before front (middle, true))
      (others : Coded literals distances middle back after) :
      Coded literals distances before (front ++ back) after

/-! ## Books of a block's own -/

/-- What one symbol adds to a list of word lengths. -/
inductive Lengthening (before : Array Nat) :
    (symbol : Nat) → (bits : List Bool) → (after : Array Nat) → Prop
  | length {symbol : Nat} (isLength : symbol < 16) :
      Lengthening before symbol [] (before.push symbol)
  | again {bits : List Bool} {last more : Nat} (previous : before.back? = some last)
      (times : Field 2 bits more) :
      Lengthening before 16 bits (before ++ Array.replicate (3 + more) last)
  | zeros {bits : List Bool} {more : Nat} (times : Field 3 bits more) :
      Lengthening before 17 bits (before ++ Array.replicate (3 + more) 0)
  | manyZeros {symbol : Nat} {bits : List Bool} {more : Nat} (isLast : 17 < symbol)
      (times : Field 7 bits more) :
      Lengthening before symbol bits (before ++ Array.replicate (11 + more) 0)

/-- Word lengths in the words of a book, as many as announced. -/
inductive Lengths (book : CodeBook) (total : Nat) :
    (before : Array Nat) → (bits : List Bool) → (lengths : List Nat) → Prop
  | done {before : Array Nat} (all : before.size = total) :
      Lengths book total before [] before.toList
  | more {before middle : Array Nat} {word bits back : List Bool} {symbol : Nat}
      {lengths : List Nat} (missing : before.size < total) (first : book.Word word symbol)
      (added : Lengthening before symbol bits middle)
      (others : Lengths book total middle back lengths) :
      Lengths book total before ((word ++ bits) ++ back) lengths

/-- The lengths of the words for word lengths, in the order of their symbols. -/
def lengthLengths (listed : List Nat) : List Nat :=
  (List.range 19).map fun symbol => ((lengthCodeOrder.zip listed).lookup symbol).getD 0

/-- The two books that a block brings: three counts, the book for word lengths, and the word
    lengths of both books. -/
inductive Books : (bits : List Bool) → (books : CodeBook × CodeBook) → Prop
  | mk {literalBits distanceBits lengthBits listBits back : List Bool}
      {literalCount distanceCount lengthCount : Nat} {listed lengths : List Nat}
      {book : CodeBook} {books : CodeBook × CodeBook}
      (literals : Field 5 literalBits literalCount) (distances : Field 5 distanceBits distanceCount)
      (count : Field 4 lengthBits lengthCount)
      (allowed : literalCount + 257 ≤ 286 ∧ distanceCount + 1 ≤ 30)
      (list : Fields 3 (lengthCount + 4) listBits listed)
      (lengthBook : lengthBookOf (lengthLengths listed) = .ok book)
      (words : Lengths book (literalCount + 257 + (distanceCount + 1)) #[] back lengths)
      (own : booksOf (literalCount + 257) lengths = .ok books) :
      Books (literalBits ++ (distanceBits ++ (lengthBits ++ (listBits ++ back)))) books

/-! ## Blocks -/

/-- A block after its three first bits, of which two name its type; it is the position in the
    stream of what follows them that is given. -/
inductive Block (position : Nat) : (low high : Bool) → (before : Array UInt8) →
    (bits : List Bool) → (after : Array UInt8) → Prop
  | stored {before : Array UInt8} {padding lengthBits complementBits : List Bool} {complement : Nat}
      {content : Bytes} (short : padding.length < 8)
      (aligned : (position + padding.length) % 8 = 0) (size : Field 16 lengthBits content.length)
      (check : Field 16 complementBits complement)
      (agree : content.length + complement = 0xFFFF) :
      Block position false false before
        (padding ++ (lengthBits ++ (complementBits ++ Bits.ofBytes content)))
        (before ++ content.toArray)
  | fixed {before after : Array UInt8} {bits : List Bool}
      (coded : Coded fixedLiterals fixedDistances before bits after) :
      Block position true false before bits after
  | own {before after : Array UInt8} {front back : List Bool} {literals distances : CodeBook}
      (books : Books front (literals, distances)) (coded : Coded literals distances before back after) :
      Block position false true before (front ++ back) after

/-- Blocks up to the first one that is marked final, from a position in the stream on. -/
inductive Blocks : (position : Nat) → (before : Array UInt8) → (bits : List Bool) →
    (after : Array UInt8) → Prop
  | final {position : Nat} {before after : Array UInt8} {low high : Bool} {bits : List Bool}
      (block : Block (position + 3) low high before bits after) :
      Blocks position before (true :: low :: high :: bits) after
  | more {position : Nat} {before middle after : Array UInt8} {low high : Bool}
      {front back : List Bool} (block : Block (position + 3) low high before front middle)
      (others : Blocks (position + 3 + front.length) middle back after) :
      Blocks position before (false :: low :: high :: (front ++ back)) after

/-- A whole stream of a content: its blocks, and bits that fill up the last byte. -/
def Deflated (content stream : Bytes) : Prop :=
  ∃ bits padding, Bits.ofBytes stream = bits ++ padding ∧ padding.length < 8 ∧
    Blocks 0 #[] bits content.toArray

end HashArchive.Deflate
