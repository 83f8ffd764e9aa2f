/-
  HashArchive.Proofs.Deflate.Inflate

  The inflater reads the grammar of deflate streams: each of its readers takes off the front
  exactly what its part of the grammar derives (`Reads`).  So a stream is inflated to a content
  exactly when it begins with a whole stream of that content, at whatever bit that ends, and what
  follows is not looked at (`inflate_eq_ok_iff`).
-/
import Mathlib
import HashArchive.Proofs.Deflate.Grammar
import HashArchive.Proofs.Deflate.Store

namespace HashArchive.Deflate

open Outcome

/-! ## Readers and grammars -/

/-- A reader takes off the front what a grammar derives, and leaves the rest as it is. -/
def Reads {α : Type} (reader : List Bool → Except Fault (α × List Bool))
    (grammar : List Bool → α → Prop) : Prop :=
  ∀ bits value rest, reader bits = .ok (value, rest) ↔
    ∃ front, bits = front ++ rest ∧ grammar front value

section Reads

variable {α β : Type} {reader : List Bool → Except Fault (α × List Bool)}
  {grammar other : List Bool → α → Prop}

theorem Reads.congr (h : Reads reader grammar)
    (hsame : ∀ bits value, grammar bits value ↔ other bits value) : Reads reader other := by
  intro bits value rest
  rw [h bits value rest]
  exact exists_congr fun front => and_congr_right fun _ => hsame front value

/-- The reader of a value that is known takes nothing off. -/
theorem reads_pure (value : α) :
    Reads (fun bits => .ok (value, bits)) fun bits result => bits = [] ∧ result = value := by
  intro bits result rest
  rw [Except.ok.injEq, Prod.mk.injEq]
  constructor
  · rintro ⟨rfl, rfl⟩
    exact ⟨[], rfl, rfl, rfl⟩
  · rintro ⟨front, rfl, rfl, rfl⟩
    exact ⟨rfl, rfl⟩

theorem reads_error (fault : Fault) :
    Reads (α := α) (fun _ => .error fault) fun _ _ => False := by
  intro bits result rest
  exact iff_of_false (fun h => nomatch h) fun ⟨_, _, h⟩ => h

/-- One reader after another reads what the one derives before what the other does. -/
theorem Reads.bind (h : Reads reader grammar)
    {next : α → List Bool → Except Fault (β × List Bool)} {following : α → List Bool → β → Prop}
    (hnext : ∀ value, Reads (next value) (following value)) :
    Reads (fun bits => reader bits >>= fun read => next read.1 read.2) fun bits result =>
      ∃ front value back, bits = front ++ back ∧ grammar front value ∧ following value back result := by
  intro bits result rest
  rw [bind_eq_ok_iff]
  constructor
  · rintro ⟨⟨value, bits₁⟩, hread, hrest⟩
    obtain ⟨front, rfl, hfront⟩ := (h bits value bits₁).mp hread
    obtain ⟨back, rfl, hback⟩ := (hnext value bits₁ result rest).mp hrest
    exact ⟨front ++ back, (List.append_assoc ..).symm, front, value, back, rfl, hfront, hback⟩
  · rintro ⟨_, rfl, front, value, back, rfl, hfront, hback⟩
    refine ⟨(value, back ++ rest), ?_, ?_⟩
    · exact (h _ _ _).mpr ⟨front, List.append_assoc .., hfront⟩
    · exact (hnext value _ _ _).mpr ⟨back, rfl, hback⟩

/-- A reader that depends on a condition. -/
theorem Reads.ite {c : Prop} [Decidable c] {second : List Bool → Except Fault (α × List Bool)}
    (h : c → Reads reader grammar) (hsecond : ¬ c → Reads second other) :
    Reads (fun bits => if c then reader bits else second bits) fun bits value =>
      (c ∧ grammar bits value) ∨ (¬ c ∧ other bits value) := by
  by_cases hc : c
  · simpa [hc] using h hc
  · simpa [hc] using hsecond hc

/-- What the grammar derives is read off, whatever follows it. -/
theorem Reads.read (h : Reads reader grammar) {front : List Bool} {value : α}
    (hfront : grammar front value) (rest : List Bool) : reader (front ++ rest) = .ok (value, rest) :=
  (h _ _ _).mpr ⟨front, rfl, hfront⟩

/-- What is read to the end is derived. -/
theorem Reads.derives (h : Reads reader grammar) {bits : List Bool} {value : α}
    (hread : reader bits = .ok (value, [])) : grammar bits value := by
  obtain ⟨front, rfl, hfront⟩ := (h bits value []).mp hread
  rwa [List.append_nil]

end Reads

/-! ## Fields and words -/

theorem reads_take (width : Nat) : Reads (Bits.take width) (Field width) := by
  intro bits value rest
  constructor
  · intro h
    induction width generalizing bits value with
    | zero =>
      obtain ⟨rfl, rfl⟩ := Prod.mk.inj (Except.ok.inj h)
      exact ⟨[], rfl, rfl, rfl⟩
    | succ width ih =>
      cases bits with
      | nil => cases h
      | cons bit bits =>
        obtain ⟨⟨high, bits₁⟩, hhigh, h⟩ := bind_eq_ok_iff.mp h
        obtain ⟨rfl, rfl⟩ := pure_pair_eq_ok_iff.mp h
        obtain ⟨front, rfl, hlength, rfl⟩ := ih _ _ hhigh
        exact ⟨bit :: front, rfl, congrArg (· + 1) hlength, rfl⟩
  · rintro ⟨front, rfl, rfl, rfl⟩
    exact Bits.take_append front rest

theorem reads_takeMany (width count : Nat) :
    Reads (Bits.takeMany width count) (Fields width count) := by
  induction count with
  | zero =>
    refine (reads_pure []).congr fun bits values => ⟨?_, fun h => ?_⟩
    · rintro ⟨rfl, rfl⟩
      exact .nil
    · cases h
      exact ⟨rfl, rfl⟩
  | succ count ih =>
    refine ((reads_take width).bind fun first => ih.bind fun others =>
      reads_pure (first :: others)).congr fun bits values => ⟨?_, fun h => ?_⟩
    · rintro ⟨front, first, _, rfl, hfirst, back, others, _, rfl, hothers, rfl, rfl⟩
      rw [List.append_nil]
      exact .cons hfirst hothers
    · cases h with
      | cons hfirst hothers =>
        exact ⟨_, _, _, rfl, hfirst, _, _, [], (List.append_nil _).symm, hothers, rfl, rfl⟩

/-- Bytes are taken as their bits. -/
theorem reads_takeBytes (count : Nat) (before : Array UInt8) :
    Reads (fun bits => Bits.takeBytes count bits before) fun bits after =>
      ∃ content : Bytes, content.length = count ∧ bits = Bits.ofBytes content ∧
        after = before ++ content.toArray := by
  intro bits after rest
  constructor
  · intro h
    dsimp only at h
    fun_induction Bits.takeBytes count bits before with
    | case1 bits before =>
      obtain ⟨rfl, rfl⟩ := Prod.mk.inj (Except.ok.inj h)
      exact ⟨[], rfl, [], rfl, rfl, by simp⟩
    | case2 count b0 b1 b2 b3 b4 b5 b6 b7 bits before ih =>
      obtain ⟨_, rfl, content, rfl, rfl, rfl⟩ := ih h
      have hbyte : ∀ b0 b1 b2 b3 b4 b5 b6 b7 : Bool,
          Bits.ofByte (UInt8.ofNat (Bits.toNat [b0, b1, b2, b3, b4, b5, b6, b7]))
            = [b0, b1, b2, b3, b4, b5, b6, b7] := by decide +kernel
      set byte := UInt8.ofNat (Bits.toNat [b0, b1, b2, b3, b4, b5, b6, b7]) with heq
      refine ⟨Bits.ofBytes (byte :: content), ?_, byte :: content, rfl, rfl, by simp⟩
      rw [Bits.ofBytes_cons, heq, hbyte]
      rfl
    | case3 => cases h
  · rintro ⟨_, rfl, content, rfl, rfl, rfl⟩
    exact Bits.takeBytes_ofBytes content rest before

theorem Code.reads_decode (code : Code) : Reads code.decode code.Word := by
  intro bits symbol rest
  constructor
  · intro h
    fun_induction Code.decode code bits with
    | case1 => cases h
    | case2 value bits =>
      obtain ⟨rfl, rfl⟩ := Prod.mk.inj (Except.ok.inj h)
      exact ⟨[], rfl, .done value⟩
    | case3 => cases h
    | case4 zero one bits ih =>
      obtain ⟨word, rfl, hword⟩ := ih h
      exact ⟨false :: word, rfl, .zero hword⟩
    | case5 zero one bits ih =>
      obtain ⟨word, rfl, hword⟩ := ih h
      exact ⟨true :: word, rfl, .one hword⟩
  · rintro ⟨word, rfl, hword⟩
    induction hword with
    | done value => rw [List.nil_append, Code.decode]
    | zero _ ih => exact ih
    | one _ ih => exact ih

theorem CodeBook.reads_decode (book : CodeBook) : Reads book.decode book.Word := by
  have hsame : book.decode = (Code.branch book.zero book.one).decode := by
    funext bits
    match bits with
    | [] => rfl
    | false :: _ => rfl
    | true :: _ => rfl
  rw [hsame]
  exact Code.reads_decode _

theorem reads_takeValue (table : List (Nat × Nat)) (symbol : Nat) :
    Reads (takeValue table symbol) (Number table symbol) := by
  cases hrow : table[symbol]? with
  | none =>
    have hnone : takeValue table symbol = fun _ => .error .malformed := by
      funext bits
      rw [takeValue, hrow]
    rw [hnone]
    refine (reads_error .malformed).congr fun bits value => ⟨False.elim, fun h => ?_⟩
    obtain ⟨hsome, -⟩ := h
    rw [hrow] at hsome
    cases hsome
  | some row =>
    obtain ⟨least, width⟩ := row
    have hsome : takeValue table symbol = fun bits =>
        Bits.take width bits >>= fun read => .ok (least + read.1, read.2) := by
      funext bits
      rw [takeValue, hrow]
      rfl
    rw [hsome]
    refine ((reads_take width).bind fun more => reads_pure (least + more)).congr
      fun bits value => ⟨?_, fun h => ?_⟩
    · rintro ⟨front, more, _, rfl, hmore, rfl, rfl⟩
      rw [List.append_nil]
      exact .mk hrow hmore
    · obtain ⟨hfound, hmore⟩ := h
      obtain ⟨rfl, rfl⟩ := Prod.mk.inj (Option.some.inj (hrow.symm.trans hfound))
      exact ⟨bits, _, [], (List.append_nil _).symm, hmore, rfl, rfl⟩

/-! ## Coded blocks -/

theorem reads_takeRepeat (distances : CodeBook) (lengthSymbol : Nat) (before : Array UInt8) :
    Reads (fun bits => takeRepeat distances lengthSymbol bits before)
      (Repetition distances lengthSymbol before) := by
  refine ((reads_takeValue lengthTable _).bind fun length => distances.reads_decode.bind
    fun symbol => (reads_takeValue distanceTable symbol).bind fun distance =>
      Reads.ite (c := before.size < distance) (fun _ => reads_error .malformed)
        fun _ => reads_pure (repeatFrom distance length before)).congr
          fun bits after => ⟨?_, fun h => ?_⟩
  · rintro ⟨_, length, _, rfl, hlength, _, symbol, _, rfl, hsymbol, _, distance, _, rfl, hdistance,
      ⟨-, hfalse⟩ | ⟨hinside, rfl, rfl⟩⟩
    · exact hfalse.elim
    · rw [List.append_nil]
      exact .mk hlength hsymbol hdistance (not_lt.mp hinside)
  · obtain ⟨hlength, hsymbol, hdistance, hinside⟩ := h
    exact ⟨_, _, _, rfl, hlength, _, _, _, rfl, hsymbol, _, _, [], (List.append_nil _).symm,
      hdistance, .inr ⟨not_lt.mpr hinside, rfl, rfl⟩⟩

theorem reads_takeSymbol (literals distances : CodeBook) (before : Array UInt8) :
    Reads (fun bits => takeSymbol literals distances bits before)
      (Element literals distances before) := by
  refine (literals.reads_decode.bind fun symbol =>
    Reads.ite (c := symbol < 256) (fun _ => reads_pure (before.push (UInt8.ofNat symbol), true))
      fun _ => Reads.ite (c := symbol = 256) (fun _ => reads_pure (before, false))
        fun _ => (reads_takeRepeat distances symbol before).bind fun after =>
          reads_pure (after, true)).congr fun bits after => ⟨?_, fun h => ?_⟩
  · rintro ⟨word, symbol, _, rfl, hword, ⟨hbyte, rfl, rfl⟩ | ⟨hbyte, ⟨rfl, rfl, rfl⟩ |
      ⟨hstop, back, after, _, rfl, hcopy, rfl, rfl⟩⟩⟩
    · rw [List.append_nil]
      exact .byte hword hbyte
    · rw [List.append_nil]
      exact .stop hword
    · rw [List.append_nil]
      exact .repetition hword (by omega) hcopy
  · cases h with
    | byte hword hbyte =>
      exact ⟨_, _, [], (List.append_nil _).symm, hword, .inl ⟨hbyte, rfl, rfl⟩⟩
    | stop hword =>
      exact ⟨_, _, [], (List.append_nil _).symm, hword, .inr ⟨by omega, .inl ⟨rfl, rfl, rfl⟩⟩⟩
    | repetition hword hlength hcopy =>
      exact ⟨_, _, _, rfl, hword, .inr ⟨by omega, .inr ⟨by omega, _, _, [],
        (List.append_nil _).symm, hcopy, rfl, rfl⟩⟩⟩

/-- A coded block goes on until a symbol ends it. -/
theorem inflateCoded_eq (literals distances : CodeBook) (bits : List Bool) (before : Array UInt8) :
    inflateCoded literals distances bits before
      = takeSymbol literals distances bits before >>= fun read =>
          if read.1.2 then inflateCoded literals distances read.2 read.1.1
          else .ok (read.1.1, read.2) := by
  rw [inflateCoded]
  split
  · next h => rw [h]; rfl
  · next h => rw [h]; rfl
  · next h => rw [h]; rfl

theorem reads_inflateCoded (literals distances : CodeBook) (before : Array UInt8) :
    Reads (fun bits => inflateCoded literals distances bits before)
      (Coded literals distances before) := by
  intro bits after rest
  constructor
  · intro h
    dsimp only at h
    fun_induction inflateCoded literals distances bits before with
    | case1 => cases h
    | case2 bits before middle rest₁ htaken =>
      obtain ⟨rfl, rfl⟩ := Prod.mk.inj (Except.ok.inj h)
      obtain ⟨front, rfl, hlast⟩ := (reads_takeSymbol literals distances before _ _ _).mp htaken
      exact ⟨front, rfl, .stop hlast⟩
    | case3 bits before middle rest₁ htaken ih =>
      obtain ⟨front, rfl, hfirst⟩ := (reads_takeSymbol literals distances before _ _ _).mp htaken
      obtain ⟨back, rfl, hothers⟩ := ih h
      exact ⟨front ++ back, (List.append_assoc ..).symm, .more hfirst hothers⟩
  · rintro ⟨front, rfl, hcoded⟩
    dsimp only
    induction hcoded with
    | stop hlast =>
      rw [inflateCoded_eq, (reads_takeSymbol literals distances _).read hlast]
      rfl
    | more hfirst _ ih =>
      rw [List.append_assoc, inflateCoded_eq, (reads_takeSymbol literals distances _).read hfirst]
      exact ih

/-! ## Books of a block's own -/

/-- A field that says how often something more is added. -/
theorem reads_times {α : Type} (width : Nat) (result : Nat → α) :
    Reads (fun bits => Bits.take width bits >>= fun read => .ok (result read.1, read.2))
      fun bits value => ∃ more, Field width bits more ∧ value = result more := by
  refine ((reads_take width).bind fun more => reads_pure (result more)).congr
    fun bits value => ⟨?_, fun h => ?_⟩
  · rintro ⟨front, more, _, rfl, hmore, rfl, rfl⟩
    exact ⟨more, by rwa [List.append_nil], rfl⟩
  · obtain ⟨more, hmore, rfl⟩ := h
    exact ⟨bits, more, [], (List.append_nil _).symm, hmore, rfl, rfl⟩

/-- The last length can be added again where there is one. -/
theorem reads_again (before : Array Nat) :
    Reads (fun bits => Bits.take 2 bits >>= fun read =>
        match before.back? with
        | none => .error .malformed
        | some last => .ok (before ++ Array.replicate (3 + read.1) last, read.2))
      fun bits after => ∃ last, before.back? = some last ∧ ∃ more, Field 2 bits more ∧
        after = before ++ Array.replicate (3 + more) last := by
  cases before.back? with
  | none =>
    refine ((reads_take 2).bind fun _ => reads_error .malformed).congr fun bits after => ?_
    simp
  | some last =>
    refine (reads_times 2 fun more => before ++ Array.replicate (3 + more) last).congr
      fun bits after => ?_
    simp

theorem reads_takeLength (symbol : Nat) (before : Array Nat) :
    Reads (fun bits => takeLength symbol bits before) (Lengthening before symbol) := by
  refine (Reads.ite (c := symbol < 16) (fun _ => reads_pure (before.push symbol)) fun _ =>
    Reads.ite (c := symbol = 16) (fun _ => reads_again before) fun _ =>
      Reads.ite (c := symbol = 17)
        (fun _ => reads_times 3 fun more => before ++ Array.replicate (3 + more) 0)
        fun _ => reads_times 7 fun more => before ++ Array.replicate (11 + more) 0).congr
          fun bits after => ⟨?_, fun h => ?_⟩
  · rintro (⟨hlength, rfl, rfl⟩ | ⟨hlength, ⟨rfl, last, hlast, more, hmore, rfl⟩ |
      ⟨hagain, ⟨rfl, more, hmore, rfl⟩ | ⟨hzeros, more, hmore, rfl⟩⟩⟩)
    · exact .length hlength
    · exact .again hlast hmore
    · exact .zeros hmore
    · exact .manyZeros (by omega) hmore
  · cases h with
    | length hlength => exact .inl ⟨hlength, rfl, rfl⟩
    | again hlast hmore =>
      exact .inr ⟨by omega, .inl ⟨rfl, _, hlast, _, hmore, rfl⟩⟩
    | zeros hmore => exact .inr ⟨by omega, .inr ⟨by omega, .inl ⟨rfl, _, hmore, rfl⟩⟩⟩
    | manyZeros hlast hmore =>
      exact .inr ⟨by omega, .inr ⟨by omega, .inr ⟨by omega, _, hmore, rfl⟩⟩⟩

theorem reads_takeNextLengths (book : CodeBook) (before : Array Nat) :
    Reads (fun bits => takeNextLengths book bits before) fun bits after =>
      ∃ word symbol back, bits = word ++ back ∧ book.Word word symbol ∧
        Lengthening before symbol back after :=
  book.reads_decode.bind fun symbol => reads_takeLength symbol before

theorem takeLengths_eq (book : CodeBook) (total : Nat) (bits : List Bool) (before : Array Nat) :
    takeLengths book total bits before
      = if before.size < total then
          takeNextLengths book bits before >>= fun read => takeLengths book total read.2 read.1
        else if before.size = total then .ok (before.toList, bits)
        else .error .malformed := by
  rw [takeLengths]
  split
  · split
    · next h => rw [h]; rfl
    · next h => rw [h]; rfl
  · rfl

theorem reads_takeLengths (book : CodeBook) (total : Nat) (before : Array Nat) :
    Reads (fun bits => takeLengths book total bits before) (Lengths book total before) := by
  intro bits lengths rest
  constructor
  · intro h
    dsimp only at h
    fun_induction takeLengths book total bits before with
    | case1 => cases h
    | case2 bits before hmissing middle rest₁ htaken ih =>
      obtain ⟨_, rfl, word, symbol, back, rfl, hword, hadded⟩ :=
        (reads_takeNextLengths book before _ _ _).mp htaken
      obtain ⟨others, rfl, hothers⟩ := ih h
      exact ⟨word ++ back ++ others, (List.append_assoc ..).symm, .more hmissing hword hadded hothers⟩
    | case3 bits before _ hall =>
      obtain ⟨rfl, rfl⟩ := Prod.mk.inj (Except.ok.inj h)
      exact ⟨[], rfl, .done hall⟩
    | case4 => cases h
  · rintro ⟨front, rfl, hlengths⟩
    dsimp only
    induction hlengths with
    | done hall => rw [takeLengths_eq, if_neg (by omega), if_pos hall, List.nil_append]
    | more hmissing hword hadded _ ih =>
      rw [List.append_assoc, takeLengths_eq, if_pos hmissing,
        (reads_takeNextLengths book _).read ⟨_, _, _, rfl, hword, hadded⟩]
      exact ih

/-- A reader of what has been settled already. -/
theorem reads_settled {α β : Type} (outcome : Except Fault α)
    {next : α → List Bool → Except Fault (β × List Bool)} {following : α → List Bool → β → Prop}
    (hnext : ∀ value, Reads (next value) (following value)) :
    Reads (fun bits => outcome >>= fun value => next value bits) fun bits result =>
      ∃ value, outcome = .ok value ∧ following value bits result := by
  cases outcome with
  | error fault =>
    refine (reads_error fault).congr fun bits result => ?_
    simp
  | ok value =>
    refine (hnext value).congr fun bits result => ?_
    simp

theorem reads_takeBooks : Reads takeBooks Books := by
  refine ((reads_take 5).bind fun literalCount => (reads_take 5).bind fun distanceCount =>
    (reads_take 4).bind fun lengthCount =>
      Reads.ite (c := 286 < literalCount + 257 ∨ 30 < distanceCount + 1)
        (fun _ => reads_error .malformed) fun _ =>
          (reads_takeMany 3 (lengthCount + 4)).bind fun listed =>
            reads_settled (lengthBookOf (lengthLengths listed)) fun book =>
              (reads_takeLengths book (literalCount + 257 + (distanceCount + 1)) #[]).bind
                fun lengths => reads_settled (booksOf (literalCount + 257) lengths)
                  reads_pure).congr fun bits books => ⟨?_, fun h => ?_⟩
  · rintro ⟨_, literalCount, _, rfl, hliterals, _, distanceCount, _, rfl, hdistances, _,
      lengthCount, _, rfl, hcount, ⟨-, hfalse⟩ | ⟨hallowed, _, listed, _, rfl, hlisted, book, hbook, _,
        lengths, _, rfl, hlengths, _, hown, rfl, rfl⟩⟩
    · exact hfalse.elim
    · rw [List.append_nil]
      exact .mk hliterals hdistances hcount (by omega) hlisted hbook hlengths hown
  · obtain ⟨hliterals, hdistances, hcount, hallowed, hlisted, hbook, hlengths, hown⟩ := h
    exact ⟨_, _, _, rfl, hliterals, _, _, _, rfl, hdistances, _, _, _, rfl, hcount,
      .inr ⟨by omega, _, _, _, rfl, hlisted, _, hbook, _, _, [], (List.append_nil _).symm, hlengths,
        _, hown, rfl, rfl⟩⟩

/-! ## Blocks -/

/-- What a stored block holds from a byte boundary on. -/
def StoredFields (before : Array UInt8) (bits : List Bool) (after : Array UInt8) : Prop :=
  ∃ lengthBits complementBits complement, ∃ content : Bytes,
    bits = lengthBits ++ (complementBits ++ Bits.ofBytes content) ∧
      Field 16 lengthBits content.length ∧ Field 16 complementBits complement ∧
      content.length + complement = 0xFFFF ∧ after = before ++ content.toArray

theorem reads_storedFields (before : Array UInt8) :
    Reads (fun bits => Bits.take 16 bits >>= fun size => Bits.take 16 size.2 >>= fun check =>
        if size.1 + check.1 ≠ 0xFFFF then .error .malformed
        else Bits.takeBytes size.1 check.2 before)
      (StoredFields before) := by
  refine ((reads_take 16).bind fun length => (reads_take 16).bind fun complement =>
    Reads.ite (c := length + complement ≠ 0xFFFF) (fun _ => reads_error .malformed)
      fun _ => reads_takeBytes length before).congr fun bits after => ⟨?_, fun h => ?_⟩
  · rintro ⟨lengthBits, _, _, rfl, hlength, complementBits, complement, _, rfl, hcomplement,
      ⟨-, hfalse⟩ | ⟨hagree, content, rfl, rfl, rfl⟩⟩
    · exact hfalse.elim
    · exact ⟨lengthBits, complementBits, complement, content, rfl, hlength, hcomplement,
        not_not.mp hagree, rfl⟩
  · obtain ⟨lengthBits, complementBits, complement, content, rfl, hlength, hcomplement, hagree,
      rfl⟩ := h
    exact ⟨lengthBits, _, _, rfl, hlength, complementBits, complement, _, rfl, hcomplement,
      .inr ⟨not_not.mpr hagree, content, rfl, rfl, rfl⟩⟩

section Blocks

variable {position : Nat} {bits rest : List Bool} {before after : Array UInt8}

/-- A stored block is read from the next byte on, and how much is left of a stream of whole bytes
    tells where that is. -/
theorem inflateStored_eq_ok_iff (hwhole : (position + bits.length) % 8 = 0) :
    inflateStored bits before = .ok (after, rest) ↔
      ∃ front, bits = front ++ rest ∧ Block position false false before front after := by
  have hfields := reads_storedFields before (Bits.align bits) after rest
  rw [show inflateStored bits before = .ok (after, rest) ↔ _ from hfields, Bits.align]
  constructor
  · rintro ⟨_, hbits, lengthBits, complementBits, complement, content, rfl, hlength, hcomplement,
      hagree, rfl⟩
    have hpadding : (bits.take (bits.length % 8)).length = bits.length % 8 := by
      rw [List.length_take]
      omega
    refine ⟨bits.take (bits.length % 8) ++ (lengthBits ++ (complementBits ++ Bits.ofBytes content)),
      ?_, .stored (by omega) (by omega) hlength hcomplement hagree⟩
    rw [List.append_assoc, ← hbits, List.take_append_drop]
  · rintro ⟨front, rfl, hblock⟩
    cases hblock with
    | @stored _ padding lengthBits complementBits complement content hshort haligned hlength
        hcomplement hagree =>
      set fields := lengthBits ++ (complementBits ++ Bits.ofBytes content) with hfieldsBits
      have hdrop : (padding ++ fields ++ rest).length % 8 = padding.length := by
        simp only [List.length_append] at hwhole ⊢
        omega
      rw [hdrop, List.append_assoc, List.drop_left]
      exact ⟨fields, rfl, lengthBits, complementBits, complement, content, rfl, hlength,
        hcomplement, hagree, rfl⟩

theorem reads_inflateOwn (before : Array UInt8) :
    Reads (fun bits => takeBooks bits >>= fun read =>
        inflateCoded read.1.1 read.1.2 read.2 before)
      fun bits after => ∃ front books back, bits = front ++ back ∧ Books front books ∧
        Coded books.1 books.2 before back after :=
  reads_takeBooks.bind fun books => reads_inflateCoded books.1 books.2 before

/-- A block is read as its type says. -/
theorem inflateBlock_eq_ok_iff {low high : Bool} (hwhole : (position + bits.length) % 8 = 0) :
    inflateBlock low high bits before = .ok (after, rest) ↔
      ∃ front, bits = front ++ rest ∧ Block position low high before front after := by
  match low, high with
  | false, false => exact inflateStored_eq_ok_iff hwhole
  | true, false =>
    refine (reads_inflateCoded fixedLiterals fixedDistances before bits after rest).trans
      (exists_congr fun front => and_congr_right fun _ => ⟨.fixed, fun h => ?_⟩)
    cases h with
    | fixed hcoded => exact hcoded
  | false, true =>
    refine (reads_inflateOwn before bits after rest).trans
      (exists_congr fun front => and_congr_right fun _ => ⟨?_, fun h => ?_⟩)
    · rintro ⟨own, books, back, rfl, hbooks, hcoded⟩
      exact .own hbooks hcoded
    · cases h with
      | own hbooks hcoded => exact ⟨_, _, _, rfl, hbooks, hcoded⟩
  | true, true =>
    refine iff_of_false (fun h => nomatch h) ?_
    rintro ⟨front, -, hblock⟩
    cases hblock

/-- The blocks go on until one is marked final. -/
theorem inflateBlocks_eq (final low high : Bool) (bits : List Bool) (before : Array UInt8) :
    inflateBlocks (final :: low :: high :: bits) before
      = inflateBlock low high bits before >>= fun read =>
          if final then .ok read else inflateBlocks read.2 read.1 := by
  rw [inflateBlocks]
  split
  · next h => rw [h]; rfl
  · next h => rw [h]; rfl

theorem inflateBlocks_eq_ok_iff (hwhole : (position + bits.length) % 8 = 0) :
    inflateBlocks bits before = .ok (after, rest) ↔
      ∃ front, bits = front ++ rest ∧ Blocks position before front after := by
  constructor
  · intro h
    fun_induction inflateBlocks bits before generalizing position with
    | case1 => cases h
    | case2 before low high bits middle rest₁ hinflated =>
      simp only [List.length_cons] at hwhole
      obtain ⟨rfl, rfl⟩ := Prod.mk.inj (Except.ok.inj h)
      have hbody : (position + 3 + bits.length) % 8 = 0 := by omega
      obtain ⟨front, rfl, hblock⟩ := (inflateBlock_eq_ok_iff hbody).mp hinflated
      exact ⟨true :: low :: high :: front, rfl, .final hblock⟩
    | case3 before final low high bits middle rest₁ hinflated hmore ih =>
      obtain rfl := Bool.eq_false_iff.mpr hmore
      simp only [List.length_cons] at hwhole
      have hbody : (position + 3 + bits.length) % 8 = 0 := by omega
      obtain ⟨front, rfl, hblock⟩ := (inflateBlock_eq_ok_iff hbody).mp hinflated
      rw [List.length_append] at hwhole
      have hbehind : (position + 3 + front.length + rest₁.length) % 8 = 0 := by omega
      obtain ⟨back, rfl, hothers⟩ := ih hbehind h
      exact ⟨false :: low :: high :: (front ++ back), by simp, .more hblock hothers⟩
    | case4 => cases h
  · rintro ⟨front, rfl, hblocks⟩
    induction hblocks with
    | final hblock =>
      simp only [List.length_append, List.length_cons] at hwhole
      simp only [List.cons_append]
      rw [inflateBlocks_eq, (inflateBlock_eq_ok_iff (by rw [List.length_append]; omega)).mpr
        ⟨_, rfl, hblock⟩]
      rfl
    | @more position before middle after low high front back hblock _ ih =>
      simp only [List.length_append, List.length_cons] at hwhole ih
      simp only [List.cons_append, List.append_assoc]
      rw [inflateBlocks_eq, (inflateBlock_eq_ok_iff (by
        simp only [List.length_append]; omega)).mpr ⟨_, rfl, hblock⟩]
      exact ih (by omega)

end Blocks

/-! ## Streams -/

/-- The bits of a stream of whole bytes. -/
theorem inflateBlocks_ofBytes_eq_ok_iff {stream : Bytes} {rest : List Bool} {after : Array UInt8} :
    inflateBlocks (Bits.ofBytes stream) #[] = .ok (after, rest) ↔
      ∃ front, Bits.ofBytes stream = front ++ rest ∧ Blocks 0 #[] front after :=
  inflateBlocks_eq_ok_iff (by rw [Bits.length_ofBytes]; omega)

/-- Inflating a whole stream gives its content, whatever follows it. -/
theorem Deflated.inflate_append {content stream : Bytes} (h : Deflated content stream)
    (rest : Bytes) : inflate (stream ++ rest) = .ok content := by
  obtain ⟨bits, padding, hbits, -, hblocks⟩ := h
  have hinflated : inflateBlocks (Bits.ofBytes (stream ++ rest)) #[]
      = .ok (content.toArray, padding ++ Bits.ofBytes rest) :=
    inflateBlocks_ofBytes_eq_ok_iff.mpr
      ⟨bits, by rw [Bits.ofBytes_append, hbits, List.append_assoc], hblocks⟩
  rw [inflate, hinflated]
  rfl

/-- A stream is inflated to a content exactly when it begins with a whole stream of it. -/
theorem inflate_eq_ok_iff {content stream : Bytes} :
    inflate stream = .ok content ↔
      ∃ front rest, stream = front ++ rest ∧ Deflated content front := by
  constructor
  · intro h
    obtain ⟨⟨output, left⟩, hblocks, h⟩ := bind_eq_ok_iff.mp h
    obtain rfl := Except.ok.inj h
    obtain ⟨bits, hbits, hblocks⟩ := inflateBlocks_ofBytes_eq_ok_iff.mp hblocks
    -- The bytes that the blocks reach into are the whole stream.
    set count := (bits.length + 7) / 8 with hcount
    have hlength := congrArg List.length hbits
    rw [Bits.length_ofBytes, List.length_append] at hlength
    have hfront : (stream.take count).length = count := by
      rw [List.length_take]
      omega
    have hsplit : Bits.ofBytes (stream.take count) ++ Bits.ofBytes (stream.drop count)
        = bits ++ left := by
      rw [← Bits.ofBytes_append, List.take_append_drop, hbits]
    obtain ⟨padding, hpadding⟩ : ∃ padding, Bits.ofBytes (stream.take count) = bits ++ padding := by
      refine (List.prefix_of_prefix_length_le (List.prefix_append bits left)
        (hsplit ▸ List.prefix_append ..) ?_).imp fun _ h => h.symm
      rw [Bits.length_ofBytes, hfront]
      omega
    refine ⟨stream.take count, stream.drop count, (List.take_append_drop ..).symm, bits, padding,
      hpadding, ?_, hblocks⟩
    have hbytes := congrArg List.length hpadding
    rw [Bits.length_ofBytes, List.length_append, hfront] at hbytes
    omega
  · rintro ⟨front, rest, rfl, hdeflated⟩
    exact hdeflated.inflate_append rest

end HashArchive.Deflate
