/-
  HashArchive.Proofs.Metadata.Scan

  The search for the metadata blocks on any bytes.  All bytes are a run of whole blocks and
  what follows them.  The search takes the shortest run that holds a block of each kind, and
  leaves the rest alone; without such a run, what follows the whole blocks decides why it
  fails (`scan_blocks`).
-/
import Mathlib
import HashArchive.Proofs.Metadata

namespace HashArchive

/-- A signed field that is not negative is written as the natural number it is. -/
theorem Bytes.ofInt64_eq_ofNat {n : Int64} (h : ¬ n < 0) :
    ofInt64 n = ofNat 8 n.toInt.toNat ∧ n.toInt.toNat < 2 ^ 63 := by
  have hnonneg : 0 ≤ n.toInt := by
    rw [Int64.lt_iff_toInt_lt] at h
    exact not_lt.mp h
  have hlt : n.toInt < 2 ^ 63 := n.toInt_lt
  have hbound : n.toInt.toNat < 2 ^ 63 := by omega
  refine ⟨?_, hbound⟩
  have hself : Int64.ofNat n.toInt.toNat = n := by
    apply Int64.toInt_inj.mp
    rw [Int64.toInt_ofNat_of_lt hbound, Int.toNat_of_nonneg hnonneg]
  rw [ofNat_eq_ofInt64 hbound, hself]

namespace BlockKind

/-! ## One block -/

/-- The two fields before the payload of a block. -/
def fields (number : Int32) (size : Int64) : Bytes := Bytes.ofInt32 number ++ Bytes.ofInt64 size

theorem encode_eq_fields (kind : BlockKind) {payload : Bytes} {size : Int64} (hsign : ¬ size < 0)
    (hlength : payload.length = size.toInt.toNat) :
    kind.encode payload = fields kind.number size ++ payload := by
  rw [encode, fields, hlength, (Bytes.ofInt64_eq_ofNat hsign).1]

theorem ofNumber?_eq_some_iff {number : Int32} {kind : BlockKind} :
    ofNumber? number = some kind ↔ number = kind.number := by
  constructor
  · intro h
    unfold ofNumber? at h
    have hnumber : kind.number = number := by simpa using List.find?_some h
    exact hnumber.symm
  · rintro rfl
    exact ofNumber?_number kind

variable {bytes rest : Bytes}

/-- Twelve bytes are the two fields of a block, whatever they spell. -/
theorem exists_fields (h : 12 ≤ bytes.length) :
    ∃ number size rest, bytes = fields number size ++ rest := by
  cases hnumber : Reader.int32 bytes with
  | error error =>
    have hshort := (Reader.int32_eq_error_iff.mp hnumber).1
    omega
  | ok found =>
    obtain ⟨number, bytes₁⟩ := found
    have hlength := Reader.length_of_int32 hnumber
    cases hsize : Reader.int64 bytes₁ with
    | error error =>
      have hshort := (Reader.int64_eq_error_iff.mp hsize).1
      omega
    | ok found =>
      obtain ⟨size, rest⟩ := found
      refine ⟨number, size, rest, ?_⟩
      rw [Reader.int32_eq_ok_iff.mp hnumber, Reader.int64_eq_ok_iff.mp hsize, fields,
        List.append_assoc]

/-- Once both fields are there, the number is judged first, and then the size. -/
theorem read_fields (number : Int32) (size : Int64) (rest : Bytes) :
    read (fields number size ++ rest)
      = match ofNumber? number with
        | none => .error (.unknownBlock number.toInt)
        | some kind =>
          if size < 0 then .error (.corrupt (.blockSize kind size.toInt))
          else Reader.exactly size.toInt.toNat rest >>= fun (payload, rest) =>
            .ok ((kind, payload), rest) := by
  rw [read, fields, List.append_assoc, Reader.int32_append, Guarding.lift_eq, Outcome.ok_bind]
  dsimp only
  rw [Reader.int64_append, Guarding.lift_eq, Outcome.ok_bind]
  rfl

/-- A block that is taken off the front stands written there. -/
theorem read_eq_ok_iff {kind : BlockKind} {payload : Bytes} :
    read bytes = .ok ((kind, payload), rest) ↔
      bytes = kind.encode payload ++ rest ∧ payload.length < 2 ^ 63 := by
  constructor
  · intro h
    obtain ⟨⟨number, bytes₁⟩, hnumber, hboth⟩ := Outcome.bind_eq_ok_iff.mp h
    obtain ⟨⟨size, bytes₂⟩, hsize, -⟩ := Outcome.bind_eq_ok_iff.mp hboth
    obtain rfl := Reader.int64_eq_ok_iff.mp hsize
    obtain rfl := Reader.int32_eq_ok_iff.mp hnumber
    rw [← List.append_assoc, ← fields] at h ⊢
    rw [read_fields] at h
    split at h
    · cases h
    · next found hfound =>
      obtain rfl := ofNumber?_eq_some_iff.mp hfound
      split at h
      · cases h
      · next hsign =>
        obtain ⟨⟨field, bytes₃⟩, hfield, h⟩ := Outcome.bind_eq_ok_iff.mp h
        obtain ⟨hpair, rfl⟩ := Prod.mk.inj (Except.ok.inj h)
        obtain ⟨rfl, rfl⟩ := Prod.mk.inj hpair
        obtain ⟨rfl, hlength⟩ := Reader.exactly_eq_ok_iff.mp hfield
        refine ⟨?_, hlength ▸ (Bytes.ofInt64_eq_ofNat hsign).2⟩
        rw [encode_eq_fields found hsign hlength, List.append_assoc]
  · rintro ⟨rfl, hlength⟩
    exact read_append kind hlength rest

/-- Why no block can be taken off the front: its two fields are cut, its number is none of a
    block, its size is negative, or its payload is cut. -/
inductive Refused : Bytes → ArchiveError → Prop
  | cutFields {bytes : Bytes} (short : bytes.length < 12) : Refused bytes .endOfStream
  | unknown {number : Int32} (none : ofNumber? number = none) (size : Int64) (rest : Bytes) :
      Refused (fields number size ++ rest) (.unknownBlock number.toInt)
  | negative (kind : BlockKind) {size : Int64} (sign : size < 0) (rest : Bytes) :
      Refused (fields kind.number size ++ rest) (.corrupt (.blockSize kind size.toInt))
  | cutPayload (kind : BlockKind) {size : Int64} {rest : Bytes} (sign : ¬ size < 0)
      (short : rest.length < size.toInt.toNat) :
      Refused (fields kind.number size ++ rest) .endOfStream

theorem read_of_length_lt (h : bytes.length < 12) : read bytes = .error .endOfStream := by
  rw [read]
  cases hnumber : Reader.int32 bytes with
  | error error =>
    rw [(Reader.int32_eq_error_iff.mp hnumber).2]
    rfl
  | ok found =>
    obtain ⟨number, bytes₁⟩ := found
    have hlength := Reader.length_of_int32 hnumber
    rw [Guarding.lift_eq, Outcome.ok_bind]
    dsimp only
    rw [Reader.int64_eq_error_iff.mpr ⟨by omega, rfl⟩, Guarding.lift_eq, Outcome.error_bind]

theorem read_eq_error_iff {error : ArchiveError} :
    read bytes = .error error ↔ Refused bytes error := by
  constructor
  · intro h
    by_cases hlong : 12 ≤ bytes.length
    · obtain ⟨number, size, rest, rfl⟩ := exists_fields hlong
      rw [read_fields] at h
      split at h
      · next hnone =>
        obtain rfl := Except.error.inj h
        exact .unknown hnone size rest
      · next kind hkind =>
        obtain rfl := ofNumber?_eq_some_iff.mp hkind
        split at h
        · next hsign =>
          obtain rfl := Except.error.inj h
          exact .negative kind hsign rest
        · next hsign =>
          rcases Outcome.bind_eq_error_iff.mp h with hpayload | ⟨_, -, hpayload⟩
          · obtain ⟨hshort, rfl⟩ := Reader.exactly_eq_error_iff.mp hpayload
            exact .cutPayload kind hsign hshort
          · cases hpayload
    · have hshort : bytes.length < 12 := Nat.lt_of_not_le hlong
      rw [read_of_length_lt hshort] at h
      obtain rfl := Except.error.inj h
      exact .cutFields hshort
  · intro h
    cases h with
    | cutFields short => exact read_of_length_lt short
    | unknown none size rest => rw [read_fields, none]
    | negative kind sign rest =>
      rw [read_fields, ofNumber?_number]
      exact if_pos sign
    | cutPayload kind sign short =>
      rw [read_fields, ofNumber?_number]
      dsimp only
      rw [if_neg sign, Reader.exactly_eq_error_iff.mpr ⟨short, rfl⟩, Outcome.error_bind]

end BlockKind

namespace Metadata

/-! ## Runs of blocks -/

/-- A metadata block as it stands in an archive. -/
structure Block where
  kind : BlockKind
  payload : Bytes
deriving DecidableEq

namespace Block

/-- The block as bytes. -/
def encode (block : Block) : Bytes := block.kind.encode block.payload

/-- The length of the payload fits its field, and a name table in it can be unwrapped. -/
structure Readable (block : Block) : Prop where
  sized : block.payload.length < 2 ^ 63
  unwraps : block.kind = .names → ∃ names, unwrapNames block.payload = .ok names

end Block

/-- Blocks one after another. -/
def encodeAll (blocks : List Block) : Bytes := blocks.flatMap Block.encode

theorem encodeAll_append (blocks others : List Block) :
    encodeAll (blocks ++ others) = encodeAll blocks ++ encodeAll others := List.flatMap_append

/-- The payload of the last block of a kind. -/
def last? (kind : BlockKind) (blocks : List Block) : Option Bytes :=
  (blocks.reverse.find? (·.kind == kind)).map (·.payload)

/-- There is a block of each kind. -/
def Complete (blocks : List Block) : Prop := ∀ kind, ∃ block ∈ blocks, block.kind = kind

/-- There is a block of each kind, and no run of blocks at the front has them all already. -/
structure Shortest (blocks : List Block) : Prop where
  complete : Complete blocks
  minimal : ∀ front, front <+: blocks → Complete front → front = blocks

/-- The first kind, in the order of the numbers, of which there is no block. -/
def firstMissing? (blocks : List Block) : Option BlockKind :=
  [.utf16Index, .utf8Index, .names].find? fun kind => (last? kind blocks).isNone

/-- The payloads are those of the last blocks of their kinds, the name table unwrapped. -/
structure Payloads.LastIn (payloads : Payloads) (blocks : List Block) : Prop where
  utf16 : last? .utf16Index blocks = some payloads.utf16
  utf8 : last? .utf8Index blocks = some payloads.utf8
  names : ∃ packed, last? .names blocks = some packed ∧ unwrapNames packed = .ok payloads.names

/-- What the search has seen when it has taken these blocks. -/
def seenIn (blocks : List Block) : Seen where
  utf16 := last? .utf16Index blocks
  utf8 := last? .utf8Index blocks
  names := (last? .names blocks).bind fun packed => (unwrapNames packed).toOption

theorem last?_append_singleton (kind : BlockKind) (blocks : List Block) (block : Block) :
    last? kind (blocks ++ [block])
      = if block.kind = kind then some block.payload else last? kind blocks := by
  rw [last?, List.reverse_append, List.reverse_singleton, List.singleton_append]
  by_cases h : block.kind = kind
  · rw [if_pos h, List.find?_cons_of_pos (by simpa using h)]
    rfl
  · rw [if_neg h, List.find?_cons_of_neg (by simpa using h)]
    rfl

theorem last?_eq_none_iff {kind : BlockKind} {blocks : List Block} :
    last? kind blocks = none ↔ ∀ block ∈ blocks, block.kind ≠ kind := by
  simp [last?]

/-- A payload that is the last of its kind is that of a block. -/
theorem exists_mem_of_last? {kind : BlockKind} {blocks : List Block} {payload : Bytes}
    (h : last? kind blocks = some payload) : ⟨kind, payload⟩ ∈ blocks := by
  obtain ⟨block, hfound, rfl⟩ := Option.map_eq_some_iff.mp h
  have hkind : block.kind = kind := by simpa using List.find?_some hfound
  have hmem : block ∈ blocks := by simpa using List.mem_of_find?_eq_some hfound
  rw [← hkind]
  exact hmem

theorem firstMissing?_eq_none_iff {blocks : List Block} :
    firstMissing? blocks = none ↔ Complete blocks := by
  have hkind : ∀ kind,
      ¬ (last? kind blocks).isNone = true ↔ ∃ block ∈ blocks, block.kind = kind := by
    intro kind
    rw [Option.isNone_iff_eq_none, last?_eq_none_iff]
    push Not
    rfl
  rw [firstMissing?, List.find?_eq_none]
  constructor
  · intro h kind
    exact (hkind kind).mp (h kind (by cases kind <;> simp))
  · intro h kind _
    exact (hkind kind).mpr (h kind)

/-! ## What the search has seen -/

section Seen

variable {blocks : List Block} {block : Block}

/-- A block that can be read is added to what the search has seen. -/
theorem add_seenIn (blocks : List Block) (h : block.Readable) :
    (seenIn blocks).add block.kind block.payload = .ok (seenIn (blocks ++ [block])) := by
  obtain ⟨kind, payload⟩ := block
  unfold seenIn
  cases kind with
  | utf16Index => simp [Seen.add, last?_append_singleton]
  | utf8Index => simp [Seen.add, last?_append_singleton]
  | names =>
    obtain ⟨names, hnames⟩ := h.unwraps rfl
    dsimp only at hnames
    simp [Seen.add, last?_append_singleton, hnames, Except.toOption, pure, Except.pure]

theorem exists_unwrapNames (h : ∀ block ∈ blocks, block.Readable) {packed : Bytes}
    (hlast : last? .names blocks = some packed) : ∃ names, unwrapNames packed = .ok names :=
  (h _ (exists_mem_of_last? hlast)).unwraps rfl

/-- The search goes on for the first kind that is missing. -/
theorem complete_of_firstMissing? {missing : BlockKind}
    (hmissing : firstMissing? blocks = some missing) :
    (seenIn blocks).complete = .inr missing := by
  rw [firstMissing?] at hmissing
  cases hutf16 : last? .utf16Index blocks with
  | none =>
    obtain rfl : BlockKind.utf16Index = missing := by simpa [hutf16] using hmissing
    simp [seenIn, hutf16, Seen.complete]
  | some utf16 =>
    cases hutf8 : last? .utf8Index blocks with
    | none =>
      obtain rfl : BlockKind.utf8Index = missing := by simpa [hutf16, hutf8] using hmissing
      simp [seenIn, hutf16, hutf8, Seen.complete]
    | some utf8 =>
      cases hnames : last? .names blocks with
      | none =>
        obtain rfl : BlockKind.names = missing := by simpa [hutf16, hutf8, hnames] using hmissing
        simp [seenIn, hutf16, hutf8, hnames, Seen.complete]
      | some packed => simp [hutf16, hutf8, hnames] at hmissing

/-- The search is over once there is a block of each kind. -/
theorem exists_payloads_of_complete (h : ∀ block ∈ blocks, block.Readable)
    (hcomplete : Complete blocks) :
    ∃ payloads, (seenIn blocks).complete = .inl payloads ∧ payloads.LastIn blocks := by
  have hlast : ∀ kind, ∃ payload, last? kind blocks = some payload := by
    intro kind
    rw [← Option.ne_none_iff_exists', Ne, last?_eq_none_iff]
    push Not
    exact hcomplete kind
  obtain ⟨utf16, hutf16⟩ := hlast .utf16Index
  obtain ⟨utf8, hutf8⟩ := hlast .utf8Index
  obtain ⟨packed, hpacked⟩ := hlast .names
  obtain ⟨names, hnames⟩ := exists_unwrapNames h hpacked
  refine ⟨⟨utf16, utf8, names⟩, ?_, hutf16, hutf8, packed, hpacked, hnames⟩
  simp [seenIn, hutf16, hutf8, hpacked, hnames, Except.toOption, Seen.complete]

end Seen

/-! ## Searches in runs of blocks -/

section Runs

variable {blocks : List Block}

theorem Complete.of_prefix {front : List Block} (h : Complete front) (hfront : front <+: blocks) :
    Complete blocks := by
  intro kind
  obtain ⟨block, hmem, hkind⟩ := h kind
  exact ⟨block, hfront.subset hmem, hkind⟩

/-- The search takes the blocks of a run as long as a kind is missing. -/
theorem searchFrom_append (before : List Block)
    (hreadable : ∀ block ∈ before ++ blocks, block.Readable)
    (hmissing : ∀ front, front <+: blocks → front ≠ blocks → ¬ Complete (before ++ front))
    (tail : Bytes) :
    searchFrom (seenIn before) (encodeAll blocks ++ tail)
      = searchFrom (seenIn (before ++ blocks)) tail := by
  induction blocks generalizing before with
  | nil =>
    rw [List.append_nil]
    rfl
  | cons block blocks ih =>
    have hblock : block.Readable := hreadable block (by simp)
    -- Nothing of the run has been taken yet, so a kind is missing.
    have hincomplete : ¬ Complete before := by
      have hnone := hmissing [] List.nil_prefix (by simp)
      rwa [List.append_nil] at hnone
    rw [← firstMissing?_eq_none_iff] at hincomplete
    obtain ⟨missing, hfirst⟩ := Option.ne_none_iff_exists'.mp hincomplete
    have hlong : 4 ≤ (block.kind.encode block.payload ++ (encodeAll blocks ++ tail)).length := by
      rw [List.length_append, BlockKind.length_encode]
      omega
    have hrest := ih (before ++ [block]) (by simpa using hreadable)
      (fun front hfront hne hcomplete => hmissing (block :: front)
        ((List.prefix_cons_inj block).mpr hfront) (by simpa using hne) (by simpa using hcomplete))
    rw [encodeAll, List.flatMap_cons, List.append_assoc, Block.encode, ← encodeAll,
      searchFrom_of_missing (complete_of_firstMissing? hfirst) hlong,
      BlockKind.read_append block.kind hblock.sized, Outcome.ok_bind]
    dsimp only
    rw [add_seenIn before hblock, Outcome.ok_bind, hrest, List.append_assoc, List.singleton_append]

/-- Blocks that hold each kind begin with a shortest run that does. -/
theorem exists_shortest (h : Complete blocks) :
    ∃ front others, blocks = front ++ others ∧ Shortest front := by
  classical
  have hexists : ∃ count, Complete (blocks.take count) :=
    ⟨blocks.length, by rwa [List.take_length]⟩
  refine ⟨blocks.take (Nat.find hexists), blocks.drop (Nat.find hexists),
    (List.take_append_drop _ blocks).symm, Nat.find_spec hexists, ?_⟩
  intro front hfront hcomplete
  -- A run at the front is as long as it holds blocks, so it is not shorter than the least one.
  have htake : front = blocks.take front.length :=
    List.prefix_iff_eq_take.mp (hfront.trans (List.take_prefix _ blocks))
  have hle : Nat.find hexists ≤ front.length := Nat.find_min' hexists (htake ▸ hcomplete)
  have hlength : (blocks.take (Nat.find hexists)).length ≤ front.length :=
    (List.length_take_le _ _).trans hle
  exact hfront.eq_of_length_le hlength

/-- The search takes a shortest run that holds each kind, and leaves what follows it. -/
theorem searchFrom_of_shortest {front : List Block} (hreadable : ∀ block ∈ front, block.Readable)
    (hshortest : Shortest front) :
    ∃ payloads, payloads.LastIn front ∧
      ∀ tail, searchFrom {} (encodeAll front ++ tail) = .ok (payloads, tail) := by
  obtain ⟨payloads, hcomplete, hlast⟩ :=
    exists_payloads_of_complete hreadable hshortest.complete
  refine ⟨payloads, hlast, fun tail => ?_⟩
  have hrun := searchFrom_append [] hreadable
    (fun shorter hfront hne hall => hne (hshortest.minimal shorter hfront hall)) tail
  have hdone : searchFrom (seenIn front) tail = .ok (payloads, tail) := by
    rw [searchFrom, hcomplete]
  exact hrun.trans hdone

/-- Why a search in which a kind is still missing does not take another block. -/
inductive Stops (missing : BlockKind) : Bytes → ArchiveError → Prop
  | ended {rest : Bytes} (short : rest.length < 4) : Stops missing rest (.missingBlock missing)
  | refused {rest : Bytes} {error : ArchiveError} (long : 4 ≤ rest.length)
      (refused : BlockKind.Refused rest error) : Stops missing rest error
  | packed {payload : Bytes} {error : ArchiveError} (sized : payload.length < 2 ^ 63)
      (broken : unwrapNames payload = .error error) (rest : Bytes) :
      Stops missing (BlockKind.names.encode payload ++ rest) error

/-- Where a kind is missing among the blocks, what follows them decides the error. -/
theorem scan_of_stops (hreadable : ∀ block ∈ blocks, block.Readable) {missing : BlockKind}
    (hmissing : firstMissing? blocks = some missing) {rest : Bytes} {error : ArchiveError}
    (hstops : Stops missing rest error) : scan (encodeAll blocks ++ rest) = .error error := by
  have hincomplete : ¬ Complete blocks := by
    rw [← firstMissing?_eq_none_iff, hmissing]
    simp
  have hrun := searchFrom_append [] hreadable
    (fun front hfront _ hall => hincomplete (hall.of_prefix hfront)) rest
  have hseen := complete_of_firstMissing? hmissing
  have herror : searchFrom (seenIn blocks) rest = .error error := by
    cases hstops with
    | ended short => exact searchFrom_of_short hseen short
    | refused long refused =>
      rw [searchFrom_of_missing hseen long, BlockKind.read_eq_error_iff.mpr refused,
        Outcome.error_bind]
    | @packed payload _ sized broken rest =>
      have hlong : 4 ≤ (BlockKind.names.encode payload ++ rest).length := by
        rw [List.length_append, BlockKind.length_encode]
        omega
      rw [searchFrom_of_missing hseen hlong, BlockKind.read_append _ sized, Outcome.ok_bind]
      dsimp only
      rw [Seen.add, broken]
      rfl
  exact congrArg (Except.map Prod.fst) (hrun.trans herror)

/-- All bytes are a run of blocks that can be read and what the search stops at behind them. -/
theorem exists_blocks_append (bytes : Bytes) :
    ∃ blocks rest, bytes = encodeAll blocks ++ rest ∧ (∀ block ∈ blocks, block.Readable) ∧
      ∀ missing, ∃ error, Stops missing rest error := by
  induction hlength : bytes.length using Nat.strong_induction_on generalizing bytes with
  | _ length ih =>
    have hnone : (∀ missing, ∃ error, Stops missing bytes error) →
        ∃ blocks rest, bytes = encodeAll blocks ++ rest ∧ (∀ block ∈ blocks, block.Readable) ∧
          ∀ missing, ∃ error, Stops missing rest error :=
      fun hstops => ⟨[], bytes, rfl, by simp, hstops⟩
    by_cases hshort : bytes.length < 4
    · exact hnone fun missing => ⟨_, .ended hshort⟩
    cases hread : BlockKind.read bytes with
    | error error =>
      have hrefused := BlockKind.read_eq_error_iff.mp hread
      exact hnone fun _ => ⟨error, .refused (not_lt.mp hshort) hrefused⟩
    | ok found =>
      obtain ⟨⟨kind, payload⟩, more⟩ := found
      obtain ⟨hbytes, hsized⟩ := BlockKind.read_eq_ok_iff.mp hread
      by_cases hreadable : (⟨kind, payload⟩ : Block).Readable
      · obtain ⟨blocks, rest, hmore, hall, hstops⟩ :=
          ih more.length (hlength ▸ BlockKind.length_of_read hread) more rfl
        refine ⟨⟨kind, payload⟩ :: blocks, rest, ?_, by simpa using ⟨hreadable, hall⟩, hstops⟩
        rw [hbytes, hmore, encodeAll, encodeAll, List.flatMap_cons, List.append_assoc, Block.encode]
      · -- Of the blocks that are whole, only a name table can be unreadable.
        have hpacked : kind = .names ∧ ∃ error, unwrapNames payload = .error error := by
          by_contra hnot
          refine hreadable ⟨hsized, fun hkind => ?_⟩
          cases hunwrap : unwrapNames payload with
          | error error => exact absurd ⟨hkind, error, hunwrap⟩ hnot
          | ok names => exact ⟨names, rfl⟩
        obtain ⟨rfl, error, hbroken⟩ := hpacked
        rw [hbytes] at hnone ⊢
        exact hnone fun _ => ⟨error, .packed hsized hbroken more⟩

end Runs

/-! ## The main statement -/

/-- What the search makes of a run of blocks that can be read. -/
structure Searched (blocks : List Block) : Prop where
  /-- If each kind occurs, the search takes the shortest run at the front that holds each, finds
      the payloads of the last blocks there, and leaves whatever follows. -/
  found : Complete blocks → ∃ front others payloads, blocks = front ++ others ∧ Shortest front ∧
    payloads.LastIn front ∧ ∀ tail,
      searchFrom {} (encodeAll blocks ++ tail) = .ok (payloads, encodeAll others ++ tail) ∧
        scan (encodeAll blocks ++ tail) = .ok payloads
  /-- If one does not occur, what follows the blocks decides the error. -/
  stopped : ¬ Complete blocks → ∃ missing, firstMissing? blocks = some missing ∧
    ∀ {rest error}, Stops missing rest error → scan (encodeAll blocks ++ rest) = .error error

/-- The search on any bytes: what it leaves makes no difference to what it finds, it is described
    for all runs of blocks that can be read and what follows them, and all bytes are of that
    form. -/
theorem scan_blocks :
    (∀ seen bytes, (searchFrom seen bytes).map Prod.fst = scanFrom seen bytes) ∧
    (∀ blocks : List Block, (∀ block ∈ blocks, block.Readable) → Searched blocks) ∧
    ∀ bytes, ∃ blocks rest, bytes = encodeAll blocks ++ rest ∧
      (∀ block ∈ blocks, block.Readable) ∧ ∀ missing, ∃ error, Stops missing rest error := by
  refine ⟨fun _ _ => rfl, fun blocks hreadable => ⟨?_, ?_⟩, exists_blocks_append⟩
  · intro hcomplete
    obtain ⟨front, others, rfl, hshortest⟩ := exists_shortest hcomplete
    obtain ⟨payloads, hlast, hfound⟩ := searchFrom_of_shortest
      (fun block hmem => hreadable block (List.mem_append_left _ hmem)) hshortest
    refine ⟨front, others, payloads, rfl, hshortest, hlast, fun tail => ?_⟩
    have hrun := hfound (encodeAll others ++ tail)
    rw [← List.append_assoc, ← encodeAll_append] at hrun
    refine ⟨hrun, ?_⟩
    rw [scan, scanFrom, hrun]
    rfl
  · intro hincomplete
    rw [← firstMissing?_eq_none_iff] at hincomplete
    obtain ⟨missing, hmissing⟩ := Option.ne_none_iff_exists'.mp hincomplete
    exact ⟨missing, hmissing, scan_of_stops hreadable hmissing⟩

/-- Blocks out of order, two of which occur twice: the name table is empty and not packed. -/
def repeated : List Block :=
  [⟨.utf8Index, [1]⟩, ⟨.names, RecordHeader.encode ⟨false, 0, 0⟩⟩, ⟨.utf8Index, [2]⟩,
    ⟨.utf16Index, [3]⟩, ⟨.utf16Index, [4]⟩]

/-- The later one of two blocks counts, unless the search is over before it. -/
theorem scan_blocks_repeated :
    (∀ block ∈ repeated, block.Readable) ∧ Searched repeated ∧
      scan (encodeAll repeated ++ [0xFF]) = .ok ⟨[3], [2], []⟩ ∧
      scan (encodeAll (repeated.take 3) ++ [0, 0, 0]) = .error (.missingBlock .utf16Index) := by
  have hreadable : ∀ block ∈ repeated, block.Readable := by
    have hall : ∀ block ∈ repeated, block.payload.length < 2 ^ 63 ∧
        (block.kind = .names → unwrapNames block.payload = .ok []) := by decide +kernel
    exact fun block hmem => ⟨(hall block hmem).1, fun hkind => ⟨[], (hall block hmem).2 hkind⟩⟩
  have hfound : scan (encodeAll repeated ++ [0xFF]) = .ok ⟨[3], [2], []⟩ := by decide +kernel
  refine ⟨hreadable, scan_blocks.2.1 repeated hreadable, hfound, ?_⟩
  have hfew : ∀ block ∈ repeated.take 3, block.Readable :=
    fun block hmem => hreadable block (List.mem_of_mem_take hmem)
  have hincomplete : ¬ Complete (repeated.take 3) := by
    rw [← firstMissing?_eq_none_iff]
    decide +kernel
  obtain ⟨missing, hmissing, hstopped⟩ := (scan_blocks.2.1 _ hfew).stopped hincomplete
  obtain rfl : BlockKind.utf16Index = missing := Option.some.inj hmissing
  exact hstopped (.ended (by decide))

end Metadata

end HashArchive
