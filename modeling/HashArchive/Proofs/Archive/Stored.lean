/-
  HashArchive.Proofs.Archive.Stored

  What the record of a file holds.  The writer may pack or unpack the bytes that a source
  has (`storedForm_eq`), and none of it changes what a read of the content gives, be it a
  failure (`content_of_storedForm`, `storedForm_faithful`); a lazy source finds the record that
  was written (`stored_of_record`), and is stored as that record again
  (`storedForm_of_stored`).
-/
import Mathlib
import HashArchive.Archive.Write
import HashArchive.Proofs.Deflate.Store
import HashArchive.Proofs.Source

namespace HashArchive

/-- What is packed is unpacked again. -/
theorem Packed.unpack_pack {deflate : Bytes → Bytes} (h : Deflate.Lossless deflate)
    (content : Bytes) : unpack (pack content deflate) = .ok content := by
  show (Deflate.inflate (deflate content)).mapError ArchiveError.inflate = .ok content
  rw [h content]
  rfl

theorem Source.toNat_of_sizeField {size : Nat} {field : UInt32} (h : sizeField size = .ok field) :
    field.toNat = size := by
  rw [sizeField] at h
  split at h
  · next hlt =>
    obtain rfl := Except.ok.inj h
    exact UInt32.toNat_ofNat_of_lt' hlt
  · cases h

theorem Source.sizeField_eq_error_iff {size : Nat} {error : ArchiveError} :
    sizeField size = .error error ↔ UInt32.size ≤ size ∧ error = .tooLong size := by
  rw [sizeField]
  split
  · next hlt => simp [hlt]
  · next hle => simp [not_lt.mp hle, eq_comm]

namespace Archive

section

variable {streams : Streams} {policy : Policy} {name : String} {source : Source}
  {deflate : Bytes → Bytes} {header current : RecordHeader} {stored data : Bytes}
  {error : ArchiveError}

/-! ## What is to be stored -/

/-- The bytes as they are to be stored: packed or unpacked where they are not yet in the form
    that is asked for. -/
def recode (compressed current : Bool) (stored : Bytes) (deflate : Bytes → Bytes) :
    Except ArchiveError Bytes :=
  match compressed, current with
  | true, false => .ok (Packed.pack stored deflate)
  | false, true => Packed.unpack stored
  | _, _ => .ok stored

/-- Bytes that are in the form that is asked for are kept. -/
theorem recode_self (compressed : Bool) (stored : Bytes) (deflate : Bytes → Bytes) :
    recode compressed compressed stored deflate = .ok stored := by
  cases compressed <;> rfl

/-- The header of bytes that are stored in a form.  The size of a content that had to be
    unpacked is the size of the bytes; any other is the one it came with. -/
def headerAs (compressed : Bool) (current : RecordHeader) (storedSize : UInt32) : RecordHeader :=
  { compressed
    contentSize := if current.compressed && !compressed then storedSize else current.contentSize
    storedSize }

/-- A file is stored by one recoding of its bytes. -/
theorem storedForm_eq (streams : Streams) (policy : Policy) (name : String) (source : Source)
    (deflate : Bytes → Bytes) :
    storedForm streams policy name source deflate =
      source.header streams >>= fun current =>
        source.stored streams >>= fun stored =>
          recode (policy.compresses name) current.compressed stored deflate >>= fun data =>
            Source.sizeField data.length >>= fun storedSize =>
              .ok (headerAs (policy.compresses name) current storedSize, data) := by
  rw [storedForm]
  refine congrArg (source.header streams >>= ·) (funext fun current => ?_)
  refine congrArg (source.stored streams >>= ·) (funext fun stored => ?_)
  obtain ⟨compressed, contentSize, storedSize⟩ := current
  dsimp only [recode, headerAs]
  cases policy.compresses name with
  | true => cases compressed <;> rfl
  | false =>
    cases compressed with
    | false => rfl
    | true =>
      -- The content's size is counted twice, as content and as what is stored.
      dsimp only
      cases Packed.unpack stored with
      | error error => rfl
      | ok content =>
        dsimp only [Outcome.ok_bind]
        cases Source.sizeField content.length <;> rfl

theorem storedForm_eq_ok_iff :
    storedForm streams policy name source deflate = .ok (header, data) ↔
      ∃ current stored, source.header streams = .ok current ∧
        source.stored streams = .ok stored ∧
        recode (policy.compresses name) current.compressed stored deflate = .ok data ∧
        header = headerAs (policy.compresses name) current header.storedSize ∧
        header.storedSize.toNat = data.length := by
  rw [storedForm_eq]
  constructor
  · intro h
    obtain ⟨current, hcurrent, h⟩ := Outcome.bind_eq_ok_iff.mp h
    obtain ⟨stored, hstored, h⟩ := Outcome.bind_eq_ok_iff.mp h
    obtain ⟨last, hlast, h⟩ := Outcome.bind_eq_ok_iff.mp h
    obtain ⟨storedSize, hsize, h⟩ := Outcome.bind_eq_ok_iff.mp h
    obtain ⟨rfl, rfl⟩ := Outcome.pure_pair_eq_ok_iff.mp h
    exact ⟨current, stored, hcurrent, hstored, hlast, rfl, Source.toNat_of_sizeField hsize⟩
  · rintro ⟨current, stored, hcurrent, hstored, hdata, hheader, hsize⟩
    have hfield : Source.sizeField data.length = .ok header.storedSize := by
      rw [Source.sizeField, ← hsize, if_pos header.storedSize.toNat_lt, UInt32.ofNat_toNat]
    rw [hcurrent, hstored, Outcome.ok_bind, Outcome.ok_bind, hdata, Outcome.ok_bind, hfield,
      Outcome.ok_bind, ← hheader]

/-- A stored form is headed by what is known of it. -/
theorem header_of_storedForm
    (h : storedForm streams policy name source deflate = .ok (header, data)) :
    header.compressed = policy.compresses name ∧ header.storedSize.toNat = data.length := by
  obtain ⟨_, _, -, -, -, hheader, hsize⟩ := storedForm_eq_ok_iff.mp h
  exact ⟨by rw [hheader, headerAs], hsize⟩

/-- Recoding loses nothing: the content is the same, or cannot be unpacked before and after. -/
theorem contentOf_of_recode (hlossless : Deflate.Lossless deflate)
    (hheader : header.compressed = policy.compresses name)
    (h : recode (policy.compresses name) current.compressed stored deflate = .ok data) :
    Source.contentOf header data = Source.contentOf current stored := by
  rw [← hheader] at h
  rw [Source.contentOf, Source.contentOf]
  cases hform : header.compressed <;> cases hcurrent : current.compressed <;>
    rw [hform, hcurrent] at h
  · obtain rfl := Except.ok.inj h
    rfl
  · exact h.symm
  · obtain rfl := Except.ok.inj h
    exact Packed.unpack_pack hlossless stored
  · obtain rfl := Except.ok.inj h
    rfl

/-- The stored form of a file is in the form that the settings ask for, and has the content of
    the file's own source. -/
theorem content_of_storedForm (hlossless : Deflate.Lossless deflate)
    (h : storedForm streams policy name source deflate = .ok (header, data)) :
    source.content streams = Source.contentOf header data ∧
      header.compressed = policy.compresses name ∧ header.storedSize.toNat = data.length := by
  obtain ⟨hcompressed, hsize⟩ := header_of_storedForm h
  obtain ⟨current, stored, hcurrent, hstored, hdata, -⟩ := storedForm_eq_ok_iff.mp h
  refine ⟨?_, hcompressed, hsize⟩
  rw [Source.content_eq, hcurrent, hstored, Outcome.ok_bind, Outcome.ok_bind,
    contentOf_of_recode hlossless hcompressed hdata]

/-! ## Files that cannot be stored -/

/-- Why the bytes of a file cannot be had in the form that is asked for: the header or the bytes
    cannot be read, or they are packed, are to be plain, and cannot be unpacked. -/
inductive Unreadable (streams : Streams) (compressed : Bool) (source : Source) :
    ArchiveError → Prop
  | header {error : ArchiveError} (h : source.header streams = .error error) :
      Unreadable streams compressed source error
  | stored {current : RecordHeader} {error : ArchiveError}
      (hcurrent : source.header streams = .ok current)
      (h : source.stored streams = .error error) :
      Unreadable streams compressed source error
  | unpack {current : RecordHeader} {stored : Bytes} {error : ArchiveError}
      (hcurrent : source.header streams = .ok current)
      (hstored : source.stored streams = .ok stored)
      (hpacked : current.compressed = true) (hplain : compressed = false)
      (h : Packed.unpack stored = .error error) :
      Unreadable streams compressed source error

theorem recode_eq_error_iff {compressed current : Bool} :
    recode compressed current stored deflate = .error error ↔
      current = true ∧ compressed = false ∧ Packed.unpack stored = .error error := by
  cases compressed <;> cases current <;> simp [recode]

/-- The bytes that are to be stored can be had but are too many for a field of the header. -/
def Oversized (streams : Streams) (policy : Policy) (name : String) (source : Source)
    (deflate : Bytes → Bytes) (error : ArchiveError) : Prop :=
  ∃ current stored data, source.header streams = .ok current ∧
    source.stored streams = .ok stored ∧
    recode (policy.compresses name) current.compressed stored deflate = .ok data ∧
    UInt32.size ≤ data.length ∧ error = .tooLong data.length

theorem storedForm_eq_error_iff :
    storedForm streams policy name source deflate = .error error ↔
      Unreadable streams (policy.compresses name) source error ∨
        Oversized streams policy name source deflate error := by
  rw [storedForm_eq]
  constructor
  · intro h
    rcases Outcome.bind_eq_error_iff.mp h with h | ⟨current, hcurrent, h⟩
    · exact .inl (.header h)
    rcases Outcome.bind_eq_error_iff.mp h with h | ⟨stored, hstored, h⟩
    · exact .inl (.stored hcurrent h)
    rcases Outcome.bind_eq_error_iff.mp h with h | ⟨data, hdata, h⟩
    · obtain ⟨hpacked, hplain, hunpack⟩ := recode_eq_error_iff.mp h
      exact .inl (.unpack hcurrent hstored hpacked hplain hunpack)
    rcases Outcome.bind_eq_error_iff.mp h with h | ⟨size, -, h⟩
    · obtain ⟨hlong, rfl⟩ := Source.sizeField_eq_error_iff.mp h
      exact .inr ⟨current, stored, data, hcurrent, hstored, hdata, hlong, rfl⟩
    · cases h
  · rintro (h | ⟨current, stored, data, hcurrent, hstored, hdata, hlong, rfl⟩)
    · cases h with
      | header h => rw [h, Outcome.error_bind]
      | stored hcurrent h => rw [hcurrent, h, Outcome.ok_bind, Outcome.error_bind]
      | unpack hcurrent hstored hpacked hplain h =>
        rw [hcurrent, hstored, Outcome.ok_bind, Outcome.ok_bind,
          recode_eq_error_iff.mpr ⟨hpacked, hplain, h⟩, Outcome.error_bind]
    · rw [hcurrent, hstored, Outcome.ok_bind, Outcome.ok_bind, hdata, Outcome.ok_bind,
        Source.sizeField_eq_error_iff.mpr ⟨hlong, rfl⟩, Outcome.error_bind]

/-! ## Files that are stored -/

/-- A source that holds what is to be stored is stored as it is. -/
theorem storedForm_of_stored (hheader : source.header streams = .ok header)
    (hstored : source.stored streams = .ok data)
    (hcompressed : header.compressed = policy.compresses name)
    (hsize : header.storedSize.toNat = data.length) (deflate : Bytes → Bytes) :
    storedForm streams policy name source deflate = .ok (header, data) := by
  refine storedForm_eq_ok_iff.mpr ⟨header, data, hheader, hstored, ?_, ?_, hsize⟩
  · rw [← hcompressed, recode_self]
  · rw [headerAs, ← hcompressed, Bool.and_not_self]
    rfl

/-- What is stored of a source is in the form that is asked for and has the content of the
    source.  Bytes that are in that form already are kept with their size, and a right size
    stays right. -/
structure Faithful (streams : Streams) (compressed : Bool) (source : Source)
    (header : RecordHeader) (data : Bytes) : Prop where
  form : header.compressed = compressed
  size : header.storedSize.toNat = data.length
  content : Source.contentOf header data = source.content streams
  kept : ∀ current, source.header streams = .ok current → current.compressed = compressed →
    source.stored streams = .ok data ∧ header.contentSize = current.contentSize
  counted : ∀ current content, source.header streams = .ok current →
    source.content streams = .ok content → current.contentSize.toNat = content.length →
    header.contentSize.toNat = content.length

/-- A file that can be stored is stored faithfully, and one whose bytes can be had and fit
    their size field can be stored. -/
theorem storedForm_faithful (hlossless : Deflate.Lossless deflate) (streams : Streams)
    (policy : Policy) (name : String) (source : Source) :
    (∀ header data, storedForm streams policy name source deflate = .ok (header, data) →
      Faithful streams (policy.compresses name) source header data) ∧
    ∀ error, storedForm streams policy name source deflate = .error error ↔
      Unreadable streams (policy.compresses name) source error ∨
        Oversized streams policy name source deflate error := by
  refine ⟨fun header data h => ?_, fun error => storedForm_eq_error_iff⟩
  obtain ⟨hcontent, hform, hsize⟩ := content_of_storedForm hlossless h
  obtain ⟨current, stored, hcurrent, hstored, hdata, hheader, -⟩ := storedForm_eq_ok_iff.mp h
  refine ⟨hform, hsize, hcontent.symm, ?_, ?_⟩
  · intro found hfound hsame
    obtain rfl := Except.ok.inj (hcurrent.symm.trans hfound)
    rw [hsame, recode_self] at hdata
    refine ⟨hstored.trans hdata, ?_⟩
    rw [hheader, headerAs, hsame, Bool.and_not_self]
    rfl
  · intro found content hfound hread hcounted
    obtain rfl := Except.ok.inj (hcurrent.symm.trans hfound)
    have hcontentSize := congrArg RecordHeader.contentSize hheader
    dsimp only [headerAs] at hcontentSize
    split at hcontentSize
    · next hunpacked =>
      -- What was unpacked is stored as the content itself.
      have hplain : policy.compresses name = false := by
        simpa using (Bool.and_eq_true_iff.mp hunpacked).2
      rw [hread, Source.contentOf, hform, hplain, if_neg Bool.false_ne_true] at hcontent
      rw [hcontentSize, hsize, Except.ok.inj hcontent]
    · rw [hcontentSize, hcounted]

end

/-- A greeting of two bytes, packed under a header with a wrong size. -/
def greetingRecord : Bytes :=
  RecordHeader.encode { compressed := true, contentSize := 7, storedSize := 9 }
    ++ Packed.pack [0x68, 0x69]

/-- Where only text is packed, the greeting is unpacked under another name and gets its right
    size, and what is cut short cannot be. -/
theorem storedForm_faithful_greeting :
    let streams : Streams := fun _ => { bytes := greetingRecord }
    let policy : Policy := { compressGlobs := ["*.txt"] }
    let record : Source := .deferred { stream := 0, offset := 0 }
    Faithful streams false record
        { compressed := false, contentSize := 2, storedSize := 2 } [0x68, 0x69] ∧
      Faithful streams true record
        { compressed := true, contentSize := 7, storedSize := 9 } (Packed.pack [0x68, 0x69]) ∧
      Faithful streams true (.ofBytes [0x68, 0x69])
        { compressed := true, contentSize := 2, storedSize := 9 } (Packed.pack [0x68, 0x69]) ∧
      storedForm streams policy "greeting" (.packed (.ofBytes [0x78]) 2) = .error (.inflate .tooShort) := by
  intro streams policy record
  have htext : policy.compresses "greeting.txt" = true := by decide +kernel
  have hother : policy.compresses "greeting" = false := by decide +kernel
  have hall := storedForm_faithful Deflate.lossless_store streams policy
  refine ⟨?_, ?_, ?_, ?_⟩
  · rw [← hother]
    exact (hall "greeting" record).1 _ _ (by decide +kernel)
  · rw [← htext]
    exact (hall "greeting.txt" record).1 _ _ (by decide +kernel)
  · rw [← htext]
    exact (hall "greeting.txt" (.ofBytes [0x68, 0x69])).1 _ _ (by decide +kernel)
  · refine ((hall "greeting" (.packed (.ofBytes [0x78]) 2)).2 _).mpr (.inl ?_)
    exact .unpack rfl rfl rfl hother rfl

/-! ## Records -/

/-- A record is a header and as many bytes as the header says. -/
theorem exists_header_of_fileRecord {archive : Archive} {streams : Streams} {file : StoredFile}
    {deflate : Bytes → Bytes} {record : Bytes}
    (h : archive.fileRecord streams file deflate = .ok record) :
    ∃ header : RecordHeader, ∃ data, record = header.encode ++ data ∧
      header.storedSize.toNat = data.length := by
  obtain ⟨⟨header, data⟩, hform, h⟩ := Outcome.bind_eq_ok_iff.mp h
  obtain rfl := Except.ok.inj h
  exact ⟨header, data, rfl, (header_of_storedForm hform).2⟩

/-- A lazy source at the place of a record has the header and the stored bytes that the record
    holds. -/
theorem stored_of_record {streams : Streams} {stream : StreamId} {position : Nat}
    {header : RecordHeader} {data : Bytes} (hsize : header.storedSize.toNat = data.length)
    (hfits : position + Format.headerLength < 2 ^ 64)
    (hfound : header.encode ++ data <+: (streams stream).bytes.drop position) :
    (Source.deferred { stream, offset := UInt64.ofNat position }).header streams = .ok header ∧
      (Source.deferred { stream, offset := UInt64.ofNat position }).stored streams = .ok data := by
  set ref : LazyRef := { stream, offset := UInt64.ofNat position } with href
  obtain ⟨rest, hrest⟩ := hfound
  have hlt : position < UInt64.size := lt_of_le_of_lt (Nat.le_add_right _ _) hfits
  have hoffset : ref.offset.toNat = position := UInt64.toNat_ofNat_of_lt' hlt
  have hdataOffset : ref.dataOffset.toNat = position + Format.headerLength := by
    rw [LazyRef.dataOffset, href, ← UInt64.ofNat_add]
    exact UInt64.toNat_ofNat_of_lt' hfits
  -- The header takes as many bytes as are read for it, so nothing behind it matters.
  have hheader : ref.headerIn (streams stream).bytes = .ok header := by
    have hread := RecordHeader.read_append header []
    rw [List.append_nil] at hread
    rw [LazyRef.headerIn, hoffset, ← hrest, List.append_assoc,
      List.take_left' header.length_encode, hread]
    rfl
  have hstored : ref.storedIn (streams stream).bytes header = .ok data := by
    rw [LazyRef.storedIn, hdataOffset, ← List.drop_drop, ← hrest, List.append_assoc,
      List.drop_left' header.length_encode, List.take_left' hsize.symm, hsize,
      if_neg (lt_irrefl _)]
  refine ⟨(Source.header_deferred streams ref).trans hheader, ?_⟩
  rw [Source.stored_deferred, hheader, Outcome.ok_bind, hstored]

end Archive

end HashArchive
