/-
  HashArchive.Proofs.Source.Detached

  What a copy in memory keeps of its source.  A lazy source is copied when its header and its
  stored bytes can be read, and from then on the copy answers every read as the source did,
  whatever becomes of the stream (`detached_keeps`).  Only a size that was wrong for plain bytes
  is put right: in memory they are counted anew.
-/
import Mathlib
import HashArchive.Proofs.Slices
import HashArchive.Proofs.Source

namespace HashArchive

theorem LazyRef.headerIn_eq_headerAt (ref : LazyRef) (bytes : Bytes) :
    ref.headerIn bytes = ref.headerAt bytes :=
  (ref.readHeader_spec { bytes }).1.symm.trans readHeader_gives.answer

namespace Source

/-! ## Sources that have been read -/

/-- A source and the open streams after some reads: the bytes are the same and the cursors
    anywhere, and a lazy source may have kept its header. -/
structure Reread (streams : Streams) (source : Source) (later : Streams) (reader : Source) :
    Prop where
  bytes : ∀ id, (later id).bytes = (streams id).bytes
  kept : reader = source ∨ reader = source.settled streams

section

variable {streams later : Streams} {source reader : Source}

theorem settled_deferred (streams : Streams) (ref : LazyRef) :
    (deferred ref).settled streams = deferred (ref.frozen (streams ref.stream).bytes) :=
  congrArg deferred LazyRef.readHeader_gives.reader

/-- A lazy source that has been read answers as before. -/
theorem header_settled (ref : LazyRef) :
    ((deferred ref).settled streams).header streams = (deferred ref).header streams := by
  rw [settled_deferred, header_deferred, header_deferred, LazyRef.headerIn_eq_headerAt,
    LazyRef.headerIn_eq_headerAt]
  exact ref.headerAt_frozen _

theorem stored_settled (ref : LazyRef) :
    ((deferred ref).settled streams).stored streams = (deferred ref).stored streams := by
  have hheader : ((deferred ref).settled streams).header streams = _ := header_settled ref
  rw [settled_deferred, header_deferred, header_deferred] at hheader
  rw [settled_deferred, stored_deferred, stored_deferred, hheader]
  rfl

/-- Reads answer alike in streams of the same bytes. -/
theorem header_congr (hbytes : ∀ id, (later id).bytes = (streams id).bytes) :
    source.header later = source.header streams := by
  cases source with
  | deferred ref => rw [header_deferred, header_deferred, hbytes]
  | _ => rfl

theorem stored_congr (hbytes : ∀ id, (later id).bytes = (streams id).bytes) :
    source.stored later = source.stored streams := by
  cases source with
  | deferred ref => rw [stored_deferred, stored_deferred, hbytes]
  | _ => rfl

/-- Whatever has been read before, a source is detached as if it were read for the first time. -/
theorem Reread.detached_eq (h : Reread streams source later reader) :
    reader.detached later = source.detached streams := by
  obtain ⟨hbytes, hkept⟩ := h
  cases source with
  | deferred ref =>
    have hreader : reader = deferred ref ∨
        reader = deferred (ref.frozen (streams ref.stream).bytes) :=
      settled_deferred streams ref ▸ hkept
    rcases hreader with rfl | rfl
    · rw [detached_deferred, detached_deferred, header_congr hbytes, stored_congr hbytes]
    · rw [detached_deferred, detached_deferred, header_congr hbytes, stored_congr hbytes,
        ← settled_deferred, header_settled, stored_settled]
  | _ =>
    obtain rfl := or_self_iff.mp hkept
    rfl

/-! ## What can be detached -/

/-- Of more bytes, in memory, than a size field can count: such a source has no header. -/
def Oversized : Source → Prop
  | memory data | packed data _ => UInt32.size ≤ data.size
  | deferred _ => False

theorem isOk_sizeField_iff {size : Nat} :
    (∃ field, sizeField size = .ok field) ↔ ¬ UInt32.size ≤ size := by
  rw [sizeField, not_le]
  split
  · next hlt => exact iff_of_true ⟨_, rfl⟩ hlt
  · next hge => exact iff_of_false (by rintro ⟨_, ⟨⟩⟩) hge

/-- In memory there is a header unless there are too many bytes. -/
theorem exists_header_iff_of_inMemory (h : ∀ ref, source ≠ deferred ref) :
    (∃ header, source.header streams = .ok header) ↔ ¬ source.Oversized := by
  have hfield : ∀ {size : Nat} {f : UInt32 → RecordHeader},
      (∃ header, (sizeField size >>= fun field => pure (f field)) = .ok header) ↔
        ¬ UInt32.size ≤ size := by
    intro size f
    rw [← isOk_sizeField_iff]
    cases sizeField size with
    | ok field => exact iff_of_true ⟨_, rfl⟩ ⟨_, rfl⟩
    | error error => exact iff_of_false (by rintro ⟨_, ⟨⟩⟩) (by rintro ⟨_, ⟨⟩⟩)
  cases source with
  | memory data => exact hfield
  | packed data contentSize => exact hfield
  | deferred ref => exact absurd rfl (h ref)

/-- A source can be detached exactly when its header and its stored bytes can be read; what is
    in memory can be also where it is too long for a header. -/
theorem exists_detached_iff :
    (∃ copy, source.detached streams = .ok copy) ↔
      source.Oversized ∨ (∃ header, source.header streams = .ok header) ∧
        ∃ stored, source.stored streams = .ok stored := by
  by_cases hlazy : ∃ ref, source = deferred ref
  · obtain ⟨ref, rfl⟩ := hlazy
    rw [detached_deferred]
    simp only [Oversized, false_or, Outcome.bind_eq_ok_iff]
    constructor
    · rintro ⟨copy, header, hheader, stored, hstored, -⟩
      exact ⟨⟨header, hheader⟩, ⟨stored, hstored⟩⟩
    · rintro ⟨⟨header, hheader⟩, ⟨stored, hstored⟩⟩
      exact ⟨_, header, hheader, stored, hstored, rfl⟩
  · rw [exists_header_iff_of_inMemory (not_exists.mp hlazy)]
    have hmemory : source.detached streams = .ok source ∧
        ∃ stored, source.stored streams = .ok stored := by
      cases source with
      | memory data => exact ⟨rfl, data.bytes, rfl⟩
      | packed data contentSize => exact ⟨rfl, data.bytes, rfl⟩
      | deferred ref => exact absurd ⟨ref, rfl⟩ hlazy
    exact iff_of_true ⟨source, hmemory.1⟩
      ((em source.Oversized).imp_right fun hfits => ⟨hfits, hmemory.2⟩)

/-! ## What a copy keeps -/

/-- The header that a source with this header has once it is in memory: the content of plain
    bytes is as long as they are. -/
def headerInMemory : Source → RecordHeader → RecordHeader
  | deferred _, header =>
    if header.compressed then header else { header with contentSize := header.storedSize }
  | _, header => header

/-- A copy answers as its source did, whatever streams are open. -/
structure CopyOf (streams : Streams) (source copy : Source) : Prop where
  inMemory : ∀ ref, copy ≠ deferred ref
  stored : ∀ others, copy.stored others = source.stored streams
  content : ∀ others, copy.content others = source.content streams
  header : ∀ others, copy.header others = (source.header streams).map source.headerInMemory
  detached : ∀ others, copy.detached others = .ok copy

/-- What is in memory already is its own copy. -/
theorem copyOf_self (h : ∀ ref, source ≠ deferred ref) : CopyOf streams source source := by
  have hheader : ∀ answer : Except ArchiveError RecordHeader,
      answer.map source.headerInMemory = answer := by
    intro answer
    cases source with
    | deferred ref => exact absurd rfl (h ref)
    | _ => cases answer <;> rfl
  cases source with
  | deferred ref => exact absurd rfl (h ref)
  | _ => exact ⟨h, fun _ => rfl, fun _ => rfl, fun _ => (hheader _).symm, fun _ => rfl⟩

/-- The copy of a lazy source is the packed bytes, or the plain ones with their own number for
    both sizes. -/
theorem copyOf_of_detached {copy : Source} (h : source.detached streams = .ok copy) :
    CopyOf streams source copy := by
  have hcontent := content_of_detached h
  cases source with
  | memory data =>
    obtain rfl := Except.ok.inj h
    exact copyOf_self (by simp)
  | packed data contentSize =>
    obtain rfl := Except.ok.inj h
    exact copyOf_self (by simp)
  | deferred ref =>
    obtain ⟨header, stored, hheader, hstored, rfl⟩ := exists_of_detached_deferred h
    have hsize := sizeField_of_stored hheader hstored
    have hmap : ((deferred ref).header streams).map (deferred ref).headerInMemory
        = .ok (if header.compressed then header
            else { header with contentSize := header.storedSize }) := by
      rw [hheader]
      rfl
    rw [ofStored] at hcontent ⊢
    by_cases hcompressed : header.compressed = true
    · rw [if_pos hcompressed] at hcontent hmap ⊢
      refine ⟨by simp, fun _ => hstored.symm, hcontent, fun others => ?_, fun _ => rfl⟩
      rw [hmap, header_packed hsize, ← hcompressed]
    · rw [if_neg hcompressed] at hcontent hmap ⊢
      refine ⟨by simp, fun _ => hstored.symm, hcontent, fun others => ?_, fun _ => rfl⟩
      rw [hmap, header_memory hsize, ← Bool.eq_false_iff.mpr hcompressed]

end

/-- Whatever has been read of it before, a source can be detached exactly when its header and
    its stored bytes can be read (or when it is in memory and too long for a header), and the
    copy is in memory, answers every read as the source did, and is its own copy. -/
theorem detached_keeps {streams later : Streams} {source reader : Source}
    (h : Reread streams source later reader) :
    ((∃ copy, reader.detached later = .ok copy) ↔
      source.Oversized ∨ (∃ header, source.header streams = .ok header) ∧
        ∃ stored, source.stored streams = .ok stored) ∧
    ∀ copy, reader.detached later = .ok copy → CopyOf streams source copy := by
  rw [h.detached_eq]
  exact ⟨exists_detached_iff, fun copy hcopy => copyOf_of_detached hcopy⟩

/-- Bytes in memory that are one too many for a size field have no header, and are their own
    copy all the same. -/
theorem detached_vast :
    let streams : Streams := fun _ => { bytes := [] }
    let vast : Source := .ofBytes (List.replicate UInt32.size 0)
    (∃ copy, vast.detached streams = .ok copy) ∧
      ¬ ((∃ header, vast.header streams = .ok header) ∧ ∃ stored, vast.stored streams = .ok stored) := by
  intro streams vast
  have hsize : vast.Oversized := by
    show UInt32.size ≤ (List.replicate UInt32.size (0 : UInt8)).length
    rw [List.length_replicate]
  refine ⟨⟨vast, rfl⟩, fun ⟨hheader, _⟩ => ?_⟩
  exact (exists_header_iff_of_inMemory fun _ => Source.noConfusion).mp hheader hsize

/-- Two records: plain bytes under a header with a wrong size, and packed bytes that cannot be
    unpacked. -/
def mislabelledRecords : Bytes :=
  RecordHeader.encode { compressed := false, contentSize := 7, storedSize := 2 } ++ [0x68, 0x69]
    ++ (RecordHeader.encode { compressed := true, contentSize := 9, storedSize := 3 }
      ++ [0x78, 0x5E, 0xFF])

/-- The copies of both records keep what can and cannot be read of them; only the size of the
    plain bytes becomes right. -/
theorem detached_keeps_mislabelled :
    let streams : Streams := fun _ => { bytes := mislabelledRecords }
    let later : Streams := fun _ => { bytes := mislabelledRecords, position := 5 }
    let plain : Source := .deferred { stream := 0, offset := 0 }
    let broken : Source := .deferred { stream := 0, offset := 18 }
    Reread streams plain later plain ∧ Reread streams broken later (broken.settled streams) ∧
      CopyOf streams plain (.ofBytes [0x68, 0x69]) ∧
      CopyOf streams broken (.packed (.ofBytes [0x78, 0x5E, 0xFF]) 9) ∧
      (∀ others, (Source.ofBytes [0x68, 0x69]).header others
        = .ok { compressed := false, contentSize := 2, storedSize := 2 }) ∧
      ∀ others, (Source.packed (.ofBytes [0x78, 0x5E, 0xFF]) 9).content others
        = .error (.inflate .malformed) := by
  intro streams later plain broken
  have hplain : Reread streams plain later plain := ⟨fun _ => rfl, .inl rfl⟩
  have hbroken : Reread streams broken later (broken.settled streams) := ⟨fun _ => rfl, .inr rfl⟩
  have hplainCopy := (detached_keeps hplain).2 (.ofBytes [0x68, 0x69]) (by decide +kernel)
  have hbrokenCopy := (detached_keeps hbroken).2 (.packed (.ofBytes [0x78, 0x5E, 0xFF]) 9) (by decide +kernel)
  refine ⟨hplain, hbroken, hplainCopy, hbrokenCopy, fun others => ?_, fun others => ?_⟩
  · rw [hplainCopy.header others]
    decide +kernel
  · rw [hbrokenCopy.content others]
    decide +kernel

end Source

end HashArchive
