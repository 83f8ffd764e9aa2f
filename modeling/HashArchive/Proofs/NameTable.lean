/-
  HashArchive.Proofs.NameTable

  The name table of a list of names is read back from its bytes, and where different names
  have different keys it leads from each key back to the name.  What it leads to for any bytes
  is `NameTable.parse_first_wins`.
-/
import Mathlib
import HashArchive.NameTable
import HashArchive.Path
import HashArchive.Proofs.NameTable.Records

namespace HashArchive

/-- The number of units of a name fits its field. -/
def Name.Writable (name : String) : Prop := (Text.Utf16.encode name.toList).length < 2 ^ 31

instance Name.decidableWritable (name : String) : Decidable (Name.Writable name) :=
  inferInstanceAs (Decidable (_ < _))

namespace NameRecord

/-- A name under its own key. -/
def ofName (name : String) : NameRecord := ⟨Name.key .utf16 name, name⟩

/-- A name's record as its bytes have it. -/
def Raw.ofName (name : String) : Raw := ⟨Name.key .utf16 name, Text.Utf16.encode name.toList⟩

/-- A name's units are those of a text, so the record is read as it was written. -/
theorem record_ofName (name : String) : (Raw.ofName name).record = ofName name := by
  rw [Raw.record, Raw.ofName, Text.Utf16.decode_encode, String.ofList_toList, ofName]

end NameRecord

namespace NameTable

open NameRecord (Raw)

/-- The bytes of a list of names are the records of its names, all of them whole. -/
theorem whole_encode {names : List String} (h : ∀ name ∈ names, Name.Writable name) :
    Whole (names.eraseDups.map Raw.ofName) (encode names) := by
  refine ⟨?_, ?_⟩
  · intro raw hmem
    obtain ⟨name, hname, rfl⟩ := List.mem_map.mp hmem
    exact h name (List.mem_eraseDups.mp hname)
  · rw [List.flatMap_map]
    rfl

/-- The table of a list of names is read back from its bytes. -/
theorem parse_encode {names : List String} (h : ∀ name ∈ names, Name.Writable name) :
    parse (encode names) = .ok ⟨names.eraseDups.map NameRecord.ofName⟩ := by
  have hrecords : Raw.record ∘ Raw.ofName = NameRecord.ofName := funext NameRecord.record_ofName
  rw [(whole_encode h).parse_eq, List.map_map, hrecords]

/-! ## Looking names up -/

/-- Leaving out what has been there before does not change what is found first. -/
theorem find?_eraseDups {α : Type} [BEq α] [LawfulBEq α] (p : α → Bool) (list : List α) :
    list.eraseDups.find? p = list.find? p := by
  match list with
  | [] => rfl
  | first :: rest =>
    rw [List.eraseDups_cons, List.find?_cons, List.find?_cons]
    cases hfirst : p first with
    | true => rfl
    | false =>
      dsimp only
      rw [find?_eraseDups p, List.find?_filter]
      -- What is left out is equal to the first, which is not looked for.
      refine congrArg (rest.find? ·) (funext fun other => ?_)
      by_cases hother : other = first
      · simp [hother, hfirst]
      · simp [hother]
termination_by list.length
decreasing_by exact Nat.lt_succ_of_le (List.length_filter_le _ _)

theorem nodup_eraseDups {α : Type} [BEq α] [LawfulBEq α] (list : List α) :
    list.eraseDups.Nodup := by
  match list with
  | [] => exact List.nodup_nil
  | first :: rest =>
    rw [List.eraseDups_cons, List.nodup_cons]
    refine ⟨fun hmem => ?_, nodup_eraseDups _⟩
    have hfirst := (List.mem_filter.mp (List.mem_eraseDups.mp hmem)).2
    rw [beq_self_eq_true] at hfirst
    cases hfirst
termination_by list.length
decreasing_by exact Nat.lt_succ_of_le (List.length_filter_le _ _)

/-- The size counts every key once. -/
theorem size_eq_card (table : NameTable) :
    table.size = (table.records.map (·.key)).toFinset.card := by
  rw [size, ← List.toFinset_card_of_nodup (nodup_eraseDups _)]
  refine congrArg Finset.card (Finset.ext fun key => ?_)
  rw [List.mem_toFinset, List.mem_toFinset, List.mem_eraseDups]

/-- The table of a list of names leads from a key to the first name that has it. -/
theorem get?_ofName (names : List String) (key : UInt64) :
    get? ⟨names.eraseDups.map NameRecord.ofName⟩ key
      = names.find? fun name => Name.key .utf16 name == key := by
  rw [get?, List.find?_map, Option.map_map]
  have hname : NameRecord.name ∘ NameRecord.ofName = id := rfl
  rw [hname, Option.map_id, id]
  exact find?_eraseDups _ names

/-- The table of a list of names has as many keys as the names have. -/
theorem size_ofName (names : List String) :
    size ⟨names.eraseDups.map NameRecord.ofName⟩ = (names.map (Name.key .utf16)).toFinset.card := by
  have hkey : NameRecord.key ∘ NameRecord.ofName = Name.key .utf16 := rfl
  rw [size_eq_card, List.map_map, hkey]
  refine congrArg Finset.card (Finset.ext fun key => ?_)
  simp only [List.mem_toFinset, List.mem_map, List.mem_eraseDups]

/-- The table of whole records leads from a key to the text that the units of the first record
    with it stand for. -/
theorem Whole.get?_eq_some_iff {raws : List Raw} {bytes : Bytes} {table : NameTable}
    (h : Whole raws bytes) (hparse : parse bytes = .ok table) {key : UInt64} {name : String} :
    table.get? key = some name ↔
      ∃ raw, raws.find? (·.key == key) = some raw ∧ Text.Utf16.Lossy raw.units name.toList := by
  obtain rfl := Except.ok.inj (h.parse_eq.symm.trans hparse)
  have hkeys : (fun record : NameRecord => record.key == key) ∘ Raw.record
      = fun raw : Raw => raw.key == key := rfl
  rw [get?, List.find?_map, Option.map_map, Option.map_eq_some_iff, hkeys]
  refine exists_congr fun raw => and_congr_right fun _ => ?_
  rw [Text.Utf16.lossy_iff, Function.comp_apply, Raw.record, ← String.toList_inj,
    String.toList_ofList]

/-- Where the keys tell the names apart, a key leads back to its name. -/
theorem resolve_ofName {names : List String}
    (hkeys : ∀ a ∈ names, ∀ b ∈ names, Name.key .utf16 a = Name.key .utf16 b → a = b)
    {name : String} (hmem : name ∈ names) :
    resolve ⟨names.eraseDups.map NameRecord.ofName⟩ (Name.key .utf16 name) = .ok name := by
  -- Some name is found under the key, and it can only be this one.
  have hsome : (names.find? fun other => Name.key .utf16 other == Name.key .utf16 name).isSome :=
    List.find?_isSome.mpr ⟨name, hmem, by simp⟩
  obtain ⟨found, hfound⟩ := Option.isSome_iff_exists.mp hsome
  have hkey : Name.key .utf16 found = Name.key .utf16 name := by
    simpa using List.find?_some hfound
  obtain rfl : found = name := hkeys found (List.mem_of_find?_eq_some hfound) name hmem hkey
  rw [resolve, get?_ofName, hfound]

/-! ## Names under keys -/

/-- The name under a key; the empty text where there is none. -/
def nameOf (table : NameTable) (key : UInt64) : String := (table.get? key).getD ""

/-- The table has a plain name under the key, and the key is that name's own. -/
structure Spells (table : NameTable) (key : UInt64) : Prop where
  resolve : table.resolve key = .ok (table.nameOf key)
  plain : Path.Plain (table.nameOf key)
  keyed : Name.key .utf16 (table.nameOf key) = key

/-- Under different keys there are different names. -/
theorem Spells.nameOf_eq_iff {table : NameTable} {key other : UInt64} (h : table.Spells key)
    (h' : table.Spells other) : table.nameOf key = table.nameOf other ↔ key = other := by
  constructor
  · intro heq
    rw [← h.keyed, heq, h'.keyed]
  · exact congrArg table.nameOf

/-- Where a plain name stands before all that are not, a plain name is found under its key. -/
theorem spells_ofName {names others : List String} (hplain : ∀ name ∈ names, Path.Plain name)
    {name : String} (hmem : name ∈ names) :
    Spells ⟨(names ++ others).eraseDups.map NameRecord.ofName⟩ (Name.key .utf16 name) := by
  set table : NameTable := ⟨(names ++ others).eraseDups.map NameRecord.ofName⟩ with htable
  have hsome : (names.find? fun other => Name.key .utf16 other == Name.key .utf16 name).isSome :=
    List.find?_isSome.mpr ⟨name, hmem, by simp⟩
  obtain ⟨found, hfound⟩ := Option.isSome_iff_exists.mp hsome
  have hget : table.get? (Name.key .utf16 name) = some found := by
    rw [htable, get?_ofName, List.find?_append, hfound, Option.some_or]
  have hname : table.nameOf (Name.key .utf16 name) = found := by rw [nameOf, hget, Option.getD_some]
  refine ⟨?_, ?_, ?_⟩
  · rw [resolve, hget, hname]
  · rw [hname]
    exact hplain found (List.mem_of_find?_eq_some hfound)
  · rw [hname]
    simpa using List.find?_some hfound

/-! ## All bytes -/

/-- A list of names is read back from its bytes as a table that leads from a key to the first
    name that has it.  Any bytes are a table if and only if they are whole records, and the
    first record with a key has the units of its name; otherwise the first record that is not
    whole decides what the error is. -/
theorem parse_first_wins :
    (∀ names : List String, (∀ name ∈ names, Name.Writable name) →
      ∃ table, parse (encode names) = .ok table ∧
        (∀ key, table.get? key = names.find? fun name => Name.key .utf16 name == key) ∧
        table.size = (names.map (Name.key .utf16)).toFinset.card) ∧
    ∀ bytes : Bytes,
      ((∃ table, parse bytes = .ok table) ↔ ∃ raws, Whole raws bytes) ∧
      (∀ raws table, Whole raws bytes → parse bytes = .ok table →
        ∀ key name, table.get? key = some name ↔
          ∃ raw, raws.find? (·.key == key) = some raw ∧
            Text.Utf16.Lossy raw.units name.toList) ∧
      ∀ error, parse bytes = .error error ↔
        ∃ raws front tail, Whole raws front ∧ bytes = front ++ tail ∧ tail ≠ [] ∧
          NameRecord.Broken tail ∧ error = NameRecord.faultOf tail := by
  refine ⟨fun names hnames => ?_, fun bytes => ⟨exists_parse_iff, ?_, ?_⟩⟩
  · exact ⟨_, parse_encode hnames, get?_ofName names, size_ofName names⟩
  · intro raws table hwhole hparse key name
    exact hwhole.get?_eq_some_iff hparse
  · intro error
    exact parse_eq_error_iff

/-- The names `A` and `a` have one key, which leads to the first of them.  Behind half of a
    pair, which is read as a replacement character, a record with a negative number of units
    is what is wrong. -/
theorem parse_first_wins_halved :
    (∃ table, parse (encode ["A", "a", "x😀"]) = .ok table ∧
      table.get? (Name.key .utf16 "a") = some "A" ∧ table.size = 2) ∧
    (∃ table, parse (Raw.encode ⟨7, [0xD83D]⟩) = .ok table ∧ table.get? 7 = some "\uFFFD") ∧
    parse (Raw.encode ⟨7, [0xD83D]⟩ ++ (Bytes.ofUInt64 9 ++ Bytes.ofInt32 (-1)))
      = .error (.corrupt (.negativeCount .nameUnits (-1))) := by
  refine ⟨?_, ?_, ?_⟩
  · obtain ⟨table, hparse, hget, hsize⟩ :=
      parse_first_wins.1 ["A", "a", "x😀"] (by decide +kernel)
    refine ⟨table, hparse, ?_, ?_⟩
    · rw [hget]
      decide +kernel
    · rw [hsize]
      decide +kernel
  · have hwhole : Whole [⟨7, [0xD83D]⟩] (Raw.encode ⟨7, [0xD83D]⟩) := by decide +kernel
    obtain ⟨hexists, hget, -⟩ := parse_first_wins.2 (Raw.encode ⟨7, [0xD83D]⟩)
    obtain ⟨table, hparse⟩ := hexists.mpr ⟨_, hwhole⟩
    refine ⟨table, hparse, (hget _ table hwhole hparse 7 _).mpr ⟨_, rfl, ?_⟩⟩
    rw [Text.Utf16.lossy_iff]
    decide +kernel
  · refine ((parse_first_wins.2 _).2.2 _).mpr ⟨[⟨7, [0xD83D]⟩], _, _, ?_, rfl, ?_, ?_, ?_⟩
    all_goals decide +kernel

end NameTable

end HashArchive
