/-
  HashArchive.Proofs.Directory.Named

  Files of a directory by their names.  Keys of two kinds stand side by side, names and whole
  locations; no key is of both kinds, since a name has no slash (`slash_notMem_key_iff`).  So
  the file that has a name for its key has it for its name as well, and it is the first that
  the name leads to (`fileNamed?_eq_some_iff`).
-/
import Mathlib
import HashArchive.Proofs.Directory.Files
import HashArchive.Proofs.Path.Plain

namespace HashArchive

namespace Entry

/-- Of the files of a name this is the one that the name leads to: the one that has it for its
    key, or else the one with the least key. -/
structure Chosen (files : List Entry) (name : String) (entry : Entry) : Prop where
  mem : entry ∈ files
  name_eq : entry.name = name
  keyed : ∀ other ∈ files, other.key = name → entry = other
  least : (∀ other ∈ files, other.key ≠ name) → ∀ other ∈ files, other.name = name →
    entry.key ≤ other.key

variable {entry : Entry} {entries : List Entry} {name : String}

/-- A key without a slash is a name. -/
theorem Sound.slash_notMem_key_iff (h : entry.Sound) :
    '/' ∉ entry.key.toList ↔ entry.key = entry.name := by
  constructor
  · intro hslash
    rcases h.keyed with hkey | ⟨above, hkey⟩
    · exact hkey
    · exact absurd (by simp [hkey]) hslash
  · intro hkey
    rw [hkey]
    exact h.plain.slash_notMem

theorem Sound.name_of_key (h : entry.Sound) (hname : Path.Plain name) (hkey : entry.key = name) :
    entry.name = name := by
  rw [← hkey, eq_comm, ← h.slash_notMem_key_iff, hkey]
  exact hname.slash_notMem

/-- The first file of a name is the one with the least key. -/
theorem find?_name_eq_some_iff (h : Ascending entries) :
    entries.find? (·.name == name) = some entry ↔
      entry ∈ entries ∧ entry.name = name ∧
        ∀ other ∈ entries, other.name = name → entry.key ≤ other.key := by
  induction entries with
  | nil => simp
  | cons first rest ih =>
    obtain ⟨hfirst, hrest⟩ := List.pairwise_cons.mp h
    by_cases hname : first.name = name
    · rw [List.find?_cons_of_pos (by simpa using hname), Option.some.injEq]
      constructor
      · rintro rfl
        refine ⟨List.mem_cons_self, hname, fun other hmem _ => ?_⟩
        rcases List.mem_cons.mp hmem with rfl | hmem
        · exact le_refl _
        · exact le_of_lt (hfirst other hmem)
      · rintro ⟨hmem, -, hleast⟩
        rcases List.mem_cons.mp hmem with rfl | hmem
        · rfl
        · exact absurd (hfirst entry hmem) (not_lt.mpr (hleast first List.mem_cons_self hname))
    · rw [List.find?_cons_of_neg (by simpa using hname), ih hrest]
      refine ⟨fun ⟨hmem, hentry, hleast⟩ => ⟨List.mem_cons_of_mem _ hmem, hentry, ?_⟩,
        fun ⟨hmem, hentry, hleast⟩ => ⟨?_, hentry, ?_⟩⟩
      · exact List.forall_mem_cons.mpr ⟨fun heq => absurd heq hname, hleast⟩
      · exact (List.mem_cons.mp hmem).resolve_left fun heq => hname (heq ▸ hentry)
      · exact (List.forall_mem_cons.mp hleast).2

end Entry

namespace Directory

variable {directory : Directory} {name : String} {entry : Entry}

theorem file?_eq_none_iff {key : String} :
    directory.file? key = none ↔ ∀ entry ∈ directory.files, entry.key ≠ key := by
  simp [file?]

/-- The file that a name leads to. -/
theorem fileNamed?_eq_some_iff (h : directory.Sound) (hname : Path.Plain name) :
    directory.fileNamed? name = some entry ↔ Entry.Chosen directory.files name entry := by
  rw [fileNamed?]
  cases hfile : directory.file? name with
  | some found =>
    have hfound := (file?_eq_some_iff h.ascending).mp hfile
    have hsame : ∀ other ∈ directory.files, other.key = name → found = other :=
      fun other hmem hkey => h.ascending.eq_of_key_eq hfound.1 hmem (hfound.2.trans hkey.symm)
    have hrun : ∀ more : Option Entry, (some found <|> more) = some found := fun _ => rfl
    rw [hrun, Option.some.injEq]
    constructor
    · rintro rfl
      exact ⟨hfound.1, (h.entries found hfound.1).name_of_key hname hfound.2, hsame,
        fun hnone => absurd hfound.2 (hnone found hfound.1)⟩
    · intro hchosen
      exact (hchosen.keyed found hfound.1 hfound.2).symm
  | none =>
    have hnone := file?_eq_none_iff.mp hfile
    have hrun : ∀ more : Option Entry, (none <|> more) = more := fun _ => rfl
    rw [hrun, Entry.find?_name_eq_some_iff h.ascending]
    constructor
    · rintro ⟨hmem, hentry, hleast⟩
      exact ⟨hmem, hentry, fun other hother hkey => absurd hkey (hnone other hother),
        fun _ => hleast⟩
    · intro hchosen
      exact ⟨hchosen.mem, hchosen.name_eq, hchosen.least hnone⟩

/-- A name leads to a file just if there is one of that name. -/
theorem isSome_fileNamed?_iff (h : directory.Sound) (hname : Path.Plain name) :
    (directory.fileNamed? name).isSome ↔ ∃ entry ∈ directory.files, entry.name = name := by
  constructor
  · intro hsome
    obtain ⟨entry, hentry⟩ := Option.isSome_iff_exists.mp hsome
    have hchosen := (fileNamed?_eq_some_iff h hname).mp hentry
    exact ⟨entry, hchosen.mem, hchosen.name_eq⟩
  · rintro ⟨entry, hmem, hentry⟩
    rw [fileNamed?]
    cases directory.file? name with
    | some found => rfl
    | none => exact List.find?_isSome.mpr ⟨entry, hmem, by simpa using hentry⟩

end Directory

end HashArchive
