/-
  HashArchive.Proofs.Directory.Files

  The files of one directory: a list in the strict order of the keys, kept so by adding,
  removing and changing files.  Such a list is determined by the files in it.  They are
  listed in the order of their names, and those of one name in the order of their keys.
-/
import Mathlib
import HashArchive.Archive.Directory
import HashArchive.Path
import HashArchive.Proofs.Name.Order

namespace HashArchive

namespace Entry

/-- The file has a plain name, and its key is that name or ends in it after a slash. -/
structure Sound (entry : Entry) : Prop where
  plain : Path.Plain entry.name
  keyed : entry.key = entry.name ∨ ∃ above, entry.key = above ++ "/" ++ entry.name

/-- Files stand in the strict order of their keys. -/
def Ascending (entries : List Entry) : Prop := entries.Pairwise (·.key < ·.key)

theorem mem_put {entry other : Entry} {entries : List Entry} (h : Ascending entries) :
    other ∈ entry.put entries ↔ other = entry ∨ other ∈ entries ∧ other.key ≠ entry.key := by
  induction entries with
  | nil => simp [put]
  | cons first rest ih =>
    obtain ⟨hfirst, hrest⟩ := List.pairwise_cons.mp h
    rw [put]
    split
    · next hlt =>
      rw [List.mem_cons, ih hrest, List.mem_cons]
      have hne : first.key ≠ entry.key := ne_of_lt hlt
      constructor
      · rintro (rfl | rfl | ⟨hmem, hkey⟩)
        · exact Or.inr ⟨Or.inl rfl, hne⟩
        · exact Or.inl rfl
        · exact Or.inr ⟨Or.inr hmem, hkey⟩
      · rintro (rfl | ⟨rfl | hmem, hkey⟩)
        · exact Or.inr (Or.inl rfl)
        · exact Or.inl rfl
        · exact Or.inr (Or.inr ⟨hmem, hkey⟩)
    · split
      · next hkey =>
        -- The later files have greater keys, so only the first one is replaced.
        have hlater : ∀ file ∈ rest, file.key ≠ entry.key := fun file hmem =>
          hkey ▸ ne_of_gt (hfirst file hmem)
        rw [List.mem_cons, List.mem_cons]
        constructor
        · rintro (rfl | hmem)
          · exact Or.inl rfl
          · exact Or.inr ⟨Or.inr hmem, hlater other hmem⟩
        · rintro (rfl | ⟨rfl | hmem, hne⟩)
          · exact Or.inl rfl
          · exact absurd hkey hne
          · exact Or.inr hmem
      · next hlt hne =>
        have hbefore : entry.key < first.key := lt_of_le_of_ne (not_lt.mp hlt) (Ne.symm hne)
        have hlater : ∀ file ∈ first :: rest, file.key ≠ entry.key := by
          intro file hmem
          rcases List.mem_cons.mp hmem with rfl | hmem
          · exact hne
          · exact ne_of_gt (lt_trans hbefore (hfirst file hmem))
        rw [List.mem_cons]
        exact or_congr_right ⟨fun hmem => ⟨hmem, hlater other hmem⟩, And.left⟩

theorem ascending_put (entry : Entry) {entries : List Entry} (h : Ascending entries) :
    Ascending (entry.put entries) := by
  induction entries with
  | nil => exact List.pairwise_singleton _ _
  | cons first rest ih =>
    obtain ⟨hfirst, hrest⟩ := List.pairwise_cons.mp h
    rw [put]
    split
    · next hlt =>
      refine List.pairwise_cons.mpr ⟨?_, ih hrest⟩
      intro file hmem
      rcases (mem_put hrest).mp hmem with rfl | ⟨hmem, -⟩
      · exact hlt
      · exact hfirst file hmem
    · split
      · next hkey =>
        exact List.pairwise_cons.mpr ⟨fun file hmem => hkey ▸ hfirst file hmem, hrest⟩
      · next hlt hne =>
        have hbefore : entry.key < first.key := lt_of_le_of_ne (not_lt.mp hlt) (Ne.symm hne)
        refine List.pairwise_cons.mpr ⟨?_, h⟩
        intro file hmem
        rcases List.mem_cons.mp hmem with rfl | hmem
        · exact hbefore
        · exact lt_trans hbefore (hfirst file hmem)

theorem Ascending.nodup {entries : List Entry} (h : Ascending entries) : entries.Nodup := by
  refine List.Pairwise.imp (fun {a b} hlt => ?_) h
  rintro rfl
  exact lt_irrefl _ hlt

/-- Files of one key are one file. -/
theorem Ascending.eq_of_key_eq {entries : List Entry} (h : Ascending entries) {entry other : Entry}
    (hmem : entry ∈ entries) (hother : other ∈ entries) (hkey : entry.key = other.key) :
    entry = other := by
  have hkeys : (entries.map (·.key)).Nodup := List.pairwise_map.mpr (h.imp fun hlt => ne_of_lt hlt)
  exact List.inj_on_of_nodup_map hkeys hmem hother hkey

/-- Two ascending lists of the same files are the same list. -/
theorem eq_of_mem_iff {entries others : List Entry} (h : Ascending entries)
    (h' : Ascending others) (hmem : ∀ entry, entry ∈ entries ↔ entry ∈ others) :
    entries = others := by
  have hperm : entries.Perm others := (List.perm_ext_iff_of_nodup h.nodup h'.nodup).mpr hmem
  exact hperm.eq_of_pairwise (fun a b _ _ hab hba => absurd hab (lt_asymm hba)) h h'

/-! ## The order of the listing -/

theorem before_iff {a b : Entry} :
    before a b = true ↔ Name.before a.name b.name = true ∨ a.name = b.name ∧ a.key < b.key := by
  simp only [before, Bool.or_eq_true, Bool.and_eq_true, decide_eq_true_eq, beq_iff_eq]

theorem before_trans {a b c : Entry} (hab : before a b = true) (hbc : before b c = true) :
    before a c = true := by
  rw [before_iff] at hab hbc ⊢
  rcases hab with hab | ⟨hab, hab'⟩
  · rcases hbc with hbc | ⟨hbc, -⟩
    · exact Or.inl (Name.before_trans hab hbc)
    · exact Or.inl (hbc ▸ hab)
  · rcases hbc with hbc | ⟨hbc, hbc'⟩
    · exact Or.inl (hab ▸ hbc)
    · exact Or.inr ⟨hab.trans hbc, lt_trans hab' hbc'⟩

/-- Of two files one comes before the other, unless they have one name and one key. -/
theorem before_total {a b : Entry} (h : before a b = false) :
    before b a = true ∨ b.name = a.name ∧ b.key = a.key := by
  rw [← Bool.not_eq_true, before_iff] at h
  rw [before_iff]
  push Not at h
  by_cases hname : Name.before b.name a.name = true
  · exact Or.inl (Or.inl hname)
  · have hsame : a.name = b.name :=
      Name.eq_of_not_before (Bool.not_eq_true _ ▸ h.1) (Bool.not_eq_true _ ▸ hname)
    rcases (h.2 hsame).lt_or_eq with hlt | heq
    · exact Or.inl (Or.inr ⟨hsame.symm, hlt⟩)
    · exact Or.inr ⟨hsame.symm, heq⟩

/-- What the files of a directory are ordered by: the rank of the name, and then the key. -/
def rank (entry : Entry) : (String ×ₗ String) ×ₗ String :=
  toLex (Name.rank entry.name, entry.key)

theorem before_iff_rank_lt {a b : Entry} : before a b = true ↔ rank a < rank b := by
  rw [before_iff, Name.before_iff_rank_lt, rank, rank, Prod.Lex.toLex_lt_toLex, Name.rank_inj]

/-- Files of one name are listed in the order of their keys. -/
theorem key_lt_of_before {a b : Entry} (h : before a b = true) (hname : a.name = b.name) :
    a.key < b.key := by
  rcases before_iff.mp h with hlt | ⟨-, hlt⟩
  · exact absurd hname (Name.ne_of_before hlt)
  · exact hlt

end Entry

namespace Directory

/-- The directory's files are in order and sound. -/
structure Sound (directory : Directory) : Prop where
  ascending : Entry.Ascending directory.files
  entries : ∀ entry ∈ directory.files, entry.Sound

theorem perm_listing (directory : Directory) : directory.listing.Perm directory.files :=
  Sorted.perm_sort _ _

/-- Each file is listed after those that come before it. -/
theorem Sound.pairwise_listing {directory : Directory} (h : directory.Sound) :
    directory.listing.Pairwise fun a b => Entry.before a b = true := by
  have hsorted : directory.listing.Pairwise fun a b =>
      Entry.before a b = true ∨ a.name = b.name ∧ a.key = b.key := by
    refine Sorted.pairwise_sort ?_ (fun _ _ => Or.inl) (fun _ _ => Entry.before_total) _
    intro a b c hab hbc
    rw [Entry.before_iff] at hab hbc ⊢
    rcases hab with hab | ⟨hname, hkey⟩
    · rcases hbc with hbc | ⟨hname', hkey'⟩
      · exact Or.inl (Entry.before_iff.mp
          (Entry.before_trans (Entry.before_iff.mpr hab) (Entry.before_iff.mpr hbc)))
      · exact Or.inl (hname' ▸ hkey' ▸ hab)
    · rw [hname, hkey]
      exact hbc
  -- No two files have one key, so the order is strict.
  have hkeys : directory.listing.Pairwise fun a b => a.key ≠ b.key :=
    (directory.perm_listing.pairwise_iff fun hne => hne.symm).mpr
      (h.ascending.imp fun hlt => ne_of_lt hlt)
  exact (hsorted.and hkeys).imp fun ⟨hbefore, hne⟩ => hbefore.resolve_right fun heq => hne heq.2

/-- A file is found by its key. -/
theorem file?_eq_some_iff {directory : Directory} (h : Entry.Ascending directory.files)
    {key : String} {entry : Entry} :
    directory.file? key = some entry ↔ entry ∈ directory.files ∧ entry.key = key := by
  rw [file?]
  constructor
  · intro hfound
    exact ⟨List.mem_of_find?_eq_some hfound, by simpa using List.find?_some hfound⟩
  · rintro ⟨hmem, rfl⟩
    generalize directory.files = entries at h hmem
    induction entries with
    | nil => cases hmem
    | cons first rest ih =>
      obtain ⟨hfirst, hrest⟩ := List.pairwise_cons.mp h
      rcases List.mem_cons.mp hmem with rfl | hmem
      · simp
      · have hne : first.key ≠ entry.key := ne_of_lt (hfirst entry hmem)
        rw [List.find?_cons_of_neg (by simpa using hne)]
        exact ih hrest hmem

theorem sound_put {directory : Directory} (h : directory.Sound) {entry : Entry}
    (hentry : entry.Sound) : (directory.put entry).Sound := by
  refine ⟨Entry.ascending_put entry h.ascending, ?_⟩
  intro other hmem
  rcases (Entry.mem_put h.ascending).mp hmem with rfl | ⟨hmem, -⟩
  · exact hentry
  · exact h.entries other hmem

theorem sound_remove {directory : Directory} (h : directory.Sound) (key : String) :
    (directory.remove key).Sound :=
  ⟨List.Pairwise.sublist List.filter_sublist h.ascending,
    fun entry hmem => h.entries entry (List.mem_of_mem_filter hmem)⟩

theorem sound_updateSource {directory : Directory} (h : directory.Sound) (key : String)
    (f : Source → Source) : (directory.updateSource key f).Sound := by
  constructor
  · refine (List.pairwise_map.mpr ?_)
    refine h.ascending.imp fun {a b} hlt => ?_
    split <;> split <;> exact hlt
  · intro entry hmem
    obtain ⟨old, hold, rfl⟩ := List.mem_map.mp hmem
    split
    · exact ⟨(h.entries old hold).plain, (h.entries old hold).keyed⟩
    · exact h.entries old hold

end Directory

end HashArchive
