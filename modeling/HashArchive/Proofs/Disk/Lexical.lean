/-
  HashArchive.Proofs.Disk.Lexical

  Where the paths of a disk lead by their text alone, before any link is followed.  Plain names
  lead down one by one, so a path that goes on with them from a folder stays below that folder
  (`leadsBelow_of_plain`).
-/
import Mathlib
import HashArchive.Disk.Access
import HashArchive.Proofs.Path.Plain

namespace HashArchive

namespace Folder

/-- A text that was joined with slashes falls apart into the parts it was joined of. -/
theorem parts_intercalate {list : List String} (h : ∀ part ∈ list, '/' ∉ part.toList)
    (hne : list ≠ []) : parts ("/".intercalate list) = list := by
  have hsplit : ("/".intercalate list).toList.splitOn '/' = list.map String.toList := by
    rw [String.toList_intercalate]
    refine List.splitOn_intercalate '/' ?_ (by simpa using hne)
    intro part hmem
    obtain ⟨text, htext, rfl⟩ := List.mem_map.mp hmem
    exact h text htext
  show (("/".intercalate list).toList.splitOn '/').map String.ofList = list
  rw [hsplit, List.map_map]
  exact List.map_id'' (fun text => String.ofList_toList) list

/-- Where one part of a path leads from a trail on. -/
def stepLexically (trail : Trail) (part : String) : Trail :=
  if stays part then trail else if part = ".." then trail.dropLast else trail ++ [part]

/-- Where a path leads from a trail on by its text alone. -/
def lexical (base : Trail) (path : List String) : Trail := path.foldl stepLexically base

/-- The path leads from where the target leads down by the names, wherever both start. -/
def LeadsBelow (target path : List String) (names : Trail) : Prop :=
  ∀ base, lexical base path = lexical base target ++ names

/-- Each plain name leads one folder down. -/
theorem lexical_of_plain {names : List String} (h : ∀ name ∈ names, Path.Plain name)
    (base : Trail) : lexical base names = base ++ names := by
  induction names generalizing base with
  | nil => exact (List.append_nil base).symm
  | cons name names ih =>
    obtain ⟨hempty, hdot, hdots, -⟩ := h name List.mem_cons_self
    have hstep : stepLexically base name = base ++ [name] := by
      rw [stepLexically, if_neg (by simp [stays, hempty, hdot]), if_neg hdots]
    rw [lexical, List.foldl_cons, hstep]
    exact (ih (fun other hmem => h other (List.mem_cons_of_mem _ hmem)) _).trans (by simp)

theorem lexical_append (base : Trail) (front back : List String) :
    lexical base (front ++ back) = lexical (lexical base front) back := List.foldl_append

/-- The slash that may end the first path leads nowhere. -/
theorem lexical_under (base : Trail) (target path : List String) :
    lexical base (under target path) = lexical (lexical base target) path := by
  rw [under]
  split
  · next hlast =>
    obtain ⟨front, rfl⟩ := List.getLast?_eq_some_iff.mp hlast
    rw [List.dropLast_concat, lexical_append, lexical_append base front [""]]
    rfl
  · rw [lexical_append]

theorem leadsBelow_of_plain {names : List String} (h : ∀ name ∈ names, Path.Plain name)
    (target : List String) : LeadsBelow target (under target names) names := by
  intro base
  rw [lexical_under, lexical_of_plain h]

/-- The steps on a disk by which files are written below a folder: the folders on a path are
    added, or a file is written, and the path leads below the folder. -/
inductive WritesBelow [DiskLimits] (target : List String) : Folder → Folder → Prop
  | ensure {disk : Folder} {path : List String} {names : Trail}
      (below : LeadsBelow target path names) : WritesBelow target disk (disk.ensureFolder path).1
  | write {disk : Folder} {path : List String} {names : Trail} {data : Bytes}
      (below : LeadsBelow target path names) (proper : names ≠ []) :
      WritesBelow target disk (disk.writeFile path data).1

end Folder

end HashArchive
