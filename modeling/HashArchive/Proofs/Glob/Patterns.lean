/-
  HashArchive.Proofs.Glob.Patterns

  The compiled globs over any library that does what its documentation says of `*`, `?` and
  classes of one character (`PatternLibrary.Documented`).  The text that a glob is rewritten to
  is spelled by pieces of these kinds, no two of them `*` in a row; each character that is read
  adds a piece or none (`Escapes.step`), and what the pieces stand for stays what the glob
  stands for.  So no glob is refused and the filter decides as the globs say.
-/
import Mathlib
import HashArchive.Outcome
import HashArchive.Policy.Filter
import HashArchive.Proofs.Glob.Matching

namespace HashArchive

/-! ## Patterns as they are documented -/

/-- A piece of a pattern. -/
inductive Piece
  | star
  | question
  | plain (c : Char)
  /-- A class of one character. -/
  | within (c : Char)
deriving DecidableEq, Repr

namespace Piece

/-- The text of a piece. -/
def spell : Piece → List Char
  | star => ['*']
  | question => ['?']
  | plain c => [c]
  | within c => ['[', c, ']']

/-- Pieces whose text means them: brackets and wildcards are in classes only, and no class
    begins like one that is negated. -/
def Allowed : Piece → Prop
  | star => True
  | question => True
  | plain c => c ≠ '*' ∧ c ≠ '?' ∧ c ≠ '[' ∧ c ≠ ']'
  | within c => c ≠ '!'

/-- The parts of a name that a piece stands for. -/
def Covers : Piece → List Char → Prop
  | star, _ => True
  | question, part => part.length = 1
  | plain c, part => part = [c]
  | within c, part => part = [c]

end Piece

/-- Pieces that are allowed, with no two `*` in a row. -/
structure WellSpelled (pieces : List Piece) : Prop where
  allowed : ∀ piece ∈ pieces, piece.Allowed
  apart : pieces.IsChain fun piece next => ¬ (piece = .star ∧ next = .star)

/-- The text of several pieces. -/
def spelling (pieces : List Piece) : String := String.ofList (pieces.flatMap Piece.spell)

/-- What is documented of a library: it refuses only classes that are malformed and `*` in a row,
    and a pattern accepts the names that can be cut into parts for its pieces. -/
structure PatternLibrary.Documented (library : PatternLibrary) : Prop where
  accepted : ∀ pieces, WellSpelled pieces →
    ∃ pattern, library.compile (spelling pieces) = .ok pattern
  meaning : ∀ pieces pattern, WellSpelled pieces →
    library.compile (spelling pieces) = .ok pattern → ∀ name,
      library.accepts pattern name = true ↔
        ∃ parts, List.Forall₂ Piece.Covers pieces parts ∧ parts.flatten = name.toList

/-! ## What globs stand for -/

namespace Glob

/-- The parts of a name that a character stands for in a glob: `*` any part, `?` one character,
    and every other character itself. -/
def CharCovers (c : Char) (part : List Char) : Prop :=
  if c = '*' then True else if c = '?' then part.length = 1 else part = [c]

/-- A name that can be cut into parts for the characters of a glob. -/
def StandsFor (glob name : String) : Prop :=
  ∃ parts, List.Forall₂ CharCovers glob.toList parts ∧ parts.flatten = name.toList

end Glob

/-- The wildcard that a character of a glob is. -/
def Wildcard.ofChar (c : Char) : Wildcard :=
  if c = '*' then .any else if c = '?' then .one else .exactly c

theorem Wildcard.covers_ofChar (c : Char) : (ofChar c).Covers = Glob.CharCovers c := by
  funext part
  rw [ofChar, Glob.CharCovers]
  split_ifs <;> rfl

theorem Glob.ofString_eq_map (text : String) : ofString text = text.toList.map Wildcard.ofChar := by
  rw [ofString]
  refine List.map_congr_left fun c _ => ?_
  rw [Wildcard.ofChar]
  split
  · rfl
  · rfl
  · next hstar hone => rw [if_neg hstar, if_neg hone]

theorem Glob.standsFor_iff_matches {glob name : String} :
    StandsFor glob name ↔ Matches (ofString glob) name.toList := by
  rw [matches_iff_parts, ofString_eq_map, StandsFor]
  simp only [List.forall₂_map_left_iff, Wildcard.covers_ofChar]

namespace Piece

/-- The wildcard that a piece is. -/
def wildcard : Piece → Wildcard
  | star => .any
  | question => .one
  | plain c => .exactly c
  | within c => .exactly c

theorem covers_wildcard (piece : Piece) : piece.wildcard.Covers = piece.Covers := by
  cases piece <;> rfl

/-- The piece that a character of a glob is written as. -/
def ofChar (c : Char) : Piece :=
  if c = '*' then .star
  else if c = '?' then .question
  else if c = '[' ∨ c = ']' then .within c
  else .plain c

theorem wildcard_ofChar (c : Char) : (ofChar c).wildcard = Wildcard.ofChar c := by
  rw [ofChar, Wildcard.ofChar]
  split_ifs <;> rfl

theorem allowed_ofChar (c : Char) : (ofChar c).Allowed := by
  rw [ofChar]
  split_ifs with hstar hquestion hbracket
  · trivial
  · trivial
  · rintro rfl
    exact absurd hbracket (by decide)
  · rw [not_or] at hbracket
    exact ⟨hstar, hquestion, hbracket⟩

theorem ofChar_eq_star_iff {c : Char} : ofChar c = .star ↔ c = '*' := by
  rw [ofChar]
  split_ifs with hstar <;> simp [hstar]

/-- A piece ends in `*` only if it is one. -/
theorem getLast?_spell {piece : Piece} (h : piece.Allowed) :
    piece.spell.getLast? = some '*' ↔ piece = .star := by
  cases piece with
  | star => exact iff_of_true rfl rfl
  | question => exact iff_of_false (by decide) (by decide)
  | plain c => simpa [spell] using h.1
  | within c => simp [spell]

end Piece

/-- A name can be cut into parts for pieces if the wildcards that they are stand for it. -/
theorem exists_parts_iff_matches {pieces : List Piece} {name : List Char} :
    (∃ parts, List.Forall₂ Piece.Covers pieces parts ∧ parts.flatten = name) ↔
      Glob.Matches (pieces.map Piece.wildcard) name := by
  rw [Glob.matches_iff_parts]
  simp only [List.forall₂_map_left_iff, Piece.covers_wildcard]

/-! ## A library that does what is documented -/

/-- Reads the pieces of a pattern, where no class has more than one character and no `*` stands
    behind another one. -/
def Piece.parse : List Char → Except String (List Piece)
  | [] => .ok []
  | '*' :: rest =>
    if rest.head? = some '*' then .error "wildcards in a row"
    else (parse rest).map (star :: ·)
  | '?' :: rest => (parse rest).map (question :: ·)
  | '[' :: c :: ']' :: rest =>
    if c = '!' then .error "invalid range pattern" else (parse rest).map (within c :: ·)
  | '[' :: _ => .error "invalid range pattern"
  | c :: rest => (parse rest).map (plain c :: ·)

/-- Patterns kept as the pieces that they are read to. -/
def PatternLibrary.ofPieces : PatternLibrary where
  Pattern := List Piece
  Fault := String
  message := id
  compile text := Piece.parse text.toList
  accepts pieces name := Glob.matches? (pieces.map Piece.wildcard) name

theorem Piece.parse_plain {c : Char} (h : (plain c).Allowed) (rest : List Char) :
    parse (c :: rest) = (parse rest).map (plain c :: ·) := by
  obtain ⟨hstar, hquestion, hopen, -⟩ := h
  rw [parse]
  all_goals simp_all

/-- What is written behind a `*` begins with something else. -/
theorem WellSpelled.head?_ne {pieces : List Piece} (h : WellSpelled (.star :: pieces)) :
    (pieces.flatMap Piece.spell).head? ≠ some '*' := by
  cases pieces with
  | nil => simp
  | cons next pieces =>
    have hallowed := h.allowed next (by simp)
    have hapart : ¬ next = .star := fun hstar =>
      (List.isChain_cons_cons.mp h.apart).1 ⟨rfl, hstar⟩
    cases next with
    | star => exact absurd rfl hapart
    | question => simp [Piece.spell]
    | plain c => simpa [Piece.spell] using hallowed.1
    | within c => simp [Piece.spell]

theorem WellSpelled.parse_eq {pieces : List Piece} (h : WellSpelled pieces) :
    Piece.parse (pieces.flatMap Piece.spell) = .ok pieces := by
  induction pieces with
  | nil => rfl
  | cons piece pieces ih =>
    have hrest : Piece.parse (pieces.flatMap Piece.spell) = .ok pieces :=
      ih ⟨fun other hmem => h.allowed other (List.mem_cons_of_mem _ hmem), h.apart.tail⟩
    have hallowed := h.allowed piece List.mem_cons_self
    rw [List.flatMap_cons]
    cases piece with
    | star =>
      rw [Piece.spell, List.singleton_append, Piece.parse, if_neg h.head?_ne, hrest]
      rfl
    | question =>
      rw [Piece.spell, List.singleton_append, Piece.parse, hrest]
      rfl
    | plain c =>
      rw [Piece.spell, List.singleton_append, Piece.parse_plain hallowed, hrest]
      rfl
    | within c =>
      have hclass : Piece.parse ('[' :: c :: ']' :: pieces.flatMap Piece.spell)
          = (Piece.parse (pieces.flatMap Piece.spell)).map (.within c :: ·) := by
        rw [Piece.parse, if_neg hallowed]
      rw [hrest] at hclass
      exact hclass

/-- So there are libraries as they are documented. -/
theorem PatternLibrary.documented_ofPieces : ofPieces.Documented := by
  have hcompile : ∀ pieces, WellSpelled pieces →
      ofPieces.compile (spelling pieces) = .ok pieces := by
    intro pieces h
    have hread : (spelling pieces).toList = pieces.flatMap Piece.spell := String.toList_ofList
    exact (congrArg Piece.parse hread).trans h.parse_eq
  refine ⟨fun pieces h => ⟨pieces, hcompile pieces h⟩, fun pieces pattern h hpattern name => ?_⟩
  obtain rfl : pieces = pattern := Except.ok.inj ((hcompile pieces h).symm.trans hpattern)
  rw [exists_parts_iff_matches]
  exact Glob.matches?_eq_true_iff

/-! ## The rewriting of globs -/

/-- What has been written of a glob so far is spelled by pieces that stand for what has been read,
    whatever comes behind. -/
structure Escapes (read written : List Char) (pieces : List Piece) : Prop where
  written_eq : written = pieces.flatMap Piece.spell
  wellSpelled : WellSpelled pieces
  same : ∀ rest name, Glob.Matches (pieces.map Piece.wildcard ++ rest) name ↔
    Glob.Matches (read.map Wildcard.ofChar ++ rest) name

namespace Escapes

open Glob

variable {read written : List Char} {pieces : List Piece} {c : Char}

/-- The text ends in `*` exactly if its last piece is one. -/
theorem getLast?_written (h : Escapes read written pieces) :
    written.getLast? = some '*' ↔ pieces.getLast? = some .star := by
  rw [h.written_eq]
  rcases List.eq_nil_or_concat' pieces with rfl | ⟨front, last, rfl⟩
  · exact iff_of_false (by simp) (by simp)
  · have hlast := h.wellSpelled.allowed last (by simp)
    have hne : last.spell ≠ [] := by cases last <;> simp [Piece.spell]
    rw [List.flatMap_append, List.flatMap_singleton, List.getLast?_append_of_ne_nil _ hne,
      Piece.getLast?_spell hlast, List.getLast?_concat, Option.some.injEq]

/-- A `*` behind another one is not written, and nothing is lost. -/
theorem repeated (h : Escapes read written pieces) (hlast : written.getLast? = some '*') :
    Escapes (read ++ ['*']) written pieces := by
  refine ⟨h.written_eq, h.wellSpelled, fun rest name => ?_⟩
  -- The last piece is a `*`, and what is read makes two in a row.
  obtain ⟨front, rfl⟩ := List.getLast?_eq_some_iff.mp (h.getLast?_written.mp hlast)
  have htwo : ∀ name, Matches (.any :: .any :: rest) name ↔ Matches (.any :: rest) name :=
    fun name => matches_any_any_iff
  have hcollapse := matches_append_congr (front.map Piece.wildcard) htwo name
  have hread := h.same (.any :: rest) name
  rw [List.map_append, List.append_assoc] at hread ⊢
  rw [List.map_append, List.append_assoc]
  exact hcollapse.symm.trans hread

/-- Every other character is written as a piece of its own. -/
theorem added (h : Escapes read written pieces)
    (hapart : ¬ (c = '*' ∧ written.getLast? = some '*')) :
    Escapes (read ++ [c]) (written ++ (Piece.ofChar c).spell) (pieces ++ [Piece.ofChar c]) := by
  refine ⟨?_, ⟨?_, ?_⟩, fun rest name => ?_⟩
  · rw [h.written_eq, List.flatMap_append, List.flatMap_singleton]
  · intro piece hmem
    rcases List.mem_append.mp hmem with hmem | hmem
    · exact h.wellSpelled.allowed piece hmem
    · rw [List.mem_singleton.mp hmem]
      exact Piece.allowed_ofChar c
  -- Only the piece that was last so far meets the new one.
  · refine h.wellSpelled.apart.append (List.isChain_singleton _) ?_
    rintro last hlast next hnext ⟨rfl, hstar⟩
    obtain rfl : Piece.ofChar c = next := by simpa using hnext
    exact hapart ⟨Piece.ofChar_eq_star_iff.mp hstar, h.getLast?_written.mpr hlast⟩
  · rw [List.map_append, List.map_append, List.append_assoc, List.append_assoc,
      List.map_singleton, List.map_singleton, Piece.wildcard_ofChar]
    exact h.same (Wildcard.ofChar c :: rest) name

theorem escapeChar_eq (hapart : ¬ (c = '*' ∧ written.getLast? = some '*')) :
    escapeChar written c = written ++ (Piece.ofChar c).spell := by
  rw [escapeChar, Piece.ofChar]
  split_ifs <;> simp_all [Piece.spell]

/-- Each character that is read is written, unless it is a `*` behind another one. -/
theorem step (h : Escapes read written pieces) (c : Char) :
    ∃ more, Escapes (read ++ [c]) (escapeChar written c) more := by
  by_cases hrepeated : c = '*' ∧ written.getLast? = some '*'
  · obtain ⟨rfl, hlast⟩ := hrepeated
    refine ⟨pieces, ?_⟩
    rw [escapeChar, if_neg (by decide), if_neg (by decide), if_pos ⟨rfl, hlast⟩]
    exact h.repeated hlast
  · rw [escapeChar_eq hrepeated]
    exact ⟨_, h.added hrepeated⟩

/-- Every glob is rewritten to a text that is spelled by pieces. -/
theorem exists_foldl (chars : List Char) :
    ∃ pieces, Escapes chars (chars.foldl escapeChar []) pieces := by
  -- The loop reads from the front, so its last round is taken off.
  induction chars using List.reverseRecOn with
  | nil =>
    have hempty : WellSpelled [] := ⟨fun piece hmem => absurd hmem List.not_mem_nil, .nil⟩
    exact ⟨[], rfl, hempty, fun rest name => Iff.rfl⟩
  | append_singleton chars c ih =>
    obtain ⟨pieces, h⟩ := ih
    rw [List.foldl_append]
    exact h.step c

end Escapes

/-! ## The main statement -/

section Main

variable {library : PatternLibrary}

/-- A glob is compiled to a pattern that accepts what the glob stands for. -/
theorem exists_pattern (h : library.Documented) (glob : String) :
    ∃ pattern, library.compile (Glob.escape glob) = .ok pattern ∧ ∀ name,
      library.accepts pattern name = true ↔ Glob.Matches (Glob.ofString glob) name.toList := by
  obtain ⟨pieces, hescapes⟩ := Escapes.exists_foldl glob.toList
  have hescape : Glob.escape glob = spelling pieces := by
    rw [Glob.escape, hescapes.written_eq, spelling]
  rw [hescape]
  obtain ⟨pattern, hpattern⟩ := h.accepted pieces hescapes.wellSpelled
  refine ⟨pattern, hpattern, fun name => ?_⟩
  have hsame := hescapes.same [] name.toList
  rw [List.append_nil, List.append_nil, ← Glob.ofString_eq_map] at hsame
  rw [h.meaning pieces pattern hescapes.wellSpelled hpattern, exists_parts_iff_matches, hsame]

/-- No glob of the settings is refused.  The compiled filter picks a name exactly if one of the
    globs stands for it, where only `*` and `?` stand for anything but themselves, and it picks
    the names that the settings do without a library. -/
theorem compiled_globs_mean_star_and_question (h : library.Documented) (policy : Policy) :
    ∃ filter, policy.compile library = .ok filter ∧ ∀ name,
      (filter.compresses name = true ↔
        ∃ glob ∈ policy.compressGlobs, Glob.StandsFor glob name) ∧
      filter.compresses name = policy.compresses name := by
  choose pattern hcompile hpattern using exists_pattern h
  have hall : policy.compressGlobs.mapM (fun glob =>
      (library.compile (Glob.escape glob)).mapError (BadGlob.mk glob))
      = .ok (policy.compressGlobs.map pattern) := by
    refine Outcome.mapM_eq_ok fun glob _ => ?_
    rw [hcompile glob]
    rfl
  refine ⟨⟨policy.compressGlobs.map pattern⟩, ?_, fun name => ?_⟩
  · rw [Policy.compile, hall]
    rfl
  · have hname : ∀ glob, library.accepts (pattern glob) name = (Glob.ofString glob).matches? name :=
      fun glob => Bool.eq_iff_iff.mpr
        ((hpattern glob name).trans Glob.matches?_eq_true_iff.symm)
    have hfilter : (⟨policy.compressGlobs.map pattern⟩ : Filter library).compresses name
        = policy.compresses name := by
      rw [Filter.compresses, List.any_map, Policy.compresses]
      exact congrArg policy.compressGlobs.any (funext hname)
    refine ⟨?_, hfilter⟩
    rw [hfilter, Policy.compresses, List.any_eq_true]
    simp only [Glob.standsFor_iff_matches, Glob.matches?_eq_true_iff]

end Main

/-- Globs with stars in a row, brackets, and characters that mean something in classes only. -/
def mixedGlobs : List String := ["a**.b", "**[x]**", "?-[!]"]

theorem compiled_globs_mean_star_and_question_mixed :
    PatternLibrary.ofPieces.Documented ∧
    mixedGlobs.map Glob.escape = ["a*.b", "*[[]x[]]*", "?-[[]![]]"] ∧
    ∃ filter, ({ compressGlobs := mixedGlobs } : Policy).compile .ofPieces = .ok filter ∧
      (∃ glob ∈ mixedGlobs, Glob.StandsFor glob "a/.x.b") ∧
      filter.compresses "a/.x.b" = true ∧ filter.compresses "A.b" = false ∧
      filter.compresses "<[x]" = true ∧ filter.compresses "x" = false ∧
      filter.compresses "0-[!]" = true ∧ filter.compresses "0-x" = false := by
  have hlibrary := PatternLibrary.documented_ofPieces
  obtain ⟨filter, hcompile, hfilter⟩ :=
    compiled_globs_mean_star_and_question hlibrary { compressGlobs := mixedGlobs }
  have hname : filter.compresses "a/.x.b" = true := by
    rw [(hfilter "a/.x.b").2]
    decide +kernel
  refine ⟨hlibrary, by decide +kernel, filter, hcompile, (hfilter "a/.x.b").1.mp hname, hname,
    ?_, ?_, ?_, ?_, ?_⟩
  all_goals
    rw [(hfilter _).2]
    decide +kernel

end HashArchive
