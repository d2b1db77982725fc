import CodeIndex.Proofs.Text.Search
import CodeIndex.Proofs.Python.Header

/-!
# Imports of Python files

A statement names a module behind the word `import`, or a package behind the word `from`. Both are searched
for in the whole file, and white space that is read may hold line ends. In a file where each line that begins
like a statement is one, no finding reaches into the line below. Then the imports are exactly the first names
of the statements that are not relative.
-/

namespace CodeIndex.Python

open Reader (FoundOn blanks1_of_isGap keyed word_of_isWord)
open Text (IsGap IsWord)

variable {α : Type} {key line t gap gap' name first rest : Text} {parts : List Text}

/-- A line that begins with a key and then ends or goes on with white space. -/
def Begins (key line : Text) : Prop := ∃ rest, line = key ++ rest ∧ ∀ c ∈ rest.head?, Text.isBlank c = true

instance (key line : Text) : Decidable (Begins key line) :=
  decidable_of_iff (key <+: line ∧ (line.drop key.length).head?.all Text.isBlank = true) <| by
    constructor
    · rintro ⟨⟨rest, rfl⟩, hrest⟩
      rw [List.drop_left, Option.all_eq_true] at hrest
      exact ⟨rest, rfl, hrest⟩
    · rintro ⟨rest, rfl, hrest⟩
      rw [List.drop_left, Option.all_eq_true]
      exact ⟨List.prefix_append key rest, hrest⟩

/-- A line with a complete import statement, and the first name of what it imports, which a relative one
does not have. -/
inductive ImportStatement : Text → Option Text → Prop where
  | plain (gap name rest : Text) (blank : IsGap gap) (word : IsWord name)
      (word_end : ∀ c ∈ rest.head?, Text.isWord c = false) :
      ImportStatement ("import".toList ++ (gap ++ (name ++ rest))) (some name)
  | package (gap first : Text) (parts : List Text) (gap' rest : Text) (blank : IsGap gap)
      (word : IsWord first) (words : ∀ part ∈ parts, IsWord part) (blank' : IsGap gap') :
      ImportStatement
        ("from".toList ++ (gap ++ (first ++ (parts.flatMap ('.' :: ·) ++
          (gap' ++ ("import".toList ++ rest)))))) (some first)
  | relative (gap rest : Text) (blank : IsGap gap) :
      ImportStatement ("from".toList ++ (gap ++ '.' :: rest)) none

/-! ### What the readers of imports take -/

theorem isBlank_head_of_blanks1 {f : Text → Reader α} {a : α}
    (h : (Reader.blanks1 >>= f).parse t = some (a, rest)) : ∃ c ∈ t.head?, Text.isBlank c = true := by
  rw [Reader.bind_eq_some_iff] at h
  obtain ⟨gap, mid, hgap, -⟩ := h
  obtain ⟨hne, rfl, hblank, -⟩ := Reader.many1_eq_some_iff.1 hgap
  obtain ⟨c, gap, rfl⟩ := List.exists_cons_of_ne_nil hne
  exact ⟨c, rfl, hblank c List.mem_cons_self⟩

/-- Nothing is found on a line that does not begin with the key, not even with the white space that
follows the line. -/
theorem foundOn_none_of_not_begins {f : Text → Reader α} (hkey : '\n' ∉ key) (h : ¬Begins key line) :
    FoundOn (keyed key (Reader.blanks1 >>= f)) line none := by
  intro behind hbehind
  refine Option.eq_none_iff_forall_ne_some.2 ?_
  rintro ⟨a, rest⟩ hread
  rw [keyed, Reader.bind_eq_some_iff] at hread
  obtain ⟨_, mid, hliteral, hbody⟩ := hread
  obtain ⟨c, hc, hblank⟩ := isBlank_head_of_blanks1 hbody
  rcases List.append_eq_append_iff.1 (Reader.literal_eq_some_iff.1 hliteral) with
    ⟨tail, rfl, rfl⟩ | ⟨tail, rfl, rfl⟩
  · cases tail with
    | nil =>
      refine h ⟨[], by simp, ?_⟩
      rintro c ⟨⟩
    | cons d tail =>
      obtain rfl := hbehind d rfl
      exact hkey (by simp)
  · refine h ⟨tail, rfl, fun d hd => ?_⟩
    cases tail with
    | nil => cases hd
    | cons e tail =>
      cases hc
      cases hd
      exact hblank

theorem importedModule_of_isWord (hgap : IsGap gap) (hname : IsWord name)
    (hrest : ∀ c ∈ rest.head?, Text.isWord c = false) :
    importedModule.parse (gap ++ (name ++ rest)) = some (name, rest) := by
  rw [importedModule, Reader.bind_of_eq_some (blanks1_of_isGap hgap (hname.isBlank_head rest))]
  exact word_of_isWord hname hrest

/-- The reader of dotted names goes on to the white space behind the last name. -/
theorem dottedPath_of_isWord (hparts : ∀ part ∈ parts, IsWord part)
    (hrest : ∀ c ∈ rest.head?, Text.isBlank c = true) :
    (Reader.many fun c => c == '.' || Text.isWord c).parse (parts.flatMap ('.' :: ·) ++ rest) =
      some (parts.flatMap ('.' :: ·), rest) := by
  refine Reader.many_eq_some_iff.2 ⟨rfl, fun c hc => ?_, fun c hc => ?_⟩
  · obtain ⟨part, hpart, hc⟩ := List.mem_flatMap.1 hc
    rcases List.mem_cons.1 hc with rfl | hc
    · rfl
    · rw [(hparts part hpart).2 c hc, Bool.or_true]
  · have hblank := hrest c hc
    have hdot : c ≠ '.' := by
      rintro rfl
      exact absurd hblank (by decide)
    rw [Text.isWord_of_isBlank hblank, Bool.or_false, beq_eq_false_iff_ne]
    exact hdot

theorem importedPackage_of_isWord (hgap : IsGap gap) (hfirst : IsWord first)
    (hparts : ∀ part ∈ parts, IsWord part) (hgap' : IsGap gap') (rest : Text) :
    importedPackage.parse
        (gap ++ (first ++ (parts.flatMap ('.' :: ·) ++ (gap' ++ ("import".toList ++ rest))))) =
      some (first, rest) := by
  have hend : ∀ c ∈ (gap' ++ ("import".toList ++ rest)).head?, Text.isBlank c = true := by
    obtain ⟨d, gap', rfl⟩ := List.exists_cons_of_ne_nil hgap'.1
    rintro c ⟨⟩
    exact hgap'.2 _ List.mem_cons_self
  have hfirst_end : ∀ c ∈ (parts.flatMap ('.' :: ·) ++ (gap' ++ ("import".toList ++ rest))).head?,
      Text.isWord c = false := by
    cases parts with
    | nil => exact fun c hc => Text.isWord_of_isBlank (hend c hc)
    | cons part parts =>
      rintro c ⟨⟩
      decide
  have hpieces : ((Text.pieces '.' (parts.flatMap ('.' :: ·))).drop 1).any (·.isEmpty) = false := by
    have hdots : ∀ part ∈ parts, '.' ∉ part := fun part hpart hmem =>
      absurd ((hparts part hpart).2 '.' hmem) (by decide)
    have hcut := Text.pieces_append_flatMap (t := []) List.not_mem_nil hdots
    rw [List.nil_append] at hcut
    rw [hcut, List.drop_one, List.tail_cons, List.any_eq_false]
    intro part hpart
    simpa using (hparts part hpart).1
  rw [importedPackage, Reader.bind_of_eq_some (blanks1_of_isGap hgap (hfirst.isBlank_head _)),
    Reader.bind_of_eq_some (word_of_isWord hfirst hfirst_end),
    Reader.bind_of_eq_some (dottedPath_of_isWord hparts hend), hpieces, if_neg Bool.false_ne_true,
    Reader.bind_of_eq_some (blanks1_of_isGap hgap' (by rintro c ⟨⟩; decide)),
    Reader.bind_of_eq_some (a := ()) (Reader.literal_eq_some_iff.2 rfl)]
  rfl

theorem importedPackage_relative (hgap : IsGap gap) (rest : Text) :
    importedPackage.parse (gap ++ '.' :: rest) = none := by
  rw [importedPackage, Reader.bind_of_eq_some (blanks1_of_isGap hgap (by rintro c ⟨⟩; decide))]
  rfl

/-! ### What a line imports -/

abbrev moduleStatement : Reader Text := keyed "import".toList importedModule

abbrev packageStatement : Reader Text := keyed "from".toList importedPackage

theorem moduleStatement_none (h : ¬Begins "import".toList line) : FoundOn moduleStatement line none :=
  foundOn_none_of_not_begins (by decide) h

theorem packageStatement_none (h : ¬Begins "from".toList line) : FoundOn packageStatement line none :=
  foundOn_none_of_not_begins (by decide) h

theorem not_begins_of_head {k c : Char} {ks cs : Text} (h : k ≠ c) : ¬Begins (k :: ks) (c :: cs) := by
  rintro ⟨rest, heq, -⟩
  exact h (List.cons.inj heq).1.symm

/-- A statement is found by one of the two searches, and the other passes its line by. -/
theorem ImportStatement.foundOn {imported : Option Text} (h : ImportStatement line imported)
    (hline : '\n' ∉ line) :
    FoundOn moduleStatement line imported ∧ FoundOn packageStatement line none ∨
      FoundOn moduleStatement line none ∧ FoundOn packageStatement line imported := by
  cases h with
  | plain gap name rest blank word word_end =>
    refine .inl ⟨⟨rest, fun hmem => hline (by simp [hmem]), fun behind hbehind => ?_⟩,
      packageStatement_none (not_begins_of_head (by decide))⟩
    have hend : ∀ c ∈ (rest ++ behind).head?, Text.isWord c = false := by
      intro c hc
      cases rest with
      | nil =>
        rw [hbehind c hc]
        decide
      | cons d rest => exact word_end c hc
    rw [List.append_assoc, Reader.keyed_append, List.append_assoc, List.append_assoc]
    exact importedModule_of_isWord blank word hend
  | package gap first parts gap' rest blank word words blank' =>
    refine .inr ⟨moduleStatement_none (not_begins_of_head (by decide)),
      rest, fun hmem => hline (by simp [hmem]), fun behind _ => ?_⟩
    simp only [List.append_assoc, Reader.keyed_append]
    exact importedPackage_of_isWord blank word words blank' (rest ++ behind)
  | relative gap rest blank =>
    refine .inr ⟨moduleStatement_none (not_begins_of_head (by decide)), fun behind _ => ?_⟩
    rw [List.append_assoc, Reader.keyed_append, List.append_assoc, List.cons_append]
    exact importedPackage_relative blank (rest ++ behind)

/-- A line that begins like an import statement is one. -/
def IsComplete (line : Text) : Prop :=
  Begins "import".toList line ∨ Begins "from".toList line → ∃ imported, ImportStatement line imported

theorem IsComplete.exists_foundOn (h : IsComplete line) (hline : '\n' ∉ line) :
    (∃ found, FoundOn moduleStatement line found) ∧ ∃ found, FoundOn packageStatement line found := by
  by_cases hbegins : Begins "import".toList line ∨ Begins "from".toList line
  · obtain ⟨imported, hstatement⟩ := h hbegins
    rcases hstatement.foundOn hline with ⟨hmodule, hpackage⟩ | ⟨hmodule, hpackage⟩
    · exact ⟨⟨_, hmodule⟩, _, hpackage⟩
    · exact ⟨⟨_, hmodule⟩, _, hpackage⟩
  · obtain ⟨hmodule, hpackage⟩ := not_or.1 hbegins
    exact ⟨⟨_, moduleStatement_none hmodule⟩, _, packageStatement_none hpackage⟩

/-- On a complete line the two searches find the statement and nothing else. -/
theorem IsComplete.foundOn_iff (h : IsComplete line) (hline : '\n' ∉ line) :
    FoundOn moduleStatement line (some name) ∨ FoundOn packageStatement line (some name) ↔
      ImportStatement line (some name) := by
  constructor
  · intro hfound
    have hbegins : Begins "import".toList line ∨ Begins "from".toList line := by
      refine Decidable.byContradiction fun hneither => ?_
      obtain ⟨hmodule, hpackage⟩ := not_or.1 hneither
      rcases hfound with hfound | hfound
      · cases hfound.unique (moduleStatement_none hmodule)
      · cases hfound.unique (packageStatement_none hpackage)
    obtain ⟨imported, hstatement⟩ := h hbegins
    rcases hstatement.foundOn hline with ⟨hmodule, hpackage⟩ | ⟨hmodule, hpackage⟩
    · rcases hfound with hfound | hfound
      · rwa [hfound.unique hmodule]
      · cases hfound.unique hpackage
    · rcases hfound with hfound | hfound
      · cases hfound.unique hmodule
      · rwa [hfound.unique hpackage]
  · intro hstatement
    rcases hstatement.foundOn hline with ⟨hmodule, -⟩ | ⟨-, hpackage⟩
    · exact .inl hmodule
    · exact .inr hpackage

/-- The imports of a file whose import statements are complete on their lines are the first names of those
that are not relative, each once and in increasing order, whatever the other lines are. -/
theorem imports_exact (content : Text) (h : ∀ line ∈ Text.lines content, IsComplete line) :
    (imports content).Pairwise (· < ·) ∧
      ∀ name, name ∈ imports content ↔ ∃ line ∈ Text.lines content, ImportStatement line (some name) := by
  refine ⟨(TextOrder.byCode.pairwise_sort _).imp of_decide_eq_true, fun name => ?_⟩
  have hline : ∀ line ∈ Text.lines content, '\n' ∉ line := fun line => Text.notMem_of_mem_pieces
  rw [imports, Text.sortedSet, TextOrder.mem_sort, List.mem_append,
    Reader.mem_findAllAtLineStart_iff (by decide) fun line hmem =>
      ((h line hmem).exists_foundOn (hline line hmem)).1,
    Reader.mem_findAllAtLineStart_iff (by decide) fun line hmem =>
      ((h line hmem).exists_foundOn (hline line hmem)).2]
  constructor
  · rintro (⟨line, hmem, hfound⟩ | ⟨line, hmem, hfound⟩)
    · exact ⟨line, hmem, ((h line hmem).foundOn_iff (hline line hmem)).1 (.inl hfound)⟩
    · exact ⟨line, hmem, ((h line hmem).foundOn_iff (hline line hmem)).1 (.inr hfound)⟩
  · rintro ⟨line, hmem, hstatement⟩
    rcases ((h line hmem).foundOn_iff (hline line hmem)).2 hstatement with hfound | hfound
    · exact .inl ⟨line, hmem, hfound⟩
    · exact .inr ⟨line, hmem, hfound⟩

/-- A plain, a dotted and a relative import, and lines that only look like imports. -/
def tangledImports : List Text :=
  ["import os.path as path", "from collections.abc import Mapping", "from .. import above",
    "important = 'from x import y'", "    import indented", "import\tétude, sys"].map String.toList

theorem tabbedImport_statement : ImportStatement "import\tétude, sys".toList (some "étude".toList) := by
  have hline : "import\tétude, sys".toList =
      "import".toList ++ (['\t'] ++ ("étude".toList ++ ", sys".toList)) := by decide
  rw [hline]
  exact .plain _ _ _ (by decide) (by decide) (by rintro c ⟨⟩; decide)

theorem isComplete_of_mem_tangledImports : ∀ line ∈ tangledImports, IsComplete line := by
  have hos : ImportStatement "import os.path as path".toList (some "os".toList) := by
    have hline : "import os.path as path".toList =
        "import".toList ++ ([' '] ++ ("os".toList ++ ".path as path".toList)) := by decide
    rw [hline]
    exact .plain _ _ _ (by decide) (by decide) (by rintro c ⟨⟩; decide)
  have hcollections : ImportStatement "from collections.abc import Mapping".toList
      (some "collections".toList) := by
    have hline : "from collections.abc import Mapping".toList =
        "from".toList ++ ([' '] ++ ("collections".toList ++ (["abc".toList].flatMap ('.' :: ·) ++
          ([' '] ++ ("import".toList ++ " Mapping".toList))))) := by decide
    rw [hline]
    exact .package _ _ _ _ _ (by decide) (by decide) (List.forall_mem_singleton.2 (by decide)) (by decide)
  have habove : ImportStatement "from .. import above".toList none := by
    have hline : "from .. import above".toList =
        "from".toList ++ ([' '] ++ '.' :: ". import above".toList) := by decide
    rw [hline]
    exact .relative _ _ (by decide)
  have hother : ∀ line, ¬(Begins "import".toList line ∨ Begins "from".toList line) → IsComplete line :=
    fun line hneither hbegins => absurd hbegins hneither
  simp only [tangledImports, List.map_cons, List.map_nil, List.forall_mem_cons]
  exact ⟨fun _ => ⟨_, hos⟩, fun _ => ⟨_, hcollections⟩, fun _ => ⟨_, habove⟩, hother _ (by decide),
    hother _ (by decide), fun _ => ⟨_, tabbedImport_statement⟩, nofun⟩

theorem tangledImports_imports :
    (∀ line ∈ Text.lines (Text.unlines tangledImports), IsComplete line) ∧
      (imports (Text.unlines tangledImports)).Pairwise (· < ·) ∧
      "étude".toList ∈ imports (Text.unlines tangledImports) := by
  have hlines : Text.lines (Text.unlines tangledImports) = tangledImports := by decide +kernel
  have hcomplete : ∀ line ∈ Text.lines (Text.unlines tangledImports), IsComplete line := by
    rw [hlines]
    exact isComplete_of_mem_tangledImports
  obtain ⟨hsorted, hexact⟩ := imports_exact (Text.unlines tangledImports) hcomplete
  refine ⟨hcomplete, hsorted, (hexact _).2 ⟨"import\tétude, sys".toList, ?_, tabbedImport_statement⟩⟩
  rw [hlines]
  decide +kernel

end CodeIndex.Python
