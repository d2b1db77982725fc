import CodeIndex.Proofs.Page.Clashes
import CodeIndex.Proofs.Page.Directory

/-!
# Where the lines of a page stand

Every line of a page stands in one of its files. The last file holds the end of the page: the whole
page if it is not cut, and otherwise the run of lines that was cut last, which is a single line or fits
into one part. So a line that is followed by more than fits is not in the last file.
-/

namespace CodeIndex

namespace Page

variable {limit : Nat} {ls run : List Text} {s : List (List Text) × Filling}
  {base content line : Text} {f : Text × Text}

/-- How many characters lines have with an end for each. -/
def linesSize : List Text → Nat
  | [] => 0
  | l :: ls => l.length + 1 + linesSize ls

theorem linesSize_cons (l : Text) (ls : List Text) :
    linesSize (l :: ls) = l.length + 1 + linesSize ls := rfl

theorem linesSize_append (as bs : List Text) :
    linesSize (as ++ bs) = linesSize as + linesSize bs := by
  induction as with
  | nil => simp [linesSize]
  | cons a as ih =>
    rw [List.cons_append, linesSize_cons, linesSize_cons, ih]
    omega

/-- The size of lines does not depend on their order. -/
theorem linesSize_perm {as bs : List Text} (h : as.Perm bs) : linesSize as = linesSize bs := by
  induction h with
  | nil => rfl
  | cons l _ ih => rw [linesSize_cons, linesSize_cons, ih]
  | swap l l' ls =>
    simp only [linesSize_cons]
    omega
  | trans _ _ ih ih' => exact ih.trans ih'

theorem linesSize_reverse (ls : List Text) : linesSize ls.reverse = linesSize ls :=
  linesSize_perm ls.reverse_perm

theorem linesSize_replicate (n : Nat) (l : Text) :
    linesSize (List.replicate n l) = n * (l.length + 1) := by
  induction n with
  | zero => simp [linesSize]
  | succ n ih => rw [List.replicate_succ, linesSize_cons, ih, Nat.succ_mul, Nat.add_comm]

theorem length_unlines (hne : ls ≠ []) : (Text.unlines ls).length + 1 = linesSize ls := by
  induction ls with
  | nil => exact absurd rfl hne
  | cons l ls ih =>
    cases ls with
    | nil => simp [Text.unlines, List.intercalate, linesSize]
    | cons l' ls =>
      have hrest := ih (List.cons_ne_nil l' ls)
      rw [Text.unlines_cons_cons, linesSize_cons, ← hrest, List.length_append, List.length_cons]
      omega

/-- A run of lines that may be a part: it does not go over the limit unless it is a single line. -/
def Fits (limit : Nat) (run : List Text) : Prop := run.length ≤ 1 ∨ linesSize run ≤ limit

theorem fits_reverse : Fits limit run.reverse ↔ Fits limit run := by
  rw [Fits, Fits, List.length_reverse, linesSize_reverse]

/-- What holds while parts are filled: all are runs that fit, and the size is kept. -/
structure Filled (limit : Nat) (s : List (List Text) × Filling) : Prop where
  full : ∀ run ∈ s.1, Fits limit run
  filling : Fits limit s.2.lines
  size : s.2.size = linesSize s.2.lines

theorem Filled.fillStep (h : Filled limit s) (line : Text) :
    Filled limit (fillStep limit s line) := by
  simp only [Page.fillStep]
  split
  · refine ⟨?_, ?_, ?_⟩
    · intro run hrun
      rcases List.mem_cons.1 hrun with rfl | hrun
      · exact fits_reverse.2 h.filling
      · exact h.full run hrun
    · exact .inl (Nat.le_refl 1)
    · rfl
  · next hcond =>
    have hsize : s.2.size + (line.length + 1) = linesSize (line :: s.2.lines) := by
      rw [linesSize_cons, h.size]
      omega
    refine ⟨h.full, ?_, hsize⟩
    by_cases hempty : s.2.lines = []
    · left
      simp [hempty]
    · right
      have hle : ¬limit < s.2.size + (line.length + 1) := by
        intro hlt
        apply hcond
        simp [hlt, hempty]
      rw [← hsize]
      omega

theorem Filled.foldl (h : Filled limit s) (ls : List Text) :
    Filled limit (ls.foldl (Page.fillStep limit) s) := by
  induction ls generalizing s with
  | nil => exact h
  | cons line ls ih => exact ih (h.fillStep line)

theorem fits_of_mem_cutLines (hrun : run ∈ cutLines limit ls) : Fits limit run := by
  have hfilled : Filled limit (ls.foldl (Page.fillStep limit) ([], ⟨[], 0⟩)) := by
    apply Filled.foldl
    exact ⟨by simp, .inl (Nat.zero_le 1), rfl⟩
  simp only [cutLines, List.mem_reverse] at hrun
  split at hrun
  · exact hfilled.full run hrun
  · rcases List.mem_cons.1 hrun with rfl | hrun
    · exact fits_reverse.2 hfilled.filling
    · exact hfilled.full run hrun

theorem notMem_newline_of_mem_cutLines (hrun : run ∈ cutLines limit (Text.lines content)) :
    ∀ l ∈ run, '\n' ∉ l := by
  intro l hl
  have hmem : l ∈ (cutLines limit (Text.lines content)).flatten := List.mem_flatten.2 ⟨run, hrun, hl⟩
  rw [flatten_cutLines] at hmem
  exact Text.notMem_of_mem_pieces hmem

/-- The text above a part from the second one on, without the line ends behind it. -/
def headingText (base : Text) (number : Nat) : Text :=
  "# ".toList ++ base ++ " (Part ".toList ++ partNumber number ++ ")".toList

/-- The lines that stand above a part. -/
def headingLines (base : Text) (number : Nat) : List Text :=
  if number ≤ 1 then [] else Text.lines (headingText base number) ++ [[]]

theorem notMem_headingText {c : Char} (hbase : c ∉ base) (hword : c ∉ "# (Part)".toList)
    (hdigit : c.isDigit = false) (number : Nat) : c ∉ headingText base number := by
  have hnumber : c ∉ partNumber number := by
    intro hc
    rw [isDigit_toDigits hc] at hdigit
    cases hdigit
  have hletters : "# ".toList ⊆ "# (Part)".toList ∧ " (Part ".toList ⊆ "# (Part)".toList ∧
      ")".toList ⊆ "# (Part)".toList := by decide
  unfold headingText
  simp only [List.mem_append, not_or]
  exact ⟨⟨⟨⟨fun hc => hword (hletters.1 hc), hbase⟩, fun hc => hword (hletters.2.1 hc)⟩, hnumber⟩,
    fun hc => hword (hletters.2.2 hc)⟩

/-- A part has the lines of its run below its heading. -/
theorem lines_part (hrun : run ∈ cutLines limit (Text.lines content)) (base : Text) (number : Nat) :
    Text.lines (partHeading base number ++ Text.unlines run) = headingLines base number ++ run := by
  have hlines : Text.lines (Text.unlines run) = run :=
    Text.lines_unlines_of_notMem (cutLines_nonempty _ _ run hrun)
      (notMem_newline_of_mem_cutLines hrun)
  unfold partHeading headingLines
  split
  · rw [List.nil_append, List.nil_append, hlines]
  · have htext : "# ".toList ++ base ++ " (Part ".toList ++ partNumber number ++ ")\n\n".toList ++
        Text.unlines run = headingText base number ++ '\n' :: '\n' :: Text.unlines run := by
      simp [headingText]
    rw [htext, Text.lines, Text.pieces_append, Text.pieces_cons_sep, ← Text.lines, ← Text.lines,
      hlines, List.append_assoc (Text.lines _)]
    rfl

/-- The lines of a page that its last file holds. -/
def lastLines (content : Text) : List Text :=
  if content.length ≤ maxChars then Text.lines content
  else (cutLines maxChars (Text.lines content)).getLast
    (cutLines_ne_nil (Text.pieces_ne_nil '\n' content))

theorem lines_last (base content : Text) :
    ∃ number, Text.lines ((pageFiles base content).getLast (pageFiles_ne_nil base content)).2 =
      headingLines base number ++ lastLines content := by
  by_cases h : content.length ≤ maxChars
  · refine ⟨1, ?_⟩
    simp [pageFiles, headingLines, lastLines, h]
  · refine ⟨(parts content).length - 1 + 1, ?_⟩
    have hcut : cutLines maxChars (Text.lines content) ≠ [] :=
      cutLines_ne_nil (Text.pieces_ne_nil '\n' content)
    rw [lastLines, if_neg h, ← lines_part (List.getLast_mem hcut)]
    simp [pageFiles, h, parts, List.getLast_eq_getElem]

/-- The last file of a page shows a line that is none of its heading exactly if the line is among the
last ones. -/
theorem mem_lines_last_iff (hline : ∀ number, line ∉ headingLines base number) :
    line ∈ Text.lines ((pageFiles base content).getLast (pageFiles_ne_nil base content)).2 ↔
      line ∈ lastLines content := by
  obtain ⟨number, hlines⟩ := lines_last base content
  rw [hlines, List.mem_append]
  exact or_iff_right (hline number)

theorem exists_file_of_mem_lines (hline : line ∈ Text.lines content) (base : Text) :
    ∃ f ∈ pageFiles base content, line ∈ Text.lines f.2 := by
  by_cases h : content.length ≤ maxChars
  · exact ⟨_, (mem_pageFiles_whole h).2 rfl, hline⟩
  · rw [← flatten_cutLines maxChars (Text.lines content)] at hline
    obtain ⟨run, hrun, hmem⟩ := List.mem_flatten.1 hline
    obtain ⟨i, hi, hget⟩ := List.getElem_of_mem hrun
    have hparts : i < (parts content).length := by
      rwa [parts, List.length_map]
    refine ⟨_, (mem_pageFiles_parts (by omega)).2 ⟨i, hparts, rfl⟩, ?_⟩
    have hpart : (parts content)[i] = Text.unlines run := by
      simp [parts, hget]
    rw [hpart, lines_part hrun]
    exact List.mem_append_right _ hmem

theorem lastLines_suffix (content : Text) : lastLines content <:+ Text.lines content := by
  unfold lastLines
  split
  · exact List.suffix_refl _
  · have hcut : cutLines maxChars (Text.lines content) ≠ [] :=
      cutLines_ne_nil (Text.pieces_ne_nil '\n' content)
    refine ⟨(cutLines maxChars (Text.lines content)).dropLast.flatten, ?_⟩
    have hsplit := congrArg List.flatten (List.dropLast_append_getLast hcut)
    rw [List.flatten_append, List.flatten_singleton, flatten_cutLines] at hsplit
    exact hsplit

theorem fits_lastLines (hcut : maxChars < content.length) : Fits maxChars (lastLines content) := by
  rw [lastLines, if_neg (by omega)]
  exact fits_of_mem_cutLines (List.getLast_mem _)

/-- A line that is followed by more than fits is not in the last file. -/
theorem notMem_lastLines {before behind : List Text} (hcut : maxChars < content.length)
    (hlines : Text.lines content = before ++ line :: behind) (honce : line ∉ behind)
    (hne : behind ≠ []) (hsize : maxChars < linesSize (line :: behind)) :
    line ∉ lastLines content := by
  intro hmem
  have hend : line :: behind <:+ Text.lines content := hlines ▸ List.suffix_append _ _
  -- the last lines reach back to the line, so they are all that follows it and more
  have hreach : line :: behind <:+ lastLines content := by
    rcases List.suffix_or_suffix_of_suffix hend (lastLines_suffix content) with hreach | hshort
    · exact hreach
    · rcases List.suffix_cons_iff.1 hshort with heq | hshort
      · exact heq ▸ List.suffix_refl _
      · exact absurd (hshort.subset hmem) honce
  obtain ⟨more, hmore⟩ := hreach
  have hlength : 2 ≤ (lastLines content).length := by
    have hpos := List.length_pos_iff.2 hne
    rw [← hmore, List.length_append, List.length_cons]
    omega
  have hgreater : maxChars < linesSize (lastLines content) := by
    rw [← hmore, linesSize_append]
    omega
  rcases fits_lastLines hcut with hone | hfits
  · omega
  · omega

/-- The line of a section that tells the path of its file. -/
def pathLine (shown : Path) : Text := "**Path**: ".toList ++ Outline.code shown.toText

section

variable {fs : FileSystem} {registry : Registry} {root p shown : Path} {dir : Text}
  {files : List Path}

theorem sectionOf_eq {language : Language} (hshown : p.relativeTo? root = some shown)
    (hlanguage : registry.languageOf? p = some language) :
    sectionOf fs registry root p = sectionLines fs language p shown := by
  rw [sectionOf, fileSection, hshown]
  simp only [hlanguage]
  rfl

theorem pathLine_mem_sectionOf (hshown : p.relativeTo? root = some shown)
    (hlanguage : (registry.languageOf? p).isSome) :
    pathLine shown ∈ sectionOf fs registry root p := by
  obtain ⟨language, hlanguage⟩ := Option.isSome_iff_exists.1 hlanguage
  rw [sectionOf_eq hshown hlanguage]
  exact List.mem_cons_of_mem _ List.mem_cons_self

/-- The page on a directory tells the paths of all its files. -/
theorem lines_pathLine_infix (hfiles : ∀ p ∈ files, (p.relativeTo? root).isSome) (hp : p ∈ files)
    (hshown : p.relativeTo? root = some shown) (hlanguage : (registry.languageOf? p).isSome) :
    Text.lines (pathLine shown) <:+: Text.lines (textOf fs registry root dir files) := by
  have hne : header dir ++ (sortFiles files).flatMap (sectionOf fs registry root) ≠ [] := by
    unfold header
    exact List.cons_ne_nil _ _
  rw [textOf_eq hfiles, Text.lines_unlines hne]
  apply List.infix_of_mem_flatten
  apply List.mem_map_of_mem
  apply List.mem_append_right
  exact List.mem_flatMap.2 ⟨p, mem_sortFiles.2 hp, pathLine_mem_sectionOf hshown hlanguage⟩

theorem newline_notMem_pathLine (h : '\n' ∉ shown.toText) : '\n' ∉ pathLine shown := by
  unfold pathLine Outline.code
  rw [List.mem_append, List.mem_append, List.mem_cons, not_or, not_or, not_or]
  exact ⟨by decide, ⟨by decide, h⟩, by decide⟩

/-- The heading of a part tells no path, since it has no slash and, on the root, begins otherwise. -/
theorem pathLine_notMem_headingLines (hslash : '/' ∉ base)
    (hshown : '/' ∈ shown.toText ∨ '\n' ∉ base) (number : Nat) :
    pathLine shown ∉ headingLines base number := by
  have hbegins : ['*'] <+: pathLine shown := List.prefix_iff_eq_append.2 rfl
  unfold headingLines
  split
  · exact List.not_mem_nil
  · intro hmem
    rcases List.mem_append.1 hmem with hmem | hmem
    · rcases hshown with hshown | hbase
      · have hin : '/' ∈ pathLine shown := by
          unfold pathLine Outline.code
          rw [List.mem_append, List.mem_append, List.mem_cons]
          exact .inr (.inl (.inr hshown))
        exact notMem_headingText hslash (by decide) (by decide) number
          (Text.mem_of_mem_pieces hmem hin)
      · rw [Text.lines, Text.pieces_of_notMem
          (notMem_headingText hbase (by decide) (by decide) number)] at hmem
        have hbegins' : ['#'] <+: headingText base number := List.prefix_iff_eq_append.2 rfl
        rw [List.mem_singleton.1 hmem] at hbegins
        have heq : ['*'] = ['#'] :=
          (List.prefix_of_prefix_length_le hbegins hbegins' (Nat.le_refl 1)).eq_of_length rfl
        exact absurd heq (by decide)
    · rw [List.mem_singleton.1 hmem] at hbegins
      exact absurd hbegins (by decide)

end

end Page

end CodeIndex
