import CodeIndex.Proofs.Page.Size
import Mathlib.Data.List.Chain

/-!
# As few parts as possible

The runs of lines that a long page is cut into are filled one after the other: each goes on until the
next line would not fit. However else its lines are cut into runs that fit, there are no fewer of them.
-/

namespace CodeIndex.Page

variable {limit : Nat} {ls run : List Text} {runs cut : List (List Text)}
  {s : List (List Text) × Filling} {base content line : Text}

theorem linesSize_sublist {as bs : List Text} (h : as.Sublist bs) : linesSize as ≤ linesSize bs := by
  induction h with
  | slnil => exact Nat.le_refl 0
  | cons l _ ih =>
    rw [linesSize_cons]
    omega
  | cons_cons l _ ih =>
    rw [linesSize_cons, linesSize_cons]
    omega

/-- What is part of a run that fits does fit. -/
theorem Fits.of_isInfix {whole : List Text} (h : Fits limit whole) (hrun : run <:+: whole) :
    Fits limit run := by
  rcases h with hone | hsize
  · exact .inl (hrun.length_le.trans hone)
  · exact .inr ((linesSize_sublist hrun.sublist).trans hsize)

/-- A run does not fit together with the first line of the next one. -/
def Overflows (limit : Nat) (run next : List Text) : Prop :=
  ∃ line rest, next = line :: rest ∧ ¬Fits limit (run ++ [line])

theorem Overflows.append {next : List Text} (h : Overflows limit run next) (more : List Text) :
    Overflows limit run (next ++ more) := by
  obtain ⟨line, rest, rfl, hover⟩ := h
  exact ⟨line, rest ++ more, rfl, hover⟩

/-- A new part is begun only where the next line does not fit into the old one. -/
theorem overflows_of_full (h : Filled limit s)
    (hfull : limit < s.2.size + (line.length + 1) ∧ s.2.lines ≠ []) :
    Overflows limit s.2.lines.reverse [line] := by
  refine ⟨line, [], rfl, ?_⟩
  rintro (hone | hsize)
  · have hpos := List.length_pos_iff.2 hfull.2
    rw [List.length_append, List.length_reverse, List.length_singleton] at hone
    omega
  · rw [linesSize_append, linesSize_reverse, ← h.size, linesSize_cons, linesSize] at hsize
    omega

/-- The parts so far, last one first, with the one being filled. -/
def partsSoFar (s : List (List Text) × Filling) : List (List Text) := s.2.lines.reverse :: s.1

theorem partsSoFar_fillStep (h : Filled limit s)
    (hchain : (partsSoFar s).IsChain fun next run => Overflows limit run next) (line : Text) :
    (partsSoFar (fillStep limit s line)).IsChain fun next run => Overflows limit run next := by
  simp only [fillStep]
  split
  · next hcond =>
    have hfull : limit < s.2.size + (line.length + 1) ∧ s.2.lines ≠ [] := by simpa using hcond
    exact List.isChain_cons_cons.2 ⟨overflows_of_full h hfull, hchain⟩
  · -- the line goes to the end of the part, which begins as before
    simp only [partsSoFar, List.reverse_cons] at hchain ⊢
    cases hdone : s.1 with
    | nil => exact .singleton _
    | cons run done =>
      rw [hdone] at hchain
      obtain ⟨hover, hrest⟩ := List.isChain_cons_cons.1 hchain
      exact List.isChain_cons_cons.2 ⟨hover.append [line], hrest⟩

theorem partsSoFar_foldl (h : Filled limit s)
    (hchain : (partsSoFar s).IsChain fun next run => Overflows limit run next) (ls : List Text) :
    (partsSoFar (ls.foldl (fillStep limit) s)).IsChain fun next run => Overflows limit run next := by
  induction ls generalizing s with
  | nil => exact hchain
  | cons line ls ih => exact ih (h.fillStep line) (partsSoFar_fillStep h hchain line)

/-- No part could have taken the first line of the next one. -/
theorem isChain_cutLines (limit : Nat) (ls : List Text) :
    (cutLines limit ls).IsChain (Overflows limit) := by
  have hstart : Filled limit ([], ⟨[], 0⟩) := ⟨by simp, .inl (Nat.zero_le 1), rfl⟩
  have hchain := partsSoFar_foldl hstart (.singleton _) ls
  simp only [cutLines]
  rw [List.isChain_reverse]
  split
  · exact hchain.tail
  · exact hchain

/-- Runs that could not have been longer are never more than other runs, which may begin earlier. -/
theorem length_le_of_overflows (hne : ∀ run ∈ runs, run ≠ []) (hchain : runs.IsChain (Overflows limit))
    (hfits : ∀ run ∈ cut, Fits limit run) (hend : runs.flatten <:+ cut.flatten) :
    runs.length ≤ cut.length := by
  induction cut generalizing runs with
  | nil =>
    have hnil : runs.flatten = [] := List.suffix_nil.1 hend
    have hruns : runs = [] := List.eq_nil_iff_forall_not_mem.2 fun run hrun =>
      hne run hrun (List.flatten_eq_nil_iff.1 hnil run hrun)
    rw [hruns]
  | cons first cut ih =>
    have hfits' : ∀ run ∈ cut, Fits limit run := fun run hrun => hfits run (List.mem_cons_of_mem _ hrun)
    obtain ⟨ahead, hahead⟩ := hend
    rw [List.flatten_cons] at hahead
    rcases List.append_eq_append_iff.1 hahead with ⟨shared, hfirst, hruns⟩ | ⟨behind, -, hcut⟩
    · cases runs with
      | nil => exact Nat.zero_le _
      | cons run runs =>
        rw [List.flatten_cons] at hruns
        -- the first run reaches at least as far as the first one of the other cut
        have hreach : runs.flatten <:+ cut.flatten := by
          rcases List.append_eq_append_iff.1 hruns with ⟨beyond, hshared, hrest⟩ | ⟨more, -, hcut⟩
          · cases beyond with
            | nil => exact ⟨[], hrest⟩
            | cons line beyond =>
              exfalso
              cases runs with
              | nil => cases hrest
              | cons next runs =>
                obtain ⟨⟨line', rest, rfl, hover⟩, -⟩ := List.isChain_cons_cons.1 hchain
                obtain rfl : line' = line := (List.cons.inj hrest).1
                refine hover ((hfits first List.mem_cons_self).of_isInfix ?_)
                exact ⟨ahead, beyond, by rw [hfirst, hshared]; simp⟩
          · exact ⟨more, hcut.symm⟩
        have hlength := ih (fun r hr => hne r (List.mem_cons_of_mem _ hr)) hchain.tail hfits' hreach
        rw [List.length_cons, List.length_cons]
        omega
    · exact (ih hne hchain hfits' ⟨behind, hcut.symm⟩).trans (Nat.le_succ _)

/-- A page with a line end that is too long does not fit into one part. -/
theorem two_le_length_cutLines (hlong : limit ≤ content.length) (hnewline : '\n' ∈ content) :
    2 ≤ (cutLines limit (Text.lines content)).length := by
  have hne : cutLines limit (Text.lines content) ≠ [] :=
    cutLines_ne_nil (Text.pieces_ne_nil '\n' content)
  have hpos := List.length_pos_iff.2 hne
  by_contra hone
  obtain ⟨run, hrun⟩ := List.length_eq_one_iff.1
    (by omega : (cutLines limit (Text.lines content)).length = 1)
  have hlines : run = Text.lines content := by
    rw [← flatten_cutLines limit (Text.lines content), hrun, List.flatten_singleton]
  have hfits : Fits limit (Text.lines content) :=
    hlines ▸ fits_of_mem_cutLines (by rw [hrun]; exact List.mem_singleton.2 rfl)
  have hsize := length_unlines (Text.pieces_ne_nil '\n' content)
  rw [← Text.lines, Text.unlines_lines] at hsize
  rcases hfits with hshort | hsmall
  · obtain ⟨before, behind, rfl⟩ := List.append_of_mem hnewline
    rw [Text.lines, Text.pieces_append, List.length_append] at hshort
    have hbefore := List.length_pos_iff.2 (Text.pieces_ne_nil '\n' before)
    have hbehind := List.length_pos_iff.2 (Text.pieces_ne_nil '\n' behind)
    omega
  · omega

/-- A way to cut the lines of a page into consecutive runs that may be parts. -/
structure IsCut (content : Text) (runs : List (List Text)) : Prop where
  flatten : runs.flatten = Text.lines content
  fits : ∀ run ∈ runs, Fits 32000 run

/-- What is said of the runs of lines that the files of a long page hold: they cut the page, and there
are as few of them as can be. -/
structure IsShortestCut (base content : Text) (runs : List (List Text)) : Prop extends
    IsCut content runs where
  texts : (pageFiles base content).map Prod.snd =
    runs.mapIdx fun i run => partHeading base (i + 1) ++ Text.unlines run
  nonempty : ∀ run ∈ runs, run ≠ []
  fewest : ∀ cut, IsCut content cut → runs.length ≤ cut.length
  several : '\n' ∈ content → 2 ≤ runs.length
  /-- Wherever the page is written, there is one file for each run. -/
  pages : ∀ output fs pages fs', (write output base content).on fs = .ok (pages, fs') →
    pages.length = runs.length

/-- A page that is too long is written in as few parts as can be. -/
theorem page_cut_shortest (base : Text) (hlong : 32000 < content.length) :
    ∃ runs, IsShortestCut base content runs := by
  have htexts : (pageFiles base content).map Prod.snd =
      (cutLines maxChars (Text.lines content)).mapIdx fun i run =>
        partHeading base (i + 1) ++ Text.unlines run := by
    have hcut : ¬content.length ≤ maxChars := Nat.not_le.2 hlong
    rw [pageFiles, if_neg hcut, parts]
    exact List.ext_getElem (by simp) (by simp)
  refine ⟨cutLines maxChars (Text.lines content), ⟨flatten_cutLines _ _, fun run hrun =>
    fits_of_mem_cutLines hrun⟩, htexts, cutLines_nonempty _ _, fun cut hcut => ?_, fun hnewline => ?_,
    fun output fs pages fs' hok => ?_⟩
  · have hwhole : (cutLines maxChars (Text.lines content)).flatten = cut.flatten :=
      (flatten_cutLines _ _).trans hcut.flatten.symm
    exact length_le_of_overflows (cutLines_nonempty _ _) (isChain_cutLines _ _) hcut.fits
      (hwhole ▸ List.suffix_refl _)
  · exact two_le_length_cutLines (Nat.le_of_lt hlong) hnewline
  · have hcount := congrArg List.length htexts
    rw [List.length_map, List.length_mapIdx] at hcount
    exact (Action.length_of_mapM_on hok).trans hcount

/-- Three lines in two parts: no single part takes them. -/
theorem unevenPage_cut_shortest : 32000 < unevenPage.length ∧
    ∃ runs, IsShortestCut "x".toList unevenPage runs ∧ runs.length = 2 := by
  have hlong : 32000 < unevenPage.length := by
    rw [length_unevenPage]
    decide
  have hnewline : '\n' ∈ unevenPage := by
    rw [unevenPage, Text.unlines_cons_cons]
    exact List.mem_append_right _ List.mem_cons_self
  have hcut : IsCut unevenPage [[fullLine], [halfLine 'b', halfLine 'c']] := by
    refine ⟨lines_unevenPage.symm, fun run hrun => ?_⟩
    rw [← cutLines_unevenPage] at hrun
    exact fits_of_mem_cutLines hrun
  obtain ⟨runs, hruns⟩ := page_cut_shortest "x".toList hlong
  exact ⟨hlong, runs, hruns, Nat.le_antisymm (hruns.fewest _ hcut) (hruns.several hnewline)⟩

end CodeIndex.Page
