import CodeIndex.Proofs.Page.Names

/-!
# The parts of a page

Cutting a page into parts loses nothing: its parts, joined by line feeds, are the page again.
-/

namespace CodeIndex

namespace Page

variable {limit : Nat} {ls : List Text} {s : List (List Text) × Filling}

/-- The lines that have been put into parts so far. -/
def linesDone (s : List (List Text) × Filling) : List Text :=
  s.1.reverse.flatten ++ s.2.lines.reverse

theorem linesDone_fillStep (limit : Nat) (s : List (List Text) × Filling) (line : Text) :
    linesDone (fillStep limit s line) = linesDone s ++ [line] := by
  simp only [fillStep]
  split
  · simp [linesDone]
  · simp [linesDone]

theorem linesDone_foldl (limit : Nat) (ls : List Text) (s : List (List Text) × Filling) :
    linesDone (ls.foldl (fillStep limit) s) = linesDone s ++ ls := by
  induction ls generalizing s with
  | nil => simp
  | cons line ls ih =>
    rw [List.foldl_cons, ih, linesDone_fillStep, List.append_assoc]
    rfl

theorem fillStep_nonempty (h : ∀ run ∈ s.1, run ≠ []) (line : Text) :
    ∀ run ∈ (fillStep limit s line).1, run ≠ [] := by
  simp only [fillStep]
  split
  · next hcond =>
    simp only [Bool.and_eq_true, Bool.not_eq_true', List.isEmpty_eq_false_iff] at hcond
    intro run hrun
    rcases List.mem_cons.1 hrun with rfl | hrun
    · simpa using hcond.2
    · exact h run hrun
  · exact h

theorem foldl_fillStep_nonempty (h : ∀ run ∈ s.1, run ≠ []) (ls : List Text) :
    ∀ run ∈ (ls.foldl (fillStep limit) s).1, run ≠ [] := by
  induction ls generalizing s with
  | nil => exact h
  | cons line ls ih => exact ih (fillStep_nonempty h line)

theorem flatten_cutLines (limit : Nat) (ls : List Text) : (cutLines limit ls).flatten = ls := by
  have hdone := linesDone_foldl limit ls ([], ⟨[], 0⟩)
  simp only [linesDone] at hdone
  simp only [cutLines]
  split
  · next hempty => simpa [List.isEmpty_iff.1 hempty] using hdone
  · simpa using hdone

theorem cutLines_nonempty (limit : Nat) (ls : List Text) : ∀ run ∈ cutLines limit ls, run ≠ [] := by
  have hfull : ∀ run ∈ (ls.foldl (fillStep limit) ([], ⟨[], 0⟩)).1, run ≠ [] :=
    foldl_fillStep_nonempty (by simp) ls
  intro run hrun
  simp only [cutLines, List.mem_reverse] at hrun
  split at hrun
  · exact hfull run hrun
  · next hlines =>
    rcases List.mem_cons.1 hrun with rfl | hrun
    · simpa using hlines
    · exact hfull run hrun

theorem unlines_append {as bs : List Text} (ha : as ≠ []) (hb : bs ≠ []) :
    Text.unlines (as ++ bs) = Text.unlines as ++ '\n' :: Text.unlines bs := by
  rw [Text.unlines, Text.intercalate_append ha hb, List.append_assoc, List.singleton_append]
  rfl

theorem unlines_flatten {runs : List (List Text)} (h : ∀ run ∈ runs, run ≠ []) :
    Text.unlines (runs.map Text.unlines) = Text.unlines runs.flatten := by
  induction runs with
  | nil => rfl
  | cons run runs ih =>
    have hrun := h run List.mem_cons_self
    have hih := ih fun r hr => h r (List.mem_cons_of_mem _ hr)
    cases runs with
    | nil => simp [Text.unlines, List.intercalate]
    | cons run' runs =>
      have hrun' := h run' (by simp)
      rw [List.flatten_cons, unlines_append hrun (by simp [hrun']), ← hih, List.map_cons,
        ← List.singleton_append, unlines_append (by simp) (by simp)]
      simp [Text.unlines, List.intercalate]

/-- The parts of a page are the page. -/
theorem unlines_parts (content : Text) : Text.unlines (parts content) = content := by
  rw [parts, unlines_flatten (cutLines_nonempty _ _), flatten_cutLines, Text.unlines_lines]

/-- Every part takes at least one line. -/
theorem length_parts_le (content : Text) : (parts content).length ≤ (Text.lines content).length := by
  have hruns : ∀ runs : List (List Text), (∀ run ∈ runs, run ≠ []) →
      runs.length ≤ runs.flatten.length := by
    intro runs
    induction runs with
    | nil => simp
    | cons run runs ih =>
      intro h
      have hpos := List.length_pos_iff.2 (h run List.mem_cons_self)
      have hrest := ih fun r hr => h r (List.mem_cons_of_mem _ hr)
      rw [List.flatten_cons, List.length_append, List.length_cons]
      omega
  have hcut := hruns _ (cutLines_nonempty maxChars (Text.lines content))
  rwa [flatten_cutLines, ← List.length_map (f := Text.unlines)] at hcut

/-- The first parts of a page are how it begins. -/
theorem unlines_begins {ps : List Text} {content : Text} (hne : ps ≠ [])
    (h : ps <+: parts content) : Text.unlines ps <+: content := by
  obtain ⟨rest, hrest⟩ := h
  rw [← unlines_parts content, ← hrest]
  by_cases hnil : rest = []
  · simp [hnil]
  · rw [unlines_append hne hnil]
    exact List.prefix_append _ _

theorem first_part_begins {content : Text} (h : 0 < (parts content).length) :
    (parts content)[0] <+: content := by
  have hone : [(parts content)[0]] <+: parts content := ⟨_, List.getElem_cons_drop h⟩
  simpa [Text.unlines, List.intercalate] using unlines_begins (by simp) hone

/-- Pages whose parts agree as far as both go begin alike to the end of one of them. -/
theorem prefix_or_prefix_of_parts {content content' : Text}
    (h : ∀ (i : Nat) (hi : i < (parts content).length) (hi' : i < (parts content').length),
      (parts content)[i] = (parts content')[i]) :
    content <+: content' ∨ content' <+: content := by
  have hbegins : ∀ {as bs : List Text}, as.length ≤ bs.length →
      (∀ (i : Nat) (hi : i < as.length) (hi' : i < bs.length), as[i] = bs[i]) → as <+: bs := by
    intro as bs hle hsame
    refine List.prefix_iff_eq_take.2 (List.ext_getElem (by simp [hle]) fun i hi hi' => ?_)
    rw [List.getElem_take]
    exact hsame i hi (by omega)
  have hne : ∀ content : Text, parts content ≠ [] := fun content hnil => by
    have hempty := unlines_parts content
    rw [hnil] at hempty
    subst hempty
    exact absurd hnil (by decide)
  rcases Nat.le_total (parts content).length (parts content').length with hle | hle
  · left
    have := unlines_begins (hne content) (hbegins hle h)
    rwa [unlines_parts] at this
  · right
    have := unlines_begins (hne content') (hbegins hle fun i hi hi' => (h i hi' hi).symm)
    rwa [unlines_parts] at this

end Page

end CodeIndex
