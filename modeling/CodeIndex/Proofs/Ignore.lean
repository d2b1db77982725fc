import CodeIndex.Ignore
import CodeIndex.Proofs.FileSystem.Child
import CodeIndex.Proofs.Glob

/-!
# What ignore rules leave out

Below the root, whether a glob leaves out a path depends on the names of the way down to it. A glob
without a slash leaves out every way with a name that it matches. A glob with a slash is held against the
whole way, so that it reaches what is below a directory only if a star at its end does.
-/

namespace CodeIndex

namespace Path

variable {way above q : List Text} {n : Text}

theorem mem_namesAbove : above ∈ namesAbove way ↔ above <+: way ∧ above ≠ way := by
  simp only [namesAbove, List.mem_map, List.mem_reverse, List.mem_range]
  constructor
  · rintro ⟨i, hi, rfl⟩
    refine ⟨List.take_prefix i way, fun heq => ?_⟩
    have hlen := congrArg List.length heq
    rw [List.length_take] at hlen
    omega
  · rintro ⟨hpre, hne⟩
    refine ⟨above.length, ?_, (List.prefix_iff_eq_take.1 hpre).symm⟩
    exact Nat.lt_of_le_of_ne hpre.length_le fun hlen => hne (hpre.eq_of_length hlen)

/-- The paths above one that is seen from the root are named by the names before the last; the root itself
has the empty name. -/
theorem any_parents_iff (hway : way ≠ []) {test : Text → Bool} {anchor : Anchor} :
    ((⟨anchor, way⟩ : Path).parents.any fun dir => test dir.name) = true ↔
      test [] = true ∨ ∃ n ∈ way.dropLast, test n = true := by
  simp only [parents, List.any_map, List.any_eq_true, mem_namesAbove, Function.comp_apply, name]
  constructor
  · rintro ⟨above, ⟨hpre, hne⟩, htest⟩
    rcases List.eq_nil_or_concat above with rfl | ⟨before, n, rfl⟩
    · exact .inl htest
    · obtain ⟨rest, rfl⟩ := hpre
      have hrest : rest ≠ [] := fun h => hne (by simp [h])
      refine .inr ⟨n, ?_, by simpa using htest⟩
      rw [List.dropLast_append_of_ne_nil hrest]
      simp
  · rintro (htest | ⟨n, hn, htest⟩)
    · exact ⟨[], ⟨List.nil_prefix, hway.symm⟩, htest⟩
    · obtain ⟨before, behind, hsplit⟩ := List.append_of_mem hn
      have hwhole := List.dropLast_append_getLast hway
      rw [hsplit] at hwhole
      refine ⟨before ++ [n], ⟨⟨behind ++ [way.getLast hway], by simpa using hwhole⟩, fun heq => ?_⟩,
        by simpa using htest⟩
      have hlen := congrArg List.length (hwhole.trans heq.symm)
      simp only [List.length_append, List.length_cons, List.length_nil] at hlen
      omega

theorem joinNames_append (hway : way ≠ []) (hq : q ≠ []) :
    joinNames (way ++ q) = joinNames way ++ '/' :: joinNames q := by
  rw [joinNames, Text.intercalate_append hway hq, List.append_assoc, List.singleton_append]
  rfl

/-- The names on a way down from a directory, at least one. -/
structure IsWay (way : List Text) : Prop where
  ne_nil : way ≠ []
  pieces : ∀ n ∈ way, IsPiece n

theorem IsWay.append (hway : IsWay way) (hq : IsWay q) : IsWay (way ++ q) where
  ne_nil := List.append_ne_nil_of_left_ne_nil hway.ne_nil q
  pieces n hn := (List.mem_append.1 hn).elim (hway.pieces n) (hq.pieces n)

theorem IsWay.joinNames_ne_nil (h : IsWay way) : joinNames way ≠ [] := by
  obtain ⟨n, way, rfl⟩ := List.exists_cons_of_ne_nil h.ne_nil
  have hn := (h.pieces n List.mem_cons_self).ne_nil
  cases way with
  | nil => simpa [joinNames, List.intercalate] using hn
  | cons m way => simp [joinNames_cons, hn]

theorem IsWay.toText (h : IsWay way) : (⟨.relative, way⟩ : Path).toText = joinNames way := by
  have hbare : (⟨.relative, way⟩ : Path).bareText = joinNames way := rfl
  unfold Path.toText
  split
  · next hnil => exact absurd (hbare.symm.trans hnil) h.joinNames_ne_nil
  · exact hbare

end Path

namespace IgnoreRules

open CodeIndex.Path

variable {rules : IgnoreRules} {pattern n : Text} {way q : List Text}

/-- Whether a glob leaves out the path that leads down from the root through the given names. -/
def drops (pattern : Text) (way : List Text) : Bool :=
  leavesOut pattern ⟨.relative, way⟩ (way.getLast?.getD [])

theorem ignores_under (hway : way ≠ []) :
    rules.ignores (rules.root.under way) = rules.patterns.any fun pattern => drops pattern way := by
  have hrel : (rules.root.under way).relativeTo? rules.root = some ⟨.relative, way⟩ :=
    relativeTo?_eq_some.2 ⟨rfl, rfl, rfl⟩
  have hname : (rules.root.under way).name = way.getLast?.getD [] := by
    simp only [Path.name, Path.under, List.getLast?_append]
    rw [List.getLast?_eq_some_getLast hway]
    rfl
  rw [ignores, fromRoot, hrel, hname, Option.getD_some]
  rfl

theorem ignores_under_iff (hway : way ≠ []) : rules.ignores (rules.root.under way) = true ↔
    ∃ pattern ∈ rules.patterns, drops pattern way = true := by
  rw [ignores_under hway, List.any_eq_true]

theorem drops_iff (hway : IsWay way) : drops pattern way = true ↔
    matchesPath (withoutFinalSlashes pattern) (joinNames way) (way.getLast?.getD []) = true ∨
      globMatches (withoutFinalSlashes pattern) [] = true ∨
        ∃ n ∈ way.dropLast, globMatches (withoutFinalSlashes pattern) n = true := by
  rw [drops, leavesOut, Bool.or_eq_true, any_parents_iff hway.ne_nil, hway.toText]

/-- A glob without a slash leaves out the ways with a name that it matches. -/
theorem drops_iff_of_no_slash (hslash : '/' ∉ withoutFinalSlashes pattern) (hway : way ≠ []) :
    drops pattern way = true ↔ globMatches (withoutFinalSlashes pattern) [] = true ∨
      ∃ n ∈ way, globMatches (withoutFinalSlashes pattern) n = true := by
  have hmem : ∀ n, n ∈ way ↔ n ∈ way.dropLast ∨ n = way.getLast?.getD [] := by
    intro n
    have hlast : way.getLast?.getD [] = way.getLast hway := by
      rw [List.getLast?_eq_some_getLast hway]
      rfl
    conv_lhs => rw [← List.dropLast_append_getLast hway]
    rw [List.mem_append, List.mem_singleton, hlast]
  rw [drops, leavesOut, Bool.or_eq_true, any_parents_iff hway, matchesPath, if_neg hslash]
  constructor
  · rintro (h | h | ⟨n, hn, h⟩)
    · exact .inr ⟨_, (hmem _).2 (.inr rfl), h⟩
    · exact .inl h
    · exact .inr ⟨n, (hmem n).2 (.inl hn), h⟩
  · rintro (h | ⟨n, hn, h⟩)
    · exact .inr (.inl h)
    · rcases (hmem n).1 hn with hn | rfl
      · exact .inr (.inr ⟨n, hn, h⟩)
      · exact .inl h

/-- A glob that leaves out all below a directory that it leaves out: it is held against single names, or a
star at its end takes in what follows. -/
def CarriesDown (pattern : Text) : Prop :=
  '/' ∉ withoutFinalSlashes pattern ∨ (withoutFinalSlashes pattern).getLast? = some '*'

instance (pattern : Text) : Decidable (CarriesDown pattern) := inferInstanceAs (Decidable (_ ∨ _))

/-- A whole path that is matched up to a star may go on. -/
theorem matchesPath_append (hslash : '/' ∈ pattern) (hstar : pattern.getLast? = some '*') {t name : Text}
    (h : matchesPath pattern t name = true) (u name' : Text) :
    matchesPath pattern (t ++ u) name' = true := by
  rw [matchesPath, if_pos hslash, Bool.or_eq_true] at h ⊢
  rcases h with h | h
  · exact .inl (globMatches_append_of_star hstar h u)
  · rw [Bool.and_eq_true, decide_eq_true_eq] at h ⊢
    obtain ⟨rest, rfl⟩ := List.head?_eq_some_iff.1 h.1
    have hrest : rest.getLast? = some '*' := by
      cases rest with
      | nil => simp at hstar
      | cons c rest => simpa using hstar
    exact .inr ⟨h.1, globMatches_append_of_star hrest h.2 u⟩

/-- What such a glob leaves out, it leaves out with all that is below. -/
theorem drops_append (hcarries : CarriesDown pattern) (hway : IsWay way) (hq : IsWay q)
    (h : drops pattern way = true) : drops pattern (way ++ q) = true := by
  by_cases hslash : '/' ∈ withoutFinalSlashes pattern
  · have hstar := hcarries.resolve_left (not_not_intro hslash)
    rw [drops_iff (hway.append hq), joinNames_append hway.ne_nil hq.ne_nil]
    rcases (drops_iff hway).1 h with h | h | ⟨n, hn, h⟩
    · exact .inl (matchesPath_append hslash hstar h _ _)
    · exact .inr (.inl h)
    · refine .inr (.inr ⟨n, ?_, h⟩)
      rw [List.dropLast_append_of_ne_nil hq.ne_nil]
      exact List.mem_append_left _ (List.dropLast_subset _ hn)
  · rw [drops_iff_of_no_slash hslash (hway.append hq).ne_nil]
    rcases (drops_iff_of_no_slash hslash hway.ne_nil).1 h with h | ⟨n, hn, h⟩
    · exact .inl h
    · exact .inr ⟨n, List.mem_append_left _ hn, h⟩

/-- A path that is written out without wildcards leaves out that path alone. -/
theorem drops_iff_of_isLiteral (hslash : '/' ∈ withoutFinalSlashes pattern)
    (hliteral : Glob.IsLiteral (withoutFinalSlashes pattern)) (hway : IsWay way) :
    drops pattern way = true ↔ withoutFinalSlashes pattern = joinNames way ∨
      withoutFinalSlashes pattern = '/' :: joinNames way := by
  generalize hp : withoutFinalSlashes pattern = stripped at hslash hliteral
  have hself : ∀ t, '/' ∉ t → ¬globMatches stripped t = true := fun t ht h =>
    ht ((globMatches_of_isLiteral hliteral).1 h ▸ hslash)
  have hnames : ¬∃ n ∈ way.dropLast, globMatches stripped n = true := fun ⟨n, hn, h⟩ =>
    hself n (hway.pieces n (List.dropLast_subset _ hn)).slash h
  have hdrop : stripped.head? = some '/' ∧ globMatches (stripped.drop 1) (joinNames way) = true ↔
      stripped = '/' :: joinNames way := by
    constructor
    · rintro ⟨hhead, h⟩
      obtain ⟨rest, rfl⟩ := List.head?_eq_some_iff.1 hhead
      rw [(globMatches_of_isLiteral (Glob.isLiteral_cons.1 hliteral).2).1 h]
    · rintro rfl
      exact ⟨rfl, (globMatches_of_isLiteral (Glob.isLiteral_cons.1 hliteral).2).2 rfl⟩
  rw [drops_iff hway, hp, matchesPath, if_pos hslash, Bool.or_eq_true, Bool.and_eq_true,
    decide_eq_true_eq, hdrop, globMatches_of_isLiteral hliteral, eq_comm]
  simp only [hself [] List.not_mem_nil, hnames, or_false, Bool.false_eq_true]

/-- So nothing below the path is left out. -/
theorem not_drops_append (hslash : '/' ∈ withoutFinalSlashes pattern)
    (hliteral : Glob.IsLiteral (withoutFinalSlashes pattern)) (hway : IsWay way) (hq : IsWay q)
    (h : drops pattern way = true) : drops pattern (way ++ q) = false := by
  rw [Bool.eq_false_iff]
  intro hbelow
  rw [drops_iff_of_isLiteral hslash hliteral (hway.append hq)] at hbelow
  rw [drops_iff_of_isLiteral hslash hliteral hway] at h
  -- the path below is longer by a slash and a name, and a slash in front makes up for one character
  have hlonger : (joinNames way).length + 1 < (joinNames (way ++ q)).length := by
    have hpos := List.length_pos_of_ne_nil hq.joinNames_ne_nil
    rw [joinNames_append hway.ne_nil hq.ne_nil, List.length_append, List.length_cons]
    omega
  have hle : (withoutFinalSlashes pattern).length ≤ (joinNames way).length + 1 := by
    rcases h with h | h <;> simp [h]
  have hge : (joinNames (way ++ q)).length ≤ (withoutFinalSlashes pattern).length := by
    rcases hbelow with hbelow | hbelow <;> simp [hbelow]
  omega

theorem withoutFinalSlashes_of_notMem (h : '/' ∉ pattern) : withoutFinalSlashes pattern = pattern := by
  have hkeep : pattern.reverse.dropWhile (· == '/') = pattern.reverse := by
    cases hr : pattern.reverse with
    | nil => rfl
    | cons c rest =>
      have hc : c ≠ '/' := fun hc => h (List.mem_reverse.1 (by simp [hr, hc]))
      simp [hc]
  rw [withoutFinalSlashes, hkeep, List.reverse_reverse]

/-- A glob without a slash leaves out all paths whose last name it matches, wherever they are. -/
theorem ignores_of_name {p : Path} (hp : pattern ∈ rules.patterns) (hslash : '/' ∉ pattern)
    (h : globMatches pattern p.name = true) : rules.ignores p = true := by
  refine List.any_eq_true.2 ⟨pattern, hp, ?_⟩
  rw [leavesOut, withoutFinalSlashes_of_notMem hslash, matchesPath, if_neg hslash, h, Bool.true_or]

end IgnoreRules

end CodeIndex
