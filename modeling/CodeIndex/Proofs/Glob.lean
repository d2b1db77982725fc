import CodeIndex.Glob

/-!
# What globs match

A glob without wildcards matches its own text and nothing else. A glob with a star at its end matches,
with a text, everything that the text begins.
-/

namespace CodeIndex

theorem CharSet.contains_single {c d : Char} : (CharSet.single c).contains d = true ↔ d = c := by
  simp only [contains, single, List.any_cons, List.any_nil, Bool.or_false, Bool.bne_false,
    Bool.and_eq_true, decide_eq_true_eq]
  exact ⟨fun h => Char.le_antisymm h.2 h.1, fun h => h ▸ ⟨Char.le_refl _, Char.le_refl _⟩⟩

namespace Glob

variable {glob : List Piece} {set : CharSet} {pattern t u : Text}

theorem matches_one_iff : Matches (.one set :: glob) t ↔
    ∃ c rest, t = c :: rest ∧ set.contains c = true ∧ Matches glob rest := by
  constructor
  · rintro (_ | _ | ⟨hc, hrest⟩)
    exact ⟨_, _, rfl, hc, hrest⟩
  · rintro ⟨c, rest, rfl, hc, hrest⟩
    exact .one hc hrest

theorem matches_star_iff : Matches (.star :: glob) t ↔
    ∃ skipped rest, t = skipped ++ rest ∧ Matches glob rest := by
  constructor
  · rintro (_ | @⟨_, skipped, rest, hrest⟩ | _)
    exact ⟨skipped, rest, rfl, hrest⟩
  · rintro ⟨skipped, rest, rfl, hrest⟩
    exact .star hrest

/-- What a glob with a star at its end matches may go on. -/
theorem Matches.append_of_star (h : Matches (glob ++ [.star]) t) (u : Text) :
    Matches (glob ++ [.star]) (t ++ u) := by
  generalize hg : glob ++ [Piece.star] = whole at h
  induction h generalizing glob with
  | nil => simp at hg
  | @star rest skipped t h ih =>
    rw [List.append_assoc]
    cases glob with
    | nil =>
      obtain rfl : rest = [] := by simpa using hg.symm
      have hall := @Matches.star [] (skipped ++ (t ++ u)) [] .nil
      rwa [List.append_nil] at hall
    | cons piece glob => exact .star (ih (List.cons.inj hg).2)
  | one hc h ih =>
    cases glob with
    | nil => simp at hg
    | cons piece glob => exact .one hc (ih (List.cons.inj hg).2)

theorem takeMark_append (mark : Char) (t : Text) : (takeMark mark t).1 ++ (takeMark mark t).2 = t := by
  unfold takeMark
  split
  · next h =>
    obtain ⟨rest, rfl⟩ := List.head?_eq_some_iff.1 h
    rfl
  · rfl

/-- What follows brackets comes behind a closing one. -/
theorem exists_of_bracket? {inner rest : Text} (h : bracket? t = some (inner, rest)) :
    ∃ start, t = start ++ ']' :: rest := by
  simp only [bracket?] at h
  split at h
  · cases h
  · next c rest' hdrop =>
    obtain rfl : rest' = rest := (Prod.mk.inj (Option.some.inj h)).2
    have hclosed : c = ']' := by
      have hnot := List.head_dropWhile_not (· != ']') (hdrop ▸ List.cons_ne_nil c rest')
      simpa [hdrop] using hnot
    have hwhole := List.takeWhile_append_dropWhile (p := (· != ']'))
      (l := (takeMark ']' (takeMark '!' t).2).2)
    rw [hdrop, hclosed] at hwhole
    refine ⟨(takeMark '!' t).1 ++ ((takeMark ']' (takeMark '!' t).2).1 ++
      (takeMark ']' (takeMark '!' t).2).2.takeWhile (· != ']')), ?_⟩
    rw [List.append_assoc, List.append_assoc, hwhole, takeMark_append, takeMark_append]

/-- A star at the end of a glob is a wildcard, whatever stands before it. -/
theorem exists_parse_of_star (h : pattern.getLast? = some '*') :
    ∃ glob, parse pattern = glob ++ [.star] := by
  have hcons : ∀ {c : Char} {rest : Text} {piece : Piece}, c ≠ '*' →
      (c :: rest).getLast? = some '*' →
      (rest.getLast? = some '*' → ∃ glob, parse rest = glob ++ [.star]) →
      ∃ glob, piece :: parse rest = glob ++ [.star] := by
    intro c rest piece hc hlast ih
    have hrest : rest.getLast? = some '*' := by
      cases rest with
      | nil => exact absurd (by simpa using hlast) hc
      | cons d rest => simpa using hlast
    obtain ⟨glob, hglob⟩ := ih hrest
    exact ⟨piece :: glob, by rw [hglob]; rfl⟩
  induction pattern using parse.induct with
  | case1 => cases h
  | case2 rest ih =>
    rw [parse]
    cases rest with
    | nil => exact ⟨[], by rw [parse]; rfl⟩
    | cons d rest =>
      obtain ⟨glob, hglob⟩ := ih (by simpa using h)
      exact ⟨.star :: glob, by rw [hglob]; rfl⟩
  | case3 rest ih =>
    rw [parse]
    exact hcons (by decide) h ih
  | case4 whole inner rest hbracket ih =>
    rw [parse, hbracket]
    obtain ⟨start, rfl⟩ := exists_of_bracket? hbracket
    have hlast : (('[' :: start) ++ (']' :: rest)).getLast? = some '*' := h
    rw [List.getLast?_append, List.getLast?_cons, Option.some_or, ← List.getLast?_cons] at hlast
    exact hcons (by decide) hlast ih
  | case5 rest hbracket ih =>
    rw [parse, hbracket]
    exact hcons (by decide) h ih
  | case6 c rest hstar hone hopen ih =>
    rw [parse]
    · exact hcons hstar h ih
    all_goals assumption

/-- A text without wildcards. -/
def IsLiteral (pattern : Text) : Prop := '*' ∉ pattern ∧ '?' ∉ pattern ∧ '[' ∉ pattern

instance (pattern : Text) : Decidable (IsLiteral pattern) := inferInstanceAs (Decidable (_ ∧ _))

theorem isLiteral_cons {c : Char} : IsLiteral (c :: pattern) ↔
    (c ≠ '*' ∧ c ≠ '?' ∧ c ≠ '[') ∧ IsLiteral pattern := by
  simp only [IsLiteral, List.mem_cons, not_or, ne_eq, eq_comm (a := c)]
  exact ⟨fun ⟨hs, hq, hb⟩ => ⟨⟨hs.1, hq.1, hb.1⟩, hs.2, hq.2, hb.2⟩,
    fun ⟨hc, hs, hq, hb⟩ => ⟨⟨hc.1, hs⟩, ⟨hc.2.1, hq⟩, hc.2.2, hb⟩⟩

theorem parse_cons_of_isLiteral {c : Char} (h : IsLiteral (c :: pattern)) :
    parse (c :: pattern) = .one (.single c) :: parse pattern := by
  obtain ⟨⟨hstar, hone, hopen⟩, -⟩ := isLiteral_cons.1 h
  rw [parse]
  all_goals assumption

theorem matches_parse_iff (h : IsLiteral pattern) : Matches (parse pattern) t ↔ t = pattern := by
  induction pattern generalizing t with
  | nil =>
    rw [parse]
    exact ⟨fun ht => by cases ht; rfl, fun ht => ht ▸ .nil⟩
  | cons c pattern ih =>
    rw [parse_cons_of_isLiteral h, matches_one_iff]
    simp only [CharSet.contains_single, ih (isLiteral_cons.1 h).2]
    constructor
    · rintro ⟨d, rest, rfl, rfl, rfl⟩
      rfl
    · rintro rfl
      exact ⟨c, pattern, rfl, rfl, rfl⟩

end Glob

variable {pattern t : Text}

theorem globMatches_iff : globMatches pattern t = true ↔ Glob.Matches (Glob.parse pattern) t :=
  Glob.test_eq_true_iff _ _

/-- A text without wildcards matches itself alone. -/
theorem globMatches_of_isLiteral (h : Glob.IsLiteral pattern) :
    globMatches pattern t = true ↔ t = pattern := by
  rw [globMatches_iff, Glob.matches_parse_iff h]

/-- Behind two stars and a slash, a glob matches what it matches behind some slash. -/
theorem globMatches_stars_slash_iff : globMatches ('*' :: '*' :: '/' :: pattern) t = true ↔
    ∃ before behind, t = before ++ '/' :: behind ∧ globMatches pattern behind = true := by
  have hparse : Glob.parse ('*' :: '*' :: '/' :: pattern) =
      .star :: .star :: .one (.single '/') :: Glob.parse pattern := by
    rw [Glob.parse, Glob.parse, Glob.parse]
    all_goals decide
  simp only [globMatches_iff, hparse, Glob.matches_star_iff, Glob.matches_one_iff,
    CharSet.contains_single]
  constructor
  · rintro ⟨skipped, _, rfl, more, _, rfl, c, behind, rfl, rfl, hbehind⟩
    exact ⟨skipped ++ more, behind, (List.append_assoc _ _ _).symm, hbehind⟩
  · rintro ⟨before, behind, rfl, hbehind⟩
    exact ⟨before, '/' :: behind, rfl, [], '/' :: behind, rfl, '/', behind, rfl, rfl, hbehind⟩

/-- A glob with a star at its end matches what goes on from a text that it matches. -/
theorem globMatches_append_of_star (hstar : pattern.getLast? = some '*')
    (h : globMatches pattern t = true) (u : Text) : globMatches pattern (t ++ u) = true := by
  obtain ⟨glob, hglob⟩ := Glob.exists_parse_of_star hstar
  rw [globMatches_iff, hglob] at h ⊢
  exact h.append_of_star u

end CodeIndex
