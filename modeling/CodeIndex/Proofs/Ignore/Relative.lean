import CodeIndex.Proofs.Ignore

/-!
# Paths seen from the root

A path may be asked about as it is seen from the root or with the root in front of it. The root is
resolved, so it has an anchor, and no relative path lies below it.

Two stars and a slash in front of a glob are no prefix that may stand for nothing: the slash must be
there, and what follows it is held against the glob as a whole, over further slashes.
-/

namespace CodeIndex

/-- A resolved path does not depend on the current directory. -/
theorem FileSystem.resolve_anchor {fs : FileSystem} {p r : Path} (h : fs.resolve p = .ok r) :
    r.anchor ≠ .relative := by
  have hfromRoot : ∀ {q}, fs.fromRoot q = .ok r → r.anchor ≠ .relative := by
    intro q hq
    unfold fromRoot at hq
    split at hq
    · cases hq
      by_cases ha : q.anchor = .relative <;> simp [absolute, ha]
    · cases hq
  have hreal : fs.realPath p = .ok r := by
    unfold resolve at h
    split at h
    · cases h
    · obtain ⟨real, hreal, h⟩ := bind_ok_iff.1 h
      split at h
      · cases h
      · cases h
        exact hreal
  unfold realPath at hreal
  dsimp only at hreal
  split at hreal
  · exact hfromRoot hreal
  · exact hfromRoot hreal
  · cases hreal

namespace Path

variable {p q base : Path} {names way : List Text}

theorem namesOf_slash (t : Text) : namesOf ('/' :: t) = namesOf t := by
  simp [namesOf, Text.pieces_cons_sep]

theorem namesOf_joinNames (h : ∀ n ∈ names, IsPiece n) : namesOf (joinNames names) = names := by
  by_cases hne : names = []
  · subst hne
    rfl
  · rw [namesOf, pieces_joinNames hne fun n hn => (h n hn).slash]
    exact List.filter_eq_self.2 fun n hn => by simpa using ⟨(h n hn).ne_nil, (h n hn).ne_dot⟩

/-- A path with an anchor is read back from its text, also one with two slashes in front. -/
theorem ofText_toText_of_anchor (ha : p.anchor ≠ .relative) (h : ∀ n ∈ p.names, IsPiece n) :
    ofText p.toText = p := by
  obtain ⟨anchor, names⟩ := p
  cases anchor with
  | relative => exact absurd rfl ha
  | root => exact ofText_toText rfl h
  | doubleRoot =>
    have htext : (⟨.doubleRoot, names⟩ : Path).toText = '/' :: '/' :: joinNames names := by
      rw [toText_of_ne_relative (by simp)]
      rfl
    have hanchor : anchorOf ('/' :: '/' :: joinNames names) = .doubleRoot := by
      have hhead := head_joinNames h
      cases hj : joinNames names with
      | nil => rfl
      | cons c cs =>
        have hc : c ≠ '/' := by simpa [hj] using hhead
        simp [anchorOf, hc]
    rw [htext, ofText, hanchor, namesOf_slash, namesOf_slash, namesOf_joinNames h]

theorem relativeTo?_eq_none (h : p.anchor ≠ base.anchor) : p.relativeTo? base = none :=
  if_neg fun hcond => h hcond.1

theorem join_of_relative (h : q.anchor = .relative) : p.join q = p.under q.names := by
  simp [join, h, under]

/-- Names that are joined are cut at a slash between two of them. -/
theorem joinNames_eq_append_slash_iff (hway : way ≠ []) (h : ∀ n ∈ way, '/' ∉ n) {before behind : Text} :
    joinNames way = before ++ '/' :: behind ↔ ∃ above below, above ≠ [] ∧ below ≠ [] ∧
      way = above ++ below ∧ before = joinNames above ∧ behind = joinNames below := by
  constructor
  · intro hcut
    have hpieces := congrArg (Text.pieces '/') hcut
    rw [pieces_joinNames hway h, Text.pieces_append] at hpieces
    exact ⟨_, _, Text.pieces_ne_nil '/' before, Text.pieces_ne_nil '/' behind, hpieces,
      (Text.intercalate_pieces '/' before).symm, (Text.intercalate_pieces '/' behind).symm⟩
  · rintro ⟨above, below, habove, hbelow, rfl, rfl, rfl⟩
    exact joinNames_append habove hbelow

theorem isWay_ofText {t : Text} (hne : (ofText t).names ≠ []) : IsWay (ofText t).names :=
  ⟨hne, fun _ => isPiece_of_mem_ofText⟩

end Path

namespace IgnoreRules

open CodeIndex.Path

variable {fs : FileSystem} {rules : IgnoreRules} {start root : Path} {pattern t : Text} {way : List Text}

/-- A path as it is seen from the root is asked about as it is. -/
theorem ignores_relative (hroot : rules.root.anchor ≠ .relative) (way : List Text) :
    rules.ignores ⟨.relative, way⟩ = rules.patterns.any fun pattern => drops pattern way := by
  have hrel : (⟨.relative, way⟩ : Path).relativeTo? rules.root = none :=
    relativeTo?_eq_none (Ne.symm hroot)
  rw [ignores, fromRoot, hrel]
  rfl

/-- Whether a path is ignored does not depend on whether it is given as it is seen from the root, with the
root in front of it, or as the text of the latter. -/
theorem ignores_join_eq (hroot : fs.resolve start = .ok rules.root) (hrel : (ofText t).anchor = .relative)
    (hne : (ofText t).names ≠ []) :
    rules.ignores (ofText t) = rules.ignores (rules.root.join (ofText t)) ∧
      ((∀ n ∈ rules.root.names, IsPiece n) → rules.ignores (ofText t) =
        rules.ignores (ofText (rules.root.join (ofText t)).toText)) := by
  have hanchor := FileSystem.resolve_anchor hroot
  have hsame : rules.ignores (ofText t) = rules.ignores (rules.root.join (ofText t)) := by
    have hself : ofText t = ⟨.relative, (ofText t).names⟩ := by rw [← hrel]
    rw [join_of_relative hrel, ignores_under hne, hself, ignores_relative hanchor]
  refine ⟨hsame, fun hpieces => ?_⟩
  have hjoined : ∀ n ∈ (rules.root.join (ofText t)).names, IsPiece n := by
    rw [join_of_relative hrel]
    intro n hn
    exact (List.mem_append.1 hn).elim (hpieces n) isPiece_of_mem_ofText
  have hback : ofText (rules.root.join (ofText t)).toText = rules.root.join (ofText t) := by
    refine ofText_toText_of_anchor ?_ hjoined
    rw [join_of_relative hrel]
    exact hanchor
  rw [hback, hsame]

/-- Rules that a text with a double slash, a single and a double dot is asked about. -/
def dotted : IgnoreRules := ⟨⟨.root, ["w".toList, "proj".toList]⟩, ["src/../*.py".toList]⟩

theorem dotted_ignores :
    dotted.ignores (ofText "./src//../a.py".toList) = true ∧
      dotted.ignores (dotted.root.join (ofText "./src//../a.py".toList)) = true ∧
      dotted.ignores (ofText (dotted.root.join (ofText "./src//../a.py".toList)).toText) = true := by
  have hroot : (FileSystem.empty .standard []).resolve dotted.root = .ok dotted.root := by decide +kernel
  obtain ⟨hjoin, htext⟩ := ignores_join_eq hroot (t := "./src//../a.py".toList) (by decide) (by decide)
  have hpieces : ∀ n ∈ dotted.root.names, IsName n := by decide
  have hignored : dotted.ignores (ofText "./src//../a.py".toList) = true := by decide +kernel
  exact ⟨hignored, hjoin ▸ hignored, htext (fun n hn => (hpieces n hn).toIsPiece) ▸ hignored⟩

/-- A glob behind two stars and a slash. -/
def anyDepth (pattern : Text) : Text := '*' :: '*' :: '/' :: pattern

/-- The rules with one glob beside those that are always there. -/
def withGlob (root : Path) (pattern : Text) : IgnoreRules := ⟨root, builtIn ++ [pattern]⟩

/-- A name on the way is matched, or the empty name of the root itself. -/
def MatchesName (pattern : Text) (way : List Text) : Prop :=
  globMatches pattern [] = true ∨ ∃ n ∈ way, globMatches pattern n = true

/-- What follows some directory on the way is matched as a whole. -/
def MatchesRest (pattern : Text) (way : List Text) : Prop :=
  ∃ above below, above ≠ [] ∧ below ≠ [] ∧ way = above ++ below ∧
    globMatches pattern (joinNames below) = true

theorem drops_iff_matchesName (hslash : '/' ∉ pattern) (hway : way ≠ []) :
    drops pattern way = true ↔ MatchesName pattern way := by
  have hkept := withoutFinalSlashes_of_notMem hslash
  rw [drops_iff_of_no_slash (hkept.symm ▸ hslash) hway, hkept, MatchesName]

theorem withoutFinalSlashes_anyDepth (hne : pattern ≠ []) (hslash : '/' ∉ pattern) :
    withoutFinalSlashes (anyDepth pattern) = anyDepth pattern := by
  obtain ⟨before, last, rfl⟩ := List.eq_nil_or_concat pattern |>.resolve_left hne
  have hlast : last ≠ '/' := by
    rintro rfl
    exact hslash (by simp)
  simp [withoutFinalSlashes, anyDepth, hlast]

/-- A name has no slash in it, so the glob can only match the way as a whole. -/
theorem drops_anyDepth_iff (hne : pattern ≠ []) (hslash : '/' ∉ pattern) (hway : IsWay way) :
    drops (anyDepth pattern) way = true ↔ MatchesRest pattern way := by
  have hnames : ∀ t, '/' ∉ t → ¬globMatches (anyDepth pattern) t = true := by
    intro t ht hmatch
    obtain ⟨before, behind, rfl, -⟩ := globMatches_stars_slash_iff.1 hmatch
    exact ht (by simp)
  have hwhole : matchesPath (anyDepth pattern) (joinNames way) (way.getLast?.getD []) = true ↔
      globMatches (anyDepth pattern) (joinNames way) = true := by
    simp [matchesPath, anyDepth]
  have habove : ¬∃ n ∈ way.dropLast, globMatches (anyDepth pattern) n = true := by
    rintro ⟨n, hn, hmatch⟩
    exact hnames n (hway.pieces n (List.dropLast_subset _ hn)).slash hmatch
  rw [drops_iff hway, withoutFinalSlashes_anyDepth hne hslash, hwhole]
  simp only [hnames [] List.not_mem_nil, habove, or_false, Bool.false_eq_true]
  rw [anyDepth, globMatches_stars_slash_iff, MatchesRest]
  simp only [joinNames_eq_append_slash_iff hway.ne_nil fun n hn => (hway.pieces n hn).slash]
  constructor
  · rintro ⟨before, behind, ⟨above, below, habove, hbelow, hsplit, -, rfl⟩, hmatch⟩
    exact ⟨above, below, habove, hbelow, hsplit, hmatch⟩
  · rintro ⟨above, below, habove, hbelow, hsplit, hmatch⟩
    exact ⟨_, _, ⟨above, below, habove, hbelow, hsplit, rfl, rfl⟩, hmatch⟩

theorem withGlob_ignores_iff (hroot : root.anchor ≠ .relative) (pattern : Text) (way : List Text) :
    (withGlob root pattern).ignores ⟨.relative, way⟩ = true ↔
      (⟨root, builtIn⟩ : IgnoreRules).ignores ⟨.relative, way⟩ = true ∨ drops pattern way = true := by
  rw [ignores_relative (by exact hroot), ignores_relative (by exact hroot)]
  simp [withGlob]

/-- What a glob without a slash leaves out behind two stars and a slash, and what it leaves out by itself:
the former the paths with a directory behind which all the rest is matched, the latter those with a name
that is matched. So the two agree about a path exactly if it is left out anyway or it has both or
neither. -/
theorem anyDepth_agrees_iff (hresolve : fs.resolve start = .ok root) (hne : pattern ≠ [])
    (hslash : '/' ∉ pattern) (hrel : (ofText t).anchor = .relative) (hnames : (ofText t).names ≠ []) :
    ((withGlob root (anyDepth pattern)).ignores (ofText t) = true ↔
      (⟨root, builtIn⟩ : IgnoreRules).ignores (ofText t) = true ∨ MatchesRest pattern (ofText t).names) ∧
    ((withGlob root pattern).ignores (ofText t) = true ↔
      (⟨root, builtIn⟩ : IgnoreRules).ignores (ofText t) = true ∨ MatchesName pattern (ofText t).names) ∧
    ((withGlob root (anyDepth pattern)).ignores (ofText t) = (withGlob root pattern).ignores (ofText t) ↔
      (⟨root, builtIn⟩ : IgnoreRules).ignores (ofText t) = true ∨
        (MatchesRest pattern (ofText t).names ↔ MatchesName pattern (ofText t).names)) := by
  have hself : ofText t = ⟨.relative, (ofText t).names⟩ := by rw [← hrel]
  have hroot := FileSystem.resolve_anchor hresolve
  have hdeep := withGlob_ignores_iff hroot (anyDepth pattern) (ofText t).names
  have hflat := withGlob_ignores_iff hroot pattern (ofText t).names
  rw [drops_anyDepth_iff hne hslash (isWay_ofText hnames), ← hself] at hdeep
  rw [drops_iff_matchesName hslash hnames, ← hself] at hflat
  refine ⟨hdeep, hflat, ?_⟩
  rw [Bool.eq_iff_iff, hdeep, hflat]
  by_cases hbuiltIn : (⟨root, builtIn⟩ : IgnoreRules).ignores (ofText t) = true
  · simp only [hbuiltIn, true_or]
  · simp only [hbuiltIn, Bool.false_eq_true, false_or]

/-- Below a directory a test file is left out either way. -/
theorem nestedTest_agrees :
    (withGlob ⟨.root, ["w".toList]⟩ (anyDepth "*.test.ts".toList)).ignores
        (ofText "src/app.test.ts".toList) =
      (withGlob ⟨.root, ["w".toList]⟩ "*.test.ts".toList).ignores (ofText "src/app.test.ts".toList) := by
  have hroot : (FileSystem.empty .standard []).resolve ⟨.root, ["w".toList]⟩ = .ok ⟨.root, ["w".toList]⟩ := by
    decide +kernel
  have hnames : (ofText "src/app.test.ts".toList).names = ["src".toList, "app.test.ts".toList] := by
    decide
  have hmatch : globMatches "*.test.ts".toList "app.test.ts".toList = true := by decide +kernel
  have hrest : MatchesRest "*.test.ts".toList ["src".toList, "app.test.ts".toList] :=
    ⟨["src".toList], ["app.test.ts".toList], by simp, by simp, rfl, hmatch⟩
  have hname : MatchesName "*.test.ts".toList ["src".toList, "app.test.ts".toList] :=
    .inr ⟨_, by simp, hmatch⟩
  refine (anyDepth_agrees_iff hroot (by decide) (by decide) (by decide) (by decide)).2.2.2 (.inr ?_)
  rw [hnames]
  exact iff_of_true hrest hname

/-- A test file in the root is left out by the glob alone. Where a star goes on over a slash, more is left
out behind two stars than by the glob. -/
theorem topLevelTest_disagrees :
    (withGlob ⟨.root, ["w".toList]⟩ "*.test.ts".toList).ignores (ofText "app.test.ts".toList) = true ∧
    (withGlob ⟨.root, ["w".toList]⟩ (anyDepth "*.test.ts".toList)).ignores
      (ofText "app.test.ts".toList) = false ∧
    (withGlob ⟨.root, ["w".toList]⟩ "a*.ts".toList).ignores (ofText "src/a/b.ts".toList) = false ∧
    (withGlob ⟨.root, ["w".toList]⟩ (anyDepth "a*.ts".toList)).ignores
      (ofText "src/a/b.ts".toList) = true := by
  decide +kernel

end IgnoreRules

end CodeIndex
