import CodeIndex.Proofs.FileSystem.Present
import CodeIndex.Proofs.Ignore.BuiltIn
import CodeIndex.Proofs.Text.LineReader

/-!
# Ignore files

A glob that is read from an ignore file is a whole line of it. A file that is text to its end gives all
its globs; where it is not, the globs end with a line that is complete. What one file holds has no part
in what the globs before it are.
-/

namespace CodeIndex

namespace IgnoreRules

open FileSystem Text

variable {fs : FileSystem} {root p : Path} {custom : List Text} {rules : IgnoreRules} {bs : Bytes}

/-- The globs among some lines: what they hold besides the white space around it, unless that is nothing,
a comment or an exception. -/
def globsAmong (ls : List Text) : List Text :=
  (ls.map trim).filter fun l => l ≠ [] ∧ l.head? ≠ some '#' ∧ l.head? ≠ some '!'

theorem patternsOf_eq (bs : Bytes) : patternsOf bs = globsAmong (linesOfBytes bs) := by
  refine List.filter_congr fun l _ => ?_
  cases l with
  | nil => rfl
  | cons c l =>
    rw [Bool.eq_iff_iff]
    simp [isPattern]

theorem globsAmong_begins {ls ls' : List Text} (h : ls <+: ls') : globsAmong ls <+: globsAmong ls' :=
  (h.map trim).filter _

/-- The globs in a file, none if there is nothing to read. -/
def foundAt (fs : FileSystem) (p : Path) : List Text :=
  match fs.read p with
  | .ok bs => patternsOf bs
  | .error _ => []

theorem patternsAt_eq_foundAt {found : List Text} (h : patternsAt fs p = .ok found) :
    found = foundAt fs p := by
  obtain ⟨present, hpresent, h⟩ := bind_ok_iff.1 h
  unfold foundAt
  cases hread : fs.read p with
  | ok bs =>
    have hthere : ∀ cause, ¬fs.IsBarred p cause := by
      intro cause hbarred
      have hstat := isOk_stat_of_read hread
      rw [hbarred.2] at hstat
      cases hstat
    rw [isPresent_of_not_isBarred hthere, isOk_stat_of_read hread] at hpresent
    cases hpresent
    rw [if_pos rfl, hread] at h
    exact (Except.ok.inj h).symm
  | error failure =>
    rw [hread] at h
    cases present <;> exact (Except.ok.inj h).symm

theorem load_patterns (h : load fs root custom = .ok rules) :
    rules.patterns = builtIn ++ fileNames.flatMap (fun name => foundAt fs (rules.root.child name)) ++
      custom := by
  obtain ⟨resolved, -, h⟩ := bind_ok_iff.1 h
  obtain ⟨added, hadded, h⟩ := bind_ok_iff.1 h
  obtain ⟨found, hfound, hadded⟩ := bind_ok_iff.1 hadded
  cases h
  cases hadded
  have hfiles : ∀ name ∈ fileNames,
      patternsAt fs (resolved.child name) = .ok (foundAt fs (resolved.child name)) := by
    intro name hname
    obtain ⟨globs, -, hglobs⟩ := exists_of_mapM_ok hfound hname
    exact patternsAt_eq_foundAt hglobs ▸ hglobs
  have hfound : found = fileNames.map fun name => foundAt fs (resolved.child name) :=
    Except.ok.inj (hfound.symm.trans (mapM_ok hfiles))
  rw [hfound, List.flatMap_def, List.append_assoc]

/-- Whatever bytes an ignore file holds, the globs that are read from it are the first among those of its
whole lines: of the lines that are ended in the longest text it starts with, and of its last line too if it
is text to its end. From a file that is text to its end all of them are read. Loaded rules have the globs
that are always there, those of each ignore file and those given, one behind the other: none of them changes
what was loaded before it. -/
theorem globs_from_whole_lines (fs : FileSystem) (root : Path) (custom : List Text) :
    (∀ bs, ∃ t, Utf8.IsLongest t bs ∧ patternsOf bs <+: globsAmong (wholeLines bs t)) ∧
    (∀ t, patternsOf (Utf8.encode t) = globsAmong (lines (unifyLineEnds t))) ∧
    ∀ rules, load fs root custom = .ok rules →
      rules.patterns = builtIn ++ foundAt fs (rules.root.child ".gitignore".toList) ++
        foundAt fs (rules.root.child ".indexignore".toList) ++ custom := by
  refine ⟨fun bs => ?_, fun t => ?_, fun rules h => ?_⟩
  · obtain ⟨t, ht⟩ := Utf8.exists_isLongest bs
    refine ⟨t, ht, ?_⟩
    rw [patternsOf_eq]
    exact globsAmong_begins (linesOfBytes_begins ht)
  · rw [patternsOf_eq, linesOfBytes_encode]
  · rw [load_patterns h]
    simp [fileNames]

/-- A project with two ignore files: one with line ends of all kinds whose last line is not ended, and one
whose last character is cut short. -/
def brokenOffProject : FileSystem :=
  (((FileSystem.empty .standard []).put ["p".toList] .openDir).put
    ["p".toList, ".gitignore".toList]
      (.file ⟨Utf8.encode " docs\r\n# all\r!keep\n\nsrc/gen".toList, .finite false 1 0, false⟩)).put
    ["p".toList, ".indexignore".toList]
      (.file ⟨Utf8.encode "tmp\nsrc/généré".toList.dropLast ++ [195], .finite false 1 0, false⟩)

/-- The glob that is broken off is not loaded. -/
theorem brokenOffProject_globs : ∃ rules, load brokenOffProject ⟨.root, ["p".toList]⟩ [] = .ok rules ∧
    rules.patterns = builtIn ++ ["docs".toList, "src/gen".toList] ++ ["tmp".toList] := by
  obtain ⟨rules, hload⟩ : ∃ rules, load brokenOffProject ⟨.root, ["p".toList]⟩ [] = .ok rules :=
    exists_ok_of_isSome (by decide +kernel)
  have hroot : rules.root = ⟨.root, ["p".toList]⟩ :=
    Except.ok.inj ((load_spec hload).1.symm.trans (by decide +kernel))
  have hfirst : foundAt brokenOffProject ⟨.root, ["p".toList, ".gitignore".toList]⟩ =
      ["docs".toList, "src/gen".toList] := by decide +kernel
  have hsecond : foundAt brokenOffProject ⟨.root, ["p".toList, ".indexignore".toList]⟩ =
      ["tmp".toList] := by decide +kernel
  refine ⟨rules, hload, ?_⟩
  rw [(globs_from_whole_lines _ _ _).2.2 rules hload, hroot, List.append_nil]
  exact congrArg₂ (builtIn ++ · ++ ·) hfirst hsecond

end IgnoreRules

end CodeIndex
