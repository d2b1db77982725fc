import CodeIndex.CommandLine
import CodeIndex.Proofs.Catalogue.Pruning
import CodeIndex.Proofs.Tree.Lines

/-!
# The rules that are always there

Some of the globs that are always there are plain names, such as the one of the default output directory.
Loaded rules hold them whatever the ignore files contain and whatever globs are given, so a path through an
entry of such a name is ignored, and neither a catalogue nor a tree shows anything below one.
-/

namespace CodeIndex

namespace Tree

open FileSystem

variable {fs : FileSystem} {view : View} {depth : Nat} {dir : Path} {name margin : Text} {t : Tree}
  {line : TracedLine}

/-- A tree shows only what no hidden path leads to. -/
theorem isUnskipped_of_mem_trace (hok : ofDirectory fs view depth dir name = .ok t)
    (hline : line ∈ t.trace margin dir) :
    ∃ way, line.path = dir.under way ∧ isUnskipped view.hides dir way = true := by
  induction depth generalizing dir name t margin with
  | zero =>
    cases shown_of_ofDirectory hok
    rw [List.mem_singleton.1 hline]
    exact ⟨[], (Path.under_nil dir).symm, rfl⟩
  | succ depth ih =>
    cases shown_of_ofDirectory hok with
    | denied refused =>
      rw [List.mem_singleton.1 hline]
      exact ⟨[], (Path.under_nil dir).symm, rfl⟩
    | directory listed looked entered =>
      rw [ofItems_eq_directory, trace] at hline
      rcases mem_traceGroup hline with hpath | ⟨u, hu, hbelow⟩
      · exact ⟨[], by rw [hpath, Path.under_nil], rfl⟩
      -- an entry of the directory: it is not hidden, and the way goes on from it
      have hstep : view.hides (dir.child u.name) = false ∧ ∀ margin,
          line ∈ u.trace margin (dir.child u.name) → ∃ way,
            line.path = (dir.child u.name).under way ∧
              isUnskipped view.hides (dir.child u.name) way = true := by
        rcases entry_cases entered hu with ⟨hn, hok⟩ | ⟨hn, hfile⟩
        · exact ⟨(mem_shownDirs.1 hn).2, fun margin hline => ih hok hline⟩
        · rw [hfile]
          exact ⟨(mem_openFiles.1 hn).2, fun margin hline => nomatch hline⟩
      rcases hbelow with hpath | ⟨margin, hline⟩
      · exact ⟨[u.name], hpath, by simp [isUnskipped, hstep.1]⟩
      · obtain ⟨way, hpath, hway⟩ := hstep.2 margin hline
        exact ⟨u.name :: way, by rw [hpath, Path.child_under], by simp [isUnskipped, hstep.1, hway]⟩

end Tree

namespace IgnoreRules

open FileSystem

variable {fs : FileSystem} {root dir p : Path} {custom : List Text} {rules : IgnoreRules} {n : Text}
  {way : List Text}

/-- The globs that are always there and are plain names. -/
def fixedNames : List Text :=
  builtIn.filter fun pattern => decide ('/' ∉ pattern ∧ Glob.IsLiteral pattern)

theorem mem_fixedNames : n ∈ fixedNames ↔ n ∈ builtIn ∧ '/' ∉ n ∧ Glob.IsLiteral n := by
  simp [fixedNames]

/-- The globs that are always there are among the rules. -/
def HasBuiltIn (rules : IgnoreRules) : Prop := ∀ pattern ∈ builtIn, pattern ∈ rules.patterns

theorem HasBuiltIn.ignores_of_name (h : rules.HasBuiltIn) (hn : p.name ∈ fixedNames) :
    rules.ignores p = true := by
  obtain ⟨hbuiltIn, hslash, hliteral⟩ := mem_fixedNames.1 hn
  exact IgnoreRules.ignores_of_name (h _ hbuiltIn) hslash ((globMatches_of_isLiteral hliteral).2 rfl)

theorem HasBuiltIn.ignores_under (h : rules.HasBuiltIn) (hmem : n ∈ way) (hn : n ∈ fixedNames) :
    rules.ignores (rules.root.under way) = true := by
  obtain ⟨hbuiltIn, hslash, hliteral⟩ := mem_fixedNames.1 hn
  have hself := withoutFinalSlashes_of_notMem hslash
  apply (ignores_under_iff (List.ne_nil_of_mem hmem)).2
  refine ⟨n, h n hbuiltIn, ?_⟩
  apply (drops_iff_of_no_slash (by rwa [hself]) (List.ne_nil_of_mem hmem)).2
  rw [hself]
  exact .inr ⟨n, hmem, (globMatches_of_isLiteral hliteral).2 rfl⟩

/-- A way that is taken has none of the names on it. -/
theorem HasBuiltIn.notMem_way (h : rules.HasBuiltIn) (hway : isUnskipped rules.ignores dir way = true) :
    ∀ n ∈ way, n ∉ fixedNames := by
  induction way generalizing dir with
  | nil => exact nofun
  | cons m way ih =>
    rw [isUnskipped, Bool.and_eq_true, Bool.not_eq_true'] at hway
    intro n hn hfixed
    rcases List.mem_cons.1 hn with rfl | hn
    · rw [h.ignores_of_name (by rwa [Path.child_name])] at hway
      cases hway.1
    · exact ih hway.2 n hn hfixed

theorem HasBuiltIn.notMem_collect (h : rules.HasBuiltIn) {registry : Registry} {start f : Path}
    {x : Text × List Path} (hx : x ∈ Catalogue.collect fs registry rules start) (hf : f ∈ x.2) :
    ∃ way, f = start.under way ∧ ∀ n ∈ way, n ∉ fixedNames := by
  obtain ⟨-, v, hv, rfl⟩ := Catalogue.mem_collect_iff.1 hx
  obtain ⟨hfile, hkept⟩ := List.mem_filter.1 hf
  obtain ⟨n, -, rfl⟩ := List.mem_map.1 hfile
  rw [Bool.and_eq_true, Bool.not_eq_true'] at hkept
  obtain ⟨way, hdir, hway⟩ := isUnskipped_of_mem_walk hv
  refine ⟨way ++ [n], by simp [hdir, Path.under, Path.child], fun m hm hfixed => ?_⟩
  rcases List.mem_append.1 hm with hm | hm
  · exact h.notMem_way hway m hm hfixed
  · rw [List.mem_singleton.1 hm] at hfixed
    rw [h.ignores_of_name (by rwa [Path.child_name])] at hkept
    cases hkept.1

theorem HasBuiltIn.notMem_trace (h : rules.HasBuiltIn) {view : View} (hview : view.hides = rules.ignores)
    {start resolved : Path} {t : Tree} (hstart : fs.resolve start = .ok resolved)
    (ht : Tree.ofPath fs view start = .ok t) {line : Tree.TracedLine} (hline : line ∈ t.trace [] resolved) :
    ∃ way, line.path = resolved.under way ∧ ∀ n ∈ way, n ∉ fixedNames := by
  have hok : Tree.ofDirectory fs view view.maxDepth resolved resolved.name = .ok t := by
    rw [Tree.ofPath, hstart] at ht
    exact ht
  obtain ⟨way, hpath, hway⟩ := Tree.isUnskipped_of_mem_trace hok hline
  rw [hview] at hway
  exact ⟨way, hpath, h.notMem_way hway⟩

/-- Whatever is in an ignore file, its globs can be asked for, as long as its path can be looked up. -/
theorem patternsAt_ok_iff : (∃ patterns, patternsAt fs p = .ok patterns) ↔
    ∃ found, fs.look p = .ok found := by
  constructor
  · rintro ⟨patterns, hok⟩
    obtain ⟨present, hpresent, -⟩ := bind_ok_iff.1 hok
    rw [isPresent] at hpresent
    cases hlook : fs.look p with
    | error failure =>
      rw [hlook] at hpresent
      cases hpresent
    | ok found => exact ⟨found, rfl⟩
  · rintro ⟨found, hlook⟩
    have hpresent : fs.isPresent p = .ok found.isSome := by rw [isPresent, hlook]; rfl
    rw [patternsAt, hpresent]
    cases found with
    | none => exact ⟨[], rfl⟩
    | some e =>
      cases fs.read p with
      | ok bytes => exact ⟨patternsOf bytes, rfl⟩
      | error failure => exact ⟨[], rfl⟩

theorem exists_load_iff : (∃ rules, load fs root custom = .ok rules) ↔
    ∃ resolved, fs.resolve root = .ok resolved ∧
      ∀ name ∈ fileNames, ∃ found, fs.look (resolved.child name) = .ok found := by
  constructor
  · rintro ⟨rules, hok⟩
    obtain ⟨resolved, hresolved, hok⟩ := bind_ok_iff.1 hok
    obtain ⟨added, hadded, -⟩ := bind_ok_iff.1 hok
    obtain ⟨found, hfound, -⟩ := bind_ok_iff.1 hadded
    refine ⟨resolved, hresolved, fun name hname => ?_⟩
    obtain ⟨patterns, -, hpatterns⟩ := exists_of_mapM_ok hfound hname
    exact patternsAt_ok_iff.1 ⟨patterns, hpatterns⟩
  · rintro ⟨resolved, hresolved, hfiles⟩
    have hpatterns : ∀ name ∈ fileNames, ∃ patterns, patternsAt fs (resolved.child name) = .ok patterns :=
      fun name hname => patternsAt_ok_iff.2 (hfiles name hname)
    obtain ⟨found, hfound⟩ := exists_mapM_ok hpatterns
    have hadded : added fs resolved custom = .ok (found.flatten ++ custom) :=
      bind_ok_iff.2 ⟨found, hfound, rfl⟩
    exact ⟨_, bind_ok_iff.2 ⟨resolved, hresolved, bind_ok_iff.2 ⟨_, hadded, rfl⟩⟩⟩

theorem load_spec (h : load fs root custom = .ok rules) :
    fs.resolve root = .ok rules.root ∧ rules.HasBuiltIn := by
  obtain ⟨resolved, hresolved, h⟩ := bind_ok_iff.1 h
  obtain ⟨added, -, h⟩ := bind_ok_iff.1 h
  cases h
  exact ⟨hresolved, fun pattern hp => List.mem_append_left _ hp⟩

/-- Rules are loaded for every root that can be resolved, whatever its ignore files hold and whether or not
they can be read, as long as their paths can be looked up. Loaded rules ignore every path below the root with a
component that is one of the plain names always there. No file of a catalogue that is made with them and no
line of a tree comes from an entry with such a component; the default output directory has such a name. -/
theorem builtIn_never_overridden (fs : FileSystem) (root : Path) (custom : List Text) :
    ((∃ rules, load fs root custom = .ok rules) ↔ ∃ resolved, fs.resolve root = .ok resolved ∧
      ∀ name ∈ fileNames, ∃ found, fs.look (resolved.child name) = .ok found) ∧
    (∀ rules, load fs root custom = .ok rules →
      fs.resolve root = .ok rules.root ∧
      (∀ way, ∀ n ∈ way, n ∈ fixedNames → rules.ignores (rules.root.under way) = true) ∧
      (∀ registry start, ∀ x ∈ Catalogue.collect fs registry rules start, ∀ f ∈ x.2,
        ∃ way, f = start.under way ∧ ∀ n ∈ way, n ∉ fixedNames) ∧
      (∀ start resolved maxDepth showFiles maxFiles t, fs.resolve start = .ok resolved →
        Tree.ofPath fs (.full rules.ignores maxDepth showFiles maxFiles) start = .ok t →
        t.draw true = Text.unlines (t.name :: (t.trace [] resolved).map Tree.TracedLine.text) ∧
        ∀ line ∈ t.trace [] resolved,
          ∃ way, line.path = resolved.under way ∧ ∀ n ∈ way, n ∉ fixedNames)) ∧
    CommandLine.defaultOutput ∈ fixedNames := by
  refine ⟨exists_load_iff, fun rules hload => ?_, by decide +kernel⟩
  obtain ⟨hroot, hbuiltIn⟩ := load_spec hload
  refine ⟨hroot, fun way n hmem hn => hbuiltIn.ignores_under hmem hn,
    fun registry start x hx f hf => hbuiltIn.notMem_collect hx hf, ?_⟩
  intro start resolved maxDepth showFiles maxFiles t hstart ht
  refine ⟨t.draw_true_eq resolved, fun line hline => ?_⟩
  exact hbuiltIn.notMem_trace rfl hstart ht hline

/-- A project with build output whose ignore files ask for it: one by an exception, behind which there is a
byte that is no text, the other without leave to be read. -/
def outputProject : FileSystem :=
  (((((FileSystem.empty .standard []).put ["p".toList] .openDir).put
    ["p".toList, ".gitignore".toList]
      (.file ⟨Utf8.encode "!dist\n".toList ++ [255], .finite false 1 0, false⟩)).put
    ["p".toList, ".indexignore".toList] (.file ⟨[], .finite false 1 0, true⟩)).put
    ["p".toList, "dist".toList] .openDir).put
    ["p".toList, "dist".toList, "x.py".toList] (.file ⟨[], .finite false 1 0, false⟩)

def outputRoot : Path := ⟨.root, ["p".toList]⟩

/-- The output is neither listed nor drawn. -/
theorem outputProject_ignored :
    ∃ rules, load outputProject outputRoot ["!dist".toList] = .ok rules ∧
      rules.ignores (rules.root.under ["dist".toList, "x.py".toList]) = true ∧
      (∀ x ∈ Catalogue.collect outputProject .standard rules outputRoot,
        outputRoot.under ["dist".toList, "x.py".toList] ∉ x.2) ∧
      ∀ t, Tree.ofPath outputProject (.full rules.ignores 4 true 20) outputRoot = .ok t →
        ∀ line ∈ t.trace [] outputRoot, line.path ≠ outputRoot.under ["dist".toList] := by
  obtain ⟨hloads, hrules, -⟩ :=
    builtIn_never_overridden outputProject outputRoot ["!dist".toList]
  have hroot : outputProject.resolve outputRoot = .ok outputRoot := by decide +kernel
  have hlooks : ∀ name ∈ fileNames, (outputProject.look (outputRoot.child name)).toOption.isSome = true := by
    decide +kernel
  have hfixed : "dist".toList ∈ fixedNames := by decide +kernel
  obtain ⟨rules, hload⟩ := hloads.2 ⟨outputRoot, hroot, fun name hname =>
    exists_ok_of_isSome (hlooks name hname)⟩
  obtain ⟨-, hignored, hcollect, htree⟩ := hrules rules hload
  refine ⟨rules, hload, hignored _ "dist".toList (by simp) hfixed, fun x hx hf => ?_,
    fun t ht line hline hpath => ?_⟩
  · obtain ⟨way, hway, hnames⟩ := hcollect .standard outputRoot x hx _ hf
    have hsame : ["dist".toList, "x.py".toList] = way := by
      simpa [Path.under] using congrArg Path.names hway
    exact hnames "dist".toList (by simp [← hsame]) hfixed
  · obtain ⟨-, hlines⟩ := htree outputRoot outputRoot 4 true 20 t hroot ht
    obtain ⟨way, hway, hnames⟩ := hlines line hline
    have hsame : ["dist".toList] = way := by
      simpa [Path.under] using congrArg Path.names (hpath.symm.trans hway)
    exact hnames "dist".toList (by simp [← hsame]) hfixed

end IgnoreRules

end CodeIndex
