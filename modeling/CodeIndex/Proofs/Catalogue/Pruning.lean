import CodeIndex.Proofs.Catalogue
import CodeIndex.Proofs.Ignore

/-!
# Pruning against asking

A walk does not go into ignored directories, while a single question looks at one path alone. The walk
finds the files that are not ignored, less those below an ignored directory. The two agree as long as no
file escapes from an ignored directory. Globs that carry down let none escape; a path that is written out
leaves out the directory and nothing in it.
-/

namespace CodeIndex

theorem flatMap_filter {α β : Type} (as : List α) (test : α → Bool) (f : α → List β) :
    (as.filter test).flatMap f = as.flatMap fun a => if test a then f a else [] := by
  induction as with
  | nil => rfl
  | cons a as ih => by_cases h : test a = true <;> simp [h, ih]

/-- The way to the directory that a file is in. -/
theorem Path.dropLast_drop_names (root : Path) (way : List Text) (n : Text) :
    (((root.under way).child n).names.drop root.names.length).dropLast = way := by
  rw [child_names, under, List.append_assoc, List.drop_left, List.dropLast_concat]

namespace FileSystem

variable {fs : FileSystem} {skips : Path → Bool} {levels : Nat} {dir : Path} {v : Visit} {n : Text}
  {way : List Text}

/-- Whether none of the directories on a way down is skipped. -/
def isUnskipped (skips : Path → Bool) : Path → List Text → Bool
  | _, [] => true
  | dir, n :: way => !skips (dir.child n) && isUnskipped skips (dir.child n) way

theorem isUnskipped_iff : isUnskipped skips dir way = true ↔
    ∀ above, above <+: way → above ≠ [] → skips (dir.under above) = false := by
  induction way generalizing dir with
  | nil => simp [isUnskipped]
  | cons n way ih =>
    simp only [isUnskipped, Bool.and_eq_true, Bool.not_eq_true', ih]
    constructor
    · rintro ⟨hn, hway⟩ above habove hne
      obtain rfl | ⟨rest, rfl, hrest⟩ := List.prefix_cons_iff.1 habove
      · exact absurd rfl hne
      · rw [← Path.child_under]
        by_cases hnil : rest = []
        · rwa [hnil, Path.under_nil]
        · exact hway rest hrest hnil
    · intro hall
      refine ⟨hall [n] (by simp) (by simp), fun above habove _ => ?_⟩
      rw [Path.child_under]
      exact hall (n :: above) (List.cons_prefix_cons.2 ⟨rfl, habove⟩) (by simp)

/-- A walk comes only to directories to which no skipped one leads. -/
theorem isUnskipped_of_mem_walk (hv : v ∈ fs.walk skips levels dir) :
    ∃ way, v.dir = dir.under way ∧ isUnskipped skips dir way = true := by
  induction levels generalizing dir with
  | zero => cases hv
  | succ levels ih =>
    obtain ⟨names, -, rfl | ⟨n, hn, hv⟩⟩ := mem_walk_succ.1 hv
    · exact ⟨[], (Path.under_nil dir).symm, rfl⟩
    · obtain ⟨way, hdir, hway⟩ := ih hv
      have hkept := (Bool.and_eq_true _ _ ▸ (List.mem_filter.1 hn).2).1
      exact ⟨n :: way, by rw [hdir, Path.child_under], by simp [isUnskipped, hkept, hway]⟩

/-- A walk visits the directories of the walk that skips nothing to which no skipped one leads. -/
theorem walk_eq_filter : fs.walk skips levels dir =
    (fs.walk (fun _ => false) levels dir).filter fun v =>
      isUnskipped skips dir (v.dir.names.drop dir.names.length) := by
  induction levels generalizing dir with
  | zero => rfl
  | succ levels ih =>
    rw [walk_succ, walk_succ]
    cases hlist : fs.list dir with
    | error failure => rfl
    | ok names =>
      have hentered : fs.entered skips dir names =
          (fs.entered (fun _ => false) dir names).filter fun n => !skips (dir.child n) := by
        simp only [entered, List.filter_filter]
        exact List.filter_congr fun n _ => by simp [Bool.and_comm, Bool.and_left_comm]
      have hhere : isUnskipped skips dir (dir.names.drop dir.names.length) = true := by
        simp [isUnskipped]
      simp only [List.filter_cons, hhere, if_true, List.cons.injEq, true_and]
      rw [hentered, flatMap_filter, List.filter_flatMap]
      refine List.flatMap_congr fun n _ => ?_
      -- the way to a directory below starts with the name of the directory that is entered
      have hway : ∀ v ∈ fs.walk (fun _ => false) levels (dir.child n),
          isUnskipped skips dir (v.dir.names.drop dir.names.length) = (!skips (dir.child n) &&
            isUnskipped skips (dir.child n) (v.dir.names.drop (dir.child n).names.length)) := by
        intro v hv
        obtain ⟨way, hdir, -⟩ := isUnskipped_of_mem_walk hv
        have hbelow : v.dir.names = dir.names ++ n :: way := by rw [hdir, Path.child_under]; rfl
        have hrest : v.dir.names.drop (dir.child n).names.length = way := by
          rw [hdir]
          exact List.drop_left
        rw [hrest, hbelow, List.drop_left]
        rfl
      rw [List.filter_congr hway]
      cases hskip : skips (dir.child n) with
      | true => simp
      | false => simpa using @ih (dir.child n)

theorem isName_of_mem_files (h : fs.Named) (hv : v ∈ fs.walk skips levels dir) (hn : n ∈ v.files) :
    Path.IsName n := by
  induction levels generalizing dir with
  | zero => cases hv
  | succ levels ih =>
    obtain ⟨names, hlist, hv⟩ := mem_walk_succ.1 hv
    obtain ⟨-, loc, -, -, rfl⟩ := list_ok_iff_locate.1 hlist
    rcases hv with rfl | ⟨m, -, hv⟩
    · exact h.isName_of_mem_childNames (List.mem_filter.1 hn).1
    · exact ih hv

/-- The files that a walk comes to. -/
def filesBelow (fs : FileSystem) (skips : Path → Bool) (root : Path) : List Path :=
  (fs.walk skips (fs.depth + 1) root).flatMap fun v => v.files.map v.dir.child

theorem exists_way_of_mem (h : fs.Named) {root f : Path} (hf : f ∈ fs.filesBelow skips root) :
    ∃ way n, f = (root.under way).child n ∧ ∀ m ∈ way ++ [n], Path.IsName m := by
  obtain ⟨v, hv, hf⟩ := List.mem_flatMap.1 hf
  obtain ⟨n, hn, rfl⟩ := List.mem_map.1 hf
  obtain ⟨way, hdir, hway⟩ := below_of_mem_walk h hv
  refine ⟨way, n, by rw [hdir], fun m hm => ?_⟩
  rcases List.mem_append.1 hm with hm | hm
  · exact hway m hm
  · rw [List.mem_singleton.1 hm]
    exact isName_of_mem_files h hv hn

/-- A walk comes to the files to which no skipped directory leads. -/
theorem filesBelow_eq_filter (fs : FileSystem) (skips : Path → Bool) (root : Path) :
    fs.filesBelow skips root = (fs.filesBelow (fun _ => false) root).filter fun f =>
      isUnskipped skips root (f.names.drop root.names.length).dropLast := by
  rw [filesBelow, filesBelow, walk_eq_filter, flatMap_filter, List.filter_flatMap]
  refine List.flatMap_congr fun v hv => ?_
  obtain ⟨way, hdir, -⟩ := isUnskipped_of_mem_walk hv
  have hfiles : ∀ f ∈ v.files.map v.dir.child, (f.names.drop root.names.length).dropLast =
      v.dir.names.drop root.names.length := by
    intro f hf
    obtain ⟨n, -, rfl⟩ := List.mem_map.1 hf
    rw [hdir, Path.dropLast_drop_names, Path.under, List.drop_left]
  cases hopen : isUnskipped skips root (v.dir.names.drop root.names.length) with
  | true =>
    rw [if_pos rfl, List.filter_eq_self.2 fun f hf => by rw [hfiles f hf, hopen]]
  | false =>
    rw [if_neg Bool.false_ne_true, List.filter_eq_nil_iff.2 fun f hf => by simp [hfiles f hf, hopen]]

end FileSystem

namespace IgnoreRules

open FileSystem CodeIndex.Path

variable {fs : FileSystem} {rules : IgnoreRules} {added : List Text}

theorem carriesDown_builtIn : ∀ pattern ∈ builtIn, CarriesDown pattern := by decide +kernel

/-- The files of a catalogue are those that its walk keeps and that have a language. -/
theorem files_collect (fs : FileSystem) (registry : Registry) (rules : IgnoreRules) (root : Path) :
    (Catalogue.collect fs registry rules root).flatMap Prod.snd =
      (rules.keep (fs.filesBelow rules.ignores root)).filter fun f =>
        (registry.languageOf? f).isSome := by
  rw [Catalogue.collect, flatMap_filter, List.flatMap_map, keep, filesBelow, List.filter_flatMap,
    List.filter_flatMap]
  refine List.flatMap_congr fun v _ => ?_
  rw [List.filter_filter]
  cases hfiles : Catalogue.filesOf registry rules v with
  | nil => simpa [Catalogue.filesOf, Bool.and_comm] using hfiles.symm
  | cons f files => simpa [Catalogue.filesOf, Bool.and_comm] using hfiles.symm

theorem keep_filesBelow (fs : FileSystem) (rules : IgnoreRules) (root : Path) :
    rules.keep (fs.filesBelow rules.ignores root) =
      (rules.keep (fs.filesBelow (fun _ => false) root)).filter fun f =>
        isUnskipped rules.ignores root (f.names.drop root.names.length).dropLast := by
  rw [filesBelow_eq_filter fs rules.ignores, keep, keep, List.filter_filter, List.filter_filter]
  exact List.filter_congr fun f _ => Bool.and_comm _ _

/-- The walk and the single questions agree if no file escapes from an ignored directory. -/
theorem keep_filesBelow_eq_iff (h : fs.Named) (rules : IgnoreRules) (root : Path) :
    rules.keep (fs.filesBelow (fun _ => false) root) =
        rules.keep (fs.filesBelow rules.ignores root) ↔
      ∀ way n, (root.under way).child n ∈ rules.keep (fs.filesBelow (fun _ => false) root) →
        ∀ above, above <+: way → above ≠ [] → rules.ignores (root.under above) = false := by
  rw [keep_filesBelow, eq_comm, List.filter_eq_self]
  constructor
  · intro hall way n hf
    have hopen := hall _ hf
    rwa [Path.dropLast_drop_names, isUnskipped_iff] at hopen
  · intro hall f hf
    obtain ⟨way, n, rfl, -⟩ := exists_way_of_mem h (List.mem_filter.1 hf).1
    rw [Path.dropLast_drop_names, isUnskipped_iff]
    exact hall way n hf

/-- Where only paths that are written out ignore a directory, it makes no difference below. -/
theorem ignores_append_iff {way q : List Text} (hway : IsWay way) (hq : IsWay q)
    (hall : ∀ pattern ∈ rules.patterns, drops pattern way = true →
      '/' ∈ withoutFinalSlashes pattern ∧ Glob.IsLiteral (withoutFinalSlashes pattern)) :
    rules.ignores (rules.root.under (way ++ q)) = true ↔
      ∃ pattern ∈ rules.patterns, drops pattern way = false ∧ drops pattern (way ++ q) = true := by
  rw [ignores_under_iff (hway.append hq).ne_nil]
  constructor
  · rintro ⟨pattern, hp, hdrops⟩
    refine ⟨pattern, hp, ?_, hdrops⟩
    rw [Bool.eq_false_iff]
    intro habove
    obtain ⟨hslash, hliteral⟩ := hall pattern hp habove
    rw [not_drops_append hslash hliteral hway hq habove] at hdrops
    cases hdrops
  · rintro ⟨pattern, hp, -, hdrops⟩
    exact ⟨pattern, hp, hdrops⟩

theorem ignores_append {way q : List Text} (hway : IsWay way) (hq : IsWay q)
    (hcarries : ∃ pattern ∈ rules.patterns, CarriesDown pattern ∧ drops pattern way = true) :
    rules.ignores (rules.root.under (way ++ q)) = true := by
  obtain ⟨pattern, hp, hcarries, hdrops⟩ := hcarries
  rw [ignores_under_iff (hway.append hq).ne_nil]
  exact ⟨pattern, hp, drops_append hcarries hway hq hdrops⟩

/-- No file escapes if all globs carry down. -/
theorem keep_filesBelow_of_carriesDown (h : fs.Named)
    (hcarries : ∀ pattern ∈ rules.patterns, CarriesDown pattern) :
    rules.keep (fs.filesBelow (fun _ => false) rules.root) =
      rules.keep (fs.filesBelow rules.ignores rules.root) := by
  rw [keep_filesBelow_eq_iff h]
  intro way n hf above habove hne
  obtain ⟨hf, hkept⟩ := List.mem_filter.1 hf
  obtain ⟨way', n', heq, hnames⟩ := exists_way_of_mem h hf
  obtain ⟨rest, rfl⟩ := habove
  have hfile : (rules.root.under (above ++ rest)).child n = rules.root.under (above ++ (rest ++ [n])) := by
    simp [Path.child, Path.under]
  have hwhole : above ++ (rest ++ [n]) = way' ++ [n'] := by
    have hsame := congrArg Path.names (hfile.symm.trans heq)
    simpa [Path.child, Path.under] using hsame
  have hpieces : ∀ m ∈ above ++ (rest ++ [n]), IsPiece m := fun m hm =>
    (hnames m (hwhole ▸ hm)).toIsPiece
  rw [Bool.eq_false_iff]
  intro hignored
  obtain ⟨pattern, hp, hdrops⟩ := (ignores_under_iff hne).1 hignored
  have hbelow := ignores_append ⟨hne, fun m hm => hpieces m (List.mem_append_left _ hm)⟩
    ⟨by simp, fun m hm => hpieces m (List.mem_append_right _ hm)⟩
    ⟨pattern, hp, hcarries pattern hp, hdrops⟩
  rw [hfile, hbelow] at hkept
  cases hkept

/-- All that is below an ignored directory is ignored if the directory is ignored by a glob without a
slash or with a star at its end; if it is ignored only by paths that are written out, what is below it is
ignored exactly as if the directory were not. The walk of a catalogue keeps the files that are not ignored,
less those below an ignored directory, so it agrees with the single questions exactly if there are none of
these; and there are none if the globs that are added to those always there carry down. -/
theorem walk_keeps_unescaped (h : fs.Named) (registry : Registry) (rules : IgnoreRules) :
    (∀ way q, IsWay way → IsWay q →
      (∃ pattern ∈ rules.patterns, CarriesDown pattern ∧ drops pattern way = true) →
        rules.ignores (rules.root.under (way ++ q)) = true) ∧
    (∀ way q, IsWay way → IsWay q →
      (∀ pattern ∈ rules.patterns, drops pattern way = true →
        '/' ∈ withoutFinalSlashes pattern ∧ Glob.IsLiteral (withoutFinalSlashes pattern)) →
      (rules.ignores (rules.root.under (way ++ q)) = true ↔
        ∃ pattern ∈ rules.patterns, drops pattern way = false ∧ drops pattern (way ++ q) = true)) ∧
    (Catalogue.collect fs registry rules rules.root).flatMap Prod.snd =
      ((rules.keep (fs.filesBelow rules.ignores rules.root)).filter fun f =>
        (registry.languageOf? f).isSome) ∧
    rules.keep (fs.filesBelow rules.ignores rules.root) =
      ((rules.keep (fs.filesBelow (fun _ => false) rules.root)).filter fun f =>
        isUnskipped rules.ignores rules.root (f.names.drop rules.root.names.length).dropLast) ∧
    (rules.keep (fs.filesBelow (fun _ => false) rules.root) =
        rules.keep (fs.filesBelow rules.ignores rules.root) ↔
      ∀ way n,
        (rules.root.under way).child n ∈ rules.keep (fs.filesBelow (fun _ => false) rules.root) →
          ∀ above, above <+: way → above ≠ [] → rules.ignores (rules.root.under above) = false) ∧
    (∀ added, rules.patterns = builtIn ++ added → (∀ pattern ∈ added, CarriesDown pattern) →
      rules.keep (fs.filesBelow (fun _ => false) rules.root) =
        rules.keep (fs.filesBelow rules.ignores rules.root)) := by
  refine ⟨fun way q hway hq => ignores_append hway hq, fun way q hway hq => ignores_append_iff hway hq,
    files_collect _ _ _ _, keep_filesBelow _ _ _, keep_filesBelow_eq_iff h _ _, ?_⟩
  intro added hpatterns hadded
  apply keep_filesBelow_of_carriesDown h
  intro pattern hp
  rw [hpatterns] at hp
  exact (List.mem_append.1 hp).elim (carriesDown_builtIn pattern) (hadded pattern)

/-- A project with generated files and an ignore file, of which the content is given. -/
def generatedProject (ignoreFile : Text) : FileSystem :=
  (((((FileSystem.empty .standard []).put ["p".toList] .openDir).put
    ["p".toList, ".gitignore".toList] (.file ⟨Utf8.encode ignoreFile, .finite false 1 0, false⟩)).put
    ["p".toList, "src".toList] .openDir).put
    ["p".toList, "src".toList, "gen".toList] .openDir).put
    ["p".toList, "src".toList, "gen".toList, "x.py".toList] (.file ⟨[], .finite false 1 0, false⟩)

def generatedRoot : Path := ⟨.root, ["p".toList]⟩

/-- The rules that are loaded where the ignore file holds one glob. -/
def generatedRules (glob : Text) : IgnoreRules := ⟨generatedRoot, builtIn ++ [glob]⟩

/-- A directory that is ignored by its name is ignored with all that is in it. -/
theorem generatedProject_all_ignored :
    load (generatedProject "gen/\n".toList) generatedRoot [] = .ok (generatedRules "gen/".toList) ∧
      (generatedRules "gen/".toList).ignores
        (generatedRoot.under ["src".toList, "gen".toList, "x.py".toList]) = true ∧
      (generatedRules "gen/".toList).keep
          ((generatedProject "gen/\n".toList).filesBelow (fun _ => false) generatedRoot) =
        (generatedRules "gen/".toList).keep ((generatedProject "gen/\n".toList).filesBelow
          (generatedRules "gen/".toList).ignores generatedRoot) := by
  have hnamed : (generatedProject "gen/\n".toList).Named := by decide +kernel
  obtain ⟨hbelow, -, -, -, -, hagree⟩ :=
    walk_keeps_unescaped hnamed .standard (generatedRules "gen/".toList)
  have hnames : ∀ n ∈ ["src".toList, "gen".toList, "x.py".toList], IsName n := by decide
  have hway : IsWay ["src".toList, "gen".toList] :=
    ⟨List.cons_ne_nil _ _, fun n hn => (hnames n (List.mem_append_left ["x.py".toList] hn)).toIsPiece⟩
  have hfile : IsWay ["x.py".toList] :=
    ⟨List.cons_ne_nil _ _, fun n hn => (hnames n (List.mem_append_right ["src".toList, "gen".toList]
      hn)).toIsPiece⟩
  have hdrops : ∃ pattern ∈ (generatedRules "gen/".toList).patterns, CarriesDown pattern ∧
      drops pattern ["src".toList, "gen".toList] = true :=
    ⟨"gen/".toList, by decide +kernel, by decide +kernel, by decide +kernel⟩
  have hload : load (generatedProject "gen/\n".toList) generatedRoot [] =
      .ok (generatedRules "gen/".toList) := by decide +kernel
  have hignored := hbelow _ _ hway hfile hdrops
  have hsame := hagree ["gen/".toList] rfl (by decide +kernel)
  exact ⟨hload, hignored, hsame⟩

/-- A directory that is ignored by its path hides its files from the walk, and yet they are not ignored. -/
theorem generatedProject_escaped :
    load (generatedProject "src/gen\n".toList) generatedRoot [] =
        .ok (generatedRules "src/gen".toList) ∧
      (generatedRules "src/gen".toList).ignores
        (generatedRoot.under ["src".toList, "gen".toList]) = true ∧
      (generatedRules "src/gen".toList).ignores
        (generatedRoot.under ["src".toList, "gen".toList, "x.py".toList]) = false ∧
      (generatedRules "src/gen".toList).keep
          ((generatedProject "src/gen\n".toList).filesBelow (fun _ => false) generatedRoot) ≠
        (generatedRules "src/gen".toList).keep ((generatedProject "src/gen\n".toList).filesBelow
          (generatedRules "src/gen".toList).ignores generatedRoot) := by
  decide +kernel

end IgnoreRules

end CodeIndex
