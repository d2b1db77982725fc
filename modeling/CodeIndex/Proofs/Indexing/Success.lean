import CodeIndex.Proofs.FileSystem.Clear
import CodeIndex.Proofs.Indexing.Aside
import CodeIndex.Proofs.Indexing.Footprint
import CodeIndex.Proofs.Tree.Shown

/-!
# When a run succeeds

Whether a full run succeeds is settled before it writes its first page: the project has to be read, and
the index has to accept every file that will be written. A run that finds no index makes one, which
accepts all files whose paths are not too long.
-/

namespace CodeIndex

open FileSystem

/-- Texts that are put into a directory beside a name do not decide whether it is accepted. -/
theorem FileSystem.accepts_putTexts_beside {fs : FileSystem} {dir : Path} {K : Location} {m : Text}
    (n : Text) (files : List (Text × Text)) :
    (fs.putTexts (K ++ [n]) files).Accepts dir K m ↔ fs.Accepts dir K m := by
  have hsame : ∀ loc, loc = K ∨ loc = K ++ [m] →
      (fs.putTexts (K ++ [n]) files).get? loc = fs.get? loc := by
    refine fun loc hloc => get?_putTexts_of_ne _ _ _ fun f _ heq => ?_
    rcases hloc with rfl | rfl
    · simpa using congrArg List.length heq
    · simpa using congrArg List.length heq
  refine Accepts.congr ?_ ?_
  · rw [isSearchableAt, isSearchableAt, hsame K (.inl rfl)]
  · rw [CanWrite, CanWrite, isWritableAt, isWritableAt, List.dropLast_concat, hsame K (.inl rfl),
      hsame _ (.inr rfl)]

/-- A main page is written wherever the tree of the project is drawn. -/
theorem Overview.exists_page {fs : FileSystem} {root indexDir : Path} {rules : IgnoreRules}
    {L : Location} {tree : Tree} (h : fs.PagesAt (indexDir.child pagesName) L)
    (htree : Tree.ofPath fs (.full rules.ignores treeDepth true treeFiles) root = .ok tree)
    (project : ProjectKind) (now : Timestamp) :
    ∃ content, page fs root indexDir project rules now = .ok content := by
  obtain ⟨denied, hget⟩ := isDirectoryAt_iff.1 h.directory
  have hlook := (look_eq_some_iff h.isFull).2 ⟨L, h.located, hget⟩
  have hnames : ∃ names, pageNames fs (indexDir.child pagesName) = .ok names := by
    unfold pageNames isPresent
    rw [hlook]
    cases hlist : fs.list (indexDir.child pagesName) with
    | ok names => exact ⟨_, rfl⟩
    | error failure => exact ⟨_, rfl⟩
  obtain ⟨names, hnames⟩ := hnames
  exact ⟨_, bind_ok_iff.2 ⟨tree, htree, bind_ok_iff.2 ⟨names, hnames, rfl⟩⟩⟩

/-- In a project without ignore files only the globs hold that are always there. -/
theorem IgnoreRules.load_of_missing {fs : FileSystem} {root : Path} (h : fs.Plain)
    (hopen : fs.AllOpen) (hroot : root.IsProper) (hdir : fs.isDirectoryAt root.names = true)
    (hshort : ∀ n ∈ fileNames, IsShort (root.child n))
    (hnone : ∀ n ∈ fileNames, fs.get? (root.names ++ [n]) = none) :
    load fs root [] = .ok ⟨root, builtIn⟩ := by
  have hnames : ∀ n ∈ fileNames, Path.IsName n := by decide
  have hpatterns : ∀ n ∈ fileNames, patternsAt fs (root.child n) = .ok [] := by
    intro n hn
    have hlook := look_missing h hopen hroot hdir (hnames n hn) (hshort n hn) (hnone n hn)
    unfold patternsAt isPresent
    rw [hlook]
    rfl
  unfold load added
  rw [resolve_of_isProper h hroot]
  dsimp only [bind, Except.bind]
  rw [mapM_congr (g := fun _ => .ok []) hpatterns]
  simp [fileNames, bind, Except.bind, pure, Except.pure]

namespace Indexing

open Metadata

variable {s : Setting} {fs begun : FileSystem} {rules : IgnoreRules} {old : Metadata}
  {project : ProjectKind}

/-- What a full run needs that has its index in the project: `begun` is the file system with a directory
for the pages. -/
structure Feasible (s : Setting) (fs : FileSystem) (rules : IgnoreRules) (old : Metadata)
    (project : ProjectKind) (begun : FileSystem) : Prop where
  rules_eq : IgnoreRules.load fs s.root [] = .ok rules
  old_eq : Metadata.load fs s.now s.indexDir = .ok old
  project_eq : ProjectKind.detect fs s.root = .ok project
  begun_eq : fs.ensureDirs s.pagesDir = .ok begun
  /-- The pages are accepted, and their files are seen. -/
  pages : Indexable s begun (s.indexDir.names ++ [Overview.pagesName])
    (Catalogue.collect fs s.registry rules s.root)
  records : Catalogue.collect fs s.registry rules s.root ≠ [] → old.HasRecords
  tree : ∃ t, Tree.ofPath begun
    (.full rules.ignores Overview.treeDepth true Overview.treeFiles) s.root = .ok t
  title : begun.Accepts s.indexDir s.indexDir.names Overview.fileName
  metadata : begun.Accepts s.indexDir s.indexDir.names Metadata.fileName
  /-- The metadata with the new records are not too deep. -/
  writable : (((old.setProjectType (.text project.kind)).mapRecords
    (recordsOf s fs (Catalogue.collect fs s.registry rules s.root))).touch s.now).isWritable = true

theorem Course.feasible (h : fs.Plain) (hs : s.Sound) (hin : s.Inside)
    (hfull : s.onlyChanged = false) (c : Course s fs) :
    Feasible s fs c.rules c.old c.project c.begun := by
  have hK := c.places_inside h hs hin
  obtain ⟨hpages, hrecords, hupdated, hpaged⟩ := c.paged_spec h hs hK
  have hindex := (c.pagesAt_paged h hs hK).1
  obtain ⟨htitle, hmeta, hwritable, -⟩ := c.final hindex
  rw [c.indexed_of_full hfull] at hpages hrecords hupdated hpaged
  rw [hpaged] at htitle hmeta hindex
  obtain ⟨t, htree, -⟩ := bind_ok_iff.1 c.content_eq
  refine
    { rules_eq := c.rules_eq
      old_eq := c.old_eq
      project_eq := c.project_eq
      begun_eq := c.begun_eq
      pages := hpages
      records := hrecords
      tree := ⟨t, ?_⟩
      title := (accepts_putTexts_beside _ _).1 htitle
      metadata := (accepts_putTexts_beside _ _).1 hmeta
      writable := hupdated ▸ hwritable }
  rw [hpaged] at htree
  rw [Overview.ofPath_congr (differBelow_putTexts hK.adds.plain hindex.plain)
    (get?_putTexts_of_ne _ _ _ fun f _ heq => ?_) hs.root hin.not_below
    (hin.eq hs ▸ hin.ignores hs h c.rules_eq)]
  · exact htree
  · simpa using congrArg List.length heq

/-- A run that is feasible goes all its way. -/
theorem Feasible.exists_course (hf : Feasible s fs rules old project begun) (h : fs.Plain)
    (hs : s.Sound) (hin : s.Inside) (hfull : s.onlyChanged = false) : Nonempty (Course s fs) := by
  obtain ⟨hadds, K, hindex, hpages⟩ := exists_pagesAt h hs hf.begun_eq
  obtain rfl : K = s.indexDir.names := locate_isProper hadds.plain (hin.isProper hs) hindex.located
  have hready : Ready s begun (s.indexDir.names ++ [Overview.pagesName])
      (Catalogue.collect fs s.registry rules s.root) := ready_collect h hs hadds hpages
  have hloop := (indexAll_on_ok_iff (m := old.setProjectType (.text project.kind)) hready).2
    ⟨hf.pages, hf.records, rfl, rfl⟩
  rw [indexAll, ← visitDirectory_of_full hfull] at hloop
  have hacc : ∀ f ∈ (Catalogue.collect fs s.registry rules s.root).flatMap (pagesOf s begun),
      begun.Accepts s.pagesDir (s.indexDir.names ++ [Overview.pagesName]) f.1 := by
    intro f hmem
    obtain ⟨x, hx, hmem⟩ := List.mem_flatMap.1 hmem
    exact hf.pages.accepts x hx f hmem
  generalize (Catalogue.collect fs s.registry rules s.root).flatMap (pagesOf s begun) = files
    at hloop hacc
  have hpaged := (hpages.putTexts hacc).1
  have hindex' := hindex.of_keepsDirs hpaged.plain (keepsDirs_putTexts hacc)
  -- the tree of the main page does not go into the index
  obtain ⟨tree, htree⟩ := hf.tree
  rw [Overview.ofPath_congr (differBelow_putTexts hadds.plain hpaged.plain)
    (get?_putTexts_of_ne _ _ _ fun f _ heq => by simpa using congrArg List.length heq) hs.root
    hin.not_below (hin.eq hs ▸ hin.ignores hs h hf.rules_eq)] at htree
  obtain ⟨content, hcontent⟩ := Overview.exists_page hpaged htree project s.now
  have htitle := (accepts_putTexts_beside Overview.pagesName files).2 hf.title
  have hmeta := (accepts_putTexts_beside Overview.pagesName files).2 hf.metadata
  have hwritable := hf.writable
  rw [← recordsOf_congr hadds.keepsSources h fun x hx p hp =>
    Catalogue.listed_of_mem h hs.root hx hp] at hwritable
  exact ⟨rules, old, project, begun, _, _, content, _, _, hf.rules_eq, hf.old_eq, hf.project_eq,
    hf.begun_eq, hloop, hcontent, (hindex'.write_ok_iff (by decide)).2 ⟨htitle, rfl⟩,
    (save_on_ok_iff (hindex'.put htitle)).2 ⟨hwritable, (accepts_put htitle).2 hmeta, rfl⟩⟩

/-- A full run with its index in the project succeeds exactly if it is feasible. -/
theorem full_run_succeeds_iff {now : Timestamp} {arguments : List Text} {o : CommandLine.Options}
    (hfs : fs.Plain) (hasks : Asks arguments o now fs s)
    (houtput : o.output = some CommandLine.defaultOutput) (hfull : o.update = false ∨ o.force = true) :
    (program .standard now arguments fs).result = .ok 0 ↔
      fs.isPresent s.root = .ok true ∧
        ∃ rules old project begun, Feasible s fs rules old project begun := by
  have hs := hasks.sound hfs
  have hin := inside_of_settingOf hasks.setting houtput
  have hmode := hasks.onlyChanged_of_full hfull
  constructor
  · intro hrun
    obtain ⟨-, -, hpresent, c, -⟩ := hasks.succeeds hrun
    exact ⟨hpresent, c.rules, c.old, c.project, c.begun, c.feasible hfs hs hin hmode⟩
  · rintro ⟨hpresent, rules, old, project, begun, hf⟩
    obtain ⟨c⟩ := hf.exists_course hfs hs hin hmode
    exact ((program_ok_zero_iff hasks.parse).2
      ⟨s, hasks.root, hasks.setting, hpresent, c, rfl⟩).1

/-- New records make no metadata too deep. -/
theorem isWritable_updated {L : Location} {xs : Catalogue} (h : fs.Plain) (hs : s.Sound)
    (hbegun : fs.ensureDirs s.pagesDir = .ok begun) (hready : Ready s begun L xs)
    (hok : Indexable s begun L xs) (hrecords : xs ≠ [] → old.HasRecords)
    (hw : old.isWritable = true) (kind : Text) (now : Timestamp) :
    (((old.setProjectType (.text kind)).mapRecords (recordsOf s begun xs)).touch now).isWritable =
      true := by
  have hloop := (indexAll_on_ok_iff (m := old.setProjectType (.text kind)) hready).2
    ⟨hok, hrecords, rfl, rfl⟩
  have hstart : Underway s fs old (old.setProjectType (.text kind)) begun :=
    ⟨spares_of_ensureDirs h hbegun hs.anchor hs.pagesDir_pieces,
      fun hw => isWritable_setProjectType hw _⟩
  have hend : Underway s fs old _ _ := (Action.Leaves.foldlM (fun m fs₁ x hx h₁ =>
    leaves_indexDirectory hs (hready.base x hx) h₁) hstart).of_on hloop
  exact isWritable_touch (hend.writable hw) now

/-- A project without an index, in which no directory is closed and no path is too long, those of the
index to come included. -/
structure Unindexed (s : Setting) (fs : FileSystem) (rules : IgnoreRules) : Prop where
  allOpen : fs.AllOpen
  root : fs.isDirectoryAt s.root.names = true
  new : fs.get? s.indexDir.names = none
  short : ∀ way e, fs.get? (s.root.names ++ way) = some e → IsShort (s.root.under way)
  index : ∀ n ∈ [Overview.pagesName, Overview.fileName, Metadata.fileName],
    IsShort (s.indexDir.child n)
  pages : ∀ x ∈ Catalogue.collect fs s.registry rules s.root, ∀ f ∈ pagesOf s fs x,
    IsShort (s.pagesDir.child f.1)

namespace Unindexed

theorem isClear (hu : Unindexed s fs rules) (h : fs.Plain) (hin : s.Inside) (n : Text) :
    fs.IsClear (s.indexDir.names ++ [n]) := by
  have hroot : fs.IsClear s.indexDir.names := by
    have hnew := hu.new
    rw [hin.names_eq] at hnew ⊢
    refine (isClear_of_isDirectoryAt h hu.root).concat fun e hget => ?_
    rw [hnew] at hget
    cases hget
  refine hroot.concat fun e hget => ?_
  rw [h.get?_below hu.new (List.prefix_append _ _)] at hget
  cases hget

theorem load_eq_fresh (hu : Unindexed s fs rules) (h : fs.Plain) (hs : s.Sound) (hin : s.Inside) :
    Metadata.load fs s.now s.indexDir = .ok (fresh s.now) := by
  have hlook : fs.look (s.indexDir.child Metadata.fileName) = .ok none :=
    (hu.isClear h hin _).look_eq_none h hu.allOpen ((hin.isProper hs).child (by decide))
      (hu.index _ (by simp)) (h.get?_below hu.new (List.prefix_append _ _))
  rw [load_eq, hlook]
  rfl

section Begun

variable (hu : Unindexed s fs rules) (h : fs.Plain) (hs : s.Sound) (hin : s.Inside)
  (hadds : AddsDirs fs begun (OnWay s.pagesDir.names))

include hu h hs hin hadds

/-- A new index has its two directories and nothing else. -/
theorem get?_begun {way : List Text} (hway : ¬s.indexDir.names ++ way <+: s.pagesDir.names) :
    begun.get? (s.indexDir.names ++ way) = none := by
  by_contra hne
  refine hway (hadds.prefix_of_ne ((hin.isProper hs).child isName_pagesName) ?_)
  rwa [h.get?_below hu.new (List.prefix_append _ _)]

theorem accepts_begun {n : Text} (hn : Path.IsName n) (hne : n ≠ Overview.pagesName)
    (hshort : IsShort (s.indexDir.child n)) : begun.Accepts s.indexDir s.indexDir.names n := by
  have hopen := hadds.allOpen hu.allOpen
  refine ⟨hn, hshort.path, hshort.names n (by simp), hopen.isSearchableAt _,
    .inl ⟨hu.get?_begun h hs hin hadds fun hle => ?_, hopen.isWritableAt _⟩⟩
  have heq := hle.eq_of_length (by simp [Setting.pagesDir])
  exact hne (by simpa [Setting.pagesDir] using heq)

theorem indexable (hready : Ready s begun (s.indexDir.names ++ [Overview.pagesName])
      (Catalogue.collect fs s.registry rules s.root)) :
    Indexable s begun (s.indexDir.names ++ [Overview.pagesName])
      (Catalogue.collect fs s.registry rules s.root) := by
  have hlisted : ∀ x ∈ Catalogue.collect fs s.registry rules s.root, ∀ p ∈ x.2,
      Catalogue.Listed fs s.registry s.root p := fun x hx p hp =>
    Catalogue.listed_of_mem h hs.root hx hp
  refine ⟨fun x hx f hf => ?_, fun x hx p hp => ?_⟩
  · rw [pagesOf_congr hadds.keepsSources h (hlisted x hx)] at hf
    have hshort := hu.pages x hx f hf
    have hopen := hadds.allOpen hu.allOpen
    refine ⟨Page.isName_of_mem_pageFiles (hready.base x hx) hf, hshort.path,
      hshort.names _ (by simp), hopen.isSearchableAt _, .inl ⟨?_, hopen.isWritableAt _⟩⟩
    rw [List.append_assoc]
    refine hu.get?_begun h hs hin hadds fun hle => ?_
    simpa [Setting.pagesDir] using hle.length_le
  · obtain ⟨e, hget⟩ := (hlisted x hx p hp).entry
    obtain ⟨way, hway⟩ := (hlisted x hx p hp).below
    have hproper := (hlisted x hx p hp).isProper
    have hshort : IsShort p := by
      have hpath : s.root.under way = p := by
        rw [Path.under, hway, hs.root.anchor, ← hproper.anchor]
      exact hpath ▸ hu.short way e (hway ▸ hget)
    have hkept := hadds.kept _ e hget
    exact ⟨e, (look_eq_some_iff hproper.isFull).2
      ⟨_, hshort.locate hadds.plain hproper ((hadds.allOpen hu.allOpen).openWay _) hkept .entry, hkept⟩⟩

omit h in
theorem exists_tree (view : View) : ∃ t, Tree.ofPath begun view s.root = .ok t := by
  rw [Tree.ofPath_eq hadds.plain hs.root]
  refine Tree.exists_ofDirectory hadds.plain hs.root (hadds.keepsDirs.isDirectoryAt hu.root)
    (fun way e hget => ?_) _ _
  by_cases hsame : begun.get? (s.root.names ++ way) = fs.get? (s.root.names ++ way)
  · exact hu.short way e (hsame ▸ hget)
  · have hproper := (hin.isProper hs).child isName_pagesName
    have hpages : IsShort ⟨.root, s.pagesDir.names⟩ := by
      have hpages := hu.index Overview.pagesName (by simp)
      rwa [← hproper.anchor]
    rw [Path.under, hs.root.anchor]
    exact hpages.mono (hadds.prefix_of_ne hproper hsame)

end Begun

/-- A run that finds no index has all that it needs. -/
theorem exists_feasible (hu : Unindexed s fs rules) (h : fs.Plain) (hs : s.Sound) (hin : s.Inside)
    (hrules : IgnoreRules.load fs s.root [] = .ok rules)
    (hproject : ProjectKind.detect fs s.root = .ok project) :
    ∃ begun, Feasible s fs rules (fresh s.now) project begun := by
  have hproper := (hin.isProper hs).child isName_pagesName
  obtain ⟨begun, hbegun⟩ := (hu.isClear h hin Overview.pagesName).exists_ensureDirs (p := s.pagesDir) h
    hu.allOpen hproper (hu.index _ (by simp))
  obtain ⟨hadds, K, hindexAt, hpagesAt⟩ := exists_pagesAt h hs hbegun
  obtain rfl : K = s.indexDir.names :=
    locate_isProper hadds.plain (hin.isProper hs) hindexAt.located
  have hready : Ready s begun (s.indexDir.names ++ [Overview.pagesName])
      (Catalogue.collect fs s.registry rules s.root) := ready_collect h hs hadds hpagesAt
  have hok := hu.indexable h hs hin hadds hready
  have hrecords : (fresh s.now).HasRecords := ⟨[], rfl⟩
  have hempty : (Json.obj []).depth ≤ maxDepth := by decide
  have hwritable : (fresh s.now).isWritable = true :=
    isWritable_iff.2 ⟨Nat.zero_le _, Nat.zero_le _, Nat.zero_le _, Nat.zero_le _, hempty⟩
  refine ⟨begun, hrules, hu.load_eq_fresh h hs hin, hproject, hbegun, hok, fun _ => hrecords,
    hu.exists_tree hs hin hadds _, ?_, ?_, ?_⟩
  · exact hu.accepts_begun h hs hin hadds (by decide) (by decide) (hu.index _ (by simp))
  · exact hu.accepts_begun h hs hin hadds (by decide) (by decide) (hu.index _ (by simp))
  · rw [← recordsOf_congr hadds.keepsSources h fun x hx p hp =>
      Catalogue.listed_of_mem h hs.root hx hp]
    exact isWritable_updated h hs hbegun hready hok (fun _ => hrecords) hwritable _ _

end Unindexed

/-- A full run in a project without an index succeeds if the kind of the project can be told, no directory
is closed and no path is too long. -/
theorem first_run_succeeds {now : Timestamp} {arguments : List Text} {o : CommandLine.Options}
    (hfs : fs.Plain) (hasks : Asks arguments o now fs s)
    (houtput : o.output = some CommandLine.defaultOutput) (hfull : o.update = false ∨ o.force = true)
    (hrules : IgnoreRules.load fs s.root [] = .ok rules)
    (hproject : ProjectKind.detect fs s.root = .ok project) (hu : Unindexed s fs rules) :
    (program .standard now arguments fs).result = .ok 0 := by
  have hs := hasks.sound hfs
  have hin := inside_of_settingOf hasks.setting houtput
  obtain ⟨begun, hf⟩ := hu.exists_feasible hfs hs hin hrules hproject
  refine (full_run_succeeds_iff hfs hasks houtput hfull).2 ⟨?_, rules, _, project, begun, hf⟩
  obtain ⟨denied, hroot⟩ := isDirectoryAt_iff.1 hu.root
  have hshort : IsShort s.root := by
    have hself := hu.short [] _ (by rwa [List.append_nil])
    rwa [Path.under_nil] at hself
  have hlook := (look_eq_some_iff hs.root.isFull).2
    ⟨_, hshort.locate hfs hs.root (hu.allOpen.openWay _) hroot .entry, hroot⟩
  rw [isPresent, hlook]
  rfl

/-- The project `/p` without an index and ignore files is indexed if no path is too long. -/
theorem sample_succeeds {xs : Catalogue} (h : fs.Plain) (hopen : fs.AllOpen)
    (hroot : fs.isDirectoryAt sampleSetting.root.names = true)
    (hnone : ∀ n ∈ CommandLine.defaultOutput :: IgnoreRules.fileNames,
      fs.get? (sampleSetting.root.names ++ [n]) = none)
    (hproject : ProjectKind.detect fs sampleSetting.root = .ok project)
    (hshort : ∀ x ∈ fs.entries, IsShort ⟨.root, x.1⟩)
    (hcollect : Catalogue.collect fs .standard ⟨sampleSetting.root, IgnoreRules.builtIn⟩
      sampleSetting.root = xs)
    (hpages : ∀ x ∈ xs, ∀ f ∈ pagesOf sampleSetting fs x,
      IsShort (sampleSetting.pagesDir.child f.1)) :
    IgnoreRules.load fs sampleSetting.root [] = .ok ⟨sampleSetting.root, IgnoreRules.builtIn⟩ ∧
      (program .standard sampleSetting.now ["/p".toList] fs).result = .ok 0 := by
  subst hcollect
  obtain ⟨hnew, hnone⟩ := List.forall_mem_cons.1 hnone
  have hrules := IgnoreRules.load_of_missing h hopen ⟨rfl, by decide⟩ hroot (by decide) hnone
  refine ⟨hrules, first_run_succeeds h (asks_sample h) rfl (.inl rfl) hrules hproject ?_⟩
  exact ⟨hopen, hroot, hnew, fun way e hget => isShort_of_entries hshort hget, by decide, hpages⟩

end Indexing

end CodeIndex
