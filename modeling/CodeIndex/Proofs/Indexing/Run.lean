import CodeIndex.Proofs.Indexing.Pages

/-!
# The course of a run

A run that succeeds goes through the same states in the same order: the pages have their directory, the
pages are written, the main page is written, the metadata are saved.
-/

namespace CodeIndex

namespace Metadata

variable {m : Metadata} {fs fs' : FileSystem} {dir : Path} {K : Location}

/-- Metadata are saved exactly if they can be written and their file can be. -/
theorem save_on_ok_iff (h : fs.PagesAt dir K) {u : Unit} :
    (m.save dir).on fs = .ok (u, fs') ↔
      m.isWritable = true ∧ fs.Accepts dir K fileName ∧
        fs' = fs.put (K ++ [fileName]) (FileSystem.written fs.host (Utf8.encode m.text)) := by
  have hensure : fs.ensureDirs dir = .ok fs :=
    FileSystem.ensureDirs_of_isDirectory h.plain h.isFull h.located h.directory
  have hname : Path.IsName fileName := by decide
  simp only [save_on_ok_iff_write, hensure, Except.ok.injEq, exists_eq_left', h.write_ok_iff hname]

end Metadata

namespace Indexing

open FileSystem Metadata

variable {s : Setting} {fs fs' : FileSystem} {m m' : Metadata} {xs : Catalogue}

/-- The states that a run goes through from the file system it finds. -/
structure Course (s : Setting) (fs : FileSystem) where
  rules : IgnoreRules
  old : Metadata
  project : ProjectKind
  /-- The file system with a directory for the pages. -/
  begun : FileSystem
  updated : Metadata
  /-- The file system with the pages on directories. -/
  paged : FileSystem
  content : Text
  /-- The file system with the main page. -/
  titled : FileSystem
  /-- The file system with the metadata, which the run leaves. -/
  saved : FileSystem
  rules_eq : IgnoreRules.load fs s.root [] = .ok rules
  old_eq : Metadata.load fs s.now s.indexDir = .ok old
  project_eq : ProjectKind.detect fs s.root = .ok project
  begun_eq : fs.ensureDirs s.pagesDir = .ok begun
  paged_eq : ((Catalogue.collect fs s.registry rules s.root).foldlM (visitDirectory s)
    (old.setProjectType (.text project.kind))).on begun = .ok (updated, paged)
  content_eq : Overview.page paged s.root s.indexDir project rules s.now = .ok content
  titled_eq : paged.write (s.indexDir.child Overview.fileName) (Utf8.encode content) = .ok titled
  saved_eq : ((updated.touch s.now).save s.indexDir).on titled = .ok ((), saved)

/-- The directories that a run finds. -/
def Course.catalogue (c : Course s fs) : Catalogue := Catalogue.collect fs s.registry c.rules s.root

/-- The metadata that a run starts its pages with. -/
def Course.start (c : Course s fs) : Metadata := c.old.setProjectType (.text c.project.kind)

@[simp]
theorem visitDirectory_quiet (s : Setting) (m : Metadata) (x : Text × List Path) :
    (visitDirectory s m x).Quiet := by
  unfold visitDirectory
  split
  · refine (Action.Quiet.ask _).bind fun changed => ?_
    split
    · exact indexDirectory_quiet s m x.1 x.2
    · exact Action.Quiet.pure m
  · exact indexDirectory_quiet s m x.1 x.2

/-- A full run leaves out no directory. -/
theorem visitDirectory_of_full (hfull : s.onlyChanged = false) :
    visitDirectory s = fun m x => indexDirectory s m x.1 x.2 := by
  funext m x
  simp [visitDirectory, hfull]

theorem index_on_ok_iff :
    (index s).on fs = .ok ((), fs') ↔ ∃ c : Course s fs, c.saved = fs' := by
  have hloop : ∀ c m, Action.Quiet (List.foldlM (visitDirectory s) m c) :=
    fun c m => Action.Quiet.foldlM (visitDirectory_quiet s) m c
  rw [Action.on_ok_iff]
  unfold index Overview.write
  simp only [Action.bind_ok_iff, Action.ask_ok_iff, Action.print_ok_iff, Action.change_ok_iff,
    Action.writeText]
  constructor
  · rintro ⟨out, -, σ, rfl, h⟩
    obtain ⟨rules, σ, ⟨hrules, rfl⟩, h⟩ := h
    obtain ⟨old, σ, ⟨hold, rfl⟩, h⟩ := h
    obtain ⟨project, σ, ⟨hproject, rfl⟩, h⟩ := h
    obtain ⟨-, σ, rfl, -, σ, rfl, -, σ, rfl, h⟩ := h
    obtain ⟨catalogue, σ, ⟨hcatalogue, rfl⟩, h⟩ := h
    obtain rfl := Except.ok.inj hcatalogue
    obtain ⟨-, σ, rfl, -, σ, ⟨begun, hbegun, rfl⟩, h⟩ := h
    obtain ⟨updated, ⟨paged, out₁⟩, hpaged, h⟩ := h
    obtain ⟨-, σ, rfl, -, σ, ⟨content, σ, ⟨hcontent, rfl⟩, titled, htitled, rfl⟩, h⟩ := h
    obtain ⟨u, ⟨saved, out₂⟩, hsaved, -, σ, rfl, hend⟩ := h
    cases hend
    exact ⟨⟨rules, old, project, begun, updated, paged, content, titled, saved, hrules, hold,
      hproject, hbegun, ((hloop _ _).on_ok_iff _).2 ⟨_, hpaged⟩, hcontent, htitled,
      ((save_quiet _ _).on_ok_iff _).2 ⟨_, hsaved⟩⟩, rfl⟩
  · rintro ⟨c, rfl⟩
    obtain ⟨out₁, hpaged⟩ := ((hloop _ _).on_ok_iff _).1 c.paged_eq
    obtain ⟨out₂, hsaved⟩ := ((save_quiet _ _).on_ok_iff _).1 c.saved_eq
    exact ⟨_, (), _, rfl, c.rules, _, ⟨c.rules_eq, rfl⟩, c.old, _, ⟨c.old_eq, rfl⟩, c.project, _,
      ⟨c.project_eq, rfl⟩, (), _, rfl, (), _, rfl, (), _, rfl, _, _, ⟨rfl, rfl⟩, (), _, rfl, (), _,
      ⟨c.begun, c.begun_eq, rfl⟩, c.updated, _, hpaged, (), _, rfl, (), _,
      ⟨c.content, _, ⟨c.content_eq, rfl⟩, c.titled, c.titled_eq, rfl⟩, (), _, hsaved, (), _, rfl, rfl⟩

/-- What a command line can ask for: a root that is written out, and an index directory that does not
depend on the current one. -/
structure Setting.Sound (s : Setting) : Prop where
  root : s.root.IsProper
  anchor : s.indexDir.anchor ≠ .relative
  pieces : ∀ n ∈ s.indexDir.names, Path.IsPiece n
  spares : s.registry.SparesPages

theorem settingOf_eq {registry : Registry} {now : Timestamp} {o : CommandLine.Options}
    {root : Path} (hs : settingOf registry now o root = .ok s) :
    ∃ output, o.output = some output ∧
      s = ⟨registry, now, root, root.join (Path.ofText output), o.update && !o.force⟩ := by
  unfold settingOf at hs
  split at hs
  · cases hs
  · next output houtput =>
    cases hs
    exact ⟨output, houtput, rfl⟩

theorem sound_of_settingOf {registry : Registry} {now : Timestamp} {o : CommandLine.Options}
    {root : Path} (hspares : registry.SparesPages) (hroot : root.IsProper)
    (hs : settingOf registry now o root = .ok s) : s.Sound := by
  obtain ⟨output, -, rfl⟩ := settingOf_eq hs
  have hpieces : ∀ n ∈ (Path.ofText output).names, Path.IsPiece n :=
    fun n hn => Path.isPiece_of_mem_ofText hn
  refine ⟨hroot, ?_, fun n hn => ?_, hspares⟩
  · unfold Path.join
    split
    · exact hroot.isFull.anchor
    · next ha => exact ha
  · unfold Path.join at hn
    split at hn
    · rcases List.mem_append.1 hn with hn | hn
      · exact (hroot.names n hn).toIsPiece
      · exact hpieces n hn
    · exact hpieces n hn

theorem isName_pagesName : Path.IsName Overview.pagesName := by decide

/-- Where a run finds the index and the pages once their directories are made. -/
structure Course.Places (c : Course s fs) (K : Location) : Prop where
  adds : AddsDirs fs c.begun (OnWay s.pagesDir.names)
  index : c.begun.PagesAt s.indexDir K
  pages : c.begun.PagesAt s.pagesDir (K ++ [Overview.pagesName])

/-- Where the index and its pages lie in a file system in which their directories were made. -/
theorem exists_pagesAt (h : fs.Plain) (hs : s.Sound) {begun : FileSystem}
    (hbegun : fs.ensureDirs s.pagesDir = .ok begun) :
    AddsDirs fs begun (OnWay s.pagesDir.names) ∧
      ∃ K, begun.PagesAt s.indexDir K ∧ begun.PagesAt s.pagesDir (K ++ [Overview.pagesName]) := by
  have hnull := hasNull_of_ensureDirs hbegun
  have hindex : s.indexDir.IsFull := by
    refine ⟨hs.anchor, hs.pieces, Path.hasNull_eq_false_iff.2 fun n hn => ?_⟩
    exact Path.hasNull_eq_false_iff.1 hnull n (List.mem_append_left _ hn)
  have hpages : s.pagesDir.IsFull := hindex.child isName_pagesName
  obtain ⟨hadds, L, hL, hdir⟩ := ensureDirs_ok h hpages hbegun
  obtain ⟨K, rfl, hK, hKdir, -⟩ :=
    exists_dir_of_locate_child hadds.plain hindex isName_pagesName hL
  exact ⟨hadds, K, ⟨hadds.plain, hindex, hK, hKdir⟩, hadds.plain, hpages, hL, hdir⟩

theorem Course.exists_places (h : fs.Plain) (hs : s.Sound) (c : Course s fs) :
    ∃ K, c.Places K := by
  obtain ⟨hadds, K, hindex, hpages⟩ := exists_pagesAt h hs c.begun_eq
  exact ⟨K, hadds, hindex, hpages⟩

theorem isBase_of_mem_collect {rules : IgnoreRules} (h : fs.Plain) (hroot : s.root.IsProper)
    {x : Text × List Path} (hx : x ∈ Catalogue.collect fs s.registry rules s.root) :
    Page.IsBase (pageBase x.1) := by
  obtain ⟨dir, hdir, hbelow, hkey, -⟩ := Catalogue.exists_visit_of_mem h hroot hx
  obtain ⟨below, hnames⟩ := hbelow
  refine isBase_pageBase fun hnull => ?_
  rw [hkey, Catalogue.directoryKey_eq (hdir.anchor.trans hroot.anchor.symm) hnames.symm] at hnull
  rcases Path.mem_joinNames hnull with hslash | ⟨n, hn, hmem⟩
  · exact absurd hslash (by decide)
  · exact (hdir.names n (hnames ▸ List.mem_append_right _ hn)).null hmem

/-- A file system with a directory for the pages has all that the pages are made from. -/
theorem ready_collect {begun : FileSystem} {place : Location → Prop} {L : Location}
    {rules : IgnoreRules} (h : fs.Plain) (hs : s.Sound) (hadds : AddsDirs fs begun place)
    (hpages : begun.PagesAt s.pagesDir L) :
    Ready s begun L (Catalogue.collect fs s.registry rules s.root) where
  pages := hpages
  spares := hs.spares
  root := hs.root
  listed := fun _ hx _ hp =>
    hadds.keepsSources.listed h (Catalogue.listed_of_mem h hs.root hx hp)
  nonempty := fun _ hx => (Catalogue.mem_collect_iff.1 hx).1
  base := fun _ hx => isBase_of_mem_collect h hs.root hx

/-- A run finds all it needs for its pages. -/
theorem Course.ready (h : fs.Plain) (hs : s.Sound) (c : Course s fs) {K : Location}
    (hK : c.Places K) : Ready s c.begun (K ++ [Overview.pagesName]) c.catalogue :=
  ready_collect h hs hK.adds hK.pages

theorem Course.listed (h : fs.Plain) (hs : s.Sound) (c : Course s fs) {x : Text × List Path}
    (hx : x ∈ c.catalogue) : ∀ p ∈ x.2, Catalogue.Listed fs s.registry s.root p :=
  fun _ hp => Catalogue.listed_of_mem h hs.root hx hp

/-- The main page and the metadata stand beside the pages. -/
theorem Course.final (c : Course s fs) {K : Location}
    (hK : c.paged.PagesAt s.indexDir K) :
    c.paged.Accepts s.indexDir K Overview.fileName ∧
      c.paged.Accepts s.indexDir K Metadata.fileName ∧
      (c.updated.touch s.now).isWritable = true ∧
      c.saved = (c.paged.put (K ++ [Overview.fileName])
        (written c.paged.host (Utf8.encode c.content))).put (K ++ [Metadata.fileName])
        (written c.paged.host (Utf8.encode (c.updated.touch s.now).text)) := by
  have hname : Path.IsName Overview.fileName := by decide
  obtain ⟨hacc, htitled⟩ := (hK.write_ok_iff hname).1 c.titled_eq
  have hsaved := c.saved_eq
  rw [htitled, save_on_ok_iff (hK.put hacc), accepts_put hacc] at hsaved
  exact ⟨hacc, hsaved.2.1, hsaved.1, hsaved.2.2⟩

/-- What a run leaves beside the main page and the metadata is what its pages left. -/
theorem Course.after (c : Course s fs) {K : Location} (hK : c.paged.PagesAt s.indexDir K) :
    c.saved.PagesAt s.indexDir K ∧ KeepsDirs c.paged c.saved ∧
      ∀ loc, loc ≠ K ++ [Overview.fileName] → loc ≠ K ++ [Metadata.fileName] →
        c.saved.get? loc = c.paged.get? loc := by
  obtain ⟨htitle, hmeta, -, hsaved⟩ := c.final hK
  have hmeta' : (c.paged.put (K ++ [Overview.fileName])
      (written c.paged.host (Utf8.encode c.content))).Accepts s.indexDir K Metadata.fileName :=
    (accepts_put htitle).2 hmeta
  rw [hsaved]
  refine ⟨(hK.put htitle).put hmeta', ?_, fun loc hloc hloc' => ?_⟩
  · exact (keepsDirs_put (by simp) htitle.canWrite.not_directory).trans
      (keepsDirs_put (by simp) hmeta'.canWrite.not_directory)
  · rw [get?_put _ (by simp), if_neg hloc', get?_put _ (by simp), if_neg hloc]

/-- A command line that asks for a run with a setting succeeds, and leaves a file system. -/
structure Succeeds (registry : Registry) (now : Timestamp) (o : CommandLine.Options)
    (s : Setting) (fs fs' : FileSystem) : Prop where
  root : fs.resolve (Path.ofText o.project) = .ok s.root
  setting : settingOf registry now o s.root = .ok s
  present : fs.isPresent s.root = .ok true
  course : ∃ c : Course s fs, c.saved = fs'

theorem run_on_ok_zero_iff {registry : Registry} {now : Timestamp} {o : CommandLine.Options} :
    (run registry now o).on fs = .ok (0, fs') ↔ ∃ s, Succeeds registry now o s fs fs' := by
  unfold run
  rw [Action.on_ok_iff]
  simp only [Action.bind_ok_iff, Action.ask_ok_iff]
  constructor
  · rintro ⟨out, root, -, ⟨hroot, rfl⟩, s, -, ⟨hs, rfl⟩, present, -, ⟨hpresent, rfl⟩, hrest⟩
    obtain rfl : s.root = root := by
      obtain ⟨output, -, rfl⟩ := settingOf_eq hs
      rfl
    cases present with
    | false =>
      obtain ⟨u, σ, hprint, hend⟩ := Action.bind_ok_iff.1 hrest
      cases hend
    | true =>
      obtain ⟨u, σ, hindex, hend⟩ := Action.bind_ok_iff.1 hrest
      cases hend
      exact ⟨s, hroot, hs, hpresent, index_on_ok_iff.1 (Action.on_ok_iff.2 ⟨out, hindex⟩)⟩
  · rintro ⟨s, hroot, hs, hpresent, hcourse⟩
    obtain ⟨out, hindex⟩ := Action.on_ok_iff.1 (index_on_ok_iff.2 hcourse)
    exact ⟨out, s.root, _, ⟨hroot, rfl⟩, s, _, ⟨hs, rfl⟩, true, _, ⟨hpresent, rfl⟩,
      Action.bind_ok_iff.2 ⟨(), _, hindex, rfl⟩⟩

/-- What the program does with a command line that asks for a run. -/
theorem program_ok_zero_iff {registry : Registry} {now : Timestamp} {arguments : List Text}
    {o : CommandLine.Options} (hparse : CommandLine.parse arguments = .run o) :
    (program registry now arguments fs).result = .ok 0 ∧
        (program registry now arguments fs).fs = fs' ↔
      ∃ s, Succeeds registry now o s fs fs' := by
  rw [← run_on_ok_zero_iff, Action.on_ok_iff]
  unfold program perform
  simp only [hparse]
  cases hrun : run registry now o ⟨fs, []⟩ with
  | ok code σ =>
    simp only [Except.ok.injEq, EStateM.Result.ok.injEq]
    constructor
    · rintro ⟨rfl, rfl⟩
      exact ⟨σ.printed, rfl, rfl⟩
    · rintro ⟨out, rfl, rfl⟩
      exact ⟨rfl, rfl⟩
  | error e σ => simp

/-- A command line asks for a run of the program with a setting. -/
structure Asks (arguments : List Text) (o : CommandLine.Options) (now : Timestamp)
    (fs : FileSystem) (s : Setting) : Prop where
  parse : CommandLine.parse arguments = .run o
  root : fs.resolve (Path.ofText o.project) = .ok s.root
  setting : settingOf .standard now o s.root = .ok s

namespace Asks

variable {arguments : List Text} {o : CommandLine.Options} {now : Timestamp}

theorem registry_eq (h : Asks arguments o now fs s) : s.registry = .standard := by
  obtain ⟨output, -, hs⟩ := settingOf_eq h.setting
  exact congrArg Setting.registry hs

theorem onlyChanged_eq (h : Asks arguments o now fs s) : s.onlyChanged = (o.update && !o.force) := by
  obtain ⟨output, -, hs⟩ := settingOf_eq h.setting
  exact congrArg Setting.onlyChanged hs

theorem onlyChanged_of_full (h : Asks arguments o now fs s)
    (hfull : o.update = false ∨ o.force = true) : s.onlyChanged = false := by
  rw [h.onlyChanged_eq]
  rcases hfull with hupdate | hforce
  · simp [hupdate]
  · simp [hforce]

theorem now_eq (h : Asks arguments o now fs s) : s.now = now := by
  obtain ⟨output, -, hs⟩ := settingOf_eq h.setting
  exact congrArg Setting.now hs

theorem sound (h : Asks arguments o now fs s) (hfs : fs.Plain) : s.Sound :=
  sound_of_settingOf Registry.standard_sparesPages
    (resolve_isProper hfs (fun _ hn => Path.isPiece_of_mem_ofText hn) h.root) h.setting

theorem succeeds (h : Asks arguments o now fs s)
    (hrun : (program .standard now arguments fs).result = .ok 0) :
    Succeeds .standard now o s fs (program .standard now arguments fs).fs := by
  obtain ⟨s', hrun'⟩ := (program_ok_zero_iff h.parse).1 ⟨hrun, rfl⟩
  have hroots : s.root = s'.root := Except.ok.inj (h.root.symm.trans hrun'.root)
  have hsame : s = s' := Except.ok.inj (h.setting.symm.trans (hroots ▸ hrun'.setting))
  exact hsame ▸ hrun'

end Asks

/-- A full run over the project `/p`, with its index in the place it has by default. -/
def sampleSetting : Setting :=
  ⟨.standard, ⟨2024, 1, 1, 0, 0, 0, 0⟩, ⟨.root, ["p".toList]⟩,
    ⟨.root, ["p".toList, "project-index".toList]⟩, false⟩

theorem resolve_sample (h : fs.Plain) :
    fs.resolve (Path.ofText "/p".toList) = .ok sampleSetting.root :=
  resolve_of_isProper h ⟨rfl, by decide⟩

theorem asks_sample (h : fs.Plain) :
    Asks ["/p".toList] ⟨"/p".toList, some CommandLine.defaultOutput, false, false⟩ sampleSetting.now fs
      sampleSetting :=
  ⟨rfl, resolve_sample h, rfl⟩

def sampleUpdate : Setting := { sampleSetting with onlyChanged := true }

theorem asks_sampleUpdate (h : fs.Plain) :
    Asks ["/p".toList, "--update".toList] ⟨"/p".toList, some CommandLine.defaultOutput, true, false⟩
      sampleUpdate.now fs sampleUpdate :=
  ⟨rfl, resolve_sample h, rfl⟩

end Indexing

end CodeIndex
