import CodeIndex.Proofs.FileSystem.Below
import CodeIndex.Proofs.Indexing.Selection

/-!
# An index in its project

By default an index lies in the root of its project, under a name that is always ignored. What a run
finds of the project then does not depend on what is in the index.
-/

namespace CodeIndex

variable {fs fs' : FileSystem} {K : Location} {root : Path} {n : Text}

namespace FileSystem.DifferBelow

/-- Beside a directory in which they may differ, two file systems have the same entries. -/
theorem agreeAlong_child (h : DifferBelow K fs fs') (hbelow : ¬K <+: root.names)
    (hne : root.names ++ [n] ≠ K) : AgreeAlong fs fs' (root.child n).names :=
  h.agreeAlong (not_below_child hbelow hne)

theorem isPresent_child (h : DifferBelow K fs fs') (hroot : root.IsProper)
    (hbelow : ¬K <+: root.names) (hn : Path.IsName n) (hne : root.names ++ [n] ≠ K) :
    fs.isPresent (root.child n) = fs'.isPresent (root.child n) :=
  isPresent_congr h.plain h.plain' (hroot.child hn) (h.agreeAlong_child hbelow hne)

theorem read_child (h : DifferBelow K fs fs') (hroot : root.IsProper)
    (hbelow : ¬K <+: root.names) (hn : Path.IsName n) (hne : root.names ++ [n] ≠ K) :
    fs.read (root.child n) = fs'.read (root.child n) :=
  read_congr h.plain h.plain' (hroot.child hn) (h.agreeAlong_child hbelow hne)

end FileSystem.DifferBelow

open FileSystem

/-- The same rules are found. -/
theorem IgnoreRules.load_congr (h : DifferBelow K fs fs') (hroot : root.IsProper)
    (hbelow : ¬K <+: root.names) (hK : ∀ n ∈ fileNames, root.names ++ [n] ≠ K)
    (custom : List Text) : load fs root custom = load fs' root custom := by
  have hnames : ∀ n ∈ fileNames, Path.IsName n := by decide
  have hpatterns : ∀ n ∈ fileNames, patternsAt fs (root.child n) = patternsAt fs' (root.child n) := by
    intro n hn
    unfold patternsAt
    rw [h.isPresent_child hroot hbelow (hnames n hn) (hK n hn),
      h.read_child hroot hbelow (hnames n hn) (hK n hn)]
  unfold load added
  rw [resolve_of_isProper h.plain hroot, resolve_of_isProper h.plain' hroot]
  dsimp only [bind, Except.bind]
  rw [mapM_congr hpatterns]

theorem filterAuxM_congr {ε α : Type} {f g : α → Except ε Bool} {as : List α}
    (h : ∀ a ∈ as, f a = g a) (found : List α) :
    List.filterAuxM f as found = List.filterAuxM g as found := by
  induction as generalizing found with
  | nil => rfl
  | cons a as ih =>
    have hrest : ∀ found, List.filterAuxM f as found = List.filterAuxM g as found :=
      ih fun b hb => h b (List.mem_cons_of_mem _ hb)
    simp only [List.filterAuxM, h a List.mem_cons_self, hrest]

/-- The same is found of the project. -/
theorem ProjectKind.evidence_congr (h : DifferBelow K fs fs') (hroot : root.IsProper)
    (hbelow : ¬K <+: root.names) (hK : ∀ x ∈ indicators, root.names ++ [x.1] ≠ K) :
    evidence fs root = evidence fs' root := by
  have hnames : ∀ x ∈ indicators, Path.IsName x.1 := by decide
  have hpresent : ∀ x ∈ indicators, fs.isPresent (root.child x.1) = fs'.isPresent (root.child x.1) :=
    fun x hx => h.isPresent_child hroot hbelow (hnames x hx) (hK x hx)
  obtain ⟨manifest, hmem, hname⟩ : ∃ x ∈ indicators, x.1 = "package.json".toList := by decide
  have hstack : manifestStack fs root = manifestStack fs' root := by
    unfold manifestStack
    rw [← hname, h.read_child hroot hbelow (hnames _ hmem) (hK _ hmem)]
  unfold evidence List.filterM
  rw [hstack, filterAuxM_congr hpresent]

theorem ProjectKind.detect_ok_iff {project : ProjectKind} : detect fs root = .ok project ↔
    ∃ found, evidence fs root = .ok found ∧ project = arranged fs.host.sets found := by
  unfold detect
  cases evidence fs root with
  | error failure => simp [Functor.map, Except.map]
  | ok found => simpa [Functor.map, Except.map] using eq_comm

namespace Overview

/-- The same pages are linked. -/
theorem pageNames_congr {pages : Path} (h : fs.Plain) (h' : fs'.Plain) (hpages : pages.IsProper)
    (hlisting : fs'.host.listing = fs.host.listing) (hag : AgreeAlong fs fs' pages.names)
    (hin : ∀ v, fs.get? (pages.names ++ [v]) = fs'.get? (pages.names ++ [v])) :
    pageNames fs pages = pageNames fs' pages := by
  unfold pageNames
  rw [isPresent_congr h h' hpages hag, list_congr h h' hpages hag (childNames_congr hlisting hin)]

/-- The same tree is drawn. -/
theorem ofPath_congr {view : View} (h : DifferBelow K fs fs') (hK : fs'.get? K = fs.get? K)
    (hroot : root.IsProper) (hbelow : ¬K <+: root.names) (hhidden : view.hides ⟨.root, K⟩ = true) :
    Tree.ofPath fs view root = Tree.ofPath fs' view root := by
  unfold Tree.ofPath
  rw [resolve_of_isProper h.plain hroot, resolve_of_isProper h.plain' hroot]
  exact Tree.ofDirectory_congr h hK hhidden hroot hbelow

/-- The same main page is written. -/
theorem page_congr {indexDir : Path} {rules : IgnoreRules} (h : DifferBelow K fs fs')
    (hK : fs'.get? K = fs.get? K) (hroot : root.IsProper) (hbelow : ¬K <+: root.names)
    (hignored : rules.ignores ⟨.root, K⟩ = true)
    (hpages : pageNames fs (indexDir.child pagesName) = pageNames fs' (indexDir.child pagesName))
    (project : ProjectKind) (now : Timestamp) :
    page fs root indexDir project rules now = page fs' root indexDir project rules now := by
  unfold page
  rw [ofPath_congr h hK hroot hbelow hignored, hpages]

end Overview

/-- Texts that are put into a directory change nothing outside the one it lies in. -/
theorem FileSystem.differBelow_putTexts {files : List (Text × Text)} (h : fs.Plain)
    (h' : (fs.putTexts (K ++ [n]) files).Plain) :
    DifferBelow K fs (fs.putTexts (K ++ [n]) files) := by
  refine ⟨h, h', by rw [putTexts_host], fun loc hloc => get?_putTexts_of_ne _ _ _ fun f _ heq =>
    hloc ?_⟩
  rw [heq, List.append_assoc]
  exact List.prefix_append _ _

theorem FileSystem.PagesAt.isDir {dir : Path} (h : fs.PagesAt dir K) : fs.isDir dir = true := by
  obtain ⟨denied, hget⟩ := isDirectoryAt_iff.1 h.directory
  unfold FileSystem.isDir stat answer
  rw [h.isFull.null]
  simp [h.located, hget, bind, Except.bind, pure, Except.pure, Entry.isDirectory]

namespace Indexing

variable {s : Setting}

/-- The index lies in the root of its project, where it lies by default. -/
def Setting.Inside (s : Setting) : Prop := s.indexDir = s.root.child CommandLine.defaultOutput

theorem isName_defaultOutput : Path.IsName CommandLine.defaultOutput := by decide

theorem inside_of_settingOf {registry : Registry} {now : Timestamp} {o : CommandLine.Options}
    {root : Path} (hs : settingOf registry now o root = .ok s)
    (houtput : o.output = some CommandLine.defaultOutput) : s.Inside := by
  obtain ⟨output, hout, rfl⟩ := settingOf_eq hs
  obtain rfl := Option.some.inj (houtput.symm.trans hout)
  exact Path.join_isName root isName_defaultOutput

theorem Setting.Inside.isProper (hin : s.Inside) (hs : s.Sound) : s.indexDir.IsProper :=
  hin ▸ hs.root.child isName_defaultOutput

theorem Setting.Inside.names_eq (hin : s.Inside) :
    s.indexDir.names = s.root.names ++ [CommandLine.defaultOutput] := by
  rw [hin]
  rfl

theorem Setting.Inside.not_below (hin : s.Inside) : ¬s.indexDir.names <+: s.root.names := by
  intro hbelow
  have hlength := hbelow.length_le
  rw [hin.names_eq, List.length_append, List.length_singleton] at hlength
  omega

/-- The directory of the index is ignored. -/
theorem Setting.Inside.ignores (hin : s.Inside) (hs : s.Sound) (h : fs.Plain) {rules : IgnoreRules}
    (hrules : IgnoreRules.load fs s.root [] = .ok rules) : rules.ignores s.indexDir = true := by
  obtain ⟨root, hroot, hrules⟩ := bind_ok_iff.1 hrules
  obtain ⟨patterns, -, hpure⟩ := bind_ok_iff.1 hrules
  obtain rfl := Except.ok.inj ((resolve_of_isProper h hs.root).symm.trans hroot)
  cases hpure
  have hrel : s.indexDir.relativeTo? s.root = some ⟨.relative, [CommandLine.defaultOutput]⟩ :=
    Path.relativeTo?_eq_some.2 ⟨by rw [hin]; rfl, rfl, hin.names_eq⟩
  have hname : s.indexDir.name = CommandLine.defaultOutput := by
    rw [hin]
    simp [Path.name]
  refine List.any_eq_true.2 ⟨CommandLine.defaultOutput, List.mem_append_left _ (by decide), ?_⟩
  rw [IgnoreRules.fromRoot, hrel, hname, Option.getD_some]
  decide +kernel

theorem Setting.Inside.eq (hin : s.Inside) (hs : s.Sound) :
    (⟨.root, s.indexDir.names⟩ : Path) = s.indexDir := by
  rw [← (hin.isProper hs).anchor]

/-- Where only the index differs, the project is the same: it has the same rules, the same is found of
it, and the same files are catalogued. -/
theorem Setting.Inside.project_congr (hin : s.Inside) (hs : s.Sound)
    (hdiffer : DifferBelow s.indexDir.names fs fs') :
    IgnoreRules.load fs s.root [] = IgnoreRules.load fs' s.root [] ∧
      ProjectKind.evidence fs s.root = ProjectKind.evidence fs' s.root ∧
      ∀ rules : IgnoreRules, fs.LeftOut s.indexDir.names rules.ignores →
        fs'.LeftOut s.indexDir.names rules.ignores →
        Catalogue.collect fs s.registry rules s.root =
          Catalogue.collect fs' s.registry rules s.root := by
  have hbeside : ∀ n, n ≠ CommandLine.defaultOutput → s.root.names ++ [n] ≠ s.indexDir.names := by
    intro n hne heq
    rw [hin.names_eq] at heq
    exact hne (by simpa using heq)
  have hfiles : ∀ n ∈ IgnoreRules.fileNames, n ≠ CommandLine.defaultOutput := by decide
  have hindicators : ∀ x ∈ ProjectKind.indicators, x.1 ≠ CommandLine.defaultOutput := by decide
  exact ⟨IgnoreRules.load_congr hdiffer hs.root hin.not_below (fun n hn => hbeside n (hfiles n hn)) [],
    ProjectKind.evidence_congr hdiffer hs.root hin.not_below fun x hx =>
      hbeside x.1 (hindicators x hx),
    fun _ hout hout' => Catalogue.collect_congr s.registry hdiffer hout hout' hs.root hin.not_below⟩

namespace Course

variable {c : Course s fs}

theorem places_inside (h : fs.Plain) (hs : s.Sound) (hin : s.Inside) (c : Course s fs) :
    c.Places s.indexDir.names := by
  obtain ⟨K, hK⟩ := c.exists_places h hs
  rwa [← locate_isProper hK.adds.plain (hin.isProper hs) hK.index.located]

/-- The directories that a run makes for its index are made in the root of the project. -/
theorem differ_begun (h : fs.Plain) (hs : s.Sound) (hin : s.Inside)
    (hthere : ∃ e, fs.get? s.root.names = some e) (c : Course s fs) :
    DifferBelow s.indexDir.names fs c.begun := by
  have hadds := (c.places_inside h hs hin).adds
  refine ⟨h, hadds.plain, by rw [hadds.host], fun loc hloc => ?_⟩
  cases hget : fs.get? loc with
  | some e => exact hadds.kept loc e hget
  | none =>
    refine (hadds.new loc hget).resolve_right fun hnew => ?_
    have hpieces : ∀ n ∈ s.pagesDir.names, n ≠ ['.', '.'] := fun n hn =>
      (((hin.isProper hs).child isName_pagesName).names n hn).ne_dots
    have hway : loc <+: s.indexDir.names ++ [Overview.pagesName] := hnew.2 hpieces
    have habove : loc <+: s.root.names := by
      rcases List.prefix_concat_iff.1 hway with heq | hway
      · exact absurd (heq ▸ List.prefix_append _ _) hloc
      · rw [hin.names_eq] at hway hloc
        refine (List.prefix_concat_iff.1 hway).resolve_left fun heq => hloc ?_
        exact heq ▸ List.prefix_refl _
    obtain ⟨e, hroot⟩ := hthere
    by_cases heq : loc = s.root.names
    · rw [heq, hroot] at hget
      cases hget
    · obtain ⟨denied, hdir⟩ := isDirectoryAt_iff.1 (h.isDirectoryAt_above hroot habove heq)
      rw [hdir] at hget
      cases hget

/-- A run changes nothing but its index. -/
theorem differ_paged (h : fs.Plain) (hs : s.Sound) (hin : s.Inside)
    (hthere : ∃ e, fs.get? s.root.names = some e) (c : Course s fs) :
    DifferBelow s.indexDir.names fs c.paged := by
  have hK := c.places_inside h hs hin
  have hplain := (c.pagesAt_paged h hs hK).1.plain
  rw [(c.paged_spec h hs hK).2.2.2] at hplain ⊢
  exact (c.differ_begun h hs hin hthere).trans (differBelow_putTexts hK.adds.plain hplain)

theorem differ_saved (h : fs.Plain) (hs : s.Sound) (hin : s.Inside)
    (hthere : ∃ e, fs.get? s.root.names = some e) (c : Course s fs) :
    DifferBelow s.indexDir.names fs c.saved := by
  have hindex := (c.pagesAt_paged h hs (c.places_inside h hs hin)).1
  obtain ⟨hpages, -, hget⟩ := c.after hindex
  have hhost : c.saved.host = c.paged.host := by rw [(c.final hindex).2.2.2, put_host, put_host]
  refine (c.differ_paged h hs hin hthere).trans
    ⟨hindex.plain, hpages.plain, by rw [hhost], fun loc hloc => hget loc ?_ ?_⟩
  · exact fun heq => hloc (heq ▸ List.prefix_append _ _)
  · exact fun heq => hloc (heq ▸ List.prefix_append _ _)

theorem leftOut_found (h : fs.Plain) (hs : s.Sound) (hin : s.Inside)
    (hthere : ∃ e, fs.get? s.root.names = some e) (c : Course s fs) :
    fs.LeftOut s.indexDir.names c.rules.ignores := by
  have hK := c.places_inside h hs hin
  have hdiffer := c.differ_begun h hs hin hthere
  refine ⟨hin.eq hs ▸ hin.ignores hs h c.rules_eq, fun e hget => ?_⟩
  have hag : AgreeAlong fs c.begun s.indexDir.names := by
    intro above habove
    by_cases hbelow : s.indexDir.names <+: above
    · rw [← hbelow.eq_of_length_le habove.length_le, hget, hK.adds.kept _ e hget]
    · exact (hdiffer.same above hbelow).symm
  rw [hin.eq hs, isDir_congr h hK.adds.plain (hin.isProper hs) hag]
  exact hK.index.isDir

theorem leftOut_saved (h : fs.Plain) (hs : s.Sound) (hin : s.Inside) (c : Course s fs) :
    c.saved.LeftOut s.indexDir.names c.rules.ignores := by
  have hpages := (c.after (c.pagesAt_paged h hs (c.places_inside h hs hin)).1).1
  refine ⟨hin.eq hs ▸ hin.ignores hs h c.rules_eq, fun e _ => ?_⟩
  rw [hin.eq hs]
  exact hpages.isDir

/-- What a run has left is the same project: it has the same rules, the same is found of it, and the same
files are catalogued. -/
theorem project_saved (h : fs.Plain) (hs : s.Sound) (hin : s.Inside)
    (hthere : ∃ e, fs.get? s.root.names = some e) (c : Course s fs) :
    IgnoreRules.load c.saved s.root [] = .ok c.rules ∧
      ProjectKind.evidence c.saved s.root = ProjectKind.evidence fs s.root ∧
      Catalogue.collect c.saved s.registry c.rules s.root = c.catalogue := by
  obtain ⟨hrules, hfound, hcatalogue⟩ := hin.project_congr hs (c.differ_saved h hs hin hthere)
  exact ⟨hrules ▸ c.rules_eq, hfound.symm,
    (hcatalogue c.rules (c.leftOut_found h hs hin hthere) (c.leftOut_saved h hs hin)).symm⟩

end Course

end Indexing

end CodeIndex
