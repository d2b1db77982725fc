import CodeIndex.Proofs.Indexing.Clashes
import CodeIndex.Proofs.Indexing.Footprint
import CodeIndex.Proofs.Indexing.Rerun
import CodeIndex.Proofs.Indexing.Success
import CodeIndex.Proofs.Page.Lines
import CodeIndex.Proofs.Page.Reassembly
import CodeIndex.Proofs.Text.Search

/-!
# Which page a record names

The record of a file names the last file of the page on its directory. If the page was cut, the section
on the file may stand in an earlier part, and then neither the record nor what is asked of it leads
to the section.
-/

namespace CodeIndex

namespace Metadata

open Json

variable {m : Metadata} {path page : Text} {e : Entry}

theorem pageOf?_of_recordAt? (hpage : page ≠ [])
    (h : m.recordAt? (letters path) = some (record e (.text page) .null)) :
    m.pageOf? path = .ok (some (.text page)) := by
  unfold recordAt? at h
  split at h
  · next fields hfiles =>
    have hset : (letters page).isEmpty = false := by
      simpa [letters] using hpage
    simp [pageOf?, records, hfiles, h, record, Json.record, isSet, recordFields, named?, field?_cons,
      letters_injective.eq_iff, bind, Except.bind, pure, Except.pure, hset, isComposed, Json.text]
  · cases h

/-- What is asked for one file is what its record names. -/
theorem affectedPages_of_recordAt? (hpage : page ≠ [])
    (h : m.recordAt? (letters path) = some (record e (.text page) .null)) :
    m.affectedPages [path] = .ok [.text page] := by
  simp [affectedPages, pageOf?_of_recordAt? hpage h, bind, Except.bind, pure, Except.pure, addPage,
    comparable, scalarLe?, Json.text, sortBy, insertBy]

end Metadata

namespace Indexing

open FileSystem Metadata Page

variable {s : Setting} {fs after : FileSystem} {x : Text × List Path} {p shown : Path}

/-- The text of the last file of the page on a directory. -/
def lastText (s : Setting) (fs : FileSystem) (x : Text × List Path) : Text :=
  ((pagesOf s fs x).getLast (pagesOf_ne_nil s fs x)).2

/-- What a full run leaves of a file `p` in a directory `x`. -/
structure Described (s : Setting) (fs after : FileSystem) (m : Metadata) (x : Text × List Path)
    (p shown : Path) : Prop where
  recorded : ∃ e, fs.look p = .ok (some e) ∧
    m.recordAt? (Json.letters p.toText) = some (record e (.text (lastPage s fs x)) .null)
  affected : m.affectedPages [p.toText] = .ok [.text (lastPage s fs x)]
  /-- The record leads to the last file of the page. -/
  read : after.read (s.indexDir.join (Path.ofText (lastPage s fs x))) =
    .ok (Utf8.encode (lastText s fs x))
  /-- Some file of the page has the section on the file. -/
  told : '\n' ∉ shown.toText → ∃ f ∈ pagesOf s fs x,
    after.read (s.pagesDir.child f.1) = .ok (Utf8.encode f.2) ∧ pathLine shown ∈ Text.lines f.2
  /-- It is the one that the record names if the page is whole, -/
  whole : (textOf s fs x).length ≤ maxChars →
    Text.lines (pathLine shown) <:+: Text.lines (lastText s fs x)
  /-- and otherwise exactly if the section is not cut off, -/
  named_iff : '\n' ∉ shown.toText →
    (pathLine shown ∈ Text.lines (lastText s fs x) ↔ pathLine shown ∈ lastLines (textOf s fs x))
  /-- as it is whenever more follows than fits into a part. -/
  cut_off : '\n' ∉ shown.toText → maxChars < (textOf s fs x).length → ∀ before behind,
    Text.lines (textOf s fs x) = before ++ pathLine shown :: behind → pathLine shown ∉ behind →
    behind ≠ [] → maxChars < linesSize (pathLine shown :: behind) →
    pathLine shown ∉ Text.lines (lastText s fs x)

theorem slash_mem_toText (n n' : Text) (names : List Text) :
    '/' ∈ (⟨.relative, n :: n' :: names⟩ : Path).toText := by
  have hmem : '/' ∈ Path.bareText ⟨.relative, n :: n' :: names⟩ := by
    simp [Path.bareText, Anchor.text, Path.joinNames_cons]
  unfold Path.toText
  split
  · next hnil =>
    rw [hnil] at hmem
    cases hmem
  · exact hmem

/-- A file in a directory below the root has a slash in its path, and the pages on the root have no
line feed in their name. -/
theorem slash_or_base {rules : IgnoreRules} (h : fs.Plain) (hroot : s.root.IsProper)
    (hx : x ∈ Catalogue.collect fs s.registry rules s.root) (hp : p ∈ x.2)
    (hshown : p.relativeTo? s.root = some shown) :
    '/' ∈ shown.toText ∨ '\n' ∉ pageBase x.1 := by
  obtain ⟨dir, hdir, ⟨below, hbelow⟩, hkey, hparent⟩ := Catalogue.exists_visit_of_mem h hroot hx
  rw [Catalogue.directoryKey_eq (hdir.anchor.trans hroot.anchor.symm) hbelow.symm] at hkey
  cases below with
  | nil =>
    right
    rw [hkey]
    decide
  | cons n below =>
    left
    have hnames : p.names.dropLast = s.root.names ++ n :: below := by
      rw [hbelow, ← hparent p hp]
      rfl
    have hne : p.names ≠ [] := by
      rintro hnil
      simp [hnil] at hnames
    obtain ⟨-, hrelative, hsplit⟩ := Path.relativeTo?_eq_some.1 hshown
    have hbehind : shown.names = n :: (below ++ [p.names.getLast hne]) := by
      rw [← List.dropLast_append_getLast hne, hnames, List.append_assoc] at hsplit
      exact (List.append_cancel_left hsplit).symm
    obtain ⟨n', names, hrest⟩ := List.exists_cons_of_ne_nil
      (List.append_ne_nil_of_right_ne_nil below (List.cons_ne_nil (p.names.getLast hne) []))
    obtain ⟨anchor, names'⟩ := shown
    obtain rfl : anchor = .relative := hrelative
    obtain rfl : names' = n :: n' :: names := hbehind.trans (by rw [hrest])
    exact slash_mem_toText n n' names

theorem lines_textOf_infix (hlisted : ∀ p ∈ x.2, Catalogue.Listed fs s.registry s.root p)
    (hroot : s.root.IsProper) (hp : p ∈ x.2) (hshown : p.relativeTo? s.root = some shown) :
    Text.lines (pathLine shown) <:+: Text.lines (textOf s fs x) := by
  apply lines_pathLine_infix
  · intro q hq
    exact relativeTo?_of_listed hroot (hlisted q hq)
  · exact hp
  · exact hshown
  · exact (hlisted p hp).language

/-- What a page is read as from the name that records give to its last file. -/
theorem join_lastPage (hs : s.Sound) (hbase : IsBase (pageBase x.1)) :
    s.indexDir.join (Path.ofText (lastPage s fs x)) =
      s.pagesDir.child ((pagesOf s fs x).getLast (pagesOf_ne_nil s fs x)).1 := by
  have hname := isName_of_mem_pageFiles hbase (List.getLast_mem (pagesOf_ne_nil s fs x))
  have hjoin := join_shownBelow hs.pagesDir_pieces hname
  rwa [Setting.pagesDir, Path.child_parent, shownBelow_concat (by decide)] at hjoin

namespace Course

theorem described (h : fs.Plain) (hs : s.Sound) (hfull : s.onlyChanged = false) (c : Course s fs)
    (hclash : ∀ x ∈ c.catalogue, ∀ y ∈ c.catalogue, x.1 ≠ y.1 → ¬Clash s fs x y)
    (hx : x ∈ c.catalogue) (hp : p ∈ x.2) (hshown : p.relativeTo? s.root = some shown) :
    Described s fs c.saved (c.updated.touch s.now) x p shown := by
  obtain ⟨K, hK⟩ := c.exists_places h hs
  have hlisted := c.listed h hs hx
  have hindexed : x ∈ c.indexed := c.indexed_of_full hfull ▸ hx
  have hread := c.shows_of_mem_indexed h hs hclash hindexed
  have hbase := isBase_of_mem_collect h hs.root hx
  have hinfix := lines_textOf_infix hlisted hs.root hp hshown
  have hrecord : ∃ e, fs.look p = .ok (some e) ∧ (c.updated.touch s.now).recordAt?
      (Json.letters p.toText) = some (record e (.text (lastPage s fs x)) .null) := by
    have hseen := (c.paged_spec h hs hK).1.seen x hindexed p hp
    obtain ⟨e, hget, hlook⟩ := look_of_seen h hK.adds.keepsSources (hlisted p hp) hseen
    refine ⟨e, hlook, ?_⟩
    rw [← recordOf_eq hget]
    exact c.recordAt?_updated h hs hK hindexed hp
  have hnamed : '\n' ∉ shown.toText →
      (pathLine shown ∈ Text.lines (lastText s fs x) ↔ pathLine shown ∈ lastLines (textOf s fs x)) := by
    intro _
    apply mem_lines_last_iff
    exact pathLine_notMem_headingLines hbase.slash (slash_or_base h hs.root hx hp hshown)
  refine ⟨hrecord, ?_, ?_, ?_, ?_, hnamed, ?_⟩
  · obtain ⟨e, -, hrecorded⟩ := hrecord
    apply affectedPages_of_recordAt? _ hrecorded
    exact List.append_ne_nil_of_right_ne_nil _ (List.cons_ne_nil _ _)
  · rw [join_lastPage hs hbase]
    exact hread _ (List.getLast_mem _)
  · intro hline
    rw [Text.lines, Text.pieces_of_notMem (newline_notMem_pathLine hline)] at hinfix
    have hmem : pathLine shown ∈ Text.lines (textOf s fs x) := hinfix.subset List.mem_cons_self
    obtain ⟨f, hf, htold⟩ := exists_file_of_mem_lines hmem (pageBase x.1)
    exact ⟨f, hf, hread f hf, htold⟩
  · intro hwhole
    have hlast : lastText s fs x = textOf s fs x := by
      have hmem := List.getLast_mem (pagesOf_ne_nil s fs x)
      exact congrArg Prod.snd ((mem_pageFiles_whole hwhole).1 hmem)
    rw [hlast]
    exact hinfix
  · intro hline hcut before behind hsplit honce hne hsize
    rw [hnamed hline]
    exact notMem_lastLines hcut hsplit honce hne hsize

end Course

/-- A full run without clashes records for every file the last file of the page on its directory. That
file has the section on it if the page is whole, and otherwise exactly if the section is not cut off. -/
theorem full_run_records_last_pages {now : Timestamp} {arguments : List Text}
    {o : CommandLine.Options} {rules : IgnoreRules} (hfs : fs.Plain)
    (hasks : Asks arguments o now fs s) (hfull : o.update = false ∨ o.force = true)
    (hrules : IgnoreRules.load fs s.root [] = .ok rules)
    (hclash : ∀ x ∈ Catalogue.collect fs .standard rules s.root,
      ∀ y ∈ Catalogue.collect fs .standard rules s.root, x.1 ≠ y.1 → ¬Clash s fs x y)
    (hrun : (program .standard now arguments fs).result = .ok 0) :
    ∃ m, (program .standard now arguments fs).fs.read (s.indexDir.child Metadata.fileName) =
        .ok (Utf8.encode m.text) ∧
      (fs.Measured .standard → ∀ later,
        Metadata.load (program .standard now arguments fs).fs later s.indexDir = .ok m) ∧
      ∀ x ∈ Catalogue.collect fs .standard rules s.root, ∀ p ∈ x.2, ∃ shown,
        p.relativeTo? s.root = some shown ∧
          Described s fs (program .standard now arguments fs).fs m x p shown := by
  obtain ⟨c, hc⟩ := (hasks.succeeds hrun).course
  obtain rfl : c.rules = rules := Except.ok.inj (c.rules_eq.symm.trans hrules)
  have hs := hasks.sound hfs
  have hmode := hasks.onlyChanged_of_full hfull
  obtain ⟨K, hK⟩ := c.exists_places hfs hs
  have hcollect : Catalogue.collect fs .standard c.rules s.root = c.catalogue := by
    rw [Course.catalogue, hasks.registry_eq]
  rw [hcollect] at hclash ⊢
  rw [← hc]
  refine ⟨c.updated.touch s.now, c.read_metadata hfs hs hK, ?_, ?_⟩
  · intro hmeasured later
    apply c.load_saved hfs hs hK
    apply c.loadable_updated hfs hs hK
    intro x hx p hp e hget
    exact measured_of_listed hfs (hasks.registry_eq ▸ hmeasured)
      (c.listed hfs hs (c.mem_catalogue_of_mem_indexed hx) p hp) hget
  · intro x hx p hp
    obtain ⟨shown, hshown⟩ := Option.isSome_iff_exists.1
      (relativeTo?_of_listed hs.root (c.listed hfs hs hx p hp))
    exact ⟨shown, hshown, c.described hfs hs hmode hclash hx hp hshown⟩

/-- A project with a file in its root and one in a directory. -/
def twoDirectories : FileSystem :=
  ((((FileSystem.empty .standard []).put ["p".toList] .openDir).put
    ["p".toList, "a.py".toList] (.file ⟨[], .finite false (2 ^ 52) (-52), false⟩)).put
    ["p".toList, "d".toList] .openDir).put
    ["p".toList, "d".toList, "b.py".toList] (.file ⟨[], .finite false (2 ^ 52) (-52), false⟩)

def twoDirectoriesFound : Catalogue :=
  [([], [⟨.root, ["p".toList, "a.py".toList]⟩]),
    ("d".toList, [⟨.root, ["p".toList, "d".toList, "b.py".toList]⟩])]

/-- Asked for the file in the directory, the metadata lead to the page that tells its path. -/
theorem twoDirectories_described : ∃ m t,
    Metadata.load (program .standard sampleSetting.now ["/p".toList] twoDirectories).fs
      sampleSetting.now sampleSetting.indexDir = .ok m ∧
    m.affectedPages ["/p/d/b.py".toList] = .ok [.text "directories/d.md".toList] ∧
    (program .standard sampleSetting.now ["/p".toList] twoDirectories).fs.read
      (sampleSetting.indexDir.join (Path.ofText "directories/d.md".toList)) =
      .ok (Utf8.encode t) ∧
    "**Path**: `d/b.py`".toList ∈ Text.lines t := by
  have hplain : twoDirectories.Plain := by decide +kernel
  have hrules : IgnoreRules.load twoDirectories sampleSetting.root [] =
      .ok ⟨sampleSetting.root, IgnoreRules.builtIn⟩ := by decide +kernel
  have hcollect : Catalogue.collect twoDirectories .standard
      ⟨sampleSetting.root, IgnoreRules.builtIn⟩ sampleSetting.root =
      twoDirectoriesFound := by decide +kernel
  have hshare : ∀ x ∈ twoDirectoriesFound, ∀ y ∈ twoDirectoriesFound, x.1 ≠ y.1 →
      ¬∃ f ∈ pagesOf sampleSetting twoDirectories x,
        ∃ g ∈ pagesOf sampleSetting twoDirectories y, f.1 = g.1 := by decide +kernel
  obtain ⟨m, -, hload, hall⟩ := full_run_records_last_pages hplain (asks_sample hplain)
    (.inl rfl) hrules
    (fun x hx y hy hne hclash => hshare x (hcollect ▸ hx) y (hcollect ▸ hy) hne
      (shareName_iff_nameClash.2 hclash)) (by decide +kernel)
  rw [hcollect] at hall
  obtain ⟨shown, hshown, hdescribed⟩ := hall _ (List.mem_cons_of_mem _ List.mem_cons_self) _
    List.mem_cons_self
  obtain rfl : (⟨.relative, ["d".toList, "b.py".toList]⟩ : Path) = shown := by
    have hrel : (⟨.root, ["p".toList, "d".toList, "b.py".toList]⟩ : Path).relativeTo?
        sampleSetting.root = some ⟨.relative, ["d".toList, "b.py".toList]⟩ := by decide
    exact Option.some.inj (hrel.symm.trans hshown)
  have hpage : lastPage sampleSetting twoDirectories ("d".toList,
      [⟨.root, ["p".toList, "d".toList, "b.py".toList]⟩]) = "directories/d.md".toList := by
    decide +kernel
  have hlines : Text.lines (pathLine ⟨.relative, ["d".toList, "b.py".toList]⟩) =
      ["**Path**: `d/b.py`".toList] := by decide
  have haffected := hdescribed.affected
  have hread := hdescribed.read
  rw [hpage] at haffected hread
  have hwhole := hdescribed.whole (by decide +kernel)
  rw [hlines] at hwhole
  exact ⟨m, _, hload (by decide +kernel) _, haffected, hread, hwhole.subset List.mem_cons_self⟩

/-- A file of many classes. -/
def classes (n : Nat) : Text := (List.replicate n "class A:\n".toList).flatten

theorem notMem_classes {c : Char} (h : c ∉ "class A:\n".toList) (n : Nat) : c ∉ classes n := by
  intro hc
  obtain ⟨l, hl, hc⟩ := List.mem_flatten.1 hc
  rw [List.eq_of_mem_replicate hl] at hc
  exact h hc

theorem lines_classes (n : Nat) :
    Text.lines (classes n) = List.replicate n "class A:".toList ++ [[]] := by
  induction n with
  | zero => rfl
  | succ n ih =>
    have hline : '\n' ∉ "class A:".toList := by decide
    have hmore : classes (n + 1) = "class A:".toList ++ '\n' :: classes n := by
      rw [classes, List.replicate_succ, List.flatten_cons]
      rfl
    rw [hmore, Text.lines, Text.pieces_append_sep hline, ← Text.lines, ih]
    rfl

theorem definitions_classes (n : Nat) :
    Python.definitions (classes n) = List.replicate n (.classDef "A".toList none) := by
  have htrim : Text.trimLeft "class A:".toList = "class A:".toList := by decide +kernel
  have hstep : ∀ inClass rest, Python.definitionsFrom inClass ("class A:".toList :: rest) =
      .classDef "A".toList none :: Python.definitionsFrom true rest := by
    intro inClass rest
    have hread : Python.readLine inClass ("class A:".toList.length - "class A:".toList.length)
        "class A:".toList = (some (.classDef "A".toList none), true) := by
      cases inClass with
      | false => decide +kernel
      | true => decide +kernel
    rw [Python.definitionsFrom]
    simp only [htrim, hread]
    rfl
  have hdefinitions : ∀ inClass, Python.definitionsFrom inClass
      (List.replicate n "class A:".toList ++ [[]]) =
        List.replicate n (.classDef "A".toList none) := by
    induction n with
    | zero =>
      intro inClass
      rfl
    | succ n ih =>
      intro inClass
      rw [List.replicate_succ, List.cons_append, hstep, ih, List.replicate_succ]
  rw [Python.definitions, lines_classes, hdefinitions]

theorem outline_classes (n : Nat) :
    Python.outline (classes n) = ⟨List.replicate n "class A".toList, []⟩ := by
  have hrender : (Python.Definition.classDef "A".toList none).render = "class A".toList := by decide
  have himports : Python.imports (classes n) = [] := by
    have hkeys : "import".toList = 'i' :: "mport".toList ∧ "from".toList = 'f' :: "rom".toList := by
      decide
    rw [Python.imports, hkeys.1, hkeys.2,
      Reader.findAllAtLineStart_of_notMem (notMem_classes (by decide) n),
      Reader.findAllAtLineStart_of_notMem (notMem_classes (by decide) n)]
    rfl
  rw [Python.outline, himports, definitions_classes, List.map_replicate, hrender]

theorem description_classes {n : Nat} (hn : n ≠ 0)
    (hread : fs.read p = .ok (Utf8.encode (classes n))) :
    description fs .python p =
      Text.unlines ("**Exports**:".toList :: List.replicate n "- `class A`".toList) := by
  have hexports : (List.replicate n "class A".toList).isEmpty = false := by
    simpa using hn
  have hcode : "- ".toList ++ Outline.code "class A".toList = "- `class A`".toList := by decide
  unfold description
  rw [hread]
  simp only
  rw [Utf8.decodeLossy_encode, Text.unifyLineEnds_of_notMem (notMem_classes (by decide) n),
    show Language.python.outline (classes n) = _ from outline_classes n]
  simp only [Outline.markdown, Outline.exportLines, Outline.importLines, hexports, List.isEmpty_nil,
    if_true, List.append_nil, List.map_replicate, hcode]
  rfl

/-- A project in which an empty file comes before one with many classes. -/
def crowded (n : Nat) : FileSystem :=
  (((FileSystem.empty .standard []).put ["p".toList] .openDir).put
    ["p".toList, "a.py".toList] (written .standard [])).put
    ["p".toList, "b.py".toList] (written .standard (Utf8.encode (classes n)))

def inRoot (name : Text) : Path := ⟨.root, ["p".toList, name]⟩

/-- The root of the crowded project as it is catalogued. -/
def crowdedRoot : Text × List Path := ([], [inRoot "a.py".toList, inRoot "b.py".toList])

theorem read_crowded (n : Nat) : (crowded n).read (inRoot "a.py".toList) = .ok [] ∧
    (crowded n).read (inRoot "b.py".toList) = .ok (Utf8.encode (classes n)) := by
  have hcan : ((FileSystem.empty .standard []).put ["p".toList] .openDir).CanWrite
      ["p".toList, "a.py".toList] := .inl ⟨by decide +kernel, by decide +kernel⟩
  have hcan' : (((FileSystem.empty .standard []).put ["p".toList] .openDir).put
      ["p".toList, "a.py".toList] (written .standard [])).CanWrite ["p".toList, "b.py".toList] :=
    .inl ⟨by decide +kernel, by decide +kernel⟩
  have hopens : ∀ name ∈ ["a.py".toList, "b.py".toList],
      (crowded n).Opens (inRoot name) ["p".toList, name] := by
    intro name hname
    apply Opens.put _ hcan'
    apply Opens.put _ hcan
    revert name
    simp only [List.forall_mem_cons]
    exact ⟨⟨by decide, by decide +kernel, .inl ⟨by decide +kernel, by decide +kernel⟩⟩,
      ⟨by decide, by decide +kernel, .inl ⟨by decide +kernel, by decide +kernel⟩⟩, by simp⟩
  constructor
  · apply (hopens "a.py".toList (by simp)).read
    rw [crowded, get?_put _ (by simp), if_neg (by decide), get?_put _ (by simp), if_pos rfl]
  · apply (hopens "b.py".toList (by simp)).read
    rw [crowded, get?_put _ (by simp), if_pos rfl]

theorem sectionOf_inRoot (fs : FileSystem) {name : Text}
    (hname : Text.lower (inRoot name).suffix = ".py".toList) :
    sectionOf fs .standard sampleSetting.root (inRoot name) =
      sectionLines fs .python (inRoot name) ⟨.relative, [name]⟩ := by
  have hts : Language.typeScript.accepts (inRoot name) = false := by
    rw [Language.accepts, hname]
    decide
  have hpy : Language.python.accepts (inRoot name) = true := by
    rw [Language.accepts, hname]
    decide
  apply sectionOf_eq
  · exact Path.relativeTo?_eq_some.2 ⟨rfl, rfl, rfl⟩
  · simp [Registry.languageOf?, Registry.standard, hts, hpy]

/-- What stands on the page between the path of the first file and the exports of the second. -/
def crowdedGap : List Text :=
  ["**Language**: Python".toList, [], "_No exports detected_".toList, [], "---".toList, [],
    "### b.py".toList, pathLine ⟨.relative, ["b.py".toList]⟩, "**Language**: Python".toList, []]

theorem textOf_crowded {n : Nat} (hn : n ≠ 0) :
    textOf sampleSetting (crowded n) crowdedRoot =
      Text.unlines ((header [] ++ ["### a.py".toList]) ++ pathLine ⟨.relative, ["a.py".toList]⟩ ::
        (crowdedGap ++ Text.unlines ("**Exports**:".toList ::
          List.replicate n "- `class A`".toList) :: [[], "---".toList, []])) := by
  obtain ⟨hreadA, hreadB⟩ := read_crowded n
  have hempty : description (crowded n) .python (inRoot "a.py".toList) =
      "_No exports detected_".toList := by
    unfold description
    rw [hreadA]
    decide +kernel
  have hfiles : ∀ p ∈ crowdedRoot.2, (p.relativeTo? sampleSetting.root).isSome := by decide
  have hsort : sortFiles crowdedRoot.2 = crowdedRoot.2 := by decide +kernel
  refine (textOf_eq hfiles).trans (congrArg Text.unlines ?_)
  rw [hsort, crowdedRoot, List.flatMap_cons, List.flatMap_cons, List.flatMap_nil, List.append_nil,
    show sampleSetting.registry = .standard from rfl, sectionOf_inRoot _ (by decide),
    sectionOf_inRoot _ (by decide)]
  unfold sectionLines
  rw [hempty, description_classes hn hreadB]
  rfl

/-- The page on the root goes on for long behind the path of the first file. -/
theorem lines_crowded {n : Nat} (hn : n ≠ 0) : ∃ before behind : List Text,
    Text.lines (textOf sampleSetting (crowded n) crowdedRoot) =
        before ++ pathLine ⟨.relative, ["a.py".toList]⟩ :: behind ∧
      pathLine ⟨.relative, ["a.py".toList]⟩ ∉ behind ∧ 12 * n ≤ linesSize behind ∧
      before.length + behind.length ≤ n + 50 := by
  have hpath : Text.lines (pathLine ⟨.relative, ["a.py".toList]⟩) =
      [pathLine ⟨.relative, ["a.py".toList]⟩] :=
    Text.pieces_of_notMem (newline_notMem_pathLine (by decide))
  have hexports : Text.lines (Text.unlines ("**Exports**:".toList ::
      List.replicate n "- `class A`".toList)) =
        "**Exports**:".toList :: List.replicate n "- `class A`".toList := by
    apply Text.lines_unlines_of_notMem (List.cons_ne_nil _ _)
    intro l hl
    rcases List.mem_cons.1 hl with rfl | hl
    · decide
    · rw [List.eq_of_mem_replicate hl]
      decide
  refine ⟨(header [] ++ ["### a.py".toList]).flatMap Text.lines, crowdedGap.flatMap Text.lines ++
    ("**Exports**:".toList :: List.replicate n "- `class A`".toList ++
      [[], "---".toList, []].flatMap Text.lines), ?_, ?_, ?_, ?_⟩
  · rw [textOf_crowded hn, Text.lines_unlines (List.append_ne_nil_of_right_ne_nil _
      (List.cons_ne_nil _ _))]
    simp only [List.flatMap_append, List.flatMap_cons, hpath, hexports, List.singleton_append]
  · intro hmem
    rcases List.mem_append.1 hmem with hmem | hmem
    · exact absurd hmem (by decide)
    · rcases List.mem_append.1 hmem with hmem | hmem
      · rcases List.mem_cons.1 hmem with heq | hmem
        · exact absurd heq (by decide)
        · exact absurd (List.eq_of_mem_replicate hmem) (by decide)
      · exact absurd hmem (by decide)
  · have hclass : linesSize (List.replicate n "- `class A`".toList) = n * 12 := linesSize_replicate n _
    rw [linesSize_append, linesSize_append, linesSize_cons, hclass]
    omega
  · have hbefore : ((header [] ++ ["### a.py".toList]).flatMap Text.lines).length ≤ 20 := by decide
    have hgap : (crowdedGap.flatMap Text.lines).length ≤ 20 := by decide
    have hend : ([[], "---".toList, []].flatMap Text.lines).length ≤ 5 := by decide
    simp only [List.length_append, List.length_cons, List.length_replicate]
    omega

theorem crowded_long {n : Nat} (hn : maxChars < 12 * n) :
    maxChars < (textOf sampleSetting (crowded n) crowdedRoot).length := by
  obtain ⟨before, behind, hlines, -, hsize, -⟩ := lines_crowded (n := n) (by omega)
  have hlength := length_unlines (Text.pieces_ne_nil '\n'
    (textOf sampleSetting (crowded n) crowdedRoot))
  rw [← Text.lines, Text.unlines_lines, hlines, linesSize_append, linesSize_cons] at hlength
  omega

/-- If there are enough classes, the last part does not reach back to the first file. -/
theorem crowded_cut_off {n : Nat} (hn : maxChars < 12 * n) :
    pathLine ⟨.relative, ["a.py".toList]⟩ ∉
      Text.lines (lastText sampleSetting (crowded n) crowdedRoot) := by
  obtain ⟨before, behind, hlines, honce, hsize, -⟩ := lines_crowded (n := n) (by omega)
  have hne : behind ≠ [] := by
    rintro rfl
    exact absurd hsize (Nat.not_le_of_lt (Nat.zero_lt_of_lt hn))
  intro hmem
  have hlast : pathLine ⟨.relative, ["a.py".toList]⟩ ∈
      lastLines (textOf sampleSetting (crowded n) crowdedRoot) := by
    apply (mem_lines_last_iff _).1 hmem
    exact pathLine_notMem_headingLines (by decide) (.inr (by decide))
  refine notMem_lastLines (crowded_long hn) hlines honce hne ?_ hlast
  rw [linesSize_cons]
  omega

/-- The parts are numbered with few digits. -/
theorem isShort_crowded {n : Nat} (hn : maxChars < 12 * n) (hfew : n < 10 ^ 6) :
    ∀ f ∈ pagesOf sampleSetting (crowded n) crowdedRoot,
      IsShort (sampleSetting.pagesDir.child f.1) := by
  intro f hf
  obtain ⟨i, hi, rfl⟩ := (mem_pageFiles_parts (crowded_long hn)).1 hf
  obtain ⟨before, behind, hlines, -, -, hcount⟩ := lines_crowded (n := n) (by omega)
  have hparts := length_parts_le (textOf sampleSetting (crowded n) crowdedRoot)
  rw [hlines, List.length_append, List.length_cons] at hparts
  have hdigits : (partNumber (i + 1)).length ≤ 7 := by
    have hi : i < (parts (textOf sampleSetting (crowded n) crowdedRoot)).length := hi
    exact (Nat.length_toDigits_le_iff (by decide) (by decide)).2 (by omega)
  have hsize := Utf8.size_le (partNumber (i + 1))
  refine IsShort.of_size (m := List.replicate 40 'x') (by decide) nofun ?_
  have hbase : Utf8.size (pageBase crowdedRoot.1 ++ "_part".toList) = 9 := by decide
  have hend : Utf8.size ".md".toList = 3 := by decide
  have hwhole : Utf8.size (List.replicate 40 'x') = 40 := by decide
  rw [partName, size_append, size_append, hbase, hend, hwhole]
  omega

theorem walk_crowded (n : Nat) (skips : Path → Bool) :
    (crowded n).walk skips ((crowded n).depth + 1) sampleSetting.root =
      [⟨sampleSetting.root, ["a.py".toList, "b.py".toList]⟩] :=
  rfl

theorem collect_crowded (n : Nat) : Catalogue.collect (crowded n) .standard
    ⟨sampleSetting.root, IgnoreRules.builtIn⟩ sampleSetting.root = [crowdedRoot] := by
  rw [Catalogue.collect, walk_crowded]
  decide +kernel

theorem plain_crowded (n : Nat) : (crowded n).Plain := of_decide_eq_true rfl

theorem allOpen_crowded (n : Nat) : (crowded n).AllOpen := by
  have hempty : (FileSystem.empty .standard []).AllOpen := by
    intro loc e hget
    by_cases hloc : loc = []
    · subst hloc
      cases hget
      exact ⟨rfl, rfl⟩
    · simp [FileSystem.get?, FileSystem.empty, hloc] at hget
  exact ((hempty.put (by simp) ⟨rfl, rfl⟩).put (by simp) ⟨rfl, rfl⟩).put (by simp) ⟨rfl, rfl⟩

/-- The crowded project is indexed, up to a million classes. -/
theorem crowded_run_succeeds {n : Nat} (hn : maxChars < 12 * n) (hfew : n < 10 ^ 6) :
    IgnoreRules.load (crowded n) sampleSetting.root [] =
        .ok ⟨sampleSetting.root, IgnoreRules.builtIn⟩ ∧
      (program .standard sampleSetting.now ["/p".toList] (crowded n)).result = .ok 0 := by
  have hproject : ProjectKind.detect (crowded n) sampleSetting.root =
      .ok ⟨"unknown".toList, []⟩ := rfl
  exact sample_succeeds (plain_crowded n) (allOpen_crowded n) rfl (of_decide_eq_true rfl) hproject
    (of_decide_eq_true rfl) (collect_crowded n)
    (List.forall_mem_singleton.2 (isShort_crowded hn hfew))

/-- Whoever asks the saved metadata where the first file is described is sent to a page that does not
tell its path. -/
theorem crowded_run_misleads {n : Nat} (hn : maxChars < 12 * n) (hfew : n < 10 ^ 6) :
    ∃ (m : Metadata) (page content : Text),
      (program .standard sampleSetting.now ["/p".toList] (crowded n)).fs.read
        (sampleSetting.indexDir.child Metadata.fileName) = .ok (Utf8.encode m.text) ∧
      m.affectedPages ["/p/a.py".toList] = .ok [.text page] ∧
      (program .standard sampleSetting.now ["/p".toList] (crowded n)).fs.read
        (sampleSetting.indexDir.join (Path.ofText page)) = .ok (Utf8.encode content) ∧
      pathLine ⟨.relative, ["a.py".toList]⟩ ∉ Text.lines content := by
  have hplain := plain_crowded n
  obtain ⟨hrules, hrun⟩ := crowded_run_succeeds hn hfew
  have hasks := asks_sample hplain
  obtain ⟨c, hc⟩ := (hasks.succeeds hrun).course
  have hcatalogue : c.catalogue = [crowdedRoot] := by
    rw [Course.catalogue, Except.ok.inj (c.rules_eq.symm.trans hrules)]
    exact collect_crowded n
  have hroot : crowdedRoot ∈ c.catalogue := hcatalogue ▸ List.mem_cons_self
  -- the project has one directory, so there is nothing to clash with
  have hclash : ∀ x ∈ c.catalogue, ∀ y ∈ c.catalogue, x.1 ≠ y.1 →
      ¬Clash sampleSetting (crowded n) x y := by
    intro x hx y hy hne
    rw [hcatalogue] at hx hy
    rw [List.mem_singleton.1 hx, List.mem_singleton.1 hy] at hne
    exact absurd rfl hne
  have hshown : (inRoot "a.py".toList).relativeTo? sampleSetting.root =
      some ⟨.relative, ["a.py".toList]⟩ := Path.relativeTo?_eq_some.2 ⟨rfl, rfl, rfl⟩
  have hsound := hasks.sound hplain
  obtain ⟨K, hK⟩ := c.exists_places hplain hsound
  have hdescribed := c.described hplain hsound rfl hclash hroot List.mem_cons_self hshown
  have hpath : (inRoot "a.py".toList).toText = "/p/a.py".toList := by decide
  rw [← hc]
  exact ⟨_, _, _, c.read_metadata hplain hsound hK, hpath ▸ hdescribed.affected, hdescribed.read,
    crowded_cut_off hn⟩

/-- So it is with three thousand classes. -/
theorem crowded_misleads : ∃ (m : Metadata) (page content : Text),
    (program .standard sampleSetting.now ["/p".toList] (crowded 3000)).fs.read
      (sampleSetting.indexDir.child Metadata.fileName) = .ok (Utf8.encode m.text) ∧
    m.affectedPages ["/p/a.py".toList] = .ok [.text page] ∧
    (program .standard sampleSetting.now ["/p".toList] (crowded 3000)).fs.read
      (sampleSetting.indexDir.join (Path.ofText page)) = .ok (Utf8.encode content) ∧
    pathLine ⟨.relative, ["a.py".toList]⟩ ∉ Text.lines content :=
  crowded_run_misleads (by decide) (by decide)

end Indexing

end CodeIndex
