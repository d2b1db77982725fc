import CodeIndex.Proofs.FileSystem.Links
import CodeIndex.Proofs.Page.Directory
import CodeIndex.Proofs.Sorting
import CodeIndex.Proofs.Text.Pieces

/-!
# A page as the sum of its sections

The page on a directory is its head and then the sections on its files, each a text of its own. A section is
made from the root, the path of its file and the answer to reading it, and from nothing else. So a file that
changes, or that cannot be read any more, leaves all other sections as they are, and the order in which files
are given matters only among names that are equal in lower case.
-/

namespace CodeIndex

namespace Text

/-- Lines behind others, each with the newline in front of it. -/
theorem unlines_append {ls : List Text} (hls : ls ≠ []) (ms : List Text) :
    unlines (ls ++ ms) = unlines ls ++ ms.flatMap ('\n' :: ·) := by
  induction ms generalizing ls with
  | nil => rw [List.append_nil, List.flatMap_nil, List.append_nil]
  | cons m ms ih =>
    have hlast : unlines (ls ++ [m]) = unlines ls ++ '\n' :: m := by
      rw [unlines, intercalate_append hls (List.cons_ne_nil m []), List.intercalate_singleton,
        List.append_assoc, List.singleton_append]
      rfl
    rw [List.append_cons, ih (List.append_ne_nil_of_right_ne_nil ls (List.cons_ne_nil m [])), hlast,
      List.flatMap_cons, List.append_assoc]

end Text

namespace Page

variable {fs fs' : FileSystem} {registry : Registry} {root p : Path} {dir : Text}
  {files before behind : List Path}

/-- A file that has a section: it lies below the root, and some language accepts it. -/
def HasSection (registry : Registry) (root p : Path) : Prop :=
  (p.relativeTo? root).isSome = true ∧ (registry.languageOf? p).isSome = true

instance (registry : Registry) (root p : Path) : Decidable (HasSection registry root p) :=
  inferInstanceAs (Decidable (_ ∧ _))

/-- What is said about a file for the answer to reading it. -/
def described (language : Language) : Except Failure Bytes → Text
  | .ok bytes => (language.outline (Text.unifyLineEnds (Utf8.decodeLossy bytes))).markdown
  | .error e => "_Error parsing file: ".toList ++ e.message ++ ['_']

/-- The text of the section on a file, made from the root, the path and the answer to reading it. -/
def sectionText (registry : Registry) (root p : Path) (answer : Except Failure Bytes) : Text :=
  match p.relativeTo? root, registry.languageOf? p with
  | some shown, some language =>
    ["### ".toList ++ p.name, "**Path**: `".toList ++ shown.toText ++ ['`'],
      "**Language**: ".toList ++ language.title, [], described language answer, [], "---".toList,
      []].flatMap ('\n' :: ·)
  | _, _ => []

/-- The text above the sections. -/
def headText (dir : Text) : Text := Text.unlines (header dir)

theorem sectionOf_flatMap (fs : FileSystem) (hp : HasSection registry root p) :
    (sectionOf fs registry root p).flatMap ('\n' :: ·) = sectionText registry root p (fs.read p) := by
  obtain ⟨shown, hshown⟩ := Option.isSome_iff_exists.1 hp.1
  obtain ⟨language, hlanguage⟩ := Option.isSome_iff_exists.1 hp.2
  have hdescribed : description fs language p = described language (fs.read p) := by
    unfold description described
    cases fs.read p <;> rfl
  have hsection : sectionOf fs registry root p = sectionLines fs language p shown := by
    unfold sectionOf fileSection
    rw [hshown, hlanguage]
    rfl
  unfold sectionText
  rw [hsection, hshown, hlanguage, sectionLines, hdescribed]
  rfl

/-- The page on a directory is its head and the sections on its files, in the order of the files. -/
theorem ofDirectory_eq_sections (fs : FileSystem) (dir : Text)
    (hfiles : ∀ p ∈ files, HasSection registry root p) :
    ofDirectory fs registry root dir files =
      .ok (headText dir ++ (sortFiles files).flatMap fun p => sectionText registry root p (fs.read p)) := by
  have hsections : (sortFiles files).map (fun p => (sectionOf fs registry root p).flatMap ('\n' :: ·)) =
      (sortFiles files).map fun p => sectionText registry root p (fs.read p) :=
    List.map_congr_left fun p hp => sectionOf_flatMap fs (hfiles p (mem_sortFiles.1 hp))
  have hheader : header dir ≠ [] := List.cons_ne_nil _ _
  rw [ofDirectory_ok fun p hp => (hfiles p hp).1, Text.unlines_append hheader, List.flatMap_assoc,
    List.flatMap_def, hsections, ← List.flatMap_def]
  rfl

theorem isStableSort_sortFiles (files : List Path) :
    IsStableSort (fun p => Text.lower p.name) files (sortFiles files) := by
  rw [sortFiles_eq_sortBy]
  exact isStableSort_sortBy _ files

/-- Where all files but one are read the same, two pages have the same text around its section. -/
theorem sections_around (hread : ∀ q ∈ before ++ behind, fs'.read q = fs.read q) :
    (before ++ p :: behind).flatMap (fun q => sectionText registry root q (fs'.read q)) =
      before.flatMap (fun q => sectionText registry root q (fs.read q)) ++
        sectionText registry root p (fs'.read p) ++
        behind.flatMap fun q => sectionText registry root q (fs.read q) := by
  have hkept : ∀ qs : List Path, qs ⊆ before ++ behind →
      qs.flatMap (fun q => sectionText registry root q (fs'.read q)) =
        qs.flatMap fun q => sectionText registry root q (fs.read q) := by
    intro qs hqs
    rw [List.flatMap_def, List.flatMap_def]
    exact congrArg List.flatten (List.map_congr_left fun q hq => by rw [hread q (hqs hq)])
  rw [List.flatMap_append, List.flatMap_cons, hkept before (List.subset_append_left _ _),
    hkept behind (List.subset_append_right _ _), List.append_assoc]

/-- A page is its head and one section for each file, in the order of the names in lower case, where files
with the same name in lower case stand as they were given. A section depends on the root, the path and what is
read from the file alone: where all other files are read the same, the page is the same around it, and other
data in a file is read by no path that does not lead to it. If no two names are equal in lower case, it does
not matter in which order the files are given. -/
theorem page_is_sum_of_sections (dir : Text) (hfiles : ∀ p ∈ files, HasSection registry root p) :
    IsStableSort (fun p => Text.lower p.name) files (sortFiles files) ∧
    (∀ fs, ofDirectory fs registry root dir files =
      .ok (headText dir ++ (sortFiles files).flatMap fun p => sectionText registry root p (fs.read p))) ∧
    (∀ fs fs' before p behind, sortFiles files = before ++ p :: behind →
      (∀ q ∈ before ++ behind, fs'.read q = fs.read q) → ∃ front back,
        ofDirectory fs registry root dir files =
            .ok (front ++ sectionText registry root p (fs.read p) ++ back) ∧
          ofDirectory fs' registry root dir files =
            .ok (front ++ sectionText registry root p (fs'.read p) ++ back)) ∧
    (∀ fs loc data data' q, FileSystem.get? fs loc = some (.file data) → fs.locate .entry q ≠ .ok loc →
      (fs.put loc (.file data')).read q = fs.read q) ∧
    ((files.map fun p => Text.lower p.name).Nodup → ∀ files', files'.Perm files → ∀ fs,
      ofDirectory fs registry root dir files' = ofDirectory fs registry root dir files) := by
  refine ⟨isStableSort_sortFiles files, fun fs => ofDirectory_eq_sections fs dir hfiles, ?_, ?_, ?_⟩
  · intro fs fs' before p behind hsorted hread
    refine ⟨headText dir ++ before.flatMap fun q => sectionText registry root q (fs.read q),
      behind.flatMap fun q => sectionText registry root q (fs.read q), ?_, ?_⟩
    · rw [ofDirectory_eq_sections fs dir hfiles, hsorted, sections_around fun _ _ => rfl]
      simp only [List.append_assoc]
    · rw [ofDirectory_eq_sections fs' dir hfiles, hsorted, sections_around hread]
      simp only [List.append_assoc]
  · intro fs loc data data' q hget hq
    exact FileSystem.read_put_file hget hq
  · intro hnodup files' hperm fs
    have hsorted : sortFiles files = sortFiles files' :=
      (isStableSort_sortFiles files).eq_of_perm (isStableSort_sortFiles files') hperm.symm hnodup
    rw [ofDirectory_eq_sections fs dir hfiles, hsorted,
      ofDirectory_eq_sections fs dir fun p hp => hfiles p (hperm.mem_iff.1 hp)]

def shelfRoot : Path := ⟨.root, ["p".toList]⟩

def onShelf (name : String) : Path := shelfRoot.child name.toList

def shelfFiles : List Path := [onShelf "b.py", onShelf "a.py", onShelf "A.py"]

/-- A project with a class, no bytes at all, and bytes that are no text. -/
def shelf (denied : Bool) : FileSystem :=
  ((((FileSystem.empty .standard []).put ["p".toList] .openDir).put ["p".toList, "b.py".toList]
    (.file ⟨Utf8.encode "class B: ...".toList, .finite false 1 0, denied⟩)).put ["p".toList, "a.py".toList]
    (.file ⟨[], .finite false 1 0, false⟩)).put ["p".toList, "A.py".toList]
    (.file ⟨[255, 254], .finite false 1 0, false⟩)

def classSection : Text :=
  ["", "### b.py", "**Path**: `b.py`", "**Language**: Python", "", "**Exports**:", "- `class B`", "", "---",
    ""].map String.toList |> Text.unlines

def refusedSection : Text :=
  ["", "### b.py", "**Path**: `b.py`", "**Language**: Python", "",
    "_Error parsing file: [Errno 13] Permission denied: '/p/b.py'_", "", "---", ""].map String.toList |>
    Text.unlines

/-- Refusing a file changes its own section, which stands behind those on two files with the same name in
lower case, in the order in which they were given. -/
theorem shelf_changes_refused_section :
    (∀ p ∈ shelfFiles, HasSection .standard shelfRoot p) ∧
    sortFiles shelfFiles = [onShelf "a.py", onShelf "A.py", onShelf "b.py"] ∧ ∃ front back,
      ofDirectory (shelf false) .standard shelfRoot [] shelfFiles = .ok (front ++ classSection ++ back) ∧
      ofDirectory (shelf true) .standard shelfRoot [] shelfFiles = .ok (front ++ refusedSection ++ back) := by
  have hfiles : ∀ p ∈ shelfFiles, HasSection .standard shelfRoot p := by decide +kernel
  have hsorted : sortFiles shelfFiles = [onShelf "a.py", onShelf "A.py", onShelf "b.py"] := by
    decide +kernel
  have hread : ∀ q ∈ [onShelf "a.py", onShelf "A.py"] ++ [], (shelf true).read q = (shelf false).read q := by
    decide +kernel
  have hclass : sectionText .standard shelfRoot (onShelf "b.py") ((shelf false).read (onShelf "b.py")) =
      classSection := by decide +kernel
  have hrefused : sectionText .standard shelfRoot (onShelf "b.py") ((shelf true).read (onShelf "b.py")) =
      refusedSection := by decide +kernel
  obtain ⟨-, -, hown, -, -⟩ := page_is_sum_of_sections [] hfiles
  obtain ⟨front, back, hpage, hpage'⟩ := hown (shelf false) (shelf true) _ _ _ hsorted hread
  exact ⟨hfiles, hsorted, front, back, hclass ▸ hpage, hrefused ▸ hpage'⟩

end Page

end CodeIndex
