import CodeIndex.Page.Directory
import CodeIndex.Proofs.Catalogue
import CodeIndex.Proofs.Results

/-!
# The text of a directory's page

For files below the root the page on a directory is always there. Its text is a function of the
files' contents: what else is in the file system does not show.
-/

namespace CodeIndex.Page

variable {fs fs' : FileSystem} {registry : Registry} {root p : Path} {dir : Text}
  {files : List Path}

theorem sortFiles_eq_sortBy (files : List Path) :
    sortFiles files = sortBy (fun p q => Text.le (Text.lower p.name) (Text.lower q.name)) files :=
  sortBy_keyed Text.le (fun p : Path => Text.lower p.name) files

theorem sortFiles_perm (files : List Path) : (sortFiles files).Perm files := by
  rw [sortFiles_eq_sortBy]
  exact sortBy_perm _ files

theorem mem_sortFiles : p ∈ sortFiles files ↔ p ∈ files := (sortFiles_perm files).mem_iff

/-- The section on a file that lies below the root. -/
def sectionOf (fs : FileSystem) (registry : Registry) (root p : Path) : List Text :=
  (fileSection fs registry root p).toOption.getD []

/-- The text of the page on a directory, empty if there is none. -/
def textOf (fs : FileSystem) (registry : Registry) (root : Path) (dir : Text)
    (files : List Path) : Text :=
  (ofDirectory fs registry root dir files).toOption.getD []

theorem fileSection_eq (hp : (p.relativeTo? root).isSome) :
    fileSection fs registry root p = .ok (sectionOf fs registry root p) := by
  obtain ⟨shown, hshown⟩ := Option.isSome_iff_exists.1 hp
  cases hlang : registry.languageOf? p with
  | none => simp [sectionOf, fileSection, hshown, hlang, Except.toOption]
  | some language => simp [sectionOf, fileSection, hshown, hlang, Except.toOption]

theorem ofDirectory_ok (hfiles : ∀ p ∈ files, (p.relativeTo? root).isSome) :
    ofDirectory fs registry root dir files =
      .ok (Text.unlines (header dir ++ (sortFiles files).flatMap (sectionOf fs registry root))) := by
  have hsections : (sortFiles files).mapM (fileSection fs registry root) =
      .ok ((sortFiles files).map (sectionOf fs registry root)) :=
    mapM_ok fun p hp => fileSection_eq (hfiles p (mem_sortFiles.1 hp))
  unfold ofDirectory
  rw [hsections]
  simp [bind, Except.bind, pure, Except.pure, List.flatMap]

theorem textOf_eq (hfiles : ∀ p ∈ files, (p.relativeTo? root).isSome) :
    textOf fs registry root dir files =
      Text.unlines (header dir ++ (sortFiles files).flatMap (sectionOf fs registry root)) := by
  rw [textOf, ofDirectory_ok hfiles]
  rfl

theorem ofDirectory_eq (hfiles : ∀ p ∈ files, (p.relativeTo? root).isSome) :
    ofDirectory fs registry root dir files = .ok (textOf fs registry root dir files) := by
  rw [textOf, ofDirectory_ok hfiles]
  rfl

/-- How the page on a directory begins. -/
def opening (dir : Text) : Text :=
  "# ".toList ++ (if dir.isEmpty then "Root Directory".toList else dir) ++ ['\n']

theorem opening_begins (hfiles : ∀ p ∈ files, (p.relativeTo? root).isSome) :
    opening dir <+: textOf fs registry root dir files := by
  rw [textOf_eq hfiles, header, opening, Text.unlines]
  simp only [List.cons_append, List.intercalate_cons_cons, List.append_assoc]
  exact (List.prefix_append_right_inj _).2
    ((List.prefix_append_right_inj _).2 (List.prefix_append _ _))

/-- The text of a page depends only on what is read from its files. -/
theorem textOf_congr (hread : ∀ p ∈ files, fs.read p = fs'.read p) :
    textOf fs registry root dir files = textOf fs' registry root dir files := by
  have hsections : ∀ p ∈ sortFiles files,
      fileSection fs registry root p = fileSection fs' registry root p := by
    intro p hp
    unfold fileSection sectionLines description
    rw [hread p (mem_sortFiles.1 hp)]
  unfold textOf ofDirectory
  rw [mapM_congr hsections]

theorem relativeTo?_of_listed (hroot : root.IsProper)
    (h : Catalogue.Listed fs registry root p) : (p.relativeTo? root).isSome := by
  obtain ⟨below, hbelow⟩ := h.below
  have hrel : p.relativeTo? root = some ⟨.relative, below⟩ :=
    Path.relativeTo?_eq_some.2 ⟨h.isProper.anchor.trans hroot.anchor.symm, rfl, hbelow.symm⟩
  simp [hrel]

end CodeIndex.Page
