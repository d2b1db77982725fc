import CodeIndex.Ignore
import CodeIndex.Language

/-!
# Catalogues of a project's files

A catalogue lists the files of a project that can be outlined, by directory. The directories are
walked from the root, each before those in it; links to directories are not walked, and neither are
ignored directories and those that cannot be listed.
-/

namespace CodeIndex

structure Visit where
  dir : Path
  files : List Text

namespace FileSystem

/-- Whether a name in a directory is that of a directory, or of a link to one. Only a link has to be
followed along its path. -/
def holdsDir (fs : FileSystem) (dir : Path) (name : Text) : Bool :=
  match fs.locate .entry dir with
  | .error _ => false
  | .ok loc =>
    match fs.get? (loc ++ [name]) with
    | some (.directory _) => true
    | some (.link _) => fs.isDir (dir.child name)
    | _ => false

/-- The directories below a path that are not skipped, each before those in it, down to the given
number of levels. -/
def walk (fs : FileSystem) (skips : Path → Bool) : Nat → Path → List Visit
  | 0, _ => []
  | levels + 1, dir =>
    match fs.list dir with
    | .error _ => []
    | .ok names =>
      let dirs := names.filter (fs.holdsDir dir)
      let entered := dirs.filter fun n => !skips (dir.child n) && !fs.isLink (dir.child n)
      ⟨dir, names.filter fun n => !fs.holdsDir dir n⟩ ::
        entered.flatMap fun n => walk fs skips levels (dir.child n)

end FileSystem

abbrev Catalogue := List (Text × List Path)

namespace Catalogue

def directoryKey (root dir : Path) : Text :=
  match dir.relativeTo? root with
  | some p => p.bareText
  | none => dir.bareText

def filesOf (registry : Registry) (rules : IgnoreRules) (v : Visit) : List Path :=
  (v.files.map v.dir.child).filter fun p =>
    !rules.ignores p && (registry.languageOf? p).isSome

/-- The catalogue of the project with the given root. No way is longer than the deepest entry, which
bounds the walk. -/
def collect (fs : FileSystem) (registry : Registry) (rules : IgnoreRules) (root : Path) :
    Catalogue :=
  ((fs.walk rules.ignores (fs.depth + 1) root).map fun v =>
    (directoryKey root v.dir, filesOf registry rules v)).filter fun x => !x.2.isEmpty

def fileCount (c : Catalogue) : Nat := c.foldl (fun n x => n + x.2.length) 0

end Catalogue

end CodeIndex
