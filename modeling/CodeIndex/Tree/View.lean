import CodeIndex.FileSystem.Resolve
import CodeIndex.Sorting
import CodeIndex.Text.Lower
import CodeIndex.Tree.Basic

/-!
# Views of a directory

A view says what is shown of the directories of a file system. The full view shows files up to a
number for each directory and marks what it does not go into; the compact view shows only the files
that describe a project, and marks nothing.

Links to directories are gone into like directories, so it is the depth limit that ends the way
through links that lead back.
-/

namespace CodeIndex

structure View where
  hides : Path → Bool
  lists : Path → Bool
  maxDepth : Nat
  /-- How many files of a directory are shown; a negative number leaves out that many. -/
  maxFiles : Option Int

namespace View

def full (hides : Path → Bool) (maxDepth : Int) (showFiles : Bool) (maxFiles : Int) : View where
  hides := hides
  lists _ := showFiles
  maxDepth := maxDepth.toNat
  maxFiles := some maxFiles

def keyFileNames : List Text :=
  ["package.json", "tsconfig.json", "pyproject.toml", "setup.py", "requirements.txt", "Cargo.toml",
    "go.mod", "pom.xml", "build.gradle", "Makefile", "Dockerfile", "docker-compose.yml",
    "README.md", ".env.example"].map String.toList

def isKeyFile (p : Path) : Bool :=
  keyFileNames.contains p.name ||
    (p.suffix == ".md".toList && "README".toList.isPrefixOf p.name)

def compact (hides : Path → Bool) (maxDepth : Int) : View where
  hides := hides
  lists := isKeyFile
  maxDepth := maxDepth.toNat
  maxFiles := none

end View

namespace Tree

/-- The order of entries: directories first, then by name in lower case. -/
def entryLe (a b : Bool × Text) : Bool :=
  if a.1 = b.1 then Text.le a.2 b.2 else a.1

abbrev Item := Text × Option Entry

def itemsOf (fs : FileSystem) (dir : Path) : Except Failure (List Item) := do
  (← fs.list dir).mapM fun name => do return (name, ← fs.look (dir.child name))

def isDirectory (x : Item) : Bool := x.2.any Entry.isDirectory

def sortItems (items : List Item) : List Item :=
  let keyed := items.map fun x => ((isDirectory x, Text.lower x.1), x)
  (sortBy (fun a b => entryLe a.1 b.1) keyed).map Prod.snd

/-- The first files up to a number. A negative number takes that many off the end. -/
def takeFiles (files : List Text) (limit : Int) : List Text :=
  if limit < 0 then files.take (files.length + limit).toNat else files.take limit.toNat

/-- The files that are shown, and how many more there are if some are left out, given the files
that are listed and the number of all that are not hidden. -/
def limitFiles (limit : Option Int) (listed : List Text) (total : Nat) : List Text × Option Int :=
  match limit with
  | none => (listed, none)
  | some limit =>
    if limit < listed.length then (takeFiles listed limit, some (total - limit))
    else (listed, none)

def ofDirectory (fs : FileSystem) (view : View) : Nat → Path → Text → Except Failure Tree
  | 0, _, name => .ok (.cutOff name)
  | depth + 1, dir, name =>
    match itemsOf fs dir with
    | .error (.refused .denied _) => .ok (.denied name)
    | .error e => .error e
    | .ok items => do
      let shown := (sortItems items).filter fun x => !view.hides (dir.child x.1)
      let dirs := (shown.filter isDirectory).map Prod.fst
      let files := (shown.filter fun x => x.2.any Entry.isFile).map Prod.fst
      let (listed, more) :=
        limitFiles view.maxFiles (files.filter fun n => view.lists (dir.child n)) files.length
      let inner ← dirs.mapM fun n => ofDirectory fs view depth (dir.child n) n
      return .directory name (inner ++ listed.map .file) more

def ofPath (fs : FileSystem) (view : View) (root : Path) : Except Failure Tree := do
  let root ← fs.resolve root
  ofDirectory fs view view.maxDepth root root.name

end Tree

end CodeIndex
