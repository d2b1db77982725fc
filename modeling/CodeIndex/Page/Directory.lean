import CodeIndex.FileSystem.Resolve
import CodeIndex.Language
import CodeIndex.Sorting
import CodeIndex.Text.Newline

/-!
# Pages on directories

The page on a directory has a header and then one section for each file, in the order of the file
names in lower case. A section depends on the root, the path and the content of its file alone; a
file that cannot be read has a section that says so.
-/

namespace CodeIndex.Page

def header (dir : Text) : List Text :=
  ["# ".toList ++ (if dir.isEmpty then "Root Directory".toList else dir), [],
    "## Directory Purpose".toList,
    "_AI can describe the purpose of this directory here_".toList, [], "## Files".toList, []]

def description (fs : FileSystem) (language : Language) (p : Path) : Text :=
  match fs.read p with
  | .ok bytes => (language.outline (Text.unifyLineEnds (Utf8.decodeLossy bytes))).markdown
  | .error e => "_Error parsing file: ".toList ++ e.message ++ ['_']

def sectionLines (fs : FileSystem) (language : Language) (p shown : Path) : List Text :=
  ["### ".toList ++ p.name, "**Path**: ".toList ++ Outline.code shown.toText,
    "**Language**: ".toList ++ language.title, [], description fs language p, [], "---".toList, []]

/-- The section on a file: none if it has no language, and a failure if it does not lie below the
root. -/
def fileSection (fs : FileSystem) (registry : Registry) (root p : Path) :
    Except Failure (List Text) :=
  match p.relativeTo? root with
  | none => .error (.outside p.toText root.bareText)
  | some shown =>
    match registry.languageOf? p with
    | none => .ok []
    | some language => .ok (sectionLines fs language p shown)

def sortFiles (files : List Path) : List Path :=
  let keyed := files.map fun p => (Text.lower p.name, p)
  (sortBy (fun a b => Text.le a.1 b.1) keyed).map Prod.snd

def ofDirectory (fs : FileSystem) (registry : Registry) (root : Path) (dir : Text)
    (files : List Path) : Except Failure Text := do
  let sections ← (sortFiles files).mapM (fileSection fs registry root)
  return Text.unlines (header dir ++ sections.flatten)

end CodeIndex.Page
