import CodeIndex.Text.Basic

/-!
# Trees of directories

What is drawn of a directory: the directories in it and then its files, each by name. A directory
may be cut off at the depth limit or refuse to be listed, and its files may be cut short, with a
line that says how many more there are.

`Tree.draw` draws a tree with one line for each entry. Every line starts with one block of four
characters for each directory above it.
-/

namespace CodeIndex

inductive Tree where
  | file (name : Text)
  | cutOff (name : Text)
  | denied (name : Text)
  /-- A directory with what is shown of its entries, and the number of further files if some are
  left out. -/
  | directory (name : Text) (entries : List Tree) (more : Option Int)

namespace Tree

def name : Tree → Text
  | file name => name
  | cutOff name => name
  | denied name => name
  | directory name _ _ => name

def label : Tree → Text
  | file name => name
  | t => t.name ++ ['/']

def connector (isLast : Bool) : Text :=
  if isLast then "└── ".toList else "├── ".toList

/-- What stands below an entry, left of what is in it. -/
def continuation (isLast : Bool) : Text :=
  if isLast then "    ".toList else "│   ".toList

def intText (n : Int) : Text :=
  (if n < 0 then ['-'] else []) ++ Nat.toDigits 10 n.natAbs

def moreText (n : Int) : Text := "... (".toList ++ intText n ++ " more files)".toList

mutual

/-- The lines below an entry, behind the given margin. Without `markers`, a directory that is cut
off or cannot be listed has none. -/
def inside (markers : Bool) (margin : Text) : Tree → List Text
  | file _ => []
  | cutOff _ => if markers then [margin ++ connector true ++ "...".toList] else []
  | denied _ => if markers then [margin ++ connector true ++ "[Permission Denied]".toList] else []
  | directory _ entries more => group markers margin more entries

def group (markers : Bool) (margin : Text) (more : Option Int) : List Tree → List Text
  | [] =>
    match more with
    | none => []
    | some n => [margin ++ connector true ++ moreText n]
  | t :: rest =>
    let isLast := rest.isEmpty && more.isNone
    (margin ++ connector isLast ++ t.label) ::
      (inside markers (margin ++ continuation isLast) t ++ group markers margin more rest)

end

def drawLines (markers : Bool) (t : Tree) : List Text := t.name :: inside markers [] t

def draw (markers : Bool) (t : Tree) : Text := Text.unlines (drawLines markers t)

end Tree

end CodeIndex
