import CodeIndex.Session

/-!
# Pages in parts

A page of more than 32000 characters is written in parts of whole lines. Each part takes lines as
long as they fit, counting one character for the end of each, and takes at least one.
-/

namespace CodeIndex.Page

def maxChars : Nat := 32000

/-- Lines that go into one part, last one first, and their size. -/
structure Filling where
  lines : List Text
  size : Nat

/-- Goes on by one line: the parts that are full, last one first, and the one being filled. -/
def fillStep (limit : Nat) (s : List (List Text) × Filling) (line : Text) :
    List (List Text) × Filling :=
  let size := line.length + 1
  if limit < s.2.size + size && !s.2.lines.isEmpty then
    (s.2.lines.reverse :: s.1, ⟨[line], size⟩)
  else (s.1, ⟨line :: s.2.lines, s.2.size + size⟩)

def cutLines (limit : Nat) (ls : List Text) : List (List Text) :=
  let s := ls.foldl (fillStep limit) ([], ⟨[], 0⟩)
  (if s.2.lines.isEmpty then s.1 else s.2.lines.reverse :: s.1).reverse

def parts (content : Text) : List Text := (cutLines maxChars (Text.lines content)).map Text.unlines

def partNumber (n : Nat) : Text := Nat.toDigits 10 n

def partHeading (base : Text) (n : Nat) : Text :=
  if n ≤ 1 then []
  else "# ".toList ++ base ++ " (Part ".toList ++ partNumber n ++ ")\n\n".toList

def pageFiles (base content : Text) : List (Text × Text) :=
  if content.length ≤ maxChars then [(base ++ ".md".toList, content)]
  else
    (parts content).mapIdx fun i part =>
      (base ++ "_part".toList ++ partNumber (i + 1) ++ ".md".toList,
        partHeading base (i + 1) ++ part)

def shownPath (output p : Path) : Except Failure Text :=
  match p.relativeTo? output.parent with
  | some shown => .ok shown.toText
  | none => .error (.outside p.toText output.parent.bareText)

def writeFile (output : Path) (file : Text × Text) : Action Text := do
  let p := output.join (Path.ofText file.1)
  Action.change (·.ensureDirs p.parent)
  Action.writeText p file.2
  Action.ask fun _ => shownPath output p

def write (output : Path) (base content : Text) : Action (List Text) :=
  (pageFiles base content).mapM (writeFile output)

end CodeIndex.Page
