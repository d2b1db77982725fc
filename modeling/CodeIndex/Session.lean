import CodeIndex.FileSystem.Change

/-!
# Actions

An action changes a file system and prints as it goes. When it fails, what it has changed and printed
up to there stays.
-/

namespace CodeIndex

structure Session where
  fs : FileSystem
  printed : Text

abbrev Action := EStateM Failure Session

namespace Action

/-- Prints a line. The output takes every text. -/
def print (line : Text) : Action Unit :=
  modify fun s => { s with printed := s.printed ++ line ++ ['\n'] }

def ask {α : Type} (question : FileSystem → Except Failure α) : Action α := do
  match question (← get).fs with
  | .ok a => return a
  | .error e => throw e

def change (f : FileSystem → Except Failure FileSystem) : Action Unit := do
  let fs ← ask f
  modify fun s => { s with fs := fs }

def writeText (p : Path) (content : Text) : Action Unit :=
  change (·.write p (Utf8.encode content))

end Action

end CodeIndex
