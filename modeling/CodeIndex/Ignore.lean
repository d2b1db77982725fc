import CodeIndex.FileSystem.Resolve
import CodeIndex.Glob
import CodeIndex.Text.Blank
import CodeIndex.Text.Newline

/-!
# Ignore rules

Which paths of a project are left out. The rules are globs: a fixed list, those in the project's
two ignore files, and those given. A glob with a slash is held against the whole path from the
project's root, any other against the last name; either also leaves out what lies below a
directory whose name it matches.
-/

namespace CodeIndex

structure IgnoreRules where
  root : Path
  patterns : List Text
deriving DecidableEq

namespace IgnoreRules

def builtIn : List Text :=
  [".git", ".git/**", "node_modules", "node_modules/**", "__pycache__", "__pycache__/**", "*.pyc",
    ".pytest_cache", ".pytest_cache/**", "dist", "dist/**", "build", "build/**", "coverage",
    "coverage/**", ".next", ".next/**", ".nuxt", ".nuxt/**", "venv", "venv/**", ".venv", ".venv/**",
    "env", "env/**", ".env", "*.log", ".DS_Store", "Thumbs.db", "*.swp", "*.swo", "*~", ".idea",
    ".idea/**", ".vscode", ".vscode/**", "project-index", "project-index/**"].map String.toList

def fileNames : List Text := [".gitignore".toList, ".indexignore".toList]

/-- Whether a line without the white space around it is a glob: neither blank, nor a comment, nor an
exception. -/
def isPattern : Text → Bool
  | [] => false
  | c :: _ => c != '#' && c != '!'

def patternsOf (bytes : Bytes) : List Text :=
  ((Text.linesOfBytes bytes).map Text.trim).filter isPattern

def patternsAt (fs : FileSystem) (p : Path) : Except Failure (List Text) := do
  if (← fs.isPresent p) then
    match fs.read p with
    | .ok bytes => return patternsOf bytes
    | .error _ => return []
  else return []

def added (fs : FileSystem) (root : Path) (custom : List Text) : Except Failure (List Text) := do
  let found ← fileNames.mapM fun name => patternsAt fs (root.child name)
  return found.flatten ++ custom

def load (fs : FileSystem) (root : Path) (custom : List Text) : Except Failure IgnoreRules := do
  let root ← fs.resolve root
  return ⟨root, builtIn ++ (← added fs root custom)⟩

def withoutFinalSlashes (pattern : Text) : Text :=
  (pattern.reverse.dropWhile (· == '/')).reverse

/-- Whether a glob itself matches a path: with a slash in it the whole path, where a slash in front
may be left out, otherwise the last name. -/
def matchesPath (pattern path name : Text) : Bool :=
  if '/' ∈ pattern then
    globMatches pattern path ||
      (pattern.head? = some '/' && globMatches (pattern.drop 1) path)
  else globMatches pattern name

def leavesOut (pattern : Text) (relative : Path) (name : Text) : Bool :=
  let pattern := withoutFinalSlashes pattern
  matchesPath pattern relative.toText name ||
    relative.parents.any fun dir => globMatches pattern dir.name

/-- A path as it is seen from the root, unchanged if it does not lie below it. -/
def fromRoot (rules : IgnoreRules) (p : Path) : Path := (p.relativeTo? rules.root).getD p

def ignores (rules : IgnoreRules) (p : Path) : Bool :=
  rules.patterns.any fun pattern => leavesOut pattern (rules.fromRoot p) p.name

def keep (rules : IgnoreRules) (ps : List Path) : List Path := ps.filter (!rules.ignores ·)

end IgnoreRules

end CodeIndex
