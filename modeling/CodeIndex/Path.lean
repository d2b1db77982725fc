import CodeIndex.Text.Basic

/-!
# Paths

A path is an anchor and the names below it. Writing a path down and reading it back normalises it:
repeated slashes and components that are a single dot vanish, a double dot stays, and two leading
slashes are kept apart from one.
-/

namespace CodeIndex

/-- Where a path starts. Two leading slashes are an anchor of their own; three or more count as
one. -/
inductive Anchor where
  | relative
  | root
  | doubleRoot
deriving DecidableEq

def Anchor.text : Anchor → Text
  | relative => []
  | root => ['/']
  | doubleRoot => ['/', '/']

structure Path where
  anchor : Anchor
  names : List Text
deriving DecidableEq

namespace Path

def anchorOf : Text → Anchor
  | '/' :: '/' :: '/' :: _ => .root
  | '/' :: '/' :: _ => .doubleRoot
  | '/' :: _ => .root
  | _ => .relative

def namesOf (t : Text) : List Text :=
  (Text.pieces '/' t).filter fun name => name != [] && name != ['.']

def ofText (t : Text) : Path := ⟨anchorOf t, namesOf t⟩

def joinNames (names : List Text) : Text := ['/'].intercalate names

def bareText (p : Path) : Text := p.anchor.text ++ joinNames p.names

/-- A path as it is written; a dot stands for the relative path without names. -/
def toText (p : Path) : Text :=
  match p.bareText with
  | [] => ['.']
  | t => t

/-- The path `q` seen from `p`: below it, unless `q` has an anchor of its own. -/
def join (p q : Path) : Path :=
  match q.anchor with
  | .relative => ⟨p.anchor, p.names ++ q.names⟩
  | _ => q

def child (p : Path) (name : Text) : Path := ⟨p.anchor, p.names ++ [name]⟩

def name (p : Path) : Text := p.names.getLast?.getD []

def parent (p : Path) : Path := ⟨p.anchor, p.names.dropLast⟩

/-- The path one level up, by double dots where a relative path has no name to drop. -/
def above (p : Path) : Path :=
  if p.anchor = .relative ∧ (p.names = [] ∨ p.name = ['.', '.']) then p.child ['.', '.'] else p.parent

def hasNull (p : Path) : Bool := p.names.any (·.contains '\x00')

def namesAbove (names : List Text) : List (List Text) :=
  (List.range names.length).reverse.map names.take

def parents (p : Path) : List Path := (namesAbove p.names).map (Path.mk p.anchor)

def relativeTo? (p base : Path) : Option Path :=
  if p.anchor = base.anchor ∧ base.names.isPrefixOf p.names then
    some ⟨.relative, p.names.drop base.names.length⟩
  else none

/-- A name cut before its last dot, if there is something on both sides of the dot. -/
def cutSuffix (name : Text) : Text × Text :=
  let reversed := name.reverse
  let ext := (reversed.takeWhile (· != '.')).reverse
  match reversed.dropWhile (· != '.') with
  | [] => (name, [])
  | _ :: stem => if ext.isEmpty || stem.isEmpty then (name, []) else (stem.reverse, '.' :: ext)

def suffix (p : Path) : Text := (cutSuffix p.name).2

def stem (p : Path) : Text := (cutSuffix p.name).1

end Path

end CodeIndex
