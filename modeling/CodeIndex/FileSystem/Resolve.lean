import CodeIndex.Failure
import CodeIndex.FileSystem.Basic
import CodeIndex.Path

/-!
# Paths in a file system

A path is walked name by name. Every name is looked up in a directory, a double dot goes up, and a
link goes on at its target; more than forty links on one way are too many. The last name may be
missing: `locate` then says where it would be.

`realPath` instead follows links without looking whether anything is there, so that a path to a
missing file can be written without links too.
-/

namespace CodeIndex.FileSystem

def maxLinks : Nat := 40

def maxNameSize : Nat := 255

def maxPathSize : Nat := 4095

inductive Aim where
  /-- What is there, through all links. -/
  | entry
  /-- The last name itself, even if it is a link. -/
  | name
  /-- A file to be written, through all links. -/
  | file
deriving DecidableEq

/-- The names in a link's target, with an empty one at the end where the target ends with a slash. -/
def targetNames (target : Text) : List Text :=
  (Text.pieces '/' target).filter (!·.isEmpty) ++
    if target.getLast? = some '/' then [[]] else []

def targetStart (dir : Location) (target : Text) : Location :=
  if ['/'].isPrefixOf target then [] else dir

def isSearchableAt (fs : FileSystem) (loc : Location) : Bool :=
  (fs.get? loc).all Entry.isSearchable

def isWritableAt (fs : FileSystem) (loc : Location) : Bool :=
  (fs.get? loc).all Entry.isWritable

/-- Walks names from a directory that is there, as far as the directories on the way can be
searched. `follow` goes on at a link. A slash at the end asks for a directory, as a final dot does;
where a file is to be written it is refused without a look at what is there. -/
def walkNames (fs : FileSystem) (follow : Location → List Text → Except Errno Location)
    (aim : Aim) : Location → List Text → Except Errno Location
  | cur, [] => .ok cur
  | cur, name :: rest =>
    if name = [] then walkNames fs follow aim cur rest
    else if !fs.isSearchableAt cur then .error .denied
    else if name = ['.'] then walkNames fs follow aim cur rest
    else if name = ['.', '.'] then walkNames fs follow aim cur.dropLast rest
    else if aim = .file ∧ rest = [[]] then .error .isDirectory
    else if maxNameSize < Utf8.size name then .error .nameTooLong
    else
      match fs.get? (cur ++ [name]) with
      | none => if rest.isEmpty then .ok (cur ++ [name]) else .error .notFound
      | some (.directory _) => walkNames fs follow aim (cur ++ [name]) rest
      | some (.link target) =>
        if rest.isEmpty && aim = .name then .ok (cur ++ [name])
        else follow (targetStart cur target) (targetNames target ++ rest)
      | some _ => if rest.isEmpty then .ok (cur ++ [name]) else .error .notDirectory

def walkLinks (fs : FileSystem) (aim : Aim) : Nat → Location → List Text → Except Errno Location
  | 0 => walkNames fs (fun _ _ => .error .tooManyLinks) aim
  | n + 1 => walkNames fs (walkLinks fs aim n) aim

def startOf (fs : FileSystem) (p : Path) : Location :=
  match p.anchor with
  | .relative => fs.cwd
  | _ => []

def isDirectoryAt (fs : FileSystem) (loc : Location) : Bool :=
  (fs.get? loc).any Entry.isDirectory

def locate (fs : FileSystem) (aim : Aim) (p : Path) : Except Errno Location :=
  if maxPathSize < Utf8.size p.toText then .error .nameTooLong
  else if fs.isDirectoryAt (fs.startOf p) then walkLinks fs aim maxLinks (fs.startOf p) p.names
  else .error .notFound

def answer {α : Type} (p : Path) (result : Except Errno α) : Except Failure α :=
  if p.hasNull then .error .nullCharacter
  else
    match result with
    | .ok a => .ok a
    | .error e => .error (.refused e p.toText)

def stat (fs : FileSystem) (p : Path) : Except Failure Entry :=
  answer p do
    match fs.get? (← fs.locate .entry p) with
    | some e => return e
    | none => throw .notFound

/-- What is at a path, if anything is. A path that leads nowhere has nothing, but one that is too
long is a failure, and so is one through a directory that cannot be searched. -/
def look (fs : FileSystem) (p : Path) : Except Failure (Option Entry) :=
  match fs.stat p with
  | .ok e => .ok (some e)
  | .error (.refused cause t) =>
    if cause.meansAbsent then .ok none else .error (.refused cause t)
  | .error _ => .ok none

def isPresent (fs : FileSystem) (p : Path) : Except Failure Bool :=
  Option.isSome <$> fs.look p

def isDir (fs : FileSystem) (p : Path) : Bool :=
  match fs.stat p with
  | .ok e => e.isDirectory
  | .error _ => false

def isLink (fs : FileSystem) (p : Path) : Bool :=
  match fs.locate .name p with
  | .ok loc => (fs.get? loc).any Entry.isLink
  | .error _ => false

def list (fs : FileSystem) (p : Path) : Except Failure (List Text) :=
  answer p do
    let loc ← fs.locate .entry p
    match fs.get? loc with
    | some (.directory data) => if data.listable then return fs.childNames loc else throw .denied
    | some _ => throw .notDirectory
    | none => throw .notFound

def read (fs : FileSystem) (p : Path) : Except Failure Bytes :=
  answer p do
    match fs.get? (← fs.locate .entry p) with
    | some (.file data) => if data.denied then throw .denied else return data.bytes
    | some (.directory _) => throw .isDirectory
    | some (.link _) => throw .tooManyLinks
    | some (.special ..) => throw .noDevice
    | none => throw .notFound

def collapse (names : List Text) : Location :=
  names.foldl (fun done name => if name = ['.', '.'] then done.dropLast else done ++ [name]) []

def absolute (fs : FileSystem) (p : Path) : Path where
  anchor := if p.anchor = .relative then .root else p.anchor
  names := collapse (fs.startOf p ++ p.names)

/-- Links, named by the way they were reached, with where each of them leads. A link that is still
being followed leads nowhere yet. -/
abbrev Followed := List (Path × Option Path)

inductive Stuck where
  /-- A link was met while it was being followed. The path leads to it, and on along all that was
  still to come. -/
  | loop (p : Path)
  | tooNested

def Stuck.join (toCome : Path) : Stuck → Stuck
  | loop p => loop (p.join toCome)
  | tooNested => tooNested

def targetAt? (fs : FileSystem) (p : Path) : Option Text :=
  let loc := (fs.absolute p).names
  if maxPathSize < Utf8.size p.toText || !(Path.namesAbove loc).all fs.isSearchableAt then none
  else
    match fs.get? loc with
    | some (.link target) => some target
    | _ => none

def realPieces (fs : FileSystem)
    (enter : Followed → Path → Text → Except Stuck (Path × Followed)) :
    Followed → Path → List Text → Except Stuck (Path × Followed)
  | followed, cur, [] => .ok (cur, followed)
  | followed, cur, piece :: rest =>
    if piece = [] || piece = ['.'] then realPieces fs enter followed cur rest
    else if piece = ['.', '.'] then realPieces fs enter followed cur.above rest
    else
      let next := cur.child piece
      let toCome := Path.ofText (Path.joinNames rest)
      match fs.targetAt? next with
      | none => realPieces fs enter followed next rest
      | some target =>
        match followed.lookup next with
        | some (some real) => realPieces fs enter followed real rest
        | some none => .error (.loop (next.join toCome))
        | none =>
          match enter ((next, none) :: followed) cur target with
          | .ok (real, followed) => realPieces fs enter ((next, some real) :: followed) real rest
          | .error stuck => .error (stuck.join toCome)

def maxNesting : Nat := 985

def realLinks (fs : FileSystem) : Nat → Followed → Path → List Text →
    Except Stuck (Path × Followed)
  | 0 => fun _ _ _ => .error .tooNested
  | n + 1 =>
    realPieces fs fun followed dir target =>
      let start : Path := if ['/'].isPrefixOf target then ⟨.root, []⟩ else dir
      realLinks fs n followed start (Text.pieces '/' target)

def fromRoot (fs : FileSystem) (p : Path) : Except Failure Path :=
  if fs.isDirectoryAt (fs.startOf p) then .ok (fs.absolute p) else .error .noCurrentDirectory

def realPath (fs : FileSystem) (p : Path) : Except Failure Path :=
  let start : Path := ⟨if p.anchor = .relative then .relative else .root, []⟩
  match realLinks fs (maxNesting + 1) [] start p.names with
  | .ok (real, _) => fs.fromRoot real
  | .error (.loop real) => fs.fromRoot real
  | .error .tooNested => .error .tooNested

/-- A path without links, double dots and relative parts. Links that lead back to themselves are a
failure. -/
def resolve (fs : FileSystem) (p : Path) : Except Failure Path :=
  if p.hasNull then .error .nullCharacter
  else do
    let real ← fs.realPath p
    match fs.stat real with
    | .error (.refused .tooManyLinks t) => throw (.linkLoop t)
    | _ => return real

end CodeIndex.FileSystem
