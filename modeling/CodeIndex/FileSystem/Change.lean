import CodeIndex.FileSystem.Resolve

/-!
# Changing a file system

Writing files and making directories along paths, and what has changed between two states.
-/

namespace CodeIndex.FileSystem

def write (fs : FileSystem) (p : Path) (bytes : Bytes) : Except Failure FileSystem :=
  answer p do
    let loc ← fs.locate .file p
    match fs.get? loc with
    | some (.file data) => if data.denied then throw .denied
    | some (.directory _) => throw .isDirectory
    | some (.link _) => throw .tooManyLinks
    | some (.special ..) => throw .noDevice
    | none => if !fs.isWritableAt loc.dropLast then throw .denied
    return fs.put loc (.file ⟨bytes, fs.host.clock, false⟩)

def makeDir (fs : FileSystem) (p : Path) : Except Failure FileSystem :=
  answer p do
    let loc ← fs.locate .name p
    match fs.get? loc with
    | some _ => throw .alreadyThere
    | none =>
      if !fs.isWritableAt loc.dropLast then throw .denied
      return fs.put loc (.directory fs.host.newDir)

/-- Makes a directory, which may be there already. -/
def ensureDir (fs : FileSystem) (p : Path) : Except Failure FileSystem :=
  match fs.makeDir p with
  | .error (.refused .notFound t) => .error (.refused .notFound t)
  | .error (.refused e t) => do
    if (← fs.look p).any Entry.isDirectory then return fs else throw (.refused e t)
  | result => result

/-- Makes a directory and the directories above it that are missing, where the names are given last
one first. -/
def ensureDirsAlong (anchor : Anchor) : List Text → FileSystem → Except Failure FileSystem
  | [], fs => fs.ensureDir ⟨anchor, []⟩
  | name :: above, fs =>
    let p : Path := ⟨anchor, (name :: above).reverse⟩
    match fs.makeDir p with
    | .error (.refused .notFound _) => do (← ensureDirsAlong anchor above fs).ensureDir p
    | _ => fs.ensureDir p

def ensureDirs (fs : FileSystem) (p : Path) : Except Failure FileSystem :=
  ensureDirsAlong p.anchor p.names.reverse fs

/-- Places an entry from outside, with the directories above it. A file replaces what its path leads
to, a link replaces nothing but itself. Where the path is refused nothing happens. -/
def place (fs : FileSystem) (p : Path) (e : Entry) : FileSystem :=
  let ready (q : Path) : FileSystem := (fs.ensureDirs q).toOption.getD fs
  match e with
  | .file _ | .special .. =>
    let fs := ready p.parent
    match fs.locate .entry p with
    | .ok loc => fs.put loc e
    | .error _ => fs
  | .link _ =>
    let fs := ready p.parent
    match fs.locate .name p with
    | .ok loc => fs.put loc e
    | .error _ => fs
  | .directory _ =>
    let fs := ready p
    match fs.locate .entry p with
    | .ok loc => fs.put loc e
    | .error _ => fs

def remove (fs : FileSystem) (p : Path) : FileSystem :=
  match fs.locate .name p with
  | .ok loc => fs.erase loc
  | .error _ => fs

/-- Whether an entry can be reached by listing directories from the root. -/
def isListed (fs : FileSystem) (loc : Location) : Bool :=
  (Path.namesAbove loc).all fun dir => (fs.get? dir).any Entry.isListable

def readableFiles (fs : FileSystem) : List (Location × Bytes) :=
  fs.entries.filterMap fun x =>
    match x.2 with
    | .file data => if data.denied || !fs.isListed x.1 then none else some (x.1, data.bytes)
    | _ => none

def changes (before after : FileSystem) : List (Path × Bytes) :=
  let old := before.readableFiles
  let changed := after.readableFiles.filter fun x => !old.contains x
  let named := changed.map fun x => ((⟨.root, x.1⟩ : Path), x.2)
  let order := Text.sortedSet (named.map fun x => x.1.toText)
  order.filterMap fun t => named.find? fun x => x.1.toText = t

end CodeIndex.FileSystem
