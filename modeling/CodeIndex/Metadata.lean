import CodeIndex.Json.Parser
import CodeIndex.Json.Writer
import CodeIndex.Session
import CodeIndex.Sorting
import CodeIndex.Text.Newline
import CodeIndex.Timestamp

/-!
# Metadata of an index

What the index remembers of a run: for every file its modification time, its size and the page it
is described on. A file has changed when its record is missing or differs from what the file
system says now.

The metadata lives in a JSON file that others may have written, so every field is a JSON value. An
operation on one that is no object fails, each in its own way.
-/

namespace CodeIndex

structure Metadata where
  version : Json
  projectType : Json
  createdAt : Json
  updatedAt : Json
  files : Json

namespace Metadata

def fileName : Text := ".index-meta.json".toList

def fresh (now : Timestamp) : Metadata :=
  ⟨.text "1.0".toList, .null, .text now.iso, .null, .obj []⟩

def orElse (default : Json) : Json → Json
  | .null => default
  | v => v

def ofFields (now : Timestamp) (fields : Json.Fields) : Metadata :=
  let get (key : String) (default : Json) : Json := (Json.named? fields key).getD default
  ⟨get "version" (.text "1.0".toList), get "project_type" .null,
    orElse (.text now.iso) (get "created_at" .null), get "updated_at" .null,
    orElse (.obj []) (get "files" (.obj []))⟩

/-- The metadata in the content of a file. Text that is not JSON counts as no metadata. -/
def ofBytes (now : Timestamp) (bytes : Bytes) : Except Failure Metadata :=
  match Utf8.decode? bytes with
  | none => .error .undecodable
  | some t =>
    match Json.parse (Text.unifyLineEnds t) with
    | .ok (.obj fields) => .ok (ofFields now fields)
    | .ok _ => .error .noFields
    | .error fault => fault.orElse (fresh now)

/-- The metadata of the index in a directory, new if its file cannot be read. -/
def load (fs : FileSystem) (now : Timestamp) (indexDir : Path) : Except Failure Metadata := do
  if (← fs.isPresent (indexDir.child fileName)) then
    match fs.read (indexDir.child fileName) with
    | .ok bytes => ofBytes now bytes
    | .error _ => return fresh now
  else return fresh now

def toJson (m : Metadata) : Json :=
  .record [("version", m.version), ("project_type", m.projectType), ("created_at", m.createdAt),
    ("updated_at", m.updatedAt), ("files", m.files)]

def text (m : Metadata) : Text := Json.write .spread m.toJson

/-- How many composed values may stand inside each other in a field that is written. -/
def maxDepth : Nat := 494

def isWritable (m : Metadata) : Bool :=
  [m.version, m.projectType, m.createdAt, m.updatedAt, m.files].all (·.depth ≤ maxDepth)

def line (m : Metadata) : Except Failure Text :=
  if m.isWritable then .ok (Json.write .compact m.toJson) else .error .tooNested

def touch (m : Metadata) (now : Timestamp) : Metadata := { m with updatedAt := .text now.iso }

/-- Writes the metadata to its file, which stays empty if they cannot be written. -/
def save (m : Metadata) (indexDir : Path) : Action Unit := do
  Action.change (·.ensureDirs indexDir)
  if m.isWritable then Action.writeText (indexDir.child fileName) m.text
  else
    Action.writeText (indexDir.child fileName) []
    throw .tooNested

def setProjectType (m : Metadata) (kind : Json) : Metadata := { m with projectType := kind }

def records (m : Metadata) : Except Failure Json.Fields :=
  match m.files with
  | .obj fields => .ok fields
  | _ => .error .noFields

def recordFields : Json → Except Failure Json.Fields
  | .obj fields => .ok fields
  | _ => .error .noFields

/-- The modification time and the size of an entry. A link has none of its own: it is followed. -/
def measure : Entry → Double × Nat
  | .file data => (data.mtime, data.bytes.length)
  | .directory data => (data.mtime, data.size)
  | .special mtime size => (mtime, size)
  | .link _ => (.nan, 0)

def agrees (fields : Json.Fields) (e : Entry) : Bool :=
  let (mtime, size) := measure e
  let get (key : String) : Json := (Json.named? fields key).getD .null
  (get "mtime").sameNumber (.real mtime) && (get "size").sameNumber (.int size)

def needsIndex (m : Metadata) (fs : FileSystem) (path : Text) : Except Failure Bool := do
  match (← fs.look (Path.ofText path)) with
  | none => return false
  | some e =>
    match Json.field? (← m.records) (Json.letters path) with
    | none => return true
    | some r => if r.isSet then return !agrees (← recordFields r) e else return true

def record (e : Entry) (page checksum : Json) : Json :=
  let (mtime, size) := measure e
  .record [("mtime", .real mtime), ("size", .int size), ("indexed_in", page),
    ("checksum", checksum)]

def update (m : Metadata) (fs : FileSystem) (path : Text) (page checksum : Json) :
    Except Failure Metadata := do
  match (← fs.look (Path.ofText path)) with
  | none => return m
  | some e =>
    match m.files with
    | .obj fields =>
      let files := Json.setField fields (Json.letters path) (record e page checksum)
      return { m with files := .obj files }
    | _ => throw .unsupported

def holdsKey (key : Json.Letters) (items : List Json) : Bool :=
  items.any (Json.sameScalar (.str key))

/-- Removes the record with a key. Where the records are a text or an array, there must be nothing
to remove. -/
def removeKey (m : Metadata) (key : Json.Letters) : Except Failure Metadata :=
  match m.files with
  | .obj fields => .ok { m with files := .obj (Json.eraseField fields key) }
  | .arr items => if holdsKey key items then .error .unsupported else .ok m
  | .str ls => if Json.Letters.occursIn key ls then .error .unsupported else .ok m
  | _ => .error .unsupported

def remove (m : Metadata) (path : Text) : Except Failure Metadata := m.removeKey (Json.letters path)

def filesIn (m : Metadata) (dir : Text) : Except Failure (List Json.Letters) := do
  let dir := if dir.getLast? = some '/' then dir else dir ++ ['/']
  return ((← m.records).map Prod.fst).filter (Json.letters dir).isPrefixOf

def pageOf? (m : Metadata) (path : Text) : Except Failure (Option Json) := do
  match Json.field? (← m.records) (Json.letters path) with
  | none => return none
  | some r =>
    if r.isSet then
      match Json.named? (← recordFields r) "indexed_in" with
      | none => return none
      | some page =>
        if !page.isSet then return none
        else if page.isComposed then throw .unsupported
        else return some page
    else return none

def scalarLe? : Json → Json → Option Bool
  | .str s, .str t => some (s.le t)
  | a, b =>
    match a.number?, b.number? with
    | some x, some y => some (Json.numberLe x y)
    | _, _ => none

def comparable (vs : List Json) : Bool := vs.all fun a => vs.all fun b => (scalarLe? a b).isSome

def addPage (pages : List Json) (page : Json) : List Json :=
  if pages.any (Json.sameScalar page) then pages else pages ++ [page]

def affectedPages (m : Metadata) (paths : List Text) : Except Failure (List Json) := do
  let pages ← paths.foldlM (fun pages path => do
    return match (← m.pageOf? path) with
      | some page => addPage pages page
      | none => pages) []
  if comparable pages then return sortBy (fun a b => (scalarLe? a b).getD true) pages
  else throw .unsupported

/-- The keys of records that are not among the given ones. They need not be texts: a key can have
halves of characters in it. -/
def deletedKeys (m : Metadata) (current : List Json.Letters) : Except Failure (List Json.Letters) := do
  return ((← m.records).map Prod.fst).filter (!current.contains ·)

def deletedFiles (m : Metadata) (current : List Text) : Except Failure (List Json.Letters) :=
  m.deletedKeys (current.map Json.letters)

def cleanUpKeys (m : Metadata) (keys : List Json.Letters) : Except Failure Metadata :=
  keys.foldlM removeKey m

def cleanUp (m : Metadata) (paths : List Text) : Except Failure Metadata :=
  m.cleanUpKeys (paths.map Json.letters)

end Metadata

end CodeIndex
