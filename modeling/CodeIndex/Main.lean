import CodeIndex.Indexing
import Std.Time.Zoned

/-!
# The program

Copies what a run may look at from the disk into a file system, runs on that, and writes back what
has changed.
-/

namespace CodeIndex.Disk

def readNames : List Text :=
  Metadata.fileName :: "package.json".toList :: IgnoreRules.fileNames

def isRead (p : Path) : Bool :=
  readNames.contains p.name || (Registry.standard.languageOf? p).isSome

/-- A target for links that lead nowhere: no name on a disk has a null character in it. -/
def nowhere : Text := [Char.ofNat 0]

def written (p : Path) : String := String.ofList p.toText

def content (p : Path) : IO (Option Bytes) := do
  if isRead p then
    try return some (← IO.FS.readBinFile (written p)).toList
    catch _ => return none
  else return some []

def mtimeOf (info : IO.FS.Metadata) : Double :=
  Double.ofTime info.modified.sec info.modified.nsec.toNat

/-- Copies what is at a path and below it. Of a directory that is skipped only the directory itself
is copied; of a link also what it leads to. -/
partial def copy (skips : Path → Bool) (fs : FileSystem) (p : Path) : IO FileSystem := do
  let place := (← IO.currentDir) / written p
  try
    let info ← place.symlinkMetadata
    match info.type with
    | .dir =>
      let data : DirData := ⟨true, true, true, mtimeOf info, info.byteSize.toNat⟩
      let fs := fs.place p (.directory data)
      if skips p then return fs
      try
        let names := (← place.readDir).map fun entry => entry.fileName.toList
        names.foldlM (fun fs name => copy skips fs (p.child name)) fs
      catch _ => return fs.place p (.directory { data with listable := false })
    | .symlink =>
      try
        let target := Path.ofText (← IO.FS.realPath (written p)).toString.toList
        let fs := fs.place p (.link target.toText)
        if (fs.stat target).isOk then return fs else copy skips fs target
      catch _ => return fs.place p (.link nowhere)
    | .file =>
      match (← content p) with
      | some bytes => return fs.place p (.file ⟨bytes, mtimeOf info, false⟩)
      | none => return fs.place p (.file ⟨[], mtimeOf info, true⟩)
    | .other => return fs.place p (.special (mtimeOf info) info.byteSize.toNat)
  catch _ => return fs

def settle (o : CommandLine.Options) : IO CommandLine.Options := do
  try
    return { o with project := (← IO.FS.realPath (String.ofList o.project)).toString.toList }
  catch _ => return o

def around (o : CommandLine.Options) : IO FileSystem := do
  let here := Path.ofText (← IO.currentDir).toString.toList
  let fs := (FileSystem.empty .standard here.names).place here (.directory Host.standard.newDir)
  let root := fs.absolute (Path.ofText o.project)
  let fs ← copy (IgnoreRules.mk root IgnoreRules.builtIn).ignores fs root
  match o.output with
  | none => return fs
  | some output => copy (fun _ => false) fs (root.join (Path.ofText output))

def writeBack (before after : FileSystem) : IO Unit := do
  for (loc, e) in after.entries do
    if e.isDirectory ∧ before.get? loc = none then
      IO.FS.createDirAll (written ⟨.root, loc⟩)
  for (p, bytes) in before.changes after do
    IO.FS.writeBinFile (written p) bytes.toByteArray

def now : IO Timestamp := do
  let t ← Std.Time.PlainDateTime.now
  return ⟨t.year.toInt.toNat, t.month.val.toNat, t.day.val.toNat, t.hour.val.toNat,
    t.minute.val.toNat, t.second.val.toNat, t.nanosecond.val.toNat / 1000⟩

end CodeIndex.Disk

open CodeIndex in
def main (arguments : List String) : IO UInt32 := do
  let request ← match CommandLine.parse (arguments.map String.toList) with
    | .run o => CommandLine.Request.run <$> Disk.settle o
    | other => pure other
  let fs ← match request with
    | .run o => Disk.around o
    | _ => pure (FileSystem.empty .standard [])
  let outcome := Indexing.perform Registry.standard (← Disk.now) request fs
  IO.print (String.ofList outcome.stdout)
  IO.eprint (String.ofList outcome.stderr)
  Disk.writeBack fs outcome.fs
  match outcome.result with
  | .ok code => return code.toUInt32
  | .error failure =>
    IO.eprintln (String.ofList failure.message)
    return 1
