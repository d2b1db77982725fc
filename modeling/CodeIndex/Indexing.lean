import CodeIndex.Catalogue
import CodeIndex.CommandLine
import CodeIndex.Metadata
import CodeIndex.Page.Directory
import CodeIndex.Page.Overview
import CodeIndex.Page.Parts

/-!
# Indexing a project

A run reads the rules, the metadata and the kind of a project, collects its files, writes a page for
each directory, the main page, and last the metadata. An update leaves out the directories in
which no file has changed.
-/

namespace CodeIndex.Indexing

structure Setting where
  registry : Registry
  now : Timestamp
  root : Path
  indexDir : Path
  onlyChanged : Bool

namespace Setting

def pagesDir (s : Setting) : Path := s.indexDir.child Overview.pagesName

end Setting

def directoryTitle (key : Text) : Text := if key.isEmpty then "root".toList else key

def pageBase (key : Text) : Text :=
  if key.isEmpty then "root".toList else key.map fun c => if c = '/' then '_' else c

def anyChanged (m : Metadata) (fs : FileSystem) : List Path → Except Failure Bool
  | [] => .ok false
  | p :: rest => do
    if (← m.needsIndex fs p.toText) then return true
    anyChanged m fs rest

/-- Records that some files are described on pages, each of them on the last one. -/
def recordFiles (m : Metadata) (fs : FileSystem) (files : List Path) (pages : List Text) :
    Except Failure Metadata :=
  files.foldlM (fun m p => pages.foldlM (fun m page => m.update fs p.toText (.text page) .null) m) m

def indexDirectory (s : Setting) (m : Metadata) (key : Text) (files : List Path) :
    Action Metadata := do
  Action.print ("Indexing: ".toList ++ directoryTitle key)
  let content ← Action.ask fun fs => Page.ofDirectory fs s.registry s.root key files
  let pages ← Page.write s.pagesDir (pageBase key) content
  Action.ask fun fs => recordFiles m fs files pages

def visitDirectory (s : Setting) (m : Metadata) (x : Text × List Path) : Action Metadata := do
  if s.onlyChanged then
    if (← Action.ask fun fs => anyChanged m fs x.2) then indexDirectory s m x.1 x.2 else return m
  else indexDirectory s m x.1 x.2

def foundText (c : Catalogue) : Text :=
  "Found ".toList ++ Nat.toDigits 10 c.fileCount ++ " indexable files in ".toList ++
    Nat.toDigits 10 c.length ++ " directories".toList

def index (s : Setting) : Action Unit := do
  Action.print ("Indexing project: ".toList ++ s.root.toText)
  let rules ← Action.ask fun fs => IgnoreRules.load fs s.root []
  let old ← Action.ask fun fs => Metadata.load fs s.now s.indexDir
  let project ← Action.ask fun fs => ProjectKind.detect fs s.root
  Action.print ("Detected project type: ".toList ++ project.kind)
  Action.print ("Tech stack: ".toList ++ ProjectKind.stackText project.stack)
  Action.print "Scanning files...".toList
  let catalogue ← Action.ask fun fs => .ok (Catalogue.collect fs s.registry rules s.root)
  Action.print (foundText catalogue)
  Action.change (·.ensureDirs s.pagesDir)
  let updated ← catalogue.foldlM (visitDirectory s) (old.setProjectType (.text project.kind))
  Action.print "Generating main index...".toList
  Overview.write s.root s.indexDir project rules s.now
  (updated.touch s.now).save s.indexDir
  Action.print ("\nIndex generated at: ".toList ++ s.indexDir.toText)
  Action.print ("Main index: ".toList ++ (s.indexDir.child Overview.fileName).toText)

/-- The setting that options ask for, with the root as it is resolved. -/
def settingOf (registry : Registry) (now : Timestamp) (o : CommandLine.Options) (root : Path) :
    Except Failure Setting :=
  match o.output with
  | none => .error .unsupported
  | some output => .ok ⟨registry, now, root, root.join (Path.ofText output), o.update && !o.force⟩

def run (registry : Registry) (now : Timestamp) (o : CommandLine.Options) : Action Nat := do
  let root ← Action.ask fun fs => fs.resolve (Path.ofText o.project)
  let setting ← Action.ask fun _ => settingOf registry now o root
  if (← Action.ask (·.isPresent root)) then
    index setting
    return 0
  else
    Action.print ("Error: Project directory not found: ".toList ++ root.toText)
    return 1

structure Outcome where
  /-- The code that it ends with, or what kept it from ending by itself. -/
  result : Except Failure Nat
  fs : FileSystem
  stdout : Text
  stderr : Text

def perform (registry : Registry) (now : Timestamp) (request : CommandLine.Request)
    (fs : FileSystem) : Outcome :=
  match request with
  | .help => ⟨.ok 0, fs, CommandLine.help.toList, []⟩
  | .refuse message => ⟨.ok 2, fs, [], CommandLine.refusal message⟩
  | .run o =>
    match run registry now o ⟨fs, []⟩ with
    | .ok code s => ⟨.ok code, s.fs, s.printed, []⟩
    | .error e s => ⟨.error e, s.fs, s.printed, []⟩

def program (registry : Registry) (now : Timestamp) (arguments : List Text) (fs : FileSystem) :
    Outcome :=
  perform registry now (CommandLine.parse arguments) fs

end CodeIndex.Indexing
