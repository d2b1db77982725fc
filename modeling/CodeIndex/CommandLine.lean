import CodeIndex.Text.Digit
import CodeIndex.Text.Quoted

/-!
# The command line

Options may stand anywhere. A long one may be shortened as long as it is clear which is meant, short
ones may be put together, and a value may follow directly, behind an equals sign or as the next
argument. All arguments behind a double hyphen are no options, and neither are a hyphen alone,
negative numbers and unknown options with a blank in them.

There is one argument besides the options, the project. What cannot be placed is reported when all
is read, while a wrong option is reported at once, before any of those put together with it counts.
-/

namespace CodeIndex.CommandLine

structure Options where
  project : Text
  /-- The directory for the index. There is none where a double hyphen was given as its name: a
  double hyphen is taken off wherever it stands. -/
  output : Option Text
  update : Bool
  force : Bool
deriving DecidableEq

inductive Request where
  | run (options : Options)
  | help
  | refuse (message : Text)
deriving DecidableEq

inductive Flag where
  | help
  | output
  | update
  | force
deriving DecidableEq

def spellings : List (Text × Flag) :=
  [("-h".toList, .help), ("--help".toList, .help), ("--output".toList, .output),
    ("-o".toList, .output), ("--update".toList, .update), ("-u".toList, .update),
    ("--force".toList, .force), ("-f".toList, .force)]

def flag? (spelling : Text) : Option Flag :=
  (spellings.find? fun s => s.1 = spelling).map Prod.snd

def Flag.names (f : Flag) : Text :=
  ['/'].intercalate ((spellings.filter fun s => s.2 = f).map Prod.fst)

inductive Reading where
  | plain
  | doubleHyphen
  | unknown
  /-- An option, and what follows it directly. -/
  | option (flag : Flag) (isLong : Bool) (attached : Option Text)
deriving DecidableEq

def cutEquals (t : Text) : Text × Option Text :=
  match t.dropWhile (· != '=') with
  | [] => (t, none)
  | _ :: value => (t.takeWhile (· != '='), some value)

/-- Whether a text is a negative number, possibly with a line feed behind it. -/
def isNegativeNumber (t : Text) : Bool :=
  let t := if t.getLast? = some '\n' then t.dropLast else t
  match t with
  | '-' :: body =>
    match body.dropWhile Text.isDecimal with
    | [] => !body.isEmpty
    | '.' :: fraction => !fraction.isEmpty && fraction.all Text.isDecimal
    | _ => false
  | _ => false

/-- The options that a shortened or extended spelling may mean. -/
def candidates (t : Text) : List (Text × Reading) :=
  if "--".toList.isPrefixOf t then
    let (start, attached) := cutEquals t
    (spellings.filter fun s => start.isPrefixOf s.1).map fun s =>
      (s.1, .option s.2 ("--".toList.isPrefixOf s.1) attached)
  else
    (spellings.filter fun s => s.1 = t.take 2).map fun s =>
      (s.1, .option s.2 false (some (t.drop 2)))

def readOne (t : Text) : Except Text Reading :=
  if t.head? ≠ some '-' || t.length = 1 then .ok .plain
  else
    match flag? t with
    | some f => .ok (.option f ("--".toList.isPrefixOf t) none)
    | none =>
      match flag? (cutEquals t).1, (cutEquals t).2 with
      | some f, some a => .ok (.option f ("--".toList.isPrefixOf t) (some a))
      | _, _ =>
        match candidates t with
        | [] => .ok (if isNegativeNumber t || ' ' ∈ t then .plain else .unknown)
        | [(_, s)] => .ok s
        | several =>
          .error ("ambiguous option: ".toList ++ t ++ " could match ".toList ++
            Text.commaJoin (several.map Prod.fst))

def readAll : List Text → Except Text (List (Reading × Text))
  | [] => .ok []
  | t :: rest =>
    if t = "--".toList then
      .ok ((.doubleHyphen, t) :: rest.map fun u => (.plain, u))
    else do
      let s ← readOne t
      return (s, t) :: (← readAll rest)

inductive Ending where
  | complete
  | output (value : Text)
  | outputNext
deriving DecidableEq

def complaint (f : Flag) (what : Text) : Text :=
  "argument ".toList ++ f.names ++ ": ".toList ++ what

def ignoredValue (f : Flag) (value : Text) : Text :=
  complaint f ("ignored explicit argument ".toList ++ Text.quoted value)

/-- An option with what follows it directly: behind a short one that takes no value there are more
short ones. -/
def openCluster (isLong : Bool) (f : Flag) (value : Text) : Except Text (List Flag × Ending) :=
  if f = .output then .ok ([], .output value)
  else
    match value with
    | [] => .error (ignoredValue f [])
    | c :: rest =>
      match if isLong then none else flag? ['-', c] with
      | none => .error (ignoredValue f (c :: rest))
      | some g =>
        match rest with
        | [] => .ok (if g = .output then ([f], .outputNext) else ([f, g], .complete))
        | d :: rest => do
          let (fs, ending) ← openCluster false g (d :: rest)
          return (f :: fs, ending)

def cluster (f : Flag) (isLong : Bool) : Option Text → Except Text (List Flag × Ending)
  | none => .ok (if f = .output then ([], .outputNext) else ([f], .complete))
  | some value => openCluster isLong f value

structure State where
  options : Options
  placed : Bool
  extras : List Text

def defaultOutput : Text := "project-index".toList

def State.start : State := ⟨⟨['.'], some defaultOutput, false, false⟩, false, []⟩

def State.set (s : State) : Flag → State
  | .update => { s with options := { s.options with update := true } }
  | .force => { s with options := { s.options with force := true } }
  | _ => s

def State.setAll (s : State) (fs : List Flag) : State := fs.foldl State.set s

def State.setOutput (s : State) (t : Text) : State :=
  { s with options := { s.options with output := if t = "--".toList then none else some t } }

def State.setProject (s : State) (t : Text) : State :=
  { s with options := { s.options with project := t }, placed := true }

def State.addExtra (s : State) (t : Text) : State := { s with extras := s.extras ++ [t] }

def State.request (s : State) : Request :=
  if s.extras.isEmpty then .run s.options
  else .refuse ("unrecognized arguments: ".toList ++ [' '].intercalate s.extras)

def consume (s : State) : List (Reading × Text) → Request
  | [] => s.request
  | (.plain, t) :: rest =>
    if s.placed then consume (s.addExtra t) rest
    else
      match rest with
      | (.doubleHyphen, _) :: rest => consume (s.setProject t) rest
      | rest => consume (s.setProject t) rest
  | (.doubleHyphen, t) :: rest =>
    if s.placed then consume (s.addExtra t) rest
    else
      match rest with
      | (.plain, u) :: rest => consume (s.setProject u) rest
      | rest => consume { s with placed := true } rest
  | (.unknown, t) :: rest => consume (s.addExtra t) rest
  | (.option f isLong attached, _) :: rest =>
    match cluster f isLong attached with
    | .error message => .refuse message
    | .ok (fs, ending) =>
      match ending with
      | .complete => if .help ∈ fs then .help else consume (s.setAll fs) rest
      | .output value =>
        if .help ∈ fs then .help else consume ((s.setAll fs).setOutput value) rest
      | .outputNext =>
        match rest with
        | (.plain, value) :: rest =>
          if .help ∈ fs then .help else consume ((s.setAll fs).setOutput value) rest
        | _ => .refuse (complaint .output "expected one argument".toList)

def parse (arguments : List Text) : Request :=
  match readAll arguments with
  | .error message => .refuse message
  | .ok read => consume .start read

def programName : String := "index_project.py"

def usage : String :=
  "usage: " ++ programName ++ " [-h] [--output OUTPUT] [--update] [--force]\n" ++
    "                        [project_path]\n"

def help : String :=
  usage ++ "
Generate hierarchical project index for AI assistants

positional arguments:
  project_path          Project root directory (default: current directory)

options:
  -h, --help            show this help message and exit
  --output OUTPUT, -o OUTPUT
                        Output directory name (default: project-index)
  --update, -u          Incremental update (only re-index changed files)
  --force, -f           Force full re-index

Project Indexer - Generate hierarchical index for large codebases.

This script scans a project directory and generates a structured index
that allows AI assistants to progressively understand the codebase
without exceeding context limits.

Usage:
    python index_project.py [project_path] [--output DIR] [--update] [--force]

Examples:
    python index_project.py                     # Index current directory
    python index_project.py /path/to/project    # Index specific project
    python index_project.py --update            # Incremental update
    python index_project.py --force             # Force full re-index
"

def refusal (message : Text) : Text :=
  (usage ++ programName ++ ": error: ").toList ++ message ++ ['\n']

end CodeIndex.CommandLine
