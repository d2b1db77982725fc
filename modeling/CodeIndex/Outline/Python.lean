import CodeIndex.Text.Order
import CodeIndex.Text.Reader
import CodeIndex.Outline.Basic
import CodeIndex.Outline.Parameters

/-!
# Outlines of Python files

A Python file exports its unindented classes and functions, and the functions indented below an
unindented class as that class's methods. Only definitions whose header stands on one line are
seen. A name that starts with one low line is private and left out; one that starts with two is
not.

The file is read line by line. All that is carried from line to line is whether the last
unindented line that is neither blank nor a comment was the header of a class.
-/

namespace CodeIndex.Python

structure Signature where
  isAsync : Bool
  name : Text
  params : List Text
  result : Option Text
deriving DecidableEq

inductive Definition where
  /-- A class with the names of its base classes, if there are brackets around something. -/
  | classDef (name : Text) (bases : Option (List Text))
  | function (signature : Signature)
  | method (signature : Signature)
deriving DecidableEq

namespace Signature

def render (s : Signature) : Text :=
  (if s.isAsync then "async ".toList else []) ++ "def ".toList ++ s.name ++ ['('] ++
    Text.commaJoin s.params ++ [')'] ++
    match s.result with
    | none => []
    | some r => " -> ".toList ++ r

end Signature

def Definition.render : Definition → Text
  | classDef name none => "class ".toList ++ name
  | classDef name (some bases) => "class ".toList ++ name ++ ['('] ++ Text.commaJoin bases ++ [')']
  | function s => s.render
  | method s => ' ' :: ' ' :: s.render

def brackets : Brackets := ⟨"([\x7b".toList, ")]\x7d".toList⟩

/-- The name of a parameter, or nothing where there is none. Of a starred parameter the stars are
part of the name. -/
def paramName (param : Text) : Text :=
  match Text.trim param with
  | '*' :: rest => Text.trim (('*' :: rest).takeWhile (· != ':'))
  | p => Text.leadingWord p

def paramNames (params : Text) : List Text :=
  let (done, last) := Parameters.parts brackets params
  ((done ++ [last]).map paramName).filter (!·.isEmpty)

def baseNames (bases : Text) : List Text :=
  ((Text.pieces ',' bases).map fun b => Text.leadingWord (Text.trim b)).filter (!·.isEmpty)

inductive Header where
  | ofClass (name : Text) (bases : Option Text)
  | ofFunction (isAsync : Bool) (name params : Text) (result : Option Text)

/-- What stands behind the arrow of a function header, up to the colon. White space alone is an
empty result type, nothing at all is none. -/
def resultType : Reader Text := do
  let _ ← Reader.blanks
  Reader.literal "->".toList
  let gap ← Reader.blanks
  let body ← Reader.many fun c => c != ':' && c != '\n'
  if gap.isEmpty && body.isEmpty then Reader.fail else return Text.trim body

def classHeader : Reader Header := do
  Reader.keyword "class".toList
  let name ← Reader.word
  let bases ← Reader.optional (Reader.between '(' ')')
  Reader.literal [':']
  return .ofClass name bases

def functionHeader : Reader Header := do
  let marker ← Reader.optional (Reader.keyword "async".toList)
  Reader.keyword "def".toList
  let name ← Reader.word
  let _ ← Reader.blanks
  let params ← Reader.between '(' ')'
  let result ← Reader.optional resultType
  Reader.literal [':']
  return .ofFunction marker.isSome name params result

/-- Whether a name is private: it starts with exactly one low line. -/
def isPrivate (name : Text) : Bool := ['_'].isPrefixOf name && !(['_', '_'].isPrefixOf name)

def header? (line : Text) : Option Header :=
  ((Reader.orElse classHeader functionHeader).parse line).map Prod.fst

def isSilent (line : Text) : Bool :=
  match line with
  | [] => true
  | c :: _ => c == '#'

def signature? (isAsync : Bool) (name params : Text) (result : Option Text) : Option Signature :=
  if isPrivate name then none else some ⟨isAsync, name, paramNames params, result⟩

/-- What a line that is neither blank nor a comment exports, where `inClass` says whether it stands
below the header of a class, and whether the next line does. -/
def readLine (inClass : Bool) (indent : Nat) (line : Text) : Option Definition × Bool :=
  let inClass := inClass && 0 < indent
  match header? line with
  | some (.ofClass name bases) =>
    if indent = 0 then
      (some (.classDef name ((bases.filter (!·.isEmpty)).map baseNames)), true)
    else (none, inClass)
  | some (.ofFunction isAsync name params result) =>
    let shown := signature? isAsync name params result
    if inClass then (shown.map .method, true)
    else if indent = 0 then (shown.map .function, false)
    else (none, false)
  | none => (none, inClass)

def definitionsFrom (inClass : Bool) : List Text → List Definition
  | [] => []
  | line :: rest =>
    let body := Text.trimLeft line
    if isSilent body then definitionsFrom inClass rest
    else
      match readLine inClass (line.length - body.length) body with
      | (some d, inClass) => d :: definitionsFrom inClass rest
      | (none, inClass) => definitionsFrom inClass rest

def definitions (content : Text) : List Definition :=
  definitionsFrom false (Text.lines content)

def importedModule : Reader Text := do
  let _ ← Reader.blanks1
  Reader.word

def importedPackage : Reader Text := do
  let _ ← Reader.blanks1
  let first ← Reader.word
  let path ← Reader.many fun c => c == '.' || Text.isWord c
  if ((Text.pieces '.' path).drop 1).any (·.isEmpty) then Reader.fail
  else
    let _ ← Reader.blanks1
    Reader.literal "import".toList
    return first

def imports (content : Text) : List Text :=
  Text.sortedSet
    (Reader.findAllAtLineStart "import".toList importedModule true content ++
      Reader.findAllAtLineStart "from".toList importedPackage true content)

def outline (content : Text) : Outline where
  exports := (definitions content).map Definition.render
  imports := imports content

end CodeIndex.Python
