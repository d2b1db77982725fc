import CodeIndex.Text.Order
import CodeIndex.Text.Reader
import CodeIndex.Outline.Basic
import CodeIndex.Outline.Parameters

/-!
# Outlines of TypeScript and JavaScript files

A file exports what stands behind the word `export`: functions, classes, interfaces, type aliases,
variables and enumerations, in that order of kinds, and at the end the default export if there is
one. The text is searched as a whole, without regard to comments, strings or nesting.

Its imports are the modules named in `import … from` with what is imported on one line, and in
calls of `require`. Modules with a relative name are left out.
-/

namespace CodeIndex.TypeScript

inductive Binding where
  | constDecl
  | letDecl
  | varDecl
deriving DecidableEq

def Binding.word : Binding → Text
  | constDecl => "const".toList
  | letDecl => "let".toList
  | varDecl => "var".toList

inductive Declaration where
  | function (isAsync : Bool) (name : Text) (generics : Option Text) (params : List Text)
      (result : Option Text)
  | classDecl (name : Text) (parent : Option Text)
  | interfaceDecl (name : Text)
  | typeAlias (name : Text)
  | variableDecl (binding : Binding) (name : Text) (type : Option Text)
  | enumDecl (name : Text)
  | defaultClass (name : Text)
  | defaultFunction (name : Text)
  | defaultExport
deriving DecidableEq

/-- A declaration as it is shown. The word `async` is shown directly in front of the word
`function`. -/
def Declaration.render : Declaration → Text
  | function isAsync name generics params result =>
    let head := (if isAsync then "async".toList else []) ++ "function ".toList ++ name ++
      (match generics with
        | none => []
        | some g => '<' :: g ++ ['>']) ++ ['('] ++ Text.commaJoin params ++ [')']
    match result with
    | none => head
    | some r => Text.trimRight (head ++ ": ".toList ++ r)
  | classDecl name none => "class ".toList ++ name
  | classDecl name (some parent) => "class ".toList ++ name ++ " extends ".toList ++ parent
  | interfaceDecl name => "interface ".toList ++ name
  | typeAlias name => "type ".toList ++ name
  | variableDecl binding name none => binding.word ++ [' '] ++ name
  | variableDecl binding name (some type) => binding.word ++ [' '] ++ name ++ ": ".toList ++ type
  | enumDecl name => "enum ".toList ++ name
  | defaultClass name => "default class ".toList ++ name
  | defaultFunction name => "default function ".toList ++ name
  | defaultExport => "default export".toList

def brackets : Brackets := ⟨"(<\x7b".toList, ")>\x7d".toList⟩

/-- The name of a parameter. A pattern that takes a value apart is shown up to its first colon,
and a parameter that does not start with a name as it is. -/
def paramName (param : Text) : Text :=
  let p := Text.trim param
  match p with
  | [] => []
  | c :: _ =>
    if c == '\x7b' || c == '[' then
      if p.contains ':' then Text.trim (p.takeWhile (· != ':')) else p
    else
      match Text.leadingWord p with
      | [] => p
      | name => name

/-- The names of the parameters in a parameter list. A part may be empty, but a blank last part
does not count. -/
def paramNames (params : Text) : List Text :=
  let (done, last) := Parameters.parts brackets params
  (if (Text.trim last).isEmpty then done else done ++ [last]).map paramName

/-- White space and then what stands before the first of some stop characters and the end of the
line. Where nothing but white space is there, one blank of it that ends no line stands for an
empty text. -/
def typeUpTo (stop : Char) : Reader Text := do
  let gap ← Reader.blanks
  let body ← Reader.many fun c => c != stop && c != '\n'
  if body.isEmpty && gap.all (· == '\n') then Reader.fail else return Text.trim body

def typed (stop : Char) : Reader Text := do
  let _ ← Reader.blanks
  Reader.literal [':']
  typeUpTo stop

def generics : Reader Text := Reader.between '<' '>'

def exportedFunction : Reader Declaration := do
  let _ ← Reader.blanks1
  let marker ← Reader.optional (Reader.keyword "async".toList)
  Reader.keyword "function".toList
  let name ← Reader.word
  let _ ← Reader.blanks
  let parameters ← Reader.optional generics
  let _ ← Reader.blanks
  let params ← Reader.between '(' ')'
  let result ← Reader.optional (typed '\x7b')
  return .function marker.isSome name parameters (paramNames params) result

def setOff (key : Text) : Reader Unit := do
  let _ ← Reader.blanks1
  Reader.keyword key

def exportedClass : Reader Declaration := do
  let _ ← Reader.blanks1
  let _ ← Reader.optional (Reader.keyword "abstract".toList)
  Reader.keyword "class".toList
  let name ← Reader.word
  let _ ← Reader.optional generics
  let parent ← Reader.optional do
    setOff "extends".toList
    Reader.word
  let _ ← Reader.optional do
    setOff "implements".toList
    Reader.many1 fun c => c != '\x7b' && c != '\n'
  return .classDecl name parent

def exportedInterface : Reader Declaration := do
  let _ ← Reader.blanks1
  Reader.keyword "interface".toList
  let name ← Reader.word
  let _ ← Reader.optional generics
  return .interfaceDecl name

def exportedAlias : Reader Declaration := do
  let _ ← Reader.blanks1
  Reader.keyword "type".toList
  let name ← Reader.word
  let _ ← Reader.optional generics
  let _ ← Reader.blanks
  Reader.literal ['=']
  return .typeAlias name

def binding (b : Binding) : Reader Binding := do
  Reader.keyword b.word
  return b

def exportedVariable : Reader Declaration := do
  let _ ← Reader.blanks1
  let b ← Reader.orElse (binding .constDecl)
    (Reader.orElse (binding .letDecl) (binding .varDecl))
  let name ← Reader.word
  let type ← Reader.optional (typed '=')
  let _ ← Reader.blanks
  Reader.literal ['=']
  return .variableDecl b name type

def exportedEnum : Reader Declaration := do
  let _ ← Reader.blanks1
  Reader.keyword "enum".toList
  let name ← Reader.word
  return .enumDecl name

def exportedDefault : Reader Declaration := do
  let _ ← Reader.blanks1
  Reader.keyword "default".toList
  return .defaultExport

def defaultNamedClass : Reader Declaration := do
  let _ ← Reader.blanks1
  Reader.keyword "default".toList
  Reader.keyword "class".toList
  let name ← Reader.word
  return .defaultClass name

def defaultNamedFunction : Reader Declaration := do
  let _ ← Reader.blanks1
  Reader.keyword "default".toList
  let _ ← Reader.optional (Reader.keyword "async".toList)
  Reader.keyword "function".toList
  let name ← Reader.word
  return .defaultFunction name

def exported (body : Reader Declaration) (content : Text) : List Declaration :=
  Reader.findAll "export".toList body content

/-- The default export: the first named class, or else the first named function, or else whatever
there is. -/
def defaultDeclaration? (content : Text) : Option Declaration :=
  (exported defaultNamedClass content).head? <|>
    (exported defaultNamedFunction content).head? <|>
    (exported exportedDefault content).head?

def declarations (content : Text) : List Declaration :=
  exported exportedFunction content ++ exported exportedClass content ++
    exported exportedInterface content ++ exported exportedAlias content ++
    exported exportedVariable content ++ exported exportedEnum content ++
    (defaultDeclaration? content).toList

/-- A text between quotes of either kind, which may differ. -/
def quotedName : Reader Text := do
  let isQuote := fun c => c == '\'' || c == '"'
  let _ ← Reader.oneOf isQuote
  let name ← Reader.many1 (!isQuote ·)
  let _ ← Reader.oneOf isQuote
  return name

def fromModule : Reader Text := do
  Reader.keyword "from".toList
  quotedName

/-- The first `from` with a module name that is set off by white space and reached without going
past the end of the line. -/
def laterModule : Text → Option (Text × Text)
  | [] => none
  | c :: cs =>
    match (Reader.blanks1.andThen fun _ => fromModule).parse (c :: cs) with
    | some found => some found
    | none => if c = '\n' then none else laterModule cs

theorem laterModule_keeps {t rest name : Text} (h : laterModule t = some (name, rest)) :
    rest.length ≤ t.length := by
  induction t with
  | nil => simp [laterModule] at h
  | cons c cs ih =>
    rw [laterModule] at h
    split at h
    · next found => exact Reader.keeps _ (found.trans h)
    · split at h
      · simp at h
      · exact Nat.le_succ_of_le (ih h)

/-- What is imported, behind the word `import`. Directly behind it `from` counts only if more than
one white space character sets it off. -/
def importedModule : Reader Text := do
  let gap ← Reader.blanks1
  Reader.orElse ⟨laterModule, laterModule_keeps⟩ (if gap.length = 1 then Reader.fail else fromModule)

def requiredModule : Reader Text := do
  let _ ← Reader.blanks
  Reader.literal ['(']
  let _ ← Reader.blanks
  let name ← quotedName
  let _ ← Reader.blanks
  Reader.literal [')']
  return name

def isRelative (name : Text) : Bool := ['.'].isPrefixOf name

def imports (content : Text) : List Text :=
  Text.sortedSet
    ((Reader.findAll "import".toList importedModule content ++
      Reader.findAll "require".toList requiredModule content).filter (!isRelative ·))

def outline (content : Text) : Outline where
  exports := (declarations content).map Declaration.render
  imports := imports content

end CodeIndex.TypeScript
