import CodeIndex.FileSystem.Resolve
import CodeIndex.Json.Parser
import CodeIndex.Text.Newline

/-!
# Kinds of projects

The kind of a project and the technologies it uses, from the files in its root. The last indicator
file that is there decides the kind. A manifest of packages names further technologies among its
dependencies; one that is not JSON is passed over, and one that is not shaped as expected is a
failure.
-/

namespace CodeIndex

structure ProjectKind where
  kind : Text
  stack : List Text
deriving DecidableEq

namespace ProjectKind

def indicators : List (Text × Text × List Text) :=
  [("package.json", "node", ["Node.js"]),
    ("tsconfig.json", "typescript", ["TypeScript"]),
    ("pyproject.toml", "python", ["Python"]),
    ("setup.py", "python", ["Python"]),
    ("requirements.txt", "python", ["Python"]),
    ("Cargo.toml", "rust", ["Rust"]),
    ("go.mod", "go", ["Go"]),
    ("pom.xml", "java", ["Java", "Maven"]),
    ("build.gradle", "java", ["Java", "Gradle"]),
    ("composer.json", "php", ["PHP"]),
    ("Gemfile", "ruby", ["Ruby"])].map fun x =>
      (x.1.toList, x.2.1.toList, x.2.2.map String.toList)

def frameworks : List (Text × Text) :=
  [("react", "React"), ("vue", "Vue"), ("angular", "Angular"), ("@angular/core", "Angular"),
    ("next", "Next.js"), ("express", "Express"), ("fastify", "Fastify")].map fun x =>
      (x.1.toList, x.2.toList)

def dependencyNames (fields : Json.Fields) (key : String) : Except Failure (List Json.Letters) :=
  match Json.named? fields key with
  | none => .ok []
  | some (.obj dependencies) => .ok (dependencies.map Prod.fst)
  | some _ => .error .unsupported

def frameworksIn (bytes : Bytes) : Except Failure (List Text) :=
  match Utf8.decode? bytes with
  | none => .error .undecodable
  | some t =>
    match Json.parse (Text.unifyLineEnds t) with
    | .ok (.obj fields) => do
      let names := (← dependencyNames fields "dependencies") ++
        (← dependencyNames fields "devDependencies")
      return (frameworks.filter fun f => names.contains (Json.letters f.1)).map Prod.snd
    | .ok _ => .error .noFields
    | .error fault => fault.orElse []

/-- The technologies that a project's manifest names, none if it cannot be read. -/
def manifestStack (fs : FileSystem) (root : Path) : Except Failure (List Text) :=
  match fs.read (root.child "package.json".toList) with
  | .ok bytes => frameworksIn bytes
  | .error _ => .ok []

/-- What the files in a directory tell of its project, with the technologies as they are found. -/
def evidence (fs : FileSystem) (root : Path) : Except Failure ProjectKind := do
  let present ← indicators.filterM fun x => fs.isPresent (root.child x.1)
  let kind := (present.getLast?.map fun x => x.2.1).getD "unknown".toList
  let stack := present.flatMap fun x => x.2.2
  return ⟨kind, stack ++ (← manifestStack fs root)⟩

def arranged (sets : SetOrder) (project : ProjectKind) : ProjectKind :=
  { project with stack := sets.arrange project.stack }

def detect (fs : FileSystem) (root : Path) : Except Failure ProjectKind :=
  arranged fs.host.sets <$> evidence fs root

def stackText (stack : List Text) : Text :=
  if stack.isEmpty then "Unknown".toList else Text.commaJoin stack

end ProjectKind

end CodeIndex
