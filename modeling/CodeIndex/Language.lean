import CodeIndex.Outline.Python
import CodeIndex.Outline.TypeScript
import CodeIndex.Path
import CodeIndex.Text.Lower

/-!
# Languages

A language knows the endings of its files and how to outline one. The first language of a
registry that accepts a file is the file's language.
-/

namespace CodeIndex

structure Language where
  title : Text
  extensions : List Text
  outline : Text → Outline

namespace Language

def python : Language where
  title := "Python".toList
  extensions := [".py".toList, ".pyi".toList]
  outline := Python.outline

def typeScript : Language where
  title := "TypeScript/JavaScript".toList
  extensions := [".ts".toList, ".tsx".toList, ".js".toList, ".jsx".toList, ".mjs".toList,
    ".cjs".toList]
  outline := TypeScript.outline

/-- Whether a file's ending, in lower case, is one of the language's. -/
def accepts (l : Language) (p : Path) : Bool := l.extensions.contains (Text.lower p.suffix)

end Language

abbrev Registry := List Language

namespace Registry

def standard : Registry := [Language.typeScript, Language.python]

def register (r : Registry) (l : Language) : Registry := r ++ [l]

def languageOf? (r : Registry) (p : Path) : Option Language := r.find? (·.accepts p)

def extensions (r : Registry) : List Text := Text.sortedSet (r.flatMap (·.extensions))

end Registry

end CodeIndex
