import CodeIndex.Text.Basic

/-!
# Outlines

The outline of a source file names what the file exports and the outside modules it imports.
`Outline.markdown` shows it as a bullet list, with at most five imports.
-/

namespace CodeIndex

structure Outline where
  exports : List Text
  imports : List Text
deriving DecidableEq

namespace Outline

def code (t : Text) : Text := '`' :: t ++ ['`']

def shownImports : Nat := 5

def exportLines (o : Outline) : List Text :=
  if o.exports.isEmpty then ["_No exports detected_".toList]
  else "**Exports**:".toList :: o.exports.map fun e => "- ".toList ++ code e

def importLines (o : Outline) : List Text :=
  if o.imports.isEmpty then []
  else
    let shown := Text.commaJoin ((o.imports.take shownImports).map code)
    let more := o.imports.length - shownImports
    [[], "**Dependencies**: ".toList ++ shown] ++
      (if 0 < more then ["  _(+".toList ++ Nat.toDigits 10 more ++ " more)_".toList] else [])

def markdown (o : Outline) : Text := Text.unlines (exportLines o ++ importLines o)

end Outline

end CodeIndex
