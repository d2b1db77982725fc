import CodeIndex.Text.Blank
import CodeIndex.Text.Word

/-!
# Parameter lists

A parameter list is cut at the commas that stand outside all brackets. Which characters count as
brackets depends on the language, and they are counted, not matched: the depth goes up at an
opening one, down at a closing one, and may become negative.
-/

namespace CodeIndex

structure Brackets where
  opening : Text
  closing : Text

namespace Parameters

/-- Where a cut stands: the depth, the characters since the last cut, last one first, and the
parts before them, last one first. -/
structure Cut where
  depth : Int
  current : Text
  done : List Text

def Cut.step (b : Brackets) (s : Cut) (c : Char) : Cut :=
  if c ∈ b.opening then ⟨s.depth + 1, c :: s.current, s.done⟩
  else if c ∈ b.closing then ⟨s.depth - 1, c :: s.current, s.done⟩
  else if c = ',' ∧ s.depth = 0 then ⟨0, [], s.current.reverse :: s.done⟩
  else ⟨s.depth, c :: s.current, s.done⟩

def parts (b : Brackets) (t : Text) : List Text × Text :=
  let s := t.foldl (Cut.step b) ⟨0, [], []⟩
  (s.done.reverse, s.current.reverse)

end Parameters

end CodeIndex
