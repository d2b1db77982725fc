/-!
# Texts

A text is a list of characters, so that readers and printers recurse on it directly. This module
has its lines, its order by code point and membership in a table of code point ranges.

`lines` and `unlines` are inverse on texts: splitting at line feeds and joining with line feeds
loses nothing.
-/

namespace CodeIndex

abbrev Text := List Char

namespace Text

/-- What stands between the occurrences of `sep`. There is always at least one piece. -/
def pieces (sep : Char) (t : Text) : List Text :=
  t.foldr
    (fun c done =>
      if c = sep then [] :: done
      else match done with
        | [] => [[c]]
        | piece :: rest => (c :: piece) :: rest)
    [[]]

def lines (t : Text) : List Text := pieces '\n' t

def unlines (ls : List Text) : Text := ['\n'].intercalate ls

def commaJoin (ts : List Text) : Text := [',', ' '].intercalate ts

def le : Text → Text → Bool
  | [], _ => true
  | _ :: _, [] => false
  | c :: cs, d :: ds => if c = d then le cs ds else c.toNat < d.toNat

def inRanges (table : List (Nat × Nat)) (n : Nat) : Bool :=
  table.any fun r => r.1 ≤ n && n ≤ r.2

theorem pieces_ne_nil (sep : Char) (t : Text) : pieces sep t ≠ [] := by
  cases t with
  | nil => simp [pieces]
  | cons c cs =>
    simp only [pieces, List.foldr_cons]
    split
    · simp
    · split <;> simp

theorem intercalate_pieces (sep : Char) (t : Text) :
    [sep].intercalate (pieces sep t) = t := by
  induction t with
  | nil => simp [pieces, List.intercalate]
  | cons c cs ih =>
    have hne := pieces_ne_nil sep cs
    have hstep : pieces sep (c :: cs) =
        (if c = sep then [] :: pieces sep cs
          else match pieces sep cs with
            | [] => [[c]]
            | piece :: rest => (c :: piece) :: rest) := rfl
    rw [hstep]
    cases hs : pieces sep cs with
    | nil => exact absurd hs hne
    | cons piece rest =>
      rw [hs] at ih
      split
      · subst_vars
        simp_all [List.intercalate]
      · cases rest <;> simp_all [List.intercalate]

@[simp]
theorem unlines_lines (t : Text) : unlines (lines t) = t :=
  intercalate_pieces '\n' t

end Text

end CodeIndex
