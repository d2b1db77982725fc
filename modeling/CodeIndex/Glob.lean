import CodeIndex.Text.Basic

/-!
# Globs

A glob matches a whole text: a star stands for any characters, slashes and line feeds included, a
question mark for one, and brackets for one out of a set. There is no way to quote.

`Matches` says what a glob matches; `test` decides it by going through the glob from its end, with
one row of answers for all endings of the text, so that many stars do no harm.
-/

namespace CodeIndex

/-- A set of characters: the ranges, or everything outside them. -/
structure CharSet where
  negated : Bool
  ranges : List (Char × Char)
deriving DecidableEq

namespace CharSet

def single (c : Char) : CharSet := ⟨false, [(c, c)]⟩

def all : CharSet := ⟨true, []⟩

def contains (s : CharSet) (c : Char) : Bool :=
  (s.ranges.any fun r => r.1 ≤ c && c ≤ r.2) != s.negated

end CharSet

namespace Glob

inductive Piece where
  | star
  | one (set : CharSet)
deriving DecidableEq

inductive Matches : List Piece → Text → Prop where
  | nil : Matches [] []
  | star {glob skipped rest} : Matches glob rest → Matches (.star :: glob) (skipped ++ rest)
  | one {set glob c rest} : set.contains c = true → Matches glob rest →
      Matches (.one set :: glob) (c :: rest)

/-- For every ending of a text, from the whole text to the empty one, whether some ending of that
ending is marked. -/
def someLater (row : List Bool) : List Bool :=
  row.foldr (fun b later => (b || later.head?.getD false) :: later) []

/-- For every ending of a text, from the whole text to the empty one, whether the glob matches it. -/
def row : List Piece → Text → List Bool
  | [], t => t.map (fun _ => false) ++ [true]
  | .star :: glob, t => someLater (row glob t)
  | .one set :: glob, t =>
    t.zipWith (fun c later => set.contains c && later) ((row glob t).drop 1) ++ [false]

def test (glob : List Piece) (t : Text) : Bool := (row glob t).head?.getD false

theorem someLater_cons (b : Bool) (later : List Bool) :
    someLater (b :: later) = (b || (someLater later).head?.getD false) :: someLater later := rfl

theorem row_nil (t : Text) : row [] t = t.map (fun _ => false) ++ [true] := rfl

theorem row_star (glob : List Piece) (t : Text) : row (.star :: glob) t = someLater (row glob t) := rfl

theorem row_one (set : CharSet) (glob : List Piece) (t : Text) : row (.one set :: glob) t =
    t.zipWith (fun c later => set.contains c && later) ((row glob t).drop 1) ++ [false] := rfl

theorem row_ne_nil (glob : List Piece) (t : Text) : row glob t ≠ [] := by
  induction glob with
  | nil => simp [row_nil]
  | cons piece glob ih =>
    cases piece with
    | one set => simp [row_one]
    | star =>
      obtain ⟨b, later, h⟩ := List.exists_cons_of_ne_nil ih
      simp [row_star, h, someLater_cons]

theorem row_cons (glob : List Piece) (c : Char) (t : Text) :
    ∃ b, row glob (c :: t) = b :: row glob t := by
  induction glob with
  | nil => exact ⟨false, by simp [row_nil]⟩
  | cons piece glob ih =>
    obtain ⟨b, hb⟩ := ih
    cases piece with
    | star => exact ⟨_, by rw [row_star, hb, someLater_cons, row_star]⟩
    | one set =>
      obtain ⟨later, rest, h⟩ := List.exists_cons_of_ne_nil (row_ne_nil glob t)
      exact ⟨set.contains c && later, by simp [row_one, hb, h]⟩

theorem test_nil_cons (c : Char) (t : Text) : test [] (c :: t) = false := rfl

theorem test_star_nil (glob : List Piece) : test (.star :: glob) [] = test glob [] := by
  have hlen : (row glob []).length = 1 := by
    induction glob with
    | nil => rfl
    | cons piece glob ih =>
      cases piece with
      | one set => simp [row_one]
      | star =>
        obtain ⟨b, hb⟩ := List.length_eq_one_iff.1 ih
        simp [row_star, hb, someLater]
  obtain ⟨b, hb⟩ := List.length_eq_one_iff.1 hlen
  simp [test, row_star, hb, someLater]

theorem test_star_cons (glob : List Piece) (c : Char) (t : Text) :
    test (.star :: glob) (c :: t) = (test glob (c :: t) || test (.star :: glob) t) := by
  obtain ⟨b, hb⟩ := row_cons glob c t
  simp [test, row_star, hb, someLater_cons]

theorem test_one_nil (set : CharSet) (glob : List Piece) : test (.one set :: glob) [] = false := by
  simp [test, row_one]

theorem test_one_cons (set : CharSet) (glob : List Piece) (c : Char) (t : Text) :
    test (.one set :: glob) (c :: t) = (set.contains c && test glob t) := by
  obtain ⟨b, hb⟩ := row_cons glob c t
  obtain ⟨later, rest, h⟩ := List.exists_cons_of_ne_nil (row_ne_nil glob t)
  simp [test, row_one, hb, h]

theorem test_eq_true_iff (glob : List Piece) (t : Text) : test glob t = true ↔ Matches glob t := by
  induction glob generalizing t with
  | nil =>
    cases t with
    | nil => exact ⟨fun _ => .nil, fun _ => rfl⟩
    | cons c t => exact ⟨fun h => by simp [test_nil_cons] at h, fun h => nomatch h⟩
  | cons piece glob ih =>
    cases piece with
    | one set =>
      cases t with
      | nil => exact ⟨fun h => by simp [test_one_nil] at h, fun h => nomatch h⟩
      | cons c t =>
        rw [test_one_cons, Bool.and_eq_true, ih]
        exact ⟨fun h => .one h.1 h.2, fun h => by cases h with | one hc ht => exact ⟨hc, ht⟩⟩
    | star =>
      induction t with
      | nil =>
        rw [test_star_nil, ih]
        refine ⟨fun h => @Matches.star glob [] [] h, fun h => ?_⟩
        generalize hu : ([] : Text) = u at h
        cases h with
        | star h =>
          have hnil := List.append_eq_nil_iff.1 hu.symm
          rw [hnil.2] at h
          rw [hnil.1, hnil.2]
          exact h
      | cons c t iht =>
        rw [test_star_cons, Bool.or_eq_true, ih, iht]
        refine ⟨fun h => ?_, fun h => ?_⟩
        · rcases h with h | h
          · exact @Matches.star glob [] _ h
          · generalize hg : Piece.star :: glob = g at h
            cases h with
            | nil => simp at hg
            | one _ _ => simp at hg
            | @star glob' skipped rest h =>
              simp only [List.cons.injEq, true_and] at hg
              subst hg
              exact @Matches.star glob (c :: skipped) rest h
        · generalize hu : c :: t = u at h
          cases h with
          | @star _ skipped rest h =>
            cases skipped with
            | nil => exact .inl h
            | cons d skipped =>
              simp only [List.cons_append, List.cons.injEq] at hu
              exact .inr (hu.2 ▸ .star h)

def takeMark (mark : Char) (t : Text) : Text × Text :=
  if t.head? = some mark then ([mark], t.drop 1) else ([], t)

theorem takeMark_length (mark : Char) (t : Text) : (takeMark mark t).2.length ≤ t.length := by
  unfold takeMark
  split
  · exact (List.drop_sublist 1 t).length_le
  · exact Nat.le_refl _

/-- What stands between an opening bracket and its closing one, and what follows. A closing bracket
that comes first, or first behind an exclamation mark, belongs to the set. -/
def bracket? (t : Text) : Option (Text × Text) :=
  let marked := takeMark '!' t
  let started := takeMark ']' marked.2
  match started.2.dropWhile (· != ']') with
  | [] => none
  | _ :: rest => some (marked.1 ++ started.1 ++ started.2.takeWhile (· != ']'), rest)

theorem bracket?_shorter {t inner rest : Text} (h : bracket? t = some (inner, rest)) :
    rest.length < t.length := by
  simp only [bracket?] at h
  split at h
  · simp at h
  · next hdrop =>
    simp only [Option.some.injEq, Prod.mk.injEq] at h
    have hclose := (List.dropWhile_sublist (l := (takeMark ']' (takeMark '!' t).2).2)
      (· != ']')).length_le
    have hstart := takeMark_length ']' (takeMark '!' t).2
    have hmark := takeMark_length '!' t
    rw [hdrop, List.length_cons, h.2] at hclose
    omega

/-- Cuts the inside of brackets at the hyphens that make ranges. At least `least` characters stand
before such a hyphen, and two between two of them. -/
def hyphenCuts (least : Nat) (t : Text) : List Text :=
  let head := t.take least ++ (t.drop least).takeWhile (· != '-')
  match _rest : (t.drop least).dropWhile (· != '-') with
  | [] => [t]
  | _ :: rest => head :: hyphenCuts 2 rest
termination_by t.length
decreasing_by
  have hlen := (List.dropWhile_sublist (l := t.drop least) (· != '-')).length_le
  rw [_rest, List.length_drop] at hlen
  simp only [List.length_cons] at hlen
  omega

/-- A hyphen at the very end makes no range but belongs to the part before it. -/
def keepFinalHyphen (cuts : List Text) : List Text :=
  match cuts.reverse with
  | [] :: part :: before => ((part ++ ['-']) :: before).reverse
  | _ => cuts

/-- Joins a part with the next ones, without their ends where those make an empty range. -/
def dropEmptyRange (part : Text) : List Text → List Text
  | [] => [part]
  | next :: rest =>
    match part.getLast?, next.head? with
    | some low, some high =>
      if high < low then (part.dropLast ++ next.drop 1) :: rest else part :: next :: rest
    | _, _ => part :: next :: rest

inductive Sign where
  | char (c : Char)
  | hyphen
deriving DecidableEq

def Sign.toChar : Sign → Char
  | char c => c
  | hyphen => '-'

def ranges : List Sign → List (Char × Char)
  | low :: .hyphen :: high :: rest => (low.toChar, high.toChar) :: ranges rest
  | sign :: rest => (sign.toChar, sign.toChar) :: ranges rest
  | [] => []

def signs (inner : Text) : List Sign :=
  let least := if ['!'].isPrefixOf inner then 2 else 1
  let parts := (keepFinalHyphen (hyphenCuts least inner)).foldr dropEmptyRange []
  [Sign.hyphen].intercalate (parts.map (·.map Sign.char))

def charSet (inner : Text) : CharSet :=
  match signs inner with
  | .char '!' :: rest => ⟨true, ranges rest⟩
  | signs => ⟨false, ranges signs⟩

/-- Reads a glob. A bracket that is not closed stands for itself. -/
def parse (t : Text) : List Piece :=
  match t with
  | [] => []
  | '*' :: rest => .star :: parse rest
  | '?' :: rest => .one .all :: parse rest
  | '[' :: rest =>
    match _inside : bracket? rest with
    | some (inner, rest) => .one (charSet inner) :: parse rest
    | none => .one (.single '[') :: parse rest
  | c :: rest => .one (.single c) :: parse rest
termination_by t.length
decreasing_by
  · exact Nat.lt_succ_self _
  · exact Nat.lt_succ_self _
  · exact Nat.lt_succ_of_lt (bracket?_shorter _inside)
  · exact Nat.lt_succ_self _
  · exact Nat.lt_succ_self _

end Glob

def globMatches (pattern t : Text) : Bool := Glob.test (Glob.parse pattern) t

end CodeIndex
