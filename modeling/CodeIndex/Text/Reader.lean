import CodeIndex.Text.Blank
import CodeIndex.Text.Word

/-!
# Readers

A reader takes a value off the front of a text and leaves the rest, or refuses. It never leaves
more than it was given, which is what makes a search through a whole text end: `findAll` goes on
behind each finding, `findAllAtLineStart` looks at the starts of lines only.
-/

namespace CodeIndex

structure Reader (α : Type) where
  /-- The value and the rest, or `none` when the text does not start as asked. -/
  parse : Text → Option (α × Text)
  keeps : ∀ {t a rest}, parse t = some (a, rest) → rest.length ≤ t.length

namespace Reader

variable {α β : Type}

def andThen (r : Reader α) (f : α → Reader β) : Reader β where
  parse t := (r.parse t).bind fun x => (f x.1).parse x.2
  keeps := by
    intro t b rest h
    obtain ⟨⟨a, mid⟩, ha, hb⟩ := Option.bind_eq_some_iff.1 h
    exact Nat.le_trans ((f a).keeps hb) (r.keeps ha)

instance : Monad Reader where
  pure a := ⟨fun t => some (a, t), by intro t b rest h; simp_all⟩
  bind := andThen

def literal (key : Text) : Reader Unit where
  parse t := if key.isPrefixOf t then some ((), t.drop key.length) else none
  keeps := by
    intro t a rest h
    split at h <;> simp only [Option.some.injEq, Prod.mk.injEq, reduceCtorEq] at h
    rw [← h.2, List.length_drop]
    omega

def many (p : Char → Bool) : Reader Text where
  parse t := some (t.takeWhile p, t.dropWhile p)
  keeps := by
    intro t a rest h
    simp only [Option.some.injEq, Prod.mk.injEq] at h
    rw [← h.2]
    exact (List.dropWhile_sublist p).length_le

def many1 (p : Char → Bool) : Reader Text where
  parse t := if (t.takeWhile p).isEmpty then none else some (t.takeWhile p, t.dropWhile p)
  keeps := by
    intro t a rest h
    split at h <;> simp only [Option.some.injEq, Prod.mk.injEq, reduceCtorEq] at h
    rw [← h.2]
    exact (List.dropWhile_sublist p).length_le

def oneOf (p : Char → Bool) : Reader Char where
  parse
    | [] => none
    | c :: cs => if p c then some (c, cs) else none
  keeps := by
    intro t a rest h
    split at h
    · simp at h
    · split at h <;> simp only [Option.some.injEq, Prod.mk.injEq, reduceCtorEq] at h
      simp [← h.2]

def fail : Reader α := ⟨fun _ => none, by intro t a rest h; simp at h⟩

def orElse (r s : Reader α) : Reader α where
  parse t := (r.parse t).or (s.parse t)
  keeps := by
    intro t a rest h
    rcases Option.or_eq_some_iff.1 h with h | h
    · exact r.keeps h
    · exact s.keeps h.2

def optional (r : Reader α) : Reader (Option α) :=
  orElse (some <$> r) (pure none)

def blanks : Reader Text := many Text.isBlank

def blanks1 : Reader Text := many1 Text.isBlank

def word : Reader Text := many1 Text.isWord

def keyword (key : Text) : Reader Unit := do
  literal key
  let _ ← blanks1

def between (opening closing : Char) : Reader Text := do
  literal [opening]
  let inner ← many (· != closing)
  literal [closing]
  return inner

/-- Reads `key` and then `body` at the front of a text, and says what follows the first
character of the finding. An empty key is found nowhere. -/
def hit (key : Text) (body : Reader α) (c : Char) (cs : Text) : Option (α × Text) :=
  match key with
  | [] => none
  | k :: ks => if k = c then ((literal ks).andThen fun _ => body).parse cs else none

theorem hit_keeps {key : Text} {body : Reader α} {c : Char} {cs rest : Text} {a : α}
    (h : hit key body c cs = some (a, rest)) : rest.length ≤ cs.length := by
  unfold hit at h
  split at h
  · simp at h
  · split at h
    · exact Reader.keeps _ h
    · simp at h

/-- All findings of `key` followed by what `body` reads, from left to right; the search goes on
behind a finding, so that findings do not overlap. -/
def findAll (key : Text) (body : Reader α) (t : Text) : List α :=
  match t with
  | [] => []
  | c :: cs =>
    match _found : hit key body c cs with
    | some (a, rest) => a :: findAll key body rest
    | none => findAll key body cs
termination_by t.length
decreasing_by
  · exact Nat.lt_succ_of_le (hit_keeps _found)
  · simp

/-- All findings of `key` followed by what `body` reads that start a line, where `atStart` says
whether the text itself starts one. What is found must not end in a line feed: the rest behind a
finding is taken not to start a line. -/
def findAllAtLineStart (key : Text) (body : Reader α) (atStart : Bool) (t : Text) : List α :=
  match t with
  | [] => []
  | c :: cs =>
    match _found : if atStart then hit key body c cs else none with
    | some (a, rest) => a :: findAllAtLineStart key body false rest
    | none => findAllAtLineStart key body (c == '\n') cs
termination_by t.length
decreasing_by
  · cases atStart
    · simp at _found
    · exact Nat.lt_succ_of_le (hit_keeps _found)
  · simp

end Reader

end CodeIndex
