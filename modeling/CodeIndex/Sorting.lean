/-!
# Stable sorting

Insertion sort by a given order. Elements that are equal in the order keep their places relative to
each other.
-/

namespace CodeIndex

variable {α β : Type}

/-- Puts an element in front of the first one that it does not come after. -/
def insertBy (le : α → α → Bool) (a : α) : List α → List α
  | [] => [a]
  | b :: bs => if le a b then a :: b :: bs else b :: insertBy le a bs

def sortBy (le : α → α → Bool) (as : List α) : List α := as.foldr (insertBy le) []

theorem insertBy_perm (le : α → α → Bool) (a : α) (bs : List α) :
    (insertBy le a bs).Perm (a :: bs) := by
  induction bs with
  | nil => exact .refl _
  | cons b bs ih =>
    rw [insertBy]
    split
    · exact .refl _
    · exact (ih.cons b).trans (.swap a b bs)

theorem sortBy_perm (le : α → α → Bool) (as : List α) : (sortBy le as).Perm as := by
  induction as with
  | nil => exact .refl _
  | cons a as ih => exact (insertBy_perm le a (sortBy le as)).trans (ih.cons a)

theorem insertBy_map (le : β → β → Bool) (f : α → β) (a : α) (bs : List α) :
    insertBy le (f a) (bs.map f) = (insertBy (fun a b => le (f a) (f b)) a bs).map f := by
  induction bs with
  | nil => rfl
  | cons b bs ih =>
    simp only [List.map_cons, insertBy]
    split
    · rfl
    · rw [ih, List.map_cons]

theorem sortBy_map (le : β → β → Bool) (f : α → β) (as : List α) :
    sortBy le (as.map f) = (sortBy (fun a b => le (f a) (f b)) as).map f := by
  induction as with
  | nil => rfl
  | cons a as ih =>
    simp only [sortBy, List.map_cons, List.foldr_cons] at ih ⊢
    rw [ih, insertBy_map]

theorem sortBy_keyed (le : β → β → Bool) (key : α → β) (as : List α) :
    (sortBy (fun a b => le a.1 b.1) (as.map fun a => (key a, a))).map Prod.snd =
      sortBy (fun a b => le (key a) (key b)) as := by
  rw [sortBy_map, List.map_map]
  exact List.map_id _

end CodeIndex
