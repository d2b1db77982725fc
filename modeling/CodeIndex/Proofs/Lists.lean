/-!
# Lists

What stands at a number of a list and between two numbers, and what is in the digits of a number.
-/

namespace CodeIndex

variable {α β : Type}

/-- What stands at a number of a list cuts it in two. -/
theorem exists_cut_of_getElem? {xs : List α} {x : α} {i : Nat} (h : xs[i]? = some x) :
    ∃ before behind, xs = before ++ x :: behind ∧ before.length = i := by
  obtain ⟨hlt, rfl⟩ := List.getElem?_eq_some_iff.1 h
  refine ⟨xs.take i, xs.drop (i + 1), ?_, List.length_take_of_le (Nat.le_of_lt hlt)⟩
  rw [← List.drop_eq_getElem_cons hlt, List.take_append_drop]

/-- What stands between the numbers of two places in a list stands between the places. -/
theorem mem_of_getElem?_between {before between behind : List α} {x y : α} {k : Nat}
    (hlow : before.length < k) (hhigh : k < (before ++ x :: between).length)
    (hy : (before ++ x :: between ++ behind)[k]? = some y) : y ∈ between := by
  rw [List.getElem?_append_left hhigh, List.getElem?_append_right (Nat.le_of_lt hlow)] at hy
  obtain ⟨m, hm⟩ : ∃ m, k - before.length = m + 1 := ⟨k - before.length - 1, by omega⟩
  rw [hm, List.getElem?_cons_succ] at hy
  exact List.mem_of_getElem? hy

/-- Where a list has one item for each member of another, no member adds a second one. -/
theorem eq_nil_of_flatMap_eq_map {f : α → β} {g : α → List β} {as : List α}
    (h : as.flatMap (fun a => f a :: g a) = as.map f) : ∀ a ∈ as, g a = [] := by
  have hlength (as : List α) : as.length ≤ (as.flatMap fun a => f a :: g a).length := by
    induction as with
    | nil => exact Nat.le_refl _
    | cons a as ih =>
      simp only [List.flatMap_cons, List.length_append, List.length_cons]
      omega
  induction as with
  | nil => exact nofun
  | cons a as ih =>
    have hrest : g a ++ as.flatMap (fun a => f a :: g a) = as.map f := by simpa using h
    have hnil : g a = [] := by
      have heq := congrArg List.length hrest
      have hle := hlength as
      rw [List.length_append, List.length_map] at heq
      exact List.length_eq_zero_iff.1 (by omega)
    rw [hnil, List.nil_append] at hrest
    exact List.forall_mem_cons.2 ⟨hnil, ih hrest⟩

theorem isDigit_toDigits {c : Char} {k : Nat} (hc : c ∈ Nat.toDigits 10 k) : c.isDigit = true :=
  Nat.isDigit_of_mem_toDigits (by decide) (by decide) hc

end CodeIndex
