import CodeIndex.Sorting
import CodeIndex.Text.Basic
import Mathlib.Data.List.Nodup

/-!
# What sorting gives

Sorting by an order that is total and transitive puts a list in order. Members that are equal in the order stay
as they were, so where no two are equal the result does not depend on how the list was given.
-/

namespace CodeIndex

namespace Text

theorem le_total (t u : Text) : le t u = true ∨ le u t = true := by
  induction t generalizing u with
  | nil => exact .inl rfl
  | cons c t ih =>
    cases u with
    | nil => exact .inr rfl
    | cons d u =>
      by_cases hcd : c = d
      · subst hcd
        simpa [le] using ih u
      · have hne : c.toNat ≠ d.toNat := fun h => hcd (Char.toNat_inj.1 h)
        simp only [le, if_neg hcd, if_neg (Ne.symm hcd), decide_eq_true_eq]
        omega

theorem le_trans {t u v : Text} (htu : le t u = true) (huv : le u v = true) : le t v = true := by
  induction t generalizing u v with
  | nil => rfl
  | cons c t ih =>
    cases u with
    | nil => cases htu
    | cons d u =>
      cases v with
      | nil => cases huv
      | cons e v =>
        simp only [le] at htu huv ⊢
        split at htu
        · next hcd =>
          subst hcd
          split at huv
          · next hce => rw [if_pos hce, ih htu huv]
          · next hce => rw [if_neg hce, huv]
        · split at huv
          · next hcd hde =>
            subst hde
            rw [if_neg hcd]
            exact htu
          · simp only [decide_eq_true_eq] at htu huv
            have hce : c ≠ e := by
              rintro rfl
              omega
            rw [if_neg hce, decide_eq_true_eq]
            omega

theorem le_antisymm {t u : Text} (htu : le t u = true) (hut : le u t = true) : t = u := by
  induction t generalizing u with
  | nil =>
    cases u with
    | nil => rfl
    | cons d u => cases hut
  | cons c t ih =>
    cases u with
    | nil => cases htu
    | cons d u =>
      by_cases hcd : c = d
      · subst hcd
        simp only [le, if_true] at htu hut
        rw [ih htu hut]
      · simp only [le, if_neg hcd, if_neg (Ne.symm hcd), decide_eq_true_eq] at htu hut
        omega

end Text

variable {α : Type} {le : α → α → Bool} {a : α} {as bs : List α}

theorem pairwise_insertBy (htotal : ∀ a b, le a b = true ∨ le b a = true)
    (htrans : ∀ a b c, le a b = true → le b c = true → le a c = true)
    (h : bs.Pairwise fun a b => le a b = true) : (insertBy le a bs).Pairwise fun a b => le a b = true := by
  induction bs with
  | nil => exact List.pairwise_singleton _ _
  | cons b bs ih =>
    obtain ⟨hb, hbs⟩ := List.pairwise_cons.1 h
    rw [insertBy]
    split
    · next hab =>
      refine List.pairwise_cons.2 ⟨List.forall_mem_cons.2 ⟨hab, fun c hc => ?_⟩, h⟩
      exact htrans a b c hab (hb c hc)
    · next hab =>
      refine List.pairwise_cons.2 ⟨fun c hc => ?_, ih hbs⟩
      rcases List.mem_cons.1 ((insertBy_perm le a bs).mem_iff.1 hc) with rfl | hc
      · exact (htotal c b).resolve_left hab
      · exact hb c hc

theorem pairwise_sortBy (htotal : ∀ a b, le a b = true ∨ le b a = true)
    (htrans : ∀ a b c, le a b = true → le b c = true → le a c = true) (as : List α) :
    (sortBy le as).Pairwise fun a b => le a b = true := by
  induction as with
  | nil => exact List.Pairwise.nil
  | cons a as ih => exact pairwise_insertBy htotal htrans ih

/-- Members that do not come after each other are put in front of each other. -/
theorem filter_insertBy {test : α → Bool}
    (htest : ∀ a b, test a = true → test b = true → le a b = true) (a : α) (bs : List α) :
    (insertBy le a bs).filter test = (a :: bs).filter test := by
  induction bs with
  | nil => rfl
  | cons b bs ih =>
    rw [insertBy]
    split
    · rfl
    · next hab =>
      rw [List.filter_cons, ih]
      cases hb : test b with
      | false => simp [List.filter_cons, hb]
      | true =>
        have ha : test a = false := Bool.eq_false_iff.2 fun ha => hab (htest a b ha hb)
        simp [ha, hb]

theorem filter_sortBy {test : α → Bool}
    (htest : ∀ a b, test a = true → test b = true → le a b = true) (as : List α) :
    (sortBy le as).filter test = as.filter test := by
  induction as with
  | nil => rfl
  | cons a as ih =>
    have hfirst := filter_insertBy htest a (sortBy le as)
    rw [List.filter_cons, ih, ← List.filter_cons] at hfirst
    exact hfirst

/-- A list in the order of keys, where members with the same key stand as they did before. -/
structure IsStableSort (key : α → Text) (as sorted : List α) : Prop where
  perm : sorted.Perm as
  ordered : sorted.Pairwise fun a b => Text.le (key a) (key b) = true
  stable : ∀ k, sorted.filter (fun a => key a = k) = as.filter (fun a => key a = k)

theorem isStableSort_sortBy (key : α → Text) (as : List α) :
    IsStableSort key as (sortBy (fun a b => Text.le (key a) (key b)) as) where
  perm := sortBy_perm _ as
  ordered := pairwise_sortBy (fun a b => Text.le_total (key a) (key b))
    (fun _ _ _ hab hbc => Text.le_trans hab hbc) as
  stable k := by
    refine filter_sortBy (fun a b ha hb => ?_) as
    rw [of_decide_eq_true ha, of_decide_eq_true hb]
    exact (Text.le_total k k).elim id id

/-- Where all keys are different, there is one order, however the list was given. -/
theorem IsStableSort.eq_of_perm {key : α → Text} {sorted sorted' : List α} (h : IsStableSort key as sorted)
    (h' : IsStableSort key bs sorted') (hperm : as.Perm bs) (hnodup : (as.map key).Nodup) : sorted = sorted' := by
  have hnodup' : (sorted.map key).Nodup := (h.perm.map key).nodup_iff.2 hnodup
  refine (h.perm.trans (hperm.trans h'.perm.symm)).eq_of_pairwise (fun a b ha hb hab hba => ?_) h.ordered h'.ordered
  have hb' : b ∈ sorted := h.perm.mem_iff.2 (hperm.mem_iff.2 (h'.perm.mem_iff.1 hb))
  exact List.inj_on_of_nodup_map hnodup' ha hb' (Text.le_antisymm hab hba)

end CodeIndex
