import CodeIndex.Text.Newline
import Mathlib.Tactic.Common

/-!
# Unified line ends

Unifying line ends goes through a text from its start and remembers one thing: whether a carriage
return has just been seen, whose line feed may still come. So a text can be cut anywhere but there,
and every cut of the result comes from a cut of the text.
-/

namespace CodeIndex.Text

variable {t u : Text} {c : Char} {seen : Bool}

/-- The text with unified line ends, behind a carriage return if `seen`. -/
def unifyFrom (seen : Bool) : Text → Text
  | [] => []
  | c :: t =>
    if c = '\r' then '\n' :: unifyFrom true t
    else if c = '\n' && seen then unifyFrom false t
    else c :: unifyFrom false t

theorem unifyLineEnds_eq (t : Text) : unifyLineEnds t = unifyFrom false t := by
  have hfold : ∀ (t done : Text) (seen : Bool),
      (t.foldl unifyStep (done, seen)).1 = (unifyFrom seen t).reverse ++ done := by
    intro t
    induction t with
    | nil => simp [unifyFrom]
    | cons c t ih =>
      intro done seen
      rw [List.foldl_cons, unifyStep, unifyFrom]
      split_ifs <;> simp [ih]
  rw [unifyLineEnds, hfold]
  simp

theorem unifyFrom_of_head (h : t.head? ≠ some '\n') (seen : Bool) :
    unifyFrom seen t = unifyFrom false t := by
  cases t with
  | nil => rfl
  | cons c t =>
    have hc : c ≠ '\n' := by simpa using h
    simp [unifyFrom, hc]

/-- A cut that separates no carriage return from its line feed. -/
def IsCut (t u : Text) : Prop := t.getLast? ≠ some '\r' ∨ u.head? ≠ some '\n'

theorem unifyFrom_append (h : IsCut t u) (hseen : t = [] → seen = true → u.head? ≠ some '\n') :
    unifyFrom seen (t ++ u) = unifyFrom seen t ++ unifyFrom false u := by
  induction t generalizing seen with
  | nil =>
    cases seen with
    | false => rfl
    | true => exact unifyFrom_of_head (hseen rfl rfl) true
  | cons c t ih =>
    have hcut : IsCut t u := by
      rcases h with h | h
      · cases t with
        | nil => exact .inl (by simp)
        | cons d t => exact .inl (by simpa using h)
      · exact .inr h
    -- at the end of the text its carriage return is known from `seen` only
    have hreturn : t = [] → c = '\r' → u.head? ≠ some '\n' := by
      rintro rfl rfl
      exact h.resolve_left (by simp)
    simp only [List.cons_append, unifyFrom]
    split_ifs with hc hfeed
    · rw [ih hcut fun ht _ => hreturn ht hc, List.cons_append]
    · exact ih hcut (by simp)
    · rw [ih hcut (by simp), List.cons_append]

/-- Line ends are unified on both sides of a cut. -/
theorem unifyLineEnds_append (h : IsCut t u) :
    unifyLineEnds (t ++ u) = unifyLineEnds t ++ unifyLineEnds u := by
  simp only [unifyLineEnds_eq]
  exact unifyFrom_append h (by simp)

theorem exists_of_unifyFrom {a b : Text} (h : unifyFrom seen t = a ++ b) :
    ∃ a' b', t = a' ++ b' ∧ unifyFrom seen a' = a ∧ unifyFrom false b' = b := by
  induction t generalizing seen a with
  | nil =>
    obtain ⟨rfl, rfl⟩ := List.append_eq_nil_iff.1 h.symm
    exact ⟨[], [], rfl, rfl, rfl⟩
  | cons c t ih =>
    rw [unifyFrom] at h
    split_ifs at h with hc hfeed
    · cases a with
      | nil =>
        refine ⟨[], c :: t, rfl, rfl, ?_⟩
        rw [unifyFrom, if_pos hc]
        exact h
      | cons d a =>
        obtain ⟨rfl, hrest⟩ := List.cons.inj h
        obtain ⟨a', b', rfl, rfl, rfl⟩ := ih hrest
        exact ⟨c :: a', b', rfl, by rw [unifyFrom, if_pos hc], rfl⟩
    · -- the line feed of a carriage return before the cut stays before it
      obtain ⟨a', b', rfl, rfl, rfl⟩ := ih h
      exact ⟨c :: a', b', rfl, by rw [unifyFrom, if_neg hc, if_pos hfeed], rfl⟩
    · cases a with
      | nil =>
        refine ⟨[], c :: t, rfl, rfl, ?_⟩
        rw [unifyFrom, if_neg hc, if_neg (by simp)]
        exact h
      | cons d a =>
        obtain ⟨rfl, hrest⟩ := List.cons.inj h
        obtain ⟨a', b', rfl, rfl, rfl⟩ := ih hrest
        exact ⟨c :: a', b', rfl, by rw [unifyFrom, if_neg hc, if_neg hfeed], rfl⟩

/-- Every cut of a text with unified line ends comes from a cut of the text. -/
theorem exists_of_unifyLineEnds {a b : Text} (h : unifyLineEnds t = a ++ b) :
    ∃ a' b', t = a' ++ b' ∧ unifyLineEnds a' = a ∧ unifyLineEnds b' = b := by
  simp only [unifyLineEnds_eq] at h ⊢
  exact exists_of_unifyFrom h

theorem mem_of_mem_unifyFrom (h : c ∈ unifyFrom seen t) : c = '\n' ∨ c ∈ t := by
  induction t generalizing seen with
  | nil => cases h
  | cons d t ih =>
    rw [unifyFrom] at h
    split_ifs at h
    · rcases List.mem_cons.1 h with rfl | h
      · exact .inl rfl
      · exact (ih h).imp_right (List.mem_cons_of_mem d)
    · exact (ih h).imp_right (List.mem_cons_of_mem d)
    · rcases List.mem_cons.1 h with rfl | h
      · exact .inr List.mem_cons_self
      · exact (ih h).imp_right (List.mem_cons_of_mem d)

theorem mem_unifyFrom_of_mem (h : c ∈ t) (hreturn : c ≠ '\r') (hfeed : c ≠ '\n') :
    c ∈ unifyFrom seen t := by
  induction t generalizing seen with
  | nil => cases h
  | cons d t ih =>
    rw [unifyFrom]
    split_ifs with hd hskip
    · have hne : c ≠ d := hd ▸ hreturn
      exact List.mem_cons_of_mem _ (ih ((List.mem_cons.1 h).resolve_left hne))
    · simp only [Bool.and_eq_true, decide_eq_true_eq] at hskip
      have hne : c ≠ d := hskip.1 ▸ hfeed
      exact ih ((List.mem_cons.1 h).resolve_left hne)
    · rcases List.mem_cons.1 h with rfl | h
      · exact List.mem_cons_self
      · exact List.mem_cons_of_mem _ (ih h)

/-- A carriage return leaves a line feed behind. -/
theorem feed_mem_unifyFrom (h : '\r' ∈ t) : '\n' ∈ unifyFrom seen t := by
  induction t generalizing seen with
  | nil => cases h
  | cons d t ih =>
    rw [unifyFrom]
    split_ifs with hd hskip
    · exact List.mem_cons_self
    · exact ih ((List.mem_cons.1 h).resolve_left (Ne.symm hd))
    · exact List.mem_cons_of_mem _ (ih ((List.mem_cons.1 h).resolve_left (Ne.symm hd)))

/-- A text without carriage returns has its line ends unified. -/
theorem unifyLineEnds_of_notMem (h : '\r' ∉ t) : unifyLineEnds t = t := by
  rw [unifyLineEnds_eq]
  induction t with
  | nil => rfl
  | cons c t ih =>
    obtain ⟨hc, ht⟩ := not_or.1 (mt List.mem_cons.2 h)
    rw [unifyFrom, if_neg (Ne.symm hc), if_neg (by simp), ih ht]

end CodeIndex.Text
