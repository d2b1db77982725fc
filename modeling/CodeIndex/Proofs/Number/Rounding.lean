import CodeIndex.Number.Double
import Mathlib.Algebra.Order.Floor.Semifield
import Mathlib.Data.Int.Log
import Mathlib.Data.Rat.Floor
import Mathlib.Tactic.FieldSimp
import Mathlib.Tactic.Linarith
import Mathlib.Tactic.NormNum
import Mathlib.Tactic.Positivity
import Mathlib.Tactic.Ring

/-!
# Rounding

What a quotient is rounded to depends on its value alone. A number that has a mantissa and an
exponent in their bounds is rounded to itself, and rounding gives only such numbers.
-/

namespace CodeIndex.Double

variable {num den num' den' n d n' d' : Nat} {k : Int} {negative : Bool} {m : Nat} {e : Int}

theorem scale_pos (hden : 0 < den) (num : Nat) (k : Int) : 0 < (scale num den k).2 := by
  cases k with
  | ofNat j => exact hden
  | negSucc j => exact Nat.mul_pos hden (Nat.pow_pos (by decide))

theorem scale_value (num den : Nat) (k : Int) :
    ((scale num den k).1 : ℚ) / (scale num den k).2 = (num : ℚ) / den * 2 ^ k := by
  cases k with
  | ofNat j =>
    simp only [scale, Nat.pow_eq, Int.ofNat_eq_natCast, zpow_natCast]
    push_cast
    ring
  | negSucc j =>
    simp only [scale, Nat.pow_eq, zpow_negSucc]
    push_cast
    rw [div_mul_eq_div_div, div_eq_mul_inv (_ / _)]

/-- A quotient in units of a power of two is at least one exactly if it is at least that power. -/
theorem scale_neg_le_iff (hden : 0 < den) :
    (scale num den (-k)).2 ≤ (scale num den (-k)).1 ↔ (2 : ℚ) ^ k ≤ (num : ℚ) / den := by
  have hpos : (0 : ℚ) < (scale num den (-k)).2 := by exact_mod_cast scale_pos hden num (-k)
  have hvalue := scale_value num den (-k)
  rw [zpow_neg, ← div_eq_mul_inv] at hvalue
  have hunit : (0 : ℚ) < 2 ^ k := zpow_pos (by norm_num) k
  rw [← one_le_div hunit, ← hvalue, one_le_div hpos]
  exact_mod_cast Iff.rfl

theorem log_unique {b : Nat} (hb : 1 < b) {q : ℚ} (hq : 0 < q) (hle : (b : ℚ) ^ k ≤ q)
    (hlt : q < (b : ℚ) ^ (k + 1)) : k = Int.log b q := by
  have hlow := (Int.zpow_le_iff_le_log hb hq).1 hle
  have hhigh := (Int.lt_zpow_iff_log_lt hb hq).1 hlt
  omega

/-- The numbers of bits bound a quotient. -/
theorem log2_bounds (hnum : 0 < num) (hden : 0 < den) :
    (2 : ℚ) ^ ((Nat.log2 num : Int) - Nat.log2 den - 1) ≤ (num : ℚ) / den ∧
      (num : ℚ) / den < 2 ^ ((Nat.log2 num : Int) - Nat.log2 den + 1) := by
  have hd : (0 : ℚ) < den := by positivity
  have hlower : (2 : ℚ) ^ Nat.log2 num ≤ num := by exact_mod_cast Nat.log2_self_le hnum.ne'
  have hupper : (num : ℚ) < 2 ^ (Nat.log2 num + 1) := by exact_mod_cast Nat.lt_log2_self
  have hlower' : (2 : ℚ) ^ Nat.log2 den ≤ den := by exact_mod_cast Nat.log2_self_le hden.ne'
  have hupper' : (den : ℚ) < 2 ^ (Nat.log2 den + 1) := by exact_mod_cast Nat.lt_log2_self
  constructor
  · have hexp : (Nat.log2 num : Int) - Nat.log2 den - 1 =
        (Nat.log2 num : Nat) - (Nat.log2 den + 1 : Nat) := by push_cast; ring
    rw [le_div_iff₀ hd, hexp, zpow_sub₀ (by norm_num), zpow_natCast, zpow_natCast,
      div_mul_eq_mul_div, div_le_iff₀ (by positivity)]
    exact mul_le_mul hlower hupper'.le (by positivity) (by positivity)
  · have hexp : (Nat.log2 num : Int) - Nat.log2 den + 1 =
        (Nat.log2 num + 1 : Nat) - (Nat.log2 den : Nat) := by push_cast; ring
    rw [div_lt_iff₀ hd, hexp, zpow_sub₀ (by norm_num), zpow_natCast, zpow_natCast,
      div_mul_eq_mul_div, lt_div_iff₀ (by positivity)]
    exact mul_lt_mul hupper hlower' (by positivity) (by positivity)

theorem floorLog2_eq (hnum : 0 < num) (hden : 0 < den) :
    floorLog2 num den = Int.log 2 ((num : ℚ) / den) := by
  have hq : (0 : ℚ) < (num : ℚ) / den := by positivity
  obtain ⟨hbelow, habove⟩ := log2_bounds hnum hden
  simp only [floorLog2, scale_neg_le_iff hden]
  split
  · next hle => exact log_unique (by decide) hq hle habove
  · next hlt =>
    refine log_unique (by decide) hq hbelow ?_
    rw [sub_add_cancel]
    exact not_le.1 hlt

theorem roundQuotient_mul (n d : Nat) {c : Nat} (hc : 0 < c) :
    roundQuotient (n * c) (d * c) = roundQuotient n d := by
  have hmod : 2 * (n * c % (d * c)) = 2 * (n % d) * c := by
    rw [Nat.mul_mod_mul_right, Nat.mul_assoc]
  simp only [roundQuotient, Nat.mul_div_mul_right _ _ hc, hmod, Nat.mul_lt_mul_right hc]

theorem roundQuotient_congr (hd : 0 < d) (hd' : 0 < d') (heq : (n : ℚ) / d = (n' : ℚ) / d') :
    roundQuotient n d = roundQuotient n' d' := by
  have hcross : n * d' = n' * d := by
    rw [div_eq_div_iff (by positivity) (by positivity)] at heq
    exact_mod_cast heq
  rw [← roundQuotient_mul n d hd', hcross, Nat.mul_comm d d', roundQuotient_mul n' d' hd]

theorem le_roundQuotient (n d : Nat) : n / d ≤ roundQuotient n d := by
  simp only [roundQuotient]
  split_ifs <;> omega

theorem roundQuotient_le (n d : Nat) : roundQuotient n d ≤ n / d + 1 := by
  simp only [roundQuotient]
  split_ifs <;> omega

theorem roundQuotient_of_value (hd : 0 < d) (heq : (n : ℚ) / d = m) : roundQuotient n d = m := by
  rw [roundQuotient_congr hd Nat.one_pos (by simpa using heq : (n : ℚ) / d = (m : ℚ) / (1 : Nat))]
  simp [roundQuotient, Nat.mod_one]

theorem exponentFor_eq (hnum : 0 < num) (hden : 0 < den) :
    exponentFor num den = max (-1074) (Int.log 2 ((num : ℚ) / den) - 52) := by
  rw [exponentFor, floorLog2_eq hnum hden]
  rfl

/-- A quotient is rounded by its value. -/
theorem round_congr (hden : 0 < den) (hden' : 0 < den')
    (heq : (num : ℚ) / den = (num' : ℚ) / den') : round negative num den = round negative num' den' := by
  have hzero : num = 0 ↔ num' = 0 := by
    have hd : (den : ℚ) ≠ 0 := by positivity
    have hd' : (den' : ℚ) ≠ 0 := by positivity
    constructor
    · rintro rfl
      simpa [hd'] using heq.symm
    · rintro rfl
      simpa [hd] using heq
  by_cases hnum : num = 0
  · simp [round, hnum, hzero.1 hnum]
  · have hnum' : num' ≠ 0 := mt hzero.2 hnum
    have hexp : exponentFor num den = exponentFor num' den' := by
      rw [exponentFor_eq (Nat.pos_of_ne_zero hnum) hden,
        exponentFor_eq (Nat.pos_of_ne_zero hnum') hden', heq]
    have hquot : roundQuotient (scale num den (-exponentFor num' den')).1
        (scale num den (-exponentFor num' den')).2 =
        roundQuotient (scale num' den' (-exponentFor num' den')).1
          (scale num' den' (-exponentFor num' den')).2 := by
      refine roundQuotient_congr (scale_pos hden _ _) (scale_pos hden' _ _) ?_
      rw [scale_value, scale_value, heq]
    simp only [round, hnum, hnum', if_false, hexp, hquot]

theorem round_of_unsigned (h : round false num den = finite false m e) :
    round negative num den = finite negative m e := by
  simp only [round] at h ⊢
  split_ifs at h ⊢
  all_goals
    simp only [finite.injEq, true_and] at h ⊢
    exact h

/-- A number that a machine can hold: the mantissa has 53 bits, and fewer only with the least
exponent. -/
def IsCanonical : Double → Prop
  | finite _ m e =>
    m < 2 ^ precision ∧ minExponent ≤ e ∧ e ≤ maxExponent ∧ (2 ^ (precision - 1) ≤ m ∨ e = minExponent)
  | _ => True

instance : DecidablePred IsCanonical
  | nan => inferInstanceAs (Decidable True)
  | infinite _ => inferInstanceAs (Decidable True)
  | finite _ m e => inferInstanceAs (Decidable (m < 2 ^ precision ∧ minExponent ≤ e ∧
      e ≤ maxExponent ∧ (2 ^ (precision - 1) ≤ m ∨ e = minExponent)))

theorem isCanonical_zero (negative : Bool) : (finite negative 0 minExponent).IsCanonical :=
  ⟨by decide, by decide, by decide, .inr rfl⟩

/-- With its exponent, a quotient has at most 53 bits before the point, and fewer only with the least
exponent. -/
theorem scaled_bounds (hnum : 0 < num) (hden : 0 < den) (he : exponentFor num den = e) :
    minExponent ≤ e ∧ (scale num den (-e)).1 / (scale num den (-e)).2 < 2 ^ precision ∧
      (2 ^ (precision - 1) ≤ (scale num den (-e)).1 / (scale num den (-e)).2 ∨ e = minExponent) := by
  have hq : (0 : ℚ) < (num : ℚ) / den := by positivity
  have hlow : (2 : ℚ) ^ Int.log 2 ((num : ℚ) / den) ≤ (num : ℚ) / den := by
    exact_mod_cast Int.zpow_log_le_self (b := 2) (by decide) hq
  have hhigh : (num : ℚ) / den < 2 ^ (Int.log 2 ((num : ℚ) / den) + 1) := by
    exact_mod_cast Int.lt_zpow_succ_log_self (b := 2) (by decide) ((num : ℚ) / den)
  rw [exponentFor_eq hnum hden] at he
  have hunit : (0 : ℚ) < 2 ^ e := zpow_pos (by norm_num) e
  have hd : 0 < (scale num den (-e)).2 := scale_pos hden num (-e)
  have hd' : (0 : ℚ) < (scale num den (-e)).2 := by exact_mod_cast hd
  have hvalue := scale_value num den (-e)
  rw [zpow_neg, ← div_eq_mul_inv] at hvalue
  refine ⟨by rw [← he]; exact le_max_left _ _, ?_, ?_⟩
  · have hlt : ((scale num den (-e)).1 : ℚ) / (scale num den (-e)).2 < 2 ^ (53 : Int) := by
      rw [hvalue, div_lt_iff₀ hunit, ← zpow_add₀ (by norm_num)]
      exact hhigh.trans_le (zpow_le_zpow_right₀ (by norm_num) (by omega))
    rw [div_lt_iff₀ hd'] at hlt
    exact (Nat.div_lt_iff_lt_mul hd).2 (by exact_mod_cast hlt)
  · refine or_iff_not_imp_right.2 fun hne => ?_
    have hmin : minExponent = -1074 := rfl
    have hge : (2 : ℚ) ^ (52 : Int) ≤ ((scale num den (-e)).1 : ℚ) / (scale num den (-e)).2 := by
      rw [hvalue, le_div_iff₀ hunit, ← zpow_add₀ (by norm_num)]
      exact (zpow_le_zpow_right₀ (by norm_num) (by omega)).trans hlow
    rw [le_div_iff₀ hd'] at hge
    exact (Nat.le_div_iff_mul_le hd).2 (by exact_mod_cast hge)

theorem isCanonical_round (hden : 0 < den) : (round negative num den).IsCanonical := by
  by_cases hnum : num = 0
  · rw [round, if_pos hnum]
    exact isCanonical_zero negative
  obtain ⟨hmin, hlt, hge⟩ := scaled_bounds (Nat.pos_of_ne_zero hnum) hden rfl
  have hle := le_roundQuotient (scale num den (-exponentFor num den)).1
    (scale num den (-exponentFor num den)).2
  have hle' := roundQuotient_le (scale num den (-exponentFor num den)).1
    (scale num den (-exponentFor num den)).2
  simp only [round, hnum, if_false]
  by_cases hcarry : roundQuotient (scale num den (-exponentFor num den)).1
      (scale num den (-exponentFor num den)).2 = Nat.pow 2 precision
  · rw [if_pos hcarry]
    split_ifs with hmax
    · trivial
    · have hhalf : Nat.pow 2 (precision - 1) < 2 ^ precision := by decide
      exact ⟨hhalf, by omega, not_lt.1 hmax, .inl le_rfl⟩
  · rw [if_neg hcarry]
    split_ifs with hmax
    · trivial
    · rw [Nat.pow_eq] at hcarry
      exact ⟨by omega, hmin, not_lt.1 hmax, hge.imp_left fun h => h.trans hle⟩

theorem exponentFor_of_value (hm : 0 < m) (hcan : (finite negative m e).IsCanonical)
    (hnum : 0 < num) (hden : 0 < den) (heq : (num : ℚ) / den = m * 2 ^ e) :
    exponentFor num den = e := by
  obtain ⟨hlt, hmin, -, hge⟩ := hcan
  have hunit : (0 : ℚ) < 2 ^ e := zpow_pos (by norm_num) e
  have hlower : (2 : ℚ) ^ Nat.log2 m ≤ m := by exact_mod_cast Nat.log2_self_le hm.ne'
  have hupper : (m : ℚ) < 2 ^ (Nat.log2 m + 1) := by exact_mod_cast Nat.lt_log2_self
  have hlog : (Nat.log2 m : Int) + e = Int.log 2 ((num : ℚ) / den) := by
    refine log_unique (by decide) (by positivity) ?_ ?_
    · rw [heq, zpow_add₀ (by norm_num), zpow_natCast]
      exact mul_le_mul_of_nonneg_right hlower hunit.le
    · rw [heq, add_right_comm, zpow_add₀ (by norm_num)]
      exact mul_lt_mul_of_pos_right (by exact_mod_cast hupper) hunit
  have hbits : Nat.log2 m < precision := (Nat.log2_lt hm.ne').2 hlt
  rw [exponentFor_eq hnum hden, ← hlog]
  simp only [minExponent, precision] at hmin hge hbits
  rcases hge with hge | rfl
  · have hfull : 52 ≤ Nat.log2 m := (Nat.le_log2 hm.ne').2 hge
    omega
  · omega

/-- A number that a machine can hold is rounded to itself. -/
theorem round_of_value (hm : 0 < m) (hcan : (finite negative m e).IsCanonical) (hden : 0 < den)
    (heq : (num : ℚ) / den = m * 2 ^ e) : round negative num den = finite negative m e := by
  have hunit : (0 : ℚ) < 2 ^ e := zpow_pos (by norm_num) e
  have hnum : num ≠ 0 := by
    rintro rfl
    have hpos : (0 : ℚ) < m * 2 ^ e := by positivity
    rw [← heq] at hpos
    simp at hpos
  have hexp := exponentFor_of_value hm hcan (Nat.pos_of_ne_zero hnum) hden heq
  have hquot : roundQuotient (scale num den (-e)).1 (scale num den (-e)).2 = m := by
    refine roundQuotient_of_value (scale_pos hden _ _) ?_
    rw [scale_value, heq, mul_assoc, ← zpow_add₀ (by norm_num), add_neg_cancel, zpow_zero, mul_one]
  obtain ⟨hlt, -, hmax, -⟩ := hcan
  have hcarry : m ≠ Nat.pow 2 precision := hlt.ne
  simp only [round, hnum, if_false, hexp, hquot, hcarry, if_neg (not_lt.2 hmax)]

end CodeIndex.Double
