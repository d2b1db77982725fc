import CodeIndex.Number.Decimal
import CodeIndex.Proofs.Number.Rounding
import Mathlib.Data.List.TakeWhile

/-!
# Decimals and doubles

The double that a decimal stands for depends on its value alone, so digits may be split and shifted
as a text needs it. The shortest decimal of a number stands for that number.
-/

namespace CodeIndex.Decimal

open Double

variable {d d' : Decimal} {negative : Bool} {m : Nat} {e : Int} {t : Text}

theorem natOfText_natText (n : Nat) : natOfText (natText n) = n := Nat.ofDigitChars_ten_toDigits

theorem natText_ne_nil (n : Nat) : natText n ≠ [] := Nat.toDigits_ne_nil

theorem isDigit_of_mem_natText {n : Nat} {c : Char} (hc : c ∈ natText n) : c.isDigit = true :=
  Nat.isDigit_of_mem_toDigits (by decide) (by decide) hc

theorem length_natText_le_iff {n k : Nat} (hk : 0 < k) : (natText n).length ≤ k ↔ n < 10 ^ k :=
  Nat.length_toDigits_le_iff (by decide) hk

theorem natOfText_concat (t : Text) (c : Char) :
    natOfText (t ++ [c]) = 10 * natOfText t + (c.toNat - '0'.toNat) := by
  simp [natOfText, List.foldl_append]

theorem natOfText_lt (ht : ∀ c ∈ t, c.isDigit = true) : natOfText t < 10 ^ t.length := by
  induction t using List.reverseRecOn with
  | nil => simp [natOfText]
  | append_singleton t c ih =>
    have hc : c.toNat - '0'.toNat < 10 := by
      have hdigit := ht c (by simp)
      simp only [Char.isDigit, Bool.and_eq_true, decide_eq_true_eq] at hdigit
      have hle : c.toNat ≤ '9'.toNat := hdigit.2
      have hnine : '9'.toNat = '0'.toNat + 9 := rfl
      omega
    have hlt := ih fun c' hc' => ht c' (List.mem_append_left _ hc')
    rw [natOfText_concat, List.length_append, List.length_singleton, Nat.pow_succ]
    omega

/-- Zeros behind digits multiply. -/
theorem natOfText_zeros_behind (t : Text) (k : Nat) :
    natOfText (t ++ List.replicate k '0') = natOfText t * 10 ^ k := by
  induction k with
  | zero => simp
  | succ k ih =>
    rw [List.replicate_succ', ← List.append_assoc, natOfText_concat, ih, Nat.pow_succ]
    simp
    ring

/-- Zeros in front of digits do not count. -/
theorem natOfText_zeros_before (k : Nat) (t : Text) :
    natOfText (List.replicate k '0' ++ t) = natOfText t := by
  induction k with
  | zero => rfl
  | succ k ih =>
    rw [List.replicate_succ, List.cons_append]
    exact ih

/-- A positive number does not start with a zero. -/
theorem natText_head {n : Nat} (hn : 0 < n) : ∃ c cs, natText n = c :: cs ∧ c ≠ '0' := by
  induction n using Nat.strongRecOn with
  | ind n ih =>
    by_cases hsmall : n < 10
    · refine ⟨n.digitChar, [], Nat.toDigits_of_lt_base hsmall, ?_⟩
      have hall : ∀ k < 10, 0 < k → Nat.digitChar k ≠ '0' := by decide
      exact hall n hsmall hn
    · obtain ⟨c, cs, hcs, hc⟩ := ih (n / 10) (by omega) (by omega)
      refine ⟨c, cs ++ [(n % 10).digitChar], ?_, hc⟩
      rw [natText, Nat.toDigits_of_base_le (by decide) (by omega)]
      exact congrArg (· ++ _) hcs

theorem withoutTrailingZeros_spec (ds : Text) :
    ds = (withoutTrailingZeros ds).1 ++ List.replicate (withoutTrailingZeros ds).2 '0' := by
  have hsplit : ds = (ds.reverse.dropWhile (· == '0')).reverse ++
      (ds.reverse.takeWhile (· == '0')).reverse := by
    rw [← List.reverse_append, List.takeWhile_append_dropWhile, List.reverse_reverse]
  have hzeros : (ds.reverse.takeWhile (· == '0')).reverse =
      List.replicate (ds.reverse.takeWhile (· == '0')).reverse.length '0' := by
    refine List.eq_replicate_of_mem fun c hc => ?_
    simpa using List.mem_takeWhile_imp (List.mem_reverse.1 hc)
  have hlength := congrArg List.length hsplit
  rw [List.length_append] at hlength
  simp only [withoutTrailingZeros]
  rw [show ds.length - (ds.reverse.dropWhile (· == '0')).reverse.length =
    (ds.reverse.takeWhile (· == '0')).reverse.length by omega, ← hzeros]
  exact hsplit

def value (d : Decimal) : ℚ := d.digits * 10 ^ d.exponent

theorem value_eq_zero_iff : d.value = 0 ↔ d.digits = 0 := by
  have hunit : (10 : ℚ) ^ d.exponent ≠ 0 := zpow_ne_zero _ (by norm_num)
  simp [value, hunit]

theorem value_pos (h : d.digits ≠ 0) : 0 < d.value :=
  mul_pos (by positivity) (zpow_pos (by norm_num) _)

theorem ratio_pos (d : Decimal) : 0 < d.ratio.2 := by
  unfold ratio
  split
  · exact Nat.one_pos
  · exact Nat.pow_pos (by decide)

theorem ratio_value (d : Decimal) : (d.ratio.1 : ℚ) / d.ratio.2 = d.value := by
  obtain ⟨digits, exponent⟩ := d
  cases exponent with
  | ofNat n => simp [ratio, value]
  | negSucc n => simp [ratio, value, zpow_negSucc, div_eq_mul_inv]

/-- Where the point stands is known from the value. -/
theorem magnitude_eq (h : d.digits ≠ 0) :
    ((natText d.digits).length : Int) + d.exponent = Int.log 10 d.value + 1 := by
  have hunit : (0 : ℚ) < 10 ^ d.exponent := zpow_pos (by norm_num) _
  obtain ⟨k, hk⟩ : ∃ k, (natText d.digits).length = k + 1 :=
    Nat.exists_eq_add_one_of_ne_zero (by simp [natText_ne_nil])
  have hhigh : d.digits < 10 ^ (k + 1) := (length_natText_le_iff (by omega)).1 hk.le
  have hlow : 10 ^ k ≤ d.digits := by
    by_cases hzero : k = 0
    · subst hzero
      exact Nat.one_le_iff_ne_zero.2 h
    · refine not_lt.1 fun hlt => ?_
      have := (length_natText_le_iff (Nat.pos_of_ne_zero hzero)).2 hlt
      omega
  have hlog : (k : Int) + d.exponent = Int.log 10 d.value := by
    refine log_unique (by decide) (value_pos h) ?_ ?_
    · rw [value, zpow_add₀ (by norm_num), zpow_natCast]
      exact mul_le_mul_of_nonneg_right (by exact_mod_cast hlow) hunit.le
    · rw [value, add_right_comm, zpow_add₀ (by norm_num)]
      exact mul_lt_mul_of_pos_right (by exact_mod_cast hhigh) hunit
  rw [← hlog, hk]
  push_cast
  ring

/-- The double of a decimal is known from its value. -/
theorem toDouble_congr (heq : d.value = d'.value) : toDouble negative d = toDouble negative d' := by
  have hzero : d.digits = 0 ↔ d'.digits = 0 := by
    rw [← value_eq_zero_iff, heq, value_eq_zero_iff]
  by_cases h : d.digits = 0
  · simp [toDouble, h, hzero.1 h]
  · have h' : d'.digits ≠ 0 := mt hzero.2 h
    have hround : Double.round negative d.ratio.1 d.ratio.2 =
        Double.round negative d'.ratio.1 d'.ratio.2 :=
      round_congr (ratio_pos d) (ratio_pos d') (by rw [ratio_value, ratio_value, heq])
    simp only [toDouble, h, h', magnitude_eq h, magnitude_eq h', heq, hround]

/-- Zeros at the end of the digits may go to the exponent. -/
theorem toDouble_shift (n k : Nat) (e : Int) :
    toDouble negative ⟨n * 10 ^ k, e⟩ = toDouble negative ⟨n, e + k⟩ := by
  refine toDouble_congr ?_
  simp only [value, zpow_add₀ (by norm_num : (10 : ℚ) ≠ 0), zpow_natCast]
  push_cast
  ring

theorem isCanonical_toDouble (negative : Bool) (d : Decimal) :
    (toDouble negative d).IsCanonical := by
  simp only [toDouble]
  split_ifs
  · exact isCanonical_zero negative
  · trivial
  · exact isCanonical_round (ratio_pos d)

/-- A sign goes through. -/
theorem toDouble_of_unsigned (h : toDouble false d = finite false m e) :
    toDouble negative d = finite negative m e := by
  simp only [toDouble] at h ⊢
  split_ifs at h ⊢
  · simpa using h
  · exact round_of_unsigned h

/-- A decimal with the value of a number that a machine can hold stands for that number. -/
theorem toDouble_of_value (hm : 0 < m) (hcan : (finite negative m e).IsCanonical)
    (heq : d.value = m * 2 ^ e) : toDouble negative d = finite negative m e := by
  have hunit : (0 : ℚ) < 2 ^ e := zpow_pos (by norm_num) e
  have hpos : 0 < d.value := by rw [heq]; positivity
  have hdigits : d.digits ≠ 0 := fun hzero => hpos.ne' (value_eq_zero_iff.2 hzero)
  obtain ⟨hlt, hmin, hmax, -⟩ := id hcan
  have hlow : (-401 : Int) ≤ Int.log 10 d.value := by
    refine (Int.zpow_le_iff_le_log (by decide) hpos).1 ?_
    have htwo : (2 : ℚ) ^ (1074 : Nat) ≤ 10 ^ (401 : Nat) := by
      exact_mod_cast (by decide +kernel : 2 ^ 1074 ≤ 10 ^ 401)
    calc ((10 : Nat) : ℚ) ^ (-401 : Int) ≤ 2 ^ (-1074 : Int) :=
        inv_anti₀ (by positivity) htwo
      _ ≤ 2 ^ e := zpow_le_zpow_right₀ (by norm_num) hmin
      _ ≤ m * 2 ^ e := le_mul_of_one_le_left hunit.le (by exact_mod_cast hm)
      _ = d.value := heq.symm
  have hhigh : Int.log 10 d.value < 400 := by
    refine (Int.lt_zpow_iff_log_lt (by decide) hpos).1 ?_
    have htwo : (2 : ℚ) ^ (1024 : Nat) < 10 ^ (400 : Nat) := by
      exact_mod_cast (by decide +kernel : 2 ^ 1024 < 10 ^ 400)
    calc d.value = m * 2 ^ e := heq
      _ ≤ 2 ^ (53 : Int) * 2 ^ (971 : Int) :=
        mul_le_mul (by exact_mod_cast hlt.le) (zpow_le_zpow_right₀ (by norm_num) hmax) hunit.le
          (by positivity)
      _ = 2 ^ ((1024 : Nat) : Int) := (zpow_add₀ (by norm_num) 53 971).symm
      _ = 2 ^ (1024 : Nat) := zpow_natCast _ _
      _ < ((10 : Nat) : ℚ) ^ (400 : Int) := htwo
  have hround := round_of_value hm hcan (ratio_pos d) ((ratio_value d).trans heq)
  have hmag := magnitude_eq hdigits
  have hinside : ¬((decide (d.digits = 0) || decide (((natText d.digits).length : Int) +
      d.exponent < -magnitudeLimit)) = true) := by
    rw [Bool.or_eq_true, decide_eq_true_eq, decide_eq_true_eq, magnitudeLimit]
    omega
  have hinside' : ¬magnitudeLimit < ((natText d.digits).length : Int) + d.exponent := by
    rw [magnitudeLimit]
    omega
  simp only [toDouble, hround, if_neg hinside, if_neg hinside']

theorem exact_value (m : Nat) (e : Int) : (exact m e).value = m * 2 ^ e := by
  cases e with
  | ofNat n => simp [exact, value]
  | negSucc n =>
    have hten : (10 : ℚ) ^ (n + 1) = 5 ^ (n + 1) * 2 ^ (n + 1) := by rw [← mul_pow]; norm_num
    have hexp : (-((n : Int) + 1)) = Int.negSucc n := by omega
    simp only [exact, value, hexp, zpow_negSucc, hten, Nat.pow_eq]
    push_cast
    field_simp

/-- The decimal that a number is written with stands for that number. -/
theorem toDouble_shortest (hm : 0 < m) (hcan : (finite negative m e).IsCanonical) :
    toDouble negative (shortest m e) = finite negative m e := by
  refine toDouble_of_unsigned ?_
  simp only [shortest]
  cases hfind : (candidates (scale m 1 e).1 (scale m 1 e).2).find? fun d =>
      d.toDouble false == finite false m e with
  | none => exact toDouble_of_value hm hcan (exact_value m e)
  | some d => simpa using List.find?_some hfind

end CodeIndex.Decimal
