import CodeIndex.Json.Parser
import CodeIndex.Json.Writer
import CodeIndex.Proofs.Number.Decimal

/-!
# Numbers in JSON

A number is read back as it was written. Where the point of a double is put and which zeros are
written does not matter, because all such texts have one value.
-/

namespace CodeIndex.Json

open Decimal

variable {ds fs rest t : Text} {c : Char}

/-- A text that does not go on with digits. -/
def EndsDigits (rest : Text) : Prop := ∀ c, rest.head? = some c → c.isDigit = false

/-- A text that does not go on with a number. -/
structure EndsNumber (rest : Text) : Prop where
  digits : EndsDigits rest
  point : rest.head? ≠ some '.'
  lower : rest.head? ≠ some 'e'
  upper : rest.head? ≠ some 'E'

theorem endsDigits_cons (hc : c.isDigit = false) (rest : Text) : EndsDigits (c :: rest) := by
  rintro _ ⟨⟩
  exact hc

theorem digits_append (hds : ∀ c ∈ ds, c.isDigit = true) (hrest : EndsDigits rest) :
    digits (ds ++ rest) = (ds, rest) := by
  have hstop : rest.takeWhile Char.isDigit = [] ∧ rest.dropWhile Char.isDigit = rest := by
    cases rest with
    | nil => exact ⟨rfl, rfl⟩
    | cons c rest =>
      have hc := hrest c rfl
      exact ⟨List.takeWhile_cons_of_neg (by simp [hc]), List.dropWhile_cons_of_neg (by simp [hc])⟩
  simp only [digits, List.takeWhile_append_of_pos hds, List.dropWhile_append_of_pos hds, hstop,
    List.append_nil]

theorem whole?_zero (rest : Text) : whole? ('0' :: rest) = some (['0'], rest) := rfl

theorem whole?_append (hds : ∀ c ∈ ds, c.isDigit = true) (hrest : EndsDigits rest)
    (hhead : ∃ c cs, ds = c :: cs ∧ c ≠ '0') : whole? (ds ++ rest) = some (ds, rest) := by
  obtain ⟨c, cs, rfl, hc⟩ := hhead
  have hfound := digits_append hds hrest
  unfold whole?
  split
  · next heq => exact absurd (List.cons.inj heq).1 hc
  · rw [hfound]

theorem fraction?_append (hds : ∀ c ∈ ds, c.isDigit = true) (hne : ds ≠ [])
    (hrest : EndsDigits rest) : fraction? ('.' :: (ds ++ rest)) = some (ds, rest) := by
  obtain ⟨c, cs, rfl⟩ := List.exists_cons_of_ne_nil hne
  rw [fraction?, digits_append hds hrest]

theorem fraction?_eq_none (h : t.head? ≠ some '.') : fraction? t = none := by
  unfold fraction?
  split
  · exact absurd rfl h
  · rfl

theorem exponent?_eq_none (hlower : t.head? ≠ some 'e') (hupper : t.head? ≠ some 'E') :
    exponent? t = none := by
  unfold exponent?
  split
  · next c rest =>
    have hc : ¬((decide (c = 'e') || decide (c = 'E')) = true) := by
      rw [Bool.or_eq_true, decide_eq_true_eq, decide_eq_true_eq]
      rintro (rfl | rfl)
      · exact hlower rfl
      · exact hupper rfl
    rw [if_neg hc]
  · rfl

theorem isDigit_zeros {k : Nat} (hc : c ∈ List.replicate k '0') : c.isDigit = true := by
  rw [(List.mem_replicate.1 hc).2]
  rfl

theorem isDigit_append {ds' : Text} (hds : ∀ c ∈ ds, c.isDigit = true)
    (hds' : ∀ c ∈ ds', c.isDigit = true) : ∀ c ∈ ds ++ ds', c.isDigit = true :=
  fun c hc => (List.mem_append.1 hc).elim (hds c) (hds' c)

/-- A written exponent is read back. -/
theorem exponent?_exponentText (layout : Layout) (e : Int) (hrest : EndsDigits rest) :
    exponent? (exponentText layout e ++ rest) = some (e, rest) := by
  have hds : ∀ c ∈ List.replicate (layout.exponentDigits - (natText e.natAbs).length) '0' ++
      natText e.natAbs, c.isDigit = true :=
    isDigit_append (fun c hc => isDigit_zeros hc) fun c hc => isDigit_of_mem_natText hc
  have hfound := digits_append hds hrest
  have hne : List.replicate (layout.exponentDigits - (natText e.natAbs).length) '0' ++
      natText e.natAbs ≠ [] := by simp [natText_ne_nil]
  have hvalue : natOfText (List.replicate (layout.exponentDigits - (natText e.natAbs).length) '0' ++
      natText e.natAbs) = e.natAbs := by
    rw [natOfText_zeros_before, natOfText_natText]
  obtain ⟨c, cs, hcs⟩ := List.exists_cons_of_ne_nil hne
  rw [hcs] at hfound hvalue
  by_cases he : e < 0
  · simp only [exponentText, he, if_true, List.cons_append, hcs]
    rw [exponent?]
    simp only [decide_true, Bool.true_or, if_true, sign]
    rw [← List.cons_append, hfound]
    simp only [hvalue, Option.some.injEq, Prod.mk.injEq, and_true]
    omega
  · simp only [exponentText, he, if_false, List.cons_append, hcs]
    rw [exponent?]
    simp only [decide_true, Bool.true_or, if_true, sign]
    rw [← List.cons_append, hfound]
    simp only [hvalue, Bool.false_eq_true, if_false, Option.some.injEq, Prod.mk.injEq, and_true]
    omega

theorem unsigned_natText (negative : Bool) (n : Nat) (hsize : (natText n).length ≤ Json.maxDigits)
    (hrest : EndsNumber rest) :
    unsigned negative (natText n ++ rest) = .ok (.int (if negative then -n else n), rest) := by
  have hwhole : whole? (natText n ++ rest) = some (natText n, rest) := by
    by_cases hn : n = 0
    · subst hn
      exact whole?_zero rest
    · exact whole?_append (fun c hc => isDigit_of_mem_natText hc) hrest.digits
        (natText_head (Nat.pos_of_ne_zero hn))
  simp only [unsigned, hwhole, fraction?_eq_none hrest.point,
    exponent?_eq_none hrest.lower hrest.upper, if_neg (not_lt.2 hsize), natOfText_natText]

/-- A number with a point. -/
theorem unsigned_pointed (negative : Bool)
    (hwhole : whole? (ds ++ '.' :: (fs ++ rest)) = some (ds, '.' :: (fs ++ rest)))
    (hfs : ∀ c ∈ fs, c.isDigit = true) (hne : fs ≠ []) (hrest : EndsNumber rest) :
    unsigned negative (ds ++ '.' :: (fs ++ rest)) =
      .ok (.real (toDouble negative ⟨natOfText (ds ++ fs), -fs.length⟩), rest) := by
  simp only [unsigned, hwhole, fraction?_append hfs hne hrest.digits,
    exponent?_eq_none hrest.lower hrest.upper, Option.getD_none, zero_sub]

/-- A number with an exponent. -/
theorem unsigned_exponent (negative : Bool) (layout : Layout) (hds : ∀ c ∈ ds, c.isDigit = true)
    (hhead : ∃ c cs, ds = c :: cs ∧ c ≠ '0') (e : Int) (hrest : EndsNumber rest) :
    unsigned negative (ds ++ (exponentText layout e ++ rest)) =
      .ok (.real (toDouble negative ⟨natOfText ds, e⟩), rest) := by
  have hmark : EndsDigits (exponentText layout e ++ rest) := endsDigits_cons (by decide) _
  have hpoint : (exponentText layout e ++ rest).head? ≠ some '.' := by simp [exponentText]
  simp only [unsigned, whole?_append hds hmark hhead, fraction?_eq_none hpoint,
    exponent?_exponentText layout e hrest.digits]

/-- A number with a point and an exponent. -/
theorem unsigned_pointed_exponent (negative : Bool) (layout : Layout)
    (hds : ∀ c ∈ ds, c.isDigit = true) (hhead : ∃ c cs, ds = c :: cs ∧ c ≠ '0') (hfs : ∀ c ∈ fs, c.isDigit = true) (hne : fs ≠ [])
    (e : Int) (hrest : EndsNumber rest) :
    unsigned negative (ds ++ '.' :: (fs ++ (exponentText layout e ++ rest))) =
      .ok (.real (toDouble negative ⟨natOfText (ds ++ fs), e - fs.length⟩), rest) := by
  have hmark : EndsDigits (exponentText layout e ++ rest) := endsDigits_cons (by decide) _
  have hpoint : EndsDigits ('.' :: (fs ++ (exponentText layout e ++ rest))) :=
    endsDigits_cons (by decide) _
  simp only [unsigned, whole?_append hds hpoint hhead,
    fraction?_append hfs hne hmark, exponent?_exponentText layout e hrest.digits, Option.getD_some]

/-- Digits with the point in its place, at least one of them before it. -/
theorem unsigned_positional (negative : Bool) (hds : ∀ c ∈ ds, c.isDigit = true)
    (hhead : ∃ c cs, ds = c :: cs ∧ c ≠ '0') (n : Nat) (hrest : EndsNumber rest) :
    unsigned negative (ds.take (n + 1) ++ List.replicate (n + 1 - (ds.take (n + 1)).length) '0' ++
        ['.'] ++ (if (ds.drop (n + 1)).isEmpty then ['0'] else ds.drop (n + 1)) ++ rest) =
      .ok (.real (toDouble negative ⟨natOfText ds, n + 1 - ds.length⟩), rest) := by
  obtain ⟨c, cs, rfl, hc⟩ := hhead
  by_cases hlen : (c :: cs).length ≤ n + 1
  · have hwhole : ∀ c' ∈ c :: cs ++ List.replicate (n + 1 - (c :: cs).length) '0',
        c'.isDigit = true := isDigit_append hds fun c' hc' => isDigit_zeros hc'
    have hread := unsigned_pointed negative (whole?_append hwhole
      (endsDigits_cons (by decide) (['0'] ++ rest)) ⟨c, _, rfl, hc⟩)
      (List.forall_mem_singleton.2 rfl) (List.cons_ne_nil '0' []) hrest
    have hzeros : c :: cs ++ List.replicate (n + 1 - (c :: cs).length) '0' ++ ['0'] =
        c :: cs ++ List.replicate (n + 1 - (c :: cs).length + 1) '0' := by
      rw [List.replicate_succ', List.append_assoc]
    rw [hzeros, natOfText_zeros_behind, toDouble_shift] at hread
    rw [List.take_of_length_le hlen, List.drop_of_length_le hlen]
    simp only [List.isEmpty_nil, if_true, List.append_assoc, List.cons_append,
      List.nil_append] at hread ⊢
    rw [hread]
    congr 5
    push_cast [Nat.cast_sub hlen]
    simp
  · have hdrop : (c :: cs).drop (n + 1) ≠ [] := by
      rw [Ne, List.drop_eq_nil_iff]
      exact hlen
    have hbefore : ∃ c' cs', (c :: cs).take (n + 1) = c' :: cs' ∧ c' ≠ '0' := ⟨c, cs.take n, rfl, hc⟩
    have hread := unsigned_pointed negative (whole?_append
      (fun c' hc' => hds c' (List.mem_of_mem_take hc'))
      (endsDigits_cons (by decide) ((c :: cs).drop (n + 1) ++ rest)) hbefore)
      (fun c' hc' => hds c' (List.mem_of_mem_drop hc')) hdrop hrest
    have htake : ((c :: cs).take (n + 1)).length = n + 1 :=
      List.length_take_of_le (Nat.le_of_not_le hlen)
    have hempty : ((c :: cs).drop (n + 1)).isEmpty = false := by simpa using hdrop
    rw [List.take_append_drop, List.length_drop] at hread
    rw [htake, hempty, Nat.sub_self]
    simp only [List.replicate_zero, List.append_nil, Bool.false_eq_true, if_false,
      List.append_assoc, List.cons_append, List.nil_append] at hread ⊢
    rw [hread]
    congr 5
    push_cast [Nat.cast_sub (Nat.le_of_not_le hlen)]
    ring

/-- However digits are laid out, they are read with their value. -/
theorem unsigned_layoutText (negative : Bool) (layout : Layout) (hds : ∀ c ∈ ds, c.isDigit = true)
    (hhead : ∃ c cs, ds = c :: cs ∧ c ≠ '0') (first : Int) (hrest : EndsNumber rest) :
    unsigned negative (layoutText layout ds first ++ rest) =
      .ok (.real (toDouble negative ⟨natOfText ds, first + 1 - ds.length⟩), rest) := by
  obtain ⟨c, cs, rfl, hc⟩ := id hhead
  unfold layoutText
  split_ifs with hinside hone
  · cases first with
    | ofNat n => exact unsigned_positional negative hds hhead n hrest
    | negSucc n =>
      have hfs : ∀ c' ∈ List.replicate n '0' ++ c :: cs, c'.isDigit = true :=
        isDigit_append (fun c' hc' => isDigit_zeros hc') hds
      have hwhole : whole? (['0'] ++ '.' :: (List.replicate n '0' ++ c :: cs ++ rest)) =
          some (['0'], '.' :: (List.replicate n '0' ++ c :: cs ++ rest)) := whole?_zero _
      have hread := unsigned_pointed negative hwhole hfs (by simp) hrest
      have hzero : natOfText (['0'] ++ (List.replicate n '0' ++ c :: cs)) = natOfText (c :: cs) := by
        rw [show ['0'] = List.replicate 1 '0' from rfl, natOfText_zeros_before,
          natOfText_zeros_before]
      rw [hzero] at hread
      refine hread.trans ?_
      congr 5
      simp
      omega
  · have hsingle : cs = [] := by simpa using hone
    subst hsingle
    simpa using unsigned_exponent negative layout hds hhead first hrest
  · have hmore : cs ≠ [] := by simpa using hone
    have hfirst : ∀ c' ∈ [c], c'.isDigit = true := fun c' hc' =>
      hds c' (List.mem_singleton.1 hc' ▸ List.mem_cons_self)
    have hread := unsigned_pointed_exponent negative layout hfirst ⟨c, [], rfl, hc⟩
      (fun c' hc' => hds c' (List.mem_cons_of_mem _ hc')) hmore first hrest
    simpa [List.append_assoc] using hread

theorem unsigned_text (negative : Bool) (layout : Layout) {d : Decimal} (hd : d.digits ≠ 0)
    (hrest : EndsNumber rest) :
    unsigned negative (Decimal.text layout d ++ rest) = .ok (.real (d.toDouble negative), rest) := by
  have hspec := withoutTrailingZeros_spec (natText d.digits)
  have hvalue : d.digits = natOfText (withoutTrailingZeros (natText d.digits)).1 *
      10 ^ (withoutTrailingZeros (natText d.digits)).2 := by
    rw [← natOfText_zeros_behind, ← hspec, natOfText_natText]
  generalize hkept : withoutTrailingZeros (natText d.digits) = kept at hspec hvalue
  have hlength := congrArg List.length hspec
  rw [List.length_append, List.length_replicate] at hlength
  have hdigits : ∀ c ∈ kept.1, c.isDigit = true := fun c hc => by
    refine isDigit_of_mem_natText (n := d.digits) ?_
    rw [hspec]
    exact List.mem_append_left _ hc
  have hhead : ∃ c cs, kept.1 = c :: cs ∧ c ≠ '0' := by
    obtain ⟨c, cs, hcs, hc⟩ := natText_head (Nat.pos_of_ne_zero hd)
    rw [hcs] at hspec
    cases hk : kept.1 with
    | nil =>
      rw [hk, List.nil_append] at hspec
      have hmem : c ∈ List.replicate kept.2 '0' := hspec ▸ List.mem_cons_self
      exact absurd (List.mem_replicate.1 hmem).2 hc
    | cons c' cs' =>
      rw [hk] at hspec
      exact ⟨c', cs', rfl, (List.cons.inj hspec).1 ▸ hc⟩
  rw [Decimal.text, if_neg hd]
  simp only [hkept]
  rw [unsigned_layoutText negative layout hdigits hhead _ hrest]
  have hshift : toDouble negative d = toDouble negative ⟨natOfText kept.1, d.exponent + kept.2⟩ := by
    rw [← toDouble_shift, ← hvalue]
  rw [hshift]
  congr 5
  rw [hlength]
  push_cast
  ring

/-- No word starts as a number does. -/
theorem find?_words (negative : Bool) (hc : c.isDigit = true) (t : Text) :
    (words.find? fun w => w.1.isPrefixOf ((if negative then ['-'] else []) ++ c :: t)) = none := by
  have hne : ∀ d : Char, d.isDigit = false → (d == c) = false := fun d hd => by
    rw [beq_eq_false_iff_ne]
    rintro rfl
    rw [hc] at hd
    cases hd
  cases negative with
  | false =>
    simp [words, List.isPrefixOf, hne]
  | true => simp [words, List.isPrefixOf, hne]

/-- A sign that is written is read. -/
theorem simple_signed (negative : Bool) (hc : c.isDigit = true) (t : Text) :
    simple ((if negative then ['-'] else []) ++ c :: t) = unsigned negative (c :: t) := by
  have hminus : c ≠ '-' := by
    rintro rfl
    cases hc
  unfold simple
  rw [find?_words negative hc]
  cases negative with
  | false =>
    simp only [Bool.false_eq_true, if_false, List.nil_append]
    split
    · next heq => exact absurd (List.cons.inj heq).1 hminus
    · rfl
  | true => rfl

theorem head_of_unsigned {negative : Bool} {r : Json × Text} (h : unsigned negative t = .ok r) :
    ∃ c cs, t = c :: cs ∧ c.isDigit = true := by
  cases t with
  | nil => simp [unsigned, whole?, digits] at h
  | cons c cs =>
    refine ⟨c, cs, rfl, ?_⟩
    by_contra hc
    have hnone : whole? (c :: cs) = none := by
      have hzero : c ≠ '0' := by
        rintro rfl
        exact hc rfl
      unfold whole?
      split
      · next heq => exact absurd (List.cons.inj heq).1 hzero
      · rw [digits, List.takeWhile_cons_of_neg hc]
    simp [unsigned, hnone] at h

/-- Behind its sign, a number is read as if there were none. -/
theorem simple_of_unsigned {negative : Bool} {r : Json × Text} (h : unsigned negative t = .ok r) :
    simple ((if negative then ['-'] else []) ++ t) = .ok r := by
  obtain ⟨c, cs, rfl, hc⟩ := head_of_unsigned h
  rw [simple_signed negative hc, h]

theorem simple_intText (n : Int) (hsize : (natText n.natAbs).length ≤ Json.maxDigits)
    (hrest : EndsNumber rest) : simple (intText n ++ rest) = .ok (.int n, rest) := by
  have hread := simple_of_unsigned (unsigned_natText (decide (n < 0)) n.natAbs hsize hrest)
  have hvalue : (if decide (n < 0) = true then -(n.natAbs : Int) else n.natAbs) = n := by
    split_ifs with hn
    · rw [decide_eq_true_eq] at hn
      omega
    · rw [decide_eq_true_eq] at hn
      omega
  rw [hvalue] at hread
  simpa [intText] using hread

theorem unsigned_zero (negative : Bool) (hrest : EndsNumber rest) :
    unsigned negative (Decimal.text numberLayout ⟨0, 0⟩ ++ rest) =
      .ok (.real (.finite negative 0 Double.minExponent), rest) := by
  have htext : Decimal.text numberLayout ⟨0, 0⟩ = ['0', '.', '0'] := by decide
  have hwhole : whole? (['0'] ++ '.' :: (['0'] ++ rest)) = some (['0'], '.' :: (['0'] ++ rest)) :=
    whole?_zero _
  rw [htext]
  exact unsigned_pointed negative hwhole (List.forall_mem_singleton.2 rfl) (List.cons_ne_nil '0' [])
    hrest

/-- A double that a machine can hold is read back. -/
theorem simple_realText {x : Double} (hx : x.IsCanonical) (hrest : EndsNumber rest) :
    simple (realText x ++ rest) = .ok (.real x, rest) := by
  cases x with
  | nan => simp [realText, simple, words, List.isPrefixOf]
  | infinite negative => cases negative <;> simp [realText, simple, words, List.isPrefixOf]
  | finite negative m e =>
    simp only [realText, List.append_assoc]
    refine simple_of_unsigned ?_
    by_cases hm : m = 0
    · subst hm
      obtain rfl : e = Double.minExponent := by
        obtain ⟨-, -, -, hfull | hmin⟩ := hx
        · exact absurd hfull (by decide)
        · exact hmin
      exact unsigned_zero negative hrest
    · rw [if_neg hm]
      have hdouble := toDouble_shortest (Nat.pos_of_ne_zero hm) hx
      have hdigits : (shortest m e).digits ≠ 0 := by
        intro hzero
        simp only [toDouble, hzero, decide_true, Bool.true_or, if_true] at hdouble
        exact hm (Double.finite.inj hdouble).2.1.symm
      rw [unsigned_text negative numberLayout hdigits hrest, hdouble]

end CodeIndex.Json
