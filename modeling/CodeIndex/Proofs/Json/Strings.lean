import CodeIndex.Json.Parser
import CodeIndex.Json.Writer
import Mathlib.Data.List.Chain
import Mathlib.Tactic.IntervalCases

/-!
# Strings in JSON

Letters are read back as they were written unless two halves stand together that make one
character. Reading never leaves such halves.
-/

namespace CodeIndex.Json

variable {ls : Letters} {rest : Text} {n : Nat} {c : Char}

theorem hexDigits_succ {width : Nat} (hwidth : 0 < width) (n : Nat) :
    Text.hexDigits (width + 1) n = Text.hexDigits width (n / 16) ++ [(n % 16).digitChar] := by
  simp only [Text.hexDigits]
  by_cases hn : n < 16
  · obtain ⟨k, rfl⟩ := Nat.exists_eq_add_one_of_ne_zero hwidth.ne'
    rw [Nat.toDigits_of_lt_base hn, Nat.div_eq_of_lt hn, Nat.mod_eq_of_lt hn]
    simp only [List.length_singleton, Nat.add_sub_cancel]
    rw [show Nat.toDigits 16 0 = ['0'] from rfl, List.length_singleton, Nat.add_sub_cancel,
      List.replicate_succ']
  · rw [Nat.toDigits_of_base_le (by decide) (Nat.le_of_not_lt hn), List.length_append,
      List.length_singleton, Nat.add_sub_add_right, List.append_assoc]

theorem hexDigits_four (hn : n < 0x10000) :
    Text.hexDigits 4 n = [(n / 4096).digitChar, (n / 256 % 16).digitChar, (n / 16 % 16).digitChar,
      (n % 16).digitChar] := by
  have hone : Text.hexDigits 1 (n / 4096) = [(n / 4096).digitChar] := by
    rw [Text.hexDigits, Nat.toDigits_of_lt_base (by omega)]
    rfl
  have hthree : n / 16 / 16 / 16 = n / 4096 := by omega
  have htwo : n / 16 / 16 % 16 = n / 256 % 16 := by omega
  rw [hexDigits_succ (by decide), hexDigits_succ (by decide), hexDigits_succ (by decide), hthree,
    hone, htwo]
  rfl

theorem hexValue?_digitChar : ∀ k < 16, hexValue? k.digitChar = some k := by decide

/-- An escaped unit is read back. -/
theorem stringUnits_unitText (hn : n < 0x10000) (done : List Nat) (rest : Text) :
    stringUnits done (unitText n ++ rest) = stringUnits (n :: done) rest := by
  have hvalue : unitValue? (n / 4096).digitChar (n / 256 % 16).digitChar (n / 16 % 16).digitChar
      (n % 16).digitChar = some n := by
    simp only [unitValue?, hexValue?_digitChar _ (show n / 4096 < 16 by omega),
      hexValue?_digitChar _ (Nat.mod_lt _ (by decide : 16 > 0)), Option.bind_eq_bind,
      Option.bind_some, Option.pure_def, Option.some.injEq]
    omega
  rw [unitText, hexDigits_four hn]
  simp only [List.cons_append, List.nil_append]
  rw [stringUnits, hvalue]

/-- The units that a letter is written with. -/
def unitsOf : Letter → List Nat
  | .char c =>
    if c.toNat < 0x10000 then [c.toNat]
    else [0xD800 + (c.toNat - 0x10000) / 1024, 0xDC00 + (c.toNat - 0x10000) % 1024]
  | .half i => [0xD800 + i]

theorem toNat_lt (c : Char) : c.toNat < 0x110000 := by
  rcases c.valid with h | h
  · exact Nat.lt_trans h (by decide)
  · exact h.2

theorem stringUnits_charText (done : List Nat) (c : Char) (rest : Text) :
    stringUnits done (charText c ++ rest) =
      stringUnits ((unitsOf (.char c)).reverse ++ done) rest := by
  have hlt := toNat_lt c
  simp only [charText]
  split_ifs with hquote hslash hnl hcr htab hff hbs hplain hsmall
  · subst hquote; rfl
  · subst hslash; rfl
  · subst hnl; rfl
  · subst hcr; rfl
  · subst htab; rfl
  · simp [stringUnits, escaped?, unitsOf, hff]
  · simp [stringUnits, escaped?, unitsOf, hbs]
  · simp only [Bool.and_eq_true, decide_eq_true_eq] at hplain
    have hunits : unitsOf (.char c) = [c.toNat] := if_pos (by omega)
    rw [List.singleton_append, stringUnits.eq_def]
    split <;> simp_all
  · rw [stringUnits_unitText hsmall, unitsOf, if_pos hsmall]
    rfl
  · rw [List.append_assoc, stringUnits_unitText (by omega), stringUnits_unitText (by omega), unitsOf,
      if_neg hsmall]
    rfl

theorem stringUnits_letterText (done : List Nat) (l : Letter) (rest : Text) :
    stringUnits done (letterText l ++ rest) = stringUnits ((unitsOf l).reverse ++ done) rest := by
  cases l with
  | char c => exact stringUnits_charText done c rest
  | half i => exact stringUnits_unitText (by omega) done rest

theorem stringUnits_letters (done : List Nat) (ls : Letters) (rest : Text) :
    stringUnits done (ls.flatMap letterText ++ '"' :: rest) =
      .ok (done.reverse ++ ls.flatMap unitsOf, rest) := by
  induction ls generalizing done with
  | nil => simp [stringUnits]
  | cons l ls ih =>
    rw [List.flatMap_cons, List.append_assoc, stringUnits_letterText, ih]
    simp

/-- Two code points that are not the halves of one character. -/
def StayApart (a b : Nat) : Prop := ¬(0xD800 ≤ a ∧ a < 0xDC00 ∧ 0xDC00 ≤ b ∧ b < 0xE000)

/-- No two letters that stand together are the halves of one character. -/
def IsJoined (ls : Letters) : Prop := (ls.map Letter.code).IsChain StayApart

theorem joinHalves_of_apart {ns : List Nat} (h : ∀ m ∈ ns.head?, StayApart n m) :
    joinHalves n ns = n :: ns := by
  cases ns with
  | nil => rfl
  | cons m ns =>
    have hm := h m rfl
    unfold StayApart at hm
    rw [joinHalves, if_neg]
    simp only [Bool.and_eq_true, decide_eq_true_eq]
    omega

theorem code_char_apart (c : Char) : c.toNat < 0xD800 ∨ 0xE000 ≤ c.toNat := by
  rcases c.valid with h | h
  · exact .inl h
  · exact .inr h.1

/-- The units of a letter are joined to it, in front of letters that it stays apart from. -/
theorem foldr_joinHalves_unitsOf {l : Letter} {ns : List Nat}
    (h : ∀ m ∈ ns.head?, StayApart l.code m) : (unitsOf l).foldr joinHalves ns = l.code :: ns := by
  cases l with
  | half i => exact joinHalves_of_apart h
  | char c =>
    have hlt := toNat_lt c
    by_cases hsmall : c.toNat < 0x10000
    · rw [unitsOf, if_pos hsmall]
      exact joinHalves_of_apart h
    · have hlow : joinHalves (0xDC00 + (c.toNat - 0x10000) % 1024) ns =
          (0xDC00 + (c.toNat - 0x10000) % 1024) :: ns :=
        joinHalves_of_apart fun m _ => by unfold StayApart; omega
      have hwhole : 0x10000 + (0xD800 + (c.toNat - 0x10000) / 1024 - 0xD800) * 1024 +
          (0xDC00 + (c.toNat - 0x10000) % 1024 - 0xDC00) = c.toNat := by omega
      rw [unitsOf, if_neg hsmall, List.foldr_cons, List.foldr_cons, List.foldr_nil, hlow, joinHalves,
        if_pos (by simp only [Bool.and_eq_true, decide_eq_true_eq]; omega), hwhole, Letter.code]

theorem foldr_joinHalves_letters (h : IsJoined ls) :
    (ls.flatMap unitsOf).foldr joinHalves [] = ls.map Letter.code := by
  induction ls with
  | nil => rfl
  | cons l ls ih =>
    obtain ⟨hl, hls⟩ := List.isChain_cons.1 h
    rw [List.flatMap_cons, List.foldr_append, ih hls, foldr_joinHalves_unitsOf hl, List.map_cons]

theorem ofCode_code (l : Letter) : Letter.ofCode l.code = l := by
  cases l with
  | char c =>
    have hc := code_char_apart c
    rw [Letter.code, Letter.ofCode, dif_neg (by omega), Char.ofNat_toNat]
  | half i =>
    rw [Letter.code, Letter.ofCode, dif_pos (by omega)]
    simp

/-- Letters are read back. -/
theorem string_letters (h : IsJoined ls) (rest : Text) :
    string (ls.flatMap letterText ++ '"' :: rest) = .ok (ls, rest) := by
  have hcodes : (ls.map Letter.code).map Letter.ofCode = ls := by
    rw [List.map_map]
    exact (List.map_congr_left fun l _ => ofCode_code l).trans (List.map_id ls)
  simp only [string, stringUnits_letters, List.reverse_nil, List.nil_append]
  exact congrArg Except.ok (Prod.ext (by rw [foldr_joinHalves_letters h, hcodes]) rfl)

theorem isChain_joinHalves {ns : List Nat} (h : ns.IsChain StayApart) :
    (joinHalves n ns).IsChain StayApart := by
  cases ns with
  | nil => exact List.isChain_singleton n
  | cons m ns =>
    obtain ⟨hm, hns⟩ := List.isChain_cons.1 h
    rw [joinHalves]
    split_ifs with hjoin
    · exact List.isChain_cons.2 ⟨fun k _ => by unfold StayApart; omega, hns⟩
    · simp only [Bool.and_eq_true, decide_eq_true_eq] at hjoin
      refine List.isChain_cons.2 ⟨fun k hk => ?_, h⟩
      obtain rfl : m = k := by simpa using hk
      unfold StayApart
      omega

theorem isChain_foldr_joinHalves (ns : List Nat) :
    (ns.foldr joinHalves []).IsChain StayApart := by
  induction ns with
  | nil => exact List.isChain_nil
  | cons n ns ih => exact isChain_joinHalves ih

/-- A code point is that of its letter, or that letter is no half. -/
theorem code_ofCode (n : Nat) :
    (Letter.ofCode n).code = n ∨
      ((Letter.ofCode n).code < 0xD800 ∨ 0xE000 ≤ (Letter.ofCode n).code) := by
  unfold Letter.ofCode
  split
  · next h =>
    left
    simp only [Letter.code]
    omega
  · exact .inr (code_char_apart _)

/-- Reading leaves no two halves of one character together. -/
theorem isJoined_of_string {t : Text} (h : string t = .ok (ls, rest)) : IsJoined ls := by
  unfold string at h
  cases hunits : stringUnits [] t with
  | error fault => simp [hunits, bind, Except.bind] at h
  | ok found =>
    obtain ⟨units, rest'⟩ := found
    simp only [hunits, bind, Except.bind, pure, Except.pure, Except.ok.injEq, Prod.mk.injEq] at h
    rw [← h.1, IsJoined, List.map_map, List.isChain_map]
    refine (isChain_foldr_joinHalves units).imp fun a b hab => ?_
    have ha := code_ofCode a
    have hb := code_ofCode b
    simp only [Function.comp_apply, StayApart] at hab ⊢
    omega

theorem isJoined_letters (t : Text) : IsJoined (letters t) := by
  have hcodes : (letters t).map Letter.code = t.map Char.toNat := by simp [letters, Letter.code]
  rw [IsJoined, hcodes, List.isChain_map]
  refine (List.pairwise_of_forall fun a b => ?_).isChain
  have ha := code_char_apart a
  unfold StayApart
  omega

end CodeIndex.Json
