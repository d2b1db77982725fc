import CodeIndex.Proofs.Text.Utf8

/-!
# What is decoded

The decoder takes the bytes of encoded texts and no others: forms that are too long, surrogates and
values beyond the last code point are refused, and so is a character that is cut short.
-/

namespace CodeIndex.Utf8

variable {bs : Bytes} {acc t : Text} {owed low high value n : Nat} {b : UInt8}

theorem eq_toUInt8 (h : b.toNat = n) : b = n.toUInt8 := by
  have hn : n < 256 := h ▸ b.toNat_lt
  exact UInt8.toNat_inj.1 (h.trans (toNat_toUInt8 hn).symm)

/-- What a first byte says: it is a character by itself, or it starts one of two, three or four bytes. -/
theorem firstByte_cases (b : Nat) :
    (b < 0x80 ∧ firstByte b = .completes (Char.ofNat b)) ∨
    (0xC2 ≤ b ∧ b < 0xE0 ∧ firstByte b = .goesOn (.inside 1 0x80 0xBF (b - 0xC0))) ∨
    (∃ low, 0xE0 ≤ b ∧ b < 0xF0 ∧ (b = 0xE0 → low = 0xA0) ∧ 0x80 ≤ low ∧
      firstByte b = .goesOn (.inside 2 low 0xBF (b - 0xE0))) ∨
    (∃ low high, 0xF0 ≤ b ∧ b < 0xF5 ∧ (b = 0xF0 → low = 0x90) ∧ 0x80 ≤ low ∧
      (b = 0xF4 → high = 0x8F) ∧ high ≤ 0xBF ∧ firstByte b = .goesOn (.inside 3 low high (b - 0xF0))) ∨
    firstByte b = .isFaulty := by
  by_cases h1 : b < 0x80
  · exact .inl ⟨h1, if_pos h1⟩
  by_cases h2 : b < 0xC2
  · exact .inr (.inr (.inr (.inr (by rw [firstByte, if_neg h1, if_pos h2]))))
  by_cases h3 : b < 0xE0
  · exact .inr (.inl ⟨by omega, h3, by rw [firstByte, if_neg h1, if_neg h2, if_pos h3]⟩)
  by_cases h4 : b < 0xF0
  · obtain ⟨k, rfl⟩ := Nat.exists_eq_add_of_le (Nat.le_of_not_lt h3)
    refine .inr (.inr (.inl ⟨if k = 0 then 0xA0 else 0x80, by omega, h4, fun hk => if_pos (by omega), ?_, ?_⟩))
    · split <;> omega
    · rw [firstByte_three (by omega), Nat.add_sub_cancel_left]
  by_cases h5 : b < 0xF5
  · obtain ⟨k, rfl⟩ := Nat.exists_eq_add_of_le (Nat.le_of_not_lt h4)
    refine .inr (.inr (.inr (.inl ⟨if k = 0 then 0x90 else 0x80, if k = 4 then 0x8F else 0xBF, by omega, h5,
      fun hk => if_pos (by omega), ?_, fun hk => if_pos (by omega), ?_, ?_⟩)))
    · split <;> omega
    · split <;> omega
    · rw [firstByte_four (by omega), Nat.add_sub_cancel_left]
  · refine .inr (.inr (.inr (.inr ?_)))
    rw [firstByte, if_neg h1, if_neg h2, if_neg h3, if_neg (by omega), if_neg h4, if_neg (by omega),
      if_neg (by omega), if_neg (by omega)]

/-- A decoder that is owed a byte gets one from its range. -/
theorem exists_of_inside (h : bs.foldlM feed (.inside owed low high value, acc) = some (.between, t)) :
    ∃ b rest, bs = b :: rest ∧ low ≤ b.toNat ∧ b.toNat ≤ high ∧
      rest.foldlM feed (if owed = 1 then (.between, Char.ofNat (value * 64 + (b.toNat - 0x80)) :: acc)
        else (.inside (owed - 1) (nextRange (value * 64 + (b.toNat - 0x80))).1
          (nextRange (value * 64 + (b.toNat - 0x80))).2 (value * 64 + (b.toNat - 0x80)), acc)) =
        some (.between, t) := by
  cases bs with
  | nil => simp at h
  | cons b rest =>
    rw [List.foldlM_cons, Option.bind_eq_bind, Option.bind_eq_some_iff] at h
    obtain ⟨p, hfeed, hrest⟩ := h
    by_cases hrange : low ≤ b.toNat ∧ b.toNat ≤ high
    · refine ⟨b, rest, rfl, hrange.1, hrange.2, ?_⟩
      by_cases howed : owed = 1
      · simp only [feed, step, hrange, and_self, if_true, howed, Option.some.injEq] at hfeed
        rw [if_pos howed, hfeed]
        exact hrest
      · simp only [feed, step, hrange, and_self, if_true, howed, if_false, Option.some.injEq] at hfeed
        rw [if_neg howed, hfeed]
        exact hrest
    · simp [feed, step, hrange] at hfeed

theorem toNat_ofNat (hn : n < 0xD800 ∨ 0xDFFF < n ∧ n < 0x110000) : (Char.ofNat n).toNat = n := by
  have hvalid : n.isValidChar := hn
  have hchar : Char.ofNat n = Char.ofNatAux n hvalid := dif_pos hvalid
  rw [hchar]
  rfl

theorem encodeChar_one (hn : n < 0x80) : encodeChar (Char.ofNat n) = [n.toUInt8] := by
  simp only [encodeChar, toNat_ofNat (n := n) (by omega)]
  rw [if_pos hn]

theorem encodeChar_two (hlow : 0x80 ≤ n) (hhigh : n < 0x800) :
    encodeChar (Char.ofNat n) = [(0xC0 + n / 64).toUInt8, (0x80 + n % 64).toUInt8] := by
  simp only [encodeChar, toNat_ofNat (n := n) (by omega)]
  rw [if_neg (by omega), if_pos hhigh]

theorem encodeChar_three (hlow : 0x800 ≤ n) (hhigh : n < 0x10000) (hn : n < 0xD800 ∨ 0xE000 ≤ n) :
    encodeChar (Char.ofNat n) =
      [(0xE0 + n / 4096).toUInt8, (0x80 + n / 64 % 64).toUInt8, (0x80 + n % 64).toUInt8] := by
  simp only [encodeChar, toNat_ofNat (n := n) (by omega)]
  rw [if_neg (by omega), if_neg (by omega), if_pos hhigh]

theorem encodeChar_four (hlow : 0x10000 ≤ n) (hhigh : n < 0x110000) :
    encodeChar (Char.ofNat n) = [(0xF0 + n / 262144).toUInt8, (0x80 + n / 4096 % 64).toUInt8,
      (0x80 + n / 64 % 64).toUInt8, (0x80 + n % 64).toUInt8] := by
  simp only [encodeChar, toNat_ofNat (n := n) (by omega)]
  rw [if_neg (by omega), if_neg (by omega), if_neg (by omega)]

/-- The last byte of a character. -/
theorem exists_of_inside_one (h : bs.foldlM feed (.inside 1 low high value, acc) = some (.between, t)) :
    ∃ b rest, bs = b :: rest ∧ low ≤ b.toNat ∧ b.toNat ≤ high ∧
      rest.foldlM feed (.between, Char.ofNat (value * 64 + (b.toNat - 0x80)) :: acc) =
        some (.between, t) := by
  obtain ⟨b, rest, hbs, hlow, hhigh, hrest⟩ := exists_of_inside h
  rw [if_pos rfl] at hrest
  exact ⟨b, rest, hbs, hlow, hhigh, hrest⟩

/-- Another byte of a character but the last. -/
theorem exists_of_inside_succ
    (h : bs.foldlM feed (.inside (owed + 2) low high value, acc) = some (.between, t)) :
    ∃ b rest low' high', bs = b :: rest ∧ low ≤ b.toNat ∧ b.toNat ≤ high ∧
      nextRange (value * 64 + (b.toNat - 0x80)) = (low', high') ∧
      rest.foldlM feed (.inside (owed + 1) low' high' (value * 64 + (b.toNat - 0x80)), acc) =
        some (.between, t) := by
  obtain ⟨b, rest, hbs, hlow, hhigh, hrest⟩ := exists_of_inside h
  rw [if_neg (by omega)] at hrest
  exact ⟨b, rest, _, _, hbs, hlow, hhigh, (Prod.eta _).symm, hrest⟩

/-- Nothing can follow the bits that all surrogates start with. -/
theorem nextRange_of_nonempty {low' high' k : Nat} (h : nextRange value = (low', high')) (hlow : low' ≤ k)
    (hhigh : k ≤ high') : (value < 0x360 ∨ 0x380 ≤ value) ∧ low' = 0x80 ∧ high' = 0xBF := by
  unfold nextRange at h
  split at h
  · cases h
    omega
  · cases h
    omega

/-- The bytes of the first character, and a decoder that has just decoded it. -/
def TakesChar (bs : Bytes) (acc t : Text) : Prop :=
  ∃ c rest, bs = encodeChar c ++ rest ∧ rest.foldlM feed (.between, c :: acc) = some (.between, t)

theorem takesChar_two (hlow : 0xC2 ≤ b.toNat) (hhigh : b.toNat < 0xE0)
    (h : bs.foldlM feed (.inside 1 0x80 0xBF (b.toNat - 0xC0), acc) = some (.between, t)) :
    TakesChar (b :: bs) acc t := by
  obtain ⟨b₁, rest, rfl, hlow₁, hhigh₁, hrest⟩ := exists_of_inside_one h
  refine ⟨_, rest, ?_, hrest⟩
  rw [encodeChar_two (by omega) (by omega), ← eq_toUInt8 (b := b) (by omega),
    ← eq_toUInt8 (b := b₁) (by omega)]
  rfl

theorem takesChar_three (hlow : 0xE0 ≤ b.toNat) (hhigh : b.toNat < 0xF0)
    (hfirst : b.toNat = 0xE0 → low = 0xA0) (hleast : 0x80 ≤ low)
    (h : bs.foldlM feed (.inside 2 low 0xBF (b.toNat - 0xE0), acc) = some (.between, t)) :
    TakesChar (b :: bs) acc t := by
  obtain ⟨b₁, rest, low', high', rfl, hlow₁, hhigh₁, hnext, h⟩ := exists_of_inside_succ h
  obtain ⟨b₂, rest, rfl, hlow₂, hhigh₂, hrest⟩ := exists_of_inside_one h
  obtain ⟨hplain, rfl, rfl⟩ := nextRange_of_nonempty hnext hlow₂ hhigh₂
  refine ⟨_, rest, ?_, hrest⟩
  rw [encodeChar_three (by omega) (by omega) (by omega), ← eq_toUInt8 (b := b) (by omega),
    ← eq_toUInt8 (b := b₁) (by omega), ← eq_toUInt8 (b := b₂) (by omega)]
  rfl

theorem takesChar_four (hlow : 0xF0 ≤ b.toNat) (hhigh : b.toNat < 0xF5)
    (hfirst : b.toNat = 0xF0 → low = 0x90) (hleast : 0x80 ≤ low) (hlast : b.toNat = 0xF4 → high = 0x8F)
    (hmost : high ≤ 0xBF)
    (h : bs.foldlM feed (.inside 3 low high (b.toNat - 0xF0), acc) = some (.between, t)) :
    TakesChar (b :: bs) acc t := by
  obtain ⟨b₁, rest, low', high', rfl, hlow₁, hhigh₁, hnext, h⟩ := exists_of_inside_succ h
  obtain ⟨b₂, rest, low'', high'', rfl, hlow₂, hhigh₂, hnext', h⟩ := exists_of_inside_succ h
  obtain ⟨b₃, rest, rfl, hlow₃, hhigh₃, hrest⟩ := exists_of_inside_one h
  obtain ⟨-, rfl, rfl⟩ := nextRange_of_nonempty hnext hlow₂ hhigh₂
  obtain ⟨-, rfl, rfl⟩ := nextRange_of_nonempty hnext' hlow₃ hhigh₃
  refine ⟨_, rest, ?_, hrest⟩
  rw [encodeChar_four (by omega) (by omega), ← eq_toUInt8 (b := b) (by omega),
    ← eq_toUInt8 (b := b₁) (by omega), ← eq_toUInt8 (b := b₂) (by omega),
    ← eq_toUInt8 (b := b₃) (by omega)]
  rfl

/-- Between characters a decoder takes the bytes of one. -/
theorem takesChar_of_foldlM (h : (b :: bs).foldlM feed (.between, acc) = some (.between, t)) :
    TakesChar (b :: bs) acc t := by
  rw [List.foldlM_cons, Option.bind_eq_bind, Option.bind_eq_some_iff] at h
  obtain ⟨p, hfeed, h⟩ := h
  simp only [feed, step] at hfeed
  rcases firstByte_cases b.toNat with ⟨hb, hfirst⟩ | ⟨hlow, hhigh, hfirst⟩ |
    ⟨low, hlow, hhigh, hleast, hleast', hfirst⟩ |
    ⟨low, high, hlow, hhigh, hleast, hleast', hmost, hmost', hfirst⟩ | hfirst
  · simp only [hfirst, Option.some.injEq] at hfeed
    subst hfeed
    refine ⟨_, bs, ?_, h⟩
    rw [encodeChar_one hb, ← eq_toUInt8 rfl]
    rfl
  · simp only [hfirst, Option.some.injEq] at hfeed
    subst hfeed
    exact takesChar_two hlow hhigh h
  · simp only [hfirst, Option.some.injEq] at hfeed
    subst hfeed
    exact takesChar_three hlow hhigh hleast hleast' h
  · simp only [hfirst, Option.some.injEq] at hfeed
    subst hfeed
    exact takesChar_four hlow hhigh hleast hleast' hmost hmost' h
  · simp only [hfirst] at hfeed
    cases hfeed

theorem encodeChar_ne_nil (c : Char) : encodeChar c ≠ [] := by
  simp only [encodeChar]
  split_ifs <;> simp

/-- Bytes that are decoded are those of what they are decoded to. -/
theorem exists_encode_of_foldlM (h : bs.foldlM feed (.between, acc) = some (.between, t)) :
    ∃ u, bs = encode u ∧ t = u.reverse ++ acc := by
  -- a character takes one to four bytes, so the induction is on how many there are
  induction hlen : bs.length using Nat.strongRecOn generalizing bs acc with
  | _ k ih =>
  cases bs with
  | nil =>
    simp only [List.foldlM_nil, Option.pure_def, Option.some.injEq, Prod.mk.injEq, true_and] at h
    exact ⟨[], rfl, h.symm⟩
  | cons b bs =>
    obtain ⟨c, rest, hbs, hrest⟩ := takesChar_of_foldlM h
    have hshorter : rest.length < k := by
      have hpos := List.length_pos_iff.2 (encodeChar_ne_nil c)
      rw [← hlen, hbs, List.length_append]
      omega
    obtain ⟨u, hu, ht⟩ := ih _ hshorter hrest rfl
    refine ⟨c :: u, ?_, ?_⟩
    · rw [hbs, hu]
      exact List.flatMap_cons.symm
    · simpa using ht

/-- Exactly the bytes of a text are decoded to it. -/
theorem decode?_eq_some_iff : decode? bs = some t ↔ encode t = bs := by
  constructor
  · intro h
    unfold decode? at h
    split at h
    · next u hu =>
      obtain ⟨u', hbs, hu'⟩ := exists_encode_of_foldlM hu
      cases h
      rw [hbs, hu', List.append_nil, List.reverse_reverse]
    · cases h
  · rintro rfl
    exact decode?_encode t

theorem decode?_eq_none_iff : decode? bs = none ↔ ∀ t, encode t ≠ bs := by
  simp only [Option.eq_none_iff_forall_not_mem, Option.mem_def, decode?_eq_some_iff, ne_eq]

end CodeIndex.Utf8
