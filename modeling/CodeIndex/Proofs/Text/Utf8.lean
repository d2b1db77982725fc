import CodeIndex.Text.Utf8
import Mathlib.Tactic.Common

/-!
# Decoding what was encoded

The decoder goes through the bytes of one character from between characters to between characters,
so an encoded text is decoded to itself.
-/

namespace CodeIndex.Utf8

variable {d owed low high value b n : Nat} {s : State} {t u : Text}

theorem toNat_toUInt8 (hb : b < 256) : b.toUInt8.toNat = b := by
  simp [Nat.toUInt8, UInt8.toNat_ofNat', Nat.mod_eq_of_lt hb]

theorem feed_first (hb : b < 256) (hfirst : firstByte b = .goesOn s) :
    feed (.between, t) b.toUInt8 = some (s, t) := by
  simp only [feed, step, toNat_toUInt8 hb, hfirst]

theorem feed_inside (hd : d < 64) (hlow : low ≤ 0x80 + d) (hhigh : 0x80 + d ≤ high) :
    feed (.inside (owed + 2) low high value, t) (0x80 + d).toUInt8 =
      some (.inside (owed + 1) (nextRange (value * 64 + d)).1 (nextRange (value * 64 + d)).2
        (value * 64 + d), t) := by
  have hb : (0x80 + d).toUInt8.toNat = 0x80 + d := toNat_toUInt8 (by omega)
  have howed : owed + 2 ≠ 1 := by omega
  simp only [feed, step, hb, hlow, hhigh, and_self, if_true, Nat.add_sub_cancel_left, if_neg howed]
  rfl

theorem feed_last (hd : d < 64) (hlow : low ≤ 0x80 + d) (hhigh : 0x80 + d ≤ high) :
    feed (.inside 1 low high value, t) (0x80 + d).toUInt8 =
      some (.between, Char.ofNat (value * 64 + d) :: t) := by
  have hb : (0x80 + d).toUInt8.toNat = 0x80 + d := toNat_toUInt8 (by omega)
  simp only [feed, step, hb, hlow, hhigh, and_self, if_true, Nat.add_sub_cancel_left]

theorem nextRange_eq (h : value < 0x360 ∨ 0x380 ≤ value) : nextRange value = (0x80, 0xBF) :=
  if_neg (by omega)

theorem firstByte_two (hn : 2 ≤ n) (hn' : n < 32) :
    firstByte (0xC0 + n) = .goesOn (.inside 1 0x80 0xBF n) := by
  unfold firstByte
  rw [if_neg (by omega), if_neg (by omega), if_pos (by omega), Nat.add_sub_cancel_left]

/-- The range of the second byte of three. -/
theorem firstByte_three (hn : n < 16) :
    firstByte (0xE0 + n) = .goesOn (.inside 2 (if n = 0 then 0xA0 else 0x80) 0xBF n) := by
  unfold firstByte
  rw [if_neg (by omega), if_neg (by omega), if_neg (by omega)]
  by_cases h0 : n = 0
  · subst h0
    rfl
  · rw [if_neg (by omega), if_pos (by omega), if_neg h0, Nat.add_sub_cancel_left]

/-- The range of the second byte of four. -/
theorem firstByte_four (hn : n < 5) :
    firstByte (0xF0 + n) =
      .goesOn (.inside 3 (if n = 0 then 0x90 else 0x80) (if n = 4 then 0x8F else 0xBF) n) := by
  have hcases : n = 0 ∨ n = 1 ∨ n = 2 ∨ n = 3 ∨ n = 4 := by omega
  rcases hcases with rfl | rfl | rfl | rfl | rfl <;> rfl

theorem foldlM_feed_two (hlow : 0x80 ≤ n) (hhigh : n < 0x800) :
    [(0xC0 + n / 64).toUInt8, (0x80 + n % 64).toUInt8].foldlM feed (.between, t) =
      some (.between, Char.ofNat n :: t) := by
  have hfirst : feed (.between, t) (0xC0 + n / 64).toUInt8 = some (.inside 1 0x80 0xBF (n / 64), t) :=
    feed_first (by omega) (firstByte_two (by omega) (by omega))
  have hlast : feed (.inside 1 0x80 0xBF (n / 64), t) (0x80 + n % 64).toUInt8 =
      some (.between, Char.ofNat (n / 64 * 64 + n % 64) :: t) :=
    feed_last (by omega) (by omega) (by omega)
  rw [show n / 64 * 64 + n % 64 = n by omega] at hlast
  simp only [List.foldlM_cons, List.foldlM_nil, hfirst, hlast, Option.bind_eq_bind,
    Option.bind_some, Option.pure_def]

theorem foldlM_feed_three (hlow : 0x800 ≤ n) (hhigh : n < 0x10000)
    (hn : n < 0xD800 ∨ 0xE000 ≤ n) :
    [(0xE0 + n / 4096).toUInt8, (0x80 + n / 64 % 64).toUInt8, (0x80 + n % 64).toUInt8].foldlM feed
      (.between, t) = some (.between, Char.ofNat n :: t) := by
  have hfirst : feed (.between, t) (0xE0 + n / 4096).toUInt8 =
      some (.inside 2 (if n / 4096 = 0 then 0xA0 else 0x80) 0xBF (n / 4096), t) :=
    feed_first (by omega) (firstByte_three (by omega))
  have hsecond : feed (.inside 2 (if n / 4096 = 0 then 0xA0 else 0x80) 0xBF (n / 4096), t)
      (0x80 + n / 64 % 64).toUInt8 = some (.inside 1 0x80 0xBF (n / 64), t) := by
    rw [feed_inside (by omega) (by split <;> omega) (by omega),
      show n / 4096 * 64 + n / 64 % 64 = n / 64 by omega, nextRange_eq (by omega)]
  have hlast : feed (.inside 1 0x80 0xBF (n / 64), t) (0x80 + n % 64).toUInt8 =
      some (.between, Char.ofNat (n / 64 * 64 + n % 64) :: t) :=
    feed_last (by omega) (by omega) (by omega)
  rw [show n / 64 * 64 + n % 64 = n by omega] at hlast
  simp only [List.foldlM_cons, List.foldlM_nil, hfirst, hsecond, hlast, Option.bind_eq_bind,
    Option.bind_some, Option.pure_def]

theorem foldlM_feed_four (hlow : 0x10000 ≤ n) (hhigh : n < 0x110000) :
    [(0xF0 + n / 262144).toUInt8, (0x80 + n / 4096 % 64).toUInt8, (0x80 + n / 64 % 64).toUInt8,
      (0x80 + n % 64).toUInt8].foldlM feed (.between, t) =
      some (.between, Char.ofNat n :: t) := by
  have hfirst : feed (.between, t) (0xF0 + n / 262144).toUInt8 =
      some (.inside 3 (if n / 262144 = 0 then 0x90 else 0x80)
        (if n / 262144 = 4 then 0x8F else 0xBF) (n / 262144), t) :=
    feed_first (by omega) (firstByte_four (by omega))
  have hsecond : feed (.inside 3 (if n / 262144 = 0 then 0x90 else 0x80)
      (if n / 262144 = 4 then 0x8F else 0xBF) (n / 262144), t) (0x80 + n / 4096 % 64).toUInt8 =
      some (.inside 2 0x80 0xBF (n / 4096), t) := by
    rw [feed_inside (by omega) (by split <;> omega) (by split <;> omega),
      show n / 262144 * 64 + n / 4096 % 64 = n / 4096 by omega, nextRange_eq (by omega)]
  have hthird : feed (.inside 2 0x80 0xBF (n / 4096), t) (0x80 + n / 64 % 64).toUInt8 =
      some (.inside 1 0x80 0xBF (n / 64), t) := by
    rw [feed_inside (by omega) (by omega) (by omega),
      show n / 4096 * 64 + n / 64 % 64 = n / 64 by omega, nextRange_eq (by omega)]
  have hlast : feed (.inside 1 0x80 0xBF (n / 64), t) (0x80 + n % 64).toUInt8 =
      some (.between, Char.ofNat (n / 64 * 64 + n % 64) :: t) :=
    feed_last (by omega) (by omega) (by omega)
  rw [show n / 64 * 64 + n % 64 = n by omega] at hlast
  simp only [List.foldlM_cons, List.foldlM_nil, hfirst, hsecond, hthird, hlast,
    Option.bind_eq_bind, Option.bind_some, Option.pure_def]

/-- One character goes in and comes out. -/
theorem foldlM_feed_encodeChar (c : Char) :
    (encodeChar c).foldlM feed (.between, t) = some (.between, c :: t) := by
  have hvalid : c.toNat < 0xD800 ∨ 0xDFFF < c.toNat ∧ c.toNat < 0x110000 := c.valid
  have hc : Char.ofNat c.toNat = c := Char.ofNat_toNat c
  unfold encodeChar
  by_cases h1 : c.toNat < 0x80
  · have hfirst : firstByte c.toNat = .completes c := by
      rw [firstByte, if_pos h1, hc]
    have hfeed : feed (.between, t) c.toNat.toUInt8 = some (.between, c :: t) := by
      simp only [feed, step, toNat_toUInt8 (show c.toNat < 256 by omega), hfirst]
    simp only [if_pos h1, List.foldlM_cons, List.foldlM_nil, hfeed, Option.bind_eq_bind,
      Option.bind_some, Option.pure_def]
  by_cases h2 : c.toNat < 0x800
  · rw [if_neg h1, if_pos h2, foldlM_feed_two (by omega) h2, hc]
  by_cases h3 : c.toNat < 0x10000
  · rw [if_neg h1, if_neg h2, if_pos h3, foldlM_feed_three (by omega) h3 (by omega), hc]
  · rw [if_neg h1, if_neg h2, if_neg h3, foldlM_feed_four (by omega) (by omega), hc]

theorem foldlM_feed_encode (t u : Text) :
    (encode t).foldlM feed (.between, u) = some (.between, t.reverse ++ u) := by
  induction t generalizing u with
  | nil => rfl
  | cons c t ih =>
    have hcons : encode (c :: t) = encodeChar c ++ encode t := List.flatMap_cons
    rw [hcons, List.foldlM_append, foldlM_feed_encodeChar]
    simpa using ih (c :: u)

/-- An encoded text is decoded to itself. -/
theorem decode?_encode (t : Text) : decode? (encode t) = some t := by
  simp [decode?, foldlM_feed_encode]

/-- Where no byte is faulty, nothing is lost. -/
theorem foldl_feedLossy_of_foldlM {bs : Bytes} {p q : Progress} (h : bs.foldlM feed p = some q) :
    bs.foldl feedLossy p = q := by
  induction bs generalizing p with
  | nil => exact Option.some.inj h
  | cons b bs ih =>
    rw [List.foldlM_cons, Option.bind_eq_bind, Option.bind_eq_some_iff] at h
    obtain ⟨p', hfeed, h⟩ := h
    have hlossy : feedLossy p b = p' := by simp [feedLossy, hfeed]
    rw [List.foldl_cons, hlossy]
    exact ih h

theorem decodeLossy_encode (t : Text) : decodeLossy (encode t) = t := by
  rw [decodeLossy, foldl_feedLossy_of_foldlM (foldlM_feed_encode t [])]
  simp

theorem encode_injective : Function.Injective encode := by
  intro t u h
  have hsome := congrArg decode? h
  rw [decode?_encode, decode?_encode] at hsome
  exact Option.some.inj hsome

end CodeIndex.Utf8
