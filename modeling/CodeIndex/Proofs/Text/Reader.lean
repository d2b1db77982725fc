import CodeIndex.Text.Reader
import CodeIndex.Proofs.Text.Pieces

/-!
# What readers take

A reader takes a piece off the front of a text. For each reader it is said which texts it accepts, which
piece it takes and what it leaves. White space ends where a word begins: no character is both. What holds of
all values that a reader yields is put together step by step, as the reader is.
-/

namespace CodeIndex

namespace Text

/-- The code points of white space. -/
def blankCodes : List Nat :=
  List.range' 0x09 5 ++ List.range' 0x1C 5 ++ [0x85, 0xA0, 0x1680] ++ List.range' 0x2000 11 ++
    [0x2028, 0x2029, 0x202F, 0x205F, 0x3000]

theorem toNat_mem_blankCodes {c : Char} (h : isBlank c = true) : c.toNat ∈ blankCodes := by
  simp only [isBlank, Bool.or_eq_true, Bool.and_eq_true, decide_eq_true_eq, beq_iff_eq] at h
  simp only [blankCodes, List.mem_append, List.mem_range'_1, List.mem_cons, List.not_mem_nil]
  omega

theorem isWord_of_isBlank {c : Char} (h : isBlank c = true) : isWord c = false := by
  have hall : blankCodes.all (fun n => !isWord (Char.ofNat n)) = true := by decide +kernel
  simpa using List.all_eq_true.1 hall c.toNat (toNat_mem_blankCodes h)

theorem isBlank_of_isWord {c : Char} (h : isWord c = true) : isBlank c = false := by
  refine Bool.eq_false_iff.2 fun hblank => ?_
  rw [isWord_of_isBlank hblank] at h
  cases h

/-- White space is not among characters none of which is white space. -/
theorem notMem_of_isBlank {marks : Text} {c : Char} (hmarks : marks.all (!isBlank ·) = true)
    (h : isBlank c = true) : c ∉ marks := by
  intro hmem
  simpa [h] using List.all_eq_true.1 hmarks c hmem

/-- Word characters, at least one of them. -/
def IsWord (name : Text) : Prop := name ≠ [] ∧ ∀ c ∈ name, isWord c = true

instance (name : Text) : Decidable (IsWord name) :=
  decidable_of_iff (name ≠ [] ∧ name.all isWord = true) (by simp [IsWord])

/-- White space, at least one character of it. -/
def IsGap (gap : Text) : Prop := gap ≠ [] ∧ ∀ c ∈ gap, isBlank c = true

instance (gap : Text) : Decidable (IsGap gap) :=
  decidable_of_iff (gap ≠ [] ∧ gap.all isBlank = true) (by simp [IsGap])

theorem IsWord.isBlank_head {name : Text} (h : IsWord name) (rest : Text) :
    ∀ c ∈ (name ++ rest).head?, isBlank c = false := by
  obtain ⟨d, name, rfl⟩ := List.exists_cons_of_ne_nil h.1
  rintro c ⟨⟩
  exact isBlank_of_isWord (h.2 _ List.mem_cons_self)

section LeadingWord

variable {t gap : Text}

theorem isWord_leadingWord (h : leadingWord t ≠ []) : IsWord (leadingWord t) :=
  ⟨h, List.all_eq_true.1 List.all_takeWhile⟩

theorem leadingWord_append_gap (hgap : ∀ c ∈ gap, isBlank c = true) (t : Text) :
    leadingWord (t ++ gap) = leadingWord t := by
  have hnone : gap.takeWhile isWord = [] := by
    cases gap with
    | nil => rfl
    | cons c gap => simp [isWord_of_isBlank (hgap c List.mem_cons_self)]
  rw [leadingWord, leadingWord, List.takeWhile_append]
  split
  · next hall =>
    rw [hnone, List.append_nil]
    exact ((List.takeWhile_sublist isWord).eq_of_length hall).symm
  · rfl

/-- White space behind a text does not change the word in front. -/
theorem leadingWord_trim (t : Text) : leadingWord (trim t) = leadingWord (trimLeft t) := by
  have hsplit : trimLeft t = trim t ++ ((trimLeft t).reverse.takeWhile isBlank).reverse := by
    rw [trim, trimRight, ← List.reverse_append, List.takeWhile_append_dropWhile, List.reverse_reverse]
  have hgap : ∀ c ∈ ((trimLeft t).reverse.takeWhile isBlank).reverse, isBlank c = true := by
    intro c hc
    exact List.all_eq_true.1 List.all_takeWhile c (List.mem_reverse.1 hc)
  rw [← leadingWord_append_gap hgap (trim t), ← hsplit]

theorem leadingWord_trim_append_gap (hgap : ∀ c ∈ gap, isBlank c = true) (t : Text) :
    leadingWord (trim (t ++ gap)) = leadingWord (trim t) := by
  rw [leadingWord_trim, leadingWord_trim, trimLeft, trimLeft, List.dropWhile_append]
  split
  · next hblank =>
    rw [List.isEmpty_iff.1 hblank]
    exact leadingWord_append_gap (fun c hc => hgap c (trimLeft_subset gap hc)) []
  · exact leadingWord_append_gap hgap _

theorem leadingWord_append {name rest : Text} (hname : ∀ c ∈ name, isWord c = true)
    (hrest : ∀ c ∈ rest.head?, isWord c = false) :
    leadingWord (name ++ rest) = name :=
  (takeWhile_eq_iff.2 ⟨rfl, hname, hrest⟩).1

/-- A text begins with a word, white space apart, exactly if its first other character is one of a word. -/
theorem leadingWord_trim_ne_nil : leadingWord (trim t) ≠ [] ↔
    ∃ gap c rest, t = gap ++ c :: rest ∧ (∀ d ∈ gap, isBlank d = true) ∧ isWord c = true := by
  rw [leadingWord_trim]
  constructor
  · intro hne
    cases hbody : trimLeft t with
    | nil =>
      rw [hbody] at hne
      exact absurd rfl hne
    | cons c rest =>
      obtain ⟨hsplit, hgap, -⟩ := takeWhile_eq_iff.1 ⟨rfl, hbody⟩
      rw [hbody] at hne
      refine ⟨_, c, rest, hsplit, hgap, ?_⟩
      cases hc : isWord c with
      | true => rfl
      | false => simp [leadingWord, hc] at hne
  · rintro ⟨gap, c, rest, rfl, hgap, hc⟩
    have htrim : trimLeft (gap ++ c :: rest) = c :: rest :=
      (takeWhile_eq_iff.2 ⟨rfl, hgap, by simpa using isBlank_of_isWord hc⟩).2
    simp [htrim, leadingWord, hc]

end LeadingWord

end Text

namespace Reader

variable {α β : Type} {t rest : Text} {a : α} {p : Char → Bool}

theorem bind_eq_some_iff {r : Reader α} {f : α → Reader β} {b : β} :
    (r >>= f).parse t = some (b, rest) ↔
      ∃ a mid, r.parse t = some (a, mid) ∧ (f a).parse mid = some (b, rest) := by
  change (r.parse t).bind (fun x => (f x.1).parse x.2) = some (b, rest) ↔ _
  rw [Option.bind_eq_some_iff]
  constructor
  · rintro ⟨⟨a, mid⟩, hr, hf⟩
    exact ⟨a, mid, hr, hf⟩
  · rintro ⟨a, mid, hr, hf⟩
    exact ⟨(a, mid), hr, hf⟩

theorem bind_of_eq_some {r : Reader α} {f : α → Reader β} {mid : Text} (h : r.parse t = some (a, mid)) :
    (r >>= f).parse t = (f a).parse mid := by
  change (r.parse t).bind (fun x => (f x.1).parse x.2) = _
  rw [h, Option.bind_some]

theorem pure_eq_some_iff {b : α} :
    (pure b : Reader α).parse t = some (a, rest) ↔ a = b ∧ rest = t := by
  change some (b, t) = some (a, rest) ↔ _
  rw [Option.some.injEq, Prod.mk.injEq, eq_comm, @eq_comm Text]

theorem fail_ne_some : (fail : Reader α).parse t ≠ some (a, rest) := nofun

theorem literal_eq_some_iff {key : Text} {u : Unit} :
    (literal key).parse t = some (u, rest) ↔ t = key ++ rest := by
  change (if key.isPrefixOf t then some ((), t.drop key.length) else none) = some (u, rest) ↔ _
  constructor
  · intro h
    split at h
    · next hkey =>
      obtain ⟨behind, rfl⟩ := List.isPrefixOf_iff_prefix.1 hkey
      rw [List.drop_left] at h
      rw [(Prod.mk.inj (Option.some.inj h)).2]
    · cases h
  · rintro rfl
    rw [if_pos (List.isPrefixOf_iff_prefix.2 (List.prefix_append _ _)), List.drop_left]

theorem many_eq_some_iff {taken : Text} : (many p).parse t = some (taken, rest) ↔
    t = taken ++ rest ∧ (∀ c ∈ taken, p c = true) ∧ ∀ c ∈ rest.head?, p c = false := by
  change some (t.takeWhile p, t.dropWhile p) = some (taken, rest) ↔ _
  rw [Option.some.injEq, Prod.mk.injEq, Text.takeWhile_eq_iff]

theorem many1_eq_some_iff {taken : Text} : (many1 p).parse t = some (taken, rest) ↔
    taken ≠ [] ∧ t = taken ++ rest ∧ (∀ c ∈ taken, p c = true) ∧ ∀ c ∈ rest.head?, p c = false := by
  rw [← Text.takeWhile_eq_iff]
  change (if (t.takeWhile p).isEmpty then none else some (t.takeWhile p, t.dropWhile p)) =
    some (taken, rest) ↔ _
  constructor
  · intro h
    split at h
    · cases h
    · next hne =>
      obtain ⟨htaken, hrest⟩ := Prod.mk.inj (Option.some.inj h)
      exact ⟨fun hnil => hne (by rw [htaken, hnil]; rfl), htaken, hrest⟩
  · rintro ⟨hne, rfl, rfl⟩
    rw [if_neg (by simpa using hne)]

theorem blanks1_of_isGap {gap : Text} (hgap : Text.IsGap gap)
    (hrest : ∀ c ∈ rest.head?, Text.isBlank c = false) : blanks1.parse (gap ++ rest) = some (gap, rest) :=
  many1_eq_some_iff.2 ⟨hgap.1, rfl, hgap.2, hrest⟩

theorem word_of_isWord {name : Text} (hname : Text.IsWord name)
    (hrest : ∀ c ∈ rest.head?, Text.isWord c = false) : word.parse (name ++ rest) = some (name, rest) :=
  many1_eq_some_iff.2 ⟨hname.1, rfl, hname.2, hrest⟩

theorem oneOf_eq_some_iff {c : Char} : (oneOf p).parse t = some (c, rest) ↔ t = c :: rest ∧ p c = true := by
  cases t with
  | nil => simp [oneOf]
  | cons c' t =>
    change (if p c' then some (c', t) else none) = some (c, rest) ↔ _
    constructor
    · intro h
      split at h
      · next hc =>
        cases h
        exact ⟨rfl, hc⟩
      · cases h
    · rintro ⟨hcons, hc⟩
      cases hcons
      rw [if_pos hc]

theorem orElse_eq_some_iff {r s : Reader α} : (orElse r s).parse t = some (a, rest) ↔
    r.parse t = some (a, rest) ∨ r.parse t = none ∧ s.parse t = some (a, rest) :=
  Option.or_eq_some_iff

theorem optional_eq_some_iff {r : Reader α} {found : Option α} :
    (optional r).parse t = some (found, rest) ↔
      (∃ a, found = some a ∧ r.parse t = some (a, rest)) ∨
        found = none ∧ r.parse t = none ∧ rest = t := by
  have hmap : (some <$> r).parse t = (r.parse t).map fun x => (some x.1, x.2) := by
    change (r.parse t).bind (fun x => some (some x.1, x.2)) = _
    rw [Option.map_eq_bind]
    rfl
  rw [optional, orElse_eq_some_iff, pure_eq_some_iff, hmap]
  cases hr : r.parse t with
  | none => simp
  | some x =>
    obtain ⟨b, mid⟩ := x
    constructor
    · rintro (h | ⟨h, -⟩)
      · cases h
        exact .inl ⟨b, rfl, rfl⟩
      · cases h
    · rintro (⟨a, rfl, h⟩ | ⟨-, h, -⟩)
      · cases h
        exact .inl rfl
      · cases h

theorem keyword_eq_some_iff {key : Text} {u : Unit} :
    (keyword key).parse t = some (u, rest) ↔
      ∃ gap, gap ≠ [] ∧ t = key ++ gap ++ rest ∧ (∀ c ∈ gap, Text.isBlank c = true) ∧
        ∀ c ∈ rest.head?, Text.isBlank c = false := by
  simp only [keyword, blanks1, bind_eq_some_iff, literal_eq_some_iff, many1_eq_some_iff,
    pure_eq_some_iff, List.append_assoc]
  constructor
  · rintro ⟨_, mid, rfl, gap, mid', ⟨hne, rfl, hblank, hrest⟩, -, rfl⟩
    exact ⟨gap, hne, rfl, hblank, hrest⟩
  · rintro ⟨gap, hne, rfl, hblank, hrest⟩
    exact ⟨(), gap ++ rest, rfl, gap, rest, ⟨hne, rfl, hblank, hrest⟩, trivial, rfl⟩

theorem between_eq_some_iff {opening closing : Char} {inner : Text} :
    (between opening closing).parse t = some (inner, rest) ↔
      t = opening :: inner ++ closing :: rest ∧ closing ∉ inner := by
  simp only [between, bind_eq_some_iff, literal_eq_some_iff, many_eq_some_iff, pure_eq_some_iff]
  constructor
  · rintro ⟨_, mid, rfl, inner', mid', ⟨rfl, hinner, -⟩, _, rest', rfl, rfl, rfl⟩
    exact ⟨rfl, fun hmem => by simpa using hinner closing hmem⟩
  · rintro ⟨rfl, hinner⟩
    refine ⟨(), inner ++ closing :: rest, rfl, inner, closing :: rest, ⟨rfl, fun c hc => ?_, ?_⟩, (), rest,
      rfl, rfl, rfl⟩
    · exact bne_iff_ne.2 fun heq => hinner (heq ▸ hc)
    · simp

/-! ### What readers yield -/

/-- All values of a reader have a property. -/
def Yields (r : Reader α) (P : α → Prop) : Prop := ∀ t a rest, r.parse t = some (a, rest) → P a

variable {r : Reader α} {f : α → Reader β} {P : α → Prop} {Q : β → Prop}

theorem yields_bind (hr : r.Yields P) (hf : ∀ a, P a → (f a).Yields Q) : (r >>= f).Yields Q := by
  intro t b rest h
  obtain ⟨a, mid, ha, hb⟩ := bind_eq_some_iff.1 h
  exact hf a (hr t a mid ha) mid b rest hb

/-- A value that is not used may be anything. -/
theorem yields_skip (hf : ∀ a, (f a).Yields Q) : (r >>= f).Yields Q :=
  yields_bind (P := fun _ => True) (fun _ _ _ _ => trivial) fun a _ => hf a

theorem yields_pure (h : P a) : (pure a : Reader α).Yields P := by
  intro t b rest hb
  rwa [(pure_eq_some_iff.1 hb).1]

theorem yields_fail : (fail : Reader α).Yields P := fun _ _ _ h => absurd h fail_ne_some

theorem yields_many : (many p).Yields fun taken => ∀ c ∈ taken, p c = true :=
  fun _ _ _ h => (many_eq_some_iff.1 h).2.1

theorem yields_optional (h : r.Yields P) : (optional r).Yields fun found => ∀ a ∈ found, P a := by
  intro t found rest hfound a ha
  rcases optional_eq_some_iff.1 hfound with ⟨b, rfl, hb⟩ | ⟨rfl, -⟩
  · cases ha
    exact h t a rest hb
  · cases ha

end Reader

end CodeIndex
