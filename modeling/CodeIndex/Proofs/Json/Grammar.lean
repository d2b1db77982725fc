import CodeIndex.Proofs.Json.RoundTrip

/-!
# JSON texts

What a text must be to spell a value, said by the rules of the notation alone: which characters stand
where, with gaps between values and around commas, colons and brackets. The words for undefined and
infinite numbers belong to it, and there is no bound on nesting and digits.

Whatever the reader takes is spelled by these rules.
-/

namespace CodeIndex.Json

/-- Nothing but characters that may stand between values. -/
def IsGap (t : Text) : Prop := ∀ c ∈ t, isGap c = true

instance (t : Text) : Decidable (IsGap t) := decidable_of_iff (t.all isGap = true) List.all_eq_true

/-- At least one digit, and nothing else. -/
structure IsDigits (ds : Text) : Prop where
  ne_nil : ds ≠ []
  digits : ∀ c ∈ ds, c.isDigit = true

/-- The digits before a point: a zero stands alone. -/
structure IsWhole (ds : Text) : Prop extends IsDigits ds where
  zero : ds.head? = some '0' → ds = ['0']

/-- A point with digits behind it, or nothing. -/
inductive SpellsFraction : Text → Text → Prop
  | absent : SpellsFraction [] []
  | present {fs : Text} (h : IsDigits fs) : SpellsFraction ('.' :: fs) fs

/-- A mark with an exponent behind it, or nothing. -/
inductive SpellsExponent : Text → Int → Prop
  | absent : SpellsExponent [] 0
  | present {mark : Char} {sign ds : Text} (mark_mem : mark = 'e' ∨ mark = 'E')
      (sign_mem : sign = [] ∨ sign = ['+'] ∨ sign = ['-']) (h : IsDigits ds) :
      SpellsExponent (mark :: (sign ++ ds))
        (if sign = ['-'] then -(Decimal.natOfText ds : Int) else Decimal.natOfText ds)

/-- A number behind its sign. One with neither a fraction nor an exponent is an integer. -/
inductive SpellsUnsigned (negative : Bool) : Text → Json → Prop
  | int {ds : Text} (h : IsWhole ds) : SpellsUnsigned negative ds
      (.int (if negative then -(Decimal.natOfText ds : Int) else Decimal.natOfText ds))
  | real {ds f fs x : Text} {e : Int} (h : IsWhole ds) (fraction : SpellsFraction f fs)
      (exponent : SpellsExponent x e) (some_part : f ++ x ≠ []) :
      SpellsUnsigned negative (ds ++ (f ++ x))
        (.real (Decimal.toDouble negative ⟨Decimal.natOfText (ds ++ fs), e - fs.length⟩))

/-- The inside of a string, as code points and escaped units. -/
inductive SpellsUnits : Text → List Nat → Prop
  | nil : SpellsUnits [] []
  | plain {c : Char} {t : Text} {ns : List Nat} (control : 0x20 ≤ c.toNat) (quote : c ≠ '"')
      (backslash : c ≠ '\\') (h : SpellsUnits t ns) : SpellsUnits (c :: t) (c.toNat :: ns)
  | escape {c d : Char} {t : Text} {ns : List Nat} (escaped : escaped? c = some d)
      (h : SpellsUnits t ns) : SpellsUnits ('\\' :: c :: t) (d.toNat :: ns)
  | unit {a b c d : Char} {t : Text} {n : Nat} {ns : List Nat} (value : unitValue? a b c d = some n)
      (h : SpellsUnits t ns) : SpellsUnits ('\\' :: 'u' :: a :: b :: c :: d :: t) (n :: ns)

/-- A string with its quotes. Two halves of one character that stand together are that character. -/
def SpellsString (t : Text) (ls : Letters) : Prop :=
  ∃ inside ns, SpellsUnits inside ns ∧ t = '"' :: (inside ++ ['"']) ∧
    ls = (ns.foldr joinHalves []).map Letter.ofCode

/-- A value as it stands in an array: its text with gaps around it. -/
structure Item where
  before : Text
  text : Text
  behind : Text
  value : Json

namespace Item

def written (i : Item) : Text := i.before ++ (i.text ++ i.behind)

structure IsSpaced (i : Item) : Prop where
  before : IsGap i.before
  behind : IsGap i.behind

end Item

/-- A key and its value as they stand in an object, with gaps around both. -/
structure Member extends Item where
  start : Text
  quoted : Text
  middle : Text
  key : Letters

namespace Member

def whole (m : Member) : Text := m.start ++ (m.quoted ++ (m.middle ++ ':' :: m.written))

structure IsSpaced (m : Member) : Prop extends m.toItem.IsSpaced where
  start : IsGap m.start
  middle : IsGap m.middle
  quoted : SpellsString m.quoted m.key

def field (m : Member) : Letters × Json := (m.key, m.value)

end Member

/-- What values are spelled with. -/
inductive Spells : Text → Json → Prop
  | word {w : Text × Json} (h : w ∈ words) : Spells w.1 w.2
  | number {negative : Bool} {t : Text} {v : Json} (h : SpellsUnsigned negative t v) :
      Spells ((if negative then ['-'] else []) ++ t) v
  | string {t : Text} {ls : Letters} (h : SpellsString t ls) : Spells t (.str ls)
  | emptyArray {gap : Text} (h : IsGap gap) : Spells ('[' :: (gap ++ [']'])) (.arr [])
  | array {items : List Item} (ne_nil : items ≠ []) (spaced : ∀ i ∈ items, i.IsSpaced)
      (h : ∀ i ∈ items, Spells i.text i.value) :
      Spells ('[' :: ([','].intercalate (items.map Item.written) ++ [']'])) (.arr (items.map Item.value))
  | emptyObject {gap : Text} (h : IsGap gap) : Spells ('\x7b' :: (gap ++ ['\x7d'])) (.obj [])
  | object {members : List Member} (ne_nil : members ≠ []) (spaced : ∀ m ∈ members, m.IsSpaced)
      (h : ∀ m ∈ members, Spells m.text m.value) :
      Spells ('\x7b' :: ([','].intercalate (members.map Member.whole) ++ ['\x7d']))
        (ofFields (members.map Member.field))

/-- A whole text that spells a value, with gaps around it. -/
def IsDocument (t : Text) (v : Json) : Prop :=
  ∃ before s behind, IsGap before ∧ IsGap behind ∧ t = before ++ (s ++ behind) ∧ Spells s v

variable {t rest ds fs : Text} {v : Json} {e : Int} {negative : Bool}

theorem digits_sound (h : digits t = (ds, rest)) : t = ds ++ rest ∧ ∀ c ∈ ds, c.isDigit = true := by
  simp only [digits, Prod.mk.injEq] at h
  obtain ⟨rfl, rfl⟩ := h
  exact ⟨List.takeWhile_append_dropWhile.symm, fun c hc => List.mem_takeWhile_imp hc⟩

theorem whole?_sound (h : whole? t = some (ds, rest)) : t = ds ++ rest ∧ IsWhole ds := by
  unfold whole? at h
  split at h
  · cases h
    exact ⟨rfl, ⟨by simp, List.forall_mem_singleton.2 rfl⟩, fun _ => rfl⟩
  · next hzero =>
    split at h
    · cases h
    · next hne =>
      obtain ⟨hcut, hds⟩ := digits_sound (Option.some.inj h)
      rw [Option.some.inj h] at hne
      refine ⟨hcut, ⟨fun hnil => hne rest (by rw [hnil]), hds⟩, fun hhead => ?_⟩
      obtain ⟨more, rfl⟩ := List.head?_eq_some_iff.1 hhead
      exact absurd hcut (hzero _)

theorem fraction?_sound (h : fraction? t = some (fs, rest)) : t = '.' :: fs ++ rest ∧ IsDigits fs := by
  unfold fraction? at h
  split at h
  · split at h
    · cases h
    · next hne =>
      obtain ⟨rfl, hfs⟩ := digits_sound (Option.some.inj h)
      rw [Option.some.inj h] at hne
      exact ⟨rfl, fun hnil => hne rest (by rw [hnil]), hfs⟩
  · cases h

/-- A sign that may be left out is one of three texts. -/
theorem sign_sound {after : Text} (h : sign t = (negative, after)) : ∃ signed,
    (signed = [] ∨ signed = ['+'] ∨ signed = ['-']) ∧ t = signed ++ after ∧
      negative = decide (signed = ['-']) := by
  unfold sign at h
  split at h
  · cases h
    exact ⟨['-'], .inr (.inr rfl), rfl, rfl⟩
  · cases h
    exact ⟨['+'], .inr (.inl rfl), rfl, rfl⟩
  · cases h
    exact ⟨[], .inl rfl, rfl, rfl⟩

theorem exponent?_sound (h : exponent? t = some (e, rest)) :
    ∃ x, t = x ++ rest ∧ SpellsExponent x e ∧ x ≠ [] := by
  unfold exponent? at h
  split at h
  · next mark after =>
    split at h
    · next hmark =>
      rw [Bool.or_eq_true, decide_eq_true_eq, decide_eq_true_eq] at hmark
      split at h
      next negative unsigned hsign =>
      obtain ⟨signed, hsigned, rfl, rfl⟩ := sign_sound hsign
      split at h
      · cases h
      · next ds rest' hne hdigits =>
        obtain ⟨rfl, hds⟩ := digits_sound hdigits
        have hdigit : IsDigits ds := ⟨hne, hds⟩
        simp only [Option.some.injEq, Prod.mk.injEq, decide_eq_true_eq] at h
        obtain ⟨rfl, rfl⟩ := h
        exact ⟨_, by simp, .present hmark hsigned hdigit, by simp⟩
    · cases h
  · cases h

theorem unsigned_sound (h : unsigned negative t = .ok (v, rest)) :
    ∃ s, t = s ++ rest ∧ SpellsUnsigned negative s v := by
  unfold unsigned at h
  split at h
  · cases h
  · next ds afterWhole hwhole =>
    obtain ⟨rfl, hds⟩ := whole?_sound hwhole
    split at h
    · next fs afterFraction hfraction =>
      obtain ⟨rfl, hfs⟩ := fraction?_sound hfraction
      cases hexponent : exponent? afterFraction with
      | none =>
        simp only [hexponent, Option.getD_none] at h
        cases h
        exact ⟨ds ++ ('.' :: fs ++ []), by simp, .real hds (.present hfs) .absent (by simp)⟩
      | some found =>
        obtain ⟨e, rest'⟩ := found
        simp only [hexponent, Option.getD_some] at h
        cases h
        obtain ⟨x, rfl, hx, -⟩ := exponent?_sound hexponent
        exact ⟨ds ++ ('.' :: fs ++ x), by simp, .real hds (.present hfs) hx (by simp)⟩
    · split at h
      · next e rest' hexponent =>
        obtain ⟨x, rfl, hx, hne⟩ := exponent?_sound hexponent
        cases h
        have hspells := @SpellsUnsigned.real negative ds [] [] x e hds .absent hx hne
        simp only [List.append_nil, List.nil_append, List.length_nil, Nat.cast_zero, sub_zero] at hspells
        exact ⟨ds ++ x, by simp, hspells⟩
      · split at h
        · cases h
        · cases h
          exact ⟨ds, rfl, .int hds⟩

theorem simple_sound (h : simple t = .ok (v, rest)) : ∃ s, t = s ++ rest ∧ Spells s v := by
  unfold simple at h
  split at h
  · next word w hfind =>
    have hmem := List.mem_of_find?_eq_some hfind
    have hstart : word.isPrefixOf t = true := by simpa using List.find?_some hfind
    obtain ⟨rest', rfl⟩ := List.isPrefixOf_iff_prefix.1 hstart
    cases h
    exact ⟨word, by rw [List.drop_left], .word hmem⟩
  · split at h
    · obtain ⟨s, rfl, hs⟩ := unsigned_sound h
      exact ⟨'-' :: s, rfl, .number hs⟩
    · obtain ⟨s, rfl, hs⟩ := unsigned_sound h
      exact ⟨s, rfl, .number hs⟩

theorem stringUnits_sound {done ns : List Nat} (h : stringUnits done t = .ok (ns, rest)) :
    ∃ inside us, t = inside ++ '"' :: rest ∧ SpellsUnits inside us ∧ ns = done.reverse ++ us := by
  fun_induction stringUnits done t with
  | case1 => cases h
  | case2 done rest' =>
    cases h
    exact ⟨[], [], rfl, .nil, by simp⟩
  | case3 done a b c d rest' n hvalue ih =>
    obtain ⟨inside, us, rfl, hus, rfl⟩ := ih h
    exact ⟨_, _, rfl, .unit hvalue hus, by simp⟩
  | case4 => cases h
  | case5 done c rest' hunit d hescaped ih =>
    obtain ⟨inside, us, rfl, hus, rfl⟩ := ih h
    exact ⟨_, _, rfl, .escape hescaped hus, by simp⟩
  | case6 => cases h
  | case7 => cases h
  | case8 done c rest' hquote hunit hescape hplain ih =>
    obtain ⟨inside, us, rfl, hus, rfl⟩ := ih h
    simp only [Bool.or_eq_true, decide_eq_true_eq, beq_iff_eq, not_or, not_lt] at hplain
    exact ⟨_, _, rfl, .plain hplain.1 hquote hplain.2 hus, by simp⟩

theorem string_sound {ls : Letters} (h : string t = .ok (ls, rest)) :
    ∃ s, '"' :: t = s ++ rest ∧ SpellsString s ls := by
  obtain ⟨⟨ns, rest'⟩, hunits, hpure⟩ := bind_ok_iff.1 h
  cases hpure
  obtain ⟨inside, us, rfl, hus, rfl⟩ := stringUnits_sound hunits
  exact ⟨_, by simp, inside, _, hus, rfl, rfl⟩

theorem skipGap_sound (t : Text) : ∃ gap, IsGap gap ∧ t = gap ++ skipGap t :=
  ⟨t.takeWhile isGap, fun _ hc => List.mem_takeWhile_imp hc, List.takeWhile_append_dropWhile.symm⟩

theorem intercalate_cons {α : Type} (sep x y : List α) (xs : List (List α)) :
    sep.intercalate (x :: y :: xs) = x ++ (sep ++ sep.intercalate (y :: xs)) := by
  simp [List.intercalate]

/-- The items of an array, its end and what follows. -/
def SpellsItems (t : Text) (vs : List Json) (rest : Text) : Prop :=
  ∃ items : List Item, items ≠ [] ∧ (∀ i ∈ items, i.IsSpaced) ∧ (∀ i ∈ items, Spells i.text i.value) ∧
    items.map Item.value = vs ∧ t = [','].intercalate (items.map Item.written) ++ ']' :: rest

/-- The fields of an object, its end and what follows. -/
def SpellsMembers (t : Text) (fields : Fields) (rest : Text) : Prop :=
  ∃ members : List Member, members ≠ [] ∧ (∀ m ∈ members, m.IsSpaced) ∧
    (∀ m ∈ members, Spells m.text m.value) ∧ members.map Member.field = fields ∧
    t = [','].intercalate (members.map Member.whole) ++ '\x7d' :: rest

theorem spellsItems_last {i : Item} (hspaced : i.IsSpaced) (h : Spells i.text i.value) (rest : Text) :
    SpellsItems (i.written ++ ']' :: rest) [i.value] rest :=
  ⟨[i], by simp, List.forall_mem_singleton.2 hspaced, List.forall_mem_singleton.2 h, rfl,
    by simp [List.intercalate]⟩

theorem SpellsItems.cons {i : Item} {vs : List Json} (hspaced : i.IsSpaced) (h : Spells i.text i.value)
    (hrest : SpellsItems t vs rest) : SpellsItems (i.written ++ ',' :: t) (i.value :: vs) rest := by
  obtain ⟨items, hne, hitems, hspells, rfl, rfl⟩ := hrest
  obtain ⟨j, items, rfl⟩ := List.exists_cons_of_ne_nil hne
  refine ⟨i :: j :: items, by simp, List.forall_mem_cons.2 ⟨hspaced, hitems⟩,
    List.forall_mem_cons.2 ⟨h, hspells⟩, rfl, ?_⟩
  simp only [List.map_cons, intercalate_cons, List.append_assoc, List.nil_append, List.cons_append]

theorem spellsMembers_last {m : Member} (hspaced : m.IsSpaced) (h : Spells m.text m.value) (rest : Text) :
    SpellsMembers (m.whole ++ '\x7d' :: rest) [m.field] rest :=
  ⟨[m], by simp, List.forall_mem_singleton.2 hspaced, List.forall_mem_singleton.2 h, rfl,
    by simp [List.intercalate]⟩

theorem SpellsMembers.cons {m : Member} {fields : Fields} (hspaced : m.IsSpaced)
    (h : Spells m.text m.value) (hrest : SpellsMembers t fields rest) :
    SpellsMembers (m.whole ++ ',' :: t) (m.field :: fields) rest := by
  obtain ⟨members, hne, hmembers, hspells, rfl, rfl⟩ := hrest
  obtain ⟨m', members, rfl⟩ := List.exists_cons_of_ne_nil hne
  refine ⟨m :: m' :: members, by simp, List.forall_mem_cons.2 ⟨hspaced, hmembers⟩,
    List.forall_mem_cons.2 ⟨h, hspells⟩, rfl, ?_⟩
  simp only [List.map_cons, intercalate_cons, List.append_assoc, List.nil_append, List.cons_append]

/-- What the reader of values takes is spelled by the rules. -/
def ValueSound (n : Nat) : Prop :=
  ∀ depth t v rest, value n depth t = .ok (v, rest) → ∃ s, t = s ++ rest ∧ Spells s v

/-- So is what the reader of items takes, where a gap that was skipped before the first item belongs
to it. -/
def ItemsSound (n : Nat) : Prop :=
  ∀ depth done t v rest, items n depth done t = .ok (v, rest) →
    ∃ vs, v = .arr (done.reverse ++ vs) ∧ ∀ gap, IsGap gap → SpellsItems (gap ++ t) vs rest

/-- So is what the reader of fields takes. -/
def FieldsSound (n : Nat) : Prop :=
  ∀ depth done t v rest, fields n depth done t = .ok (v, rest) →
    ∃ fs, v = ofFields (done.reverse ++ fs) ∧ ∀ gap, IsGap gap → SpellsMembers (gap ++ t) fs rest

variable {n : Nat}

theorem value_sound (hitems : ItemsSound n) (hfields : FieldsSound n) : ValueSound (n + 1) := by
  intro depth t v rest h
  unfold value at h
  split at h
  · obtain ⟨⟨ls, rest'⟩, hstring, hpure⟩ := bind_ok_iff.1 h
    cases hpure
    obtain ⟨s, hs, hspells⟩ := string_sound hstring
    exact ⟨s, hs, .string hspells⟩
  · next t =>
    obtain ⟨gap, hgap, hcut⟩ := skipGap_sound t
    split at h
    · cases h
    · split at h
      · next rest' hend =>
        cases h
        exact ⟨_, by rw [hcut, hend]; simp, .emptyArray hgap⟩
      · obtain ⟨vs, rfl, hvs⟩ := hitems _ _ _ _ _ h
        obtain ⟨items, hne, hspaced, hspells, rfl, htext⟩ := hvs gap hgap
        exact ⟨_, by rw [hcut, htext]; simp, .array hne hspaced hspells⟩
  · next t =>
    obtain ⟨gap, hgap, hcut⟩ := skipGap_sound t
    split at h
    · cases h
    · split at h
      · next rest' hend =>
        cases h
        exact ⟨_, by rw [hcut, hend]; simp, .emptyObject hgap⟩
      · obtain ⟨fs, rfl, hfs⟩ := hfields _ _ _ _ _ h
        obtain ⟨members, hne, hspaced, hspells, rfl, htext⟩ := hfs gap hgap
        exact ⟨_, by rw [hcut, htext]; simp, .object hne hspaced hspells⟩
  · exact simple_sound h

theorem items_sound (hvalue : ValueSound n) (hitems : ItemsSound n) : ItemsSound (n + 1) := by
  -- the reader skips the gap behind a comma before it goes on, so the next item has it before it
  intro depth done t v rest h
  rw [items, bind_ok_iff] at h
  obtain ⟨⟨w, after⟩, hw, h⟩ := h
  obtain ⟨s, rfl, hs⟩ := hvalue _ _ _ _ hw
  obtain ⟨behind, hbehind, hcut⟩ := skipGap_sound after
  dsimp only at h
  split at h
  · next after' hcomma =>
    obtain ⟨gap', hgap', hcut'⟩ := skipGap_sound after'
    obtain ⟨vs, rfl, hspells⟩ := hitems _ _ _ _ _ h
    refine ⟨w :: vs, by simp, fun gap hgap => ?_⟩
    have hmore := (hspells gap' hgap').cons (i := ⟨gap, s, behind, w⟩) ⟨hgap, hbehind⟩ hs
    rw [← hcut'] at hmore
    rw [hcut, hcomma]
    simpa [Item.written] using hmore
  · next hend =>
    cases h
    refine ⟨[w], by simp, fun gap hgap => ?_⟩
    have hlast := spellsItems_last (i := ⟨gap, s, behind, w⟩) ⟨hgap, hbehind⟩ hs rest
    rw [hcut, hend]
    simpa [Item.written] using hlast
  · cases h

theorem fields_sound (hvalue : ValueSound n) (hfields : FieldsSound n) : FieldsSound (n + 1) := by
  intro depth done t v rest h
  unfold fields at h
  split at h
  · next t =>
    obtain ⟨⟨key, afterKey⟩, hkey, h⟩ := bind_ok_iff.1 h
    obtain ⟨quoted, hquoted, hspelled⟩ := string_sound hkey
    obtain ⟨middle, hmiddle, hcutKey⟩ := skipGap_sound afterKey
    dsimp only at h
    split at h
    · next afterColon hcolon =>
      obtain ⟨before, hbefore, hcutColon⟩ := skipGap_sound afterColon
      obtain ⟨⟨w, after⟩, hw, h⟩ := bind_ok_iff.1 h
      obtain ⟨s, hvalueText, hs⟩ := hvalue _ _ _ _ hw
      obtain ⟨behind, hbehind, hcut⟩ := skipGap_sound after
      dsimp only at h
      split at h
      · next after' hcomma =>
        obtain ⟨gap', hgap', hcut'⟩ := skipGap_sound after'
        obtain ⟨fs, rfl, hspells⟩ := hfields _ _ _ _ _ h
        refine ⟨(key, w) :: fs, by simp, fun gap hgap => ?_⟩
        have hmore := (hspells gap' hgap').cons (m := ⟨⟨before, s, behind, w⟩, gap, quoted, middle, key⟩)
          ⟨⟨hbefore, hbehind⟩, hgap, hmiddle, hspelled⟩ hs
        rw [← hcut'] at hmore
        rw [hquoted, hcutKey, hcolon, hcutColon, hvalueText, hcut, hcomma]
        simpa [Member.whole, Item.written, Member.field] using hmore
      · next hend =>
        cases h
        refine ⟨[(key, w)], by simp, fun gap hgap => ?_⟩
        have hlast := spellsMembers_last (m := ⟨⟨before, s, behind, w⟩, gap, quoted, middle, key⟩)
          ⟨⟨hbefore, hbehind⟩, hgap, hmiddle, hspelled⟩ hs rest
        rw [hquoted, hcutKey, hcolon, hcutColon, hvalueText, hcut, hend]
        simpa [Member.whole, Item.written, Member.field] using hlast
      · cases h
    · cases h
  · cases h

/-- The three readers call each other with a smaller bound, so they are sound together. -/
theorem readers_sound (n : Nat) : ValueSound n ∧ ItemsSound n ∧ FieldsSound n := by
  induction n with
  | zero =>
    refine ⟨fun depth t v rest h => ?_, fun depth done t v rest h => ?_,
      fun depth done t v rest h => ?_⟩
    · cases h
    · cases h
    · cases h
  | succ n ih =>
    obtain ⟨hvalue, hitems, hfields⟩ := ih
    exact ⟨value_sound hitems hfields, items_sound hvalue hitems, fields_sound hvalue hfields⟩

/-- What is read is spelled by the text. -/
theorem isDocument_of_parse (h : parse t = .ok v) : IsDocument t v := by
  obtain ⟨⟨w, rest⟩, hw, hend⟩ := bind_ok_iff.1 h
  obtain ⟨before, hbefore, hcut⟩ := skipGap_sound t
  obtain ⟨s, hs, hspells⟩ := (readers_sound _).1 _ _ _ _ hw
  obtain ⟨behind, hbehind, hcutRest⟩ := skipGap_sound rest
  dsimp only at hend
  split at hend
  · next hempty =>
    cases hend
    rw [List.isEmpty_iff] at hempty
    rw [hempty, List.append_nil] at hcutRest
    exact ⟨before, s, behind, hbefore, hbehind, by rw [hcut, hs, hcutRest], hspells⟩
  · cases hend

end CodeIndex.Json
