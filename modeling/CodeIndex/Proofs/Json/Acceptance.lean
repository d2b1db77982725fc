import CodeIndex.Proofs.Json.Grammar

/-!
# Which texts are read

A text that spells a value is read as that value unless a limit stops the reader: more nesting or
more digits than it goes along with.
-/

namespace CodeIndex.Json

variable {α β : Type} {t rest ds fs f x s : Text} {v : Json} {e : Int} {negative : Bool} {n depth : Nat}

/-- A reader comes to a value, unless a limit stops it. -/
def Reads (r : Except Fault α) (a : α) : Prop := r = .ok a ∨ ∃ fault, r = .error fault ∧ fault ≠ .malformed

theorem reads_ok (a : α) : Reads (.ok a) a := .inl rfl

theorem reads_limit {fault : Fault} (h : fault ≠ .malformed) (a : α) : Reads (.error fault) a :=
  .inr ⟨fault, rfl, h⟩

theorem Reads.bind {r : Except Fault α} {k : α → Except Fault β} {a : α} {b : β} (h : Reads r a)
    (hk : Reads (k a) b) : Reads (r >>= k) b := by
  rcases h with rfl | ⟨fault, rfl, hfault⟩
  · exact hk
  · exact reads_limit hfault b

theorem IsWhole.whole? (h : IsWhole ds) (hrest : EndsDigits rest) :
    whole? (ds ++ rest) = some (ds, rest) := by
  obtain ⟨c, cs, rfl⟩ := List.exists_cons_of_ne_nil h.ne_nil
  by_cases hc : c = '0'
  · have hzero := h.zero (by rw [hc]; rfl)
    rw [hzero]
    exact whole?_zero rest
  · exact whole?_append h.digits hrest ⟨c, cs, rfl, hc⟩

theorem IsDigits.sign (h : IsDigits ds) (rest : Text) : sign (ds ++ rest) = (false, ds ++ rest) := by
  obtain ⟨c, cs, rfl⟩ := List.exists_cons_of_ne_nil h.ne_nil
  have hc := h.digits c List.mem_cons_self
  unfold Json.sign
  split
  · next heq =>
    rw [(List.cons.inj heq).1] at hc
    cases hc
  · next heq =>
    rw [(List.cons.inj heq).1] at hc
    cases hc
  · rfl

/-- An exponent that is there is read. -/
theorem SpellsExponent.exponent? (h : SpellsExponent x e) (hne : x ≠ []) (hrest : EndsDigits rest) :
    exponent? (x ++ rest) = some (e, rest) := by
  cases h with
  | absent => exact absurd rfl hne
  | @present mark signed ds hmark hsigned hds =>
    obtain ⟨c, cs, hcs⟩ := List.exists_cons_of_ne_nil hds.ne_nil
    have hfound := digits_append hds.digits hrest
    have hsign : Json.sign (signed ++ (ds ++ rest)) = (decide (signed = ['-']), ds ++ rest) := by
      rcases hsigned with rfl | rfl | rfl
      · exact hds.sign rest
      · rfl
      · rfl
    have hmark' : (decide (mark = 'e') || decide (mark = 'E')) = true := by simpa using hmark
    simp only [List.cons_append, List.append_assoc, Json.exponent?, hmark', if_true, hsign, hfound]
    simp only [hcs, decide_eq_true_eq]

/-- What a fraction or an exponent starts with is no digit. -/
theorem endsDigits_parts (hf : SpellsFraction f fs) (hx : SpellsExponent x e) (hrest : EndsDigits rest) :
    EndsDigits (f ++ (x ++ rest)) := by
  cases hf with
  | present => exact endsDigits_cons (by decide) _
  | absent =>
    cases hx with
    | absent => exact hrest
    | present hmark =>
      rcases hmark with rfl | rfl
      · exact endsDigits_cons (by decide) _
      · exact endsDigits_cons (by decide) _

theorem SpellsExponent.getD (h : SpellsExponent x e) (hrest : EndsNumber rest) :
    (Json.exponent? (x ++ rest)).getD (0, x ++ rest) = (e, rest) := by
  cases h with
  | absent => rw [List.nil_append, exponent?_eq_none hrest.lower hrest.upper]; rfl
  | present hmark hsigned hds =>
    rw [(SpellsExponent.present hmark hsigned hds).exponent? (by simp) hrest.digits]
    rfl

/-- A number is read, unless it is an integer with too many digits. -/
theorem SpellsUnsigned.reads (h : SpellsUnsigned negative s v) (hrest : EndsNumber rest) :
    Reads (unsigned negative (s ++ rest)) (v, rest) := by
  cases h with
  | int hds =>
    simp only [unsigned, hds.whole? hrest.digits, fraction?_eq_none hrest.point,
      exponent?_eq_none hrest.lower hrest.upper]
    split
    · exact reads_limit (by simp) _
    · exact reads_ok _
  | @real ds f fs x e hds hf hx hne =>
    have hwhole := hds.whole? (endsDigits_parts hf hx hrest.digits)
    refine .inl ?_
    simp only [List.append_assoc, unsigned, hwhole]
    cases hf with
    | present hfs =>
      have hmark := endsDigits_parts .absent hx hrest.digits
      rw [List.nil_append] at hmark
      simp only [List.cons_append, fraction?_append hfs.digits hfs.ne_nil hmark, hx.getD hrest]
    | absent =>
      have hpoint : (x ++ rest).head? ≠ some '.' := by
        cases hx with
        | absent => exact absurd rfl hne
        | present hmark => rcases hmark with rfl | rfl <;> simp
      simp only [List.nil_append] at hne ⊢
      simp only [fraction?_eq_none hpoint, hx.exponent? hne hrest.digits]
      simp

theorem head_of_spellsUnsigned (h : SpellsUnsigned negative s v) :
    ∃ c cs, s = c :: cs ∧ c.isDigit = true := by
  cases h with
  | int hds =>
    obtain ⟨c, cs, rfl⟩ := List.exists_cons_of_ne_nil hds.ne_nil
    exact ⟨c, cs, rfl, hds.digits c List.mem_cons_self⟩
  | real hds =>
    obtain ⟨c, cs, rfl⟩ := List.exists_cons_of_ne_nil hds.ne_nil
    exact ⟨c, _, rfl, hds.digits c List.mem_cons_self⟩

/-- Neither a string nor something composed starts here. -/
theorem value_eq_simple (hquote : t.head? ≠ some '"') (hbracket : t.head? ≠ some '[')
    (hbrace : t.head? ≠ some '\x7b') : value (n + 1) depth t = simple t := by
  rw [value]
  all_goals
    rintro rest rfl
    simp_all

theorem value_signed {c : Char} (negative : Bool) (hc : c.isDigit = true) (t : Text) :
    value (n + 1) depth ((if negative then ['-'] else []) ++ c :: t) = unsigned negative (c :: t) := by
  rw [value_eq_simple]
  · exact simple_signed negative hc t
  all_goals
    cases negative
    · simp only [Bool.false_eq_true, if_false, List.nil_append, List.head?_cons, ne_eq, Option.some.injEq]
      rintro rfl
      cases hc
    · simp

theorem simple_word {w : Text × Json} (h : w ∈ words) (rest : Text) :
    simple (w.1 ++ rest) = .ok (w.2, rest) := by
  simp only [words, List.mem_cons, List.not_mem_nil, or_false] at h
  rcases h with rfl | rfl | rfl | rfl | rfl | rfl <;> rfl

theorem SpellsUnits.stringUnits {inside : Text} {us : List Nat} (h : SpellsUnits inside us)
    (done : List Nat) (rest : Text) :
    stringUnits done (inside ++ '"' :: rest) = .ok (done.reverse ++ us, rest) := by
  induction h generalizing done with
  | nil => simp [Json.stringUnits]
  | @plain c t ns hcontrol hquote hbackslash h ih =>
    have hplain : ¬((decide (c.toNat < 0x20) || c == '\\') = true) := by
      simpa using ⟨hcontrol, hbackslash⟩
    rw [List.cons_append, Json.stringUnits, if_neg hplain, ih]
    · simp
    all_goals simp_all
  | @escape c d t ns hescaped h ih =>
    have hunit : c ≠ 'u' := by
      rintro rfl
      cases hescaped
    rw [List.cons_append, List.cons_append, Json.stringUnits, hescaped]
    · simp [ih]
    · rintro a b c' d' rest' hu
      exact absurd hu hunit
  | @unit a b c d t m ns hvalue h ih =>
    simp only [List.cons_append]
    rw [Json.stringUnits, hvalue]
    simp [ih]

theorem SpellsString.string {quoted : Text} {ls : Letters} (h : SpellsString quoted ls) (rest : Text) :
    ∃ inside, quoted ++ rest = '"' :: inside ∧ string inside = .ok (ls, rest) := by
  obtain ⟨inside, ns, hunits, rfl, rfl⟩ := h
  refine ⟨inside ++ '"' :: rest, by simp, ?_⟩
  simp only [Json.string, hunits.stringUnits, List.reverse_nil, List.nil_append]
  rfl

theorem startsValue_signed {c : Char} (negative : Bool) (hc : c.isDigit = true) (t : Text) :
    StartsValue ((if negative then ['-'] else []) ++ c :: t) := by
  cases negative with
  | true => exact ⟨'-', _, rfl, by decide, by decide⟩
  | false =>
    have hbad : c ∉ [' ', '\t', '\n', '\r', ']'] := by
      intro hmem
      simp only [List.mem_cons, List.not_mem_nil, or_false] at hmem
      rcases hmem with rfl | rfl | rfl | rfl | rfl <;> cases hc
    simp only [List.mem_cons, List.not_mem_nil, or_false, not_or] at hbad
    exact ⟨c, t, rfl, by simp [isGap, hbad], hbad.2.2.2.2⟩

/-- A value starts neither with a gap nor with the end of an array. -/
theorem Spells.startsValue (h : Spells s v) : StartsValue s := by
  cases h with
  | word h =>
    simp only [words, List.mem_cons, List.not_mem_nil, or_false] at h
    rcases h with rfl | rfl | rfl | rfl | rfl | rfl <;> exact ⟨_, _, rfl, by decide, by decide⟩
  | @number negative t v h =>
    obtain ⟨c, cs, rfl, hc⟩ := head_of_spellsUnsigned h
    exact startsValue_signed negative hc cs
  | string h =>
    obtain ⟨inside, ns, -, rfl, -⟩ := h
    exact ⟨'"', _, rfl, by decide, by decide⟩
  | emptyArray => exact ⟨'[', _, rfl, by decide, by decide⟩
  | array => exact ⟨'[', _, rfl, by decide, by decide⟩
  | emptyObject => exact ⟨'\x7b', _, rfl, by decide, by decide⟩
  | object => exact ⟨'\x7b', _, rfl, by decide, by decide⟩

theorem endsNumber_gap {gap : Text} (hgap : IsGap gap) (hrest : EndsNumber rest) :
    EndsNumber (gap ++ rest) := by
  cases gap with
  | nil => exact hrest
  | cons c gap => exact endsNumber_of_gap (hgap c List.mem_cons_self) _

/-- A text that spells a value is read wherever it stands, if the bound on the way is large enough. -/
def IsRead (s : Text) (v : Json) : Prop :=
  ∀ n depth rest, s.length < n → EndsNumber rest → Reads (value n depth (s ++ rest)) (v, rest)

theorem intercalate_eq_flatMap (x : Text) (xs : List Text) :
    [','].intercalate (x :: xs) = x ++ xs.flatMap (',' :: ·) := by
  induction xs generalizing x with
  | nil => simp [List.intercalate]
  | cons y xs ih =>
    rw [intercalate_cons, ih, List.flatMap_cons]
    rfl

/-- The items behind the first, each with its comma. -/
def moreItems (items : List Item) : Text := (items.map Item.written).flatMap (',' :: ·)

/-- The fields behind the first, each with its comma. -/
def moreMembers (members : List Member) : Text := (members.map Member.whole).flatMap (',' :: ·)

theorem moreItems_cons (i : Item) (items : List Item) :
    moreItems (i :: items) = ',' :: (i.before ++ (i.text ++ (i.behind ++ moreItems items))) := by
  simp [moreItems, Item.written]

theorem moreMembers_cons (m : Member) (members : List Member) :
    moreMembers (m :: members) = ',' :: (m.start ++ (m.quoted ++ (m.middle ++ ':' :: (m.before ++
      (m.text ++ (m.behind ++ moreMembers members)))))) := by
  simp [moreMembers, Member.whole, Item.written]

theorem endsNumber_more {more : Text} {close : Char} (hmore : more = [] ∨ more.head? = some ',')
    (hclose : close = ']' ∨ close = '\x7d') (rest : Text) : EndsNumber (more ++ close :: rest) := by
  rcases hmore with rfl | hmore
  · rcases hclose with rfl | rfl
    · exact endsNumber_cons (by decide) (by decide) (by decide) (by decide) rest
    · exact endsNumber_cons (by decide) (by decide) (by decide) (by decide) rest
  · obtain ⟨more, rfl⟩ := List.head?_eq_some_iff.1 hmore
    exact endsNumber_cons (by decide) (by decide) (by decide) (by decide) _

theorem head_moreItems (items : List Item) : moreItems items = [] ∨ (moreItems items).head? = some ',' := by
  cases items with
  | nil => exact .inl rfl
  | cons i items => exact .inr rfl

theorem head_moreMembers (members : List Member) :
    moreMembers members = [] ∨ (moreMembers members).head? = some ',' := by
  cases members with
  | nil => exact .inl rfl
  | cons m members => exact .inr rfl

/-- The items of an array are read one after the other. -/
theorem items_reads {i : Item} {more : List Item} (hspaced : ∀ j ∈ i :: more, j.IsSpaced)
    (hspells : ∀ j ∈ i :: more, Spells j.text j.value) (hread : ∀ j ∈ i :: more, IsRead j.text j.value)
    (hn : i.text.length + (moreItems more).length + 1 < n) (done : List Json) (rest : Text) :
    Reads (items n depth done (i.text ++ (i.behind ++ (moreItems more ++ ']' :: rest))))
      (.arr (done.reverse ++ (i :: more).map Item.value), rest) := by
  induction more generalizing i n done with
  | nil =>
    obtain ⟨n, rfl⟩ := Nat.exists_eq_add_one_of_ne_zero (by omega : n ≠ 0)
    have hbehind := (hspaced i List.mem_cons_self).behind
    have hvalue := hread i List.mem_cons_self n depth _ (by omega)
      (endsNumber_gap hbehind (endsNumber_more (head_moreItems []) (.inl rfl) rest))
    rw [items]
    refine hvalue.bind ?_
    simp only [moreItems, List.map_nil, List.flatMap_nil, List.nil_append]
    rw [skipGap_append hbehind ⟨']', rest, rfl, by decide⟩]
    exact .inl (by simp [pure, Except.pure])
  | cons j more ih =>
    obtain ⟨n, rfl⟩ := Nat.exists_eq_add_one_of_ne_zero (by omega : n ≠ 0)
    have hbehind := (hspaced i List.mem_cons_self).behind
    have hvalue := hread i List.mem_cons_self n depth _ (by omega)
      (endsNumber_gap hbehind (endsNumber_more (head_moreItems (j :: more)) (.inl rfl) rest))
    have hbefore := (hspaced j (by simp)).before
    have hstart := (hspells j (by simp)).startsValue.startsPlain
    simp only [moreItems_cons, List.length_cons, List.length_append] at hn
    have hmore := ih (fun k hk => hspaced k (List.mem_cons_of_mem _ hk))
      (fun k hk => hspells k (List.mem_cons_of_mem _ hk)) (fun k hk => hread k (List.mem_cons_of_mem _ hk))
      (by omega : _ < n) (i.value :: done)
    rw [items]
    refine hvalue.bind ?_
    simp only [moreItems_cons, List.cons_append, List.append_assoc]
    rw [skipGap_append hbehind ⟨',', _, rfl, by decide⟩]
    simp only
    rw [skipGap_append hbefore (hstart.append _)]
    simpa using hmore

/-- One field is read up to its value. -/
theorem fields_member {m : Member} (hm : m.IsSpaced) (hstart : StartsPlain t) (done : Fields) :
    fields (n + 1) depth done (m.quoted ++ (m.middle ++ ':' :: (m.before ++ t))) = (do
      let (v, rest) ← value n depth t
      match skipGap rest with
      | ',' :: rest => fields n depth ((m.key, v) :: done) (skipGap rest)
      | '\x7d' :: rest => return (ofFields ((m.key, v) :: done).reverse, rest)
      | _ => throw .malformed) := by
  obtain ⟨inside, hquoted, hkey⟩ := hm.quoted.string (m.middle ++ ':' :: (m.before ++ t))
  rw [hquoted, fields, hkey]
  simp only [bind, Except.bind]
  rw [skipGap_append hm.middle ⟨':', _, rfl, by decide⟩]
  simp only
  have hskip := skipGap_append hm.before hstart
  generalize skipGap (m.before ++ t) = s at hskip
  subst hskip
  rfl

/-- The fields of an object are read one after the other. -/
theorem fields_reads {m : Member} {more : List Member} (hspaced : ∀ j ∈ m :: more, j.IsSpaced)
    (hspells : ∀ j ∈ m :: more, Spells j.text j.value) (hread : ∀ j ∈ m :: more, IsRead j.text j.value)
    (hn : m.text.length + (moreMembers more).length + 1 < n) (done : Fields) (rest : Text) :
    Reads (fields n depth done (m.quoted ++ (m.middle ++ ':' :: (m.before ++ (m.text ++ (m.behind ++
      (moreMembers more ++ '\x7d' :: rest)))))))
      (ofFields (done.reverse ++ (m :: more).map Member.field), rest) := by
  induction more generalizing m n done with
  | nil =>
    obtain ⟨n, rfl⟩ := Nat.exists_eq_add_one_of_ne_zero (by omega : n ≠ 0)
    have hm := hspaced m List.mem_cons_self
    have hstart := (hspells m List.mem_cons_self).startsValue.startsPlain
    have hvalue := hread m List.mem_cons_self n depth _ (by omega)
      (endsNumber_gap hm.behind (endsNumber_more (head_moreMembers []) (.inr rfl) rest))
    rw [fields_member hm (hstart.append _)]
    refine hvalue.bind ?_
    simp only [moreMembers, List.map_nil, List.flatMap_nil, List.nil_append]
    rw [skipGap_append hm.behind ⟨'\x7d', rest, rfl, by decide⟩]
    exact .inl (by simp [pure, Except.pure, Member.field])
  | cons j more ih =>
    obtain ⟨n, rfl⟩ := Nat.exists_eq_add_one_of_ne_zero (by omega : n ≠ 0)
    have hm := hspaced m List.mem_cons_self
    have hstart := (hspells m List.mem_cons_self).startsValue.startsPlain
    have hvalue := hread m List.mem_cons_self n depth _ (by omega)
      (endsNumber_gap hm.behind (endsNumber_more (head_moreMembers (j :: more)) (.inr rfl) rest))
    have hj := hspaced j (by simp)
    have hjkey : StartsPlain j.quoted := by
      obtain ⟨inside, ns, -, hquoted, -⟩ := hj.quoted
      exact ⟨'"', _, hquoted, by decide⟩
    simp only [moreMembers_cons, List.length_cons, List.length_append] at hn
    have hmore := ih (fun k hk => hspaced k (List.mem_cons_of_mem _ hk))
      (fun k hk => hspells k (List.mem_cons_of_mem _ hk)) (fun k hk => hread k (List.mem_cons_of_mem _ hk))
      (by omega : _ < n) (m.field :: done)
    rw [fields_member hm (hstart.append _)]
    refine hvalue.bind ?_
    simp only [moreMembers_cons, List.cons_append, List.append_assoc]
    rw [skipGap_append hm.behind ⟨',', _, rfl, by decide⟩]
    simp only
    rw [skipGap_append hj.start (hjkey.append _)]
    simpa [Member.field] using hmore

/-- What a value is spelled with is read. -/
theorem Spells.isRead (h : Spells s v) : IsRead s v := by
  induction h with
  | word h =>
    rintro (_ | n) depth rest hn -
    · simp at hn
    · exact .inl (value_of_simple (simple_word h rest))
  | @number negative t v h =>
    rintro (_ | n) depth rest hn hrest
    · simp at hn
    · have hreads := h.reads hrest
      obtain ⟨c, cs, rfl, hc⟩ := head_of_spellsUnsigned h
      rw [List.append_assoc, List.cons_append, value_signed negative hc]
      exact hreads
  | string h =>
    rintro (_ | n) depth rest hn -
    · simp at hn
    · obtain ⟨inside, htext, hstring⟩ := h.string rest
      rw [htext, value, hstring]
      exact .inl rfl
  | @emptyArray gap hgap =>
    rintro (_ | n) (_ | depth) rest hn -
    · simp at hn
    · simp at hn
    · exact reads_limit (by simp) _
    · simp only [List.cons_append, List.append_assoc, List.nil_append]
      rw [value, skipGap_append hgap ⟨']', rest, rfl, by decide⟩]
      exact .inl rfl
  | @array items hne hspaced hspells ih =>
    rintro (_ | n) (_ | depth) rest hn -
    · simp at hn
    · simp at hn
    · exact reads_limit (by simp) _
    · obtain ⟨i, more, rfl⟩ := List.exists_cons_of_ne_nil hne
      have hi := hspaced i List.mem_cons_self
      have hstart := (hspells i List.mem_cons_self).startsValue
      simp only [List.map_cons, intercalate_eq_flatMap, Item.written, List.length_cons, List.length_append,
        List.length_nil] at hn
      have hreads : Reads (items n depth [] _) _ := items_reads hspaced hspells ih
        (by unfold moreItems; omega : i.text.length + (moreItems more).length + 1 < n) [] rest
      simp only [List.map_cons, intercalate_eq_flatMap, Item.written, List.cons_append, List.append_assoc,
        List.nil_append]
      rw [value_array hi.before]
      · simpa [moreItems, Item.written] using hreads
      · obtain ⟨c, cs, hcs, hplain, hclose⟩ := hstart
        exact ⟨c, _, by rw [hcs]; rfl, hplain, hclose⟩
  | @emptyObject gap hgap =>
    rintro (_ | n) (_ | depth) rest hn -
    · simp at hn
    · simp at hn
    · exact reads_limit (by simp) _
    · simp only [List.cons_append, List.append_assoc, List.nil_append]
      rw [value, skipGap_append hgap ⟨'\x7d', rest, rfl, by decide⟩]
      exact .inl rfl
  | @object members hne hspaced hspells ih =>
    rintro (_ | n) (_ | depth) rest hn -
    · simp at hn
    · simp at hn
    · exact reads_limit (by simp) _
    · obtain ⟨m, more, rfl⟩ := List.exists_cons_of_ne_nil hne
      have hm := hspaced m List.mem_cons_self
      simp only [List.map_cons, intercalate_eq_flatMap, Member.whole, Item.written, List.length_cons,
        List.length_append, List.length_nil] at hn
      have hreads : Reads (fields n depth [] _) _ := fields_reads hspaced hspells ih
        (by unfold moreMembers; omega : m.text.length + (moreMembers more).length + 1 < n) [] rest
      simp only [List.map_cons, intercalate_eq_flatMap, Member.whole, Item.written, List.cons_append,
        List.append_assoc, List.nil_append]
      obtain ⟨inside, hquoted, -⟩ := hm.quoted.string (m.middle ++ ':' :: (m.before ++ (m.text ++
        (m.behind ++ (moreMembers more ++ '\x7d' :: rest)))))
      rw [hquoted] at hreads
      simp only [moreMembers] at hquoted
      rw [hquoted, value_object hm.start]
      exact hreads

/-- A text that spells a value is read as that value, unless a limit stops the reader. -/
theorem IsDocument.reads (h : IsDocument t v) : Reads (parse t) v := by
  obtain ⟨before, s, behind, hbefore, hbehind, rfl, hspells⟩ := h
  have hstart := hspells.startsValue.startsPlain.append behind
  have hread := hspells.isRead (2 * (before ++ (s ++ behind)).length + 1) maxDepth behind
    (by simp only [List.length_append]; omega)
    (by simpa using endsNumber_gap hbehind endsNumber_nil)
  rw [parse, skipGap_append hbefore hstart]
  refine hread.bind (.inl ?_)
  have hend : skipGap behind = [] := by
    rw [skipGap, List.dropWhile_eq_nil_iff]
    exact hbehind
  simp [hend, pure, Except.pure]

end CodeIndex.Json
