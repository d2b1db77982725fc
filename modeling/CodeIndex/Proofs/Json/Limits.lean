import CodeIndex.Proofs.Json.Acceptance

/-!
# Limits of the reader

The reader stops where a composed value starts inside too many others, and behind an integer with too
many digits, whatever follows. What stands before that point is JSON as far as it goes, so these
texts can be told by the rules of the notation.

The reader stops at a limit for exactly these texts. Of all others those that spell a value are read,
and the rest is malformed.
-/

namespace CodeIndex.Json

variable {α β : Type} {t u rest ds fs f x s : Text} {v : Json} {e : Int} {negative : Bool} {n depth : Nat}
  {fault : Fault}

/-- A fraction or an exponent stands here. -/
def StartsReal (t : Text) : Prop :=
  ∃ f fs x e, SpellsFraction f fs ∧ SpellsExponent x e ∧ f ++ x ≠ [] ∧ f ++ x <+: t

/-- An integer with too many digits, and what follows it. -/
structure TooManyDigits (ds rest : Text) : Prop where
  whole : IsWhole ds
  many : maxDigits < ds.length
  ends : EndsDigits rest
  integer : ¬StartsReal rest

/-- Texts with a comma behind each of them. -/
def commas (ts : List Text) : Text := ts.flatMap (· ++ [','])

/-- A field up to its value. -/
def Member.opening (m : Member) : Text := m.start ++ (m.quoted ++ (m.middle ++ ':' :: m.before))

/-- A text starts as a value does and goes beyond a limit inside it, where only `depth` composed
values may stand inside each other. -/
inductive Exceeds : Nat → Text → Prop
  | nesting {c : Char} {rest : Text} (h : c = '[' ∨ c = '\x7b') : Exceeds 0 (c :: rest)
  | digits {depth : Nat} {negative : Bool} {ds rest : Text} (h : TooManyDigits ds rest) :
      Exceeds depth ((if negative then ['-'] else []) ++ (ds ++ rest))
  | item {depth : Nat} {items : List Item} {gap rest : Text} (spaced : ∀ i ∈ items, i.IsSpaced)
      (spells : ∀ i ∈ items, Spells i.text i.value) (isGap : IsGap gap) (h : Exceeds depth rest) :
      Exceeds (depth + 1) ('[' :: (commas (items.map Item.written) ++ (gap ++ rest)))
  | member {depth : Nat} {members : List Member} {m : Member} {rest : Text}
      (spaced : ∀ m ∈ members, m.IsSpaced) (spells : ∀ m ∈ members, Spells m.text m.value)
      (opens : m.IsSpaced) (h : Exceeds depth rest) :
      Exceeds (depth + 1) ('\x7b' :: (commas (members.map Member.whole) ++ (m.opening ++ rest)))

/-- A reader stops at a limit. -/
def Stops (r : Except Fault α) : Prop := ∃ fault, r = .error fault ∧ fault ≠ .malformed

theorem bind_stops_iff {r : Except Fault α} {k : α → Except Fault β} :
    Stops (r >>= k) ↔ Stops r ∨ ∃ a, r = .ok a ∧ Stops (k a) := by
  cases r with
  | ok a => simp [Stops, bind, Except.bind]
  | error fault => simp [Stops, bind, Except.bind]

theorem not_stops_ok (a : α) : ¬Stops (.ok a : Except Fault α) := by simp [Stops]

theorem not_stops_malformed : ¬Stops (.error .malformed : Except Fault α) := by simp [Stops]

/-- Digits may go on. -/
theorem exists_more_digits (t : Text) :
    ∃ more rest, t = more ++ rest ∧ (∀ c ∈ more, c.isDigit = true) ∧ EndsDigits rest := by
  refine ⟨t.takeWhile Char.isDigit, t.dropWhile Char.isDigit, List.takeWhile_append_dropWhile.symm,
    fun c hc => List.mem_takeWhile_imp hc, fun c hc => ?_⟩
  have hnot := List.head?_dropWhile_not Char.isDigit t
  rw [hc] at hnot
  simpa using hnot

theorem IsDigits.append (h : IsDigits ds) (hfs : ∀ c ∈ fs, c.isDigit = true) : IsDigits (ds ++ fs) :=
  ⟨by simp [h.ne_nil], fun c hc => (List.mem_append.1 hc).elim (h.digits c) (hfs c)⟩

theorem fraction?_ne_none (h : IsDigits fs) (t : Text) : fraction? ('.' :: (fs ++ t)) ≠ none := by
  obtain ⟨more, rest, rfl, hmore, hrest⟩ := exists_more_digits t
  have hds := h.append hmore
  rw [← List.append_assoc, fraction?_append hds.digits hds.ne_nil hrest]
  simp

theorem exponent?_ne_none (h : SpellsExponent x e) (hne : x ≠ []) (t : Text) : exponent? (x ++ t) ≠ none := by
  cases h with
  | absent => exact absurd rfl hne
  | @present mark signed ds hmark hsigned hds =>
    obtain ⟨more, rest, rfl, hmore, hrest⟩ := exists_more_digits t
    have hmost := (SpellsExponent.present hmark hsigned (hds.append hmore)).exponent? (by simp) hrest
    simp only [List.cons_append, List.append_assoc] at hmost ⊢
    rw [hmost]
    simp

/-- Neither a fraction nor an exponent is read exactly if neither stands here. -/
theorem not_startsReal_iff : ¬StartsReal t ↔ fraction? t = none ∧ exponent? t = none := by
  constructor
  · intro h
    constructor
    · cases hfound : fraction? t with
      | none => rfl
      | some found =>
        obtain ⟨fs, rest⟩ := found
        obtain ⟨hcut, hfs⟩ := fraction?_sound hfound
        exact absurd ⟨_, _, [], 0, .present hfs, .absent, by simp, rest, by simp [hcut]⟩ h
    · cases hfound : exponent? t with
      | none => rfl
      | some found =>
        obtain ⟨e, rest⟩ := found
        obtain ⟨x, hcut, hx, hne⟩ := exponent?_sound hfound
        exact absurd ⟨[], [], x, _, .absent, hx, by simpa using hne, rest, by simp [hcut]⟩ h
  · rintro ⟨hfraction, hexponent⟩ ⟨f, fs, x, e, hf, hx, hne, rest, rfl⟩
    cases hf with
    | absent => exact exponent?_ne_none hx (by simpa using hne) rest (by simpa using hexponent)
    | present hfs => exact fraction?_ne_none hfs (x ++ rest) (by simpa using hfraction)

/-- Digits are taken to their end, but for a zero. -/
theorem whole?_ends (h : whole? t = some (ds, rest)) : ds = ['0'] ∨ EndsDigits rest := by
  unfold whole? at h
  split at h
  · cases h
    exact .inl rfl
  · split at h
    · cases h
    · obtain ⟨more, rest', rfl, hmore, hends⟩ := exists_more_digits t
      rw [digits_append hmore hends] at h
      cases h
      exact .inr hends

theorem unsigned_stops_iff :
    Stops (unsigned negative t) ↔ ∃ ds rest, t = ds ++ rest ∧ TooManyDigits ds rest := by
  constructor
  · intro h
    unfold unsigned at h
    split at h
    · exact absurd h not_stops_malformed
    · next ds rest hwhole =>
      obtain ⟨rfl, hds⟩ := whole?_sound hwhole
      split at h
      · exact absurd h (not_stops_ok _)
      · next hfraction =>
        split at h
        · exact absurd h (not_stops_ok _)
        · next hexponent =>
          split at h
          · next hmany =>
            have hends : EndsDigits rest := by
              refine (whole?_ends hwhole).resolve_left ?_
              rintro rfl
              exact absurd hmany (by decide)
            exact ⟨ds, rest, rfl, hds, hmany, hends, not_startsReal_iff.2 ⟨hfraction, hexponent⟩⟩
          · exact absurd h (not_stops_ok _)
  · rintro ⟨ds, rest, rfl, h⟩
    obtain ⟨hfraction, hexponent⟩ := not_startsReal_iff.1 h.integer
    refine ⟨.tooManyDigits ds.length, ?_, by simp⟩
    simp only [unsigned, h.whole.whole? h.ends, hfraction, hexponent, if_pos h.many]

theorem exists_of_simple_stops (h : Stops (simple t)) :
    ∃ (negative : Bool) (ds rest : Text), t = (if negative then ['-'] else []) ++ (ds ++ rest) ∧
      TooManyDigits ds rest := by
  unfold simple at h
  split at h
  · exact absurd h (not_stops_ok _)
  · split at h
    · obtain ⟨ds, rest, rfl, hmany⟩ := unsigned_stops_iff.1 h
      exact ⟨true, ds, rest, rfl, hmany⟩
    · obtain ⟨ds, rest, rfl, hmany⟩ := unsigned_stops_iff.1 h
      exact ⟨false, ds, rest, rfl, hmany⟩

theorem string_not_stops (t : Text) : ¬Stops (string t) := by
  have hunits : ∀ done, ¬Stops (stringUnits done t) := by
    intro done
    fun_induction stringUnits done t with
    | case1 => exact not_stops_malformed
    | case2 => exact not_stops_ok _
    | case3 _ _ _ _ _ _ _ _ ih => exact ih
    | case4 => exact not_stops_malformed
    | case5 _ _ _ _ _ _ ih => exact ih
    | case6 => exact not_stops_malformed
    | case7 => exact not_stops_malformed
    | case8 _ _ _ _ _ _ _ ih => exact ih
  intro h
  rcases bind_stops_iff.1 h with h | ⟨⟨ns, rest⟩, -, h⟩
  · exact hunits [] h
  · exact not_stops_ok _ h

/-- The items of an array, up to where a limit is exceeded. -/
def ExceedsItems (depth : Nat) (t : Text) : Prop :=
  ∃ (items : List Item) (gap rest : Text), (∀ i ∈ items, i.IsSpaced) ∧
    (∀ i ∈ items, Spells i.text i.value) ∧ IsGap gap ∧
    t = commas (items.map Item.written) ++ (gap ++ rest) ∧ Exceeds depth rest

/-- The fields of an object, up to where a limit is exceeded. -/
def ExceedsMembers (depth : Nat) (t : Text) : Prop :=
  ∃ (members : List Member) (m : Member) (rest : Text), (∀ m ∈ members, m.IsSpaced) ∧
    (∀ m ∈ members, Spells m.text m.value) ∧ m.IsSpaced ∧
    t = commas (members.map Member.whole) ++ (m.opening ++ rest) ∧ Exceeds depth rest

theorem ExceedsItems.cons {i : Item} (hspaced : i.IsSpaced) (hspells : Spells i.text i.value)
    (h : ExceedsItems depth t) : ExceedsItems depth (i.written ++ ',' :: t) := by
  obtain ⟨items, gap, rest, hitems, hspells', hgap, rfl, hrest⟩ := h
  exact ⟨i :: items, gap, rest, List.forall_mem_cons.2 ⟨hspaced, hitems⟩,
    List.forall_mem_cons.2 ⟨hspells, hspells'⟩, hgap, by simp [commas], hrest⟩

theorem ExceedsMembers.cons {m : Member} (hspaced : m.IsSpaced) (hspells : Spells m.text m.value)
    (h : ExceedsMembers depth t) : ExceedsMembers depth (m.whole ++ ',' :: t) := by
  obtain ⟨members, m', rest, hmembers, hspells', hm', rfl, hrest⟩ := h
  exact ⟨m :: members, m', rest, List.forall_mem_cons.2 ⟨hspaced, hmembers⟩,
    List.forall_mem_cons.2 ⟨hspells, hspells'⟩, hm', by simp [commas], hrest⟩

/-- Where the reader of values stops, a limit is exceeded. -/
def ValueExceeds (n : Nat) : Prop := ∀ depth t, Stops (value n depth t) → Exceeds depth t

/-- So it is where the reader of items stops. A gap that was skipped before the first item belongs to
it. -/
def ItemsExceed (n : Nat) : Prop :=
  ∀ depth done t, Stops (items n depth done t) → ∀ gap, IsGap gap → ExceedsItems depth (gap ++ t)

/-- So it is where the reader of fields stops. -/
def FieldsExceed (n : Nat) : Prop :=
  ∀ depth done t, Stops (fields n depth done t) → ∀ gap, IsGap gap → ExceedsMembers depth (gap ++ t)

theorem value_exceeds (hitems : ItemsExceed n) (hfields : FieldsExceed n) : ValueExceeds (n + 1) := by
  intro depth t h
  unfold value at h
  split at h
  · rcases bind_stops_iff.1 h with h | ⟨⟨ls, rest⟩, -, h⟩
    · exact absurd h (string_not_stops _)
    · exact absurd h (not_stops_ok _)
  · next t =>
    split at h
    · exact .nesting (.inl rfl)
    · obtain ⟨gap, hgap, hcut⟩ := skipGap_sound t
      split at h
      · exact absurd h (not_stops_ok _)
      · obtain ⟨items, gap', rest, hspaced, hspells, hgap', htext, hrest⟩ := hitems _ _ _ h gap hgap
        rw [hcut, htext]
        exact .item hspaced hspells hgap' hrest
  · next t =>
    split at h
    · exact .nesting (.inr rfl)
    · obtain ⟨gap, hgap, hcut⟩ := skipGap_sound t
      split at h
      · exact absurd h (not_stops_ok _)
      · obtain ⟨members, m, rest, hspaced, hspells, hm, htext, hrest⟩ := hfields _ _ _ h gap hgap
        rw [hcut, htext]
        exact .member hspaced hspells hm hrest
  · obtain ⟨negative, ds, rest, rfl, hmany⟩ := exists_of_simple_stops h
    exact .digits hmany

theorem items_exceed (hvalue : ValueExceeds n) (hitems : ItemsExceed n) : ItemsExceed (n + 1) := by
  intro depth done t h gap hgap
  rw [items] at h
  rcases bind_stops_iff.1 h with hstops | ⟨⟨v, after⟩, hv, hstops⟩
  · exact ⟨[], gap, t, by simp, by simp, hgap, rfl, hvalue _ _ hstops⟩
  · obtain ⟨s, rfl, hs⟩ := (readers_sound n).1 _ _ _ _ hv
    obtain ⟨behind, hbehind, hcut⟩ := skipGap_sound after
    dsimp only at hstops
    split at hstops
    · next after' hcomma =>
      obtain ⟨gap', hgap', hcut'⟩ := skipGap_sound after'
      have hmore := (hitems _ _ _ hstops gap' hgap').cons (i := ⟨gap, s, behind, v⟩) ⟨hgap, hbehind⟩ hs
      rw [← hcut'] at hmore
      rw [hcut, hcomma]
      simpa [Item.written] using hmore
    · exact absurd hstops (not_stops_ok _)
    · exact absurd hstops not_stops_malformed

theorem fields_exceed (hvalue : ValueExceeds n) (hfields : FieldsExceed n) : FieldsExceed (n + 1) := by
  intro depth done t h gap hgap
  unfold fields at h
  split at h
  · next t =>
    rcases bind_stops_iff.1 h with h | ⟨⟨key, afterKey⟩, hkey, h⟩
    · exact absurd h (string_not_stops _)
    · obtain ⟨quoted, hquoted, hspelled⟩ := string_sound hkey
      obtain ⟨middle, hmiddle, hcutKey⟩ := skipGap_sound afterKey
      dsimp only at h
      split at h
      · next afterColon hcolon =>
        obtain ⟨before, hbefore, hcutColon⟩ := skipGap_sound afterColon
        rcases bind_stops_iff.1 h with h | ⟨⟨v, after⟩, hv, h⟩
        · refine ⟨[], ⟨⟨before, [], [], .null⟩, gap, quoted, middle, key⟩, _, by simp, by simp,
            ⟨⟨hbefore, by simp [IsGap]⟩, hgap, hmiddle, hspelled⟩, ?_, hvalue _ _ h⟩
          rw [hquoted, hcutKey, hcolon]
          simp [commas, Member.opening, ← hcutColon]
        · obtain ⟨s, hvalueText, hs⟩ := (readers_sound n).1 _ _ _ _ hv
          obtain ⟨behind, hbehind, hcut⟩ := skipGap_sound after
          dsimp only at h
          split at h
          · next after' hcomma =>
            obtain ⟨gap', hgap', hcut'⟩ := skipGap_sound after'
            have hmore := (hfields _ _ _ h gap' hgap').cons
              (m := ⟨⟨before, s, behind, v⟩, gap, quoted, middle, key⟩)
              ⟨⟨hbefore, hbehind⟩, hgap, hmiddle, hspelled⟩ hs
            rw [← hcut'] at hmore
            rw [hquoted, hcutKey, hcolon, hcutColon, hvalueText, hcut, hcomma]
            simpa [Member.whole, Item.written] using hmore
          · exact absurd h (not_stops_ok _)
          · exact absurd h not_stops_malformed
      · exact absurd h not_stops_malformed
  · exact absurd h not_stops_malformed

theorem readers_exceed (n : Nat) : ValueExceeds n ∧ ItemsExceed n ∧ FieldsExceed n := by
  induction n with
  | zero =>
    exact ⟨fun _ _ h => absurd h not_stops_malformed, fun _ _ _ h => absurd h not_stops_malformed,
      fun _ _ _ h => absurd h not_stops_malformed⟩
  | succ n ih =>
    obtain ⟨hvalue, hitems, hfields⟩ := ih
    exact ⟨value_exceeds hitems hfields, items_exceed hvalue hitems, fields_exceed hvalue hfields⟩

theorem Reads.stops {r : Except Fault α} {k : α → Except Fault β} {a : α} (h : Reads r a)
    (hk : Stops (k a)) : Stops (r >>= k) := by
  rcases h with rfl | hlimit
  · exact hk
  · exact bind_stops_iff.2 (.inl hlimit)

theorem Exceeds.startsValue (h : Exceeds depth t) : StartsValue t := by
  cases h with
  | nesting h => rcases h with rfl | rfl <;> exact ⟨_, _, rfl, by decide, by decide⟩
  | digits h =>
    obtain ⟨c, cs, rfl⟩ := List.exists_cons_of_ne_nil h.whole.ne_nil
    exact startsValue_signed _ (h.whole.digits c List.mem_cons_self) _
  | item => exact ⟨'[', _, rfl, by decide, by decide⟩
  | member => exact ⟨'\x7b', _, rfl, by decide, by decide⟩

/-- The reader of values stops here. -/
def ValueStops (depth : Nat) (t : Text) : Prop := ∀ n, 2 * t.length < n → Stops (value n depth t)

/-- The items before the limit are read, or there is a limit in one of them. -/
theorem items_stops {is : List Item} {gap : Text} (hspaced : ∀ i ∈ is, i.IsSpaced)
    (hspells : ∀ i ∈ is, Spells i.text i.value) (hgap : IsGap gap) (hstart : StartsValue rest)
    (hstops : ValueStops depth rest) :
    ∃ gap' s, commas (is.map Item.written) ++ (gap ++ rest) = gap' ++ s ∧ IsGap gap' ∧ StartsValue s ∧
      ∀ n done, 2 * s.length + 1 < n → Stops (items n depth done s) := by
  induction is with
  | nil =>
    refine ⟨gap, rest, rfl, hgap, hstart, ?_⟩
    rintro (_ | n) done hn
    · omega
    · -- the value is read from the same text, with one step less
      rw [items]
      exact bind_stops_iff.2 (.inl (hstops n (by omega)))
  | cons i is ih =>
    obtain ⟨gap', s, hcut, hgap', hs, hmore⟩ := ih (fun j hj => hspaced j (List.mem_cons_of_mem i hj))
      fun j hj => hspells j (List.mem_cons_of_mem i hj)
    have hi := hspaced i List.mem_cons_self
    have hvalue := hspells i List.mem_cons_self
    refine ⟨i.before, i.text ++ (i.behind ++ ',' :: (gap' ++ s)), ?_, hi.before, ?_, ?_⟩
    · rw [← hcut]
      simp [commas, Item.written]
    · obtain ⟨c, cs, hcs, hplain, hclose⟩ := hvalue.startsValue
      exact ⟨c, _, by rw [hcs]; rfl, hplain, hclose⟩
    · rintro (_ | n) done hn
      · omega
      · simp only [List.length_append, List.length_cons] at hn
        rw [items]
        -- the item may exceed a limit itself, and then the reader stops earlier
        refine (hvalue.isRead n depth _ (by omega) ?_).stops ?_
        · exact endsNumber_gap hi.behind
            (endsNumber_cons (by decide) (by decide) (by decide) (by decide) _)
        · simp only
          rw [skipGap_append hi.behind ⟨',', _, rfl, by decide⟩]
          simp only
          rw [skipGap_append hgap' hs.startsPlain]
          exact hmore n _ (by omega)

/-- The fields before the limit are read, or there is a limit in one of them. -/
theorem fields_stops {ms : List Member} {m : Member} (hspaced : ∀ j ∈ ms, j.IsSpaced)
    (hspells : ∀ j ∈ ms, Spells j.text j.value) (hm : m.IsSpaced) (hstart : StartsValue rest)
    (hstops : ValueStops depth rest) :
    ∃ gap s, commas (ms.map Member.whole) ++ (m.opening ++ rest) = gap ++ '"' :: s ∧ IsGap gap ∧
      ∀ n done, 2 * s.length + 3 < n → Stops (fields n depth done ('"' :: s)) := by
  induction ms with
  | nil =>
    obtain ⟨inside, hquoted, -⟩ := hm.quoted.string (m.middle ++ ':' :: (m.before ++ rest))
    refine ⟨m.start, inside, ?_, hm.start, ?_⟩
    · rw [← hquoted]
      simp [commas, Member.opening]
    · rintro (_ | n) done hn
      · omega
      · have hlength := congrArg List.length hquoted
        simp only [List.length_append, List.length_cons] at hlength
        rw [← hquoted, fields_member hm hstart.startsPlain]
        exact bind_stops_iff.2 (.inl (hstops n (by omega)))
  | cons j ms ih =>
    obtain ⟨gap, s, hcut, hgap, hmore⟩ := ih (fun k hk => hspaced k (List.mem_cons_of_mem j hk))
      fun k hk => hspells k (List.mem_cons_of_mem j hk)
    have hj := hspaced j List.mem_cons_self
    have hvalue := hspells j List.mem_cons_self
    obtain ⟨inside, hquoted, -⟩ := hj.quoted.string (j.middle ++ ':' :: (j.before ++ (j.text ++
      (j.behind ++ ',' :: (gap ++ '"' :: s)))))
    refine ⟨j.start, inside, ?_, hj.start, ?_⟩
    · rw [← hquoted, ← hcut]
      simp [commas, Member.whole, Item.written]
    · rintro (_ | n) done hn
      · omega
      · have hlength := congrArg List.length hquoted
        simp only [List.length_append, List.length_cons] at hlength
        rw [← hquoted, fields_member hj (hvalue.startsValue.startsPlain.append _)]
        refine (hvalue.isRead n depth _ (by omega) ?_).stops ?_
        · exact endsNumber_gap hj.behind
            (endsNumber_cons (by decide) (by decide) (by decide) (by decide) _)
        · simp only
          rw [skipGap_append hj.behind ⟨',', _, rfl, by decide⟩]
          simp only
          rw [skipGap_append hgap ⟨'"', s, rfl, by decide⟩]
          exact hmore n _ (by omega)

/-- Where a limit is exceeded the reader of values stops. -/
theorem Exceeds.stops (h : Exceeds depth t) : ValueStops depth t := by
  induction h with
  | nesting h =>
    rintro (_ | n) hn
    · omega
    · rcases h with rfl | rfl
      · exact ⟨.tooDeep "array".toList, rfl, by simp⟩
      · exact ⟨.tooDeep "object".toList, rfl, by simp⟩
  | @digits depth negative ds rest h =>
    rintro (_ | n) hn
    · omega
    · have hunsigned : Stops (unsigned negative (ds ++ rest)) := unsigned_stops_iff.2 ⟨ds, rest, rfl, h⟩
      obtain ⟨c, cs, rfl⟩ := List.exists_cons_of_ne_nil h.whole.ne_nil
      rw [List.cons_append, value_signed negative (h.whole.digits c List.mem_cons_self)]
      exact hunsigned
  | @item depth is gap rest hspaced hspells hgap h ih =>
    rintro (_ | n) hn
    · omega
    · obtain ⟨gap', s, hcut, hgap', hs, hstops⟩ := items_stops hspaced hspells hgap h.startsValue ih
      rw [hcut] at hn ⊢
      rw [value_array hgap' hs]
      simp only [List.length_cons, List.length_append] at hn
      exact hstops n [] (by omega)
  | @member depth ms m rest hspaced hspells hm h ih =>
    rintro (_ | n) hn
    · omega
    · obtain ⟨gap, s, hcut, hgap, hstops⟩ := fields_stops hspaced hspells hm h.startsValue ih
      rw [hcut] at hn ⊢
      rw [value_object hgap]
      simp only [List.length_cons, List.length_append] at hn
      exact hstops n [] (by omega)

/-- A limit is exceeded somewhere in a text. -/
def ExceedsLimits (t : Text) : Prop := ∃ gap rest, IsGap gap ∧ t = gap ++ rest ∧ Exceeds maxDepth rest

/-- The reader stops exactly at the limits. -/
theorem parse_stops_iff : Stops (parse t) ↔ ExceedsLimits t := by
  constructor
  · intro h
    rcases bind_stops_iff.1 h with hstops | ⟨⟨v, rest⟩, -, hstops⟩
    · obtain ⟨gap, hgap, hcut⟩ := skipGap_sound t
      exact ⟨gap, _, hgap, hcut, (readers_exceed _).1 _ _ hstops⟩
    · dsimp only at hstops
      split at hstops
      · exact absurd hstops (not_stops_ok _)
      · exact absurd hstops not_stops_malformed
  · rintro ⟨gap, rest, hgap, rfl, h⟩
    rw [parse, skipGap_append hgap h.startsValue.startsPlain]
    refine bind_stops_iff.2 (.inl (h.stops _ ?_))
    simp only [List.length_append]
    omega

instance (r : Except Fault α) : Decidable (Stops r) :=
  match r with
  | .ok a => isFalse (not_stops_ok a)
  | .error fault => decidable_of_iff (fault ≠ .malformed) (by simp [Stops])

instance (t : Text) : Decidable (ExceedsLimits t) := decidable_of_iff _ parse_stops_iff

theorem parse_eq_ok_iff (h : ¬ExceedsLimits t) : parse t = .ok v ↔ IsDocument t v := by
  refine ⟨isDocument_of_parse, fun hdoc => ?_⟩
  exact hdoc.reads.resolve_right fun hstops => h (parse_stops_iff.1 hstops)

theorem parse_eq_malformed_iff (h : ¬ExceedsLimits t) :
    parse t = .error .malformed ↔ ∀ v, ¬IsDocument t v := by
  constructor
  · intro hparse v hdoc
    rw [(parse_eq_ok_iff h).2 hdoc] at hparse
    cases hparse
  · intro hnone
    cases hparse : parse t with
    | ok v => exact absurd (isDocument_of_parse hparse) (hnone v)
    | error fault =>
      by_cases hfault : fault = .malformed
      · rw [hfault]
      · exact absurd (parse_stops_iff.1 ⟨fault, hparse, hfault⟩) h

end CodeIndex.Json
