import CodeIndex.Proofs.Json.Acceptance
import CodeIndex.Proofs.Text.LineEnds

/-!
# Line ends between values

Line ends can stand in gaps only, and a gap may have any of them. So a text spells the same value
before and after its line ends are unified.

Going there and back is one argument: a change of a text that keeps what has no line end in it, that
makes gaps of gaps, and that changes the two sides of a cut apart from each other.
-/

namespace CodeIndex.Json

/-- A text without line ends. -/
structure IsToken (t : Text) : Prop where
  feed : '\n' ∉ t
  carriage : '\r' ∉ t

/-- A relation between texts that differ in their gaps only. -/
structure Respaces (R : Text → Text → Prop) : Prop where
  token {s t : Text} : R s t → IsToken t → s = t
  gap {s t : Text} : R s t → IsGap t → IsGap s
  cut {s t u : Text} : R s (t ++ u) → Text.IsCut t u → ∃ s₁ s₂, s = s₁ ++ s₂ ∧ R s₁ t ∧ R s₂ u

variable {s t u : Text} {v : Json} {negative : Bool}

theorem isToken_nil : IsToken [] := ⟨List.not_mem_nil, List.not_mem_nil⟩

theorem isToken_cons {c : Char} : IsToken (c :: t) ↔ (c ≠ '\n' ∧ c ≠ '\r') ∧ IsToken t := by
  constructor
  · rintro ⟨hn, hr⟩
    rw [List.mem_cons, not_or] at hn hr
    exact ⟨⟨Ne.symm hn.1, Ne.symm hr.1⟩, hn.2, hr.2⟩
  · rintro ⟨⟨hn, hr⟩, hfeed, hreturn⟩
    exact ⟨by simp [Ne.symm hn, hfeed], by simp [Ne.symm hr, hreturn]⟩

theorem IsToken.append (ht : IsToken t) (hu : IsToken u) : IsToken (t ++ u) :=
  ⟨by simp [ht.feed, hu.feed], by simp [ht.carriage, hu.carriage]⟩

theorem IsToken.isCut (h : IsToken t) (u : Text) : Text.IsCut t u :=
  .inl fun hlast => h.carriage (List.mem_of_getLast? hlast)

theorem IsToken.isCut_before (h : IsToken u) (t : Text) : Text.IsCut t u :=
  .inr fun hhead => h.feed (List.mem_of_head? hhead)

theorem isToken_of_isDigit (h : ∀ c ∈ t, c.isDigit = true) : IsToken t :=
  ⟨fun hmem => absurd (h _ hmem) (by decide), fun hmem => absurd (h _ hmem) (by decide)⟩

theorem SpellsFraction.isToken {fs : Text} (h : SpellsFraction t fs) : IsToken t := by
  cases h with
  | absent => exact isToken_nil
  | present h => exact isToken_cons.2 ⟨by decide, isToken_of_isDigit h.digits⟩

theorem SpellsExponent.isToken {e : Int} (h : SpellsExponent t e) : IsToken t := by
  cases h with
  | absent => exact isToken_nil
  | present hmark hsign h =>
    have hdigits := isToken_of_isDigit h.digits
    rcases hmark with rfl | rfl <;> rcases hsign with rfl | rfl | rfl <;>
      simpa [isToken_cons] using hdigits

theorem SpellsUnsigned.isToken (h : SpellsUnsigned negative t v) : IsToken t := by
  cases h with
  | int h => exact isToken_of_isDigit h.digits
  | real h hf hx => exact (isToken_of_isDigit h.digits).append (hf.isToken.append hx.isToken)

theorem SpellsUnits.isToken {ns : List Nat} (h : SpellsUnits t ns) : IsToken t := by
  induction h with
  | nil => exact isToken_nil
  | plain hcontrol _ _ _ ih =>
    refine isToken_cons.2 ⟨⟨?_, ?_⟩, ih⟩
    · rintro rfl
      exact absurd hcontrol (by decide)
    · rintro rfl
      exact absurd hcontrol (by decide)
  | escape hescaped _ ih =>
    refine isToken_cons.2 ⟨by decide, isToken_cons.2 ⟨⟨?_, ?_⟩, ih⟩⟩
    · rintro rfl
      cases hescaped
    · rintro rfl
      cases hescaped
  | @unit a b c d t n ns hvalue _ ih =>
    have hhex : ∀ {x : Char}, (hexValue? x).isSome = true → x ≠ '\n' ∧ x ≠ '\r' := by
      intro x hx
      constructor
      · rintro rfl
        cases hx
      · rintro rfl
        cases hx
    simp only [unitValue?, bind, Option.bind_eq_some_iff] at hvalue
    obtain ⟨na, ha, nb, hb, nc, hc, nd, hd, -⟩ := hvalue
    simp only [isToken_cons]
    exact ⟨by decide, by decide, hhex (by simp [ha]), hhex (by simp [hb]), hhex (by simp [hc]),
      hhex (by simp [hd]), ih⟩

theorem SpellsString.isToken {ls : Letters} (h : SpellsString t ls) : IsToken t := by
  obtain ⟨inside, ns, hunits, rfl, -⟩ := h
  exact isToken_cons.2 ⟨by decide, hunits.isToken.append (isToken_cons.2 ⟨by decide, isToken_nil⟩)⟩

theorem isToken_word {w : Text × Json} (h : w ∈ words) : IsToken w.1 := by
  simp only [words, List.mem_cons, List.not_mem_nil, or_false] at h
  rcases h with rfl | rfl | rfl | rfl | rfl | rfl <;> exact ⟨by decide, by decide⟩

theorem isToken_singleton {c : Char} (hfeed : c ≠ '\n') (hreturn : c ≠ '\r') : IsToken [c] :=
  isToken_cons.2 ⟨⟨hfeed, hreturn⟩, isToken_nil⟩

theorem isCut_bracketed {left right : Char} (hright : right ≠ '\r') (t u : Text) :
    Text.IsCut (left :: (t ++ [right])) u := by
  refine .inl ?_
  rw [← List.cons_append, List.getLast?_concat]
  simpa using hright

/-- A cut behind a value separates nothing. -/
theorem Spells.isCut (h : Spells t v) (u : Text) : Text.IsCut t u := by
  cases h with
  | word h => exact (isToken_word h).isCut u
  | @number negative t v h =>
    refine IsToken.isCut (.append ?_ h.isToken) u
    cases negative
    · exact isToken_nil
    · exact isToken_singleton (by decide) (by decide)
  | string h => exact h.isToken.isCut u
  | emptyArray => exact isCut_bracketed (by decide) _ u
  | array => exact isCut_bracketed (by decide) _ u
  | emptyObject => exact isCut_bracketed (by decide) _ u
  | object => exact isCut_bracketed (by decide) _ u

/-- A cut before something that is no gap separates nothing. -/
theorem StartsPlain.isCut (h : StartsPlain u) (t : Text) : Text.IsCut t u := by
  obtain ⟨c, cs, rfl, hc⟩ := h
  refine .inr fun hhead => ?_
  cases Option.some.inj hhead
  cases hc

namespace Respaces

variable {R : Text → Text → Prop} {α β : Type}

theorem token_append (hR : Respaces R) (ht : IsToken t) (h : R s (t ++ u)) :
    ∃ s', s = t ++ s' ∧ R s' u := by
  obtain ⟨s₁, s₂, rfl, h₁, h₂⟩ := hR.cut h (ht.isCut u)
  exact ⟨s₂, by rw [hR.token h₁ ht], h₂⟩

theorem append_token (hR : Respaces R) (hu : IsToken u) (h : R s (t ++ u)) :
    ∃ s', s = s' ++ u ∧ R s' t := by
  obtain ⟨s₁, s₂, rfl, h₁, h₂⟩ := hR.cut h (hu.isCut_before t)
  exact ⟨s₁, by rw [hR.token h₂ hu], h₁⟩

theorem gap_append (hR : Respaces R) (ht : IsGap t) (hu : StartsPlain u) (h : R s (t ++ u)) :
    ∃ s₁ s₂, s = s₁ ++ s₂ ∧ IsGap s₁ ∧ R s₂ u := by
  obtain ⟨s₁, s₂, rfl, h₁, h₂⟩ := hR.cut h (hu.isCut t)
  exact ⟨s₁, s₂, rfl, hR.gap h₁ ht, h₂⟩

/-- What stands between two brackets. -/
theorem bracketed (hR : Respaces R) {left right : Char} (hleft : IsToken [left])
    (hright : IsToken [right]) (h : R s (left :: (t ++ [right]))) :
    ∃ s', s = left :: (s' ++ [right]) ∧ R s' t := by
  obtain ⟨s₁, rfl, h₁⟩ := hR.token_append hleft h
  obtain ⟨s₂, rfl, h₂⟩ := hR.append_token hright h₁
  exact ⟨s₂, rfl, h₂⟩

/-- A value with the gaps around it. -/
theorem item (hR : Respaces R) {i : Item} (hi : i.IsSpaced) (hspells : Spells i.text i.value)
    (ih : ∀ s, R s i.text → Spells s i.value) (h : R s i.written) :
    ∃ j : Item, s = j.written ∧ (j.IsSpaced ∧ Spells j.text j.value) ∧ j.value = i.value := by
  obtain ⟨before, s', rfl, hbefore, h'⟩ :=
    hR.gap_append hi.before (hspells.startsValue.startsPlain.append i.behind) h
  obtain ⟨text, behind, rfl, htext, hbehind⟩ := hR.cut h' (hspells.isCut i.behind)
  exact ⟨⟨before, text, behind, i.value⟩, rfl, ⟨⟨hbefore, hR.gap hbehind hi.behind⟩, ih text htext⟩, rfl⟩

/-- A key and a value with the gaps around both. -/
theorem member (hR : Respaces R) {m : Member} (hm : m.IsSpaced) (hspells : Spells m.text m.value)
    (ih : ∀ s, R s m.text → Spells s m.value) (h : R s m.whole) :
    ∃ j : Member, s = j.whole ∧ (j.IsSpaced ∧ Spells j.text j.value) ∧ j.field = m.field := by
  have hstart : StartsPlain m.quoted := by
    obtain ⟨inside, ns, -, hquoted, -⟩ := hm.quoted
    exact ⟨'"', _, hquoted, by decide⟩
  obtain ⟨start, s₁, rfl, hstart', h₁⟩ := hR.gap_append hm.start (hstart.append _) h
  obtain ⟨s₂, rfl, h₂⟩ := hR.token_append hm.quoted.isToken h₁
  obtain ⟨middle, s₃, rfl, hmiddle, h₃⟩ := hR.gap_append hm.middle ⟨':', _, rfl, by decide⟩ h₂
  obtain ⟨s₄, rfl, h₄⟩ := hR.token_append (isToken_singleton (c := ':') (by decide) (by decide)) h₃
  obtain ⟨j, rfl, ⟨hj, hj'⟩, hvalue⟩ := hR.item hm.toIsSpaced hspells ih h₄
  refine ⟨⟨j, start, m.quoted, middle, m.key⟩, rfl, ⟨⟨hj, hstart', hmiddle, hm.quoted⟩, hj'⟩, ?_⟩
  exact congrArg (m.key, ·) hvalue

/-- What is separated by commas is changed part by part. -/
theorem joined (hR : Respaces R) {write : α → Text} {f : α → β} {P : α → Prop} {xs : List α}
    (hne : xs ≠ [])
    (hone : ∀ x ∈ xs, ∀ s, R s (write x) → ∃ y, s = write y ∧ P y ∧ f y = f x)
    (h : R s ([','].intercalate (xs.map write))) :
    ∃ ys, ys ≠ [] ∧ s = [','].intercalate (ys.map write) ∧ (∀ y ∈ ys, P y) ∧ ys.map f = xs.map f := by
  have hcomma : IsToken [','] := isToken_singleton (by decide) (by decide)
  induction xs generalizing s with
  | nil => exact absurd rfl hne
  | cons x xs ih =>
    cases xs with
    | nil =>
      obtain ⟨y, rfl, hy, hf⟩ := hone x List.mem_cons_self s (by simpa [List.intercalate] using h)
      exact ⟨[y], by simp, by simp [List.intercalate], by simpa using hy, by simp [hf]⟩
    | cons x' xs =>
      simp only [List.map_cons, intercalate_cons] at h
      -- a part may end with a carriage return, but a comma follows it
      obtain ⟨s₁, s₂, rfl, h₁, h₂⟩ := hR.cut h (.inr (by simp))
      obtain ⟨s₃, rfl, h₃⟩ := hR.token_append hcomma h₂
      obtain ⟨y, rfl, hy, hf⟩ := hone x List.mem_cons_self s₁ h₁
      obtain ⟨ys, hys, rfl, hP, hmap⟩ :=
        ih (by simp) (fun z hz => hone z (List.mem_cons_of_mem x hz)) h₃
      obtain ⟨y', ys, rfl⟩ := List.exists_cons_of_ne_nil hys
      refine ⟨y :: y' :: ys, by simp, ?_, List.forall_mem_cons.2 ⟨hy, hP⟩, ?_⟩
      · simp only [List.map_cons, intercalate_cons]
      · rw [List.map_cons, hf, hmap]
        rfl

/-- Texts that differ in their gaps spell the same values. -/
theorem spells (hR : Respaces R) (h : Spells t v) : ∀ s, R s t → Spells s v := by
  have hsquare : IsToken ['['] ∧ IsToken [']'] :=
    ⟨isToken_singleton (by decide) (by decide), isToken_singleton (by decide) (by decide)⟩
  have hcurly : IsToken ['\x7b'] ∧ IsToken ['\x7d'] :=
    ⟨isToken_singleton (by decide) (by decide), isToken_singleton (by decide) (by decide)⟩
  induction h with
  | word h =>
    intro s hs
    exact hR.token hs (isToken_word h) ▸ .word h
  | @number negative t v h =>
    intro s hs
    have hsign : IsToken (if negative then ['-'] else []) := by
      cases negative
      · exact isToken_nil
      · exact isToken_singleton (by decide) (by decide)
    exact hR.token hs (hsign.append h.isToken) ▸ .number h
  | string h =>
    intro s hs
    exact hR.token hs h.isToken ▸ .string h
  | emptyArray hgap =>
    intro s hs
    obtain ⟨gap, rfl, hgap'⟩ := hR.bracketed hsquare.1 hsquare.2 hs
    exact .emptyArray (hR.gap hgap' hgap)
  | array hne hspaced hspells ih =>
    intro s hs
    obtain ⟨inside, rfl, hinside⟩ := hR.bracketed hsquare.1 hsquare.2 hs
    obtain ⟨items, hne', rfl, hitems, hvalues⟩ := hR.joined hne
      (fun i hi s hs => hR.item (hspaced i hi) (hspells i hi) (ih i hi) hs) hinside
    rw [← hvalues]
    exact .array hne' (fun i hi => (hitems i hi).1) fun i hi => (hitems i hi).2
  | emptyObject hgap =>
    intro s hs
    obtain ⟨gap, rfl, hgap'⟩ := hR.bracketed hcurly.1 hcurly.2 hs
    exact .emptyObject (hR.gap hgap' hgap)
  | object hne hspaced hspells ih =>
    intro s hs
    obtain ⟨inside, rfl, hinside⟩ := hR.bracketed hcurly.1 hcurly.2 hs
    obtain ⟨members, hne', rfl, hmembers, hfields⟩ := hR.joined hne
      (fun m hm s hs => hR.member (hspaced m hm) (hspells m hm) (ih m hm) hs) hinside
    rw [← hfields]
    exact .object hne' (fun m hm => (hmembers m hm).1) fun m hm => (hmembers m hm).2

theorem isDocument (hR : Respaces R) (h : IsDocument t v) (hs : R s t) : IsDocument s v := by
  obtain ⟨before, text, behind, hbefore, hbehind, rfl, hspells⟩ := h
  obtain ⟨j, rfl, ⟨hj, hj'⟩, rfl⟩ := hR.item (i := ⟨before, text, behind, v⟩) ⟨hbefore, hbehind⟩ hspells
    (hR.spells hspells) hs
  exact ⟨j.before, j.text, j.behind, hj.before, hj.behind, rfl, hj'⟩

end Respaces

/-- Unifying line ends changes gaps only. -/
theorem respaces_unified : Respaces fun s t => Text.unifyLineEnds t = s where
  token := by
    rintro s t rfl ht
    exact Text.unifyLineEnds_of_notMem ht.carriage
  gap := by
    rintro s t rfl ht c hc
    rw [Text.unifyLineEnds_eq] at hc
    rcases Text.mem_of_mem_unifyFrom hc with rfl | hc
    · rfl
    · exact ht c hc
  cut := by
    rintro s t u rfl hcut
    exact ⟨_, _, Text.unifyLineEnds_append hcut, rfl, rfl⟩

/-- So does going back. -/
theorem respaces_original : Respaces fun s t => Text.unifyLineEnds s = t where
  token := by
    rintro s t rfl ht
    refine (Text.unifyLineEnds_of_notMem fun hmem => ht.feed ?_).symm
    rw [Text.unifyLineEnds_eq]
    exact Text.feed_mem_unifyFrom hmem
  gap := by
    rintro s t rfl ht c hc
    by_cases hreturn : c = '\r'
    · rw [hreturn]
      rfl
    · by_cases hfeed : c = '\n'
      · rw [hfeed]
        rfl
      · rw [Text.unifyLineEnds_eq] at ht
        exact ht c (Text.mem_unifyFrom_of_mem hc hreturn hfeed)
  cut := by
    intro s t u h _
    obtain ⟨s₁, s₂, hs, h₁, h₂⟩ := Text.exists_of_unifyLineEnds h
    exact ⟨s₁, s₂, hs, h₁, h₂⟩

/-- A text spells the same value before and after its line ends are unified. -/
theorem isDocument_unifyLineEnds : IsDocument (Text.unifyLineEnds t) v ↔ IsDocument t v :=
  ⟨fun h => respaces_original.isDocument h rfl, fun h => respaces_unified.isDocument h rfl⟩

end CodeIndex.Json
