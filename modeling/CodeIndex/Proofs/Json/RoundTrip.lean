import CodeIndex.Proofs.Action
import CodeIndex.Proofs.Json.Fields
import CodeIndex.Proofs.Json.Numbers
import CodeIndex.Proofs.Json.Strings

/-!
# Reading what was written

Values that can be read at all are read back from the text they are written as, and reading gives
only such values.
-/

namespace CodeIndex.Json

variable {t rest : Text} {v : Json} {style : Style} {level depth n : Nat} {c : Char}

/-- A value as reading leaves it: its integers are not too long, its doubles are those of a machine,
its strings are joined, and no key occurs twice. -/
inductive Readable : Json → Prop
  | null : Readable .null
  | bool (b : Bool) : Readable (.bool b)
  | int (k : Int) (h : (Decimal.natText k.natAbs).length ≤ maxDigits) : Readable (.int k)
  | real (x : Double) (h : x.IsCanonical) : Readable (.real x)
  | str (ls : Letters) (h : IsJoined ls) : Readable (.str ls)
  | arr (items : List Json) (h : ∀ v ∈ items, Readable v) : Readable (.arr items)
  | obj (fields : Fields) (nodup : (keys fields).Nodup) (joined : ∀ f ∈ fields, IsJoined f.1)
      (h : ∀ f ∈ fields, Readable f.2) : Readable (.obj fields)

theorem readable_text (t : Text) : Readable (.text t) := .str _ (isJoined_letters t)

/-- A text that starts with something else than a gap. -/
def StartsPlain (t : Text) : Prop := ∃ c cs, t = c :: cs ∧ isGap c = false

theorem skipGap_of_startsPlain (h : StartsPlain t) : skipGap t = t := by
  obtain ⟨c, cs, rfl, hc⟩ := h
  exact List.dropWhile_cons_of_neg (by simp [hc])

theorem StartsPlain.append (h : StartsPlain t) (rest : Text) : StartsPlain (t ++ rest) := by
  obtain ⟨c, cs, rfl, hc⟩ := h
  exact ⟨c, cs ++ rest, rfl, hc⟩

theorem skipGap_append (ht : ∀ c ∈ t, isGap c = true) (hrest : StartsPlain rest) :
    skipGap (t ++ rest) = rest := by
  rw [skipGap, List.dropWhile_append_of_pos ht]
  exact skipGap_of_startsPlain hrest

theorem isGap_lineStart (style : Style) (level : Nat) : ∀ c ∈ style.lineStart level, isGap c = true := by
  intro c hc
  unfold Style.lineStart at hc
  split at hc
  · cases hc
  · rcases List.mem_cons.1 hc with rfl | hc
    · rfl
    · rw [(List.mem_replicate.1 hc).2]
      rfl

/-- A separator is a comma with a gap behind it. -/
theorem separator_eq (style : Style) (level : Nat) :
    ∃ gap, style.separator level = ',' :: gap ∧ ∀ c ∈ gap, isGap c = true := by
  unfold Style.separator
  split
  · exact ⟨[' '], rfl, List.forall_mem_singleton.2 rfl⟩
  · exact ⟨_, rfl, isGap_lineStart style level⟩

theorem endsNumber_cons (hdigit : c.isDigit = false) (hpoint : c ≠ '.') (hlower : c ≠ 'e')
    (hupper : c ≠ 'E') (rest : Text) : EndsNumber (c :: rest) :=
  ⟨endsDigits_cons hdigit rest, by simpa using hpoint, by simpa using hlower, by simpa using hupper⟩

theorem endsNumber_nil : EndsNumber [] := by
  refine ⟨?_, ?_, ?_, ?_⟩ <;> simp [EndsDigits]

theorem endsNumber_of_gap (h : isGap c = true) (rest : Text) : EndsNumber (c :: rest) := by
  simp only [isGap, Bool.or_eq_true, beq_iff_eq] at h
  rcases h with ((rfl | rfl) | rfl) | rfl <;>
    exact endsNumber_cons (by decide) (by decide) (by decide) (by decide) rest

theorem endsNumber_lineStart (style : Style) (level : Nat) (hrest : EndsNumber rest) :
    EndsNumber (style.lineStart level ++ rest) := by
  have hgap := isGap_lineStart style level
  cases hline : style.lineStart level with
  | nil => exact hrest
  | cons c cs =>
    rw [hline] at hgap
    exact endsNumber_of_gap (hgap c List.mem_cons_self) _

/-- A text that starts as a value does: neither with a gap nor with the end of an array. -/
def StartsValue (t : Text) : Prop := ∃ c cs, t = c :: cs ∧ isGap c = false ∧ c ≠ ']'

theorem StartsValue.startsPlain (h : StartsValue t) : StartsPlain t := by
  obtain ⟨c, cs, rfl, hc, -⟩ := h
  exact ⟨c, cs, rfl, hc⟩

theorem head_of_simple {r : Json × Text} (h : simple t = .ok r) :
    StartsValue t ∧ t.head? ≠ some '"' ∧ t.head? ≠ some '[' ∧ t.head? ≠ some '\x7b' := by
  have hbad : ∀ c ∈ [' ', '\t', '\n', '\r', ']', '"', '[', '\x7b'], ∀ cs,
      simple (c :: cs) ≠ .ok r := by
    intro c hc cs
    simp only [List.mem_cons, List.not_mem_nil, or_false] at hc
    rcases hc with rfl | rfl | rfl | rfl | rfl | rfl | rfl | rfl <;>
      simp [simple, words, List.isPrefixOf, unsigned, whole?, digits]
  cases t with
  | nil => simp [simple, words, List.isPrefixOf, unsigned, whole?, digits] at h
  | cons c cs =>
    have hc : c ∉ [' ', '\t', '\n', '\r', ']', '"', '[', '\x7b'] := fun hc => hbad c hc cs h
    simp only [List.mem_cons, List.not_mem_nil, or_false, not_or] at hc
    exact ⟨⟨c, cs, rfl, by simp [isGap, hc], hc.2.2.2.2.1⟩, by simp [hc], by simp [hc], by simp [hc]⟩

theorem value_of_simple {r : Json × Text} (h : simple t = .ok r) : value (n + 1) depth t = .ok r := by
  obtain ⟨-, hquote, hbracket, hbrace⟩ := head_of_simple h
  rw [value]
  · exact h
  all_goals
    rintro rest rfl
    simp_all

/-- Whether a value is neither a string nor composed. -/
def isSimple : Json → Bool
  | str _ | arr _ | obj _ => false
  | _ => true

theorem simple_render (h : Readable v) (hsimple : v.isSimple = true) (style : Style) (level : Nat)
    (hrest : EndsNumber rest) : simple (render style level v ++ rest) = .ok (v, rest) := by
  cases h with
  | null => simp [render, simple, words, List.isPrefixOf]
  | bool b => cases b <;> simp [render, simple, words, List.isPrefixOf]
  | int k hk => exact simple_intText k hk hrest
  | real x hx => exact simple_realText hx hrest
  | str | arr | obj => cases hsimple

theorem startsValue_render (h : Readable v) (style : Style) (level : Nat) :
    StartsValue (render style level v) := by
  cases hsimple : v.isSimple with
  | true =>
    have hread := simple_render h hsimple style level endsNumber_nil
    simpa using (head_of_simple hread).1
  | false =>
    cases h with
    | str ls => exact ⟨'"', _, rfl, by decide, by decide⟩
    | arr vs => cases vs <;> exact ⟨'[', _, rfl, by decide, by decide⟩
    | obj fields => rcases fields with _ | ⟨f, fields⟩ <;> exact ⟨'\x7b', _, rfl, by decide, by decide⟩
    | _ => cases hsimple

theorem depthOfItems_le {vs : List Json} {k : Nat} :
    depthOfItems vs ≤ k ↔ ∀ v ∈ vs, v.depth ≤ k := by
  induction vs with
  | nil => simp [depthOfItems]
  | cons v vs ih => simp [depthOfItems, ih]

theorem depthOfFields_le {fields : Fields} {k : Nat} :
    depthOfFields fields ≤ k ↔ ∀ f ∈ fields, f.2.depth ≤ k := by
  induction fields with
  | nil => simp [depthOfFields]
  | cons f fields ih => simp [depthOfFields, ih]

/-- A value is read back wherever it stands. -/
def ReadsBack (style : Style) (v : Json) : Prop :=
  ∀ level n depth rest, v.depth ≤ depth → (render style level v).length < n → EndsNumber rest →
    value n depth (render style level v ++ rest) = .ok (v, rest)

/-- What follows an item: another one, or the end of the array. -/
theorem endsNumber_items (style : Style) (level k : Nat) (vs : List Json) (tail : Text) :
    EndsNumber (renderItems style level vs ++ (style.lineStart k ++ ']' :: tail)) := by
  cases vs with
  | nil =>
    exact endsNumber_lineStart style k
      (endsNumber_cons (by decide) (by decide) (by decide) (by decide) tail)
  | cons v vs =>
    obtain ⟨gap, hgap, -⟩ := separator_eq style level
    simp only [renderItems, hgap, List.cons_append]
    exact endsNumber_cons (by decide) (by decide) (by decide) (by decide) _

theorem items_render {vs : List Json} {k : Nat} (h : Readable v) (hvs : ∀ w ∈ vs, Readable w)
    (hv : ReadsBack style v) (hback : ∀ w ∈ vs, ReadsBack style w)
    (hdepth : depthOfItems (v :: vs) ≤ depth)
    (hn : (render style level v).length + (renderItems style level vs).length + 1 < n)
    (done : List Json) (tail : Text) :
    items n depth done (render style level v ++ (renderItems style level vs ++
      (style.lineStart k ++ ']' :: tail))) = .ok (.arr (done.reverse ++ v :: vs), tail) := by
  induction vs generalizing v n done with
  | nil =>
    obtain ⟨n, rfl⟩ := Nat.exists_eq_add_one_of_ne_zero (by omega : n ≠ 0)
    have hread := hv level n depth _ (depthOfItems_le.1 hdepth v List.mem_cons_self) (by omega)
      (endsNumber_items style level k [] tail)
    have hend : StartsPlain (']' :: tail) := ⟨']', tail, rfl, by decide⟩
    rw [Json.items, hread]
    simp only [renderItems, List.nil_append, bind, Except.bind, pure, Except.pure]
    rw [skipGap_append (isGap_lineStart style k) hend]
    simp
  | cons w vs ih =>
    obtain ⟨n, rfl⟩ := Nat.exists_eq_add_one_of_ne_zero (by omega : n ≠ 0)
    obtain ⟨gap, hgap, hgaps⟩ := separator_eq style level
    simp only [renderItems, hgap, List.length_append, List.length_cons] at hn
    have hread := hv level n depth _ (depthOfItems_le.1 hdepth v List.mem_cons_self) (by omega)
      (endsNumber_items style level k (w :: vs) tail)
    have hw := hvs w List.mem_cons_self
    have hnext := ih hw (fun u hu => hvs u (List.mem_cons_of_mem _ hu)) (hback w List.mem_cons_self)
      (fun u hu => hback u (List.mem_cons_of_mem _ hu))
      (depthOfItems_le.2 fun u hu => depthOfItems_le.1 hdepth u (List.mem_cons_of_mem _ hu))
      (by omega : _ < n) (v :: done)
    have hstart := ((startsValue_render hw style level).startsPlain.append (renderItems style level vs ++
      (style.lineStart k ++ ']' :: tail)))
    rw [Json.items, hread]
    simp only [renderItems, hgap, List.cons_append, List.append_assoc, bind, Except.bind]
    rw [skipGap_of_startsPlain ⟨',', _, rfl, by decide⟩]
    simp only
    rw [skipGap_append hgaps hstart, hnext]
    simp

theorem endsNumber_fields (style : Style) (level k : Nat) (fs : Fields) (tail : Text) :
    EndsNumber (renderFields style level fs ++ (style.lineStart k ++ '\x7d' :: tail)) := by
  cases fs with
  | nil =>
    exact endsNumber_lineStart style k
      (endsNumber_cons (by decide) (by decide) (by decide) (by decide) tail)
  | cons f fs =>
    obtain ⟨gap, hgap, -⟩ := separator_eq style level
    simp only [renderFields, hgap, List.cons_append]
    exact endsNumber_cons (by decide) (by decide) (by decide) (by decide) _

/-- One field is read, up to what follows its value. -/
theorem field_render {key : Letters} (hkey : IsJoined key) (h : Readable v) (hv : ReadsBack style v)
    (hdepth : v.depth ≤ depth) (hn : (render style level v).length < n) (hrest : EndsNumber rest)
    (done : Fields) :
    fields (n + 1) depth done (stringText key ++ (':' :: ' ' :: (render style level v ++ rest))) =
      match skipGap rest with
      | ',' :: rest => fields n depth ((key, v) :: done) (skipGap rest)
      | '\x7d' :: rest => .ok (ofFields ((key, v) :: done).reverse, rest)
      | _ => .error .malformed := by
  have hstart := (startsValue_render h style level).startsPlain.append rest
  have hcolon : StartsPlain (':' :: ' ' :: (render style level v ++ rest)) :=
    ⟨':', _, rfl, by decide⟩
  have hblank : skipGap (' ' :: (render style level v ++ rest)) = render style level v ++ rest :=
    skipGap_append (t := [' ']) (List.forall_mem_singleton.2 rfl) hstart
  rw [stringText, List.cons_append, List.cons_append, List.append_assoc, List.singleton_append,
    Json.fields, string_letters hkey]
  simp only [bind, Except.bind, skipGap_of_startsPlain hcolon]
  rw [hblank, hv level n depth rest hdepth hn hrest]
  rfl

theorem fields_render {f : Letters × Json} {fs : Fields} {k : Nat}
    (hjoined : ∀ g ∈ f :: fs, IsJoined g.1) (h : ∀ g ∈ f :: fs, Readable g.2)
    (hback : ∀ g ∈ f :: fs, ReadsBack style g.2) (hdepth : depthOfFields (f :: fs) ≤ depth)
    (hn : (render style level f.2).length + (renderFields style level fs).length + 1 < n)
    (done : Fields) (tail : Text) :
    fields n depth done (stringText f.1 ++ (':' :: ' ' :: (render style level f.2 ++
      (renderFields style level fs ++ (style.lineStart k ++ '\x7d' :: tail))))) =
      .ok (ofFields (done.reverse ++ f :: fs), tail) := by
  induction fs generalizing f n done with
  | nil =>
    obtain ⟨n, rfl⟩ := Nat.exists_eq_add_one_of_ne_zero (by omega : n ≠ 0)
    have hend : StartsPlain ('\x7d' :: tail) := ⟨'\x7d', tail, rfl, by decide⟩
    rw [field_render (hjoined f List.mem_cons_self) (h f List.mem_cons_self)
      (hback f List.mem_cons_self) (depthOfFields_le.1 hdepth f List.mem_cons_self) (by omega)
      (endsNumber_fields style level k [] tail)]
    simp only [renderFields, List.nil_append]
    rw [skipGap_append (isGap_lineStart style k) hend]
    simp
  | cons g fs ih =>
    obtain ⟨n, rfl⟩ := Nat.exists_eq_add_one_of_ne_zero (by omega : n ≠ 0)
    obtain ⟨gap, hgap, hgaps⟩ := separator_eq style level
    simp only [renderFields, hgap, List.length_append, List.length_cons] at hn
    have hnext := ih (fun u hu => hjoined u (List.mem_cons_of_mem _ hu))
      (fun u hu => h u (List.mem_cons_of_mem _ hu)) (fun u hu => hback u (List.mem_cons_of_mem _ hu))
      (depthOfFields_le.2 fun u hu => depthOfFields_le.1 hdepth u (List.mem_cons_of_mem _ hu))
      (by omega : _ < n) (f :: done)
    have hstart : StartsPlain (stringText g.1 ++ (':' :: ' ' :: (render style level g.2 ++
        (renderFields style level fs ++ (style.lineStart k ++ '\x7d' :: tail))))) :=
      ⟨'"', _, rfl, by decide⟩
    rw [field_render (hjoined f List.mem_cons_self) (h f List.mem_cons_self)
      (hback f List.mem_cons_self) (depthOfFields_le.1 hdepth f List.mem_cons_self) (by omega)
      (endsNumber_fields style level k (g :: fs) tail)]
    simp only [renderFields, hgap, List.cons_append, List.nil_append, List.append_assoc]
    rw [skipGap_of_startsPlain ⟨',', _, rfl, by decide⟩]
    simp only
    rw [skipGap_append hgaps hstart, hnext]
    simp

theorem value_array {gap : Text} (hgap : ∀ c ∈ gap, isGap c = true) (h : StartsValue t) :
    value (n + 1) (depth + 1) ('[' :: (gap ++ t)) = items n depth [] t := by
  obtain ⟨c, cs, rfl, hplain, hc⟩ := h
  rw [value, skipGap_append hgap ⟨c, cs, rfl, hplain⟩]
  split
  · next heq => exact absurd (List.cons.inj heq).1 hc
  · rfl

theorem value_object {gap : Text} (hgap : ∀ c ∈ gap, isGap c = true) :
    value (n + 1) (depth + 1) ('\x7b' :: (gap ++ '"' :: t)) = fields n depth [] ('"' :: t) := by
  rw [value, skipGap_append hgap ⟨'"', t, rfl, by decide⟩]
  rfl

/-- Values that can be read are read back. -/
theorem Readable.readsBack (h : Readable v) (style : Style) : ReadsBack style v := by
  induction h with
  | str ls hls =>
    rintro level (_ | n) depth rest - hn -
    · simp at hn
    · rw [render, stringText, List.cons_append, List.cons_append, List.append_assoc,
        List.singleton_append, value, string_letters hls]
      rfl
  | arr vs hvs ih =>
    rintro level (_ | n) (_ | depth) rest hdepth hn -
    · simp at hn
    · simp at hn
    · simp [Json.depth] at hdepth
    cases vs with
    | nil => rfl
    | cons v vs =>
      have hv := hvs v List.mem_cons_self
      simp only [render, List.length_cons, List.length_append, List.length_nil] at hn
      have hfuel : (render style (level + 1) v).length +
          (renderItems style (level + 1) vs).length + 1 < n := by omega
      have hitems := items_render (k := level) hv (fun w hw => hvs w (List.mem_cons_of_mem _ hw))
        (ih v List.mem_cons_self) (fun w hw => ih w (List.mem_cons_of_mem _ hw))
        (Nat.le_of_succ_le_succ hdepth) hfuel [] rest
      simp only [render, List.cons_append, List.append_assoc, List.nil_append]
      rw [value_array (isGap_lineStart style (level + 1)), hitems]
      · rfl
      · obtain ⟨c, cs, hcs, hplain, hc⟩ := startsValue_render hv style (level + 1)
        exact ⟨c, _, by rw [hcs]; rfl, hplain, hc⟩
  | obj fs hnodup hjoined hfs ih =>
    rintro level (_ | n) (_ | depth) rest hdepth hn -
    · simp at hn
    · simp at hn
    · simp [Json.depth] at hdepth
    cases fs with
    | nil => rfl
    | cons f fs =>
      simp only [render, List.length_cons, List.length_append, List.length_nil] at hn
      have hfuel : (render style (level + 1) f.2).length +
          (renderFields style (level + 1) fs).length + 1 < n := by omega
      have hfields := fields_render (k := level) hjoined hfs ih (Nat.le_of_succ_le_succ hdepth)
        hfuel [] rest
      rw [List.reverse_nil, List.nil_append, ofFields_of_nodup hnodup] at hfields
      simp only [render, List.cons_append, List.append_assoc, List.nil_append]
      exact (value_object (isGap_lineStart style (level + 1))).trans hfields
  | null | bool | int | real =>
    rintro level (_ | n) depth rest - hn hrest
    · simp at hn
    · exact value_of_simple (simple_render (by constructor <;> assumption) rfl style level hrest)

/-- What is written is read back. -/
theorem parse_write (h : Readable v) (hdepth : v.depth ≤ maxDepth) (style : Style) :
    parse (write style v) = .ok v := by
  have hread := h.readsBack style 0 (2 * (render style 0 v).length + 1) maxDepth [] hdepth (by omega)
    endsNumber_nil
  rw [List.append_nil] at hread
  rw [parse, write, skipGap_of_startsPlain (startsValue_render h style 0).startsPlain, hread]
  rfl

theorem isDigit_of_whole? {ds : Text} (h : whole? t = some (ds, rest)) :
    ∀ c ∈ ds, c.isDigit = true := by
  unfold whole? at h
  split at h
  · cases h
    exact List.forall_mem_singleton.2 rfl
  · split at h
    · cases h
    · cases h
      exact fun c hc => List.mem_takeWhile_imp hc

theorem readable_integer {ds : Text} (hds : ∀ c ∈ ds, c.isDigit = true)
    (hsize : ds.length ≤ maxDigits) (negative : Bool) :
    Readable (.int (if negative then -(Decimal.natOfText ds : Int) else Decimal.natOfText ds)) := by
  refine .int _ ((Decimal.length_natText_le_iff (by decide)).2 ?_)
  have hlt := (Decimal.natOfText_lt hds).trans_le (Nat.pow_le_pow_right (by decide) hsize)
  split <;> simpa using hlt

theorem readable_unsigned {negative : Bool} (h : unsigned negative t = .ok (v, rest)) :
    Readable v := by
  unfold unsigned at h
  split at h
  · cases h
  · next hwhole =>
    split at h
    · cases h
      exact .real _ (Decimal.isCanonical_toDouble _ _)
    · split at h
      · cases h
        exact .real _ (Decimal.isCanonical_toDouble _ _)
      · split at h
        · cases h
        · next hsize =>
          cases h
          exact readable_integer (isDigit_of_whole? hwhole) (not_lt.1 hsize) negative

theorem readable_simple (h : simple t = .ok (v, rest)) : Readable v := by
  unfold simple at h
  split at h
  · next word w hfind =>
    have hmem := List.mem_of_find?_eq_some hfind
    have hall : ∀ w ∈ words, Readable w.2 := by
      simp only [words, List.forall_mem_cons]
      exact ⟨.null, .bool _, .bool _, .real _ trivial, .real _ trivial, .real _ trivial, by simp⟩
    cases h
    exact hall _ hmem
  · split at h <;> exact readable_unsigned h

theorem readable_ofFields {fs : Fields} (h : ∀ f ∈ fs, IsJoined f.1 ∧ Readable f.2) :
    Readable (ofFields fs) := by
  have hnone : ∀ f ∈ ([] : Fields), IsJoined f.1 ∧ Readable f.2 := by simp
  obtain ⟨hall, hnodup⟩ := foldl_setField_spec hnone h List.nodup_nil
  exact .obj _ hnodup (fun f hf => (hall f hf).1) fun f hf => (hall f hf).2

/-- Whatever is read can be read back. The bound on the way goes down with every value, item and
field, and the three readers call each other only with less of it. -/
theorem readable_of_readers (n : Nat) :
    (∀ depth t v rest, value n depth t = .ok (v, rest) → Readable v) ∧
    (∀ depth done t v rest, (∀ w ∈ done, Readable w) → items n depth done t = .ok (v, rest) →
      Readable v) ∧
    (∀ depth done t v rest, (∀ f ∈ done, IsJoined f.1 ∧ Readable f.2) →
      fields n depth done t = .ok (v, rest) → Readable v) := by
  induction n with
  | zero =>
    refine ⟨fun depth t v rest h => ?_, fun depth done t v rest _ h => ?_,
      fun depth done t v rest _ h => ?_⟩
    · cases h
    · cases h
    · cases h
  | succ n ih =>
    obtain ⟨hvalue, hitems, hfields⟩ := ih
    refine ⟨fun depth t v rest h => ?_, fun depth done t v rest hdone h => ?_,
      fun depth done t v rest hdone h => ?_⟩
    · unfold value at h
      split at h
      · obtain ⟨⟨ls, rest'⟩, hstring, hpure⟩ := bind_ok_iff.1 h
        cases hpure
        exact .str ls (isJoined_of_string hstring)
      · split at h
        · cases h
        · split at h
          · cases h
            exact .arr [] (by simp)
          · exact hitems _ _ _ _ _ (by simp) h
      · split at h
        · cases h
        · split at h
          · cases h
            exact .obj [] List.nodup_nil (by simp) (by simp)
          · exact hfields _ _ _ _ _ (by simp) h
      · exact readable_simple h
    · rw [items, bind_ok_iff] at h
      obtain ⟨⟨w, rest'⟩, hw, h⟩ := h
      dsimp only at h
      have hall : ∀ u ∈ w :: done, Readable u :=
        List.forall_mem_cons.2 ⟨hvalue _ _ _ _ hw, hdone⟩
      split at h
      · exact hitems _ _ _ _ _ hall h
      · cases h
        exact .arr _ fun u hu => hall u (List.mem_reverse.1 hu)
      · cases h
    · unfold fields at h
      split at h
      · obtain ⟨⟨key, rest'⟩, hkey, h⟩ := bind_ok_iff.1 h
        dsimp only at h
        split at h
        · obtain ⟨⟨w, rest''⟩, hw, h⟩ := bind_ok_iff.1 h
          dsimp only at h
          have hall : ∀ f ∈ (key, w) :: done, IsJoined f.1 ∧ Readable f.2 :=
            List.forall_mem_cons.2 ⟨⟨isJoined_of_string hkey, hvalue _ _ _ _ hw⟩, hdone⟩
          split at h
          · exact hfields _ _ _ _ _ hall h
          · cases h
            exact readable_ofFields fun f hf => hall f (List.mem_reverse.1 hf)
          · cases h
        · cases h
      · cases h

theorem readable_of_parse (h : parse t = .ok v) : Readable v := by
  obtain ⟨⟨w, rest⟩, hw, hend⟩ := bind_ok_iff.1 h
  dsimp only at hend
  split at hend
  · cases hend
    exact (readable_of_readers _).1 _ _ _ _ hw
  · cases hend

end CodeIndex.Json
