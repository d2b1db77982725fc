import CodeIndex.Proofs.Lists
import CodeIndex.Proofs.Python.Functions

/-!
# Which base classes Python files show

A list of base classes is cut at all of its commas, those in the brackets of a base class among them. So each
word behind such a comma is shown as one more base class. Cut as parameters are, at the commas outside all
brackets, the same list would show every base class by its name and nothing else.
-/

namespace CodeIndex.Python

open Text (IsWord)

variable {d : Int} {t gap : Text}

/-! ### Brackets -/

theorem depth_pair {opening closing : Char} (h : (opening, closing) ∈ brackets.opening.zip brackets.closing) :
    Parameters.depth brackets [opening] = 1 ∧ Parameters.depth brackets [closing] = -1 ∧
      opening ≠ ',' ∧ closing ≠ ',' := by
  have hall : (brackets.opening.zip brackets.closing).all (fun x =>
      Parameters.depth brackets [x.1] = 1 ∧ Parameters.depth brackets [x.2] = -1 ∧ x.1 ≠ ',' ∧ x.2 ≠ ',') =
      true := by decide
  simpa using List.all_eq_true.1 hall _ h

theorem Nested.depth_eq_zero (h : Nested t) : Parameters.depth brackets t = 0 := by
  induction h with
  | nil => rfl
  | plain hopening hclosing _ ih =>
    rw [Parameters.depth_cons, ih, Parameters.depth_eq_zero (by simpa using ⟨hopening, hclosing⟩)]
    rfl
  | @group opening closing t u hpair _ _ ihInner ihRest =>
    obtain ⟨hopening, hclosing, -⟩ := depth_pair hpair
    rw [Parameters.depth_cons, Parameters.depth_append, Parameters.depth_cons brackets closing, ihInner, ihRest,
      hopening, hclosing]
    rfl

/-- Inside brackets, a nested text is never cut. -/
theorem Nested.uncut (h : Nested t) (hd : 0 < d) : Parameters.Uncut brackets d t := by
  induction h generalizing d with
  | nil => exact Parameters.uncut_nil brackets d
  | plain hopening hclosing _ ih =>
    rw [Parameters.uncut_cons, Parameters.depth_eq_zero (by simpa using ⟨hopening, hclosing⟩), Int.add_zero]
    exact ⟨fun _ => Int.ne_of_gt hd, ih hd⟩
  | group hpair hinner _ ihInner ihRest =>
    obtain ⟨hopening, hclosing, hne, hne'⟩ := depth_pair hpair
    rw [Parameters.uncut_cons, Parameters.uncut_append, Parameters.uncut_cons, hopening, hclosing,
      hinner.depth_eq_zero]
    exact ⟨fun h => absurd h hne, ihInner (by omega), fun h => absurd h hne', ihRest (by omega)⟩

/-- A pair of brackets with a nested text between them is not cut. -/
theorem whole_group {opening closing : Char} (hpair : (opening, closing) ∈ brackets.opening.zip brackets.closing)
    (h : Nested t) : Parameters.Whole brackets (opening :: (t ++ [closing])) := by
  obtain ⟨hopening, -, hne, hne'⟩ := depth_pair hpair
  refine ⟨?_, (Nested.group hpair h .nil).depth_eq_zero⟩
  rw [Parameters.uncut_cons, Parameters.uncut_append, hopening]
  refine ⟨fun hc => absurd hc hne, h.uncut (by omega), Parameters.uncut_of_notMem ?_⟩
  simpa using hne'.symm

/-- The characters that a list of base classes is put together with. -/
def marks : Text := ',' :: (brackets.opening ++ brackets.closing)

theorem whole_of_no_marks (h : ∀ c ∈ t, c ∉ marks) : Parameters.Whole brackets t := by
  refine ⟨Parameters.uncut_of_notMem fun hc => h _ hc List.mem_cons_self, Parameters.depth_eq_zero ?_⟩
  intro c hc
  simpa using (not_or.1 (mt List.mem_cons.2 (h c hc))).2

theorem whole_of_isBlank (h : ∀ c ∈ t, Text.isBlank c = true) : Parameters.Whole brackets t :=
  whole_of_no_marks fun c hc => Text.notMem_of_isBlank (by decide) (h c hc)

theorem comma_notMem_of_isBlank (h : ∀ c ∈ t, Text.isBlank c = true) : ',' ∉ t := fun hc =>
  @Text.notMem_of_isBlank [','] _ (by decide) (h _ hc) List.mem_cons_self

/-! ### Base classes -/

/-- A base class as it stands in a list: a name, and what stands in the square brackets behind it, if there
are any, with white space around both. -/
structure WrittenBase where
  name : Text
  args : Option Text
  before : Text
  gap : Text
  behind : Text
  named : name ≠ []
  plain : (name.all fun c => !Text.isBlank c && !marks.contains c) = true
  nested : ∀ t ∈ args, Nested t
  blank : (before ++ gap ++ behind).all Text.isBlank = true

namespace WrittenBase

variable {b : WrittenBase} {p : Text}

/-- The square brackets with what stands in them. -/
def bracketed (b : WrittenBase) : Text := b.args.elim [] fun t => '[' :: (t ++ [']'])

def text (b : WrittenBase) : Text := b.before ++ (b.name ++ (b.gap ++ (b.bracketed ++ b.behind)))

/-- Some comma in the brackets has a word behind it, white space apart. -/
def ListsWord (b : WrittenBase) : Prop :=
  ∃ t ∈ b.args, ∃ before gap c after, t = before ++ ',' :: (gap ++ c :: after) ∧
    (∀ d ∈ gap, Text.isBlank d = true) ∧ Text.isWord c = true

theorem blank_before (b : WrittenBase) : ∀ c ∈ b.before, Text.isBlank c = true :=
  fun c hc => List.all_eq_true.1 b.blank c (by simp [hc])

theorem blank_gap (b : WrittenBase) : ∀ c ∈ b.gap, Text.isBlank c = true :=
  fun c hc => List.all_eq_true.1 b.blank c (by simp [hc])

theorem blank_behind (b : WrittenBase) : ∀ c ∈ b.behind, Text.isBlank c = true :=
  fun c hc => List.all_eq_true.1 b.blank c (by simp [hc])

theorem plain_name (b : WrittenBase) : ∀ c ∈ b.name, Text.isBlank c = false ∧ c ∉ marks := by
  intro c hc
  simpa using List.all_eq_true.1 b.plain c hc

theorem comma_notMem_name (b : WrittenBase) : ',' ∉ b.name := fun hc =>
  (b.plain_name _ hc).2 List.mem_cons_self

/-- The first part of the brackets begins with the opening one. -/
theorem exists_pieces_bracketed (b : WrittenBase) :
    ∃ p ps, Text.pieces ',' b.bracketed = p :: ps ∧ ∀ c ∈ p.head?, c = '[' := by
  unfold bracketed
  cases b.args with
  | none => exact ⟨[], [], rfl, nofun⟩
  | some t =>
    obtain ⟨p, ps, hp⟩ := List.exists_cons_of_ne_nil (Text.pieces_ne_nil ',' (t ++ [']']))
    refine ⟨_, ps, Text.pieces_append_left (t := ['[']) (by decide) hp, ?_⟩
    rintro c ⟨⟩
    rfl

theorem leadingWord_bracket (hp : ∀ c ∈ p.head?, c = '[') : Text.leadingWord (Text.trim p) = [] := by
  rw [Text.leadingWord_trim]
  cases p with
  | nil => rfl
  | cons c p =>
    obtain rfl := hp c rfl
    rfl

theorem leadingWord_front (hword : IsWord b.name) (hp : ∀ c ∈ p.head?, Text.isWord c = false) :
    Text.leadingWord (Text.trim (b.before ++ (b.name ++ (b.gap ++ p)))) = b.name := by
  have htrim : Text.trimLeft (b.before ++ (b.name ++ (b.gap ++ p))) = b.name ++ (b.gap ++ p) := by
    refine (Text.takeWhile_eq_iff.2 ⟨rfl, b.blank_before, fun c hc => ?_⟩).2
    obtain ⟨_, rest, hname⟩ := List.exists_cons_of_ne_nil b.named
    rw [hname] at hc
    cases hc
    exact (b.plain_name c (by simp [hname])).1
  rw [Text.leadingWord_trim, htrim]
  refine Text.leadingWord_append hword.2 fun c hc => ?_
  cases hgap : b.gap with
  | nil =>
    rw [hgap] at hc
    exact hp c hc
  | cons _ gap =>
    rw [hgap] at hc
    cases hc
    exact Text.isWord_of_isBlank (b.blank_gap c (by simp [hgap]))

theorem leadingWord_text (hword : IsWord b.name) : Text.leadingWord (Text.trim b.text) = b.name := by
  refine leadingWord_front hword fun c hc => ?_
  cases hargs : b.args with
  | none =>
    rw [bracketed, hargs] at hc
    exact Text.isWord_of_isBlank (b.blank_behind c (List.mem_of_mem_head? hc))
  | some t =>
    rw [bracketed, hargs] at hc
    cases hc
    decide

/-- A base class closes its brackets, and all its commas stand in them. -/
theorem whole_text (b : WrittenBase) : Parameters.Whole brackets b.text := by
  have hname : Parameters.Whole brackets b.name := whole_of_no_marks fun c hc => (b.plain_name c hc).2
  have hbracketed : Parameters.Whole brackets b.bracketed := by
    unfold bracketed
    cases hargs : b.args with
    | none => exact ⟨Parameters.uncut_nil _ _, rfl⟩
    | some t => exact whole_group (by decide) (b.nested t hargs)
  exact (whole_of_isBlank b.blank_before).append (hname.append ((whole_of_isBlank b.blank_gap).append
    (hbracketed.append (whole_of_isBlank b.blank_behind))))

theorem paramName_text (hword : IsWord b.name) : paramName b.text = b.name := by
  have hlead := leadingWord_text hword
  unfold paramName
  split
  · next hstar =>
    rw [hstar] at hlead
    exact absurd hlead.symm b.named
  · exact hlead

/-- Of the brackets alone something is shown exactly if a comma in them has a word behind it. -/
theorem baseNames_bracketed_ne_nil : baseNames b.bracketed ≠ [] ↔ b.ListsWord := by
  have hshown : baseNames b.bracketed ≠ [] ↔
      ∃ u ∈ Text.pieces ',' b.bracketed, Text.leadingWord (Text.trim u) ≠ [] := by
    simp [baseNames, List.filter_eq_nil_iff]
  rw [hshown]
  constructor
  · rintro ⟨u, hu, hword⟩
    obtain ⟨p, ps, hpieces, hp⟩ := b.exists_pieces_bracketed
    have htail : u ∈ (Text.pieces ',' b.bracketed).tail := by
      rw [hpieces] at hu ⊢
      rcases List.mem_cons.1 hu with rfl | hu
      · exact absurd (leadingWord_bracket hp) hword
      · exact hu
    obtain ⟨before, after, hcut⟩ := Text.exists_cut_of_mem_tail htail
    obtain ⟨gap, c, rest, rfl, hgap, hc⟩ := Text.leadingWord_trim_ne_nil.1 hword
    cases hargs : b.args with
    | none => simp [bracketed, hargs] at hcut
    | some t =>
      -- The brackets themselves are no commas and not part of a word, so the cut lies between them.
      simp only [bracketed, hargs, Option.elim_some] at hcut
      cases before with
      | nil => exact absurd (List.cons.inj hcut).1 (by decide)
      | cons d before =>
        have hbracket : c ∉ [']'] := by
          simp only [List.mem_singleton]
          rintro rfl
          exact absurd hc (by decide)
        have hcut' : t ++ [']'] = (before ++ ',' :: gap) ++ c :: (rest ++ after) := by
          simpa using (List.cons.inj hcut).2
        obtain ⟨rest', rfl, -⟩ := Text.cut_of_notMem_right hbracket hcut'
        exact ⟨_, hargs, before, gap, c, rest', by simp, hgap, hc⟩
  · rintro ⟨t, ht, before, gap, c, after, rfl, hgap, hc⟩
    obtain ⟨p, ps, hp⟩ := List.exists_cons_of_ne_nil (Text.pieces_ne_nil ',' (after ++ [']']))
    have hfront : ',' ∉ gap ++ [c] := by
      simp only [List.mem_append, List.mem_singleton, not_or]
      refine ⟨comma_notMem_of_isBlank hgap, ?_⟩
      rintro rfl
      exact absurd hc (by decide)
    have hbracketed : b.bracketed = '[' :: before ++ ',' :: (gap ++ [c] ++ (after ++ [']'])) := by
      simp [bracketed, Option.mem_def.1 ht]
    refine ⟨gap ++ [c] ++ p, ?_, Text.leadingWord_trim_ne_nil.2 ⟨gap, c, p, by simp, hgap, hc⟩⟩
    rw [hbracketed, Text.pieces_append, Text.pieces_append_left hfront hp]
    exact List.mem_append_right _ List.mem_cons_self

instance (b : WrittenBase) : Decidable b.ListsWord := decidable_of_iff _ baseNames_bracketed_ne_nil

end WrittenBase

/-! ### Lists of base classes -/

theorem baseNames_append_gap (hgap : ∀ c ∈ gap, Text.isBlank c = true) (t : Text) :
    baseNames (t ++ gap) = baseNames t := by
  obtain ⟨init, last, hpieces⟩ := (List.eq_nil_or_concat (Text.pieces ',' t)).resolve_left
    (Text.pieces_ne_nil ',' t)
  rw [List.concat_eq_append] at hpieces
  rw [baseNames, baseNames, Text.pieces_append_right (comma_notMem_of_isBlank hgap) hpieces, hpieces]
  simp only [List.map_append, List.map_cons, Text.leadingWord_trim_append_gap hgap]

theorem baseNames_intercalate {ts : List Text} (hne : ts ≠ []) :
    baseNames ([','].intercalate ts) = ts.flatMap baseNames := by
  rw [baseNames, Text.pieces_intercalate hne, List.map_flatMap, List.filter_flatMap]
  rfl

/-- Of a base class its name is shown, and what would be shown of the brackets alone. -/
theorem WrittenBase.baseNames_text {b : WrittenBase} (hword : IsWord b.name) :
    baseNames b.text = b.name :: baseNames b.bracketed := by
  obtain ⟨p, ps, hpieces, hp⟩ := b.exists_pieces_bracketed
  have hfront : ',' ∉ b.before ++ (b.name ++ b.gap) := by
    simp [comma_notMem_of_isBlank b.blank_before, comma_notMem_of_isBlank b.blank_gap, b.comma_notMem_name]
  have htext : b.text = b.before ++ (b.name ++ b.gap) ++ b.bracketed ++ b.behind := by simp [text]
  have hfirst : Text.leadingWord (Text.trim (b.before ++ (b.name ++ b.gap) ++ p)) = b.name := by
    have hbracket : ∀ c ∈ p.head?, Text.isWord c = false := by
      intro c hc
      rw [hp c hc]
      decide
    simpa using leadingWord_front hword hbracket
  rw [htext, baseNames_append_gap b.blank_behind, baseNames, baseNames, Text.pieces_append_left hfront hpieces,
    hpieces, List.map_cons, List.map_cons, hfirst, leadingWord_bracket hp,
    List.filter_cons_of_pos (by simpa using b.named), List.filter_cons_of_neg (by simp)]

/-- Base classes with commas between them. -/
def basesText (bs : List WrittenBase) : Text := [','].intercalate (bs.map WrittenBase.text)

variable {bs : List WrittenBase}

theorem baseNames_basesText (h : ∀ b ∈ bs, IsWord b.name) :
    baseNames (basesText bs) = bs.flatMap fun b => b.name :: baseNames b.bracketed := by
  by_cases hne : bs = []
  · rw [hne]
    rfl
  · rw [basesText, baseNames_intercalate (by simpa using hne), List.flatMap_map, List.flatMap_def,
      List.flatMap_def, List.map_congr_left fun b hb => WrittenBase.baseNames_text (h b hb)]

theorem paramNames_basesText (h : ∀ b ∈ bs, IsWord b.name) :
    paramNames (basesText bs) = bs.map WrittenBase.name := by
  have hwhole : ∀ p ∈ bs.map WrittenBase.text, Parameters.Whole brackets p := by
    intro p hp
    obtain ⟨b, -, rfl⟩ := List.mem_map.1 hp
    exact b.whole_text
  have hnames : (bs.map WrittenBase.text).map paramName = bs.map WrittenBase.name := by
    rw [List.map_map]
    exact List.map_congr_left fun b hb => WrittenBase.paramName_text (h b hb)
  rw [basesText, paramNames_intercalate hwhole, hnames, List.filter_eq_self]
  intro name hname
  obtain ⟨b, -, rfl⟩ := List.mem_map.1 hname
  simpa using b.named

theorem baseNames_eq_names_iff :
    baseNames (basesText bs) = bs.map WrittenBase.name ↔ ∀ b ∈ bs, IsWord b.name ∧ ¬b.ListsWord := by
  constructor
  · intro h b hb
    have hwords : ∀ b ∈ bs, IsWord b.name := fun b hb =>
      isWord_of_mem_baseNames (h ▸ List.mem_map_of_mem hb)
    rw [baseNames_basesText hwords] at h
    refine ⟨hwords b hb, fun hlists => ?_⟩
    exact WrittenBase.baseNames_bracketed_ne_nil.2 hlists (eq_nil_of_flatMap_eq_map h b hb)
  · intro h
    have hnone : ∀ b ∈ bs, b.name :: baseNames b.bracketed = [b.name] := by
      intro b hb
      have hnil : baseNames b.bracketed = [] := by
        simpa using mt WrittenBase.baseNames_bracketed_ne_nil.1 (h b hb).2
      rw [hnil]
    rw [baseNames_basesText fun b hb => (h b hb).1, List.flatMap_def, List.map_congr_left hnone,
      ← List.flatMap_def, ← List.map_eq_flatMap]

/-- Base classes are shown by their names, in order, exactly if all names are words and no comma in their
brackets has a word behind it: each such word is shown as one more base class. Cut as parameters are, outside
brackets only, the list would always give the names. -/
theorem bases_shown_by_name_iff (bs : List WrittenBase) :
    (Text.commaJoin (baseNames (basesText bs)) = Text.commaJoin (bs.map WrittenBase.name) ↔
      ∀ b ∈ bs, IsWord b.name ∧ ¬b.ListsWord) ∧
    ((∀ b ∈ bs, IsWord b.name) →
      baseNames (basesText bs) = bs.flatMap (fun b => b.name :: baseNames b.bracketed) ∧
        Text.commaJoin (paramNames (basesText bs)) = Text.commaJoin (bs.map WrittenBase.name)) := by
  refine ⟨?_, fun hwords => ⟨baseNames_basesText hwords, by rw [paramNames_basesText hwords]⟩⟩
  rw [← baseNames_eq_names_iff]
  refine ⟨Text.commaJoin_injective (fun t ht => ?_) (fun t ht => ?_), congrArg Text.commaJoin⟩
  · have hword := isWord_of_mem_baseNames ht
    exact ⟨hword.1, fun hc => absurd (hword.2 _ hc) (by decide)⟩
  · obtain ⟨b, -, rfl⟩ := List.mem_map.1 ht
    exact ⟨b.named, b.comma_notMem_name⟩

/-- A base class without brackets. -/
def plainBase : WrittenBase where
  name := "Base".toList
  args := none
  before := []
  gap := []
  behind := [' ']
  named := by decide
  plain := by decide
  nested := nofun
  blank := by decide

/-- A base class whose comma has a bracket behind it. -/
def callableBase : WrittenBase where
  name := "Callable".toList
  args := some ['[', 'K', ']', ',', ' ', '[', 'V', ']']
  before := ['\t']
  gap := [' ']
  behind := []
  named := by decide
  plain := by decide
  nested := by
    rintro t ⟨⟩
    have hname (c : Char) (hc : c ∉ brackets.opening) (hc' : c ∉ brackets.closing) : Nested [c] :=
      .plain hc hc' .nil
    exact .group (t := ['K']) (by decide) (hname 'K' (by decide) (by decide)) (.plain (by decide) (by decide)
      (.plain (by decide) (by decide)
        (.group (t := ['V']) (by decide) (hname 'V' (by decide) (by decide)) .nil)))
  blank := by decide

/-- A base class whose comma has a name behind it. -/
def genericBase : WrittenBase where
  name := "Generic".toList
  args := some ['K', ',', ' ', 'V']
  before := []
  gap := []
  behind := []
  named := by decide
  plain := by decide
  nested := by
    rintro t ⟨⟩
    exact .plain (by decide) (by decide) (.plain (by decide) (by decide) (.plain (by decide) (by decide)
      (.plain (by decide) (by decide) .nil)))
  blank := by decide

theorem callableBase_shown_by_name :
    IsWord plainBase.name ∧ ¬plainBase.ListsWord ∧ IsWord callableBase.name ∧ ¬callableBase.ListsWord ∧
      basesText [plainBase, callableBase] = "Base ,\tCallable [[K], [V]]".toList ∧
      Text.commaJoin (baseNames (basesText [plainBase, callableBase])) = "Base, Callable".toList ∧
      Text.commaJoin (paramNames (basesText [plainBase, callableBase])) = "Base, Callable".toList := by
  have hplain : IsWord plainBase.name ∧ ¬plainBase.ListsWord := by decide
  have hcallable : IsWord callableBase.name ∧ ¬callableBase.ListsWord := by decide
  have hshown : ∀ b ∈ [plainBase, callableBase], IsWord b.name ∧ ¬b.ListsWord :=
    List.forall_mem_cons.2 ⟨hplain, List.forall_mem_singleton.2 hcallable⟩
  obtain ⟨hiff, hnames⟩ := bases_shown_by_name_iff [plainBase, callableBase]
  refine ⟨hplain.1, hplain.2, hcallable.1, hcallable.2, by decide, hiff.2 hshown, ?_⟩
  exact (hnames fun b hb => (hshown b hb).1).2

/-- The second argument of a generic base class is shown as a base class. -/
theorem genericBase_shows_argument :
    IsWord genericBase.name ∧ genericBase.text = "Generic[K, V]".toList ∧
      Text.commaJoin (baseNames (basesText [genericBase])) = "Generic, V".toList ∧
      Text.commaJoin ([genericBase].map WrittenBase.name) = "Generic".toList := by
  decide

end CodeIndex.Python
