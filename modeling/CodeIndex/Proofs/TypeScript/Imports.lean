import CodeIndex.Outline.TypeScript
import CodeIndex.Proofs.Text.Search

/-!
# Imports of TypeScript files

A module is found behind the word `import` where white space, a piece of one line, white space, the word
`from`, white space and a name in quotes follow. The first such name on the line is taken, and the search goes
on behind it. A statement is found if some `import` in it leads to its quotes this way and the search has not
gone past the opening quote before. A clause that is broken over lines leads nowhere, unless the letters
`import` stand in it.
-/

namespace CodeIndex.TypeScript

open Text (IsGap)
open Reader (blanks1_of_isGap)

variable {c : Char} {t t' u v w name name' rest rest' gap front before after : Text}

theorem notMem_of_isGap (hc : Text.isBlank c = false) (hgap : IsGap gap) : c ∉ gap := by
  intro hmem
  cases hc.symm.trans (hgap.2 c hmem)

theorem exists_first_not_blank (h : ∃ c ∈ t, Text.isBlank c = false) :
    ∃ blanks c u, t = blanks ++ c :: u ∧ (∀ c ∈ blanks, Text.isBlank c = true) ∧ Text.isBlank c = false := by
  obtain ⟨hcut, hblanks, hhead⟩ := Text.takeWhile_eq_iff.1 ⟨rfl, rfl⟩
  cases hbehind : t.dropWhile Text.isBlank with
  | nil =>
    obtain ⟨c, hc, hnone⟩ := h
    rw [hbehind, List.append_nil] at hcut
    cases hnone.symm.trans (hblanks c (hcut ▸ hc))
  | cons c u =>
    rw [hbehind] at hcut hhead
    exact ⟨_, c, u, hcut, hblanks, hhead c rfl⟩

theorem isGap_append (hgap : IsGap gap) (ht : ∀ c ∈ t, Text.isBlank c = true) : IsGap (gap ++ t) := by
  refine ⟨List.append_ne_nil_of_left_ne_nil hgap.1 t, fun c hc => ?_⟩
  exact (List.mem_append.1 hc).elim (hgap.2 c) (ht c)

/-! ### Names in quotes -/

def IsQuote (c : Char) : Prop := c = '\'' ∨ c = '"'

instance : DecidablePred IsQuote := fun _ => inferInstanceAs (Decidable (_ ∨ _))

theorem isBlank_of_isQuote (h : IsQuote c) : Text.isBlank c = false := by
  rcases h with rfl | rfl
  · decide
  · decide

def NoQuote (t : Text) : Prop := ∀ c ∈ t, ¬IsQuote c

instance (t : Text) : Decidable (NoQuote t) :=
  decidable_of_iff (t.all (fun c => c != '\'' && c != '"') = true) (by simp [NoQuote, IsQuote])

theorem noQuote_append : NoQuote (t ++ u) ↔ NoQuote t ∧ NoQuote u := List.forall_mem_append

theorem noQuote_of_isGap (h : IsGap gap) : NoQuote gap :=
  fun _ hc hquote => notMem_of_isGap (isBlank_of_isQuote hquote) h hc

theorem noQuote_import : NoQuote "import".toList := by decide

theorem noQuote_from {gap' : Text} (hgap : IsGap gap) (hgap' : IsGap gap') :
    NoQuote (gap ++ ("from".toList ++ gap')) := by
  have hword : NoQuote "from".toList := by decide
  simp only [noQuote_append]
  exact ⟨noQuote_of_isGap hgap, hword, noQuote_of_isGap hgap'⟩

/-- A text that starts with a name in quotes of either kind. -/
def Quoted (t name rest : Text) : Prop :=
  ∃ q q', IsQuote q ∧ IsQuote q' ∧ t = q :: (name ++ q' :: rest) ∧ name ≠ [] ∧ NoQuote name

theorem quotedName_eq_some_iff : quotedName.parse t = some (name, rest) ↔ Quoted t name rest := by
  have hquote (c : Char) : (c == '\'' || c == '"') = true ↔ IsQuote c := by simp [IsQuote]
  have hnone (c : Char) : (!(c == '\'' || c == '"')) = true ↔ ¬IsQuote c := by simp [IsQuote]
  simp only [quotedName, Reader.bind_eq_some_iff, Reader.oneOf_eq_some_iff, Reader.many1_eq_some_iff,
    Reader.pure_eq_some_iff, hquote, hnone]
  constructor
  · rintro ⟨q, mid, ⟨rfl, hq⟩, name', mid', ⟨hne, rfl, hname, -⟩, q', rest', ⟨rfl, hq'⟩, rfl, rfl⟩
    exact ⟨q, q', hq, hq', rfl, hne, hname⟩
  · rintro ⟨q, q', hq, hq', rfl, hne, hname⟩
    refine ⟨q, _, ⟨rfl, hq⟩, name, _, ⟨hne, rfl, hname, ?_⟩, q', rest, ⟨rfl, hq'⟩, rfl, rfl⟩
    rintro c ⟨⟩
    rw [(hquote q').2 hq']
    rfl

theorem Quoted.suffix (h : Quoted t name rest) : rest <:+ t := by
  obtain ⟨q, q', -, -, rfl, -⟩ := h
  exact ⟨q :: (name ++ [q']), by simp⟩

theorem Quoted.unique (h : Quoted t name rest) (h' : Quoted t name' rest') : name = name' ∧ rest = rest' := by
  have hboth := (quotedName_eq_some_iff.2 h).symm.trans (quotedName_eq_some_iff.2 h')
  exact Prod.mk.inj (Option.some.inj hboth)

/-- Of two names in quotes, the second starts behind the first name, where it may share a quote with it. -/
theorem Quoted.eq_or_cons_suffix (h : Quoted t name rest) (h' : Quoted t' name' rest') (hsuffix : t' <:+ t) :
    t' = t ∨ ∃ q, IsQuote q ∧ q :: rest <:+ t ∧ t' <:+ q :: rest := by
  obtain ⟨q, q', -, hq', rfl, -, hname⟩ := h
  obtain ⟨p, p', hp, -, rfl, -⟩ := h'
  rcases List.suffix_cons_iff.1 hsuffix with heq | ⟨u, hu⟩
  · exact .inl heq
  · obtain ⟨v, -, hv⟩ := Text.cut_of_notMem_left (fun hmem => hname p hmem hp) hu.symm
    exact .inr ⟨q', hq', ⟨q :: name, rfl⟩, ⟨v, hv.symm⟩⟩

theorem Quoted.eq_or_length_lt (h : Quoted t name rest) (h' : Quoted t' name' rest') (hsuffix : t' <:+ t) :
    t' = t ∨ rest'.length < rest.length := by
  rcases h.eq_or_cons_suffix h' hsuffix with heq | ⟨q, -, -, hbehind⟩
  · exact .inl heq
  · obtain ⟨p, p', -, -, rfl, -⟩ := h'
    have hle := hbehind.length_le
    simp only [List.length_cons, List.length_append] at hle
    exact .inr (by omega)

/-- Quotes start behind a piece that has none. -/
theorem Quoted.suffix_of_noQuote (h : Quoted t name rest) (hu : NoQuote u) (heq : w ++ t = u ++ t') :
    t <:+ t' := by
  obtain ⟨q, q', hq, -, rfl, -⟩ := h
  obtain ⟨v, -, rfl⟩ := Text.cut_of_notMem_left (fun hmem => hu q hmem hq) heq.symm
  exact List.suffix_append v _

/-! ### What the readers of modules take -/

/-- A text that starts with the word `from` and a module name. -/
def NamesModule (t name rest : Text) : Prop :=
  ∃ gap t', IsGap gap ∧ t = "from".toList ++ (gap ++ t') ∧ Quoted t' name rest

theorem fromModule_eq_some_iff : fromModule.parse t = some (name, rest) ↔ NamesModule t name rest := by
  change (Reader.keyword "from".toList >>= fun _ => quotedName).parse t = some (name, rest) ↔ _
  simp only [Reader.bind_eq_some_iff, Reader.keyword_eq_some_iff, quotedName_eq_some_iff, NamesModule,
    List.append_assoc]
  constructor
  · rintro ⟨_, t', ⟨gap, hne, rfl, hblank, -⟩, hquoted⟩
    exact ⟨gap, t', ⟨hne, hblank⟩, rfl, hquoted⟩
  · rintro ⟨gap, t', ⟨hne, hblank⟩, rfl, hquoted⟩
    refine ⟨(), t', ⟨gap, hne, rfl, hblank, ?_⟩, hquoted⟩
    obtain ⟨q, q', hq, -, rfl, -⟩ := hquoted
    rintro c ⟨⟩
    exact isBlank_of_isQuote hq

/-- A text that starts with white space, the word `from` and a module name. -/
def SetOff (t name rest : Text) : Prop := ∃ gap t', IsGap gap ∧ t = gap ++ t' ∧ NamesModule t' name rest

theorem setOff_iff :
    (Reader.blanks1.andThen fun _ => fromModule).parse t = some (name, rest) ↔ SetOff t name rest := by
  change (Reader.blanks1 >>= fun _ => fromModule).parse t = some (name, rest) ↔ _
  simp only [Reader.bind_eq_some_iff, fromModule_eq_some_iff]
  constructor
  · rintro ⟨gap, t', hgap, hmodule⟩
    obtain ⟨hne, rfl, hblank, -⟩ := Reader.many1_eq_some_iff.1 hgap
    exact ⟨gap, t', ⟨hne, hblank⟩, rfl, hmodule⟩
  · rintro ⟨gap, t', hgap, rfl, hmodule⟩
    refine ⟨gap, t', blanks1_of_isGap hgap ?_, hmodule⟩
    obtain ⟨gap', t'', -, rfl, -⟩ := hmodule
    rintro c ⟨⟩
    decide

/-- The word `from` and a module name are set off by white space further on the line. -/
def FurtherOn (t name rest : Text) : Prop := ∃ u v, t = u ++ v ∧ '\n' ∉ u ∧ SetOff v name rest

theorem furtherOn_of_laterModule (h : laterModule t = some (name, rest)) : FurtherOn t name rest := by
  induction t with
  | nil => cases h
  | cons c t ih =>
    rw [laterModule] at h
    split at h
    · next found => exact ⟨[], c :: t, rfl, List.not_mem_nil, setOff_iff.1 (found.trans h)⟩
    · split at h
      · cases h
      · next hc =>
        obtain ⟨u, v, rfl, hu, hv⟩ := ih h
        exact ⟨c :: u, v, rfl, by simpa [eq_comm] using ⟨hc, hu⟩, hv⟩

/-- Of two modules that are set off, the one that is reached first ends first. -/
theorem SetOff.length_le (h : SetOff (u ++ v) name' rest') (h' : SetOff v name rest) :
    rest.length ≤ rest'.length := by
  obtain ⟨gap, _, hgap, heq, gap', t, hgap', rfl, hquoted⟩ := h
  obtain ⟨gap₁, _, -, rfl, gap₁', t₁, -, rfl, hquoted₁⟩ := h'
  have hcut : (u ++ (gap₁ ++ ("from".toList ++ gap₁'))) ++ t₁ = (gap ++ ("from".toList ++ gap')) ++ t := by
    simpa only [List.append_assoc] using heq
  have hsuffix : t₁ <:+ t := hquoted₁.suffix_of_noQuote (noQuote_from hgap hgap') hcut
  rcases hquoted.eq_or_length_lt hquoted₁ hsuffix with rfl | hlt
  · exact Nat.le_of_eq (congrArg List.length (hquoted₁.unique hquoted).2)
  · exact Nat.le_of_lt hlt

/-- What is set off further on the line is read, or something that ends before it. -/
theorem FurtherOn.laterModule (h : FurtherOn t name rest) :
    ∃ name' rest', laterModule t = some (name', rest') ∧ rest.length ≤ rest'.length := by
  obtain ⟨u, v, rfl, hu, hv⟩ := h
  induction u with
  | nil =>
    obtain ⟨gap, t', ⟨hne, hblank⟩, rfl, hmodule⟩ := hv
    obtain ⟨c, gap, rfl⟩ := List.exists_cons_of_ne_nil hne
    have hread := setOff_iff.2 ⟨c :: gap, t', ⟨hne, hblank⟩, rfl, hmodule⟩
    refine ⟨name, rest, ?_, Nat.le_refl _⟩
    rw [List.nil_append, List.cons_append, TypeScript.laterModule, ← List.cons_append, hread]
  | cons c u ih =>
    obtain ⟨hc, hu⟩ := not_or.1 (fun hmem => hu (List.mem_cons.2 hmem))
    rw [List.cons_append, TypeScript.laterModule]
    split
    · next found hread =>
      have hfound : SetOff (c :: u ++ v) found.1 found.2 := setOff_iff.1 hread
      exact ⟨found.1, found.2, rfl, hfound.length_le hv⟩
    · rw [if_neg fun heq => hc heq.symm]
      exact ih hu

theorem importedModule_eq : importedModule = (Reader.blanks1 >>= fun gap =>
    Reader.orElse ⟨laterModule, laterModule_keeps⟩ (if gap.length = 1 then Reader.fail else fromModule)) :=
  rfl

/-- What stands between the word `import` and quotes: white space, an item, white space, the word `from` and
white space. -/
structure Lead where
  gap : Text
  item : Text
  gap' : Text
  gap'' : Text
  isGap : IsGap gap := by decide
  isGap' : IsGap gap' := by decide
  isGap'' : IsGap gap'' := by decide

namespace Lead

def text (l : Lead) : Text := l.gap ++ (l.item ++ (l.gap' ++ ("from".toList ++ l.gap'')))

/-- The item is on one line. If it is nothing but white space, no module is set off further on the line: that
one would be taken instead. -/
def IsRead (l : Lead) (behind : Text) : Prop :=
  '\n' ∉ l.item ∧ ((∃ c ∈ l.item, Text.isBlank c = false) ∨
    ∀ name rest, ¬FurtherOn ("from".toList ++ (l.gap'' ++ behind)) name rest)

variable {l : Lead}

/-- Where an item goes on behind the white space, a reader takes what it leads to, or something that ends
before it. -/
theorem importedModule_of_not_blank (hline : '\n' ∉ l.item) (hitem : ∃ c ∈ l.item, Text.isBlank c = false)
    (hmodule : NamesModule ("from".toList ++ (l.gap'' ++ t)) name rest) :
    ∃ name' rest', importedModule.parse (l.text ++ t) = some (name', rest') ∧ rest.length ≤ rest'.length := by
  obtain ⟨blanks, c, item, hcut, hblanks, hc⟩ := exists_first_not_blank hitem
  have htext : l.text ++ t =
      (l.gap ++ blanks) ++ (c :: item ++ (l.gap' ++ ("from".toList ++ (l.gap'' ++ t)))) := by
    simp only [text, hcut, List.append_assoc]
  have hread : Reader.blanks1.parse (l.text ++ t) =
      some (l.gap ++ blanks, c :: item ++ (l.gap' ++ ("from".toList ++ (l.gap'' ++ t)))) := by
    rw [htext]
    apply blanks1_of_isGap (isGap_append l.isGap hblanks)
    rintro c ⟨⟩
    exact hc
  have hfurther : FurtherOn (c :: item ++ (l.gap' ++ ("from".toList ++ (l.gap'' ++ t)))) name rest := by
    refine ⟨c :: item, _, rfl, fun hmem => hline ?_, l.gap', _, l.isGap', rfl, hmodule⟩
    rw [hcut]
    exact List.mem_append_right blanks hmem
  obtain ⟨name', rest', hlater, hle⟩ := hfurther.laterModule
  refine ⟨name', rest', ?_, hle⟩
  rw [importedModule_eq, Reader.bind_of_eq_some hread, Reader.orElse_eq_some_iff]
  exact .inl hlater

/-- Where nothing but white space stands before the word `from`, that word counts if no other is set off
further on the line. -/
theorem importedModule_of_blank (hitem : ∀ c ∈ l.item, Text.isBlank c = true)
    (hnone : ∀ name rest, ¬FurtherOn ("from".toList ++ (l.gap'' ++ t)) name rest)
    (hmodule : NamesModule ("from".toList ++ (l.gap'' ++ t)) name rest) :
    importedModule.parse (l.text ++ t) = some (name, rest) := by
  have hspaces : IsGap (l.gap ++ (l.item ++ l.gap')) := by
    apply isGap_append l.isGap
    intro c hc
    exact (List.mem_append.1 hc).elim (hitem c) (l.isGap'.2 c)
  have htext : l.text ++ t = (l.gap ++ (l.item ++ l.gap')) ++ ("from".toList ++ (l.gap'' ++ t)) := by
    simp only [text, List.append_assoc]
  have hread : Reader.blanks1.parse (l.text ++ t) =
      some (l.gap ++ (l.item ++ l.gap'), "from".toList ++ (l.gap'' ++ t)) := by
    rw [htext]
    apply blanks1_of_isGap hspaces
    rintro c ⟨⟩
    decide
  have hlater : TypeScript.laterModule ("from".toList ++ (l.gap'' ++ t)) = none := by
    refine Option.eq_none_iff_forall_ne_some.2 fun found hfound => ?_
    exact hnone found.1 found.2 (furtherOn_of_laterModule hfound)
  have hlong : (l.gap ++ (l.item ++ l.gap')).length ≠ 1 := by
    have hgap := List.length_pos_iff.2 l.isGap.1
    have hgap' := List.length_pos_iff.2 l.isGap'.1
    simp only [List.length_append]
    omega
  rw [importedModule_eq, Reader.bind_of_eq_some hread, Reader.orElse_eq_some_iff, if_neg hlong]
  exact .inr ⟨hlater, fromModule_eq_some_iff.2 hmodule⟩

/-- A reader takes what an item leads to, or something that ends before it. -/
theorem IsRead.importedModule (h : l.IsRead t) (hquoted : Quoted t name rest) :
    ∃ name' rest', importedModule.parse (l.text ++ t) = some (name', rest') ∧ rest.length ≤ rest'.length := by
  obtain ⟨hline, hitem⟩ := h
  have hmodule : NamesModule ("from".toList ++ (l.gap'' ++ t)) name rest :=
    ⟨l.gap'', t, l.isGap'', rfl, hquoted⟩
  by_cases hblank : ∃ c ∈ l.item, Text.isBlank c = false
  · exact importedModule_of_not_blank hline hblank hmodule
  · have hspaces : ∀ c ∈ l.item, Text.isBlank c = true := by simpa using hblank
    exact ⟨name, rest, importedModule_of_blank hspaces (hitem.resolve_left hblank) hmodule, Nat.le_refl _⟩

/-- A reader takes something that an item leads to. -/
theorem exists_of_importedModule (h : importedModule.parse t = some (name, rest)) :
    ∃ (l : Lead) (behind : Text), t = l.text ++ behind ∧ l.IsRead behind ∧ Quoted behind name rest := by
  rw [importedModule_eq, Reader.bind_eq_some_iff] at h
  obtain ⟨gap, mid, hgap, hread⟩ := h
  obtain ⟨hne, rfl, hblank, hmid⟩ := Reader.many1_eq_some_iff.1 hgap
  rcases Reader.orElse_eq_some_iff.1 hread with hlater | ⟨hnone, hclose⟩
  · obtain ⟨item, _, rfl, hline, gap', _, hgap', rfl, gap'', behind, hgap'', rfl, hquoted⟩ :=
      furtherOn_of_laterModule hlater
    refine ⟨⟨gap, item, gap', gap'', ⟨hne, hblank⟩, hgap', hgap''⟩, behind, by simp [text], ⟨hline, .inl ?_⟩,
      hquoted⟩
    cases item with
    | nil =>
      -- white space would go on where it has ended
      obtain ⟨c, gap', rfl⟩ := List.exists_cons_of_ne_nil hgap'.1
      cases (hmid c rfl).symm.trans (hgap'.2 c List.mem_cons_self)
    | cons c item => exact ⟨c, List.mem_cons_self, hmid c rfl⟩
  · split at hclose
    · cases hclose
    · next hlong =>
      obtain ⟨gap'', behind, hgap'', rfl, hquoted⟩ := fromModule_eq_some_iff.1 hclose
      obtain ⟨c, gap', rfl⟩ := List.exists_cons_of_ne_nil hne
      obtain ⟨hc, hblank'⟩ := List.forall_mem_cons.1 hblank
      have hne' : gap' ≠ [] := by
        rintro rfl
        exact hlong rfl
      have hgap : IsGap [c] := ⟨List.cons_ne_nil c [], by simpa using hc⟩
      refine ⟨⟨[c], [], gap', gap'', hgap, ⟨hne', hblank'⟩, hgap''⟩, behind, by simp [text],
        ⟨List.not_mem_nil, .inr fun name rest hfurther => ?_⟩, hquoted⟩
      obtain ⟨name', rest', hlater, -⟩ := hfurther.laterModule
      cases hnone.symm.trans hlater

theorem noQuote_text (hitem : NoQuote l.item) : NoQuote l.text := by
  rw [text, noQuote_append, noQuote_append]
  exact ⟨noQuote_of_isGap l.isGap, hitem, noQuote_from l.isGap' l.isGap''⟩

/-- Without quotes on the way, exactly what an item leads to is taken. -/
theorem IsRead.importedModule_eq_some (h : l.IsRead t) (hquoted : Quoted t name rest)
    (hnone : NoQuote l.text) :
    TypeScript.importedModule.parse (l.text ++ t) = some (name, rest) := by
  obtain ⟨name', rest', hread, hle⟩ := h.importedModule hquoted
  obtain ⟨l', t', heq, -, hquoted'⟩ := exists_of_importedModule hread
  rcases hquoted.eq_or_length_lt hquoted' (hquoted'.suffix_of_noQuote hnone heq.symm) with rfl | hlt
  · obtain ⟨rfl, rfl⟩ := hquoted.unique hquoted'
    exact hread
  · exact absurd hlt (Nat.not_lt_of_le hle)

/-- Where two leads end together, they do so from the word `from` on. -/
theorem cut_from {m : Lead} (h : t ++ l.text = u ++ m.text) :
    t ++ (l.gap ++ (l.item ++ l.gap')) = u ++ (m.gap ++ (m.item ++ m.gap')) := by
  have hfrom : "from".toList = "fro".toList ++ ['m'] := rfl
  have hm (l : Lead) : 'm' ∉ l.gap'' := notMem_of_isGap (by decide) l.isGap''
  have hcut : (t ++ (l.gap ++ (l.item ++ l.gap')) ++ "fro".toList) ++ 'm' :: l.gap'' =
      (u ++ (m.gap ++ (m.item ++ m.gap')) ++ "fro".toList) ++ 'm' :: m.gap'' := by
    simpa only [text, hfrom, List.append_assoc, List.singleton_append] using h
  exact List.append_cancel_right (Text.append_cons_inj_left (hm l) (hm m) hcut)

theorem suffix_import (l : Lead) (t : Text) : t <:+ "import".toList ++ (l.text ++ t) :=
  ⟨"import".toList ++ l.text, List.append_assoc _ _ _⟩

theorem exists_of_keyed (h : (Reader.keyed "import".toList importedModule).parse t = some (name, rest)) :
    ∃ (l : Lead) (behind : Text), t = "import".toList ++ (l.text ++ behind) ∧ l.IsRead behind ∧
      importedModule.parse (l.text ++ behind) = some (name, rest) ∧ Quoted behind name rest := by
  obtain ⟨_, mid, hkey, hread⟩ := Reader.bind_eq_some_iff.1 h
  obtain ⟨l, behind, rfl, hl, hquoted⟩ := exists_of_importedModule hread
  exact ⟨l, behind, Reader.literal_eq_some_iff.1 hkey, hl, hread, hquoted⟩

theorem suffix_of_keyed (t name rest : Text)
    (h : (Reader.keyed "import".toList importedModule).parse t = some (name, rest)) : rest <:+ t := by
  obtain ⟨l, behind, rfl, -, -, hquoted⟩ := exists_of_keyed h
  exact hquoted.suffix.trans (l.suffix_import behind)

theorem not_overlap {t : Text} (heq : "import".toList ++ t = u ++ ("import".toList ++ v)) (hu : u ≠ []) :
    ∃ u', t = u' ++ ("import".toList ++ v) := by
  have hkey : 'i' ∉ "mport".toList := by decide
  rcases Text.eq_nil_or_key_append hkey heq with hnil | ⟨u', rfl⟩
  · exact absurd hnil hu
  · rw [List.append_assoc] at heq
    exact ⟨u', List.append_cancel_left heq⟩

/-- Where one lead goes past the quotes of a later one, its item holds the later one, and a part of the item
leads to the same quotes. -/
theorem exists_shorter {m : Lead} {q : Char} (hq : IsQuote q) (hline : '\n' ∉ m.item)
    (h : m.text = u ++ ("import".toList ++ (l.text ++ q :: v))) :
    ∃ k : Lead, m.text = k.text ++ q :: v ∧ '\n' ∉ k.item ∧ ∃ c ∈ k.item, Text.isBlank c = false := by
  have hcut : (m.gap ++ m.item) ++ (m.gap' ++ ("from".toList ++ m.gap'')) =
      (u ++ ("import".toList ++ l.text)) ++ q :: v := by
    simpa only [text, List.append_assoc] using h
  obtain ⟨v', hv', -⟩ := Text.cut_of_notMem_right (fun hmem => noQuote_from m.isGap' m.isGap'' q hmem hq) hcut
  have hitem : m.gap ++ m.item = u ++ 'i' :: ("mport".toList ++ (l.text ++ q :: v')) := by
    rw [hv', List.append_assoc, List.append_assoc]
    rfl
  obtain ⟨u', rfl, hm⟩ := Text.cut_of_notMem_left (notMem_of_isGap (by decide) m.isGap) hitem
  have hpart : u' ++ ("import".toList ++ (l.gap ++ l.item)) <+: m.item := by
    refine ⟨l.gap' ++ ("from".toList ++ (l.gap'' ++ q :: v')), ?_⟩
    rw [hm, text]
    simp only [List.append_assoc]
    rfl
  let k : Lead :=
    ⟨m.gap, u' ++ ("import".toList ++ (l.gap ++ l.item)), l.gap', l.gap'', m.isGap, l.isGap', l.isGap''⟩
  refine ⟨k, ?_, fun hmem => hline (hpart.subset hmem), 'i', ?_, by decide⟩
  · rw [h]
    simp only [k, text, List.append_assoc]
  · exact List.mem_append_right _ (List.mem_append_left _ (by decide))

/-- What starts before an import does not end behind its quotes: it would have ended with them. -/
theorem eq_of_suffix {m : Lead} {behind : Text} (hm : '\n' ∉ m.item) (hu : u ≠ [])
    (heq : "import".toList ++ (m.text ++ behind) = u ++ ("import".toList ++ (l.text ++ t)))
    (hread : importedModule.parse (m.text ++ behind) = some (name', rest')) (hquoted : Quoted t name rest)
    (hquoted' : Quoted behind name' rest') (hsuffix : behind <:+ t) : behind = t := by
  obtain ⟨v, rfl⟩ := hsuffix
  cases v with
  | nil => rfl
  | cons q v =>
    exfalso
    have hq : IsQuote q := by
      obtain ⟨p, p', hp, -, hcons, -⟩ := hquoted
      rwa [(List.cons.inj hcons).1]
    obtain ⟨u', hu'⟩ := not_overlap heq hu
    have hover : m.text = u' ++ ("import".toList ++ (l.text ++ q :: v)) := by
      apply List.append_cancel_right (hu'.trans _)
      simp only [List.append_assoc, List.cons_append]
    obtain ⟨k, hk, hline, hitem⟩ := exists_shorter hq hm hover
    have hkread : k.IsRead (q :: v ++ behind) := ⟨hline, .inl hitem⟩
    obtain ⟨name'', rest'', hread', hle⟩ := hkread.importedModule hquoted
    rw [hk, List.append_assoc, hread'] at hread
    cases hread
    rcases hquoted.eq_or_length_lt hquoted' (List.suffix_append (q :: v) behind) with hsame | hlt
    · have hlength := congrArg List.length hsame
      rw [List.length_append, List.length_cons] at hlength
      omega
    · exact absurd hlt (Nat.not_lt_of_le hle)

/-- What starts before an import and ends in it ends with its quotes, or with the first of them. -/
theorem eq_or_cons_eq {m : Lead} {behind : Text} (hnone : NoQuote ("import".toList ++ l.text))
    (hm : '\n' ∉ m.item) (hread : importedModule.parse (m.text ++ behind) = some (name', rest'))
    (hquoted : Quoted t name rest) (hquoted' : Quoted behind name' rest')
    (hover : ("import".toList ++ l.text) ++ t <:+ "import".toList ++ (m.text ++ behind))
    (hbefore : (("import".toList ++ l.text) ++ t).length < ("import".toList ++ (m.text ++ behind)).length)
    (hbehind : rest'.length < (("import".toList ++ l.text) ++ t).length) :
    behind = t ∨ ∃ q, q :: rest' = t := by
  have hquotes : t <:+ "import".toList ++ (m.text ++ behind) := (List.suffix_append _ t).trans hover
  rcases List.suffix_or_suffix_of_suffix (m.suffix_import behind) hquotes with hlater | hearlier
  · obtain ⟨u, hu⟩ := hover
    have hne : u ≠ [] := by
      rintro rfl
      exact absurd (congrArg List.length hu) (Nat.ne_of_lt hbefore)
    rw [List.append_assoc] at hu
    exact .inl (eq_of_suffix hm hne hu.symm hread hquoted hquoted' hlater)
  · rcases hquoted'.eq_or_cons_suffix hquoted hearlier with hsame | ⟨q, hq, hcons, hinner⟩
    · exact .inl hsame.symm
    · -- the closing quote is not in the import, for there are none before its own
      obtain ⟨u, hu⟩ : q :: rest' <:+ ("import".toList ++ l.text) ++ t :=
        List.suffix_of_suffix_length_le (hcons.trans (m.suffix_import behind)) hover hbehind
      obtain ⟨u', -, ht⟩ := Text.cut_of_notMem_left (fun hmem => hnone q hmem hq) hu.symm
      have hsuffix : q :: rest' <:+ t := ⟨u', ht.symm⟩
      exact .inr ⟨q, hsuffix.eq_of_length_le hinner.length_le⟩

end Lead

/-! ### Statements -/

/-- A statement that imports a module: the word `import` and a clause, which may go over several lines, the
word `from` and the name of the module in quotes. -/
structure ImportStatement extends Lead where
  opening : Char
  name : Text
  closing : Char
  item_ne : item ≠ [] := by decide
  item_first : item.head?.any Text.isBlank = false := by decide
  item_last : item.getLast?.any Text.isBlank = false := by decide
  item_noQuote : NoQuote item := by decide
  isQuote_opening : IsQuote opening := by decide
  name_noQuote : NoQuote name := by decide
  isQuote_closing : IsQuote closing := by decide

/-- Something is imported whose closing quote is missing. -/
def LeavesOpen (t : Text) : Prop :=
  ∃ front, ∃ l : Lead, ∃ q behind, t = front ++ ("import".toList ++ (l.text ++ q :: behind)) ∧ '\n' ∉ l.item ∧
    IsQuote q ∧ NoQuote behind

namespace ImportStatement

variable (s : ImportStatement)

/-- The name in its quotes and what follows the statement. -/
def quoted (after : Text) : Text := s.opening :: (s.name ++ s.closing :: after)

/-- A file with the statement in it. -/
def within (before after : Text) : Text := before ++ ("import".toList ++ (s.toLead.text ++ s.quoted after))

/-- The search for imports finds the module of the statement in its place. -/
def Found (before after : Text) : Prop :=
  Reader.Finds "import".toList importedModule (s.within before after) s.name after

/-- Something is found before that ends with the opening quote of the statement. -/
def Swallowed (before after : Text) : Prop :=
  ∃ other, Reader.Finds "import".toList importedModule (s.within before after) other
    (s.name ++ s.closing :: after)

/-- Some word `import` of the statement, which may stand in its clause, leads to the quotes. -/
def Readable (after : Text) : Prop :=
  ∃ front, ∃ l : Lead, "import".toList ++ s.toLead.text = front ++ ("import".toList ++ l.text) ∧
    l.IsRead (s.quoted after)

variable {s} {l : Lead}

theorem noQuote_lead : NoQuote ("import".toList ++ s.toLead.text) :=
  noQuote_append.2 ⟨noQuote_import, Lead.noQuote_text s.item_noQuote⟩

theorem exists_cons : ∃ c t, s.item = c :: t ∧ Text.isBlank c = false := by
  obtain ⟨c, t, hitem⟩ := List.exists_cons_of_ne_nil s.item_ne
  have hfirst := s.item_first
  rw [hitem] at hfirst
  exact ⟨c, t, hitem, hfirst⟩

theorem exists_concat : ∃ t c, s.item = t ++ [c] ∧ Text.isBlank c = false := by
  have hlast := s.item_last
  rw [List.getLast?_eq_some_getLast s.item_ne] at hlast
  exact ⟨_, _, (List.dropLast_concat_getLast s.item_ne).symm, hlast⟩

theorem quoted_iff : Quoted (s.quoted after) s.name after ↔ s.name ≠ [] := by
  constructor
  · rintro ⟨q, q', -, -, -, hne, -⟩
    exact hne
  · intro hne
    exact ⟨s.opening, s.closing, s.isQuote_opening, s.isQuote_closing, rfl, hne, s.name_noQuote⟩

/-- An item that is led to over the whole clause holds it. -/
theorem item_infix (h : s.toLead.text <:+ l.text) : s.item <:+: l.item := by
  obtain ⟨u, hu⟩ := h
  obtain ⟨c, item, hfirst, hc⟩ := s.exists_cons
  obtain ⟨item', d, hlast, hd⟩ := s.exists_concat
  have hcut : (l.gap ++ l.item) ++ l.gap' = (u ++ (s.gap ++ item')) ++ d :: s.gap' := by
    have hfrom : [] ++ (l.gap ++ (l.item ++ l.gap')) = u ++ (s.gap ++ (s.item ++ s.gap')) :=
      Lead.cut_from hu.symm
    simpa [hlast] using hfrom
  obtain ⟨w, hw, -⟩ := Text.cut_of_notMem_right (notMem_of_isGap hd l.isGap') hcut
  have hitem : l.gap ++ l.item = (u ++ s.gap) ++ c :: (item ++ w) := by
    have hclause : item' ++ d :: w = c :: (item ++ w) := by
      rw [← List.cons_append, ← hfirst, hlast, List.append_assoc, List.singleton_append]
    rw [hw, ← hclause]
    simp only [List.append_assoc]
  obtain ⟨v, -, hv⟩ := Text.cut_of_notMem_left (notMem_of_isGap hc l.isGap) hitem
  exact ⟨v, w, by rw [hv, hfirst, List.append_assoc, List.cons_append]⟩

theorem readable_of_notMem (after : Text) (h : '\n' ∉ s.item) : s.Readable after := by
  obtain ⟨c, t, hitem, hc⟩ := s.exists_cons
  exact ⟨[], s.toLead, rfl, h, .inl ⟨c, by simp [hitem], hc⟩⟩

/-- A clause that leads to the quotes is on one line, or the letters `import` stand in it. -/
theorem Readable.notMem_or_infix (h : s.Readable after) : '\n' ∉ s.item ∨ "import".toList <:+: s.item := by
  obtain ⟨front, l, heq, hline, -⟩ := h
  by_cases hfront : front = []
  · rw [hfront, List.nil_append] at heq
    have htext : s.toLead.text = l.text := List.append_cancel_left heq
    exact .inl fun hmem => hline ((s.item_infix (htext ▸ List.suffix_refl _)).subset hmem)
  · obtain ⟨front, hover⟩ := Lead.not_overlap heq hfront
    have htext : [] ++ s.toLead.text = (front ++ "import".toList) ++ l.text := by
      rw [hover, List.append_assoc, List.nil_append]
    have hcut : s.gap ++ (s.item ++ s.gap') =
        front ++ 'i' :: ("mport".toList ++ (l.gap ++ (l.item ++ l.gap'))) := by
      have hfrom := Lead.cut_from htext
      rw [List.append_assoc] at hfrom
      exact hfrom
    obtain ⟨u, -, hu⟩ := Text.cut_of_notMem_left (notMem_of_isGap (by decide) s.isGap) hcut
    have hword : s.item ++ s.gap' = (u ++ "impor".toList) ++ 't' :: (l.gap ++ (l.item ++ l.gap')) := by
      rw [hu, List.append_assoc]
      rfl
    obtain ⟨v, hitem, -⟩ := Text.cut_of_notMem_right (notMem_of_isGap (by decide) s.isGap') hword
    refine .inr ⟨u, v, ?_⟩
    rw [hitem, List.append_assoc, List.append_assoc]
    rfl

theorem found_of_readable (hne : s.name ≠ []) (hread : s.Readable after) (hfree : ¬s.Swallowed before after) :
    s.Found before after := by
  obtain ⟨front, l, heq, hl⟩ := hread
  have hquoted : Quoted (s.quoted after) s.name after := quoted_iff.2 hne
  have hnone : NoQuote ("import".toList ++ l.text) := by
    have hlead := s.noQuote_lead
    rw [heq, noQuote_append] at hlead
    exact hlead.2
  have hplace : ("import".toList ++ l.text) ++ s.quoted after <:+ s.within before after := by
    refine ⟨before ++ front, ?_⟩
    rw [within, ← List.append_assoc "import".toList, heq]
    simp only [List.append_assoc]
  rcases Reader.comes_or_passes (by decide) Lead.suffix_of_keyed hplace with
    hcomes | ⟨u, other, rest, hcomes, hother, hover, hlt, hrest⟩
  · refine ⟨_, hcomes, ?_⟩
    rw [List.append_assoc, Reader.keyed_append]
    exact hl.importedModule_eq_some hquoted (noQuote_append.1 hnone).2
  · obtain ⟨m, behind, rfl, hm, hread, hquoted'⟩ := Lead.exists_of_keyed hother
    rcases Lead.eq_or_cons_eq hnone hm.1 hread hquoted hquoted' hover hlt hrest with rfl | ⟨q, hopen⟩
    · obtain ⟨rfl, rfl⟩ := hquoted.unique hquoted'
      exact ⟨_, hcomes, hother⟩
    · obtain ⟨-, rfl⟩ := List.cons.inj hopen
      exact absurd ⟨other, _, hcomes, hother⟩ hfree

/-- What leads to the quotes starts in the statement, or its item holds the clause. -/
theorem readable_of_within (hl : l.IsRead (s.quoted after))
    (h : "import".toList ++ (l.text ++ s.quoted after) <:+ s.within before after) : s.Readable after := by
  obtain ⟨u, hu⟩ := h
  have hboth : (u ++ ("import".toList ++ l.text)) ++ s.quoted after =
      (before ++ ("import".toList ++ s.toLead.text)) ++ s.quoted after := by
    simpa only [within, List.append_assoc] using hu
  rcases List.append_eq_append_iff.1 (List.append_cancel_right hboth) with ⟨b, -, hb⟩ | ⟨front, -, hfront⟩
  · have hlength := congrArg List.length hb
    simp only [List.length_append] at hlength
    have hsuffix : s.toLead.text <:+ l.text := by
      refine List.suffix_of_suffix_length_le ⟨b ++ "import".toList, ?_⟩ (List.suffix_append "import".toList _)
        (by omega)
      rw [hb, List.append_assoc]
    exact readable_of_notMem after fun hmem => hl.1 ((s.item_infix hsuffix).subset hmem)
  · exact ⟨front, l, hfront, hl⟩

theorem Found.readable (h : s.Found before after) :
    s.name ≠ [] ∧ s.Readable after ∧ ¬s.Swallowed before after := by
  obtain ⟨u, hcomes, hread⟩ := h
  obtain ⟨l, behind, rfl, hl, -, hquoted⟩ := Lead.exists_of_keyed hread
  have hplace := hcomes.suffix Lead.suffix_of_keyed
  have hsame : behind = s.quoted after := by
    have hbehind : behind <:+ s.within before after := (l.suffix_import behind).trans hplace
    have hquotes : s.quoted after <:+ s.within before after :=
      (s.toLead.suffix_import _).trans (List.suffix_append before _)
    have hlength : behind.length = (s.quoted after).length := by
      obtain ⟨q, q', -, -, rfl, -⟩ := hquoted
      simp only [quoted, List.length_cons, List.length_append]
    exact (List.suffix_of_suffix_length_le hbehind hquotes (Nat.le_of_eq hlength)).eq_of_length hlength
  subst hsame
  refine ⟨quoted_iff.1 hquoted, readable_of_within hl hplace, ?_⟩
  rintro ⟨other, hother⟩
  have hle := hother.length_le hcomes hread (by simp only [List.length_append, List.length_cons]; omega)
  simp only [quoted, List.length_append, List.length_cons] at hle
  omega

theorem Swallowed.leavesOpen (h : s.Swallowed before after) : LeavesOpen before := by
  obtain ⟨other, u, hcomes, hread⟩ := h
  obtain ⟨l, behind, rfl, hl, -, q, q', hq, hq', rfl, -, hother⟩ := Lead.exists_of_keyed hread
  obtain ⟨front, hfront⟩ := hcomes.suffix Lead.suffix_of_keyed
  have hboth :
      (front ++ ("import".toList ++ (l.text ++ q :: other))) ++ q' :: (s.name ++ s.closing :: after) =
      (before ++ ("import".toList ++ s.toLead.text)) ++ s.opening :: (s.name ++ s.closing :: after) := by
    simpa only [within, quoted, List.append_assoc, List.cons_append] using hfront
  have hcut : before ++ ("import".toList ++ s.toLead.text) =
      (front ++ ("import".toList ++ l.text)) ++ q :: other := by
    simpa only [List.append_assoc] using (List.append_inj' hboth rfl).1.symm
  obtain ⟨behind, hbefore, rfl⟩ := Text.cut_of_notMem_right (fun hmem => s.noQuote_lead q hmem hq) hcut
  refine ⟨front, l, q, behind, ?_, hl.1, hq, (noQuote_append.1 hother).1⟩
  rw [hbefore]
  simp only [List.append_assoc]

theorem Found.mem_imports_iff (h : s.Found before after) :
    s.name ∈ imports (s.within before after) ↔ isRelative s.name = false := by
  have hmem : s.name ∈ Reader.findAll "import".toList importedModule (s.within before after) :=
    (Reader.mem_findAll_iff (by decide)).2 ⟨after, h⟩
  rw [imports, Text.sortedSet, TextOrder.mem_sort, List.mem_filter, List.mem_append]
  constructor
  · rintro ⟨-, houtside⟩
    simpa using houtside
  · intro houtside
    exact ⟨.inl hmem, by rw [houtside]; rfl⟩

end ImportStatement

/-- A statement is found exactly if it names something, some `import` in it leads to its quotes and no earlier
finding has taken its opening quote, which needs an import with a missing quote before it. A clause on one
line always leads to the quotes; one that is broken over lines does so only if the letters `import` stand in
it. What is found is among the imports unless it is relative. -/
theorem import_found_iff (s : ImportStatement) (before after : Text) :
    (s.Found before after ↔ s.name ≠ [] ∧ s.Readable after ∧ ¬s.Swallowed before after) ∧
      ('\n' ∉ s.item → s.Readable after) ∧
      (s.Readable after → '\n' ∉ s.item ∨ "import".toList <:+: s.item) ∧
      (s.Swallowed before after → LeavesOpen before) ∧
      (s.Found before after →
        (s.name ∈ imports (s.within before after) ↔ isRelative s.name = false)) := by
  refine ⟨⟨fun h => h.readable, ?_⟩, s.readable_of_notMem after, fun h => h.notMem_or_infix,
    fun h => h.leavesOpen, fun h => h.mem_imports_iff⟩
  rintro ⟨hne, hread, hfree⟩
  exact s.found_of_readable hne hread hfree

/-- A clause whose last name ends in the letters `import`, on a line of its own. -/
def reimport : ImportStatement where
  gap := " ".toList
  item := "* as\nreimport".toList
  gap' := "  ".toList
  gap'' := " ".toList
  opening := '\''
  name := "m".toList
  closing := '\''

theorem reimport_imported :
    '\n' ∈ reimport.item ∧ reimport.name ∈ imports (reimport.within [] "\n".toList) := by
  have hread : reimport.Readable "\n".toList := by
    let close : Lead := { gap := [' '], item := [], gap' := [' '], gap'' := [' '] }
    refine ⟨"import * as\nre".toList, close, rfl, List.not_mem_nil, .inr fun name rest hfurther => ?_⟩
    obtain ⟨name', rest', hlater, -⟩ := hfurther.laterModule
    cases hlater
  obtain ⟨hfound, -, -, hopen, hmem⟩ := import_found_iff reimport [] "\n".toList
  have hfree : ¬reimport.Swallowed [] "\n".toList := by
    intro hswallowed
    obtain ⟨front, l, q, behind, hnil, -⟩ := hopen hswallowed
    simp at hnil
  exact ⟨by decide, (hmem (hfound.2 ⟨by decide, hread, hfree⟩)).2 rfl⟩

/-- A clause with one name on each line. -/
def brokenImport : ImportStatement where
  gap := " ".toList
  item := "\x7b\n  a,\n  b\n\x7d".toList
  gap' := " ".toList
  gap'' := " ".toList
  opening := '\''
  name := "m".toList
  closing := '\''

theorem brokenImport_not_imported : isRelative brokenImport.name = false ∧
    imports (brokenImport.within [] "\n".toList) = [] := by
  decide +kernel

end CodeIndex.TypeScript
