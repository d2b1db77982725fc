import CodeIndex.Text.Blank
import CodeIndex.Text.Word

/-!
# Pieces and lines

A text is cut at a character and joined again. No piece has the character in it, and the pieces of a
text that was put together at one are the pieces of both sides. The last lemmas are on texts that are cut
once, where a property of their characters ends.
-/

namespace CodeIndex.Text

variable {sep c : Char} {t u p : Text} {ls ps : List Text}

theorem pieces_cons_sep (sep : Char) (t : Text) : pieces sep (sep :: t) = [] :: pieces sep t := by
  simp [pieces]

theorem pieces_append (sep : Char) (t u : Text) :
    pieces sep (t ++ sep :: u) = pieces sep t ++ pieces sep u := by
  induction t with
  | nil => exact pieces_cons_sep sep u
  | cons c t ih =>
    obtain ⟨piece, rest, hp⟩ := List.exists_cons_of_ne_nil (pieces_ne_nil sep t)
    simp only [pieces, List.cons_append, List.foldr_cons] at ih hp ⊢
    rw [ih, hp]
    split
    · rfl
    · rfl

theorem pieces_of_notMem (ht : sep ∉ t) : pieces sep t = [t] := by
  induction t with
  | nil => rfl
  | cons c t ih =>
    have hc : c ≠ sep := fun h => ht (by simp [h])
    have hrest := ih fun h => ht (List.mem_cons_of_mem _ h)
    simp only [pieces, List.foldr_cons] at hrest ⊢
    rw [if_neg hc, hrest]

theorem pieces_append_sep (ht : sep ∉ t) (u : Text) :
    pieces sep (t ++ sep :: u) = t :: pieces sep u := by
  rw [pieces_append, pieces_of_notMem ht]
  rfl

theorem pieces_append_flatMap (ht : sep ∉ t) (h : ∀ u ∈ ls, sep ∉ u) :
    pieces sep (t ++ ls.flatMap (sep :: ·)) = t :: ls := by
  induction ls generalizing t with
  | nil => rw [List.flatMap_nil, List.append_nil, pieces_of_notMem ht]
  | cons u ls ih =>
    obtain ⟨hu, hls⟩ := List.forall_mem_cons.1 h
    rw [List.flatMap_cons, List.cons_append, pieces_append_sep ht, ih hu hls]

/-- There is one way to cut a text where a character stands for the first time. -/
theorem append_cons_inj {t' u' : Text} (ht : sep ∉ t) (ht' : sep ∉ t')
    (h : t ++ sep :: u = t' ++ sep :: u') : t = t' ∧ u = u' := by
  have hpieces := congrArg (pieces sep) h
  rw [pieces_append_sep ht, pieces_append_sep ht'] at hpieces
  obtain rfl := (List.cons.inj hpieces).1
  exact ⟨rfl, (List.cons.inj (List.append_cancel_left h)).2⟩

/-- A piece without a character ends before its first occurrence. -/
theorem cut_of_notMem_left {v w : Text} (hc : c ∉ t) (h : t ++ w = u ++ c :: v) :
    ∃ u', u = t ++ u' ∧ w = u' ++ c :: v := by
  rcases List.append_eq_append_iff.1 h with ⟨u', hu, hw⟩ | ⟨t', ht, hw⟩
  · exact ⟨u', hu, hw⟩
  · cases t' with
    | nil => exact ⟨[], by simpa using ht.symm, hw.symm⟩
    | cons d t' =>
      rw [(List.cons.inj hw).1] at hc
      exact absurd (by simp [ht]) hc

/-- A piece without a character begins behind its last occurrence. -/
theorem cut_of_notMem_right {v w : Text} (hc : c ∉ t) (h : w ++ t = u ++ c :: v) :
    ∃ v', w = u ++ c :: v' ∧ v = v' ++ t := by
  rcases List.append_eq_append_iff.1 h with ⟨u', -, ht⟩ | ⟨v', hw, hv⟩
  · exact absurd (by simp [ht]) hc
  · cases v' with
    | nil =>
      rw [List.nil_append] at hv
      exact absurd (hv ▸ List.mem_cons_self) hc
    | cons d v' =>
      obtain ⟨rfl, rfl⟩ := List.cons.inj hv
      exact ⟨v', hw, rfl⟩

/-- There is one way to cut a text where a character stands for the last time. -/
theorem append_cons_inj_left {t' u' : Text} (ht : c ∉ t) (ht' : c ∉ t') (h : u ++ c :: t = u' ++ c :: t') :
    u = u' := by
  have hreversed := congrArg List.reverse h
  simp only [List.reverse_append, List.reverse_cons, List.append_assoc, List.singleton_append] at hreversed
  have hcut := append_cons_inj (by simpa using ht) (by simpa using ht') hreversed
  exact List.reverse_inj.1 hcut.2

/-- A key whose first character stands nowhere else in it does not overlap with itself. -/
theorem eq_nil_or_key_append {k : Char} {key v : Text} (hkey : k ∉ key) (h : k :: key ++ t = u ++ (k :: key ++ v)) :
    u = [] ∨ ∃ u', u = k :: key ++ u' := by
  cases u with
  | nil => exact .inl rfl
  | cons d u =>
    obtain ⟨rfl, htail⟩ := List.cons.inj h
    obtain ⟨u', rfl, -⟩ := cut_of_notMem_left hkey htail
    exact .inr ⟨u', rfl⟩

theorem notMem_of_mem_pieces (h : u ∈ pieces sep t) : sep ∉ u := by
  induction t generalizing u with
  | nil =>
    simp only [pieces, List.foldr_nil, List.mem_singleton] at h
    simp [h]
  | cons c t ih =>
    by_cases hc : c = sep
    · rw [hc, pieces_cons_sep] at h
      rcases List.mem_cons.1 h with rfl | h
      · exact List.not_mem_nil
      · exact ih h
    · obtain ⟨piece, rest, hp⟩ := List.exists_cons_of_ne_nil (pieces_ne_nil sep t)
      have hcons : pieces sep (c :: t) = (c :: piece) :: rest := by
        simp only [pieces, List.foldr_cons] at hp ⊢
        rw [if_neg hc, hp]
      rw [hcons] at h
      rcases List.mem_cons.1 h with rfl | h
      · intro hmem
        rcases List.mem_cons.1 hmem with rfl | hmem
        · exact hc rfl
        · exact ih (hp ▸ List.mem_cons_self) hmem
      · exact ih (hp ▸ List.mem_cons_of_mem _ h)

/-- The members of a list are all there when it is joined. -/
theorem mem_intercalate {sep : Text} (hu : u ∈ ls) (hc : c ∈ u) : c ∈ sep.intercalate ls := by
  induction ls with
  | nil => cases hu
  | cons t ls ih =>
    cases ls with
    | nil =>
      obtain rfl := List.mem_singleton.1 hu
      rwa [List.intercalate_singleton]
    | cons t' ls =>
      rw [List.intercalate_cons_cons, List.mem_append, List.mem_append]
      rcases List.mem_cons.1 hu with rfl | hu
      · exact .inl (.inl hc)
      · exact .inr (ih hu)

theorem mem_or_mem_of_mem_intercalate {sep : Text} (hc : c ∈ sep.intercalate ls) :
    c ∈ sep ∨ ∃ u ∈ ls, c ∈ u := by
  induction ls with
  | nil => cases hc
  | cons t ls ih =>
    cases ls with
    | nil =>
      rw [List.intercalate_singleton] at hc
      exact .inr ⟨t, List.mem_cons_self, hc⟩
    | cons t' ls =>
      rw [List.intercalate_cons_cons, List.mem_append, List.mem_append] at hc
      rcases hc with (hc | hc) | hc
      · exact .inr ⟨t, List.mem_cons_self, hc⟩
      · exact .inl hc
      · rcases ih hc with hsep | ⟨u, hu, hc⟩
        · exact .inl hsep
        · exact .inr ⟨u, List.mem_cons_of_mem _ hu, hc⟩

theorem mem_commaJoin_iff (hc : c ∉ [',', ' ']) : c ∈ commaJoin ls ↔ ∃ t ∈ ls, c ∈ t := by
  constructor
  · intro hmem
    rcases mem_or_mem_of_mem_intercalate hmem with hsep | hjoined
    · exact absurd hsep hc
    · exact hjoined
  · rintro ⟨t, ht, hct⟩
    exact mem_intercalate ht hct

theorem notMem_commaJoin (hc : c ∉ [',', ' ']) (h : ∀ t ∈ ls, c ∉ t) : c ∉ commaJoin ls := by
  intro hmem
  obtain ⟨t, ht, hct⟩ := (mem_commaJoin_iff hc).1 hmem
  exact h t ht hct

theorem mem_of_mem_pieces (hu : u ∈ pieces sep t) (hc : c ∈ u) : c ∈ t := by
  rw [← intercalate_pieces sep t]
  exact mem_intercalate hu hc

theorem intercalate_append {sep : Text} {ms : List Text} (hls : ls ≠ []) (hms : ms ≠ []) :
    sep.intercalate (ls ++ ms) = sep.intercalate ls ++ sep ++ sep.intercalate ms := by
  induction ls with
  | nil => exact absurd rfl hls
  | cons t ls ih =>
    cases ls with
    | nil =>
      rw [List.singleton_append, List.intercalate_cons_of_ne_nil hms, List.intercalate_singleton]
    | cons t' ls =>
      have hrest : t' :: ls ++ ms ≠ [] := List.cons_ne_nil _ _
      rw [List.cons_append, List.intercalate_cons_of_ne_nil hrest, ih (List.cons_ne_nil _ _),
        List.intercalate_cons_cons]
      simp only [List.append_assoc]

theorem pieces_intercalate (hne : ls ≠ []) :
    pieces sep ([sep].intercalate ls) = ls.flatMap (pieces sep) := by
  induction ls with
  | nil => exact absurd rfl hne
  | cons t ls ih =>
    cases ls with
    | nil => rw [List.intercalate_singleton, List.flatMap_singleton]
    | cons u ls =>
      rw [List.intercalate_cons_cons, List.append_assoc, List.singleton_append, pieces_append,
        List.flatMap_cons, ih (List.cons_ne_nil u ls)]

theorem pieces_intercalate_of_notMem (hne : ls ≠ []) (h : ∀ t ∈ ls, sep ∉ t) :
    pieces sep ([sep].intercalate ls) = ls := by
  have hpieces : ls.map (pieces sep) = ls.map fun t => [t] :=
    List.map_congr_left fun t ht => pieces_of_notMem (h t ht)
  rw [pieces_intercalate hne, List.flatMap_def, hpieces, ← List.flatMap_def, List.flatMap_singleton']

/-- What stands in front of a text without the character at which it is cut belongs to its first piece. -/
theorem pieces_append_left (ht : sep ∉ t) (hu : pieces sep u = p :: ps) :
    pieces sep (t ++ u) = (t ++ p) :: ps := by
  have hpieces : ∀ q ∈ p :: ps, sep ∉ q := fun q hq => notMem_of_mem_pieces (hu ▸ hq)
  have hjoin : t ++ u = [sep].intercalate ((t ++ p) :: ps) := by
    rw [← intercalate_pieces sep u, hu]
    cases ps with
    | nil => rw [List.intercalate_singleton, List.intercalate_singleton]
    | cons q ps => simp [List.intercalate_cons_cons]
  rw [hjoin]
  refine pieces_intercalate_of_notMem (List.cons_ne_nil _ _) (List.forall_mem_cons.2 ⟨?_, ?_⟩)
  · simpa [ht] using hpieces p List.mem_cons_self
  · exact fun q hq => hpieces q (List.mem_cons_of_mem _ hq)

/-- What stands behind a text without the character at which it is cut belongs to its last piece. -/
theorem pieces_append_right (hu : sep ∉ u) (ht : pieces sep t = ps ++ [p]) :
    pieces sep (t ++ u) = ps ++ [p ++ u] := by
  have hpieces : ∀ q ∈ ps ++ [p], sep ∉ q := fun q hq => notMem_of_mem_pieces (ht ▸ hq)
  have hjoin : t ++ u = [sep].intercalate (ps ++ [p ++ u]) := by
    rw [← intercalate_pieces sep t, ht]
    by_cases hps : ps = []
    · rw [hps, List.nil_append, List.nil_append, List.intercalate_singleton, List.intercalate_singleton]
    · rw [intercalate_append hps (List.cons_ne_nil _ _), intercalate_append hps (List.cons_ne_nil _ _),
        List.intercalate_singleton, List.intercalate_singleton, List.append_assoc _ p]
  rw [hjoin]
  refine pieces_intercalate_of_notMem (by simp) (List.forall_mem_append.2 ⟨?_, ?_⟩)
  · exact fun q hq => hpieces q (List.mem_append_left _ hq)
  · have hp : sep ∉ p := hpieces p (by simp)
    simpa using ⟨hp, hu⟩

/-- A piece behind the first one stands behind the character at which the text is cut. -/
theorem exists_cut_of_mem_tail (h : u ∈ (pieces sep t).tail) :
    ∃ before after, t = before ++ sep :: (u ++ after) := by
  obtain ⟨p, ps, hp⟩ := List.exists_cons_of_ne_nil (pieces_ne_nil sep t)
  rw [hp, List.tail_cons] at h
  obtain ⟨init, rest, rfl⟩ := List.append_of_mem h
  have hjoin := intercalate_pieces sep t
  rw [hp, ← List.cons_append, intercalate_append (List.cons_ne_nil p init) (List.cons_ne_nil u rest)] at hjoin
  obtain ⟨after, hafter⟩ : ∃ after, [sep].intercalate (u :: rest) = u ++ after := by
    cases rest with
    | nil => exact ⟨[], by simp⟩
    | cons v rest => exact ⟨[sep] ++ [sep].intercalate (v :: rest), by
        rw [List.intercalate_cons_cons, List.append_assoc]⟩
  refine ⟨[sep].intercalate (p :: init), after, ?_⟩
  rw [← hjoin, hafter, List.append_assoc, List.singleton_append]

/-- Texts without commas, none of them empty, are found again in their list. -/
theorem commaJoin_injective {ms : List Text} (hls : ∀ t ∈ ls, t ≠ [] ∧ ',' ∉ t)
    (hms : ∀ t ∈ ms, t ≠ [] ∧ ',' ∉ t)
    (h : commaJoin ls = commaJoin ms) : ls = ms := by
  have hcons (t u : Text) (ls : List Text) :
      commaJoin (t :: u :: ls) = t ++ ',' :: ' ' :: commaJoin (u :: ls) := by
    rw [commaJoin, List.intercalate_cons_cons, List.append_assoc]
    rfl
  have hne (t : Text) (ls : List Text) (ht : t ≠ []) : commaJoin (t :: ls) ≠ [] := by
    cases ls with
    | nil => rwa [commaJoin, List.intercalate_singleton]
    | cons u ls => simp [hcons]
  induction ls generalizing ms with
  | nil =>
    cases ms with
    | nil => rfl
    | cons u ms => exact absurd h.symm (hne u ms (hms u List.mem_cons_self).1)
  | cons t ls ih =>
    obtain ⟨ht, hls'⟩ := List.forall_mem_cons.1 hls
    cases ms with
    | nil => exact absurd h (hne t ls ht.1)
    | cons u ms =>
      obtain ⟨hu, hms'⟩ := List.forall_mem_cons.1 hms
      cases ls with
      | nil =>
        cases ms with
        | nil => simpa [commaJoin] using h
        | cons v ms =>
          rw [hcons, commaJoin, List.intercalate_singleton] at h
          exact absurd (by simp [h]) ht.2
      | cons v ls =>
        cases ms with
        | nil =>
          rw [hcons, commaJoin, commaJoin, List.intercalate_singleton] at h
          exact absurd (by simp [← h]) hu.2
        | cons w ms =>
          rw [hcons, hcons] at h
          obtain ⟨rfl, hrest⟩ := append_cons_inj ht.2 hu.2 h
          rw [ih hls' hms' (List.cons.inj hrest).2]

theorem unlines_cons_cons (t u : Text) (ls : List Text) :
    unlines (t :: u :: ls) = t ++ '\n' :: unlines (u :: ls) := by
  simp [unlines, List.intercalate]

theorem lines_unlines (hne : ls ≠ []) : lines (unlines ls) = ls.flatMap lines :=
  pieces_intercalate hne

theorem lines_unlines_of_notMem (hne : ls ≠ []) (h : ∀ l ∈ ls, '\n' ∉ l) :
    lines (unlines ls) = ls :=
  pieces_intercalate_of_notMem hne h

/-- A text is cut where the first character without a property stands. -/
theorem takeWhile_eq_iff {p : Char → Bool} {taken rest : Text} :
    (t.takeWhile p = taken ∧ t.dropWhile p = rest) ↔
      t = taken ++ rest ∧ (∀ c ∈ taken, p c = true) ∧ ∀ c ∈ rest.head?, p c = false := by
  constructor
  · rintro ⟨rfl, rfl⟩
    refine ⟨List.takeWhile_append_dropWhile.symm, List.all_eq_true.1 List.all_takeWhile,
      fun c hc => ?_⟩
    have hhead := List.head?_dropWhile_not p t
    rw [Option.mem_def.1 hc] at hhead
    simpa using hhead
  · rintro ⟨rfl, htaken, hrest⟩
    have hstop : rest.takeWhile p = [] ∧ rest.dropWhile p = rest := by
      cases rest with
      | nil => exact ⟨rfl, rfl⟩
      | cons c cs =>
        have hc : p c = false := hrest c rfl
        exact ⟨by simp [hc], by simp [hc]⟩
    rw [List.takeWhile_append_of_pos htaken, List.dropWhile_append_of_pos htaken, hstop.1, hstop.2,
      List.append_nil]
    exact ⟨rfl, rfl⟩

theorem takeWhile_append_sep (ht : sep ∉ t) (u : Text) : (t ++ sep :: u).takeWhile (· != sep) = t := by
  refine (takeWhile_eq_iff.2 ⟨rfl, fun c hc => bne_iff_ne.2 ?_, by simp⟩).1
  rintro rfl
  exact ht hc

theorem takeWhile_of_notMem (ht : sep ∉ t) : t.takeWhile (· != sep) = t := by
  refine (takeWhile_eq_iff.2 ⟨(List.append_nil t).symm, fun c hc => bne_iff_ne.2 ?_, nofun⟩).1
  rintro rfl
  exact ht hc

theorem trimLeft_subset (t : Text) : trimLeft t ⊆ t := (List.dropWhile_sublist isBlank).subset

theorem trimRight_subset (t : Text) : trimRight t ⊆ t := by
  intro c hc
  have hreversed : c ∈ t.reverse := (List.dropWhile_sublist isBlank).subset (List.mem_reverse.1 hc)
  exact List.mem_reverse.1 hreversed

/-- White space at the end is taken off behind the last character that is none. -/
theorem trimRight_append_cons (hc : isBlank c = false) (t u : Text) :
    trimRight (t ++ c :: u) = t ++ c :: trimRight u := by
  rw [trimRight, trimRight, List.reverse_append, List.reverse_cons, List.append_assoc, List.singleton_append,
    List.dropWhile_append]
  split
  · next hblank =>
    rw [List.isEmpty_iff.1 hblank, List.dropWhile_cons_of_neg (by simp [hc])]
    simp
  · simp

theorem trim_subset (t : Text) : trim t ⊆ t :=
  fun _ hc => trimLeft_subset t (trimRight_subset (trimLeft t) hc)

theorem leadingWord_subset (t : Text) : leadingWord t ⊆ t := (List.takeWhile_sublist isWord).subset

end CodeIndex.Text
