import CodeIndex.Outline.Parameters
import CodeIndex.Proofs.Text.Pieces

/-!
# Parts of parameter lists

Nothing is lost where a parameter list is cut: each character goes to the part that is read, or it is the
comma at which a part ends. A comma ends a part exactly if as many brackets have been opened as closed before
it. So a list of texts is found again behind the commas between them exactly if each of them closes what it
opens and has no such comma of its own; the last one may leave brackets open.
-/

namespace CodeIndex.Parameters

variable {b : Brackets} {s : Cut} {c : Char} {d : Int} {p t u last : Text} {ps done : List Text}

/-- The text read so far: the parts with commas between them. -/
def Cut.text (s : Cut) : Text := [','].intercalate (s.done.reverse ++ [s.current.reverse])

theorem Cut.text_step (b : Brackets) (s : Cut) (c : Char) : (s.step b c).text = s.text ++ [c] := by
  have hlonger (depth : Int) : Cut.text ⟨depth, c :: s.current, s.done⟩ = s.text ++ [c] := by
    rw [Cut.text, Cut.text, List.reverse_cons]
    by_cases hdone : s.done.reverse = []
    · rw [hdone, List.nil_append, List.nil_append, List.intercalate_singleton,
        List.intercalate_singleton]
    · rw [Text.intercalate_append hdone (List.cons_ne_nil _ _),
        Text.intercalate_append hdone (List.cons_ne_nil _ _), List.intercalate_singleton,
        List.intercalate_singleton, List.append_assoc _ s.current.reverse]
  unfold Cut.step
  split
  · exact hlonger _
  · split
    · exact hlonger _
    · split
      · next hcomma =>
        have hne : s.done.reverse ++ [s.current.reverse] ≠ [] := by simp
        rw [Cut.text, List.reverse_cons, List.reverse_nil, Text.intercalate_append hne (by simp),
          List.intercalate_singleton, List.append_nil, hcomma.1]
        rfl
      · exact hlonger _

theorem Cut.text_foldl (b : Brackets) (s : Cut) (t : Text) :
    (t.foldl (Cut.step b) s).text = s.text ++ t := by
  induction t generalizing s with
  | nil => rw [List.foldl_nil, List.append_nil]
  | cons c t ih => rw [List.foldl_cons, ih, Cut.text_step, List.append_assoc, List.singleton_append]

/-- A list of parameters is its parts with commas between them. -/
theorem intercalate_parts (b : Brackets) (t : Text) :
    [','].intercalate ((parts b t).1 ++ [(parts b t).2]) = t :=
  Cut.text_foldl b ⟨0, [], []⟩ t

/-! ### Depth -/

/-- Brackets that can be told apart, from each other and from commas. -/
structure Distinct (b : Brackets) : Prop where
  apart : ∀ c ∈ b.opening, c ∉ b.closing
  comma_opening : ',' ∉ b.opening
  comma_closing : ',' ∉ b.closing

instance (b : Brackets) : Decidable (Distinct b) :=
  decidable_of_iff (b.opening.all (fun c => !b.closing.contains c) = true ∧
      b.opening.contains ',' = false ∧ b.closing.contains ',' = false) <| by
    simp only [List.all_eq_true, Bool.not_eq_true', List.contains_eq_mem, decide_eq_false_iff_not]
    exact ⟨fun h => ⟨h.1, h.2.1, h.2.2⟩, fun h => ⟨h.apart, h.comma_opening, h.comma_closing⟩⟩

/-- Opening brackets less closing ones. -/
def depth (b : Brackets) (t : Text) : Int :=
  (t.countP (· ∈ b.opening) : Int) - (t.countP (· ∈ b.closing) : Int)

@[simp]
theorem depth_nil (b : Brackets) : depth b [] = 0 := rfl

@[simp]
theorem depth_append (b : Brackets) (t u : Text) : depth b (t ++ u) = depth b t + depth b u := by
  simp only [depth, List.countP_append]
  omega

theorem depth_cons (b : Brackets) (c : Char) (t : Text) : depth b (c :: t) = depth b [c] + depth b t :=
  depth_append b [c] t

theorem depth_eq_zero (h : ∀ c ∈ t, c ∉ b.opening ∧ c ∉ b.closing) : depth b t = 0 := by
  have hopening : t.countP (· ∈ b.opening) = 0 := by
    apply List.countP_eq_zero.2
    intro c hc
    simpa using (h c hc).1
  have hclosing : t.countP (· ∈ b.closing) = 0 := by
    apply List.countP_eq_zero.2
    intro c hc
    simpa using (h c hc).2
  simp only [depth, hopening, hclosing]
  omega

theorem Cut.depth_step (hb : Distinct b) (s : Cut) (c : Char) :
    (s.step b c).depth = s.depth + Parameters.depth b [c] := by
  unfold Cut.step Parameters.depth
  split
  · next hopening => simp [hopening, hb.apart c hopening]
  · next hopening =>
    split
    · next hclosing =>
      simp [hopening, hclosing]
      omega
    · next hclosing =>
      split
      · next hcomma => simp [hopening, hclosing, hcomma.2]
      · simp [hopening, hclosing]

/-- Texts without a comma at depth zero, where they start at the given depth. -/
def Uncut (b : Brackets) (d : Int) (t : Text) : Prop :=
  ∀ before after, t = before ++ ',' :: after → d + depth b before ≠ 0

theorem uncut_nil (b : Brackets) (d : Int) : Uncut b d [] := by
  intro before after hsplit
  simp at hsplit

theorem uncut_cons : Uncut b d (c :: t) ↔ (c = ',' → d ≠ 0) ∧ Uncut b (d + depth b [c]) t := by
  constructor
  · intro h
    constructor
    · rintro rfl
      simpa using h [] t rfl
    · intro before after hsplit
      have hdepth := h (c :: before) after (by rw [hsplit, List.cons_append])
      rwa [depth_cons, ← Int.add_assoc] at hdepth
  · rintro ⟨hfirst, hrest⟩ before after hsplit
    cases before with
    | nil =>
      have hc : c = ',' := (List.cons.inj hsplit).1
      simpa using hfirst hc
    | cons c' before =>
      obtain ⟨rfl, rfl⟩ := List.cons.inj hsplit
      rw [depth_cons, ← Int.add_assoc]
      exact hrest before after rfl

theorem uncut_append : Uncut b d (t ++ u) ↔ Uncut b d t ∧ Uncut b (d + depth b t) u := by
  induction t generalizing d with
  | nil => simp [uncut_nil]
  | cons c t ih =>
    rw [List.cons_append, uncut_cons, uncut_cons, ih, depth_cons b c t, ← Int.add_assoc, and_assoc]

theorem uncut_of_notMem (h : ',' ∉ t) : Uncut b d t := by
  rintro before after rfl
  simp at h

instance decidableUncut (b : Brackets) : (d : Int) → (t : Text) → Decidable (Uncut b d t)
  | d, [] => isTrue (uncut_nil b d)
  | d, c :: t =>
    have := decidableUncut b (d + depth b [c]) t
    decidable_of_iff ((c = ',' → d ≠ 0) ∧ Uncut b (d + depth b [c]) t) uncut_cons.symm

/-- Texts that can be one part of a parameter list: no comma stands at depth zero, and the depth is zero at
the end. -/
structure Whole (b : Brackets) (p : Text) : Prop where
  uncut : Uncut b 0 p
  closed : depth b p = 0

instance (b : Brackets) (p : Text) : Decidable (Whole b p) :=
  decidable_of_iff (Uncut b 0 p ∧ depth b p = 0) ⟨fun h => ⟨h.1, h.2⟩, fun h => ⟨h.uncut, h.closed⟩⟩

theorem Whole.append (ht : Whole b t) (hu : Whole b u) : Whole b (t ++ u) := by
  refine ⟨uncut_append.2 ⟨ht.uncut, ?_⟩, ?_⟩
  · rw [ht.closed]
    exact hu.uncut
  · rw [depth_append, ht.closed, hu.closed]
    rfl

/-! ### Where a list is cut -/

theorem Cut.step_of_no_cut (hb : Distinct b) (h : c = ',' → s.depth ≠ 0) :
    s.step b c = ⟨s.depth + Parameters.depth b [c], c :: s.current, s.done⟩ := by
  have hno : ¬(c = ',' ∧ s.depth = 0) := fun hcut => h hcut.1 hcut.2
  have hcurrent : (s.step b c).current = c :: s.current ∧ (s.step b c).done = s.done := by
    unfold Cut.step
    rw [if_neg hno]
    split
    · exact ⟨rfl, rfl⟩
    · split
      · exact ⟨rfl, rfl⟩
      · exact ⟨rfl, rfl⟩
  rw [← Cut.depth_step hb, ← hcurrent.1, ← hcurrent.2]

theorem Cut.step_comma (hb : Distinct b) (h : s.depth = 0) :
    s.step b ',' = ⟨0, [], s.current.reverse :: s.done⟩ := by
  rw [Cut.step, if_neg hb.comma_opening, if_neg hb.comma_closing, if_pos ⟨rfl, h⟩]

/-- A text without a comma at depth zero goes to the current part. -/
theorem foldl_of_uncut (hb : Distinct b) (h : Uncut b s.depth t) :
    t.foldl (Cut.step b) s = ⟨s.depth + depth b t, t.reverse ++ s.current, s.done⟩ := by
  induction t generalizing s with
  | nil => simp
  | cons c t ih =>
    obtain ⟨hc, ht⟩ := uncut_cons.1 h
    rw [List.foldl_cons, Cut.step_of_no_cut hb hc, ih ht, depth_cons b c t]
    simp [Int.add_assoc]

theorem foldl_intercalate (hb : Distinct b) (hps : ∀ p ∈ ps, Whole b p) (hlast : Uncut b 0 last) :
    ([','].intercalate (ps ++ [last])).foldl (Cut.step b) ⟨0, [], done⟩ =
      ⟨depth b last, last.reverse, ps.reverse ++ done⟩ := by
  induction ps generalizing done with
  | nil =>
    rw [List.nil_append, List.intercalate_singleton, foldl_of_uncut hb hlast]
    simp
  | cons p ps ih =>
    obtain ⟨hp, hps⟩ := List.forall_mem_cons.1 hps
    have hne : ps ++ [last] ≠ [] := by simp
    have hfirst := foldl_of_uncut (s := ⟨0, [], done⟩) hb hp.uncut
    rw [hp.closed] at hfirst
    rw [List.cons_append, List.intercalate_cons_of_ne_nil hne, List.foldl_append, List.foldl_append, hfirst,
      List.foldl_cons, List.foldl_nil, Cut.step_comma hb (by simp), ih hps]
    simp

/-- What holds of a cut at every place of a list: all parts so far are whole, and the current one can still
become so. -/
structure Cut.Sound (b : Brackets) (s : Cut) : Prop where
  done : ∀ p ∈ s.done, Whole b p
  current : Uncut b 0 s.current.reverse
  depth : s.depth = Parameters.depth b s.current.reverse

theorem Cut.Sound.step (hb : Distinct b) (h : s.Sound b) (c : Char) : (s.step b c).Sound b := by
  by_cases hcut : c = ',' ∧ s.depth = 0
  · obtain ⟨rfl, hzero⟩ := hcut
    rw [Cut.step_comma hb hzero]
    have hpart : Whole b s.current.reverse := ⟨h.current, by rw [← h.depth, hzero]⟩
    exact ⟨List.forall_mem_cons.2 ⟨hpart, h.done⟩, uncut_nil b 0, rfl⟩
  · have hno : c = ',' → s.depth ≠ 0 := fun hc hzero => hcut ⟨hc, hzero⟩
    rw [Cut.step_of_no_cut hb hno]
    refine ⟨h.done, ?_, ?_⟩
    · rw [List.reverse_cons, uncut_append, Int.zero_add, ← h.depth]
      exact ⟨h.current, uncut_cons.2 ⟨hno, uncut_nil b _⟩⟩
    · rw [List.reverse_cons, depth_append, h.depth]

theorem Cut.Sound.foldl (hb : Distinct b) (h : s.Sound b) (t : Text) : (t.foldl (Cut.step b) s).Sound b := by
  induction t generalizing s with
  | nil => exact h
  | cons c t ih => exact ih (h.step hb c)

/-- There is one way to cut a parameter list: into whole parts and a last one without a comma at depth
zero. -/
theorem parts_eq_iff (hb : Distinct b) : parts b t = (ps, last) ↔
    [','].intercalate (ps ++ [last]) = t ∧ (∀ p ∈ ps, Whole b p) ∧ Uncut b 0 last := by
  constructor
  · intro h
    have hstart : Cut.Sound b ⟨0, [], []⟩ := ⟨nofun, uncut_nil b 0, rfl⟩
    have hend := hstart.foldl hb t
    have hjoin := intercalate_parts b t
    rw [h] at hjoin
    obtain ⟨rfl, rfl⟩ := Prod.mk.inj h
    refine ⟨hjoin, ?_, hend.current⟩
    intro p hp
    exact hend.done p (List.mem_reverse.1 hp)
  · rintro ⟨rfl, hps, hlast⟩
    simp only [parts, foldl_intercalate hb hps hlast, List.append_nil, List.reverse_reverse]

end CodeIndex.Parameters
