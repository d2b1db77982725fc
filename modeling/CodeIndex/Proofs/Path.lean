import CodeIndex.Path
import CodeIndex.Proofs.Text.Pieces

/-!
# Paths as they are written

A name that can stand in a directory is not empty, is no dot or double dot, and has no slash and no
null character in it. A path from the root made of such names is read back from its text.
-/

namespace CodeIndex

namespace Path

/-- A component of a path that is written down: something other than a dot, without a slash. -/
structure IsPiece (n : Text) : Prop where
  ne_nil : n ≠ []
  ne_dot : n ≠ ['.']
  slash : '/' ∉ n

/-- A name that an entry of a directory can have. -/
structure IsName (n : Text) : Prop extends IsPiece n where
  ne_dots : n ≠ ['.', '.']
  null : '\x00' ∉ n

theorem isName_iff {n : Text} :
    IsName n ↔ n ≠ [] ∧ n ≠ ['.'] ∧ '/' ∉ n ∧ n ≠ ['.', '.'] ∧ '\x00' ∉ n :=
  ⟨fun h => ⟨h.ne_nil, h.ne_dot, h.slash, h.ne_dots, h.null⟩,
    fun ⟨hnil, hdot, hslash, hdots, hnull⟩ => ⟨⟨hnil, hdot, hslash⟩, hdots, hnull⟩⟩

instance (n : Text) : Decidable (IsName n) := decidable_of_iff _ isName_iff.symm

/-- A path that does not depend on the current directory, made of components that are written
down. -/
structure IsFull (p : Path) : Prop where
  anchor : p.anchor ≠ .relative
  pieces : ∀ n ∈ p.names, IsPiece n
  null : p.hasNull = false

/-- A path that an entry can have: from the root, and made of names. -/
structure IsProper (p : Path) : Prop where
  anchor : p.anchor = .root
  names : ∀ n ∈ p.names, IsName n

variable {p base : Path} {n : Text} {names : List Text}

theorem isPiece_of_mem_ofText {t : Text} (h : n ∈ (ofText t).names) : IsPiece n := by
  simp only [ofText, namesOf, List.mem_filter, Bool.and_eq_true, bne_iff_ne] at h
  exact ⟨h.2.1, h.2.2, Text.notMem_of_mem_pieces h.1⟩

theorem joinNames_cons (n : Text) (m : Text) (names : List Text) :
    joinNames (n :: m :: names) = n ++ '/' :: joinNames (m :: names) := by
  simp [joinNames, List.intercalate]

theorem pieces_joinNames (hne : names ≠ []) (h : ∀ n ∈ names, '/' ∉ n) :
    Text.pieces '/' (joinNames names) = names :=
  Text.pieces_intercalate_of_notMem hne h

theorem head_joinNames (h : ∀ n ∈ names, IsPiece n) : (joinNames names).head? ≠ some '/' := by
  cases names with
  | nil => simp [joinNames, List.intercalate]
  | cons n names =>
    obtain ⟨hne, -, hslash⟩ := h n (by simp)
    obtain ⟨c, cs, rfl⟩ := List.exists_cons_of_ne_nil hne
    have hc : c ≠ '/' := fun hc => hslash (by simp [hc])
    cases names <;> simpa [joinNames, List.intercalate] using hc

theorem toText_of_root (ha : p.anchor = .root) : p.toText = '/' :: joinNames p.names := by
  simp [toText, bareText, ha, Anchor.text]

/-- A path from the root is read back from its text. -/
theorem ofText_toText (ha : p.anchor = .root) (h : ∀ n ∈ p.names, IsPiece n) :
    ofText p.toText = p := by
  obtain ⟨anchor, names⟩ := p
  subst ha
  rw [toText_of_root rfl]
  have hhead := head_joinNames h
  have hanchor : anchorOf ('/' :: joinNames names) = .root := by
    cases hj : joinNames names with
    | nil => rfl
    | cons c cs =>
      have hc : c ≠ '/' := by simpa [hj] using hhead
      unfold anchorOf
      split <;> simp_all
  have hnames : namesOf ('/' :: joinNames names) = names := by
    simp only [namesOf, Text.pieces_cons_sep]
    by_cases hne : names = []
    · subst hne
      rfl
    · rw [pieces_joinNames hne fun n hn => (h n hn).slash]
      simp only [List.filter_cons, bne_self_eq_false, Bool.false_and, Bool.false_eq_true, if_false]
      exact List.filter_eq_self.2 fun n hn => by
        simpa using ⟨(h n hn).ne_nil, (h n hn).ne_dot⟩
  simp only [ofText, hanchor, hnames]

@[simp]
theorem child_anchor (p : Path) (n : Text) : (p.child n).anchor = p.anchor := rfl

@[simp]
theorem child_names (p : Path) (n : Text) : (p.child n).names = p.names ++ [n] := rfl

@[simp]
theorem child_name (p : Path) (n : Text) : (p.child n).name = n := by simp [name]

@[simp]
theorem child_parent (p : Path) (n : Text) : (p.child n).parent = p := by simp [parent]

theorem mem_joinNames {c : Char} (h : c ∈ joinNames names) : c = '/' ∨ ∃ n ∈ names, c ∈ n :=
  (Text.mem_or_mem_of_mem_intercalate h).imp_left List.mem_singleton.1

theorem joinNames_begins (names : List Text) (n : Text) :
    joinNames names <+: joinNames (names ++ [n]) := by
  by_cases hnil : names = []
  · rw [hnil]
    exact List.nil_prefix
  · rw [joinNames, joinNames, Text.intercalate_append hnil (List.cons_ne_nil n []), List.append_assoc]
    exact List.prefix_append _ _

theorem toText_of_ne_relative (ha : p.anchor ≠ .relative) : p.toText = p.bareText := by
  unfold toText
  split
  · next hempty => cases h : p.anchor <;> simp_all [bareText, Anchor.text]
  · rfl

theorem toText_prefix_child (ha : p.anchor ≠ .relative) (n : Text) :
    p.toText <+: (p.child n).toText := by
  rw [toText_of_ne_relative ha, toText_of_ne_relative (by exact ha)]
  exact (List.prefix_append_right_inj _).2 (joinNames_begins p.names n)

theorem child_injective {q : Path} {m : Text} (h : p.child n = q.child m) : p = q ∧ n = m := by
  have hparent := congrArg Path.parent h
  have hname := congrArg Path.name h
  simp only [child_parent, child_name] at hparent hname
  exact ⟨hparent, hname⟩

theorem relativeTo?_eq_some {q : Path} :
    p.relativeTo? base = some q ↔
      p.anchor = base.anchor ∧ q.anchor = .relative ∧ p.names = base.names ++ q.names := by
  obtain ⟨anchor, names⟩ := q
  unfold relativeTo?
  constructor
  · intro h
    split at h
    · next hcond =>
      obtain ⟨rest, hrest⟩ := List.isPrefixOf_iff_prefix.1 hcond.2
      simp only [Option.some.injEq, mk.injEq] at h
      refine ⟨hcond.1, h.1.symm, ?_⟩
      rw [← h.2, ← hrest, List.drop_left]
    · cases h
  · rintro ⟨hanchor, hrel, hnames⟩
    simp only at hrel hnames
    subst hrel
    rw [if_pos ⟨hanchor, List.isPrefixOf_iff_prefix.2 ⟨names, hnames.symm⟩⟩, hnames,
      List.drop_left]

theorem hasNull_eq_false_iff : p.hasNull = false ↔ ∀ n ∈ p.names, '\x00' ∉ n := by
  simp only [hasNull, List.any_eq_false, List.contains_iff_mem]

theorem IsProper.isFull (h : p.IsProper) : p.IsFull where
  anchor := by simp [h.anchor]
  pieces n hn := (h.names n hn).toIsPiece
  null := hasNull_eq_false_iff.2 fun n hn => (h.names n hn).null

theorem IsFull.child (h : p.IsFull) (hn : IsName n) : (p.child n).IsFull where
  anchor := h.anchor
  pieces m hm := by
    rcases List.mem_append.1 hm with hm | hm
    · exact h.pieces m hm
    · exact List.mem_singleton.1 hm ▸ hn.toIsPiece
  null := by
    refine hasNull_eq_false_iff.2 fun m hm => ?_
    rcases List.mem_append.1 hm with hm | hm
    · exact hasNull_eq_false_iff.1 h.null m hm
    · exact List.mem_singleton.1 hm ▸ hn.null

theorem IsProper.child (h : p.IsProper) (hn : IsName n) : (p.child n).IsProper where
  anchor := h.anchor
  names m hm := by
    rcases List.mem_append.1 hm with hm | hm
    · exact h.names m hm
    · exact List.mem_singleton.1 hm ▸ hn

theorem IsProper.ofText_toText (h : p.IsProper) : ofText p.toText = p :=
  Path.ofText_toText h.anchor fun n hn => (h.names n hn).toIsPiece

theorem IsProper.toText_injective {q : Path} (hp : p.IsProper) (hq : q.IsProper)
    (h : p.toText = q.toText) : p = q := by
  rw [← hp.ofText_toText, h, hq.ofText_toText]

end Path

end CodeIndex
