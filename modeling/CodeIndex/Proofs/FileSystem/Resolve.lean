import CodeIndex.Proofs.FileSystem.Change

/-!
# Resolving paths without links

Without links resolving a path is a calculation on its names: the current directory in front, and
double dots taken together with the names before them. The result is a path that an entry can have,
and such a path resolves to itself.
-/

namespace CodeIndex.FileSystem

variable {fs fs' : FileSystem} {p r cur : Path} {names : List Text}

/-- A path after one more component, with nothing followed. -/
def afterPiece (cur : Path) (piece : Text) : Path :=
  if piece = ['.', '.'] then cur.above else cur.child piece

theorem realPieces_plain (h : fs.Plain) (hn : ∀ n ∈ names, Path.IsPiece n)
    (enter : Followed → Path → Text → Except Stuck (Path × Followed)) (followed : Followed)
    (cur : Path) :
    realPieces fs enter followed cur names = .ok (names.foldl afterPiece cur, followed) := by
  induction names generalizing cur with
  | nil => rfl
  | cons name rest ih =>
    obtain ⟨hnil, hdot, -⟩ := hn name (by simp)
    have hih := ih fun m hm => hn m (by simp [hm])
    have hnone : fs.targetAt? (cur.child name) = none := by
      unfold targetAt?
      dsimp only
      split
      · rfl
      · split
        · next target hget => exact absurd hget (h.links _ _)
        · rfl
    rw [realPieces, List.foldl_cons, afterPiece]
    simp only [hnil, hdot, decide_false, Bool.or_self, Bool.false_eq_true, if_false, hnone]
    split <;> exact hih _

/-- Where a path starts when its links are followed. -/
def realStart (p : Path) : Path := ⟨if p.anchor = .relative then .relative else .root, []⟩

theorem descend_ne_tooManyLinks (cur : Location) (names : List Text) :
    fs.descend cur names ≠ .error .tooManyLinks := by
  induction names generalizing cur with
  | nil => simp [descend]
  | cons name rest ih =>
    rw [descend]
    split
    · simp
    split
    · exact ih _
    · split
      · simp
      · split
        · exact ih _
        · split <;> simp
        · split <;> simp

theorem afterPiece_anchor (cur : Path) (piece : Text) :
    (afterPiece cur piece).anchor = cur.anchor := by
  unfold afterPiece Path.above
  split
  · split <;> rfl
  · rfl

theorem foldl_afterPiece_anchor (names : List Text) (cur : Path) :
    (names.foldl afterPiece cur).anchor = cur.anchor := by
  induction names generalizing cur with
  | nil => rfl
  | cons name rest ih => rw [List.foldl_cons, ih, afterPiece_anchor]

/-- The names of a path after its components are old names, components or double dots. -/
theorem mem_foldl_afterPiece {n : Text} (hn : n ∈ (names.foldl afterPiece cur).names) :
    n ∈ cur.names ∨ n ∈ names ∨ n = ['.', '.'] := by
  induction names generalizing cur with
  | nil => exact .inl hn
  | cons name rest ih =>
    rcases ih hn with hcur | hrest | hdots
    · unfold afterPiece Path.above at hcur
      split at hcur
      · split at hcur
        · rcases List.mem_append.1 hcur with hcur | hcur
          · exact .inl hcur
          · exact .inr (.inr (List.mem_singleton.1 hcur))
        · exact .inl (List.dropLast_subset _ hcur)
      · rcases List.mem_append.1 hcur with hcur | hcur
        · exact .inl hcur
        · exact .inr (.inl (List.mem_singleton.1 hcur ▸ List.mem_cons_self))
    · exact .inr (.inl (List.mem_cons_of_mem _ hrest))
    · exact .inr (.inr hdots)

theorem mem_collapse {n : Text} (hn : n ∈ collapse names) : n ∈ names ∧ n ≠ ['.', '.'] := by
  have hfold : ∀ (ns : List Text) (done : Location),
      (∀ m ∈ done, m ∈ names ∧ m ≠ ['.', '.']) → (∀ m ∈ ns, m ∈ names) →
      ∀ m ∈ ns.foldl (fun done name =>
        if name = ['.', '.'] then done.dropLast else done ++ [name]) done,
        m ∈ names ∧ m ≠ ['.', '.'] := by
    intro ns
    induction ns with
    | nil => exact fun done hdone _ => hdone
    | cons name rest ih =>
      intro done hdone hns
      refine ih _ (fun m hm => ?_) fun m hm => hns m (List.mem_cons_of_mem _ hm)
      dsimp only at hm
      split at hm
      · exact hdone m (List.dropLast_subset _ hm)
      · next hname =>
        rcases List.mem_append.1 hm with hm | hm
        · exact hdone m hm
        · exact List.mem_singleton.1 hm ▸ ⟨hns name List.mem_cons_self, hname⟩
  exact hfold names [] (by simp) (fun m hm => hm) n hn

theorem collapse_of_no_dots (hn : ∀ n ∈ names, n ≠ ['.', '.']) : collapse names = names := by
  have hfold : ∀ (ns : List Text) (done : Location), (∀ n ∈ ns, n ≠ ['.', '.']) →
      ns.foldl (fun done name =>
        if name = ['.', '.'] then done.dropLast else done ++ [name]) done = done ++ ns := by
    intro ns
    induction ns with
    | nil => simp
    | cons name rest ih =>
      intro done hns
      rw [List.foldl_cons, if_neg (hns name List.mem_cons_self),
        ih _ fun m hm => hns m (List.mem_cons_of_mem _ hm)]
      simp
  exact hfold names [] hn

theorem fromRoot_isProper (h : fs.Plain) (hanchor : p.anchor = .relative ∨ p.anchor = .root)
    (hn : ∀ n ∈ p.names, Path.IsPiece n ∧ '\x00' ∉ n) (hok : fs.fromRoot p = .ok r) :
    r.IsProper := by
  unfold fromRoot at hok
  split at hok
  · next hstart =>
    cases hok
    refine ⟨?_, fun n hmem => ?_⟩
    · rcases hanchor with ha | ha <;> simp [absolute, ha]
    · obtain ⟨hmem, hdots⟩ := mem_collapse hmem
      rcases List.mem_append.1 hmem with hmem | hmem
      · obtain ⟨data, hget⟩ := isDirectoryAt_iff.1 hstart
        exact h.names _ _ hget n hmem
      · exact ⟨(hn n hmem).1, hdots, (hn n hmem).2⟩
  · cases hok

theorem stat_ne_tooManyLinks (h : fs.Plain) (hp : p.IsFull) (t : Text) :
    fs.stat p ≠ .error (.refused .tooManyLinks t) := by
  have hlocate : fs.locate .entry p ≠ .error .tooManyLinks := by
    rw [locate_eq h hp]
    split
    · simp
    · exact descend_ne_tooManyLinks _ _
  unfold stat answer
  rw [hp.null]
  simp only [Bool.false_eq_true, if_false]
  cases hloc : fs.locate .entry p with
  | error err =>
    have herr : err ≠ .tooManyLinks := fun heq => hlocate (heq ▸ hloc)
    simpa [bind, Except.bind] using fun heq => absurd heq herr
  | ok loc =>
    simp only [bind, Except.bind]
    cases fs.get? loc <;> simp [throw, throwThe, MonadExceptOf.throw, pure, Except.pure]

theorem realStart_isPiece (hp : ∀ n ∈ p.names, Path.IsPiece n) (hnull : p.hasNull = false) :
    ∀ n ∈ (p.names.foldl afterPiece (realStart p)).names, Path.IsPiece n ∧ '\x00' ∉ n := by
  intro n hn
  rcases mem_foldl_afterPiece hn with hn | hn | rfl
  · cases hn
  · exact ⟨hp n hn, Path.hasNull_eq_false_iff.1 hnull n hn⟩
  · exact ⟨⟨by simp, by simp, by decide⟩, by decide⟩

/-- Without links a path is resolved by a calculation on its names. -/
theorem resolve_eq (h : fs.Plain) (hp : ∀ n ∈ p.names, Path.IsPiece n) (hnull : p.hasNull = false) :
    fs.resolve p = fs.fromRoot (p.names.foldl afterPiece (realStart p)) := by
  have hreal : fs.realPath p = fs.fromRoot (p.names.foldl afterPiece (realStart p)) := by
    simp only [realPath, realLinks]
    rw [realPieces_plain h hp]
    rfl
  rw [resolve, hnull, hreal]
  simp only [Bool.false_eq_true, if_false]
  cases hroot : fs.fromRoot (p.names.foldl afterPiece (realStart p)) with
  | error failure => rfl
  | ok r =>
    have hanchor : (p.names.foldl afterPiece (realStart p)).anchor = .relative ∨
        (p.names.foldl afterPiece (realStart p)).anchor = .root := by
      rw [foldl_afterPiece_anchor, realStart]
      by_cases ha : p.anchor = .relative <;> simp [ha]
    have hproper := fromRoot_isProper h hanchor (realStart_isPiece hp hnull) hroot
    simp only [bind, Except.bind]
    split
    · next hstat => exact absurd hstat (stat_ne_tooManyLinks h hproper.isFull _)
    · rfl

theorem resolve_null (hnull : p.hasNull = true) (fs : FileSystem) :
    fs.resolve p = .error .nullCharacter := by
  rw [resolve, if_pos hnull]

theorem resolve_isProper (h : fs.Plain) (hp : ∀ n ∈ p.names, Path.IsPiece n)
    (hok : fs.resolve p = .ok r) : r.IsProper := by
  cases hnull : p.hasNull with
  | true => rw [resolve_null hnull] at hok; cases hok
  | false =>
    rw [resolve_eq h hp hnull] at hok
    refine fromRoot_isProper h ?_ (realStart_isPiece hp hnull) hok
    rw [foldl_afterPiece_anchor, realStart]
    by_cases ha : p.anchor = .relative <;> simp [ha]

/-- A path that an entry can have resolves to itself. -/
theorem resolve_of_isProper (h : fs.Plain) (hp : p.IsProper) : fs.resolve p = .ok p := by
  have hstep : ∀ (ns : List Text) (cur : Path), (∀ n ∈ ns, n ≠ ['.', '.']) →
      ns.foldl afterPiece cur = ⟨cur.anchor, cur.names ++ ns⟩ := by
    intro ns
    induction ns with
    | nil => simp
    | cons n ns ih =>
      intro cur hns
      rw [List.foldl_cons, ih _ fun m hm => hns m (List.mem_cons_of_mem _ hm), afterPiece,
        if_neg (hns n List.mem_cons_self)]
      simp
  have hdots : ∀ n ∈ p.names, n ≠ ['.', '.'] := fun n hn => (hp.names n hn).ne_dots
  obtain ⟨anchor, names⟩ := p
  obtain rfl : anchor = .root := hp.anchor
  rw [resolve_eq h hp.isFull.pieces hp.isFull.null, hstep _ _ hdots]
  simp [fromRoot, startOf, realStart, isDirectoryAt_nil, absolute, collapse_of_no_dots hdots]

/-- Resolving a path depends only on the current directory being there. -/
theorem KeepsDirs.resolve (hk : KeepsDirs fs fs') (h : fs.Plain) (h' : fs'.Plain)
    (hcwd : fs'.cwd = fs.cwd) (hp : ∀ n ∈ p.names, Path.IsPiece n) (hok : fs.resolve p = .ok r) :
    fs'.resolve p = .ok r := by
  cases hnull : p.hasNull with
  | true => rw [resolve_null hnull] at hok; cases hok
  | false =>
    rw [resolve_eq h hp hnull] at hok
    rw [resolve_eq h' hp hnull]
    have hstart : ∀ q, fs'.startOf q = fs.startOf q := fun q => by simp [startOf, hcwd]
    unfold fromRoot absolute at hok ⊢
    rw [hstart]
    split at hok
    · next hdir => rwa [if_pos (hk.isDirectoryAt hdir)]
    · cases hok

end CodeIndex.FileSystem
