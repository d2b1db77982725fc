import CodeIndex.FileSystem.Resolve
import Mathlib.Tactic.Common

/-!
# Looking for files

Whether something is at a path has an answer unless the path is barred: it is too long, or a directory
on the way cannot be searched. Where several paths are looked up one after the other, the first that is
barred ends the search.
-/

namespace CodeIndex

section Search

variable {ε α : Type} {f : α → Except ε Bool} {g : α → Bool}

theorem filterAuxM_eq_filter {as : List α}
    (h : ∀ a ∈ as, f a = .ok (g a)) (found : List α) :
    List.filterAuxM f as found = .ok ((as.filter g).reverse ++ found) := by
  induction as generalizing found with
  | nil => rfl
  | cons a as ih =>
    have hrest := ih fun b hb => h b (List.mem_cons_of_mem _ hb)
    rw [List.filterAuxM, h a List.mem_cons_self, List.filter_cons]
    cases g a <;> simp [bind, Except.bind, hrest]

theorem filterM_eq_filter {as : List α}
    (h : ∀ a ∈ as, f a = .ok (g a)) : as.filterM f = .ok (as.filter g) := by
  rw [List.filterM, filterAuxM_eq_filter h]
  simp [bind, Except.bind, pure, Except.pure]

/-- The first failure is the failure of all. -/
theorem filterM_eq_error {before behind : List α} {a : α} {e : ε}
    (hbefore : ∀ b ∈ before, f b = .ok (g b)) (ha : f a = .error e) :
    (before ++ a :: behind).filterM f = .error e := by
  have haux : ∀ found, List.filterAuxM f (before ++ a :: behind) found = .error e := by
    induction before with
    | nil =>
      intro found
      rw [List.nil_append, List.filterAuxM, ha]
      rfl
    | cons b before ih =>
      intro found
      rw [List.cons_append, List.filterAuxM, hbefore b List.mem_cons_self]
      exact ih (fun x hx => hbefore x (List.mem_cons_of_mem _ hx)) _
  rw [List.filterM, haux]
  rfl

end Search

namespace FileSystem

variable {fs : FileSystem} {p : Path} {bytes : Bytes} {paths : List Path}

/-- A path cannot be looked up: it is too long, or a directory on the way cannot be searched. -/
def IsBarred (fs : FileSystem) (p : Path) (cause : Errno) : Prop :=
  (cause = .nameTooLong ∨ cause = .denied) ∧ fs.stat p = .error (.refused cause p.toText)

/-- A walk to an entry that fails has found that nothing is there, or is barred. -/
theorem cause_of_walkNames {follow : Location → List Text → Except Errno Location} {cause : Errno}
    (hfollow : ∀ cur names, follow cur names = .error cause →
      cause.meansAbsent = true ∨ cause = .nameTooLong ∨ cause = .denied)
    {cur : Location} {names : List Text} (h : fs.walkNames follow .entry cur names = .error cause) :
    cause.meansAbsent = true ∨ cause = .nameTooLong ∨ cause = .denied := by
  induction names generalizing cur with
  | nil => cases h
  | cons name rest ih =>
    rw [walkNames] at h
    split at h
    · exact ih h
    split at h
    · cases h
      exact .inr (.inr rfl)
    split at h
    · exact ih h
    split at h
    · exact ih h
    split at h
    · next haim => cases haim.1
    split at h
    · cases h
      exact .inr (.inl rfl)
    split at h
    · split at h <;> cases h
      exact .inl rfl
    · exact ih h
    · split at h
      · cases h
      · exact hfollow _ _ h
    · split at h <;> cases h
      exact .inl rfl

theorem cause_of_walkLinks {cause : Errno} {links : Nat} {cur : Location} {names : List Text}
    (h : fs.walkLinks .entry links cur names = .error cause) :
    cause.meansAbsent = true ∨ cause = .nameTooLong ∨ cause = .denied := by
  induction links generalizing cur names with
  | zero =>
    refine cause_of_walkNames (fun _ _ hmany => ?_) h
    cases hmany
    exact .inl rfl
  | succ links ih => exact cause_of_walkNames (fun _ _ => ih) h

theorem eq_toText_of_stat {cause : Errno} {t : Text} (h : fs.stat p = .error (.refused cause t)) :
    t = p.toText := by
  unfold stat answer at h
  split at h
  · cases h
  · split at h
    · cases h
    · cases h
      rfl

theorem cause_of_stat {cause : Errno} {t : Text} (h : fs.stat p = .error (.refused cause t)) :
    cause.meansAbsent = true ∨ cause = .nameTooLong ∨ cause = .denied := by
  unfold stat answer at h
  cases hnull : p.hasNull with
  | true => simp [hnull] at h
  | false =>
    cases hloc : fs.locate .entry p with
    | error e =>
      obtain rfl : e = cause := by
        simp [hnull, hloc, bind, Except.bind] at h
        exact h.1
      unfold locate at hloc
      split at hloc
      · cases hloc
        exact .inr (.inl rfl)
      split at hloc
      · exact cause_of_walkLinks hloc
      · cases hloc
        exact .inl rfl
    | ok loc =>
      cases hget : fs.get? loc with
      | some e => simp [hnull, hloc, hget, bind, Except.bind, pure, Except.pure] at h
      | none =>
        simp only [hnull, hloc, hget, bind, Except.bind, throw, throwThe, MonadExceptOf.throw] at h
        cases h
        exact .inl rfl

theorem isPresent_of_isBarred {cause : Errno} (h : fs.IsBarred p cause) :
    fs.isPresent p = .error (.refused cause p.toText) := by
  have hcause : cause.meansAbsent = false := by
    rcases h.1 with rfl | rfl <;> rfl
  unfold isPresent look
  simp [h.2, hcause]

theorem isPresent_of_not_isBarred (h : ∀ cause, ¬fs.IsBarred p cause) :
    fs.isPresent p = .ok (fs.stat p).isOk := by
  unfold isPresent look
  split
  · next hstat =>
    rw [hstat]
    rfl
  · next cause t hstat =>
    obtain rfl := eq_toText_of_stat hstat
    cases habsent : cause.meansAbsent with
    | true => simp [hstat, Except.isOk, Except.toBool]
    | false =>
      refine absurd ⟨(cause_of_stat hstat).resolve_left ?_, hstat⟩ (h cause)
      simp [habsent]
  · next hstat =>
    rw [hstat]
    rfl

/-- What can be read is there. -/
theorem isOk_stat_of_read (h : fs.read p = .ok bytes) : (fs.stat p).isOk = true := by
  unfold read answer at h
  unfold stat answer
  split at h
  · cases h
  · next hnull =>
    rw [if_neg hnull]
    cases hloc : fs.locate .entry p with
    | error e =>
      rw [hloc] at h
      cases h
    | ok loc =>
      rw [hloc] at h
      cases hget : fs.get? loc with
      | none => simp [bind, Except.bind, hget, throw, throwThe, MonadExceptOf.throw] at h
      | some e => simp [bind, Except.bind, hget, pure, Except.pure, Except.isOk, Except.toBool]

/-- The first of some paths that is barred, with the cause. -/
def FirstBarred (fs : FileSystem) (paths : List Path) (p : Path) (cause : Errno) : Prop :=
  ∃ before behind, paths = before ++ p :: behind ∧ (∀ q ∈ before, ∀ cause, ¬fs.IsBarred q cause) ∧
    fs.IsBarred p cause

theorem none_or_firstBarred (fs : FileSystem) (paths : List Path) :
    (∀ q ∈ paths, ∀ cause, ¬fs.IsBarred q cause) ∨ ∃ p cause, fs.FirstBarred paths p cause := by
  induction paths with
  | nil => exact .inl (by simp)
  | cons q paths ih =>
    by_cases hq : ∃ cause, fs.IsBarred q cause
    · obtain ⟨cause, hq⟩ := hq
      exact .inr ⟨q, cause, [], paths, rfl, by simp, hq⟩
    · have hfree := not_exists.1 hq
      rcases ih with hnone | ⟨p, cause, before, behind, rfl, hbefore, hp⟩
      · exact .inl (List.forall_mem_cons.2 ⟨hfree, hnone⟩)
      · exact .inr ⟨p, cause, q :: before, behind, rfl, List.forall_mem_cons.2 ⟨hfree, hbefore⟩, hp⟩

theorem FirstBarred.isBarred {cause : Errno} (h : fs.FirstBarred paths p cause) :
    ∃ q ∈ paths, ∃ cause, fs.IsBarred q cause := by
  obtain ⟨before, behind, rfl, -, hp⟩ := h
  exact ⟨p, by simp, cause, hp⟩

/-- What is there, of things with a path each. -/
theorem filterM_isPresent {α : Type} {path : α → Path} {xs : List α}
    (h : ∀ x ∈ xs, ∀ cause, ¬fs.IsBarred (path x) cause) :
    xs.filterM (fun x => fs.isPresent (path x)) = .ok (xs.filter fun x => (fs.stat (path x)).isOk) :=
  filterM_eq_filter fun x hx => isPresent_of_not_isBarred (h x hx)

theorem filterM_isPresent_of_firstBarred {α : Type} {path : α → Path} {xs : List α} {cause : Errno}
    (h : fs.FirstBarred (xs.map path) p cause) :
    xs.filterM (fun x => fs.isPresent (path x)) = .error (.refused cause p.toText) := by
  obtain ⟨before, behind, hpaths, hbefore, hp⟩ := h
  obtain ⟨before, rest, rfl, rfl, hrest⟩ := List.map_eq_append_iff.1 hpaths
  obtain ⟨x, behind, rfl, rfl, -⟩ := List.map_eq_cons_iff.1 hrest
  refine filterM_eq_error (g := fun x => (fs.stat (path x)).isOk) (fun y hy => ?_)
    (isPresent_of_isBarred hp)
  exact isPresent_of_not_isBarred (hbefore _ (List.mem_map_of_mem hy))

end FileSystem

end CodeIndex
