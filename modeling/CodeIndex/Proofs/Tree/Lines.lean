import CodeIndex.Proofs.Tree.Shown

/-!
# Where the lines of a tree come from

Every line below the first stands for an entry or is a remark on a directory: that it is cut off, that it
cannot be listed, or that files are left out. `trace` draws a tree with this knowledge kept; without the
remarks on directories that are not gone into, it is the drawing without markers.
-/

namespace CodeIndex

namespace Tree

open FileSystem

inductive LineKind where
  | entry
  | cutOff
  | denied
  | more
deriving DecidableEq

/-- Whether a line says that a directory is not gone into. -/
def LineKind.isMarker : LineKind → Bool
  | cutOff => true
  | denied => true
  | _ => false

/-- A line with the path of the entry it stands for, or of the directory it is a remark on. -/
structure TracedLine where
  kind : LineKind
  path : Path
  text : Text

mutual

/-- The lines below what is at a path, behind the given margin. -/
def trace (margin : Text) (p : Path) : Tree → List TracedLine
  | file _ => []
  | cutOff _ => [⟨.cutOff, p, margin ++ connector true ++ "...".toList⟩]
  | denied _ => [⟨.denied, p, margin ++ connector true ++ "[Permission Denied]".toList⟩]
  | directory _ entries more => traceGroup margin p more entries

def traceGroup (margin : Text) (dir : Path) (more : Option Int) : List Tree → List TracedLine
  | [] =>
    match more with
    | none => []
    | some n => [⟨.more, dir, margin ++ connector true ++ moreText n⟩]
  | t :: rest =>
    let isLast := rest.isEmpty && more.isNone
    ⟨.entry, dir.child t.name, margin ++ connector isLast ++ t.label⟩ ::
      (trace (margin ++ continuation isLast) (dir.child t.name) t ++ traceGroup margin dir more rest)

end

/-- The lines that stay with or without markers. -/
def drawn (markers : Bool) (lines : List TracedLine) : List Text :=
  (lines.filter fun line => markers || !line.kind.isMarker).map TracedLine.text

theorem drawn_cons_of_kept {markers : Bool} {line : TracedLine} (h : line.kind.isMarker = false)
    (lines : List TracedLine) : drawn markers (line :: lines) = line.text :: drawn markers lines := by
  simp [drawn, h]

theorem drawn_append (markers : Bool) (lines lines' : List TracedLine) :
    drawn markers (lines ++ lines') = drawn markers lines ++ drawn markers lines' := by
  simp [drawn]

mutual

/-- The drawing with markers has all lines, the one without has all but the markers. -/
theorem drawn_trace (markers : Bool) (margin : Text) (p : Path) (t : Tree) :
    drawn markers (t.trace margin p) = inside markers margin t := by
  cases t with
  | file name => rfl
  | cutOff name => cases markers <;> rfl
  | denied name => cases markers <;> rfl
  | directory name entries more => exact drawn_traceGroup markers margin p more entries

theorem drawn_traceGroup (markers : Bool) (margin : Text) (dir : Path) (more : Option Int)
    (entries : List Tree) :
    drawn markers (traceGroup margin dir more entries) = group markers margin more entries := by
  cases entries with
  | nil =>
    cases more with
    | none => rfl
    | some n => exact drawn_cons_of_kept rfl []
  | cons t rest =>
    simp only [traceGroup, group]
    rw [drawn_cons_of_kept rfl, drawn_append, drawn_trace markers _ _ t,
      drawn_traceGroup markers margin dir more rest]

end

theorem draw_true_eq (t : Tree) (p : Path) :
    t.draw true = Text.unlines (t.name :: (t.trace [] p).map TracedLine.text) := by
  have hall : (t.trace [] p).map TracedLine.text = drawn true (t.trace [] p) := by simp [drawn]
  rw [hall, drawn_trace]
  rfl

theorem draw_false_eq (t : Tree) (p : Path) :
    t.draw false = Text.unlines (t.name ::
      ((t.trace [] p).filter fun line => !line.kind.isMarker).map TracedLine.text) := by
  have hkept : ((t.trace [] p).filter fun line => !line.kind.isMarker).map TracedLine.text =
      drawn false (t.trace [] p) := rfl
  rw [hkept, drawn_trace]
  rfl

variable {fs : FileSystem} {view : View} {depth : Nat} {dir : Path} {name n : Text} {t : Tree}
  {margin : Text} {line : TracedLine}

/-- A line in a directory is a remark on it, or it stands for an entry or comes from inside it. -/
theorem mem_traceGroup {more : Option Int} {entries : List Tree}
    (h : line ∈ traceGroup margin dir more entries) : line.path = dir ∨
      ∃ t ∈ entries, line.path = dir.child t.name ∨
        ∃ margin, line ∈ t.trace margin (dir.child t.name) := by
  induction entries with
  | nil =>
    cases more with
    | none => cases h
    | some n =>
      left
      rw [List.mem_singleton.1 h]
  | cons t rest ih =>
    simp only [traceGroup, List.mem_cons, List.mem_append] at h
    rcases h with rfl | h | h
    · exact .inr ⟨t, List.mem_cons_self, .inl rfl⟩
    · exact .inr ⟨t, List.mem_cons_self, .inr ⟨_, h⟩⟩
    · refine (ih h).imp_right fun ⟨u, hu, hline⟩ => ?_
      exact ⟨u, List.mem_cons_of_mem _ hu, hline⟩

/-- The files of a directory that a view lists. -/
def listedFiles (view : View) (dir : Path) (items : List Item) : List Text × Option Int :=
  limitFiles view.maxFiles ((openFiles view dir items).filter fun n => view.lists (dir.child n))
    (openFiles view dir items).length

theorem ofItems_eq_directory (view : View) (dir : Path) (name : Text) (items : List Item)
    (inner : List Tree) : ofItems view dir name items inner =
      .directory name (inner ++ (listedFiles view dir items).1.map .file)
        (listedFiles view dir items).2 := rfl

theorem mem_openFiles_of_listed {items : List Item} (h : n ∈ (listedFiles view dir items).1) :
    n ∈ openFiles view dir items := by
  have hlisted : n ∈ (openFiles view dir items).filter fun n => view.lists (dir.child n) := by
    unfold listedFiles limitFiles at h
    split at h
    · exact h
    · split at h
      · unfold takeFiles at h
        split at h <;> exact List.mem_of_mem_take h
      · exact h
  exact (List.mem_filter.1 hlisted).1

/-- What is shown in a directory: the directories that are gone into, and files. -/
theorem entry_cases {items : List Item} {inner : List Tree}
    (entered : (shownDirs view dir items).mapM (fun n => ofDirectory fs view depth (dir.child n) n) =
      .ok inner) (ht : t ∈ inner ++ (listedFiles view dir items).1.map .file) :
    (t.name ∈ shownDirs view dir items ∧
      ofDirectory fs view depth (dir.child t.name) t.name = .ok t) ∨
    t.name ∈ openFiles view dir items ∧ t = .file t.name := by
  rcases List.mem_append.1 ht with ht | ht
  · obtain ⟨n, hn, hok⟩ := (mem_of_mapM_ok entered).1 ht
    rw [name_of_ofDirectory hok]
    exact .inl ⟨hn, hok⟩
  · obtain ⟨n, hn, rfl⟩ := List.mem_map.1 ht
    exact .inr ⟨mem_openFiles_of_listed hn, rfl⟩

end Tree

end CodeIndex
