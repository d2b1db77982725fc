import CodeIndex.Proofs.Tree.Compact
import CodeIndex.Proofs.Tree.Unambiguous

/-!
# How drawings are laid out

Every line below the first belongs to a directory and has a number among the lines of that directory. Its
number and those of the directories around it are its place, and the places of all lines tell what stands in
front of each: one block for every directory around it, with a bar if that directory's line is followed by
another one of its own group, and a connector that is an end exactly at the last line of a group.

What belongs to a directory is known from the file system. If it is listed, its lines are those of directories
and of files, and a remark on files that are left out, and together they account for all its files.
-/

namespace CodeIndex

namespace Tree

open FileSystem

/-- What a line tells. -/
inductive Content where
  | folder (path : Path)
  | file (path : Path)
  | cutOff
  | denied
  | more (n : Int)
deriving DecidableEq

def Content.label : Content → Text
  | folder path => path.name ++ ['/']
  | file path => path.name
  | cutOff => "...".toList
  | denied => "[Permission Denied]".toList
  | more n => moreText n

/-- A line with its number among the lines of its directory. `above` is the place of the directory's own line,
and empty for the lines of the root. -/
structure Row where
  number : Nat
  above : List Nat
  content : Content
deriving DecidableEq

/-- The numbers that lead to a line, its own first. -/
def Row.place (r : Row) : List Nat := r.number :: r.above

/-- The lines of the directory at a place, in the order in which they are drawn. -/
def groupAt (rows : List Row) (place : List Nat) : List Row := rows.filter fun r => r.above = place

/-- Whether the line with a number has a later one in the same directory. -/
def laterIn (rows : List Row) (place : List Nat) (number : Nat) : Bool :=
  (groupAt rows place).any fun r => number < r.number

/-- What stands in front of the lines of a directory: a block for each directory from the root on, a bar if
there is a later line beside it and blanks otherwise. -/
def marginAt (later : List Nat → Nat → Bool) : List Nat → Text
  | [] => []
  | number :: place =>
    marginAt later place ++ if later place number then "│   ".toList else "    ".toList

def Row.text (later : List Nat → Nat → Bool) (r : Row) : Text :=
  marginAt later r.above ++ (if later r.above r.number then "├── ".toList else "└── ".toList) ++
    r.content.label

/-- A place comes before another: the other lies below it, or they go apart in this order. -/
inductive DrawnBefore (p q : List Nat) : Prop where
  | above (below : p <:+ q) (ne : p ≠ q)
  | apart {place : List Nat} {i j : Nat} (lt : i < j) (left : i :: place <:+ p) (right : j :: place <:+ q)

def contentAt (p : Path) : Tree → Content
  | file _ => .file p
  | _ => .folder p

mutual

/-- The lines below what is at a path, where its own line is at the given place. -/
def rowsIn (place : List Nat) (p : Path) : Tree → List Row
  | file _ => []
  | cutOff _ => [⟨0, place, .cutOff⟩]
  | denied _ => [⟨0, place, .denied⟩]
  | directory _ entries more => rowsAmong place p more 0 entries

/-- The lines of a directory from the given number on, with all that is below them. -/
def rowsAmong (place : List Nat) (dir : Path) (more : Option Int) (number : Nat) : List Tree → List Row
  | [] => more.toList.map fun n => ⟨number, place, .more n⟩
  | t :: rest =>
    ⟨number, place, t.contentAt (dir.child t.name)⟩ ::
      (rowsIn (number :: place) (dir.child t.name) t ++ rowsAmong place dir more (number + 1) rest)

end

variable {place q : List Nat} {number i k : Nat} {dir p : Path} {more : Option Int} {t : Tree}
  {entries rest : List Tree} {r s : Row} {rows rows' : List Row} {later : List Nat → Nat → Bool}

/-- Whether a place is that of a line of a directory from a number on, or lies below one. -/
def AtOrBelow (place : List Nat) (number : Nat) (q : List Nat) : Prop :=
  ∃ i, number ≤ i ∧ i :: place <:+ q

theorem AtOrBelow.succ (h : AtOrBelow place (number + 1) q) : AtOrBelow place number q := by
  obtain ⟨i, hi, hq⟩ := h
  exact ⟨i, Nat.le_of_succ_le hi, hq⟩

/-- Of the lines of one directory, a place is or lies below only one. -/
theorem eq_of_suffix (hi : i :: place <:+ q) (hk : k :: place <:+ q) : i = k := by
  have heq : i :: place = k :: place :=
    (List.suffix_of_suffix_length_le hi hk (Nat.le_refl _)).eq_of_length rfl
  exact (List.cons.inj heq).1

theorem not_cons_suffix_self : ¬number :: place <:+ place := fun h =>
  Nat.not_succ_le_self _ h.length_le

mutual

theorem suffix_of_mem_rowsIn (place : List Nat) (p : Path) (t : Tree) (h : r ∈ rowsIn place p t) :
    place <:+ r.above := by
  cases t with
  | file name => cases h
  | cutOff name =>
    obtain rfl := List.mem_singleton.1 h
    exact List.suffix_refl _
  | denied name =>
    obtain rfl := List.mem_singleton.1 h
    exact List.suffix_refl _
  | directory name entries more =>
    obtain ⟨i, -, hi⟩ := atOrBelow_of_mem_rowsAmong place p more 0 entries h
    rcases List.suffix_cons_iff.1 hi with heq | hi
    · exact (List.cons.inj heq).2 ▸ List.suffix_refl place
    · exact (List.suffix_cons i place).trans hi

theorem atOrBelow_of_mem_rowsAmong (place : List Nat) (dir : Path) (more : Option Int) (number : Nat)
    (entries : List Tree) (h : r ∈ rowsAmong place dir more number entries) :
    AtOrBelow place number r.place := by
  cases entries with
  | nil =>
    obtain ⟨n, -, rfl⟩ := List.mem_map.1 h
    exact ⟨number, Nat.le_refl _, List.suffix_refl _⟩
  | cons t rest =>
    rw [rowsAmong, List.mem_cons, List.mem_append] at h
    rcases h with rfl | h | h
    · exact ⟨number, Nat.le_refl _, List.suffix_refl _⟩
    · have hbelow := suffix_of_mem_rowsIn (number :: place) _ t h
      exact ⟨number, Nat.le_refl _, hbelow.trans (List.suffix_cons _ _)⟩
    · exact (atOrBelow_of_mem_rowsAmong place dir more (number + 1) rest h).succ

end

section Groups

theorem groupAt_cons (r : Row) (rows : List Row) (q : List Nat) :
    groupAt (r :: rows) q = if r.above = q then r :: groupAt rows q else groupAt rows q := by
  simp [groupAt, List.filter_cons]

theorem groupAt_append (rows rows' : List Row) (q : List Nat) :
    groupAt (rows ++ rows') q = groupAt rows q ++ groupAt rows' q := List.filter_append ..

theorem groupAt_eq_nil (h : ∀ r ∈ rows, r.above ≠ q) : groupAt rows q = [] :=
  List.filter_eq_nil_iff.2 fun r hr => by simp [h r hr]

/-- The lines of a directory itself: that of its first entry, and those of the others. -/
theorem groupAt_rowsAmong_self : groupAt (rowsAmong place dir more number (t :: rest)) place =
    ⟨number, place, t.contentAt (dir.child t.name)⟩ ::
      groupAt (rowsAmong place dir more (number + 1) rest) place := by
  have hinner : groupAt (rowsIn (number :: place) (dir.child t.name) t) place = [] :=
    groupAt_eq_nil fun r hr heq => not_cons_suffix_self (heq ▸ suffix_of_mem_rowsIn _ _ t hr)
  rw [rowsAmong, groupAt_cons, if_pos rfl, groupAt_append, hinner, List.nil_append]

/-- The lines of a directory in the first entry. -/
theorem groupAt_rowsAmong_inner (h : number :: place <:+ q) :
    groupAt (rowsAmong place dir more number (t :: rest)) q =
      groupAt (rowsIn (number :: place) (dir.child t.name) t) q := by
  have hself : place ≠ q := fun heq => not_cons_suffix_self (heq ▸ h)
  have hothers : groupAt (rowsAmong place dir more (number + 1) rest) q = [] := by
    refine groupAt_eq_nil fun r hr heq => ?_
    obtain ⟨i, hi, hplace⟩ := atOrBelow_of_mem_rowsAmong place dir more (number + 1) rest hr
    have hle : number + 1 ≤ number := eq_of_suffix hplace ((heq ▸ h).trans (List.suffix_cons _ _)) ▸ hi
    exact Nat.not_succ_le_self _ hle
  rw [rowsAmong, groupAt_cons, if_neg hself, groupAt_append, hothers, List.append_nil]

/-- The lines of a directory in another entry. -/
theorem groupAt_rowsAmong_others (h : AtOrBelow place (number + 1) q) :
    groupAt (rowsAmong place dir more number (t :: rest)) q =
      groupAt (rowsAmong place dir more (number + 1) rest) q := by
  obtain ⟨i, hi, hq⟩ := h
  have hself : place ≠ q := fun heq => not_cons_suffix_self (heq ▸ hq)
  have hinner : groupAt (rowsIn (number :: place) (dir.child t.name) t) q = [] := by
    refine groupAt_eq_nil fun r hr heq => ?_
    have hle : number + 1 ≤ number :=
      eq_of_suffix hq (heq ▸ suffix_of_mem_rowsIn (number :: place) _ t hr) ▸ hi
    exact Nat.not_succ_le_self _ hle
  rw [rowsAmong, groupAt_cons, if_neg hself, groupAt_append, hinner, List.nil_append]

/-- A line is not the last of its directory if an entry or a remark follows. -/
theorem laterIn_rowsAmong_self : laterIn (rowsAmong place dir more number (t :: rest)) place number =
    !(rest.isEmpty && more.isNone) := by
  rw [laterIn, groupAt_rowsAmong_self]
  cases rest with
  | cons u rest => simp [groupAt_rowsAmong_self]
  | nil => cases more <;> simp [rowsAmong, groupAt]

theorem laterIn_rowsAmong_succ (h : number < k) :
    laterIn (rowsAmong place dir more number (t :: rest)) place k =
      laterIn (rowsAmong place dir more (number + 1) rest) place k := by
  rw [laterIn, groupAt_rowsAmong_self, List.any_cons, decide_eq_false (Nat.lt_asymm h), Bool.false_or,
    laterIn]

end Groups

section Drawing

theorem connector_not (later : Bool) :
    connector (!later) = if later then "├── ".toList else "└── ".toList := by
  unfold connector
  cases later <;> simp only [Bool.not_true, Bool.not_false, Bool.false_eq_true, if_true, if_false]

theorem continuation_not (later : Bool) :
    continuation (!later) = if later then "│   ".toList else "    ".toList := by
  unfold continuation
  cases later <;> simp only [Bool.not_true, Bool.not_false, Bool.false_eq_true, if_true, if_false]

theorem marginAt_cons (later : List Nat → Nat → Bool) (number : Nat) (place : List Nat) :
    marginAt later (number :: place) = marginAt later place ++ continuation (!later place number) := by
  rw [continuation_not]
  rfl

theorem Row.text_eq (later : List Nat → Nat → Bool) (r : Row) : r.text later =
    marginAt later r.above ++ connector (!later r.above r.number) ++ r.content.label := by
  rw [connector_not]
  rfl

theorem label_contentAt (dir : Path) (t : Tree) : (t.contentAt (dir.child t.name)).label = t.label := by
  have hname := Path.child_name dir t.name
  cases t with
  | file name => exact hname
  | _ => exact congrArg (· ++ ['/']) hname

-- The margin is that of the place, so it is enough that `later` is right for the directories at and below it.
mutual

theorem inside_eq_rows (place : List Nat) (p : Path) (t : Tree)
    (h : ∀ q k, place <:+ q → later q k = laterIn (rowsIn place p t) q k) :
    inside true (marginAt later place) t = (rowsIn place p t).map (Row.text later) := by
  cases t with
  | file name => rfl
  | cutOff name =>
    have hlast : later place 0 = false := by
      rw [h place 0 (List.suffix_refl _)]
      simp [laterIn, rowsIn, groupAt]
    simp only [inside, rowsIn, List.map_cons, List.map_nil, Row.text_eq, hlast]
    rfl
  | denied name =>
    have hlast : later place 0 = false := by
      rw [h place 0 (List.suffix_refl _)]
      simp [laterIn, rowsIn, groupAt]
    simp only [inside, rowsIn, List.map_cons, List.map_nil, Row.text_eq, hlast]
    rfl
  | directory name entries more =>
    refine group_eq_rows place p more 0 entries (fun k _ => h place k (List.suffix_refl _)) ?_
    rintro q k ⟨i, -, hq⟩
    exact h q k ((List.suffix_cons i place).trans hq)

theorem group_eq_rows (place : List Nat) (dir : Path) (more : Option Int) (number : Nat)
    (entries : List Tree)
    (hself : ∀ k, number ≤ k → later place k = laterIn (rowsAmong place dir more number entries) place k)
    (hbelow : ∀ q k, AtOrBelow place number q →
      later q k = laterIn (rowsAmong place dir more number entries) q k) :
    group true (marginAt later place) more entries =
      (rowsAmong place dir more number entries).map (Row.text later) := by
  cases entries with
  | nil =>
    cases more with
    | none => rfl
    | some n =>
      have hlast : later place number = false := by
        rw [hself number (Nat.le_refl _)]
        simp [laterIn, rowsAmong, groupAt]
      simp only [group, rowsAmong, Option.toList_some, List.map_cons, List.map_nil, Row.text_eq, hlast]
      rfl
  | cons t rest =>
    have hlater : later place number = !(rest.isEmpty && more.isNone) := by
      rw [hself number (Nat.le_refl _), laterIn_rowsAmong_self]
    have hlast : (rest.isEmpty && more.isNone) = !later place number := by rw [hlater, Bool.not_not]
    have hinner : inside true (marginAt later (number :: place)) t =
        (rowsIn (number :: place) (dir.child t.name) t).map (Row.text later) := by
      refine inside_eq_rows (number :: place) (dir.child t.name) t fun q k hq => ?_
      rw [hbelow q k ⟨number, Nat.le_refl _, hq⟩, laterIn, groupAt_rowsAmong_inner hq, laterIn]
    have hothers : group true (marginAt later place) more rest =
        (rowsAmong place dir more (number + 1) rest).map (Row.text later) := by
      refine group_eq_rows place dir more (number + 1) rest (fun k hk => ?_) fun q k hq => ?_
      · rw [hself k (Nat.le_of_succ_le hk), laterIn_rowsAmong_succ hk]
      · rw [hbelow q k hq.succ, laterIn, groupAt_rowsAmong_others hq, laterIn]
    simp only [group, rowsAmong, List.map_cons, List.map_append]
    rw [hlast, ← marginAt_cons, hinner, hothers, Row.text_eq, label_contentAt]

end

/-- The drawing of a tree is made of the texts of its lines. -/
theorem drawLines_eq_rows (p : Path) (t : Tree) :
    t.drawLines true = t.name :: (rowsIn [] p t).map (Row.text (laterIn (rowsIn [] p t))) :=
  congrArg (t.name :: ·) (inside_eq_rows [] p t fun _ _ _ => rfl)

end Drawing

section Order

mutual

theorem pairwise_rowsIn (place : List Nat) (p : Path) (t : Tree) :
    (rowsIn place p t).Pairwise fun r s => DrawnBefore r.place s.place := by
  cases t with
  | file name => exact .nil
  | cutOff name => exact List.pairwise_singleton _ _
  | denied name => exact List.pairwise_singleton _ _
  | directory name entries more => exact pairwise_rowsAmong place p more 0 entries

theorem pairwise_rowsAmong (place : List Nat) (dir : Path) (more : Option Int) (number : Nat)
    (entries : List Tree) :
    (rowsAmong place dir more number entries).Pairwise fun r s => DrawnBefore r.place s.place := by
  cases entries with
  | nil => cases more <;> simp [rowsAmong]
  | cons t rest =>
    have hinner : ∀ r ∈ rowsIn (number :: place) (dir.child t.name) t, number :: place <:+ r.above :=
      fun r hr => suffix_of_mem_rowsIn _ _ t hr
    have hothers : ∀ s ∈ rowsAmong place dir more (number + 1) rest, ∀ q, number :: place <:+ q →
        DrawnBefore q s.place := by
      intro s hs q hq
      obtain ⟨i, hi, hplace⟩ := atOrBelow_of_mem_rowsAmong place dir more (number + 1) rest hs
      exact .apart hi hq hplace
    rw [rowsAmong, List.pairwise_cons, List.pairwise_append]
    refine ⟨fun s hs => ?_, pairwise_rowsIn _ _ t, pairwise_rowsAmong _ _ _ _ rest, fun r hr s hs => ?_⟩
    · rcases List.mem_append.1 hs with hs | hs
      · refine .above ((hinner s hs).trans (List.suffix_cons _ _)) fun heq => ?_
        exact not_cons_suffix_self ((List.cons.inj heq).2 ▸ hinner s hs)
      · exact hothers s hs _ (List.suffix_refl _)
    · exact hothers s hs _ ((hinner r hr).trans (List.suffix_cons _ _))

end

/-- Of two lines of one directory, the earlier has the smaller number. -/
theorem DrawnBefore.number_lt (h : DrawnBefore r.place s.place) (habove : r.above = s.above) :
    r.number < s.number := by
  unfold Row.place at h
  rw [habove] at h
  cases h with
  | above below ne => exact absurd (below.eq_of_length rfl) ne
  | apart lt left right =>
    rcases List.suffix_cons_iff.1 left with hleft | hleft <;>
      rcases List.suffix_cons_iff.1 right with hright | hright
    · rwa [(List.cons.inj hleft).1, (List.cons.inj hright).1] at lt
    · rw [(List.cons.inj hleft).2] at hright
      exact absurd hright not_cons_suffix_self
    · rw [(List.cons.inj hright).2] at hleft
      exact absurd hleft not_cons_suffix_self
    · exact absurd (eq_of_suffix hleft hright) (Nat.ne_of_lt lt)

/-- The line without a later one is the last line of its directory. -/
theorem laterIn_eq_false_iff (hrows : rows.Pairwise fun r s => DrawnBefore r.place s.place) (hr : r ∈ rows) :
    laterIn rows r.above r.number = false ↔ (groupAt rows r.above).getLast? = some r := by
  have hmem : r ∈ groupAt rows r.above := List.mem_filter.2 ⟨hr, decide_eq_true rfl⟩
  have habove : ∀ s ∈ groupAt rows r.above, s.above = r.above := fun s hs =>
    of_decide_eq_true (List.mem_filter.1 hs).2
  have hordered : (groupAt rows r.above).Pairwise fun r s => DrawnBefore r.place s.place :=
    hrows.sublist List.filter_sublist
  have hlater : laterIn rows r.above r.number = false ↔ ∀ s ∈ groupAt rows r.above, ¬r.number < s.number := by
    simp [laterIn]
  rw [hlater]
  rcases List.eq_nil_or_concat (groupAt rows r.above) with hnil | ⟨init, last, hgroup⟩
  · rw [hnil] at hmem
    cases hmem
  rw [hgroup, List.concat_eq_append] at hmem habove hordered ⊢
  have hinit : ∀ s ∈ init, s.number < last.number := by
    intro s hs
    refine ((List.pairwise_append.1 hordered).2.2 s hs last (List.mem_singleton_self _)).number_lt ?_
    rw [habove s (List.mem_append_left _ hs), habove last (by simp)]
  rw [List.getLast?_concat, Option.some_inj]
  constructor
  · intro h
    rcases List.mem_append.1 hmem with hinner | hlast
    · exact absurd (hinit r hinner) (h last (by simp))
    · exact (List.mem_singleton.1 hlast).symm
  · rintro rfl s hs
    rcases List.mem_append.1 hs with hs | hs
    · exact Nat.lt_asymm (hinit s hs)
    · rw [List.mem_singleton.1 hs]
      exact Nat.lt_irrefl _

end Order

section Directories

variable {fs : FileSystem} {hides : Path → Bool} {maxDepth maxFiles depth : Nat} {showFiles : Bool}
  {name : Text} {items : List Item}

/-- A directory in a drawing with the place of its own line: the one that the lines are about, or the one that
some line stands for. -/
inductive FolderAt (place : List Nat) (root : Path) (rows : List Row) : List Nat → Path → Prop where
  | root : FolderAt place root rows place root
  | below {r : Row} {p : Path} (mem : r ∈ rows) (folder : r.content = .folder p) :
    FolderAt place root rows r.place p

/-- What the lines of a directory tell, by its depth and what the file system says about it. Where files are
shown, their lines and the number of those left out add up to all files that are not hidden. -/
inductive LinesOf (fs : FileSystem) (hides : Path → Bool) (maxDepth : Nat) (showFiles : Bool) (depth : Nat)
    (dir : Path) : List Content → Prop where
  | cutOff (limit : depth = maxDepth) : LinesOf fs hides maxDepth showFiles depth dir [.cutOff]
  | denied (limit : depth < maxDepth) {path : Text}
    (refused : fs.list dir = .error (.refused .denied path) ∨ ∃ names, fs.list dir = .ok names ∧
      ∃ n ∈ names, fs.look (dir.child n) = .error (.refused .denied path)) :
    LinesOf fs hides maxDepth showFiles depth dir [.denied]
  | listed (limit : depth < maxDepth) {names folders files : List Text} {more : Option Int}
    (listed : fs.list dir = .ok names)
    (shown : files ⊆ names.filter fun n => fs.isFile (dir.child n) && !hides (dir.child n))
    (count : showFiles = true → (files.length : Int) + more.getD 0 =
      (names.filter fun n => fs.isFile (dir.child n) && !hides (dir.child n)).length)
    (hidden : showFiles = false → files = [] ∧ more = none) (pos : ∀ n ∈ more, 0 < n) :
    LinesOf fs hides maxDepth showFiles depth dir
      (folders.map (fun n => .folder (dir.child n)) ++ files.map (fun n => .file (dir.child n)) ++
        more.toList.map .more)

theorem FolderAt.suffix (h : FolderAt place dir (rowsIn place dir t) q p) : place <:+ q := by
  cases h with
  | root => exact List.suffix_refl _
  | below mem folder => exact (suffix_of_mem_rowsIn place dir t mem).trans (List.suffix_cons _ _)

theorem FolderAt.lift {root : Path} (hrow : ⟨i, place, .folder p⟩ ∈ rows) (hsub : rows' ⊆ rows) {d : Path}
    (h : FolderAt (i :: place) p rows' q d) : FolderAt place root rows q d := by
  cases h with
  | root => exact .below hrow rfl
  | below mem folder => exact .below (hsub mem) folder

/-- An entry of a directory with the number of its line, from which the lines below it are taken. -/
structure StandsAt (place : List Nat) (dir : Path) (more : Option Int) (number : Nat) (entries : List Tree)
    (i : Nat) (t : Tree) : Prop where
  mem : t ∈ entries
  le : number ≤ i
  row : ⟨i, place, t.contentAt (dir.child t.name)⟩ ∈ rowsAmong place dir more number entries
  below : rowsIn (i :: place) (dir.child t.name) t ⊆ rowsAmong place dir more number entries
  groups : ∀ q, i :: place <:+ q → groupAt (rowsAmong place dir more number entries) q =
    groupAt (rowsIn (i :: place) (dir.child t.name) t) q

theorem standsAt_head : StandsAt place dir more number (t :: rest) number t where
  mem := List.mem_cons_self
  le := Nat.le_refl _
  row := by
    rw [rowsAmong]
    exact List.mem_cons_self
  below := by
    rw [rowsAmong]
    exact fun r hr => List.mem_cons_of_mem _ (List.mem_append_left _ hr)
  groups _ hq := groupAt_rowsAmong_inner hq

theorem StandsAt.tail {u : Tree} (h : StandsAt place dir more (number + 1) rest i t) :
    StandsAt place dir more number (u :: rest) i t where
  mem := List.mem_cons_of_mem _ h.mem
  le := Nat.le_of_succ_le h.le
  row := by
    rw [rowsAmong]
    exact List.mem_cons_of_mem _ (List.mem_append_right _ h.row)
  below := by
    rw [rowsAmong]
    exact fun r hr => List.mem_cons_of_mem _ (List.mem_append_right _ (h.below hr))
  groups q hq := by rw [groupAt_rowsAmong_others ⟨i, h.le, hq⟩, h.groups q hq]

/-- A line in a directory is the remark on it, or that of an entry, or it is below that of an entry. -/
theorem cases_of_mem_rowsAmong (h : r ∈ rowsAmong place dir more number entries) :
    (r.above = place ∧ ∃ n, r.content = .more n) ∨ ∃ i t, StandsAt place dir more number entries i t ∧
      (r = ⟨i, place, t.contentAt (dir.child t.name)⟩ ∨ r ∈ rowsIn (i :: place) (dir.child t.name) t) := by
  induction entries generalizing number with
  | nil =>
    obtain ⟨n, -, rfl⟩ := List.mem_map.1 h
    exact .inl ⟨rfl, n, rfl⟩
  | cons t rest ih =>
    rw [rowsAmong, List.mem_cons, List.mem_append] at h
    rcases h with rfl | h | h
    · exact .inr ⟨number, t, standsAt_head, .inl rfl⟩
    · exact .inr ⟨number, t, standsAt_head, .inr h⟩
    · refine (ih h).imp_right fun ⟨i, u, hu, hr⟩ => ?_
      exact ⟨i, u, hu.tail, hr⟩

/-- The lines of a directory are those of its entries and the remark on files that are left out. -/
theorem content_groupAt (place : List Nat) (dir : Path) (more : Option Int) (number : Nat)
    (entries : List Tree) : (groupAt (rowsAmong place dir more number entries) place).map Row.content =
      entries.map (fun t => t.contentAt (dir.child t.name)) ++ more.toList.map .more := by
  induction entries generalizing number with
  | nil => cases more <;> simp [rowsAmong, groupAt]
  | cons t rest ih => rw [groupAt_rowsAmong_self, List.map_cons, ih, List.map_cons, List.cons_append]

theorem listedFiles_none (hides : Path → Bool) (maxDepth maxFiles : Nat) (dir : Path) (items : List Item) :
    listedFiles (.full hides maxDepth false maxFiles) dir items = ([], none) := by
  have hlisted : (openFiles (.full hides maxDepth false maxFiles) dir items).filter
      (fun n => (View.full hides maxDepth false maxFiles).lists (dir.child n)) = [] :=
    List.filter_eq_nil_iff.2 fun n _ => by simp [View.full]
  rw [listedFiles, hlisted]
  simp [limitFiles, View.full]

/-- The files that are shown and those that are left out are all files that are not hidden. -/
theorem count_listedFiles (hides : Path → Bool) (maxDepth maxFiles : Nat) (dir : Path) (items : List Item) :
    ((listedFiles (.full hides maxDepth true maxFiles) dir items).1.length : Int) +
        (listedFiles (.full hides maxDepth true maxFiles) dir items).2.getD 0 =
      (openFiles (.full hides maxDepth true maxFiles) dir items).length := by
  have hlisted : (openFiles (.full hides maxDepth true maxFiles) dir items).filter
      (fun n => (View.full hides maxDepth true maxFiles).lists (dir.child n)) =
        openFiles (.full hides maxDepth true maxFiles) dir items :=
    List.filter_eq_self.2 fun n _ => by simp [View.full]
  have hmax : (View.full hides maxDepth true maxFiles).maxFiles = some (maxFiles : Int) := rfl
  rw [listedFiles, hlisted, hmax]
  generalize openFiles (.full hides maxDepth true maxFiles) dir items = files
  unfold limitFiles
  simp only
  split
  · next hlt =>
    have hnonneg : ¬(maxFiles : Int) < 0 := by omega
    simp only [takeFiles, if_neg hnonneg, List.length_take, Option.getD_some]
    omega
  · simp

theorem contentAt_of_isFolder (h : t.isFolder = true) (p : Path) : t.contentAt p = .folder p := by
  cases t with
  | file name => cases h
  | _ => rfl

theorem mem_unhidden_of_listed {view : View} {names : List Text} {n : Text}
    (listed : fs.list dir = .ok names) (looked : itemsOf fs dir = .ok items)
    (h : n ∈ (listedFiles view dir items).1) :
    n ∈ names.filter fun n => fs.isFile (dir.child n) && !view.hides (dir.child n) := by
  obtain ⟨⟨x, hx, rfl, hfile⟩, hshown⟩ := mem_openFiles.1 (mem_openFiles_of_listed h)
  rw [List.mem_filter, isFile_of_mem_items looked hx, hfile, hshown]
  exact ⟨((mem_itemsOf_iff listed looked).1 hx).1, rfl⟩

theorem linesOf_listed {names : List Text} {inner : List Tree} (hdepth : place.length < maxDepth)
    (listed : fs.list dir = .ok names) (looked : itemsOf fs dir = .ok items)
    (hinner : ∀ t ∈ inner, t.isFolder = true) :
    LinesOf fs hides maxDepth showFiles place.length dir ((groupAt (rowsAmong place dir
      (listedFiles (.full hides maxDepth showFiles maxFiles) dir items).2 0 (inner ++
        (listedFiles (.full hides maxDepth showFiles maxFiles) dir items).1.map .file)) place).map
          Row.content) := by
  have hfolders : inner.map (fun t => t.contentAt (dir.child t.name)) =
      (inner.map Tree.name).map fun n => .folder (dir.child n) := by
    rw [List.map_map]
    exact List.map_congr_left fun t ht => contentAt_of_isFolder (hinner t ht) _
  have hfiles : ∀ files : List Text, (files.map Tree.file).map (fun t => t.contentAt (dir.child t.name)) =
      files.map fun n => .file (dir.child n) := fun _ => List.map_map ..
  rw [content_groupAt, List.map_append, hfolders, hfiles]
  refine .listed hdepth listed (fun n hn => mem_unhidden_of_listed listed looked hn) (fun hshow => ?_)
    (fun hshow => ?_) fun n hn => ?_
  · subst hshow
    rw [count_listedFiles, length_openFiles listed looked]
    rfl
  · subst hshow
    simp [listedFiles_none]
  · exact pos_of_listedFiles (Option.mem_toList.2 hn)

/-- The lines of a directory at a place, down to the depth limit: every line belongs to some directory that is
drawn, and every such directory has the lines it should have. -/
structure IsLaidOut (fs : FileSystem) (hides : Path → Bool) (maxDepth : Nat) (showFiles : Bool)
    (place : List Nat) (root : Path) (rows : List Row) : Prop where
  owned : ∀ r ∈ rows, ∃ p, FolderAt place root rows r.above p
  groups : ∀ q p, FolderAt place root rows q p →
    LinesOf fs hides maxDepth showFiles q.length p ((groupAt rows q).map Row.content)

/-- A directory that is not gone into has one line, which is a remark. -/
theorem isLaidOut_remark {remark : Content} (hremark : ∀ p, remark ≠ .folder p)
    (hlines : LinesOf fs hides maxDepth showFiles place.length dir [remark]) :
    IsLaidOut fs hides maxDepth showFiles place dir [⟨0, place, remark⟩] where
  owned r hr := by
    rw [List.mem_singleton.1 hr]
    exact ⟨dir, .root⟩
  groups q p h := by
    cases h with
    | root => simpa [groupAt] using hlines
    | below mem folder =>
      rw [List.mem_singleton.1 mem] at folder
      exact absurd folder (hremark p)

/-- What holds of the directories in a directory holds of the directory itself. -/
theorem isLaidOut_directory
    (hself : LinesOf fs hides maxDepth showFiles place.length dir
      ((groupAt (rowsAmong place dir more 0 entries) place).map Row.content))
    (hentries : ∀ t ∈ entries, (∃ n, t = .file n) ∨ t.isFolder = true ∧ ∀ i,
      IsLaidOut fs hides maxDepth showFiles (i :: place) (dir.child t.name)
        (rowsIn (i :: place) (dir.child t.name) t)) :
    IsLaidOut fs hides maxDepth showFiles place dir (rowsAmong place dir more 0 entries) where
  owned r hr := by
    rcases cases_of_mem_rowsAmong hr with ⟨habove, -⟩ | ⟨i, t, ht, rfl | hr⟩
    · exact ⟨dir, habove ▸ .root⟩
    · exact ⟨dir, .root⟩
    · rcases hentries t ht.mem with ⟨n, rfl⟩ | ⟨hfolder, hinner⟩
      · cases hr
      · obtain ⟨p, hp⟩ := (hinner i).owned r hr
        exact ⟨p, hp.lift (contentAt_of_isFolder hfolder _ ▸ ht.row) ht.below⟩
  groups q p h := by
    cases h with
    | root => exact hself
    | @below r p hr folder =>
      -- the directory is an entry, or it is drawn below one
      rcases cases_of_mem_rowsAmong hr with ⟨-, n, hmore⟩ | ⟨i, t, ht, hr⟩
      · rw [hmore] at folder
        cases folder
      rcases hentries t ht.mem with ⟨n, rfl⟩ | ⟨hfolder, hinner⟩
      · rcases hr with rfl | hr
        · cases folder
        · cases hr
      have hp : FolderAt (i :: place) (dir.child t.name) (rowsIn (i :: place) (dir.child t.name) t)
          r.place p := by
        rcases hr with rfl | hr
        · rw [contentAt_of_isFolder hfolder] at folder
          cases folder
          exact .root
        · exact .below hr folder
      rw [ht.groups r.place hp.suffix]
      exact (hinner i).groups r.place p hp

theorem isLaidOut_rowsIn
    (hok : ofDirectory fs (.full hides maxDepth showFiles maxFiles) depth dir name = .ok t)
    (hdepth : place.length + depth = maxDepth) :
    IsLaidOut fs hides maxDepth showFiles place dir (rowsIn place dir t) := by
  induction depth generalizing place dir name t with
  | zero =>
    cases hok
    exact isLaidOut_remark (fun p => nofun) (.cutOff hdepth)
  | succ depth ih =>
    have hlimit : place.length < maxDepth := by omega
    cases shown_of_ofDirectory hok with
    | denied refused => exact isLaidOut_remark (fun p => nofun) (.denied hlimit (error_of_itemsOf refused))
    | @directory _ names items inner listed looked entered =>
      have hinner : ∀ t ∈ inner, t.isFolder = true := by
        intro t ht
        obtain ⟨n, -, hn⟩ := (mem_of_mapM_ok entered).1 ht
        exact isFolder_of_ofDirectory hn
      refine isLaidOut_directory (linesOf_listed hlimit listed looked hinner) fun t ht => ?_
      rcases entry_cases entered ht with ⟨-, hn⟩ | ⟨-, hfile⟩
      · refine .inr ⟨isFolder_of_ofDirectory hn, fun i => ih hn ?_⟩
        rw [List.length_cons]
        omega
      · exact .inl ⟨t.name, hfile⟩

/-- In the drawing of a full view the lines stand in the order of their places, each is laid out by the lines
around it, and every directory has the lines it should have: exactly the last line of a directory has an end
for its connector, a margin has a bar for a directory that is followed by another line of its own group, and
the files of a listed directory are all shown or counted. -/
theorem drawing_laid_out {root : Path}
    (hok : ofPath fs (.full hides maxDepth showFiles maxFiles) root = .ok t) :
    ∃ dir rows, fs.resolve root = .ok dir ∧
      t.draw true = Text.unlines (dir.name :: rows.map (Row.text (laterIn rows))) ∧
      rows.Pairwise (fun r s => DrawnBefore r.place s.place) ∧
      (∀ r ∈ rows, laterIn rows r.above r.number = false ↔ (groupAt rows r.above).getLast? = some r) ∧
      IsLaidOut fs hides maxDepth showFiles [] dir rows := by
  obtain ⟨dir, hdir, hok⟩ := bind_ok_iff.1 hok
  have hdepth : (View.full hides maxDepth showFiles maxFiles).maxDepth = maxDepth := Int.toNat_natCast _
  have hordered := pairwise_rowsIn [] dir t
  refine ⟨dir, rowsIn [] dir t, hdir, ?_, hordered, fun r hr => laterIn_eq_false_iff hordered hr,
    isLaidOut_rowsIn hok ?_⟩
  · rw [draw, drawLines_eq_rows dir t, name_of_ofDirectory hok]
  · rw [hdepth]
    exact Nat.zero_add _

def lookalikeLines : List Text :=
  ["p", "├── a/", "│   └── └── b", "├── n/", "│   └── [Permission Denied]", "├── s/", "│   └── │   t/",
    "│       └── ...", "├──     z", "└── ... (2 more files)"].map String.toList

/-- Names that look like margins and connectors change nothing about where lines stand, and one file that is
shown and two that are not are the three files of the project. -/
theorem lookalikeProject_laid_out : ∃ rows,
    lookalikeShown.map (draw true) = .ok (Text.unlines lookalikeLines) ∧
    lookalikeShown.map (draw true) =
      .ok (Text.unlines ("p".toList :: rows.map (Row.text (laterIn rows)))) ∧
    IsLaidOut lookalikeProject (fun _ => false) 2 true [] ⟨.root, ["p".toList]⟩ rows := by
  obtain ⟨t, ht⟩ : ∃ t, lookalikeShown = .ok t := exists_ok_of_isSome (by decide +kernel)
  have hok : ofPath lookalikeProject (.full (fun _ => false) (2 : Nat) true (1 : Nat)) ⟨.root, ["p".toList]⟩ =
      .ok t := ht
  have hresolve : lookalikeProject.resolve ⟨.root, ["p".toList]⟩ = .ok ⟨.root, ["p".toList]⟩ := by
    decide +kernel
  obtain ⟨dir, rows, hdir, hdraw, -, -, hlaid⟩ := drawing_laid_out hok
  obtain rfl : (⟨.root, ["p".toList]⟩ : Path) = dir := Except.ok.inj (hresolve.symm.trans hdir)
  refine ⟨rows, by decide +kernel, ?_, hlaid⟩
  rw [ht]
  exact congrArg Except.ok hdraw

end Directories

end Tree

end CodeIndex
