import CodeIndex.Proofs.Page.Lines
import CodeIndex.Proofs.Tree.Lines

/-!
# Drawings are unambiguous

A line starts with blocks of four characters. The blocks of the margin tell from a connector by their first
character, whatever the names of the entries are, so the lines that belong to an entry end where the next
connector of the same depth stands. What is behind a connector is the name of a file, the name of a
directory with a slash, or a remark.

The main result reads a drawing back: two trees that are drawn alike are the same, as long as no name has
a line feed in it and no entry has the name of a remark.
-/

namespace CodeIndex

namespace Tree

open FileSystem

mutual

/-- The names of the entries that a tree shows below its root. -/
def entryNames : Tree → List Text
  | file _ => []
  | cutOff _ => []
  | denied _ => []
  | directory _ entries _ => namesAmong entries

def namesAmong : List Tree → List Text
  | [] => []
  | t :: rest => t.name :: (entryNames t ++ namesAmong rest)

end

mutual

/-- The numbers of files that a tree leaves out. -/
def counts : Tree → List Int
  | file _ => []
  | cutOff _ => []
  | denied _ => []
  | directory _ entries more => more.toList ++ countsAmong entries

def countsAmong : List Tree → List Int
  | [] => []
  | t :: rest => counts t ++ countsAmong rest

end

/-- What can stand behind a connector in place of an entry. -/
inductive IsRemark : Text → Prop where
  | cutOff : IsRemark "...".toList
  | denied : IsRemark "[Permission Denied]".toList
  | more (n : Nat) : IsRemark (moreText n)

/-- A name that stands on one line and is not taken for a remark. -/
structure IsLegible (n : Text) : Prop where
  newline : '\n' ∉ n
  remark : ¬IsRemark n

/-- What is asked of the entries of a tree for it to be read back from its drawing. -/
structure Legible (t : Tree) : Prop where
  names : ∀ n ∈ t.entryNames, IsLegible n
  slash : ∀ n ∈ t.entryNames, '/' ∉ n
  counts : ∀ k ∈ t.counts, 0 ≤ k

variable {name name' n : Text} {more more' : Option Int} {t t' : Tree} {rest entries entries' : List Tree}

namespace Legible

theorem head (h : Legible (.directory name (t :: rest) more)) : Legible t where
  names n hn := h.names n (by simp [entryNames, namesAmong, hn])
  slash n hn := h.slash n (by simp [entryNames, namesAmong, hn])
  counts k hk := h.counts k (by simp [Tree.counts, countsAmong, hk])

theorem tail (h : Legible (.directory name (t :: rest) more)) :
    Legible (.directory name rest more) where
  names n hn := h.names n (by
    rw [entryNames] at hn ⊢
    simp [namesAmong, hn])
  slash n hn := h.slash n (by
    rw [entryNames] at hn ⊢
    simp [namesAmong, hn])
  counts k hk := h.counts k (by
    rw [Tree.counts, List.mem_append] at hk ⊢
    exact hk.imp_right (List.mem_append_right _))

theorem head_name (h : Legible (.directory name (t :: rest) more)) : IsLegible t.name :=
  h.names _ (by simp [entryNames, namesAmong])

theorem head_slash (h : Legible (.directory name (t :: rest) more)) : '/' ∉ t.name :=
  h.slash _ (by simp [entryNames, namesAmong])

theorem more_nonneg {k : Int} (h : Legible (.directory name entries (some k))) : 0 ≤ k :=
  h.counts k (by simp [Tree.counts])

end Legible

section Remarks

variable {remark : Text} {k k' : Int}

/-- The number in a line on files that are left out. -/
def countOf (text : Text) : Nat := Nat.ofDigitChars 10 (text.filter Char.isDigit) 0

theorem moreText_eq (k : Int) : moreText k = "... (".toList ++ intText k ++ " more files)".toList := rfl

theorem moreText_natCast (n : Nat) :
    moreText n = "... (".toList ++ Nat.toDigits 10 n ++ " more files)".toList := by
  have hdigits : intText n = Nat.toDigits 10 n := by simp [intText]
  rw [moreText_eq, hdigits]

theorem countOf_append {before digits behind : Text} (hbefore : before.filter Char.isDigit = [])
    (hdigits : ∀ c ∈ digits, c.isDigit = true) (hbehind : behind.filter Char.isDigit = []) :
    countOf (before ++ digits ++ behind) = Nat.ofDigitChars 10 digits 0 := by
  rw [countOf, List.filter_append, List.filter_append, hbefore, hbehind, List.filter_eq_self.2 hdigits,
    List.nil_append, List.append_nil]

theorem countOf_moreText (n : Nat) : countOf (moreText n) = n := by
  rw [moreText_natCast, countOf_append (by decide) (fun _ => isDigit_toDigits) (by decide)]
  exact Nat.ofDigitChars_ten_toDigits

theorem moreText_injective (hk : 0 ≤ k) (hk' : 0 ≤ k') (h : moreText k = moreText k') : k = k' := by
  lift k to Nat using hk
  lift k' to Nat using hk'
  have hcount := congrArg countOf h
  rw [countOf_moreText, countOf_moreText] at hcount
  exact congrArg Nat.cast hcount

theorem isRemark_iff : IsRemark remark ↔ remark = "...".toList ∨
    remark = "[Permission Denied]".toList ∨ remark = moreText (countOf remark) := by
  constructor
  · intro h
    cases h with
    | cutOff => exact .inl rfl
    | denied => exact .inr (.inl rfl)
    | more n => rw [countOf_moreText]; exact .inr (.inr rfl)
  · rintro (rfl | rfl | h)
    · exact .cutOff
    · exact .denied
    · rw [h]
      exact .more _

instance (text : Text) : Decidable (IsRemark text) := decidable_of_iff _ isRemark_iff.symm

instance (n : Text) : Decidable (IsLegible n) :=
  decidable_of_iff ('\n' ∉ n ∧ ¬IsRemark n) ⟨fun h => ⟨h.1, h.2⟩, fun h => ⟨h.newline, h.remark⟩⟩

theorem isRemark_moreText (h : 0 ≤ k) : IsRemark (moreText k) := by
  rw [← Int.toNat_of_nonneg h]
  exact .more k.toNat

theorem getLast?_moreText (k : Int) : (moreText k).getLast? = some ')' := by
  rw [moreText_eq, List.getLast?_append]
  rfl

theorem moreText_ne_cutOff (k : Int) : "...".toList ≠ moreText k := by
  intro h
  have hlast := getLast?_moreText k
  rw [← h] at hlast
  exact absurd hlast (by decide)

theorem moreText_ne_denied (k : Int) : "[Permission Denied]".toList ≠ moreText k := by
  intro h
  have hlast := getLast?_moreText k
  rw [← h] at hlast
  exact absurd hlast (by decide)

/-- A remark is not the label of a directory. -/
theorem IsRemark.getLast?_ne (h : IsRemark remark) : remark.getLast? ≠ some '/' := by
  cases h with
  | cutOff => decide
  | denied => decide
  | more n =>
    rw [getLast?_moreText]
    decide

theorem IsRemark.newline (h : IsRemark remark) : '\n' ∉ remark := by
  cases h with
  | cutOff => decide
  | denied => decide
  | more n =>
    have hdigits : '\n' ∉ Nat.toDigits 10 n := fun hc => absurd (isDigit_toDigits hc) (by decide)
    rw [moreText_natCast]
    simpa using hdigits

end Remarks

section Labels

/-- Whether a tree is drawn with a slash behind its name. -/
def isFolder : Tree → Bool
  | file _ => false
  | _ => true

theorem label_eq (t : Tree) : t.label = t.name ++ if t.isFolder then ['/'] else [] := by
  cases t <;> simp [label, isFolder, Tree.name]

theorem label_ne_of_isRemark {remark : Text} (h : IsLegible t.name) (hremark : IsRemark remark) :
    t.label ≠ remark := by
  rintro rfl
  rw [label_eq] at hremark
  split at hremark
  · exact hremark.getLast?_ne (by simp)
  · rw [List.append_nil] at hremark
    exact h.remark hremark

theorem label_injective (hslash : '/' ∉ t.name) (hslash' : '/' ∉ t'.name) (h : t.label = t'.label) :
    t.name = t'.name ∧ t.isFolder = t'.isFolder := by
  rw [label_eq, label_eq] at h
  cases hfolder : t.isFolder <;> cases hfolder' : t'.isFolder <;>
    simp only [hfolder, hfolder', Bool.false_eq_true, if_true, if_false, List.append_nil] at h
  · exact ⟨h, rfl⟩
  · exact absurd (h ▸ by simp) hslash
  · exact absurd (h ▸ by simp) hslash'
  · exact ⟨List.append_cancel_right h, rfl⟩

theorem newline_label (h : IsLegible t.name) : '\n' ∉ t.label := by
  rw [label_eq]
  split <;> simp [h.newline]

end Labels

section Margins

/-- Whether a line has a connector at its start. -/
def isHead (line : Text) : Bool := line.head? == some '├' || line.head? == some '└'

theorem isHead_connector (isLast : Bool) (text : Text) : isHead (connector isLast ++ text) = true := by
  cases isLast <;> rfl

theorem isHead_continuation (isLast : Bool) (text : Text) :
    isHead (continuation isLast ++ text) = false := by
  cases isLast <;> rfl

theorem connector_append_injective {isLast isLast' : Bool} {text text' : Text}
    (h : connector isLast ++ text = connector isLast' ++ text') : isLast = isLast' ∧ text = text' := by
  cases isLast <;> cases isLast' <;> simp_all [connector]

/-- Lines without connectors end where a line with a connector stands. -/
theorem append_injective_of_isHead {inner inner' lines lines' : List Text}
    (hinner : ∀ line ∈ inner, isHead line = false) (hinner' : ∀ line ∈ inner', isHead line = false)
    (hlines : ∀ line ∈ lines.head?, isHead line = true)
    (hlines' : ∀ line ∈ lines'.head?, isHead line = true) (h : inner ++ lines = inner' ++ lines') :
    inner = inner' ∧ lines = lines' := by
  have htake : ∀ {inner lines : List Text}, (∀ line ∈ inner, isHead line = false) →
      (∀ line ∈ lines.head?, isHead line = true) →
      (inner ++ lines).takeWhile (fun line => !isHead line) = inner := by
    intro inner lines hinner hlines
    rw [List.takeWhile_append_of_pos (by simpa using hinner)]
    cases lines with
    | nil => simp
    | cons line lines =>
      have hhead : isHead line = true := hlines line rfl
      simp [hhead]
  have heq : inner = inner' := by rw [← htake hinner hlines, h, htake hinner' hlines']
  subst heq
  exact ⟨rfl, List.append_cancel_left h⟩

mutual

/-- The margin stands before every line. -/
theorem inside_margin (markers : Bool) (margin : Text) (t : Tree) :
    inside markers margin t = (inside markers [] t).map (margin ++ ·) := by
  cases t with
  | file name => rfl
  | cutOff name => cases markers <;> simp [inside]
  | denied name => cases markers <;> simp [inside]
  | directory name entries more => exact group_margin markers margin more entries

theorem group_margin (markers : Bool) (margin : Text) (more : Option Int) (entries : List Tree) :
    group markers margin more entries = (group markers [] more entries).map (margin ++ ·) := by
  cases entries with
  | nil => cases more <;> simp [group]
  | cons t rest =>
    simp only [group]
    rw [inside_margin markers (margin ++ _) t, inside_margin markers ([] ++ _) t,
      group_margin markers margin more rest]
    simp [List.append_assoc, Function.comp_def]

end

theorem group_nil_some (k : Int) : group true [] (some k) [] = [connector true ++ moreText k] := rfl

/-- The lines of a first entry: what leads to it, what is in it, and the lines of the others. -/
theorem group_cons (more : Option Int) (t : Tree) (rest : List Tree) :
    group true [] more (t :: rest) = (connector (rest.isEmpty && more.isNone) ++ t.label) ::
      ((inside true [] t).map (continuation (rest.isEmpty && more.isNone) ++ ·) ++
        group true [] more rest) := by
  simp only [group]
  rw [inside_margin true ([] ++ _) t]
  rfl

theorem isHead_of_mem_head?_group {line : Text} (h : line ∈ (group true [] more entries).head?) :
    isHead line = true := by
  cases entries with
  | nil =>
    cases more with
    | none => cases h
    | some k =>
      cases h
      exact isHead_connector true _
  | cons t rest =>
    rw [group_cons] at h
    cases h
    exact isHead_connector _ _

/-- The first line of a directory with entries is not taken for a remark. -/
theorem group_cons_ne {remark : Text} {lines : List Text} (h : IsLegible t.name)
    (hremark : IsRemark remark) : group true [] more (t :: rest) ≠ (connector true ++ remark) :: lines := by
  intro heq
  rw [group_cons] at heq
  exact label_ne_of_isRemark h hremark (connector_append_injective (List.cons.inj heq).1).2

end Margins

section Reading

/-- The lines in a directory that is gone into are not the marker of one that is not. -/
theorem group_ne_marker {remark : Text} (h : Legible (.directory name entries more))
    (hremark : IsRemark remark) (hmarker : ∀ k, remark ≠ moreText k) :
    group true [] more entries ≠ [connector true ++ remark] := by
  cases entries with
  | nil =>
    cases more with
    | none => exact nofun
    | some k =>
      intro heq
      rw [group_nil_some] at heq
      exact hmarker k (connector_append_injective (List.cons.inj heq).1).2.symm
  | cons t rest => exact group_cons_ne h.head_name hremark

theorem inside_cutOff_ne (name name' : Text) :
    inside true [] (.cutOff name) ≠ inside true [] (.denied name') := by
  intro h
  simp only [inside, List.nil_append] at h
  have htext := (connector_append_injective (List.cons.inj h).1).2
  exact absurd htext (by decide)

-- The induction is on the first tree. Its name and whether it is a directory are known from the label in
-- the line above, so only what is in it has to be read.
mutual

theorem inside_injective (t t' : Tree) (h : Legible t) (h' : Legible t') (hname : t.name = t'.name)
    (hfolder : t.isFolder = t'.isFolder) (hlines : inside true [] t = inside true [] t') : t = t' := by
  cases t with
  | file name =>
    cases t' with
    | file name' => exact congrArg file hname
    | _ => cases hfolder
  | cutOff name =>
    cases t' with
    | file name' => cases hfolder
    | cutOff name' => exact congrArg cutOff hname
    | denied name' => exact absurd hlines (inside_cutOff_ne _ _)
    | directory name' entries' more' =>
      exact absurd hlines.symm (group_ne_marker h' .cutOff moreText_ne_cutOff)
  | denied name =>
    cases t' with
    | file name' => cases hfolder
    | cutOff name' => exact absurd hlines.symm (inside_cutOff_ne _ _)
    | denied name' => exact congrArg denied hname
    | directory name' entries' more' =>
      exact absurd hlines.symm (group_ne_marker h' .denied moreText_ne_denied)
  | directory name entries more =>
    cases t' with
    | file name' => cases hfolder
    | cutOff name' => exact absurd hlines (group_ne_marker h .cutOff moreText_ne_cutOff)
    | denied name' => exact absurd hlines (group_ne_marker h .denied moreText_ne_denied)
    | directory name' entries' more' =>
      obtain rfl : name = name' := hname
      obtain ⟨rfl, rfl⟩ := group_injective entries entries' h h' hlines
      rfl

theorem group_injective {name name' : Text} {more more' : Option Int} (entries entries' : List Tree)
    (h : Legible (.directory name entries more)) (h' : Legible (.directory name' entries' more'))
    (hlines : group true [] more entries = group true [] more' entries') :
    entries = entries' ∧ more = more' := by
  cases entries with
  | nil =>
    cases entries' with
    | nil =>
      refine ⟨rfl, ?_⟩
      cases more with
      | none =>
        cases more' with
        | none => rfl
        | some k' => cases hlines
      | some k =>
        cases more' with
        | none => cases hlines
        | some k' =>
          rw [group_nil_some, group_nil_some] at hlines
          have htext := (connector_append_injective (List.cons.inj hlines).1).2
          exact congrArg some (moreText_injective h.more_nonneg h'.more_nonneg htext)
    | cons t' rest' =>
      cases more with
      | none => cases hlines
      | some k => exact absurd hlines.symm (group_cons_ne h'.head_name (isRemark_moreText h.more_nonneg))
  | cons t rest =>
    cases entries' with
    | nil =>
      cases more' with
      | none => cases hlines
      | some k' => exact absurd hlines (group_cons_ne h.head_name (isRemark_moreText h'.more_nonneg))
    | cons t' rest' =>
      rw [group_cons, group_cons] at hlines
      obtain ⟨hfirst, hothers⟩ := List.cons.inj hlines
      obtain ⟨hlast, hlabel⟩ := connector_append_injective hfirst
      obtain ⟨hname, hfolder⟩ := label_injective h.head_slash h'.head_slash hlabel
      rw [← hlast] at hothers
      have hcontinued : ∀ (u : Tree) (line : Text), line ∈ (inside true [] u).map
          (continuation (rest.isEmpty && more.isNone) ++ ·) → isHead line = false := by
        intro u line hline
        obtain ⟨text, -, rfl⟩ := List.mem_map.1 hline
        exact isHead_continuation _ text
      obtain ⟨hinner, hrest⟩ := append_injective_of_isHead (hcontinued t) (hcontinued t')
        (fun _ => isHead_of_mem_head?_group) (fun _ => isHead_of_mem_head?_group) hothers
      have hinner := (List.map_inj_right fun _ _ => List.append_cancel_left).1 hinner
      obtain rfl := inside_injective t t' h.head h'.head hname hfolder hinner
      obtain ⟨rfl, rfl⟩ := group_injective rest rest' h.tail h'.tail hrest
      exact ⟨rfl, rfl⟩

end

mutual

theorem newline_inside (t : Tree) (h : Legible t) : ∀ line ∈ inside true [] t, '\n' ∉ line := by
  cases t with
  | file name => exact nofun
  | cutOff name =>
    intro line hline
    rw [List.mem_singleton.1 hline]
    decide
  | denied name =>
    intro line hline
    rw [List.mem_singleton.1 hline]
    decide
  | directory name entries more => exact newline_group entries h

theorem newline_group {name : Text} {more : Option Int} (entries : List Tree)
    (h : Legible (.directory name entries more)) : ∀ line ∈ group true [] more entries, '\n' ∉ line := by
  have hconnector : ∀ isLast, '\n' ∉ connector isLast := by decide
  have hcontinuation : ∀ isLast, '\n' ∉ continuation isLast := by decide
  intro line hline
  cases entries with
  | nil =>
    cases more with
    | none => cases hline
    | some k =>
      rw [List.mem_singleton.1 hline]
      simpa using ⟨hconnector true, (isRemark_moreText h.more_nonneg).newline⟩
  | cons t rest =>
    rw [group_cons, List.mem_cons, List.mem_append] at hline
    rcases hline with rfl | hline | hline
    · simpa using ⟨hconnector _, newline_label h.head_name⟩
    · obtain ⟨text, htext, rfl⟩ := List.mem_map.1 hline
      simpa using ⟨hcontinuation _, newline_inside t h.head text htext⟩
    · exact newline_group rest h.tail line hline

end

theorem lines_draw (h : Legible t) (hname : '\n' ∉ t.name) :
    Text.lines (t.draw true) = t.drawLines true := by
  apply Text.lines_unlines_of_notMem (by simp [drawLines])
  intro line hline
  rcases List.mem_cons.1 hline with rfl | hline
  · exact hname
  · exact newline_inside t h line hline

end Reading

section Visible

variable {fs : FileSystem} {view : View} {depth : Nat} {dir : Path}

theorem mem_namesAmong : n ∈ namesAmong entries ↔ ∃ t ∈ entries, n = t.name ∨ n ∈ t.entryNames := by
  induction entries with
  | nil => simp [namesAmong]
  | cons t rest ih => simp [namesAmong, ih, or_assoc]

theorem mem_countsAmong {k : Int} : k ∈ countsAmong entries ↔ ∃ t ∈ entries, k ∈ t.counts := by
  induction entries with
  | nil => simp [countsAmong]
  | cons t rest ih => simp [countsAmong, ih]

theorem isFolder_of_ofDirectory (hok : ofDirectory fs view depth dir name = .ok t) :
    t.isFolder = true := by
  cases shown_of_ofDirectory hok <;> rfl

/-- Files are left out only where there are more than are shown. -/
theorem pos_of_listedFiles {items : List Item} {k : Int}
    (h : k ∈ (listedFiles view dir items).2.toList) : 0 < k := by
  have hle := List.length_filter_le (fun n => view.lists (dir.child n)) (openFiles view dir items)
  unfold listedFiles limitFiles at h
  split at h
  · cases h
  · split at h
    · simp only [Option.toList_some, List.mem_singleton] at h
      omega
    · cases h

theorem isName_of_mem_items (h : fs.Named) {names : List Text} {items : List Item}
    (listed : fs.list dir = .ok names) (looked : itemsOf fs dir = .ok items) {x : Item}
    (hx : x ∈ items) : Path.IsName x.1 := by
  obtain ⟨-, loc, -, -, rfl⟩ := list_ok_iff_locate.1 listed
  exact h.isName_of_mem_childNames ((mem_itemsOf_iff listed looked).1 hx).1

theorem isName_of_mem_entryNames (h : fs.Named) (hok : ofDirectory fs view depth dir name = .ok t)
    (hn : n ∈ t.entryNames) : Path.IsName n := by
  induction depth generalizing dir name t with
  | zero =>
    cases hok
    cases hn
  | succ depth ih =>
    cases shown_of_ofDirectory hok with
    | denied refused => cases hn
    | directory listed looked entered =>
      rw [ofItems_eq_directory, entryNames] at hn
      obtain ⟨u, hu, hn⟩ := mem_namesAmong.1 hn
      rcases entry_cases entered hu with ⟨hdir, hinner⟩ | ⟨hopen, hfile⟩
      · obtain ⟨⟨x, hx, hxu, -⟩, -⟩ := mem_shownDirs.1 hdir
        rcases hn with rfl | hn
        · exact hxu ▸ isName_of_mem_items h listed looked hx
        · exact ih hinner hn
      · obtain ⟨⟨x, hx, hxu, -⟩, -⟩ := mem_openFiles.1 hopen
        rcases hn with rfl | hn
        · exact hxu ▸ isName_of_mem_items h listed looked hx
        · rw [hfile] at hn
          cases hn

theorem pos_of_mem_counts {k : Int} (hok : ofDirectory fs view depth dir name = .ok t)
    (hk : k ∈ t.counts) : 0 < k := by
  induction depth generalizing dir name t with
  | zero =>
    cases hok
    cases hk
  | succ depth ih =>
    cases shown_of_ofDirectory hok with
    | denied refused => cases hk
    | directory listed looked entered =>
      rw [ofItems_eq_directory, counts] at hk
      rcases List.mem_append.1 hk with hk | hk
      · exact pos_of_listedFiles hk
      · obtain ⟨u, hu, hk⟩ := mem_countsAmong.1 hk
        rcases entry_cases entered hu with ⟨-, hinner⟩ | ⟨-, hfile⟩
        · exact ih hinner hk
        · rw [hfile] at hk
          cases hk

/-- A tree that a full view shows of a directory in some file system. -/
def IsVisible (t : Tree) : Prop :=
  ∃ (fs : FileSystem) (hides : Path → Bool) (maxDepth : Int) (showFiles : Bool) (maxFiles : Int)
    (root : Path), fs.Named ∧ ofPath fs (.full hides maxDepth showFiles maxFiles) root = .ok t

theorem IsVisible.isFolder (h : IsVisible t) : t.isFolder = true := by
  obtain ⟨fs, hides, maxDepth, showFiles, maxFiles, root, -, hok⟩ := h
  obtain ⟨dir, -, hok⟩ := bind_ok_iff.1 hok
  exact isFolder_of_ofDirectory hok

theorem IsVisible.legible (h : IsVisible t) (hnames : ∀ n ∈ t.entryNames, IsLegible n) :
    Legible t := by
  obtain ⟨fs, hides, maxDepth, showFiles, maxFiles, root, hnamed, hok⟩ := h
  obtain ⟨dir, -, hok⟩ := bind_ok_iff.1 hok
  exact {
    names := hnames
    slash := fun n hn => (isName_of_mem_entryNames hnamed hok hn).slash
    counts := fun k hk => Int.le_of_lt (pos_of_mem_counts hok hk) }

/-- The drawing of a tree determines it: the name at its root, how its entries are nested, which of them
are directories, which directories are cut off or cannot be listed, and how many files are left out. The
names may hold spaces, connectors and margins. -/
theorem eq_of_draw_eq (h : IsVisible t) (h' : IsVisible t') (hroot : '\n' ∉ t.name)
    (hroot' : '\n' ∉ t'.name) (hnames : ∀ n ∈ t.entryNames, IsLegible n)
    (hnames' : ∀ n ∈ t'.entryNames, IsLegible n) (hdraw : t.draw true = t'.draw true) : t = t' := by
  have hlegible := h.legible hnames
  have hlegible' := h'.legible hnames'
  have hlines : t.drawLines true = t'.drawLines true := by
    rw [← lines_draw hlegible hroot, hdraw, lines_draw hlegible' hroot']
  obtain ⟨hname, hinside⟩ := List.cons.inj hlines
  have hfolder : t.isFolder = t'.isFolder := by rw [h.isFolder, h'.isFolder]
  exact inside_injective t t' hlegible hlegible' hname hfolder hinside

-- A line feed would start a line of its own, and an entry can have the name of a remark.
example : (directory "a\n└── b".toList [] none).draw true =
    (directory "a".toList [file "b".toList] none).draw true := by decide

example : (directory "a".toList [file "...".toList] none).draw true = (cutOff "a".toList).draw true := by
  decide

/-- A project with names that look like lines, a directory that cannot be listed, one at the depth limit,
and more files than are shown. -/
def lookalikeProject : FileSystem :=
  (((((((((FileSystem.empty .standard []).put ["p".toList] .openDir).put
    ["p".toList, "a".toList] .openDir).put
    ["p".toList, "a".toList, "└── b".toList] (.file ⟨[], .finite false 1 0, false⟩)).put
    ["p".toList, "n".toList] .shutDir).put
    ["p".toList, "s".toList] .openDir).put
    ["p".toList, "s".toList, "│   t".toList] .openDir).put
    ["p".toList, "x".toList] (.file ⟨[], .finite false 1 0, false⟩)).put
    ["p".toList, "y".toList] (.file ⟨[], .finite false 1 0, false⟩)).put
    ["p".toList, "    z".toList] (.file ⟨[], .finite false 1 0, false⟩)

/-- The same project with a directory to be hidden, and a file below the depth limit. -/
def lookalikeCopy : FileSystem :=
  (lookalikeProject.put ["p".toList, "old".toList] .openDir).put
    ["p".toList, "s".toList, "│   t".toList, "u".toList] (.file ⟨[], .finite false 1 0, false⟩)

def lookalikeShown : Except Failure Tree :=
  ofPath lookalikeProject (.full (fun _ => false) 2 true 1) ⟨.root, ["p".toList]⟩

def lookalikeCopyShown : Except Failure Tree :=
  ofPath lookalikeCopy (.full (fun p => p.name == "old".toList) 2 true 1) ⟨.root, ["p".toList]⟩

/-- The drawings of the two projects are the same, so the same is shown of them. -/
theorem lookalikeProject_read : ∃ t, lookalikeShown = .ok t ∧ lookalikeCopyShown = .ok t := by
  have hread : (lookalikeShown.toOption.any fun t =>
      decide ('\n' ∉ t.name ∧ ∀ n ∈ t.entryNames, IsLegible n)) = true := by decide +kernel
  have hread' : (lookalikeCopyShown.toOption.any fun t =>
      decide ('\n' ∉ t.name ∧ ∀ n ∈ t.entryNames, IsLegible n)) = true := by decide +kernel
  have hdraw : lookalikeShown.toOption.map (draw true) = lookalikeCopyShown.toOption.map (draw true) := by
    decide +kernel
  obtain ⟨t, ht⟩ : ∃ t, lookalikeShown = .ok t := exists_ok_of_isSome (by decide +kernel)
  obtain ⟨t', ht'⟩ : ∃ t, lookalikeCopyShown = .ok t := exists_ok_of_isSome (by decide +kernel)
  rw [ht] at hread hdraw
  rw [ht'] at hread' hdraw
  obtain ⟨hroot, hnames⟩ := of_decide_eq_true hread
  obtain ⟨hroot', hnames'⟩ := of_decide_eq_true hread'
  have hvisible : IsVisible t := ⟨_, _, _, _, _, _, by decide +kernel, ht⟩
  have hvisible' : IsVisible t' := ⟨_, _, _, _, _, _, by decide +kernel, ht'⟩
  have heq := eq_of_draw_eq hvisible hvisible' hroot hroot' hnames hnames' (Option.some.inj hdraw)
  exact ⟨t, ht, heq ▸ ht'⟩

end Visible

end Tree

end CodeIndex
