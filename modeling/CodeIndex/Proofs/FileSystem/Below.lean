import CodeIndex.Proofs.Action
import CodeIndex.Proofs.Catalogue
import CodeIndex.Proofs.Page.Directory
import CodeIndex.Tree.View

/-!
# Leaving out a directory

Where two file systems differ only in one directory, and that directory is left out, the same files
are catalogued and the same tree is drawn.
-/

namespace CodeIndex

namespace FileSystem

variable {fs fs' fs'' : FileSystem} {K loc : Location} {skips : Path → Bool} {levels : Nat}
  {dir p : Path} {n : Text}

/-- Two file systems that differ at most at a location and below it. -/
structure DifferBelow (K : Location) (fs fs' : FileSystem) : Prop where
  plain : fs.Plain
  plain' : fs'.Plain
  listing : fs'.host.listing = fs.host.listing
  same : ∀ loc, ¬K <+: loc → fs'.get? loc = fs.get? loc

namespace DifferBelow

theorem symm (h : DifferBelow K fs fs') : DifferBelow K fs' fs :=
  ⟨h.plain', h.plain, h.listing.symm, fun loc hloc => (h.same loc hloc).symm⟩

theorem trans (h : DifferBelow K fs fs') (h' : DifferBelow K fs' fs'') : DifferBelow K fs fs'' :=
  ⟨h.plain, h'.plain', h'.listing.trans h.listing, fun loc hloc =>
    (h'.same loc hloc).trans (h.same loc hloc)⟩

theorem agreeAlong (h : DifferBelow K fs fs') (hloc : ¬K <+: loc) : AgreeAlong fs fs' loc :=
  fun above habove => (h.same above fun hK => hloc (hK.trans habove)).symm

end DifferBelow

theorem SameEntries.differBelow (h : SameEntries fs fs') (hfs : fs.Plain) (K : Location) :
    DifferBelow K fs fs' := ⟨hfs, h.plain hfs, h.listing, fun loc _ => h.get? loc⟩

theorem not_below_child (hloc : ¬K <+: loc) (hne : loc ++ [n] ≠ K) : ¬K <+: loc ++ [n] := by
  rw [List.prefix_concat_iff]
  rintro (heq | hbelow)
  · exact hne heq.symm
  · exact hloc hbelow

theorem walk_of_deep (h : fs.Plain) (hdir : dir.IsProper) (hdeep : fs.depth < dir.names.length) :
    fs.walk skips levels dir = [] := by
  cases levels with
  | zero => rfl
  | succ levels =>
    rw [walk_succ]
    cases hlist : fs.list dir with
    | error failure => rfl
    | ok names =>
      obtain ⟨-, ⟨data, hget, -⟩, -⟩ := (list_ok_iff h hdir).1 hlist
      exact absurd (length_le_depth hget) (by omega)

/-- A walk that goes as deep as there are entries finds no more when it goes deeper. -/
theorem walk_enough (h : fs.Plain) (hdir : dir.IsProper)
    (henough : fs.depth < dir.names.length + levels) (k : Nat) :
    fs.walk skips (levels + k) dir = fs.walk skips levels dir := by
  induction levels generalizing dir with
  | zero => rw [walk_of_deep h hdir henough, walk_of_deep h hdir henough]
  | succ levels ih =>
    rw [Nat.add_right_comm, walk_succ, walk_succ]
    cases hlist : fs.list dir with
    | error failure => rfl
    | ok names =>
      obtain ⟨-, -, rfl⟩ := (list_ok_iff h hdir).1 hlist
      simp only [List.cons.injEq, true_and]
      rw [List.flatMap_def, List.flatMap_def]
      refine congrArg List.flatten (List.map_congr_left fun n hn => ?_)
      refine ih (hdir.child (isName_of_mem_childNames h (mem_entered hn))) ?_
      simp only [Path.child_names, List.length_append, List.length_singleton]
      omega

theorem filter_childNames_congr {test test' : Text → Bool}
    (hlisting : fs'.host.listing = fs.host.listing)
    (h : ∀ v, (v ∈ fs.childNames loc ∧ test v = true) ↔ (v ∈ fs'.childNames loc ∧ test' v = true)) :
    (fs.childNames loc).filter test = (fs'.childNames loc).filter test' := by
  simp only [childNames, hlisting, TextOrder.mem_sort] at h ⊢
  exact TextOrder.filter_sort_congr h

theorem childNames_congr (hlisting : fs'.host.listing = fs.host.listing)
    (h : ∀ v, fs.get? (loc ++ [v]) = fs'.get? (loc ++ [v])) :
    fs.childNames loc = fs'.childNames loc := by
  have hmem : ∀ v, v ∈ fs.childNames loc ↔ v ∈ fs'.childNames loc := by
    intro v
    rw [mem_childNames, mem_childNames, h v]
  simp only [childNames, hlisting, TextOrder.mem_sort] at hmem ⊢
  exact TextOrder.sort_congr hmem

/-- A directory that is left out: nothing but a directory stands there. -/
structure LeftOut (K : Location) (skips : Path → Bool) (fs : FileSystem) : Prop where
  skipped : skips ⟨.root, K⟩ = true
  directory : ∀ e, fs.get? K = some e → fs.isDir ⟨.root, K⟩ = true

theorem entered_congr (h : DifferBelow K fs fs') (hskip : skips ⟨.root, K⟩ = true)
    (hdir : dir.IsProper) (hbelow : ¬K <+: dir.names) :
    fs.entered skips dir (fs.childNames dir.names) =
      fs'.entered skips dir (fs'.childNames dir.names) := by
  unfold entered
  rw [List.filter_filter, List.filter_filter]
  refine filter_childNames_congr h.listing fun v => ?_
  by_cases hK : dir.names ++ [v] = K
  · have hpath : dir.child v = ⟨.root, K⟩ := by
      rw [← hK, ← hdir.anchor]
      rfl
    simp [hpath, hskip]
  · have hchild : ¬K <+: dir.names ++ [v] := not_below_child hbelow hK
    simp only [mem_childNames, h.same _ hchild, isLink_eq_false h.plain, isLink_eq_false h.plain']
    rw [holdsDir_congr h.plain h.plain' hdir (h.agreeAlong hchild)]

theorem files_congr (h : DifferBelow K fs fs') (hout : fs.LeftOut K skips)
    (hout' : fs'.LeftOut K skips) (hdir : dir.IsProper) (hbelow : ¬K <+: dir.names) :
    ((fs.childNames dir.names).filter fun n => !fs.holdsDir dir n) =
      (fs'.childNames dir.names).filter fun n => !fs'.holdsDir dir n := by
  refine filter_childNames_congr h.listing fun v => ?_
  by_cases hK : dir.names ++ [v] = K
  · have hpath : dir.child v = ⟨.root, K⟩ := by
      rw [← hK, ← hdir.anchor]
      rfl
    -- the directory itself is not among the files
    have hheld : ∀ {fs : FileSystem}, fs.Plain → fs.LeftOut K skips →
        v ∈ fs.childNames dir.names → fs.holdsDir dir v = true := by
      intro fs hplain hout hv
      obtain ⟨e, hget⟩ := mem_childNames.1 hv
      have hname := hplain.names _ _ hget v (by simp)
      exact holdsDir_of_isDir hplain hdir hname (hpath ▸ hout.directory e (hK ▸ hget))
    constructor
    · rintro ⟨hv, hfile⟩
      simp [hheld h.plain hout hv] at hfile
    · rintro ⟨hv, hfile⟩
      simp [hheld h.plain' hout' hv] at hfile
  · have hchild : ¬K <+: dir.names ++ [v] := not_below_child hbelow hK
    simp only [mem_childNames, h.same _ hchild]
    rw [holdsDir_congr h.plain h.plain' hdir (h.agreeAlong hchild)]

/-- A walk does not show what lies below a directory that it leaves out. -/
theorem walk_congr (h : DifferBelow K fs fs') (hout : fs.LeftOut K skips)
    (hout' : fs'.LeftOut K skips) (hdir : dir.IsProper) (hbelow : ¬K <+: dir.names) :
    fs.walk skips levels dir = fs'.walk skips levels dir := by
  induction levels generalizing dir with
  | zero => rfl
  | succ levels ih =>
    have hlocate := locate_congr h.plain h.plain' hdir (h.agreeAlong hbelow) .entry
    have hget := h.same dir.names hbelow
    have hok : (∃ names, fs.list dir = .ok names) ↔ ∃ names, fs'.list dir = .ok names := by
      simp only [list_ok_iff h.plain hdir, list_ok_iff h.plain' hdir, hlocate, hget]
      simp
    rw [walk_succ, walk_succ]
    cases hlist : fs.list dir with
    | error failure =>
      cases hlist' : fs'.list dir with
      | error failure' => rfl
      | ok names =>
        obtain ⟨names', hnames⟩ := hok.2 ⟨names, hlist'⟩
        rw [hlist] at hnames
        cases hnames
    | ok names =>
      obtain ⟨names', hlist'⟩ := hok.1 ⟨names, hlist⟩
      obtain ⟨-, -, rfl⟩ := (list_ok_iff h.plain hdir).1 hlist
      obtain ⟨-, -, rfl⟩ := (list_ok_iff h.plain' hdir).1 hlist'
      rw [hlist']
      simp only [files_congr h hout hout' hdir hbelow, List.cons.injEq, true_and]
      rw [← entered_congr h hout.skipped hdir hbelow, List.flatMap_def, List.flatMap_def]
      refine congrArg List.flatten (List.map_congr_left fun n hn => ?_)
      have hproper := hdir.child (isName_of_mem_childNames h.plain (mem_entered hn))
      refine ih hproper (not_below_child hbelow fun hK => ?_)
      have hskip := (List.mem_filter.1 hn).2
      have hpath : dir.child n = ⟨.root, K⟩ := by
        rw [← hK, ← hdir.anchor]
        rfl
      simp [hpath, hout.skipped] at hskip

end FileSystem

namespace Catalogue

open FileSystem

/-- The same files are catalogued. -/
theorem collect_congr {fs fs' : FileSystem} {K : Location} {rules : IgnoreRules} {root : Path}
    (registry : Registry) (h : DifferBelow K fs fs') (hout : fs.LeftOut K rules.ignores)
    (hout' : fs'.LeftOut K rules.ignores) (hroot : root.IsProper) (hbelow : ¬K <+: root.names) :
    collect fs registry rules root = collect fs' registry rules root := by
  have hwalk : fs.walk rules.ignores (fs.depth + 1) root =
      fs'.walk rules.ignores (fs'.depth + 1) root := by
    rw [← walk_enough h.plain hroot (by omega) fs'.depth,
      ← walk_enough h.plain' hroot (by omega) fs.depth, walk_congr h hout hout' hroot hbelow,
      show fs.depth + 1 + fs'.depth = fs'.depth + 1 + fs.depth by omega]
  unfold collect
  rw [hwalk]

end Catalogue

namespace Tree

open FileSystem

variable {fs fs' : FileSystem} {K : Location} {view : View} {depth : Nat} {dir : Path} {name : Text}

/-- The directories among some items that a view shows. -/
def shownDirs (view : View) (dir : Path) (items : List Item) : List Text :=
  (((sortItems items).filter fun x => !view.hides (dir.child x.1)).filter isDirectory).map Prod.fst

/-- What is shown of a directory whose items are not to be had. -/
def unlisted (name : Text) : Failure → Except Failure Tree
  | .refused .denied _ => .ok (.denied name)
  | failure => .error failure

/-- What is shown of a directory with some items, given what is shown of the directories in it. -/
def ofItems (view : View) (dir : Path) (name : Text) (items : List Item) (inner : List Tree) : Tree :=
  let shown := (sortItems items).filter fun x => !view.hides (dir.child x.1)
  let files := (shown.filter fun x => x.2.any Entry.isFile).map Prod.fst
  let (listed, more) :=
    limitFiles view.maxFiles (files.filter fun n => view.lists (dir.child n)) files.length
  .directory name (inner ++ listed.map .file) more

theorem ofDirectory_succ (fs : FileSystem) (view : View) (depth : Nat) (dir : Path) (name : Text) :
    ofDirectory fs view (depth + 1) dir name = match itemsOf fs dir with
      | .error failure => unlisted name failure
      | .ok items => do
        let inner ← (shownDirs view dir items).mapM fun n =>
          ofDirectory fs view depth (dir.child n) n
        return ofItems view dir name items inner := by
  rw [ofDirectory]
  cases itemsOf fs dir with
  | ok items => rfl
  | error failure =>
    unfold unlisted
    split <;> simp_all

theorem itemsOf_ok_iff {items : List Item} :
    itemsOf fs dir = .ok items ↔ ∃ names, fs.list dir = .ok names ∧
      (names.mapM fun name => do return (name, ← fs.look (dir.child name))) = .ok items :=
  bind_ok_iff

theorem mem_itemsOf_iff {names : List Text} {items : List Item} (hlist : fs.list dir = .ok names)
    (h : itemsOf fs dir = .ok items) {x : Item} :
    x ∈ items ↔ x.1 ∈ names ∧ fs.look (dir.child x.1) = .ok x.2 := by
  obtain ⟨names', hlist', h⟩ := itemsOf_ok_iff.1 h
  obtain rfl : names = names' := Except.ok.inj (hlist.symm.trans hlist')
  rw [mem_of_mapM_ok h]
  constructor
  · rintro ⟨n, hn, hx⟩
    obtain ⟨found, hlook, hx⟩ := bind_ok_iff.1 hx
    cases hx
    exact ⟨hn, hlook⟩
  · rintro ⟨hn, hlook⟩
    exact ⟨x.1, hn, bind_ok_iff.2 ⟨x.2, hlook, rfl⟩⟩

/-- The items of a directory are refused by the directory or by one of them. -/
theorem error_of_itemsOf {failure : Failure} (h : itemsOf fs dir = .error failure) :
    fs.list dir = .error failure ∨ ∃ names, fs.list dir = .ok names ∧
      ∃ n ∈ names, fs.look (dir.child n) = .error failure := by
  cases hlist : fs.list dir with
  | error failure' =>
    rw [itemsOf, hlist] at h
    cases h
    exact .inl rfl
  | ok names =>
    rw [itemsOf, hlist] at h
    obtain ⟨n, hn, hlook⟩ := exists_of_mapM_error h
    refine .inr ⟨names, rfl, n, hn, ?_⟩
    cases hfound : fs.look (dir.child n) with
    | ok found =>
      rw [hfound] at hlook
      cases hlook
    | error failure' =>
      rw [hfound] at hlook
      exact congrArg _ (Except.error.inj hlook)

theorem sortItems_perm (items : List Item) : (sortItems items).Perm items := by
  have hsorted : sortItems items = sortBy (fun x y => entryLe (isDirectory x, Text.lower x.1)
      (isDirectory y, Text.lower y.1)) items :=
    sortBy_keyed entryLe (fun x : Item => (isDirectory x, Text.lower x.1)) items
  rw [hsorted]
  exact sortBy_perm _ items

theorem mem_sortItems {items : List Item} {x : Item} : x ∈ sortItems items ↔ x ∈ items :=
  (sortItems_perm items).mem_iff

theorem mem_shownDirs {items : List Item} {n : Text} : n ∈ shownDirs view dir items ↔
    (∃ x ∈ items, x.1 = n ∧ isDirectory x = true) ∧ view.hides (dir.child n) = false := by
  simp only [shownDirs, List.mem_map, List.mem_filter, mem_sortItems, Bool.not_eq_true']
  constructor
  · rintro ⟨x, ⟨⟨hx, hshown⟩, hdir⟩, rfl⟩
    exact ⟨⟨x, hx, rfl, hdir⟩, hshown⟩
  · rintro ⟨⟨x, hx, rfl, hdir⟩, hshown⟩
    exact ⟨x, ⟨⟨hx, hshown⟩, hdir⟩, rfl⟩

theorem itemsOf_congr (h : fs.Plain) (h' : fs'.Plain) (hdir : dir.IsProper)
    (hlist : fs.list dir = fs'.list dir) (hag : ∀ n, AgreeAlong fs fs' (dir.names ++ [n])) :
    itemsOf fs dir = itemsOf fs' dir := by
  unfold itemsOf
  rw [← hlist]
  cases hnames : fs.list dir with
  | error failure => rfl
  | ok names =>
    obtain ⟨-, -, rfl⟩ := (list_ok_iff h hdir).1 hnames
    refine mapM_congr fun n hn => ?_
    rw [look_congr h h' (hdir.child (isName_of_mem_childNames h hn)) (hag n)]

/-- A tree does not show what lies below a directory that the view hides. -/
theorem ofDirectory_congr (h : DifferBelow K fs fs') (hK : fs'.get? K = fs.get? K)
    (hhides : view.hides ⟨.root, K⟩ = true) (hdir : dir.IsProper) (hbelow : ¬K <+: dir.names) :
    ofDirectory fs view depth dir name = ofDirectory fs' view depth dir name := by
  induction depth generalizing dir name with
  | zero => rfl
  | succ depth ih =>
    have hchild : ∀ n, AgreeAlong fs fs' (dir.names ++ [n]) := by
      intro n above habove
      by_cases heq : K <+: above
      · have hend : K = dir.names ++ [n] :=
          (List.prefix_concat_iff.1 (heq.trans habove)).resolve_right hbelow
        have hhere : K = above := heq.eq_of_length_le (hend ▸ habove.length_le)
        rw [← hhere, hK]
      · exact (h.same above heq).symm
    have hnames : fs.childNames dir.names = fs'.childNames dir.names :=
      childNames_congr h.listing fun v => (hchild v).here
    have hlist := list_congr h.plain h.plain' hdir (h.agreeAlong hbelow) hnames
    rw [ofDirectory_succ, ofDirectory_succ, ← itemsOf_congr h.plain h.plain' hdir hlist hchild]
    cases hitems : itemsOf fs dir with
    | error failure => rfl
    | ok items =>
      obtain ⟨names, hok, -⟩ := itemsOf_ok_iff.1 hitems
      have hmem := fun x => mem_itemsOf_iff hok hitems (x := x)
      obtain ⟨-, -, rfl⟩ := (list_ok_iff h.plain hdir).1 hok
      have hinner : ∀ n ∈ shownDirs view dir items,
          ofDirectory fs view depth (dir.child n) n =
            ofDirectory fs' view depth (dir.child n) n := by
        intro n hn
        obtain ⟨⟨x, hx, rfl, -⟩, hshown⟩ := mem_shownDirs.1 hn
        have hname := isName_of_mem_childNames h.plain ((hmem x).1 hx).1
        refine ih (hdir.child hname) (not_below_child hbelow fun hend => ?_)
        have hpath : dir.child x.1 = ⟨.root, K⟩ := by
          rw [← hend, ← hdir.anchor]
          rfl
        rw [hpath, hhides] at hshown
        cases hshown
      dsimp only [bind, Except.bind]
      rw [mapM_congr hinner]

end Tree

end CodeIndex
