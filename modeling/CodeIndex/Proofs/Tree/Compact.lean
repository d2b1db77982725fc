import CodeIndex.Proofs.Tree.Lines
import Mathlib.Data.List.Perm.Subperm

/-!
# The compact view is a full view

The compact view shows what a full view shows that hides the files which do not describe the project and
has room for all others. Only the markers are missing in its drawing.
-/

namespace CodeIndex

/-- Whether a path leads to a file. -/
def FileSystem.isFile (fs : FileSystem) (p : Path) : Bool :=
  match fs.look p with
  | .ok (some e) => e.isFile
  | _ => false

/-- Hides what is hidden anyway, and the files that do not describe a project. -/
def View.hidesOthers (fs : FileSystem) (hides : Path → Bool) (p : Path) : Bool :=
  hides p || (fs.isFile p && !isKeyFile p)

namespace Tree

open FileSystem

variable {fs : FileSystem} {hides : Path → Bool} {maxDepth maxFiles : Int} {depth : Nat} {dir : Path}
  {names : List Text} {items : List Item} {x : Item}

theorem isFile_of_mem_items (hitems : itemsOf fs dir = .ok items) (hx : x ∈ items) :
    fs.isFile (dir.child x.1) = x.2.any Entry.isFile := by
  obtain ⟨names, hlist, -⟩ := itemsOf_ok_iff.1 hitems
  rw [isFile, ((mem_itemsOf_iff hlist hitems).1 hx).2]
  cases x.2 <;> rfl

theorem names_of_itemsOf (hlist : fs.list dir = .ok names) (hitems : itemsOf fs dir = .ok items) :
    items.map Prod.fst = names := by
  obtain ⟨names', hlist', hlooks⟩ := itemsOf_ok_iff.1 hitems
  obtain rfl : names = names' := Except.ok.inj (hlist.symm.trans hlist')
  clear hlist hlist' hitems
  induction names generalizing items with
  | nil =>
    cases hlooks
    rfl
  | cons n names ih =>
    rw [List.mapM_cons] at hlooks
    obtain ⟨x, hx, hlooks⟩ := bind_ok_iff.1 hlooks
    obtain ⟨rest, hrest, hlooks⟩ := bind_ok_iff.1 hlooks
    obtain ⟨found, -, hx⟩ := bind_ok_iff.1 hx
    cases hlooks
    cases hx
    rw [List.map_cons, ih hrest]

/-- The files that are shown if there is room for all: those in the directory that are not hidden. -/
theorem length_openFiles (hlist : fs.list dir = .ok names) (hitems : itemsOf fs dir = .ok items)
    (view : View) :
    (openFiles view dir items).length =
      (names.filter fun n => fs.isFile (dir.child n) && !view.hides (dir.child n)).length := by
  have hfiles : items.filter (fun x => fs.isFile (dir.child x.1) && !view.hides (dir.child x.1)) =
      items.filter fun x => x.2.any Entry.isFile && !view.hides (dir.child x.1) :=
    List.filter_congr fun x hx => by rw [isFile_of_mem_items hitems hx]
  rw [openFiles, List.length_map, List.filter_filter, ((sortItems_perm items).filter _).length_eq,
    ← names_of_itemsOf hlist hitems, List.filter_map, List.length_map]
  exact congrArg List.length hfiles.symm

/-- No more files are shown of a directory than there are in it. -/
theorem length_openFiles_le_files (hlist : fs.list dir = .ok names)
    (hitems : itemsOf fs dir = .ok items) (view : View) :
    (openFiles view dir items).length ≤ (names.filter fun n => fs.isFile (dir.child n)).length := by
  have hkept : names.filter (fun n => fs.isFile (dir.child n) && !view.hides (dir.child n)) =
      (names.filter fun n => fs.isFile (dir.child n)).filter fun n => !view.hides (dir.child n) := by
    rw [List.filter_filter]
    exact List.filter_congr fun n _ => Bool.and_comm _ _
  rw [length_openFiles hlist hitems, hkept]
  exact List.length_filter_le _ _

theorem shownDirs_compact (hitems : itemsOf fs dir = .ok items) (maxFiles : Int) :
    shownDirs (.compact hides maxDepth) dir items =
      shownDirs (.full (View.hidesOthers fs hides) maxDepth true maxFiles) dir items := by
  simp only [shownDirs, List.filter_filter]
  congr 1
  refine List.filter_congr fun x hx => ?_
  -- a directory is no file, so it is not among the files that are hidden
  have hfile := isFile_of_mem_items hitems (mem_sortItems.1 hx)
  obtain ⟨n, found⟩ := x
  rcases found with _ | (_ | _ | _ | _) <;>
    simp_all [isDirectory, View.compact, View.full, View.hidesOthers, Entry.isDirectory, Entry.isFile]

theorem openFiles_compact (hitems : itemsOf fs dir = .ok items) :
    openFiles (.full (View.hidesOthers fs hides) maxDepth true maxFiles) dir items =
      (openFiles (.compact hides maxDepth) dir items).filter fun n => View.isKeyFile (dir.child n) := by
  simp only [openFiles, List.filter_map, List.filter_filter]
  congr 1
  refine List.filter_congr fun x hx => ?_
  have hfile := isFile_of_mem_items hitems (mem_sortItems.1 hx)
  cases hisFile : x.2.any Entry.isFile with
  | false => simp
  | true => simp [View.compact, View.full, View.hidesOthers, hfile, hisFile, Bool.and_comm]

/-- Both views make the same of the items of a directory. -/
theorem ofItems_compact (hlist : fs.list dir = .ok names) (hitems : itemsOf fs dir = .ok items)
    (hfew : ((names.filter fun n => fs.isFile (dir.child n)).length : Int) ≤ maxFiles) (name : Text)
    (inner : List Tree) : ofItems (.compact hides maxDepth) dir name items inner =
      ofItems (.full (View.hidesOthers fs hides) maxDepth true maxFiles) dir name items inner := by
  have hlen := length_openFiles_le_files hlist hitems
    (.full (View.hidesOthers fs hides) maxDepth true maxFiles)
  rw [ofItems_full (by omega), openFiles_compact hitems]
  rfl

theorem ofDirectory_compact
    (hfew : ∀ dir names, fs.list dir = .ok names →
      ((names.filter fun n => fs.isFile (dir.child n)).length : Int) ≤ maxFiles) (name : Text) :
    ofDirectory fs (.compact hides maxDepth) depth dir name =
      ofDirectory fs (.full (View.hidesOthers fs hides) maxDepth true maxFiles) depth dir name := by
  induction depth generalizing dir name with
  | zero => rfl
  | succ depth ih =>
    rw [ofDirectory_succ, ofDirectory_succ]
    cases hitems : itemsOf fs dir with
    | error failure => rfl
    | ok items =>
      obtain ⟨names, hlist, -⟩ := itemsOf_ok_iff.1 hitems
      simp only [bind, Except.bind, ofItems_compact hlist hitems (hfew dir names hlist)]
      rw [shownDirs_compact hitems maxFiles, mapM_congr fun n _ => ih n]

/-- The compact view of a path is drawn as the full view that hides all files but those that describe
the project, where there is room for all files of a directory, without the lines on directories that are at
the depth limit or cannot be listed; and both fail alike. -/
theorem compact_drawn_from_full (fs : FileSystem) (hides : Path → Bool) (root : Path)
    (hfew : ∀ dir names, fs.list dir = .ok names →
      ((names.filter fun n => fs.isFile (dir.child n)).length : Int) ≤ maxFiles) :
    ((ofPath fs (.full (View.hidesOthers fs hides) maxDepth true maxFiles) root).map (draw true) =
      (ofPath fs (.full (View.hidesOthers fs hides) maxDepth true maxFiles) root).map fun t =>
        Text.unlines (t.name :: (t.trace [] root).map TracedLine.text)) ∧
    (ofPath fs (.compact hides maxDepth) root).map (draw false) =
      (ofPath fs (.full (View.hidesOthers fs hides) maxDepth true maxFiles) root).map fun t =>
        Text.unlines (t.name ::
          ((t.trace [] root).filter fun line => !line.kind.isMarker).map TracedLine.text) := by
  have hsame : ofPath fs (.compact hides maxDepth) root =
      ofPath fs (.full (View.hidesOthers fs hides) maxDepth true maxFiles) root := by
    unfold ofPath
    cases fs.resolve root with
    | error failure => rfl
    | ok root => exact ofDirectory_compact hfew root.name
  constructor
  · congr 1
    funext t
    exact draw_true_eq t root
  · rw [hsame]
    congr 1
    funext t
    exact draw_false_eq t root

/-- A directory has no more files than there are entries. -/
theorem length_files_le (h : fs.list dir = .ok names) (test : Text → Bool) :
    (names.filter test).length ≤ fs.entries.length := by
  obtain ⟨-, loc, -, -, rfl⟩ := list_ok_iff_locate.1 h
  calc ((fs.childNames loc).filter test).length
      ≤ (fs.childNames loc).length := List.length_filter_le _ _
    _ ≤ (fs.entries.filterMap fun x => childName? loc x.1).length :=
        (List.Nodup.subperm (TextOrder.nodup_sort _ _) fun _ => TextOrder.mem_sort.1).length_le
    _ ≤ fs.entries.length := List.length_filterMap_le _ _

/-- A project with a link to a directory, a directory that cannot be listed, one at the depth limit, and
files that do and do not describe it. -/
def describedProject : FileSystem :=
  ((((((((FileSystem.empty .standard []).put ["p".toList] .openDir).put
    ["p".toList, "a".toList] (.file ⟨[], .finite false 1 0, false⟩)).put
    ["p".toList, "go.mod".toList] (.file ⟨[], .finite false 1 0, false⟩)).put
    ["p".toList, "l".toList] (.link "s".toList)).put
    ["p".toList, "n".toList] .shutDir).put
    ["p".toList, "s".toList] .openDir).put
    ["p".toList, "s".toList, "t".toList] .openDir).put
    ["p".toList, "s".toList, "go.mod".toList] (.file ⟨[], .finite false 1 0, false⟩)

/-- The lines on what is not gone into are in the full drawing alone. -/
theorem describedProject_compact :
    (ofPath describedProject (.full (View.hidesOthers describedProject fun _ => false) 2 true 8)
        ⟨.root, ["p".toList]⟩).map (fun t => Text.unlines (t.name ::
          ((t.trace [] ⟨.root, ["p".toList]⟩).filter fun line => !line.kind.isMarker).map
            TracedLine.text)) =
      .ok (Text.unlines (["p", "├── l/", "│   ├── t/", "│   └── go.mod", "├── n/", "├── s/",
        "│   ├── t/", "│   └── go.mod", "└── go.mod"].map String.toList)) ∧
    (ofPath describedProject (.full (View.hidesOthers describedProject fun _ => false) 2 true 8)
        ⟨.root, ["p".toList]⟩).map (draw true) =
      .ok (Text.unlines (["p", "├── l/", "│   ├── t/", "│   │   └── ...", "│   └── go.mod", "├── n/",
        "│   └── [Permission Denied]", "├── s/", "│   ├── t/", "│   │   └── ...", "│   └── go.mod",
        "└── go.mod"].map String.toList)) := by
  have hfew : ∀ dir names, describedProject.list dir = .ok names →
      ((names.filter fun n => describedProject.isFile (dir.child n)).length : Int) ≤ 8 :=
    fun dir names hlist => Int.ofNat_le.2 (length_files_le hlist _)
  obtain ⟨-, hcompact⟩ := compact_drawn_from_full describedProject (fun _ => false)
    ⟨.root, ["p".toList]⟩ hfew
  rw [← hcompact]
  decide +kernel

end Tree

end CodeIndex
