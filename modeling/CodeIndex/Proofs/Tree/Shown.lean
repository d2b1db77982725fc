import CodeIndex.Proofs.Catalogue.Exact
import CodeIndex.Proofs.FileSystem.Below
import CodeIndex.Proofs.FileSystem.Clear
import CodeIndex.Proofs.FileSystem.Resolve

/-!
# The files that a tree shows

A catalogue and a full view go through the same directories in two ways. On a file system without
links, a view that nothing is too deep or too large for shows the files that stand at the ends of open
ways; of these, the catalogue lists the ones that have a language. It lists more where it does not look
at what it lists: what is in a directory that cannot be searched, and what is no file.
-/

namespace CodeIndex

namespace Tree

open FileSystem

mutual

/-- The files that a tree shows, where it stands for what is at a path. -/
def shownFiles (p : Path) : Tree → List Path
  | file _ => [p]
  | cutOff _ => []
  | denied _ => []
  | directory _ entries _ => shownAmong p entries

def shownAmong (dir : Path) : List Tree → List Path
  | [] => []
  | t :: rest => shownFiles (dir.child t.name) t ++ shownAmong dir rest

end

variable {fs : FileSystem} {hides : Path → Bool} {maxDepth maxFiles : Int} {depth : Nat}
  {dir p : Path} {name n : Text} {items : List Item} {t : Tree}

theorem mem_shownAmong {entries : List Tree} :
    p ∈ shownAmong dir entries ↔ ∃ t ∈ entries, p ∈ shownFiles (dir.child t.name) t := by
  induction entries with
  | nil => simp [shownAmong]
  | cons t rest ih => simp [shownAmong, ih]

/-- What can be shown of a directory. -/
inductive Shown (fs : FileSystem) (view : View) (dir : Path) (name : Text) : Nat → Tree → Prop where
  | cutOff : Shown fs view dir name 0 (.cutOff name)
  | denied {depth : Nat} {path : Text} (refused : itemsOf fs dir = .error (.refused .denied path)) :
    Shown fs view dir name (depth + 1) (.denied name)
  | directory {depth : Nat} {names : List Text} {items : List Item} {inner : List Tree}
    (listed : fs.list dir = .ok names) (looked : itemsOf fs dir = .ok items)
    (entered : (shownDirs view dir items).mapM (fun n => ofDirectory fs view depth (dir.child n) n) =
      .ok inner) : Shown fs view dir name (depth + 1) (ofItems view dir name items inner)

theorem shown_of_ofDirectory {view : View} (hok : ofDirectory fs view depth dir name = .ok t) :
    Shown fs view dir name depth t := by
  cases depth with
  | zero =>
    cases hok
    exact .cutOff
  | succ depth =>
    rw [ofDirectory_succ] at hok
    cases hitems : itemsOf fs dir with
    | error failure =>
      simp only [hitems, unlisted] at hok
      split at hok
      · cases hok
        exact .denied hitems
      · cases hok
    | ok items =>
      simp only [hitems] at hok
      obtain ⟨names, hlist, -⟩ := itemsOf_ok_iff.1 hitems
      obtain ⟨inner, hinner, hok⟩ := bind_ok_iff.1 hok
      cases hok
      exact .directory hlist hitems hinner

theorem name_of_ofDirectory {view : View} (hok : ofDirectory fs view depth dir name = .ok t) :
    t.name = name := by
  cases shown_of_ofDirectory hok <;> rfl

/-- The files among some items that a view does not hide. -/
def openFiles (view : View) (dir : Path) (items : List Item) : List Text :=
  (((sortItems items).filter fun x => !view.hides (dir.child x.1)).filter fun x =>
    x.2.any Entry.isFile).map Prod.fst

theorem mem_openFiles {view : View} : n ∈ openFiles view dir items ↔
    (∃ x ∈ items, x.1 = n ∧ x.2.any Entry.isFile = true) ∧ view.hides (dir.child n) = false := by
  simp only [openFiles, List.mem_map, List.mem_filter, mem_sortItems, Bool.not_eq_true']
  constructor
  · rintro ⟨x, ⟨⟨hx, hshown⟩, hfile⟩, rfl⟩
    exact ⟨⟨x, hx, rfl, hfile⟩, hshown⟩
  · rintro ⟨⟨x, hx, rfl, hfile⟩, hshown⟩
    exact ⟨x, ⟨⟨hx, hshown⟩, hfile⟩, rfl⟩

theorem length_openFiles_le (view : View) (dir : Path) (items : List Item) :
    (openFiles view dir items).length ≤ items.length := by
  rw [openFiles, List.length_map, ← (sortItems_perm items).length_eq]
  exact Nat.le_trans (List.length_filter_le _ _) (List.length_filter_le _ _)

theorem ofItems_eq (view : View) (dir : Path) (name : Text) (items : List Item) (inner : List Tree) :
    ofItems view dir name items inner =
      let (listed, more) := limitFiles view.maxFiles
        ((openFiles view dir items).filter fun n => view.lists (dir.child n))
        (openFiles view dir items).length
      .directory name (inner ++ listed.map .file) more := rfl

/-- Where no more files are to be shown than may be, all of them are. -/
theorem ofItems_full
    (hfew : ((openFiles (.full hides maxDepth true maxFiles) dir items).length : Int) ≤ maxFiles)
    (inner : List Tree) :
    ofItems (.full hides maxDepth true maxFiles) dir name items inner = .directory name
      (inner ++ (openFiles (.full hides maxDepth true maxFiles) dir items).map .file) none := by
  generalize hview : View.full hides maxDepth true maxFiles = view at hfew ⊢
  have hlists : ∀ q, view.lists q = true := by simp [← hview, View.full]
  have hmax : view.maxFiles = some maxFiles := by simp [← hview, View.full]
  have hlimit : limitFiles view.maxFiles
      ((openFiles view dir items).filter fun n => view.lists (dir.child n))
      (openFiles view dir items).length = (openFiles view dir items, none) := by
    rw [hmax, List.filter_eq_self.2 fun n _ => hlists _, limitFiles, if_neg (by omega)]
  rw [ofItems_eq, hlimit]

/-- A file stands at the end of an open way, in a directory that can be searched, and it is not hidden
itself. -/
def ShownBelow (fs : FileSystem) (hides : Path → Bool) (dir p : Path) : Prop :=
  ∃ way n data, fs.IsOpen hides dir dir.names way ∧ fs.isSearchableAt (dir.names ++ way) = true ∧
    fs.get? (dir.names ++ way ++ [n]) = some (.file data) ∧ hides p = false ∧
      p = (dir.under way).child n

theorem shownBelow_iff {names : List Text} (hlist : fs.list dir = .ok names) :
    ShownBelow fs hides dir p ↔
      (fs.isSearchableAt dir.names = true ∧
        ∃ n data, fs.get? (dir.names ++ [n]) = some (.file data) ∧ hides p = false ∧
          p = dir.child n) ∨
      ∃ n, fs.isDirectoryAt (dir.names ++ [n]) = true ∧ hides (dir.child n) = false ∧
        ShownBelow fs hides (dir.child n) p := by
  constructor
  · rintro ⟨way, n, data, hopen, hsearch, hget, hshown, hp⟩
    cases way with
    | nil =>
      rw [List.append_nil] at hsearch hget
      rw [Path.under_nil] at hp
      exact .inl ⟨hsearch, n, data, hget, hshown, hp⟩
    | cons m way =>
      obtain ⟨-, hreal, hkept, hopen⟩ := isOpen_cons.1 hopen
      refine .inr ⟨m, hreal, hkept, way, n, data, hopen, ?_, ?_, hshown, ?_⟩
      · simpa using hsearch
      · simpa using hget
      · rw [hp, Path.child_under]
  · rintro (⟨hsearch, n, data, hget, hshown, hp⟩ |
      ⟨m, hreal, hkept, way, n, data, hopen, hsearch, hget, hshown, hp⟩)
    · refine ⟨[], n, data, isOpen_nil.2 ⟨names, hlist⟩, ?_, ?_, hshown, ?_⟩
      · rwa [List.append_nil]
      · rwa [List.append_nil]
      · rwa [Path.under_nil]
    · refine ⟨m :: way, n, data, isOpen_cons.2 ⟨⟨names, hlist⟩, hreal, hkept, hopen⟩, ?_, ?_,
        hshown, ?_⟩
      · simpa using hsearch
      · simpa using hget
      · rw [hp, Path.child_under]

/-- What is at the end of an open way is reached by searching the directory where the way begins. -/
theorem isSearchableAt_of_isOpen (h : fs.Plain) (hdir : dir.IsProper) {way : List Text}
    (hopen : fs.IsOpen hides dir dir.names way)
    (hsearch : fs.isSearchableAt (dir.names ++ way) = true) : fs.isSearchableAt dir.names = true := by
  cases way with
  | nil => rwa [List.append_nil] at hsearch
  | cons m way =>
    obtain ⟨-, hreal, -, hrest⟩ := isOpen_cons.1 hopen
    obtain ⟨data', hget⟩ := isDirectoryAt_iff.1 hreal
    obtain ⟨loc, -, hloc, -⟩ := hrest.start
    obtain ⟨above, -, habove, -, hsearch⟩ :=
      exists_dir_of_locate_child h hdir.isFull (h.names _ _ hget m (by simp)) hloc
    obtain rfl := locate_isProper h hdir habove
    exact hsearch

theorem list_of_itemsOf (h : fs.Plain) (hdir : dir.IsProper) (hitems : itemsOf fs dir = .ok items) :
    fs.list dir = .ok (fs.childNames dir.names) := by
  obtain ⟨names, hlist, -⟩ := itemsOf_ok_iff.1 hitems
  obtain ⟨-, -, rfl⟩ := (list_ok_iff h hdir).1 hlist
  exact hlist

/-- Every entry of a directory was looked at when its items were made. -/
theorem look_of_itemsOf (h : fs.Plain) (hdir : dir.IsProper) (hitems : itemsOf fs dir = .ok items)
    {e : Entry} (hget : fs.get? (dir.names ++ [n]) = some e) :
    fs.look (dir.child n) = .ok (some e) := by
  obtain ⟨names, hlist, hitems⟩ := itemsOf_ok_iff.1 hitems
  obtain ⟨-, -, rfl⟩ := (list_ok_iff h hdir).1 hlist
  obtain ⟨x, -, hx⟩ := exists_of_mapM_ok hitems (mem_childNames.2 ⟨e, hget⟩)
  obtain ⟨found, hlook, -⟩ := bind_ok_iff.1 hx
  rwa [eq_some_of_look h (hdir.child (h.names _ _ hget n (by simp))) hget hlook] at hlook

theorem isSearchableAt_of_itemsOf (h : fs.Plain) (hdir : dir.IsProper)
    (hitems : itemsOf fs dir = .ok items) {e : Entry} (hget : fs.get? (dir.names ++ [n]) = some e) :
    fs.isSearchableAt dir.names = true := by
  have hname := h.names _ _ hget n (by simp)
  obtain ⟨loc, hloc, -⟩ := (look_eq_some_iff (hdir.child hname).isFull).1
    (look_of_itemsOf h hdir hitems hget)
  obtain ⟨above, -, habove, -, hsearch⟩ := exists_dir_of_locate_child h hdir.isFull hname hloc
  obtain rfl := locate_isProper h hdir habove
  exact hsearch

/-- In a directory that can be listed and searched no look is denied. -/
theorem itemsOf_ne_denied (h : fs.Plain) (hdir : dir.IsProper) {names : List Text} {path : Text}
    (hlist : fs.list dir = .ok names) (hsearch : fs.isSearchableAt dir.names = true) :
    itemsOf fs dir ≠ .error (.refused .denied path) := by
  intro hitems
  rcases error_of_itemsOf hitems with herror | ⟨names', hlist', n, hn, hlook⟩
  · cases hlist.symm.trans herror
  obtain ⟨hloc, ⟨data, hget, -⟩, rfl⟩ := (list_ok_iff h hdir).1 hlist'
  obtain ⟨-, cause, hdenied, -, hcause⟩ := look_error_iff.1 hlook
  cases hcause
  rw [locate_child h hdir.isFull (isName_of_mem_childNames h hn) hloc
    (isDirectoryAt_iff.2 ⟨data, hget⟩), hsearch] at hdenied
  split at hdenied
  · cases hdenied
  · rw [if_neg (by simp)] at hdenied
    split at hdenied <;> cases hdenied

/-- Where an open way begins, no look is denied if the directory at its end can be searched. -/
theorem not_denied_of_isOpen (h : fs.Plain) (hdir : dir.IsProper) {way : List Text}
    (hopen : fs.IsOpen hides dir dir.names way)
    (hsearch : fs.isSearchableAt (dir.names ++ way) = true) {path : Text} :
    itemsOf fs dir ≠ .error (.refused .denied path) := by
  obtain ⟨names, hlist⟩ := hopen.listed [] List.nil_prefix
  rw [Path.under_nil] at hlist
  exact itemsOf_ne_denied h hdir hlist (isSearchableAt_of_isOpen h hdir hopen hsearch)

/-- Without links, the items of a directory are its entries. -/
theorem mem_items_iff (h : fs.Plain) (hdir : dir.IsProper) (hitems : itemsOf fs dir = .ok items)
    {found : Option Entry} :
    (n, found) ∈ items ↔ ∃ e, fs.get? (dir.names ++ [n]) = some e ∧ found = some e := by
  rw [mem_itemsOf_iff (list_of_itemsOf h hdir hitems) hitems, mem_childNames]
  constructor
  · rintro ⟨⟨e, hget⟩, hlook⟩
    exact ⟨e, hget, Except.ok.inj (hlook.symm.trans (look_of_itemsOf h hdir hitems hget))⟩
  · rintro ⟨e, hget, rfl⟩
    exact ⟨⟨e, hget⟩, look_of_itemsOf h hdir hitems hget⟩

theorem mem_shownDirs_iff (h : fs.Plain) (hdir : dir.IsProper) {view : View}
    (hitems : itemsOf fs dir = .ok items) :
    n ∈ shownDirs view dir items ↔
      fs.isDirectoryAt (dir.names ++ [n]) = true ∧ view.hides (dir.child n) = false := by
  rw [mem_shownDirs]
  refine and_congr_left fun _ => ?_
  constructor
  · rintro ⟨⟨m, found⟩, hx, rfl, hisDir⟩
    obtain ⟨e, hget, rfl⟩ := (mem_items_iff h hdir hitems).1 hx
    rw [isDirectoryAt, hget]
    exact hisDir
  · intro hreal
    obtain ⟨denied, hget⟩ := isDirectoryAt_iff.1 hreal
    exact ⟨_, (mem_items_iff h hdir hitems).2 ⟨_, hget, rfl⟩, rfl, rfl⟩

theorem mem_openFiles_iff (h : fs.Plain) (hdir : dir.IsProper) {view : View}
    (hitems : itemsOf fs dir = .ok items) :
    n ∈ openFiles view dir items ↔
      (∃ data, fs.get? (dir.names ++ [n]) = some (.file data)) ∧ view.hides (dir.child n) = false := by
  rw [mem_openFiles]
  refine and_congr_left fun _ => ?_
  constructor
  · rintro ⟨⟨m, found⟩, hx, rfl, hisFile⟩
    obtain ⟨e, hget, rfl⟩ := (mem_items_iff h hdir hitems).1 hx
    cases e with
    | file data => exact ⟨data, hget⟩
    | _ => cases hisFile
  · rintro ⟨data, hget⟩
    exact ⟨_, (mem_items_iff h hdir hitems).2 ⟨_, hget, rfl⟩, rfl, rfl⟩

/-- The directories at a path and below it are less deep than a number of levels, and each has at most
a number of entries. -/
structure Fits (fs : FileSystem) (loc : Location) (depth : Nat) (maxFiles : Int) : Prop where
  depth : ∀ way, fs.isDirectoryAt (loc ++ way) = true → way.length < depth
  size : ∀ way, fs.isDirectoryAt (loc ++ way) = true →
    ((fs.childNames (loc ++ way)).length : Int) ≤ maxFiles

theorem Fits.child {loc : Location} (h : Fits fs loc (depth + 1) maxFiles) (n : Text) :
    Fits fs (loc ++ [n]) depth maxFiles where
  depth way hreal := by
    rw [List.append_assoc] at hreal
    exact Nat.lt_of_succ_lt_succ (h.depth ([n] ++ way) hreal)
  size way hreal := by
    rw [List.append_assoc] at hreal ⊢
    exact h.size ([n] ++ way) hreal

/-- A full view for which nothing is too deep or too large shows all files below a directory that are not
hidden. -/
theorem mem_shownFiles_iff (h : fs.Plain) (hdir : dir.IsProper)
    (hreal : fs.isDirectoryAt dir.names = true) (hfits : Fits fs dir.names depth maxFiles)
    (hok : ofDirectory fs (.full hides maxDepth true maxFiles) depth dir name = .ok t) :
    p ∈ t.shownFiles dir ↔ ShownBelow fs hides dir p := by
  induction depth generalizing dir name t with
  | zero => exact absurd (hfits.depth [] (by rwa [List.append_nil])) (Nat.not_lt_zero _)
  | succ depth ih =>
    cases shown_of_ofDirectory hok with
    | denied hitems =>
      have hnone : ¬ShownBelow fs hides dir p := by
        rintro ⟨way, n, data, hopen, hsearch, -⟩
        exact not_denied_of_isOpen h hdir hopen hsearch hitems
      simpa [shownFiles] using hnone
    | @directory _ names items inner hlist hitems hinner =>
      obtain ⟨-, -, rfl⟩ := (list_ok_iff h hdir).1 hlist
      have hfew : ((openFiles (.full hides maxDepth true maxFiles) dir items).length : Int) ≤
          maxFiles := by
        have hlen : items.length = (fs.childNames dir.names).length := by
          obtain ⟨names, hlist', hlooks⟩ := itemsOf_ok_iff.1 hitems
          cases hlist.symm.trans hlist'
          simpa using (congrArg List.length (mapM_ok_iff.1 hlooks)).symm
        have hopen := length_openFiles_le (.full hides maxDepth true maxFiles) dir items
        have := hfits.size [] (by rwa [List.append_nil])
        rw [List.append_nil] at this
        omega
      rw [ofItems_full hfew, shownFiles, mem_shownAmong, shownBelow_iff hlist]
      simp only [List.mem_append, List.mem_map, or_and_right, exists_or]
      rw [or_comm]
      refine or_congr ?_ ?_
      · constructor
        · rintro ⟨-, ⟨n, hn, rfl⟩, hp⟩
          obtain ⟨⟨data, hget⟩, hshown⟩ := (mem_openFiles_iff h hdir hitems).1 hn
          obtain rfl : p = dir.child n := by simpa [shownFiles, Tree.name] using hp
          exact ⟨isSearchableAt_of_itemsOf h hdir hitems hget, n, data, hget, hshown, rfl⟩
        · rintro ⟨-, n, data, hget, hshown, rfl⟩
          exact ⟨_, ⟨n, (mem_openFiles_iff h hdir hitems).2 ⟨⟨data, hget⟩, hshown⟩, rfl⟩,
            by simp [shownFiles, Tree.name]⟩
      · have hchild : ∀ n, fs.isDirectoryAt (dir.names ++ [n]) = true → (dir.child n).IsProper := by
          intro n hreal
          obtain ⟨denied, hget⟩ := isDirectoryAt_iff.1 hreal
          exact hdir.child (h.names _ _ hget n (by simp))
        constructor
        · rintro ⟨u, hu, hp⟩
          obtain ⟨n, hn, hok⟩ := (mem_of_mapM_ok hinner).1 hu
          obtain ⟨hreal, hshown⟩ := (mem_shownDirs_iff h hdir hitems).1 hn
          rw [name_of_ofDirectory hok] at hp
          exact ⟨n, hreal, hshown, (ih (hchild n hreal) hreal (hfits.child n) hok).1 hp⟩
        · rintro ⟨n, hreal, hshown, hp⟩
          have hn : n ∈ shownDirs (.full hides maxDepth true maxFiles) dir items :=
            (mem_shownDirs_iff h hdir hitems).2 ⟨hreal, hshown⟩
          obtain ⟨u, hu, hok⟩ := exists_of_mapM_ok hinner hn
          refine ⟨u, hu, ?_⟩
          rw [name_of_ofDirectory hok]
          exact (ih (hchild n hreal) hreal (hfits.child n) hok).2 hp

/-- A directory with short paths in it has its items, unless it is closed. -/
theorem itemsOf_or_denied (h : fs.Plain) (hdir : dir.IsProper)
    (hreal : fs.isDirectoryAt dir.names = true) (hself : IsShort dir)
    (hshort : ∀ n e, fs.get? (dir.names ++ [n]) = some e → IsShort (dir.child n)) :
    (∃ items, itemsOf fs dir = .ok items) ∨
      ∃ path, itemsOf fs dir = .error (.refused .denied path) := by
  obtain ⟨data, hget⟩ := isDirectoryAt_iff.1 hreal
  by_cases hlist : fs.list dir = .error (.refused .denied dir.toText)
  · exact .inr ⟨dir.toText, by rw [itemsOf, hlist]; rfl⟩
  · have hlisted : fs.list dir = .ok (fs.childNames dir.names) := by
      rcases hself.locate_or_denied h hdir hget .entry with hloc | hloc
      · cases hopen : data.listable with
        | true => exact (list_ok_iff h hdir).2 ⟨hloc, ⟨data, hget, hopen⟩, rfl⟩
        | false =>
          refine absurd ?_ hlist
          simp [list, answer, hdir.isFull.null, hloc, bind, Except.bind, hget, hopen, throw, throwThe,
            MonadExceptOf.throw]
      · refine absurd ?_ hlist
        simp [list, answer, hdir.isFull.null, hloc, bind, Except.bind]
    rw [itemsOf, hlisted]
    cases hitems : (fs.childNames dir.names).mapM fun name =>
        (do return (name, ← fs.look (dir.child name)) : Except Failure Item) with
    | ok items => exact .inl ⟨items, hitems⟩
    | error failure =>
      obtain ⟨n, hn, hfailure⟩ := exists_of_mapM_error hitems
      obtain ⟨e, hchild⟩ := mem_childNames.1 hn
      have hproper := hdir.child (isName_of_mem_childNames h hn)
      cases hlook : fs.look (dir.child n) with
      | ok found =>
        rw [hlook] at hfailure
        cases hfailure
      | error refusal =>
        rw [hlook] at hfailure
        cases hfailure
        obtain ⟨-, cause, hloc, -, rfl⟩ := look_error_iff.1 hlook
        rcases (hshort n e hchild).locate_or_denied h hproper hchild .entry with hok | hdenied
        · rw [hok] at hloc
          cases hloc
        · rw [hdenied] at hloc
          cases hloc
          exact .inr ⟨_, hitems⟩

/-- A tree is drawn of every directory below which no path is too long. -/
theorem exists_ofDirectory (h : fs.Plain) (hdir : dir.IsProper)
    (hreal : fs.isDirectoryAt dir.names = true)
    (hshort : ∀ way e, fs.get? (dir.names ++ way) = some e → IsShort (dir.under way))
    (view : View) (name : Text) : ∃ t, ofDirectory fs view depth dir name = .ok t := by
  induction depth generalizing dir name with
  | zero => exact ⟨_, rfl⟩
  | succ depth ih =>
    have hself : IsShort dir := by
      obtain ⟨data, hget⟩ := isDirectoryAt_iff.1 hreal
      have := hshort [] _ (by rwa [List.append_nil])
      rwa [Path.under_nil] at this
    rw [ofDirectory_succ]
    rcases itemsOf_or_denied h hdir hreal hself fun n => hshort [n] with
      ⟨items, hitems⟩ | ⟨path, hdenied⟩
    · have hinner : ∀ n ∈ shownDirs view dir items,
          ∃ t, ofDirectory fs view depth (dir.child n) n = .ok t := by
        intro n hn
        obtain ⟨hreal, -⟩ := (mem_shownDirs_iff h hdir hitems).1 hn
        obtain ⟨data, hchild⟩ := isDirectoryAt_iff.1 hreal
        refine ih (hdir.child (h.names _ _ hchild n (by simp))) hreal (fun way e hget => ?_) n
        rw [Path.child_under]
        exact hshort (n :: way) e (by simpa using hget)
      obtain ⟨inner, hinner⟩ := exists_mapM_ok hinner
      rw [hitems]
      exact ⟨_, bind_ok_iff.2 ⟨inner, hinner, rfl⟩⟩
    · rw [hdenied]
      exact ⟨_, rfl⟩

/-- Every path that is looked at for a tree is short, if there is a tree. -/
theorem isShort_of_ofDirectory (h : fs.Plain) (hdir : dir.IsProper) {view : View} {way : List Text}
    {e : Entry} (hdepth : way.length < depth) (hok : ofDirectory fs view depth dir name = .ok t)
    (hopen : fs.IsOpen view.hides dir dir.names way)
    (hsearch : fs.isSearchableAt (dir.names ++ way) = true)
    (hget : fs.get? (dir.names ++ way ++ [n]) = some e) : IsShort ((dir.under way).child n) := by
  induction way generalizing dir depth name t with
  | nil =>
    cases shown_of_ofDirectory hok with
    | cutOff => cases hdepth
    | denied hitems => exact absurd hitems (not_denied_of_isOpen h hdir hopen hsearch)
    | directory _ hitems _ =>
      rw [List.append_nil] at hget
      have hproper := hdir.child (h.names _ _ hget n (by simp))
      obtain ⟨loc, hloc, -⟩ :=
        (look_eq_some_iff hproper.isFull).1 (look_of_itemsOf h hdir hitems hget)
      rw [Path.under_nil]
      exact isShort_of_locate h hproper hloc
  | cons m way ih =>
    cases shown_of_ofDirectory hok with
    | cutOff => cases hdepth
    | denied hitems => exact absurd hitems (not_denied_of_isOpen h hdir hopen hsearch)
    | directory _ hitems hinner =>
      obtain ⟨-, hreal, hkept, hrest⟩ := isOpen_cons.1 hopen
      obtain ⟨data, hchild⟩ := isDirectoryAt_iff.1 hreal
      obtain ⟨u, -, hu⟩ :=
        exists_of_mapM_ok hinner ((mem_shownDirs_iff h hdir hitems).2 ⟨hreal, hkept⟩)
      rw [← Path.child_under]
      refine ih (hdir.child (h.names _ _ hchild m (by simp))) (Nat.lt_of_succ_lt_succ hdepth) hu hrest
        ?_ ?_
      · simpa using hsearch
      · simpa using hget

theorem ofPath_eq (h : fs.Plain) (hdir : dir.IsProper) (view : View) :
    ofPath fs view dir = ofDirectory fs view view.maxDepth dir dir.name := by
  rw [ofPath, resolve_of_isProper h hdir]
  rfl

/-- A file that can be looked at: it is one, and its directory can be searched. -/
def IsSeen (fs : FileSystem) (p : Path) : Prop :=
  (∃ data, fs.get? p.names = some (.file data)) ∧ fs.isSearchableAt p.names.dropLast = true

theorem shownBelow_iff_isListed (h : fs.Plain) {registry : Registry} {rules : IgnoreRules}
    {root : Path} (hroot : root.IsProper) :
    ShownBelow fs rules.ignores root p ∧ (registry.languageOf? p).isSome ↔
      (∃ loc way n, fs.locate .entry root = .ok loc ∧
        Catalogue.IsListed fs registry rules root loc way n ∧ p = (root.under way).child n) ∧
      IsSeen fs p := by
  have hnames : ∀ way n, ((root.under way).child n).names = root.names ++ way ++ [n] := fun _ _ => rfl
  constructor
  · rintro ⟨⟨way, n, data, hopen, hsearch, hget, hshown, rfl⟩, hlanguage⟩
    obtain ⟨loc, -, hloc, -⟩ := hopen.start
    obtain rfl := locate_isProper h hroot hloc
    refine ⟨⟨_, way, n, hloc, ⟨hopen, ⟨_, hget, rfl, nofun⟩, hshown,
      Catalogue.languageOf?_isSome_iff.1 hlanguage⟩, rfl⟩, ⟨data, hget⟩, ?_⟩
    rwa [hnames, List.dropLast_concat]
  · rintro ⟨⟨loc, way, n, hloc, ⟨hopen, -, hkept, hlanguage⟩, rfl⟩, ⟨data, hget⟩, hsearch⟩
    obtain rfl := locate_isProper h hroot hloc
    rw [hnames, List.dropLast_concat] at hsearch
    exact ⟨⟨way, n, data, hopen, hsearch, hget, hkept, rfl⟩,
      Catalogue.languageOf?_isSome_iff.2 hlanguage⟩

/-- On a file system without links, a full view for which no directory is too deep or too large shows of
the files that have a language those of the catalogue that can be looked at, whatever is ignored or
cannot be listed. The tree is drawn if no path in it is too long, and only if none is that it comes to. -/
theorem shown_iff_collected (h : fs.Plain) {root : Path} (hroot : root.IsProper)
    (hreal : fs.isDirectoryAt root.names = true) (registry : Registry) (rules : IgnoreRules)
    (hdepth : ∀ way, fs.isDirectoryAt (root.names ++ way) = true → (way.length : Int) < maxDepth)
    (hsize : ∀ way, fs.isDirectoryAt (root.names ++ way) = true →
      ((fs.childNames (root.names ++ way)).length : Int) ≤ maxFiles) :
    ((∀ way e, fs.get? (root.names ++ way) = some e → IsShort (root.under way)) →
      ∃ t, ofPath fs (.full rules.ignores maxDepth true maxFiles) root = .ok t) ∧
    ∀ t, ofPath fs (.full rules.ignores maxDepth true maxFiles) root = .ok t →
      (∀ p, p ∈ t.shownFiles root ∧ (registry.languageOf? p).isSome ↔
        (∃ x ∈ Catalogue.collect fs registry rules root, p ∈ x.2) ∧ IsSeen fs p) ∧
      ∀ way n e, fs.IsOpen rules.ignores root root.names way →
        fs.isSearchableAt (root.names ++ way) = true →
        fs.get? (root.names ++ way ++ [n]) = some e → IsShort ((root.under way).child n) := by
  rw [ofPath_eq h hroot]
  have hfits : Fits fs root.names maxDepth.toNat maxFiles :=
    ⟨fun way hway => by have := hdepth way hway; omega, hsize⟩
  refine ⟨fun hshort => exists_ofDirectory h hroot hreal hshort _ _, fun t hok =>
    ⟨fun p => ?_, fun way n e hopen hsearch hget => ?_⟩⟩
  · rw [mem_shownFiles_iff h hroot hreal hfits hok, shownBelow_iff_isListed h hroot]
    refine and_congr_left fun _ => ?_
    constructor
    · rintro ⟨loc, way, n, hloc, hlisted, hp⟩
      obtain ⟨files, hfiles, hmem⟩ := (Catalogue.exists_mem_collect_iff h.named).2
        ⟨loc, way, n, hloc, hlisted, rfl, hp⟩
      exact ⟨_, hfiles, hmem⟩
    · rintro ⟨⟨key, files⟩, hx, hp⟩
      obtain ⟨loc, way, n, hloc, hlisted, -, hp⟩ :=
        (Catalogue.exists_mem_collect_iff h.named).1 ⟨files, hx, hp⟩
      exact ⟨loc, way, n, hloc, hlisted, hp⟩
  · exact isShort_of_ofDirectory h hroot (hfits.depth way (h.above _ n e hget)) hok hopen hsearch hget

/-- A project with a directory that cannot be listed, one that cannot be searched, one to be ignored and
one to be shown, and with a socket. -/
def guardedProject : FileSystem :=
  (((((((((((FileSystem.empty .standard []).put ["p".toList] .openDir).put
    ["p".toList, "a.py".toList] (.file ⟨[], .finite false 1 0, false⟩)).put
    ["p".toList, "dark".toList] (.directory { Host.standard.newDir with searchable := false })).put
    ["p".toList, "dark".toList, "z.py".toList] (.file ⟨[], .finite false 1 0, false⟩)).put
    ["p".toList, "old".toList] .openDir).put
    ["p".toList, "old".toList, "y.py".toList] (.file ⟨[], .finite false 1 0, false⟩)).put
    ["p".toList, "shut".toList] .shutDir).put
    ["p".toList, "shut".toList, "x.py".toList] (.file ⟨[], .finite false 1 0, false⟩)).put
    ["p".toList, "socket.py".toList] (.special (.finite false 1 0) 0)).put
    ["p".toList, "sub".toList] .openDir).put
    ["p".toList, "sub".toList, "B.PY".toList] (.file ⟨[], .finite false 1 0, false⟩)

def guardedRoot : Path := ⟨.root, ["p".toList]⟩

def guardedRules : IgnoreRules := ⟨guardedRoot, ["old".toList]⟩

/-- The file in the directory to be shown is in the tree, and the file in the shut directory is not. -/
theorem guardedProject_shown :
    ∃ t, ofPath guardedProject (.full guardedRules.ignores 3 true 20) guardedRoot = .ok t ∧
      ⟨.root, ["p".toList, "sub".toList, "B.PY".toList]⟩ ∈ t.shownFiles guardedRoot ∧
      ⟨.root, ["p".toList, "shut".toList, "x.py".toList]⟩ ∉ t.shownFiles guardedRoot := by
  have hplain : guardedProject.Plain := by decide +kernel
  have hroot : guardedRoot.IsProper := ⟨rfl, by decide⟩
  have hmem : ∀ way e, guardedProject.get? (guardedRoot.names ++ way) = some e →
      (guardedRoot.names ++ way, e) ∈ guardedProject.entries := fun way e =>
    (get?_eq_some_iff (List.append_ne_nil_of_left_ne_nil (by decide) way)).1
  have hdepth : ∀ x ∈ guardedProject.entries, x.1.length < 4 := by decide +kernel
  have hsize : ∀ x ∈ guardedProject.entries, (guardedProject.childNames x.1).length ≤ 20 := by
    decide +kernel
  have hshort : ∀ x ∈ guardedProject.entries, IsShort ⟨.root, x.1⟩ := by decide +kernel
  have hdepth' : ∀ way, guardedProject.isDirectoryAt (guardedRoot.names ++ way) = true →
      (way.length : Int) < 3 := by
    intro way hway
    obtain ⟨data, hget⟩ := isDirectoryAt_iff.1 hway
    have hlen := hdepth _ (hmem way _ hget)
    rw [List.length_append, show guardedRoot.names.length = 1 from rfl] at hlen
    omega
  have hsize' : ∀ way, guardedProject.isDirectoryAt (guardedRoot.names ++ way) = true →
      ((guardedProject.childNames (guardedRoot.names ++ way)).length : Int) ≤ 20 := by
    intro way hway
    obtain ⟨data, hget⟩ := isDirectoryAt_iff.1 hway
    exact Int.ofNat_le.2 (hsize _ (hmem way _ hget))
  obtain ⟨hdraws, hagrees⟩ := shown_iff_collected hplain hroot (by decide +kernel) .standard
    guardedRules hdepth' hsize'
  obtain ⟨t, ht⟩ := hdraws fun way e hget => hshort _ (hmem way e hget)
  refine ⟨t, ht, (((hagrees t ht).1 _).2 ⟨by decide +kernel, ⟨⟨_, rfl⟩, by decide +kernel⟩⟩).1,
    fun hx => ?_⟩
  exact absurd (((hagrees t ht).1 _).1 ⟨hx, by decide +kernel⟩).1 (by decide +kernel)

/-- A name as long as names may be. -/
def deepName : Text := List.replicate 255 'd'

/-- Directories inside each other down to the given depth. -/
def deepDirs : Nat → FileSystem
  | 0 => .empty .standard []
  | depth + 1 => (deepDirs depth).put (List.replicate depth deepName ++ [deepName]) .openDir

structure IsDeep (fs : FileSystem) (depth : Nat) : Prop where
  plain : fs.Plain
  allOpen : fs.AllOpen
  deepest : fs.get? (List.replicate depth deepName) = some .openDir
  depth_le : ∀ loc e, fs.get? loc = some e → loc.length ≤ depth

theorem isDeep_deepDirs (depth : Nat) : IsDeep (deepDirs depth) depth := by
  induction depth with
  | zero =>
    have hroot : ∀ {loc e}, (deepDirs 0).get? loc = some e → loc = [] := by
      intro loc e hget
      by_contra hloc
      cases (get?_eq_some_iff hloc).1 hget
    refine ⟨by decide +kernel, fun loc e hget => ?_, rfl, fun loc e hget => ?_⟩
    · obtain rfl := hroot hget
      cases hget
      exact ⟨rfl, rfl⟩
    · rw [hroot hget]
      exact Nat.le_refl 0
  | succ depth ih =>
    have hlength : (List.replicate depth deepName ++ [deepName]).length = depth + 1 := by simp
    have hne : List.replicate depth deepName ++ [deepName] ≠ [] := by simp
    have hfree : (deepDirs depth).isDirectoryAt (List.replicate depth deepName ++ [deepName]) =
        false := by
      refine Bool.eq_false_iff.2 fun hdir => ?_
      obtain ⟨data, hget⟩ := isDirectoryAt_iff.1 hdir
      have := ih.depth_le _ _ hget
      omega
    refine ⟨ih.plain.put (by decide) (isDirectoryAt_iff.2 ⟨_, ih.deepest⟩) hfree nofun,
      ih.allOpen.put hne ⟨rfl, rfl⟩, ?_, fun loc e hget => ?_⟩
    · rw [List.replicate_succ', deepDirs, get?_put _ hne, if_pos rfl]
    · rw [deepDirs, get?_put _ hne] at hget
      split at hget
      · next heq => exact heq ▸ Nat.le_of_eq hlength
      · exact Nat.le_succ_of_le (ih.depth_le loc e hget)

/-- A directory so deep that a file in it has a path which is too long. -/
def deepRoot : Path := ⟨.root, List.replicate 15 deepName⟩

def farName : Text := List.replicate 252 'b' ++ ".py".toList

def deepProject : FileSystem :=
  (deepDirs 15).put (deepRoot.names ++ [farName]) (.file ⟨[], .finite false 1 0, false⟩)

def deepRules : IgnoreRules := ⟨deepRoot, []⟩

theorem plain_deepProject : deepProject.Plain := by
  have hdeep := isDeep_deepDirs 15
  refine hdeep.plain.put (by decide) (isDirectoryAt_iff.2 ⟨_, hdeep.deepest⟩) ?_ nofun
  refine Bool.eq_false_iff.2 fun hdir => ?_
  obtain ⟨data, hget⟩ := isDirectoryAt_iff.1 hdir
  exact absurd (hdeep.depth_le _ _ hget) (by simp [deepRoot])

theorem get?_deepProject : deepProject.get? deepRoot.names = some .openDir ∧
    deepProject.get? (deepRoot.names ++ [farName]) = some (.file ⟨[], .finite false 1 0, false⟩) := by
  have hne : deepRoot.names ++ [farName] ≠ [] := by simp
  rw [deepProject, get?_put _ hne, get?_put _ hne, if_pos rfl, if_neg (by simp)]
  exact ⟨(isDeep_deepDirs 15).deepest, rfl⟩

theorem isOpen_deepRoot (hides : Path → Bool) :
    deepProject.IsOpen hides deepRoot deepRoot.names [] := by
  have hroot : deepRoot.IsProper := ⟨rfl, by decide⟩
  have hopen : deepProject.AllOpen := (isDeep_deepDirs 15).allOpen.put (by simp) ⟨rfl, rfl⟩
  have hshort : IsShort deepRoot := by decide +kernel
  have hloc := hshort.locate plain_deepProject hroot (hopen.openWay _) get?_deepProject.1 .entry
  exact isOpen_nil.2 ⟨_, (list_ok_iff plain_deepProject hroot).2
    ⟨hloc, ⟨_, get?_deepProject.1, rfl⟩, rfl⟩⟩

/-- Files are listed that no tree shows: one in a directory that cannot be searched, a socket, and one
with a path that is too long, where there is no tree. -/
theorem unseen_files_disagree :
    (∃ t, ofPath guardedProject (.full guardedRules.ignores 3 true 20) guardedRoot = .ok t ∧
      ∀ p ∈ [⟨.root, ["p".toList, "dark".toList, "z.py".toList]⟩,
          (⟨.root, ["p".toList, "socket.py".toList]⟩ : Path)],
        (∃ x ∈ Catalogue.collect guardedProject .standard guardedRules guardedRoot, p ∈ x.2) ∧
          p ∉ t.shownFiles guardedRoot) ∧
    (∃ x ∈ Catalogue.collect deepProject .standard deepRules deepRoot,
      deepRoot.child farName ∈ x.2) ∧
    ∀ t, ofPath deepProject (.full deepRules.ignores 1 true 1) deepRoot ≠ .ok t := by
  have hroot : deepRoot.IsProper := ⟨rfl, by decide⟩
  refine ⟨?_, ?_, fun t ht => ?_⟩
  · obtain ⟨t, ht⟩ : ∃ t, ofPath guardedProject (.full guardedRules.ignores 3 true 20) guardedRoot =
        .ok t := exists_ok_of_isSome (by decide +kernel)
    have hshown : (ofPath guardedProject (.full guardedRules.ignores 3 true 20) guardedRoot).toOption.map
        (shownFiles guardedRoot) = some [⟨.root, ["p".toList, "sub".toList, "B.PY".toList]⟩,
          ⟨.root, ["p".toList, "a.py".toList]⟩] := by decide +kernel
    rw [ht] at hshown
    refine ⟨t, ht, ?_⟩
    rw [Option.some.inj hshown]
    decide +kernel
  · obtain ⟨loc, -, hloc, -⟩ := (isOpen_deepRoot deepRules.ignores).start
    obtain rfl := locate_isProper plain_deepProject hroot hloc
    have hlisted : Catalogue.IsListed deepProject .standard deepRules deepRoot deepRoot.names []
        farName :=
      ⟨isOpen_deepRoot _, ⟨_, get?_deepProject.2, rfl, nofun⟩, rfl, by decide +kernel⟩
    obtain ⟨files, hfiles, hmem⟩ := (Catalogue.exists_mem_collect_iff plain_deepProject.named).2
      ⟨_, [], farName, hloc, hlisted, rfl, rfl⟩
    exact ⟨_, hfiles, hmem⟩
  · rw [ofPath_eq plain_deepProject hroot] at ht
    have hsearch : deepProject.isSearchableAt (deepRoot.names ++ []) = true := by
      rw [List.append_nil, isSearchableAt, get?_deepProject.1]
      rfl
    have hshort := isShort_of_ofDirectory plain_deepProject hroot (by decide) ht
      (isOpen_deepRoot deepRules.ignores) hsearch get?_deepProject.2
    exact absurd hshort (by decide +kernel)

end Tree

end CodeIndex
