import CodeIndex.Catalogue
import CodeIndex.Proofs.FileSystem.Child
import CodeIndex.Proofs.FileSystem.Query

/-!
# What a catalogue lists

A walk visits every directory at most once, so no file and no key is listed twice. A listed file is an
entry of the file system below the root, in the directory that its key names.
-/

namespace CodeIndex

namespace FileSystem

variable {fs : FileSystem} {skips : Path → Bool} {levels : Nat} {dir : Path} {v : Visit} {n : Text}
  {loc : Location} {data : DirData} {way above : List Text}

/-- The directories in a directory that a walk goes into. -/
def entered (fs : FileSystem) (skips : Path → Bool) (dir : Path) (names : List Text) : List Text :=
  (names.filter (fs.holdsDir dir)).filter fun n =>
    !skips (dir.child n) && !fs.isLink (dir.child n)

theorem walk_succ (fs : FileSystem) (skips : Path → Bool) (levels : Nat) (dir : Path) :
    fs.walk skips (levels + 1) dir = match fs.list dir with
      | .error _ => []
      | .ok names => ⟨dir, names.filter fun n => !fs.holdsDir dir n⟩ ::
          (fs.entered skips dir names).flatMap fun n => fs.walk skips levels (dir.child n) := rfl

/-- What a walk visits: the directory that it starts in, and what the walks visit that go on from there. -/
theorem mem_walk_succ : v ∈ fs.walk skips (levels + 1) dir ↔ ∃ names, fs.list dir = .ok names ∧
    (v = ⟨dir, names.filter fun n => !fs.holdsDir dir n⟩ ∨
      ∃ n ∈ fs.entered skips dir names, v ∈ fs.walk skips levels (dir.child n)) := by
  rw [walk_succ]
  cases fs.list dir with
  | error failure => simp
  | ok names => simp

theorem mem_entered {names : List Text} (hn : n ∈ fs.entered skips dir names) : n ∈ names :=
  (List.mem_filter.1 (List.mem_filter.1 hn).1).1

/-- Without links it is the entry under a name that tells whether it is that of a directory. -/
theorem holdsDir_eq (h : fs.Plain) (hloc : fs.locate .entry dir = .ok dir.names) (n : Text) :
    fs.holdsDir dir n = fs.isDirectoryAt (dir.names ++ [n]) := by
  unfold holdsDir isDirectoryAt
  rw [hloc]
  cases hget : fs.get? (dir.names ++ [n]) with
  | none => simp [hget]
  | some e =>
    cases e with
    | link target => exact absurd hget (h.links _ _)
    | _ => simp [hget, Entry.isDirectory]

/-- What is a directory by its path is one by its entry. The converse fails for paths that are too
long. -/
theorem holdsDir_of_isDir (h : fs.Plain) (hdir : dir.IsProper) (hn : Path.IsName n)
    (hd : fs.isDir (dir.child n) = true) : fs.holdsDir dir n = true := by
  obtain ⟨-, loc, data, hloc, hget⟩ := isDir_iff.1 hd
  obtain ⟨above, rfl, habove, -⟩ := exists_dir_of_locate_child h hdir.isFull hn hloc
  obtain rfl := locate_isProper h hdir habove
  rw [holdsDir_eq h habove]
  exact isDirectoryAt_iff.2 ⟨data, hget⟩

theorem holdsDir_congr {fs' : FileSystem} (h : fs.Plain) (h' : fs'.Plain) (hdir : dir.IsProper)
    (hag : AgreeAlong fs fs' (dir.names ++ [n])) : fs.holdsDir dir n = fs'.holdsDir dir n := by
  have habove : AgreeAlong fs fs' dir.names := fun above hpre =>
    hag above (hpre.trans (List.prefix_append _ _))
  unfold holdsDir
  rw [locate_congr h h' hdir habove]
  cases hloc : fs'.locate .entry dir with
  | error err => rfl
  | ok loc =>
    obtain rfl := locate_isProper h' hdir hloc
    simp only [hag.here]
    cases hget : fs'.get? (dir.names ++ [n]) with
    | none => rfl
    | some e =>
      cases e with
      | link target => exact absurd hget (h'.links _ _)
      | _ => rfl

/-- What a visit says of the file system: its directory lies below the start, and its files are entries
that are no directories. -/
structure Visited (fs : FileSystem) (dir : Path) (v : Visit) : Prop where
  isProper : v.dir.IsProper
  below : dir.names <+: v.dir.names
  listed : ∃ data, fs.get? v.dir.names = some (.directory data) ∧ data.listable = true
  nodup : v.files.Nodup
  files : ∀ n ∈ v.files, n ∈ fs.childNames v.dir.names ∧ fs.isDir (v.dir.child n) = false

theorem visited_of_mem_walk (h : fs.Plain) (hdir : dir.IsProper) (hv : v ∈ fs.walk skips levels dir) :
    fs.Visited dir v := by
  induction levels generalizing dir with
  | zero => cases hv
  | succ levels ih =>
    obtain ⟨names, hlist, hv⟩ := mem_walk_succ.1 hv
    obtain ⟨-, hget, rfl⟩ := (list_ok_iff h hdir).1 hlist
    rcases hv with rfl | ⟨n, hn, hv⟩
    · refine ⟨hdir, List.prefix_refl _, hget, (TextOrder.nodup_sort _ _).filter _, fun n hn => ?_⟩
      obtain ⟨hmem, hfile⟩ := List.mem_filter.1 hn
      refine ⟨hmem, Bool.eq_false_iff.2 fun hd => ?_⟩
      simp [holdsDir_of_isDir h hdir (isName_of_mem_childNames h hmem) hd] at hfile
    · have hchild := isName_of_mem_childNames h (mem_entered hn)
      have hsub := ih (hdir.child hchild) hv
      exact { hsub with below := (List.prefix_append _ _).trans hsub.below }

/-- The order in which a walk from the directory at a location comes to the directories below it: to
each before those in it, and to those in one directory as it lists them, each with all that is below
it. -/
inductive Precedes (fs : FileSystem) : Location → List Text → List Text → Prop where
  | inside {loc : Location} {n : Text} {way : List Text} : Precedes fs loc [] (n :: way)
  | beside {loc : Location} {n m : Text} {way way' : List Text}
      (listed : [n, m].Sublist (fs.childNames loc)) : Precedes fs loc (n :: way) (m :: way')
  | within {loc : Location} {n : Text} {way way' : List Text}
      (next : Precedes fs (loc ++ [n]) way way') : Precedes fs loc (n :: way) (n :: way')

theorem nodup_childNames (fs : FileSystem) (loc : Location) : (fs.childNames loc).Nodup :=
  TextOrder.nodup_sort _ _

theorem Precedes.ne {way' : List Text} (h : fs.Precedes loc way way') : way ≠ way' := by
  induction h with
  | inside => exact nofun
  | @beside loc n m way way' listed =>
    intro heq
    obtain ⟨rfl, -⟩ := List.cons.inj heq
    exact absurd (listed.nodup (fs.nodup_childNames loc)) (by simp)
  | within _ ih => exact fun heq => ih (List.cons.inj heq).2

theorem below_of_mem_walk (h : fs.Named) (hv : v ∈ fs.walk skips levels dir) :
    ∃ way, v.dir = dir.under way ∧ ∀ n ∈ way, Path.IsName n := by
  induction levels generalizing dir with
  | zero => cases hv
  | succ levels ih =>
    obtain ⟨names, hlist, hv⟩ := mem_walk_succ.1 hv
    obtain ⟨-, loc, -, -, rfl⟩ := list_ok_iff_locate.1 hlist
    rcases hv with rfl | ⟨n, hn, hv⟩
    · exact ⟨[], (Path.under_nil dir).symm, nofun⟩
    · obtain ⟨way, hway, hnames⟩ := ih hv
      refine ⟨n :: way, by rw [hway, Path.child_under], fun m hm => ?_⟩
      rcases List.mem_cons.1 hm with rfl | hm
      · exact h.isName_of_mem_childNames (mem_entered hn)
      · exact hnames m hm

theorem mem_entered_iff (h : fs.Named) (hloc : fs.locate .entry dir = .ok loc)
    (hdir : fs.get? loc = some (.directory data)) :
    n ∈ fs.entered skips dir (fs.childNames loc) ↔
      fs.isDirectoryAt (loc ++ [n]) = true ∧ skips (dir.child n) = false := by
  simp only [entered, List.mem_filter, Bool.and_eq_true, Bool.not_eq_true', holdsDir, hloc]
  constructor
  · rintro ⟨⟨hn, hholds⟩, hkept, hlink⟩
    refine ⟨?_, hkept⟩
    split at hholds
    · next data' hget => exact isDirectoryAt_iff.2 ⟨data', hget⟩
    · next target hget =>
      -- a link to a directory is seen as a link
      obtain ⟨-, loc', -, hloc', -⟩ := isDir_iff.1 hholds
      have hname := locate_name_of_entry (h.isName_of_mem_childNames hn) hloc hdir hloc'
      simp [isLink, hname, hget, Entry.isLink] at hlink
    · cases hholds
  · rintro ⟨hreal, hkept⟩
    obtain ⟨data', hget⟩ := isDirectoryAt_iff.1 hreal
    have hn : n ∈ fs.childNames loc := mem_childNames.2 ⟨_, hget⟩
    refine ⟨⟨hn, by simp [hget]⟩, hkept, ?_⟩
    unfold isLink
    cases hname : fs.locate .name (dir.child n) with
    | error err => rfl
    | ok loc' =>
      obtain rfl := eq_of_locate_child (h.isName_of_mem_childNames hn) hloc hdir hname (by decide)
        (.inl rfl)
      simp [hget, Entry.isLink]

/-- A directory in a directory is located where it stands, if it can be. -/
theorem eq_of_locate_real (h : fs.Named) (hloc : fs.locate .entry dir = .ok loc)
    (hdir : fs.get? loc = some (.directory data)) (hreal : fs.isDirectoryAt (loc ++ [n]) = true) :
    ∀ loc', fs.locate .entry (dir.child n) = .ok loc' → loc' = loc ++ [n] := by
  intro loc' hloc'
  obtain ⟨data', hget⟩ := isDirectoryAt_iff.1 hreal
  exact eq_of_locate_child (h _ _ hget n (by simp)) hloc hdir hloc' nofun
    (.inr fun target => by simp [hget])

/-- A walk is in pre-order. Where the start is located is asked only if it can be. -/
theorem pairwise_walk (h : fs.Named) (hloc : ∀ loc', fs.locate .entry dir = .ok loc' → loc' = loc) :
    (fs.walk skips levels dir).Pairwise fun v w =>
      ∃ way way', v.dir = dir.under way ∧ w.dir = dir.under way' ∧ fs.Precedes loc way way' := by
  induction levels generalizing dir loc with
  | zero => exact List.Pairwise.nil
  | succ levels ih =>
    rw [walk_succ]
    cases hlist : fs.list dir with
    | error failure => exact List.Pairwise.nil
    | ok names =>
      obtain ⟨-, loc', hloc', ⟨data, hdir, -⟩, rfl⟩ := list_ok_iff_locate.1 hlist
      obtain rfl := hloc loc' hloc'
      have hbelow : ∀ n, ∀ v ∈ fs.walk skips levels (dir.child n),
          ∃ way, v.dir = dir.under (n :: way) := by
        intro n v hv
        obtain ⟨way, hway, -⟩ := below_of_mem_walk h hv
        exact ⟨way, by rw [hway, Path.child_under]⟩
      refine List.pairwise_cons.2 ⟨fun w hw => ?_, List.pairwise_flatMap.2 ⟨fun n hn => ?_, ?_⟩⟩
      · obtain ⟨n, -, hw⟩ := List.mem_flatMap.1 hw
        obtain ⟨way, hway⟩ := hbelow n w hw
        exact ⟨[], n :: way, (Path.under_nil dir).symm, hway, .inside⟩
      · -- an entered directory stands under its name, so its walk starts one level below
        obtain ⟨hreal, -⟩ := (mem_entered_iff h hloc' hdir).1 hn
        refine (ih (eq_of_locate_real h hloc' hdir hreal)).imp ?_
        rintro v w ⟨way, way', hv, hw, hprec⟩
        rw [Path.child_under] at hv hw
        exact ⟨n :: way, n :: way', hv, hw, .within hprec⟩
      · have hsub : (fs.entered skips dir (fs.childNames loc')).Sublist (fs.childNames loc') :=
          List.filter_sublist.trans List.filter_sublist
        refine List.pairwise_iff_forall_sublist.2 fun {n m} hpair v hv w hw => ?_
        obtain ⟨way, hway⟩ := hbelow n v hv
        obtain ⟨way', hway'⟩ := hbelow m w hw
        exact ⟨n :: way, m :: way', hway, hway', .beside (hpair.trans hsub)⟩

theorem pairwise_walk_ne (h : fs.Named) :
    (fs.walk skips levels dir).Pairwise fun v w => v.dir ≠ w.dir := by
  have hloc : ∀ loc', fs.locate .entry dir = .ok loc' →
      loc' = (fs.locate .entry dir).toOption.getD [] := fun loc' heq => by rw [heq]; rfl
  refine (pairwise_walk h hloc).imp ?_
  rintro v w ⟨way, way', hv, hw, hprec⟩ heq
  exact hprec.ne (Path.under_injective (hv.symm.trans (heq.trans hw)))

/-- A walk visits every directory at most once. -/
theorem nodup_walk (h : fs.Named) : ((fs.walk skips levels dir).map Visit.dir).Nodup :=
  List.pairwise_map.2 (pairwise_walk_ne h)

end FileSystem

namespace Catalogue

variable {fs : FileSystem} {registry : Registry} {rules : IgnoreRules} {root dir p : Path}
  {x y : Text × List Path} {v : Visit}

theorem mem_collect_iff :
    x ∈ collect fs registry rules root ↔
      x.2 ≠ [] ∧ ∃ v ∈ fs.walk rules.ignores (fs.depth + 1) root,
        x = (directoryKey root v.dir, filesOf registry rules v) := by
  simp only [collect, List.mem_filter, List.mem_map, Bool.not_eq_true', List.isEmpty_eq_false_iff]
  constructor
  · rintro ⟨⟨v, hv, rfl⟩, hne⟩
    exact ⟨hne, v, hv, rfl⟩
  · rintro ⟨hne, v, hv, rfl⟩
    exact ⟨⟨v, hv, rfl⟩, hne⟩

/-- What is said of a listed file: it is an entry below the root that has a language and is no
directory. -/
structure Listed (fs : FileSystem) (registry : Registry) (root p : Path) : Prop where
  isProper : p.IsProper
  below : root.names <+: p.names
  entry : ∃ e, fs.get? p.names = some e
  language : (registry.languageOf? p).isSome
  notDir : fs.isDir p = false

theorem Listed.isDirectory {e : Entry} (h : Listed fs registry root p)
    (hlook : fs.look p = .ok (some e)) : e.isDirectory = false :=
  (FileSystem.isDir_of_look hlook).symm.trans h.notDir

theorem listed_of_mem_filesOf (h : fs.Plain) (hv : fs.Visited root v)
    (hp : p ∈ filesOf registry rules v) :
    Listed fs registry root p ∧ p.parent = v.dir ∧ rules.ignores p = false := by
  obtain ⟨hmem, hkept⟩ := List.mem_filter.1 hp
  obtain ⟨n, hn, rfl⟩ := List.mem_map.1 hmem
  simp only [Bool.and_eq_true, Bool.not_eq_true'] at hkept
  obtain ⟨hchild, hnotDir⟩ := hv.files n hn
  refine ⟨⟨hv.isProper.child (FileSystem.isName_of_mem_childNames h hchild),
    hv.below.trans (List.prefix_append _ _), FileSystem.mem_childNames.1 hchild, hkept.2, hnotDir⟩,
    Path.child_parent _ _, hkept.1⟩

theorem nodup_filesOf (hv : v.files.Nodup) : (filesOf registry rules v).Nodup := by
  refine List.Nodup.filter _ (List.Nodup.map (fun n m heq => ?_) hv)
  exact (Path.child_injective heq).2

theorem listed_of_mem (h : fs.Plain) (hroot : root.IsProper)
    (hx : x ∈ collect fs registry rules root) (hp : p ∈ x.2) : Listed fs registry root p := by
  obtain ⟨-, v, hv, rfl⟩ := mem_collect_iff.1 hx
  exact (listed_of_mem_filesOf h (FileSystem.visited_of_mem_walk h hroot hv) hp).1

/-- The visited directory of an entry of the catalogue is where all its files are. -/
theorem exists_visit_of_mem (h : fs.Plain) (hroot : root.IsProper)
    (hx : x ∈ collect fs registry rules root) :
    ∃ dir : Path, dir.IsProper ∧ root.names <+: dir.names ∧ x.1 = directoryKey root dir ∧
      ∀ p ∈ x.2, p.parent = dir := by
  obtain ⟨-, v, hv, rfl⟩ := mem_collect_iff.1 hx
  have hvisited := FileSystem.visited_of_mem_walk h hroot hv
  exact ⟨v.dir, hvisited.isProper, hvisited.below, rfl, fun p hp =>
    (listed_of_mem_filesOf h hvisited hp).2.1⟩

theorem joinNames_injective {as bs : List Text} (ha : ∀ n ∈ as, Path.IsPiece n)
    (hb : ∀ n ∈ bs, Path.IsPiece n) (heq : Path.joinNames as = Path.joinNames bs) : as = bs := by
  have hnil : ∀ ns : List Text, (∀ n ∈ ns, Path.IsPiece n) → Path.joinNames ns = [] → ns = [] := by
    intro ns hns hempty
    cases ns with
    | nil => rfl
    | cons n ns =>
      have hn := (hns n List.mem_cons_self).ne_nil
      cases ns with
      | nil => simp [Path.joinNames, List.intercalate, hn] at hempty
      | cons m ns =>
        rw [Path.joinNames_cons] at hempty
        simp at hempty
  by_cases hna : as = []
  · subst hna
    exact (hnil bs hb heq.symm).symm
  by_cases hnb : bs = []
  · subst hnb
    exact hnil as ha heq
  rw [← Path.pieces_joinNames hna fun n hn => (ha n hn).slash, heq,
    Path.pieces_joinNames hnb fun n hn => (hb n hn).slash]

theorem directoryKey_eq {below : List Text} (hanchor : dir.anchor = root.anchor)
    (hnames : dir.names = root.names ++ below) : directoryKey root dir = Path.joinNames below := by
  have hrel : dir.relativeTo? root = some ⟨.relative, below⟩ :=
    Path.relativeTo?_eq_some.2 ⟨hanchor, rfl, hnames⟩
  simp [directoryKey, hrel, Path.bareText, Anchor.text]

/-- A directory below the root is known from its key. -/
theorem directoryKey_injective {dir' : Path} (hroot : root.IsProper) (hdir : dir.IsProper)
    (hdir' : dir'.IsProper) (hbelow : root.names <+: dir.names) (hbelow' : root.names <+: dir'.names)
    (heq : directoryKey root dir = directoryKey root dir') : dir = dir' := by
  obtain ⟨below, hnames⟩ := hbelow
  obtain ⟨below', hnames'⟩ := hbelow'
  rw [directoryKey_eq (hdir.anchor.trans hroot.anchor.symm) hnames.symm,
    directoryKey_eq (hdir'.anchor.trans hroot.anchor.symm) hnames'.symm] at heq
  have hpiece : ∀ n ∈ below, Path.IsPiece n := fun n hn =>
    (hdir.names n (hnames ▸ List.mem_append_right _ hn)).toIsPiece
  have hpiece' : ∀ n ∈ below', Path.IsPiece n := fun n hn =>
    (hdir'.names n (hnames' ▸ List.mem_append_right _ hn)).toIsPiece
  have hsame : dir.names = dir'.names := by
    rw [← hnames, ← hnames', joinNames_injective hpiece hpiece' heq]
  have hanchor : dir.anchor = dir'.anchor := hdir.anchor.trans hdir'.anchor.symm
  cases dir
  cases dir'
  simp_all

/-- No key is listed twice. -/
theorem nodup_keys (h : fs.Plain) (hroot : root.IsProper) :
    ((collect fs registry rules root).map Prod.fst).Nodup := by
  have hkeys : ((fs.walk rules.ignores (fs.depth + 1) root).map fun v =>
      directoryKey root v.dir).Nodup := by
    have hdirs : ((fs.walk rules.ignores (fs.depth + 1) root).map Visit.dir).Nodup :=
      FileSystem.nodup_walk h.named
    rw [List.Nodup, List.pairwise_map] at hdirs ⊢
    refine hdirs.imp_of_mem fun {v w} hv hw hne heq => hne ?_
    have hv' := FileSystem.visited_of_mem_walk h hroot hv
    have hw' := FileSystem.visited_of_mem_walk h hroot hw
    exact directoryKey_injective hroot hv'.isProper hw'.isProper hv'.below hw'.below heq
  refine hkeys.sublist ?_
  have := (List.filter_sublist (p := fun x : Text × List Path => !x.2.isEmpty)
    (l := (fs.walk rules.ignores (fs.depth + 1) root).map fun v =>
      (directoryKey root v.dir, filesOf registry rules v))).map Prod.fst
  simpa [collect, List.map_map, Function.comp_def] using this

/-- A file is listed under one key only. -/
theorem eq_of_mem_of_mem (h : fs.Plain) (hroot : root.IsProper)
    (hx : x ∈ collect fs registry rules root) (hy : y ∈ collect fs registry rules root)
    (hpx : p ∈ x.2) (hpy : p ∈ y.2) : x = y := by
  obtain ⟨dir, -, -, hkey, hparent⟩ := exists_visit_of_mem h hroot hx
  obtain ⟨dir', -, -, hkey', hparent'⟩ := exists_visit_of_mem h hroot hy
  have hdir : dir = dir' := (hparent p hpx).symm.trans (hparent' p hpy)
  exact List.inj_on_of_nodup_map (nodup_keys h hroot) hx hy (by rw [hkey, hkey', hdir])

theorem nodup_files (h : fs.Plain) (hroot : root.IsProper)
    (hx : x ∈ collect fs registry rules root) : x.2.Nodup := by
  obtain ⟨-, v, hv, rfl⟩ := mem_collect_iff.1 hx
  exact nodup_filesOf (FileSystem.visited_of_mem_walk h hroot hv).nodup

end Catalogue

end CodeIndex
