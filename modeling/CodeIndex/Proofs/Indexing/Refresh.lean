import CodeIndex.Proofs.Indexing.Clashes
import CodeIndex.Proofs.Indexing.History
import CodeIndex.Proofs.Page.Lines

/-!
# Updates after edits

After a full run a project is edited, and an update follows. The update writes the pages on all
directories in which a file is new or tells another modification time or size. On the other
directories it leaves the pages of the full run, which are right as long as no file of the directory
is gone: that a file is gone shows in no file that is there.
-/

namespace CodeIndex

namespace FileSystem

variable {fs fs' : FileSystem} {p : Path} {data : FileData} {loc : Location} {names : List Text}
  {skips : Path → Bool} {levels : Nat} {dir : Path} {v : Visit}

theorem fileAt?_eq_some_iff : fs.fileAt? loc = some data ↔ fs.get? loc = some (.file data) := by
  unfold fileAt?
  cases fs.get? loc with
  | none => simp
  | some e => cases e <;> simp

theorem pairwise_files_of_mem_walk (h : fs.Plain) (hdir : dir.IsProper)
    (hv : v ∈ fs.walk skips levels dir) :
    v.files.Pairwise ((fs.host.listing v.dir.names).lt · ·) := by
  induction levels generalizing dir with
  | zero => cases hv
  | succ levels ih =>
    obtain ⟨names, hlist, hv⟩ := mem_walk_succ.1 hv
    obtain ⟨-, -, rfl⟩ := (list_ok_iff h hdir).1 hlist
    rcases hv with rfl | ⟨n, hn, hv⟩
    · exact (TextOrder.pairwise_sort _ _).filter _
    · exact ih (hdir.child (isName_of_mem_childNames h (mem_entered hn))) hv

end FileSystem

namespace Catalogue

open FileSystem

variable {fs fs' : FileSystem} {registry registry' : Registry} {rules rules' : IgnoreRules}
  {root : Path} {x y : Text × List Path} {p : Path}

/-- The files of a directory are listed in its order. -/
theorem exists_names_of_mem (h : fs.Plain) (hroot : root.IsProper)
    (hx : x ∈ collect fs registry rules root) :
    ∃ (dir : Path) (names : List Text), x.2 = names.map dir.child ∧
      names.Pairwise ((fs.host.listing dir.names).lt · ·) := by
  obtain ⟨-, v, hv, rfl⟩ := mem_collect_iff.1 hx
  exact ⟨v.dir, _, List.filter_map, (pairwise_files_of_mem_walk h hroot hv).filter _⟩

/-- A file is listed under one key, whatever the file system. -/
theorem key_eq_of_mem_of_mem (h : fs.Plain) (h' : fs'.Plain) (hroot : root.IsProper)
    (hx : x ∈ collect fs registry rules root) (hy : y ∈ collect fs' registry' rules' root)
    (hpx : p ∈ x.2) (hpy : p ∈ y.2) : x.1 = y.1 := by
  obtain ⟨dir, -, -, hkey, hparent⟩ := exists_visit_of_mem h hroot hx
  obtain ⟨dir', -, -, hkey', hparent'⟩ := exists_visit_of_mem h' hroot hy
  rw [hkey, hkey', ← hparent p hpx, ← hparent' p hpy]

/-- Directories that have the same files and the same order list them alike. -/
theorem files_eq (h : fs.Plain) (h' : fs'.Plain) (hlisting : fs'.host.listing = fs.host.listing)
    (hroot : root.IsProper)
    (hx : x ∈ collect fs registry rules root) (hy : y ∈ collect fs' registry' rules' root)
    (hsame : ∀ p, p ∈ x.2 ↔ p ∈ y.2) : x.2 = y.2 := by
  obtain ⟨p, hp⟩ := List.exists_mem_of_ne_nil _ (mem_collect_iff.1 hx).1
  obtain ⟨dir, names, hfiles, hsorted⟩ := exists_names_of_mem h hroot hx
  obtain ⟨dir', names', hfiles', hsorted'⟩ := exists_names_of_mem h' hroot hy
  have hdir : dir = dir' := by
    obtain ⟨n, -, rfl⟩ := List.mem_map.1 (hfiles ▸ hp)
    obtain ⟨n', -, heq⟩ := List.mem_map.1 (hfiles' ▸ (hsame _).1 hp)
    exact (Path.child_injective heq).1.symm
  subst hdir
  have hinjective : Function.Injective dir.child := fun n n' heq => (Path.child_injective heq).2
  have hnames : names = names' := by
    rw [hlisting] at hsorted'
    apply TextOrder.eq_of_pairwise hsorted hsorted'
    intro n
    have hchild := hsame (dir.child n)
    rwa [hfiles, hfiles', List.mem_map_of_injective hinjective, List.mem_map_of_injective hinjective]
      at hchild
  rw [hfiles, hfiles', hnames]

end Catalogue

namespace Page

variable {fs : FileSystem} {registry : Registry} {root : Path} {dir : Text} {files fewer : List Path}

theorem linesSize_sectionOf_pos {p : Path} (hp : (p.relativeTo? root).isSome)
    (hlanguage : (registry.languageOf? p).isSome) :
    0 < linesSize (sectionOf fs registry root p) := by
  obtain ⟨shown, hshown⟩ := Option.isSome_iff_exists.1 hp
  have hmem : pathLine shown ∈ sectionOf fs registry root p :=
    pathLine_mem_sectionOf hshown hlanguage
  obtain ⟨before, behind, hsplit⟩ := List.append_of_mem hmem
  rw [hsplit, linesSize_append, linesSize_cons]
  omega

theorem length_textOf (hfiles : ∀ p ∈ files, (p.relativeTo? root).isSome) :
    (textOf fs registry root dir files).length + 1 = linesSize (header dir) +
      linesSize (files.flatMap (sectionOf fs registry root)) := by
  have hne : header dir ++ (sortFiles files).flatMap (sectionOf fs registry root) ≠ [] := by
    unfold header
    exact List.cons_ne_nil _ _
  rw [textOf_eq hfiles, length_unlines hne, linesSize_append,
    linesSize_perm ((sortFiles_perm files).flatMap_right _)]

/-- The page on a directory with fewer files is shorter. -/
theorem length_textOf_lt (hfiles : ∀ p ∈ files, (p.relativeTo? root).isSome)
    (hlanguage : ∀ p ∈ files, (registry.languageOf? p).isSome) (hnodup : files.Nodup)
    (hfewer : fewer.Nodup) (hsub : ∀ p ∈ fewer, p ∈ files) {q : Path} (hq : q ∈ files)
    (hnot : q ∉ fewer) :
    (textOf fs registry root dir fewer).length < (textOf fs registry root dir files).length := by
  have hperm : (fewer ++ q :: (files.filter fun p => p ∉ fewer ∧ p ≠ q)).Perm files := by
    apply (List.perm_ext_iff_of_nodup _ hnodup).2
    · intro p
      simp only [List.mem_append, List.mem_cons, List.mem_filter, decide_eq_true_eq]
      by_cases hp : p ∈ fewer
      · simp [hp, hsub p hp]
      · by_cases hpq : p = q
        · simp [hpq, hq]
        · simp [hp, hpq]
    · rw [List.nodup_append, List.nodup_cons]
      refine ⟨hfewer, ⟨by simp, hnodup.filter _⟩, ?_⟩
      rintro p hp r hr rfl
      rcases List.mem_cons.1 hr with rfl | hr
      · exact hnot hp
      · simp [hp] at hr
  have hlong : (textOf fs registry root dir files).length + 1 = _ := length_textOf hfiles
  have hshort : (textOf fs registry root dir fewer).length + 1 = _ :=
    length_textOf fun p hp => hfiles p (hsub p hp)
  have hpos : 0 < linesSize (sectionOf fs registry root q) :=
    linesSize_sectionOf_pos (hfiles q hq) (hlanguage q hq)
  rw [← linesSize_perm (hperm.flatMap_right _), List.flatMap_append, List.flatMap_cons,
    linesSize_append, linesSize_append] at hlong
  omega

end Page

namespace Indexing

open FileSystem Metadata Page

variable {s s' : Setting} {fs fs' : FileSystem} {L : Location} {m m' : Metadata}
  {x y : Text × List Path} {xs : Catalogue} {files : List Path} {p : Path}

/-- To find no file changed, all of them are looked at. -/
theorem look_of_anyChanged (hproper : ∀ p ∈ files, p.IsProper)
    (h : anyChanged m fs files = .ok false) : ∀ p ∈ files, ∃ e?, fs.look p = .ok e? := by
  induction files with
  | nil => simp
  | cons q files ih =>
    rw [anyChanged, bind_ok_iff] at h
    obtain ⟨changed, hneeds, hrest⟩ := h
    cases changed with
    | true => cases hrest
    | false =>
      intro p hp
      rcases List.mem_cons.1 hp with rfl | hp
      · unfold needsIndex at hneeds
        rw [(hproper p List.mem_cons_self).ofText_toText] at hneeds
        obtain ⟨e?, hlook, -⟩ := bind_ok_iff.1 hneeds
        exact ⟨e?, hlook⟩
      · exact ih (fun r hr => hproper r (List.mem_cons_of_mem _ hr)) hrest p hp

/-- An update that succeeds has seen all files of the directories that it leaves. -/
theorem seen_of_visits (h : Ready s fs L xs) (hapart : xs.Pairwise Apart)
    (hupdate : s.onlyChanged = true) {out : Text} {σ : Session}
    (hok : (xs.foldlM (visitDirectory s) m) ⟨fs, out⟩ = .ok m' σ) (hx : x ∈ xs)
    (hsame : isSelected m fs x = false) : ∀ p ∈ x.2, ∃ e, fs.look p = .ok (some e) := by
  induction xs generalizing fs m out with
  | nil => cases hx
  | cons y xs ih =>
    obtain ⟨hyapart, hapart⟩ := List.pairwise_cons.1 hapart
    have hy : y ∈ y :: xs := List.mem_cons_self
    have hrest := h.mono fun z hz => List.mem_cons_of_mem y hz
    rw [List.foldlM_cons] at hok
    obtain ⟨m₁, ⟨fs₁, out₁⟩, hvisit, hok⟩ := Action.bind_ok_iff.1 hok
    obtain ⟨b, hany, hvisit⟩ := (visitDirectory_ok_iff hupdate).1 hvisit
    have hproper : ∀ p ∈ y.2, p.IsProper := fun p hp => (h.listed y hy p hp).isProper
    have hselected : isSelected m fs y = b := any_isChanged hproper hany
    cases b with
    | false =>
      cases hvisit
      rcases List.mem_cons.1 hx with rfl | hx
      · intro p hp
        obtain ⟨e, hget⟩ := (h.listed x hy p hp).entry
        obtain ⟨e?, hlook⟩ := look_of_anyChanged hproper hany p hp
        refine ⟨e, (look_of_get? h.pages.plain (hproper p hp) hget).resolve_right ?_⟩
        rintro ⟨errno, -, herr⟩
        rw [hlook] at herr
        cases herr
      · exact ih hrest hapart hok hx hsame
    | true =>
      have hxs : x ∈ xs := by
        refine (List.mem_cons.1 hx).resolve_left ?_
        rintro rfl
        rw [hsame] at hselected
        cases hselected
      have hindex : indexDirectory s m y.1 y.2 ⟨fs, out⟩ = .ok m₁ ⟨fs₁, out₁⟩ := hvisit
      obtain ⟨rfl, hk, hready⟩ := ready_after h hy hindex
      -- the page on the other directory does not show in the files of this one
      have hlater := ih (hready.mono fun z hz => List.mem_cons_of_mem y hz) hapart hok hxs
        ((isSelected_after h hy hx (hyapart x hxs) hk _).trans hsame)
      intro p hp
      obtain ⟨e, hlook⟩ := hlater p hp
      rw [hk.look h.pages.plain (h.listed x hx p hp)] at hlook
      exact ⟨e, hlook⟩

/-- Whatever is no directory and has been replaced has another modification time or another size. -/
def Marked (fs fs' : FileSystem) : Prop :=
  ∀ loc e e', fs.get? loc = some e → fs'.get? loc = some e' → e.isDirectory = false →
    e'.isDirectory = false → sameMeasure (measure e) (measure e') = true → e' = e

/-- A full run, edits that leave its index alone, and an update. -/
structure Edited (c : Course s fs) (c' : Course s' fs') : Prop where
  plain : fs.Plain
  sound : s.Sound
  sound' : s'.Sound
  full : s.onlyChanged = false
  update : s'.onlyChanged = true
  registry : s'.registry = s.registry
  root : s'.root = s.root
  indexDir : s'.indexDir = s.indexDir
  measured : fs.Measured s.registry
  leaves : LeavesIndex s.indexDir c.saved fs'
  listing : fs'.host.listing = fs.host.listing
  search : fs'.isSearchableAt (homeOf s.indexDir ++ [Overview.pagesName]) = true
  marked : Marked c.saved fs'
  apart : ∀ x ∈ c.catalogue, ∀ y ∈ c.catalogue, x.1 ≠ y.1 → ¬Clash s fs x y
  apart' : ∀ x ∈ c'.catalogue, ∀ y ∈ c'.catalogue, x.1 ≠ y.1 → ¬Clash s' fs' x y

/-- Files that the full run did not find had no record. -/
def FirstSeen (s : Setting) (fs : FileSystem) (before : Catalogue) (files : List Path) : Prop :=
  ∀ p ∈ files, (∃ y ∈ before, p ∈ y.2) ∨ ¬HasRecord fs s.indexDir (Json.letters p.toText)

/-- No file that was found in a directory is gone from it. -/
def NoneGone (before : Catalogue) (x : Text × List Path) : Prop :=
  ∀ y ∈ before, y.1 = x.1 → ∀ p ∈ y.2, p ∈ x.2

namespace Edited

variable {c : Course s fs} {c' : Course s' fs'} {f : Text × Text}

theorem load (h : Edited c c') (later : Timestamp) :
    Metadata.load c.saved later s.indexDir = .ok (c.updated.touch s.now) := by
  obtain ⟨K, hK⟩ := c.exists_places h.plain h.sound
  apply c.load_saved h.plain h.sound hK
  exact c.loadable_updated h.plain h.sound hK (c.measured h.plain h.sound h.measured)

theorem old_eq (h : Edited c c') : c'.old = c.updated.touch s.now := by
  have hload := c'.old_eq
  rw [h.indexDir, h.leaves.load, h.load] at hload
  exact (Except.ok.inj hload).symm

theorem mem_collect (h : Edited c c') (hx : x ∈ c'.catalogue) :
    x ∈ Catalogue.collect fs' s'.registry c'.rules s.root := by
  rw [← h.root]
  exact hx

theorem mem_indexed_iff (h : Edited c c') (hx : x ∈ c'.catalogue) :
    x ∈ c'.indexed ↔ ∃ p ∈ x.2, (c.updated.touch s.now).Changed fs' p := by
  rw [mem_indexed h.update, isSelected_iff, Course.start, h.old_eq]
  exact and_iff_right hx

/-- The files of a directory that is left are there. -/
theorem look_file (h : Edited c c') (hx : x ∈ c'.catalogue) (hsame : x ∉ c'.indexed)
    (hp : p ∈ x.2) :
    ∃ e, fs'.get? p.names = some e ∧ fs'.look p = .ok (some e) := by
  have hplain := h.leaves.plain
  obtain ⟨K, hK⟩ := c'.exists_places hplain h.sound'
  have hlisted := c'.listed hplain h.sound' hx
  have hk : KeepsSources s'.registry fs' c'.begun := hK.adds.keepsSources
  have hleft : isSelected c'.start c'.begun x = false := by
    rw [isSelected_congr hk hplain hlisted, Bool.eq_false_iff]
    intro hselected
    exact hsame ((mem_indexed h.update c').2 ⟨hx, hselected⟩)
  obtain ⟨out, hok⟩ := Action.on_ok_iff.1 c'.paged_eq
  have hseen := seen_of_visits (c'.ready hplain h.sound' hK)
    (pairwise_apart_collect hplain h.sound'.root) h.update hok hx hleft p hp
  exact look_of_seen hplain hk (hlisted p hp) hseen

/-- A file in a directory that is left was found by the full run. -/
theorem exists_found (h : Edited c c') (hx : x ∈ c'.catalogue) (hsame : x ∉ c'.indexed)
    (hnew : FirstSeen s fs c.catalogue x.2) (hp : p ∈ x.2) : ∃ y ∈ c.catalogue, p ∈ y.2 := by
  by_contra hunknown
  obtain ⟨e, -, hlook⟩ := h.look_file hx hsame hp
  apply hsame
  refine (h.mem_indexed_iff hx).2 ⟨p, hp, _, hlook, ?_⟩
  intro fields hrecord
  have hhas : HasRecord c.saved s.indexDir (Json.letters p.toText) :=
    ⟨s.now, _, h.load s.now, by rw [hrecord]; rfl⟩
  rcases (c.hasRecord_saved_iff h.plain h.sound h.measured).1 hhas with ⟨q, hq, heq⟩ | hold
  · obtain ⟨y, hy, hqy⟩ := List.mem_flatMap.1 hq
    have hyc := c.mem_catalogue_of_mem_indexed hy
    have hpq : p = q := (c'.listed h.leaves.plain h.sound' hx p hp).isProper.toText_injective
      (c.listed h.plain h.sound hyc q hqy).isProper (letters_injective heq)
    exact absurd ⟨y, hyc, hpq ▸ hqy⟩ hunknown
  · exact absurd hold ((hnew p hp).resolve_left hunknown)

/-- A directory that is left was there with all its files. -/
theorem exists_before (h : Edited c c') (hx : x ∈ c'.catalogue) (hsame : x ∉ c'.indexed)
    (hnew : FirstSeen s fs c.catalogue x.2) :
    ∃ y ∈ c.catalogue, y.1 = x.1 ∧ ∀ p ∈ x.2, p ∈ y.2 := by
  have hkey : ∀ p ∈ x.2, ∀ y ∈ c.catalogue, p ∈ y.2 → y.1 = x.1 := by
    intro p hp y hy hpy
    exact Catalogue.key_eq_of_mem_of_mem h.plain h.leaves.plain h.sound.root hy
      (h.mem_collect hx) hpy hp
  obtain ⟨q, hq⟩ := List.exists_mem_of_ne_nil _ (Catalogue.mem_collect_iff.1 hx).1
  obtain ⟨y, hy, hqy⟩ := h.exists_found hx hsame hnew hq
  refine ⟨y, hy, hkey q hq y hy hqy, ?_⟩
  intro p hp
  obtain ⟨z, hz, hpz⟩ := h.exists_found hx hsame hnew hp
  have hzy : z.1 = y.1 := (hkey p hp z hz hpz).trans (hkey q hq y hy hqy).symm
  obtain rfl : z = y :=
    List.inj_on_of_nodup_map (Catalogue.nodup_keys h.plain h.sound.root) hz hy hzy
  exact hpz

/-- What was read from a file that is found unchanged is read from it now. -/
theorem read_eq (h : Edited c c') (hx : x ∈ c'.catalogue) (hsame : x ∉ c'.indexed) (hp : p ∈ x.2)
    (hy : y ∈ c.catalogue) (hpy : p ∈ y.2) : fs'.read p = fs.read p := by
  obtain ⟨K, hK⟩ := c.exists_places h.plain h.sound
  have hindexed : y ∈ c.indexed := c.indexed_of_full h.full ▸ hy
  have hlisted := c.listed h.plain h.sound hy p hpy
  obtain ⟨e, hget, hlook⟩ := look_of_seen h.plain hK.adds.keepsSources hlisted
    ((c.paged_spec h.plain h.sound hK).1.seen y hindexed p hpy)
  obtain ⟨e', hget', hlook'⟩ := h.look_file hx hsame hp
  obtain ⟨fields, hfields, hne, hagrees⟩ :=
    agrees_record_eq e e' (.text (lastPage s fs y)) .null
  have hrecord : (c.updated.touch s.now).recordAt? (Json.letters p.toText) = some (.obj fields) := by
    rw [← hfields, ← recordOf_eq hget]
    exact c.recordAt?_updated h.plain h.sound hK hindexed hpy
  have htold : agrees fields e' = true := by
    by_contra hdiffers
    apply hsame
    refine (h.mem_indexed_iff hx).2 ⟨p, hp, _, hlook', ?_⟩
    intro fields' hrecord' _
    obtain rfl : fields = fields' := by
      rw [hrecord] at hrecord'
      cases hrecord'
      rfl
    exact Bool.eq_false_iff.2 hdiffers
  have hkept : c.saved.get? p.names = some e :=
    ((c.keepsSources h.plain h.sound hK).get?_listed hlisted).trans hget
  obtain rfl : e' = e := h.marked p.names e e' hkept hget' (hlisted.isDirectory hlook)
    ((c'.listed h.leaves.plain h.sound' hx p hp).isDirectory hlook')
    (hagrees.symm.trans htold)
  exact read_eq_of_look hlook' hlook

theorem textOf_eq (h : Edited c c') (hx : x ∈ c'.catalogue) (hsame : x ∉ c'.indexed)
    (hy : y ∈ c.catalogue) (hkey : y.1 = x.1) (hsub : ∀ p ∈ x.2, p ∈ y.2) :
    Indexing.textOf s' fs' x = Page.textOf fs s.registry s.root y.1 x.2 := by
  unfold Indexing.textOf
  rw [h.registry, h.root, hkey]
  apply Page.textOf_congr
  intro p hp
  exact h.read_eq hx hsame hp hy (hsub p hp)

/-- On a directory that is left all pages are left. -/
theorem fileAt?_left (h : Edited c c') (hx : x ∈ c'.catalogue) (hsame : x ∉ c'.indexed)
    (hf : f ∈ pagesOf s' fs' x) :
    c'.saved.fileAt? (pageAt s.indexDir f.1) = fs'.fileAt? (pageAt s.indexDir f.1) := by
  rw [← h.indexDir]
  apply c'.fileAt?_of_notMem h.leaves.plain h.sound'
  intro hmem
  obtain ⟨g, hg, hname⟩ := List.mem_map.1 hmem
  obtain ⟨z, hz, hg⟩ := List.mem_flatMap.1 hg
  have hzc := c'.mem_catalogue_of_mem_indexed hz
  have hne : x.1 ≠ z.1 := by
    intro hkey
    obtain rfl : x = z :=
      List.inj_on_of_nodup_map (Catalogue.nodup_keys h.leaves.plain h.sound'.root) hx hzc hkey
    exact hsame hz
  exact h.apart' x hx z hzc hne (shareName_iff_nameClash.1 ⟨f, hf, g, hg, hname.symm⟩)

/-- A page of the full run that the update leaves is read as it was written. -/
theorem read_left (h : Edited c c') (hy : y ∈ c.catalogue) (hf : f ∈ pagesOf s fs y)
    (hleft : c'.saved.fileAt? (pageAt s.indexDir f.1) = fs'.fileAt? (pageAt s.indexDir f.1)) :
    c'.saved.read (s'.pagesDir.child f.1) = .ok (Utf8.encode f.2) := by
  obtain ⟨K, hK⟩ := c.exists_places h.plain h.sound
  obtain ⟨K', hK'⟩ := c'.exists_places h.leaves.plain h.sound'
  obtain rfl : K = homeOf s.indexDir := locate_home hK.index.plain hK.index.isFull hK.index.located
  obtain rfl : K' = homeOf s.indexDir := by
    rw [← h.indexDir]
    exact locate_home hK'.index.plain hK'.index.isFull hK'.index.located
  have hindexed : y ∈ c.indexed := c.indexed_of_full h.full ▸ hy
  have hpages : s'.pagesDir = s.pagesDir := by
    rw [Setting.pagesDir, Setting.pagesDir, h.indexDir]
  have hfile : c'.saved.fileAt? (pageAt s.indexDir f.1) = 
      some ⟨Utf8.encode f.2, fs.host.clock, false⟩ := by
    rw [hleft, h.leaves.pages]
    exact fileAt?_written (c.get?_page h.plain h.sound hK h.apart hindexed hf)
  have hacc := c.accepts_pages h.plain h.sound hK f (List.mem_flatMap.2 ⟨y, hindexed, hf⟩)
  have hsearch : c'.saved.isSearchableAt (homeOf s.indexDir ++ [Overview.pagesName]) = true :=
    ((c'.keepsDirs_saved h.leaves.plain h.sound' hK').isSearchableAt hK'.pages.directory).trans
      (hK'.adds.isSearchableAt h.search)
  have hthere : c'.saved.get? (homeOf s.indexDir ++ [Overview.pagesName] ++ [f.1]) =
      some (written fs.host (Utf8.encode f.2)) := fileAt?_eq_some_iff.1 hfile
  exact (c'.saved_spec h.leaves.plain h.sound' hK').1.read_written hsearch (hpages ▸ hacc) hthere

/-- The page on a directory is right after the update if no file of the directory is gone. -/
theorem shows_of_noneGone (h : Edited c c') (hx : x ∈ c'.catalogue)
    (hnew : FirstSeen s fs c.catalogue x.2) (hgone : NoneGone c.catalogue x) :
    Shows s' fs' c'.saved x := by
  by_cases hindexed : x ∈ c'.indexed
  · exact c'.shows_of_mem_indexed h.leaves.plain h.sound' h.apart' hindexed
  · intro f hf
    obtain ⟨y, hy, hkey, hsub⟩ := h.exists_before hx hindexed hnew
    have hfiles : x.2 = y.2 := by
      apply Catalogue.files_eq h.leaves.plain h.plain h.listing.symm h.sound.root (h.mem_collect hx) hy
      intro p
      exact ⟨hsub p, hgone y hy hkey p⟩
    have hpages : pagesOf s' fs' x = pagesOf s fs y := by
      have htext := h.textOf_eq hx hindexed hy hkey hsub
      rw [hfiles] at htext
      unfold pagesOf
      rw [show Page.textOf fs' s'.registry s'.root x.1 x.2 = _ from htext, hkey]
    exact h.read_left hy (hpages ▸ hf) (h.fileAt?_left hx hindexed hf)

/-- If the page was whole and the directory is left, then no file of it is gone. -/
theorem noneGone_of_shows (h : Edited c c') (hx : x ∈ c'.catalogue) (hsame : x ∉ c'.indexed)
    (hnew : FirstSeen s fs c.catalogue x.2)
    (hwhole : ∀ y ∈ c.catalogue, y.1 = x.1 → (Indexing.textOf s fs y).length ≤ maxChars)
    (hshows : Shows s' fs' c'.saved x) : NoneGone c.catalogue x := by
  obtain ⟨y, hy, hkey, hsub⟩ := h.exists_before hx hsame hnew
  intro z hz hzx q hq
  obtain rfl : z = y := List.inj_on_of_nodup_map (Catalogue.nodup_keys h.plain h.sound.root) hz hy
    (hzx.trans hkey.symm)
  by_contra hgone
  have hlisted := c.listed h.plain h.sound hz
  have hshorter : (Indexing.textOf s' fs' x).length < (Indexing.textOf s fs z).length := by
    rw [h.textOf_eq hx hsame hz hkey hsub]
    apply length_textOf_lt _ _ _ _ hsub hq hgone
    · exact fun p hp => relativeTo?_of_listed h.sound.root (hlisted p hp)
    · exact fun p hp => (hlisted p hp).language
    · exact Catalogue.nodup_files h.plain h.sound.root hz
    · exact Catalogue.nodup_files h.leaves.plain h.sound'.root hx
  -- both texts would stand in the same file
  have hlong := hwhole z hz hkey
  have hf : (pageBase x.1 ++ ".md".toList, Indexing.textOf s' fs' x) ∈ pagesOf s' fs' x :=
    (mem_pageFiles_whole (hshorter.le.trans hlong)).2 rfl
  have hg : (pageBase z.1 ++ ".md".toList, Indexing.textOf s fs z) ∈ pagesOf s fs z :=
    (mem_pageFiles_whole hlong).2 rfl
  have hname : pageBase z.1 = pageBase x.1 := congrArg pageBase hkey
  have hleft := h.fileAt?_left hx hsame hf
  have hnow := hshows _ hf
  have hthen := h.read_left hz hg (by rw [hname]; exact hleft)
  rw [hname] at hthen
  have hencoded := Except.ok.inj (hnow.symm.trans hthen)
  have htexts := congrArg Utf8.decode? hencoded
  rw [Utf8.decode?_encode, Utf8.decode?_encode] at htexts
  exact absurd (congrArg List.length (Option.some.inj htexts)) hshorter.ne

end Edited

/-- What an update leaves of the page on a directory, where a full run from `fs` with the catalogue
`before` has left the metadata `m`, and the update has led from `fs'` to `after`. -/
structure Refreshed (s s' : Setting) (fs fs' after : FileSystem) (before : Catalogue)
    (m : Metadata) (x : Text × List Path) : Prop where
  /-- With a changed file the page is written as a full run would write it. -/
  changed : (∃ p ∈ x.2, m.Changed fs' p) → Shows s' fs' after x
  /-- Without one its files are left, -/
  unchanged : (¬∃ p ∈ x.2, m.Changed fs' p) → ∀ f ∈ pagesOf s' fs' x,
    after.fileAt? (pageAt s.indexDir f.1) = fs'.fileAt? (pageAt s.indexDir f.1)
  /-- and they are right if no file of the directory is gone. -/
  kept : FirstSeen s fs before x.2 → NoneGone before x → Shows s' fs' after x
  /-- If the page was whole, they are right in no other case. -/
  gone : FirstSeen s fs before x.2 →
    (∀ y ∈ before, y.1 = x.1 → (Indexing.textOf s fs y).length ≤ maxChars) →
    (Shows s' fs' after x ↔ (∃ p ∈ x.2, m.Changed fs' p) ∨ NoneGone before x)

theorem Edited.refreshed {c : Course s fs} {c' : Course s' fs'} (h : Edited c c')
    (hx : x ∈ c'.catalogue) :
    Refreshed s s' fs fs' c'.saved c.catalogue (c.updated.touch s.now) x := by
  have hiff := h.mem_indexed_iff hx
  have hwritten : x ∈ c'.indexed → Shows s' fs' c'.saved x :=
    c'.shows_of_mem_indexed h.leaves.plain h.sound' h.apart'
  refine ⟨?_, ?_, h.shows_of_noneGone hx, ?_⟩
  · intro hchanged
    exact hwritten (hiff.2 hchanged)
  · intro hsame f hf
    exact h.fileAt?_left hx (mt hiff.1 hsame) hf
  · intro hnew hwhole
    rw [← hiff]
    constructor
    · intro hshows
      by_cases hindexed : x ∈ c'.indexed
      · exact .inl hindexed
      · exact .inr (h.noneGone_of_shows hx hindexed hnew hwhole hshows)
    · rintro (hindexed | hgone)
      · exact hwritten hindexed
      · exact h.shows_of_noneGone hx hnew hgone

/-- A full run writes the pages that any run with the same root and the same index would. -/
theorem Course.shows_of_full (h : fs.Plain) (hs : s.Sound) (hfull : s.onlyChanged = false)
    (c : Course s fs) (hregistry : s'.registry = s.registry) (hroot : s'.root = s.root)
    (hindex : s'.indexDir = s.indexDir)
    (hclash : ∀ x ∈ c.catalogue, ∀ y ∈ c.catalogue, x.1 ≠ y.1 → ¬Clash s' fs x y)
    (hx : x ∈ c.catalogue) : Shows s' fs c.saved x := by
  obtain ⟨registry, now, root, indexDir, onlyChanged⟩ := s'
  obtain rfl : registry = s.registry := hregistry
  obtain rfl : root = s.root := hroot
  obtain rfl : indexDir = s.indexDir := hindex
  exact c.shows_of_mem_indexed h hs hclash (c.indexed_of_full hfull ▸ hx)

/-- After a full run and edits of the project an update leaves on every directory the page that a full
run would leave, unless a file of the directory is gone and no other file of it has changed. -/
theorem update_refreshes_pages {now now' : Timestamp} {arguments arguments' : List Text}
    {o o' : CommandLine.Options} {rules rules' : IgnoreRules} (hfs : fs.Plain)
    (hmeasured : fs.Measured .standard) (hasks : Asks arguments o now fs s)
    (hfull : o.update = false ∨ o.force = true)
    (hrules : IgnoreRules.load fs s.root [] = .ok rules)
    (hrun : (program .standard now arguments fs).result = .ok 0)
    (hleaves : LeavesIndex s.indexDir (program .standard now arguments fs).fs fs')
    (hlisting : fs'.host.listing = fs.host.listing)
    (hsearch : fs'.isSearchableAt (homeOf s.indexDir ++ [Overview.pagesName]) = true)
    (hmarked : Marked (program .standard now arguments fs).fs fs')
    (hasks' : Asks arguments' o' now' fs' s') (hupdate : o'.update = true)
    (hforce : o'.force = false) (hroot : s'.root = s.root) (hindex : s'.indexDir = s.indexDir)
    (hrules' : IgnoreRules.load fs' s'.root [] = .ok rules')
    (hrun' : (program .standard now' arguments' fs').result = .ok 0)
    (hclash : ∀ x ∈ Catalogue.collect fs .standard rules s.root,
      ∀ y ∈ Catalogue.collect fs .standard rules s.root, x.1 ≠ y.1 → ¬Clash s fs x y)
    (hclash' : ∀ x ∈ Catalogue.collect fs' .standard rules' s'.root,
      ∀ y ∈ Catalogue.collect fs' .standard rules' s'.root, x.1 ≠ y.1 → ¬Clash s' fs' x y) :
    ∃ m, (∀ later, Metadata.load (program .standard now arguments fs).fs later s.indexDir = .ok m) ∧
      ∀ x ∈ Catalogue.collect fs' .standard rules' s'.root,
        Refreshed s s' fs fs' (program .standard now' arguments' fs').fs
          (Catalogue.collect fs .standard rules s.root) m x ∧
        ∀ (later : Timestamp) (again : List Text) (o'' : CommandLine.Options) (s'' : Setting),
          Asks again o'' later fs' s'' → o''.update = false ∨ o''.force = true →
          s''.root = s'.root → s''.indexDir = s'.indexDir →
          (program .standard later again fs').result = .ok 0 →
          Shows s' fs' (program .standard later again fs').fs x := by
  obtain ⟨c, hc⟩ := (hasks.succeeds hrun).course
  obtain ⟨c', hc'⟩ := (hasks'.succeeds hrun').course
  obtain rfl : c.rules = rules := Except.ok.inj (c.rules_eq.symm.trans hrules)
  obtain rfl : c'.rules = rules' := Except.ok.inj (c'.rules_eq.symm.trans hrules')
  have hcollect : Catalogue.collect fs .standard c.rules s.root = c.catalogue := by
    rw [Course.catalogue, hasks.registry_eq]
  have hcollect' : Catalogue.collect fs' .standard c'.rules s'.root = c'.catalogue := by
    rw [Course.catalogue, hasks'.registry_eq]
  rw [hcollect] at hclash
  rw [hcollect'] at hclash'
  rw [← hc] at hleaves hmarked
  rw [hcollect, hcollect', ← hc, ← hc']
  have hedited : Edited c c' :=
    { plain := hfs
      sound := hasks.sound hfs
      sound' := hasks'.sound hleaves.plain
      full := hasks.onlyChanged_of_full hfull
      update := by simp [hasks'.onlyChanged_eq, hupdate, hforce]
      registry := hasks'.registry_eq.trans hasks.registry_eq.symm
      root := hroot
      indexDir := hindex
      measured := hasks.registry_eq ▸ hmeasured
      leaves := hleaves
      listing := hlisting
      search := hsearch
      marked := hmarked
      apart := hclash
      apart' := hclash' }
  refine ⟨_, hedited.load, ?_⟩
  intro x hx
  refine ⟨hedited.refreshed hx, ?_⟩
  intro later again o'' s'' hagain hfull'' hroot'' hindex'' hrun''
  obtain ⟨c'', hc''⟩ := (hagain.succeeds hrun'').course
  have hregistry : s'.registry = s''.registry := hasks'.registry_eq.trans hagain.registry_eq.symm
  have hsame : c'.catalogue = c''.catalogue := by
    have hloads : IgnoreRules.load fs' s'.root [] = .ok c''.rules := hroot'' ▸ c''.rules_eq
    rw [Course.catalogue, Course.catalogue, hregistry, hroot'',
      Except.ok.inj (c'.rules_eq.symm.trans hloads)]
  rw [hsame] at hx hclash'
  rw [← hc'']
  exact c''.shows_of_full hleaves.plain (hagain.sound hleaves.plain)
    (hagain.onlyChanged_of_full hfull'') hregistry hroot''.symm hindex''.symm hclash' hx

theorem marked_put {loc : Location} {e : Entry} (hloc : loc ≠ [])
    (hnew : ∀ old, fs.get? loc = some old → sameMeasure (measure old) (measure e) = false) :
    Marked fs (fs.put loc e) := by
  intro key old new hold hnew' _ _ hsame
  rw [get?_put fs hloc] at hnew'
  split at hnew'
  · next heq =>
    subst heq
    cases hnew'
    rw [hnew old hold] at hsame
    cases hsame
  · rw [hold] at hnew'
    cases hnew'
    rfl

/-- The project with one file after a run, with the file written anew. -/
def revised : FileSystem :=
  (program .standard sampleSetting.now ["/p".toList] lonely).fs.put
    ["p".toList, "d".toList, "b.py".toList]
    (.file ⟨Utf8.encode "class A:".toList, .finite false (2 ^ 52) (-51), false⟩)

theorem revised_found : revised.Plain ∧
    (program .standard sampleSetting.now ["/p".toList] lonely).fs.get?
      ["p".toList, "d".toList, "b.py".toList] =
        some (.file ⟨[], .finite false (2 ^ 52) (-52), false⟩) ∧
    revised.isSearchableAt (homeOf sampleSetting.indexDir ++ [Overview.pagesName]) = true ∧
    IgnoreRules.load revised sampleUpdate.root [] =
      .ok ⟨sampleUpdate.root, IgnoreRules.builtIn⟩ ∧
    Catalogue.collect revised .standard ⟨sampleUpdate.root, IgnoreRules.builtIn⟩
      sampleUpdate.root = lonelyCatalogue ∧
    (program .standard sampleUpdate.now ["/p".toList, "--update".toList] revised).result = .ok 0 := by
  decide +kernel

/-- The update writes the page on the directory anew. -/
theorem revised_refreshed : Shows sampleUpdate revised
    (program .standard sampleUpdate.now ["/p".toList, "--update".toList] revised).fs
    ("d".toList, [⟨.root, ["p".toList, "d".toList, "b.py".toList]⟩]) := by
  obtain ⟨hplain, hmeasured, hrules, hcollect, hrun, hafter⟩ := lonely_found
  obtain ⟨hplain', hfile, hsearch, hrules', hcollect', hrun'⟩ := revised_found
  have hleaves : LeavesIndex sampleSetting.indexDir
      (program .standard sampleSetting.now ["/p".toList] lonely).fs revised :=
    .put hafter ⟨rfl, by decide⟩ hplain' (by decide) (by decide)
  have hlisting : revised.host.listing = lonely.host.listing := by
    obtain ⟨c, hc⟩ := ((asks_sample hplain).succeeds hrun).course
    have hs := (asks_sample hplain).sound hplain
    obtain ⟨K, hK⟩ := c.exists_places hplain hs
    rw [revised, put_host, ← hc, c.saved_host hplain hs hK]
  have hmarked : Marked (program .standard sampleSetting.now ["/p".toList] lonely).fs revised := by
    apply marked_put (by simp)
    intro old hold
    rw [hfile] at hold
    cases hold
    decide
  have hclash : ∀ (s : Setting) (fs : FileSystem), ∀ x ∈ lonelyCatalogue, ∀ y ∈ lonelyCatalogue,
      x.1 ≠ y.1 → ¬Clash s fs x y := by
    intro s fs x hx y hy hne
    rw [List.mem_singleton.1 hx, List.mem_singleton.1 hy] at hne
    exact absurd rfl hne
  obtain ⟨m, -, hall⟩ := update_refreshes_pages hplain hmeasured (asks_sample hplain) (.inl rfl) hrules
    hrun hleaves hlisting hsearch hmarked (asks_sampleUpdate hplain') rfl rfl rfl rfl hrules' hrun'
    (hcollect.symm ▸ hclash _ _) (hcollect'.symm ▸ hclash _ _)
  rw [hcollect, hcollect'] at hall
  refine (hall _ List.mem_cons_self).1.kept ?_ ?_
  · intro p hp
    exact .inl ⟨_, List.mem_cons_self, hp⟩
  · intro y hy _ p hp
    rw [List.mem_singleton.1 hy] at hp
    exact hp

/-- A project with two files in a directory. -/
def paired : FileSystem :=
  lonely.put ["p".toList, "d".toList, "a.py".toList]
    (.file ⟨[], .finite false (2 ^ 52) (-52), false⟩)

/-- The project after a run, with one of the files removed. -/
def halved : FileSystem :=
  (program .standard sampleSetting.now ["/p".toList] paired).fs.erase
    ["p".toList, "d".toList, "b.py".toList]

/-- The update leaves the page of before, which is not the one that a full run would write. -/
theorem halved_keeps_page :
    (program .standard sampleSetting.now ["/p".toList] paired).result = .ok 0 ∧
      (program .standard sampleUpdate.now ["/p".toList, "--update".toList] halved).result = .ok 0 ∧
      ∃ x ∈ Catalogue.collect halved .standard ⟨sampleUpdate.root, IgnoreRules.builtIn⟩
          sampleUpdate.root, ∃ f ∈ pagesOf sampleUpdate halved x,
        (program .standard sampleUpdate.now ["/p".toList, "--update".toList] halved).fs.read
          (sampleUpdate.pagesDir.child f.1) ≠ .ok (Utf8.encode f.2) := by
  decide +kernel

end Indexing

end CodeIndex
