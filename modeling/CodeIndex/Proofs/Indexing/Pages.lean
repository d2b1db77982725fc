import CodeIndex.Proofs.Metadata.Records
import CodeIndex.Proofs.Page.Directory
import CodeIndex.Proofs.Page.Write

/-!
# The pages of a run

Pages are no files that can be outlined, so writing them keeps all that later pages and records are
made from. What a run over directories leaves is therefore said by the file system it started from:
the pages of all of them, and the records of all their files.
-/

namespace CodeIndex

open FileSystem

/-- One file system keeps the directories of another and its files that can be outlined. -/
structure KeepsSources (registry : Registry) (fs fs' : FileSystem) : Prop where
  plain : fs'.Plain
  dirs : KeepsDirs fs fs'
  sources : ∀ (p : Path) (e : Entry), (registry.languageOf? p).isSome → fs.get? p.names = some e →
    fs'.get? p.names = some e

theorem FileSystem.AddsDirs.keepsSources {registry : Registry} {fs fs' : FileSystem}
    {place : Location → Prop} (h : AddsDirs fs fs' place) : KeepsSources registry fs fs' :=
  ⟨h.plain, h.keepsDirs, fun _ _ _ hget => h.kept _ _ hget⟩

namespace KeepsSources

variable {registry : Registry} {fs fs' fs'' : FileSystem} {root p : Path}

theorem refl (h : fs.Plain) : KeepsSources registry fs fs := ⟨h, .refl fs, fun _ _ _ hget => hget⟩

theorem trans (h : KeepsSources registry fs fs') (h' : KeepsSources registry fs' fs'') :
    KeepsSources registry fs fs'' :=
  ⟨h'.plain, h.dirs.trans h'.dirs, fun p e hp hget => h'.sources p e hp (h.sources p e hp hget)⟩

theorem get?_listed (h : KeepsSources registry fs fs') (hp : Catalogue.Listed fs registry root p) :
    fs'.get? p.names = fs.get? p.names := by
  obtain ⟨e, hget⟩ := hp.entry
  rw [hget, h.sources p e hp.language hget]

theorem agreeAlong (h : KeepsSources registry fs fs') (hfs : fs.Plain)
    (hp : Catalogue.Listed fs registry root p) : AgreeAlong fs fs' p.names := by
  obtain ⟨e, hget⟩ := hp.entry
  exact h.dirs.agreeAlong hfs hget ((h.get?_listed hp).trans hget)

theorem listed (h : KeepsSources registry fs fs') (hfs : fs.Plain)
    (hp : Catalogue.Listed fs registry root p) : Catalogue.Listed fs' registry root p := by
  refine ⟨hp.isProper, hp.below, ?_, hp.language, ?_⟩
  · rw [h.get?_listed hp]
    exact hp.entry
  · rw [← isDir_congr hfs h.plain hp.isProper (h.agreeAlong hfs hp)]
    exact hp.notDir

theorem look (h : KeepsSources registry fs fs') (hfs : fs.Plain)
    (hp : Catalogue.Listed fs registry root p) : fs'.look p = fs.look p :=
  (look_congr hfs h.plain hp.isProper (h.agreeAlong hfs hp)).symm

theorem read (h : KeepsSources registry fs fs') (hfs : fs.Plain)
    (hp : Catalogue.Listed fs registry root p) : fs'.read p = fs.read p :=
  (read_congr hfs h.plain hp.isProper (h.agreeAlong hfs hp)).symm

end KeepsSources

namespace Indexing

open Metadata

variable {s : Setting} {fs fs' : FileSystem} {L : Location} {m m' : Metadata}
  {x y : Text × List Path} {xs : Catalogue} {files : List (Text × Text)}

/-- The files that the page on a directory is written to, with their texts. -/
def pagesOf (s : Setting) (fs : FileSystem) (x : Text × List Path) : List (Text × Text) :=
  Page.pageFiles (pageBase x.1) (Page.textOf fs s.registry s.root x.1 x.2)

theorem pagesOf_ne_nil (s : Setting) (fs : FileSystem) (x : Text × List Path) :
    pagesOf s fs x ≠ [] :=
  Page.pageFiles_ne_nil _ _

/-- The page that the records of a directory's files name. -/
def lastPage (s : Setting) (fs : FileSystem) (x : Text × List Path) : Text :=
  Page.shownName Overview.pagesName ((pagesOf s fs x).getLast (pagesOf_ne_nil s fs x)).1

/-- The records with those of all files of some directories. -/
def recordsOf (s : Setting) (fs : FileSystem) (xs : Catalogue) (fields : Json.Fields) :
    Json.Fields :=
  xs.foldl (fun fields x => recordAll fs (lastPage s fs x) x.2 fields) fields

/-- Writes the pages on all of some directories. -/
def indexAll (s : Setting) (m : Metadata) (xs : Catalogue) : Action Metadata :=
  xs.foldlM (fun m x => indexDirectory s m x.1 x.2) m

/-- A file system in which pages on some directories can be made: the pages have their place, and the
files are there. -/
structure Ready (s : Setting) (fs : FileSystem) (L : Location) (xs : Catalogue) : Prop where
  pages : fs.PagesAt s.pagesDir L
  spares : s.registry.SparesPages
  root : s.root.IsProper
  listed : ∀ x ∈ xs, ∀ p ∈ x.2, Catalogue.Listed fs s.registry s.root p
  nonempty : ∀ x ∈ xs, x.2 ≠ []
  base : ∀ x ∈ xs, Page.IsBase (pageBase x.1)

theorem Ready.mono {ys : Catalogue} (h : Ready s fs L xs) (hsub : ∀ y ∈ ys, y ∈ xs) :
    Ready s fs L ys :=
  ⟨h.pages, h.spares, h.root, fun y hy => h.listed y (hsub y hy),
    fun y hy => h.nonempty y (hsub y hy), fun y hy => h.base y (hsub y hy)⟩

theorem keepsSources_putTexts (h : fs.PagesAt s.pagesDir L) (hspares : s.registry.SparesPages)
    (hacc : ∀ f ∈ files, fs.Accepts s.pagesDir L f.1)
    (hmd : ∀ f ∈ files, ∃ stem, f.1 = stem ++ ".md".toList) :
    KeepsSources s.registry fs (fs.putTexts L files) := by
  refine ⟨(h.putTexts hacc).1.plain, keepsDirs_putTexts hacc, fun p e hp hget => ?_⟩
  refine (get?_putTexts_of_ne fs L files fun f hf hloc => ?_).trans hget
  obtain ⟨stem, hstem⟩ := hmd f hf
  have hname : p.name = stem ++ ".md".toList := by simp [Path.name, hloc, hstem]
  rw [hspares.pages p stem hname] at hp
  cases hp

theorem md_of_mem_pagesOf {f : Text × Text} (hf : f ∈ pagesOf s fs x) :
    ∃ stem, f.1 = stem ++ ".md".toList := by
  obtain ⟨stem, -, hstem⟩ := Page.exists_stem hf
  exact ⟨stem, hstem⟩

theorem pagesOf_congr (hk : KeepsSources s.registry fs fs') (h : fs.Plain)
    (hx : ∀ p ∈ x.2, Catalogue.Listed fs s.registry s.root p) :
    pagesOf s fs' x = pagesOf s fs x := by
  unfold pagesOf
  rw [Page.textOf_congr fun p hp => hk.read h (hx p hp)]

theorem lastPage_congr (heq : pagesOf s fs' x = pagesOf s fs x) :
    lastPage s fs' x = lastPage s fs x := by
  unfold lastPage
  simp only [heq]

theorem recordsOf_congr (hk : KeepsSources s.registry fs fs') (h : fs.Plain)
    (hxs : ∀ x ∈ xs, ∀ p ∈ x.2, Catalogue.Listed fs s.registry s.root p) :
    recordsOf s fs' xs = recordsOf s fs xs := by
  funext fields
  unfold recordsOf
  refine List.foldl_ext _ _ _ fun fields x hx => ?_
  rw [lastPage_congr (pagesOf_congr hk h (hxs x hx))]
  exact recordAll_congr fun p hp => hk.get?_listed (hxs x hx p hp)

theorem flatMap_pagesOf_congr (hk : KeepsSources s.registry fs fs') (h : fs.Plain)
    (hxs : ∀ x ∈ xs, ∀ p ∈ x.2, Catalogue.Listed fs s.registry s.root p) :
    xs.flatMap (pagesOf s fs') = xs.flatMap (pagesOf s fs) := by
  rw [List.flatMap_def, List.flatMap_def,
    List.map_congr_left fun x hx => pagesOf_congr hk h (hxs x hx)]

theorem Ready.putTexts (h : Ready s fs L xs) (hacc : ∀ f ∈ files, fs.Accepts s.pagesDir L f.1)
    (hmd : ∀ f ∈ files, ∃ stem, f.1 = stem ++ ".md".toList) :
    Ready s (fs.putTexts L files) L xs := by
  have hk := keepsSources_putTexts h.pages h.spares hacc hmd
  exact { h with
    pages := (h.pages.putTexts hacc).1
    listed := fun x hx p hp => hk.listed h.pages.plain (h.listed x hx p hp) }

@[simp]
theorem indexDirectory_quiet (s : Setting) (m : Metadata) (key : Text) (files : List Path) :
    (indexDirectory s m key files).Quiet :=
  (Action.Quiet.print _).bind fun _ => (Action.Quiet.ask _).bind fun _ =>
    (Page.write_quiet _ _ _).bind fun _ => Action.Quiet.ask _

/-- Pages on all of some directories can be written and recorded: their names are accepted, and
every file is seen. -/
structure Indexable (s : Setting) (fs : FileSystem) (L : Location) (xs : Catalogue) : Prop where
  accepts : ∀ x ∈ xs, ∀ f ∈ pagesOf s fs x, fs.Accepts s.pagesDir L f.1
  seen : ∀ x ∈ xs, ∀ p ∈ x.2, ∃ e, fs.look p = .ok (some e)

theorem indexable_cons :
    Indexable s fs L (x :: xs) ↔ Indexable s fs L [x] ∧ Indexable s fs L xs := by
  constructor
  · rintro ⟨hacc, hseen⟩
    rw [List.forall_mem_cons] at hacc hseen
    exact ⟨⟨List.forall_mem_singleton.2 hacc.1, List.forall_mem_singleton.2 hseen.1⟩, hacc.2,
      hseen.2⟩
  · rintro ⟨⟨hacc, hseen⟩, ⟨haccs, hseens⟩⟩
    exact ⟨List.forall_mem_cons.2 ⟨List.forall_mem_singleton.1 hacc, haccs⟩,
      List.forall_mem_cons.2 ⟨List.forall_mem_singleton.1 hseen, hseens⟩⟩

/-- Pages that are written change nothing in which pages can be. -/
theorem indexable_putTexts (h : Ready s fs L xs)
    (hacc : ∀ f ∈ files, fs.Accepts s.pagesDir L f.1)
    (hmd : ∀ f ∈ files, ∃ stem, f.1 = stem ++ ".md".toList) :
    Indexable s (fs.putTexts L files) L xs ↔ Indexable s fs L xs := by
  have hk := keepsSources_putTexts h.pages h.spares hacc hmd
  have hiff := (h.pages.putTexts hacc).2
  have hlook := fun x hx p hp => hk.look h.pages.plain (h.listed x hx p hp)
  constructor
  · rintro ⟨haccs, hseen⟩
    refine ⟨fun x hx f hf => (hiff f.1).1 (haccs x hx f ?_), fun x hx p hp => ?_⟩
    · rw [pagesOf_congr hk h.pages.plain (h.listed x hx)]
      exact hf
    · exact hlook x hx p hp ▸ hseen x hx p hp
  · rintro ⟨haccs, hseen⟩
    refine ⟨fun x hx f hf => (hiff f.1).2 (haccs x hx f ?_), fun x hx p hp => ?_⟩
    · rw [← pagesOf_congr hk h.pages.plain (h.listed x hx)]
      exact hf
    · exact (hlook x hx p hp).symm ▸ hseen x hx p hp

/-- Recording comes after the pages are written, which does not show in what is recorded. -/
theorem recordFiles_putTexts_ok_iff (h : Ready s fs L xs) (hx : x ∈ xs)
    (hacc : ∀ f ∈ pagesOf s fs x, fs.Accepts s.pagesDir L f.1) :
    recordFiles m (fs.putTexts L (pagesOf s fs x)) x.2
        ((pagesOf s fs x).map fun f => Page.shownName Overview.pagesName f.1) = .ok m' ↔
      (∀ p ∈ x.2, ∃ e, fs.look p = .ok (some e)) ∧ m.HasRecords ∧
        m' = m.mapRecords (recordAll fs (lastPage s fs x) x.2) := by
  have hk := keepsSources_putTexts h.pages h.spares hacc fun f hf => md_of_mem_pagesOf hf
  have hlisted := fun p hp => hk.listed h.pages.plain (h.listed x hx p hp)
  have hlook : ∀ p ∈ x.2, (fs.putTexts L (pagesOf s fs x)).look p = fs.look p :=
    fun p hp => hk.look h.pages.plain (h.listed x hx p hp)
  have hall : recordAll (fs.putTexts L (pagesOf s fs x)) (lastPage s fs x) x.2 =
      recordAll fs (lastPage s fs x) x.2 :=
    funext fun _ => recordAll_congr fun p hp => hk.get?_listed (h.listed x hx p hp)
  have hpages : ((pagesOf s fs x).map fun f => Page.shownName Overview.pagesName f.1) ≠ [] := by
    simpa using pagesOf_ne_nil s fs x
  have hlast : ((pagesOf s fs x).map fun f => Page.shownName Overview.pagesName f.1).getLast hpages =
      lastPage s fs x := List.getLast_map _
  rw [recordFiles_ok_iff hk.plain (fun p hp => (hlisted p hp).isProper)
    (fun p hp => (hlisted p hp).entry) hpages, hlast, hall]
  constructor
  · rintro ⟨hlooks, hrec, rfl⟩
    exact ⟨fun p hp => hlook p hp ▸ hlooks p hp, hrec (h.nonempty x hx), rfl⟩
  · rintro ⟨hlooks, hrec, rfl⟩
    exact ⟨fun p hp => (hlook p hp).symm ▸ hlooks p hp, fun _ => hrec, rfl⟩

/-- One directory: its pages are put, and its files are recorded on the last of them. -/
theorem indexDirectory_on_ok_iff (h : Ready s fs L xs) (hx : x ∈ xs) :
    (indexDirectory s m x.1 x.2).on fs = .ok (m', fs') ↔
      Indexable s fs L [x] ∧ m.HasRecords ∧
        m' = m.mapRecords (recordAll fs (lastPage s fs x) x.2) ∧
        fs' = fs.putTexts L (pagesOf s fs x) := by
  have htext : Page.ofDirectory fs s.registry s.root x.1 x.2 =
      .ok (Page.textOf fs s.registry s.root x.1 x.2) :=
    Page.ofDirectory_eq fun p hp => Page.relativeTo?_of_listed h.root (h.listed x hx p hp)
  unfold indexDirectory
  rw [Action.on_print_bind fun _ => (Action.Quiet.ask _).bind fun _ =>
      (Page.write_quiet _ _ _).bind fun _ => Action.Quiet.ask _,
    Action.on_ask_bind_ok_iff fun _ => (Page.write_quiet _ _ _).bind fun _ => Action.Quiet.ask _]
  simp only [htext, Except.ok.injEq, exists_eq_left']
  rw [Action.on_bind_ok_iff fun _ => Action.Quiet.ask _]
  simp only [Action.on_ask_ok_iff]
  constructor
  · rintro ⟨pages, fs₁, hwrite, hrecord, rfl⟩
    obtain ⟨hacc, rfl, rfl⟩ :=
      (Page.write_on_ok_iff h.pages (by decide) (h.base x hx)).1 hwrite
    obtain ⟨hlook, hrec, rfl⟩ := (recordFiles_putTexts_ok_iff h hx hacc).1 hrecord
    exact ⟨⟨List.forall_mem_singleton.2 hacc, List.forall_mem_singleton.2 hlook⟩, hrec, rfl, rfl⟩
  · rintro ⟨⟨haccs, hlooks⟩, hrec, rfl, rfl⟩
    have hacc := haccs x List.mem_cons_self
    have hlook := hlooks x List.mem_cons_self
    refine ⟨_, _, (Page.write_on_ok_iff h.pages (by decide) (h.base x hx)).2 ⟨hacc, rfl, rfl⟩,
      (recordFiles_putTexts_ok_iff h hx hacc).2 ⟨hlook, hrec, rfl⟩, rfl⟩

@[simp]
theorem indexAll_quiet (s : Setting) (m : Metadata) (xs : Catalogue) : (indexAll s m xs).Quiet := by
  refine Action.Quiet.foldlM (fun m x => ?_) m xs
  exact indexDirectory_quiet s m x.1 x.2

theorem indexAll_cons_on_ok_iff :
    (indexAll s m (x :: xs)).on fs = .ok (m', fs') ↔
      ∃ m₁ fs₁, (indexDirectory s m x.1 x.2).on fs = .ok (m₁, fs₁) ∧
        (indexAll s m₁ xs).on fs₁ = .ok (m', fs') := by
  rw [indexAll, List.foldlM_cons]
  exact Action.on_bind_ok_iff fun m₁ => indexAll_quiet s m₁ xs

/-- All directories: every page is the one that the first file system asks for. -/
theorem indexAll_on_ok_iff (h : Ready s fs L xs) :
    (indexAll s m xs).on fs = .ok (m', fs') ↔
      Indexable s fs L xs ∧ (xs ≠ [] → m.HasRecords) ∧ m' = m.mapRecords (recordsOf s fs xs) ∧
        fs' = fs.putTexts L (xs.flatMap (pagesOf s fs)) := by
  induction xs generalizing fs m with
  | nil =>
    have hid : recordsOf s fs [] = id := rfl
    have hnil : Indexable s fs L [] := ⟨by simp, by simp⟩
    simp only [indexAll, List.foldlM_nil, Action.on_pure, Except.ok.injEq, Prod.mk.injEq, hid,
      mapRecords_id, List.flatMap_nil, putTexts_nil, hnil, ne_eq, not_true_eq_false,
      false_implies, true_and]
    exact and_congr eq_comm eq_comm
  | cons x xs ih =>
    have hx : x ∈ x :: xs := List.mem_cons_self
    have hrest := h.mono fun y hy => List.mem_cons_of_mem x hy
    -- the other directories find after the first one what they would have found before it
    have hlater : Indexable s fs L [x] → ∀ m₁ : Metadata,
        ((indexAll s m₁ xs).on (fs.putTexts L (pagesOf s fs x)) = .ok (m', fs') ↔
          Indexable s fs L xs ∧ (xs ≠ [] → m₁.HasRecords) ∧
            m' = m₁.mapRecords (recordsOf s fs xs) ∧
            fs' = fs.putTexts L (pagesOf s fs x ++ xs.flatMap (pagesOf s fs))) := by
      intro hok m₁
      have hacc := hok.accepts x List.mem_cons_self
      have hmd : ∀ f ∈ pagesOf s fs x, ∃ stem, f.1 = stem ++ ".md".toList :=
        fun f hf => md_of_mem_pagesOf hf
      have hk := keepsSources_putTexts h.pages h.spares hacc hmd
      rw [ih (hrest.putTexts hacc hmd), indexable_putTexts hrest hacc hmd,
        recordsOf_congr hk h.pages.plain hrest.listed,
        flatMap_pagesOf_congr hk h.pages.plain hrest.listed, putTexts_append]
    rw [indexAll_cons_on_ok_iff, indexable_cons]
    simp only [indexDirectory_on_ok_iff h hx]
    constructor
    · rintro ⟨m₁, fs₁, ⟨hok, hrec, rfl, rfl⟩, hall⟩
      obtain ⟨hoks, -, rfl, rfl⟩ := (hlater hok _).1 hall
      refine ⟨⟨hok, hoks⟩, fun _ => hrec, ?_, rfl⟩
      rw [mapRecords_mapRecords]
      rfl
    · rintro ⟨⟨hok, hoks⟩, hrec, rfl, rfl⟩
      have hrec := hrec (List.cons_ne_nil x xs)
      refine ⟨_, _, ⟨hok, hrec, rfl, rfl⟩, (hlater hok _).2 ⟨hoks, fun _ => ?_, ?_, rfl⟩⟩
      · exact hasRecords_mapRecords.2 hrec
      · rw [mapRecords_mapRecords]
        rfl

end Indexing

end CodeIndex
