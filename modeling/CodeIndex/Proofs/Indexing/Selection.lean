import CodeIndex.Proofs.Indexing.Run

/-!
# Which directories an update writes

An update decides directory by directory, and what it has written and recorded for one does not show in
the decision on another. It is therefore a full run over the directories in which, at the start, some
file had no record or another one than it should have.
-/

namespace CodeIndex

namespace Metadata

open Json

variable {m : Metadata} {fs fs' : FileSystem} {p : Path} {g : Fields → Fields} {b : Bool}

/-- The record under a key, if there is one. -/
def recordAt? (m : Metadata) (key : Letters) : Option Json :=
  match m.files with
  | .obj fields => field? fields key
  | _ => none

/-- Whether a file is there and has no record, an empty one, or one that tells another modification
time or size. -/
def isChanged (m : Metadata) (fs : FileSystem) (p : Path) : Bool :=
  match fs.look p with
  | .ok (some e) =>
    match m.recordAt? (letters p.toText) with
    | some (.obj fields) => fields.isEmpty || !agrees fields e
    | _ => true
  | _ => false

theorem isChanged_of_needsIndex (hp : p.IsProper) (h : m.needsIndex fs p.toText = .ok b) :
    m.isChanged fs p = b := by
  unfold needsIndex at h
  rw [hp.ofText_toText] at h
  obtain ⟨e?, hlook, h⟩ := bind_ok_iff.1 h
  unfold isChanged
  rw [hlook]
  cases e? with
  | none => simpa [pure, Except.pure] using h
  | some e =>
    obtain ⟨fields, hrecords, h⟩ := bind_ok_iff.1 h
    have hfiles : m.files = .obj fields := by
      unfold records at hrecords
      split at hrecords
      · next hobj =>
        cases hrecords
        exact hobj
      · cases hrecords
    simp only [recordAt?, hfiles]
    cases hfield : field? fields (letters p.toText) with
    | none => simpa [hfield, pure, Except.pure] using h
    | some r =>
      simp only [hfield] at h
      cases hset : r.isSet with
      | false =>
        have htrue : b = true := by simpa [hset, pure, Except.pure] using h.symm
        cases r <;> simp_all [isSet]
      | true =>
        simp only [hset, if_true] at h
        obtain ⟨rfields, hr, hpure⟩ := bind_ok_iff.1 h
        have hobj : r = .obj rfields := by
          unfold recordFields at hr
          split at hr
          · cases hr
            rfl
          · cases hr
        subst hobj
        have hne : rfields.isEmpty = false := by simpa [isSet] using hset
        simpa [hne, pure, Except.pure] using hpure

theorem recordAt?_mapRecords {key : Letters} (hg : ∀ fields, field? (g fields) key = field? fields key) :
    (m.mapRecords g).recordAt? key = m.recordAt? key := by
  cases hfiles : m.files with
  | obj fields => simp [recordAt?, mapRecords_files hfiles, hfiles, hg]
  | _ => simp [recordAt?, mapRecords, hfiles]

/-- Changing other records and keeping a file changes nothing in whether it has changed. -/
theorem isChanged_mapRecords (hlook : fs'.look p = fs.look p)
    (hg : ∀ fields, field? (g fields) (letters p.toText) = field? fields (letters p.toText)) :
    (m.mapRecords g).isChanged fs' p = m.isChanged fs p := by
  unfold isChanged
  rw [hlook, recordAt?_mapRecords hg]

end Metadata

namespace Indexing

open Metadata FileSystem

variable {s : Setting} {fs fs' : FileSystem} {L : Location} {m m' : Metadata}
  {x y : Text × List Path} {xs : Catalogue} {files : List Path} {b : Bool}

/-- Whether an update writes the page on a directory: some file in it has changed. -/
def isSelected (m : Metadata) (fs : FileSystem) (x : Text × List Path) : Bool :=
  x.2.any (m.isChanged fs)

theorem any_isChanged (hproper : ∀ p ∈ files, p.IsProper) (h : anyChanged m fs files = .ok b) :
    files.any (m.isChanged fs) = b := by
  induction files with
  | nil => simpa [anyChanged] using h
  | cons p files ih =>
    rw [anyChanged, bind_ok_iff] at h
    obtain ⟨changed, hneeds, hrest⟩ := h
    rw [List.any_cons, isChanged_of_needsIndex (hproper p List.mem_cons_self) hneeds]
    cases changed with
    | true => simpa [pure, Except.pure] using hrest
    | false => exact ih (fun q hq => hproper q (List.mem_cons_of_mem _ hq)) hrest

/-- Two directories have no file in common. -/
def Apart (x y : Text × List Path) : Prop := ∀ p ∈ x.2, p ∉ y.2

theorem pairwise_apart_collect {rules : IgnoreRules} (h : fs.Plain) (hroot : s.root.IsProper) :
    (Catalogue.collect fs s.registry rules s.root).Pairwise Apart := by
  have hkeys : ((Catalogue.collect fs s.registry rules s.root).map Prod.fst).Nodup :=
    Catalogue.nodup_keys h hroot
  rw [List.Nodup, List.pairwise_map] at hkeys
  refine hkeys.imp_of_mem fun {x y} hx hy hne p hp hp' => hne ?_
  rw [Catalogue.eq_of_mem_of_mem h hroot hx hy hp hp']

theorem visitDirectory_ok_iff (hupdate : s.onlyChanged = true) {σ σ' : Session} :
    visitDirectory s m x σ = .ok m' σ' ↔
      ∃ b, anyChanged m σ.fs x.2 = .ok b ∧
        (if b then indexDirectory s m x.1 x.2 else pure m) σ = .ok m' σ' := by
  simp only [visitDirectory, hupdate, if_true, Action.bind_ok_iff, Action.ask_ok_iff]
  constructor
  · rintro ⟨b, σ₁, ⟨hany, rfl⟩, hrest⟩
    exact ⟨b, hany, hrest⟩
  · rintro ⟨b, hany, hrest⟩
    exact ⟨b, σ, ⟨hany, rfl⟩, hrest⟩

/-- What is recorded for one directory leaves the records of files elsewhere. -/
theorem field?_recordAll_apart (hx : ∀ p ∈ x.2, p.IsProper) (hy : ∀ p ∈ y.2, p.IsProper)
    (hapart : Apart x y) {page : Text} {p : Path} (hp : p ∈ y.2) (fields : Json.Fields) :
    Json.field? (recordAll fs page x.2 fields) (Json.letters p.toText) =
      Json.field? fields (Json.letters p.toText) := by
  refine field?_recordAll_of_notMem fun q hq heq => ?_
  have hpq : p = q := (hy p hp).toText_injective (hx q hq) (letters_injective heq)
  exact hapart q hq (hpq ▸ hp)

/-- After one directory has been indexed, the decision on another is the one of before. -/
theorem isSelected_after (h : Ready s fs L xs) (hx : x ∈ xs) (hy : y ∈ xs) (hapart : Apart x y)
    (hk : KeepsSources s.registry fs fs') (page : Text) :
    isSelected (m.mapRecords (recordAll fs page x.2)) fs' y = isSelected m fs y := by
  have hproper : ∀ x ∈ xs, ∀ p ∈ x.2, p.IsProper := fun x hx p hp => (h.listed x hx p hp).isProper
  unfold isSelected
  rw [Bool.eq_iff_iff, List.any_eq_true, List.any_eq_true]
  refine exists_congr fun p => and_congr_right fun hp => ?_
  rw [isChanged_mapRecords (hk.look h.pages.plain (h.listed y hy p hp))
    (field?_recordAll_apart (hproper x hx) (hproper y hy) hapart hp)]

/-- After one directory has been indexed, the files are as they were and the others can be. -/
theorem ready_after (h : Ready s fs L xs) (hx : x ∈ xs) {out out' : Text}
    (hok : indexDirectory s m x.1 x.2 ⟨fs, out⟩ = .ok m' ⟨fs', out'⟩) :
    m' = m.mapRecords (recordAll fs (lastPage s fs x) x.2) ∧ KeepsSources s.registry fs fs' ∧
      Ready s fs' L xs := by
  have hon := ((indexDirectory_quiet s m x.1 x.2).on_ok_iff out).2 ⟨out', hok⟩
  obtain ⟨hokx, -, hrecords, rfl⟩ := (indexDirectory_on_ok_iff h hx).1 hon
  have hacc := hokx.accepts x List.mem_cons_self
  have hmd : ∀ f ∈ pagesOf s fs x, ∃ stem, f.1 = stem ++ ".md".toList :=
    fun f hf => md_of_mem_pagesOf hf
  exact ⟨hrecords, keepsSources_putTexts h.pages h.spares hacc hmd, h.putTexts hacc hmd⟩

/-- An update is a run over the directories that were selected at its start. -/
theorem indexAll_of_visits (h : Ready s fs L xs) (hapart : xs.Pairwise Apart)
    (hupdate : s.onlyChanged = true) {out : Text} {σ : Session}
    (hok : (xs.foldlM (visitDirectory s) m) ⟨fs, out⟩ = .ok m' σ) :
    indexAll s m (xs.filter (isSelected m fs)) ⟨fs, out⟩ = .ok m' σ := by
  induction xs generalizing fs m out with
  | nil => exact hok
  | cons x xs ih =>
    obtain ⟨hxapart, hapart⟩ := List.pairwise_cons.1 hapart
    have hx : x ∈ x :: xs := List.mem_cons_self
    have hrest := h.mono fun y hy => List.mem_cons_of_mem x hy
    rw [List.foldlM_cons] at hok
    obtain ⟨m₁, ⟨fs₁, out₁⟩, hvisit, hok⟩ := Action.bind_ok_iff.1 hok
    obtain ⟨b, hany, hvisit⟩ := (visitDirectory_ok_iff hupdate).1 hvisit
    have hselected : isSelected m fs x = b :=
      any_isChanged (fun p hp => (h.listed x hx p hp).isProper) hany
    cases b with
    | false =>
      cases hvisit
      rw [List.filter_cons_of_neg (by simp [hselected])]
      exact ih hrest hapart hok
    | true =>
      have hindex : indexDirectory s m x.1 x.2 ⟨fs, out⟩ = .ok m₁ ⟨fs₁, out₁⟩ := hvisit
      obtain ⟨rfl, hk, hready⟩ := ready_after h hx hindex
      -- the decisions to come are those of the start
      have hsame : xs.filter (isSelected (m.mapRecords (recordAll fs (lastPage s fs x) x.2))
          fs₁) = xs.filter (isSelected m fs) := by
        exact List.filter_congr fun y hy =>
          isSelected_after h hx (List.mem_cons_of_mem x hy) (hxapart y hy) hk _
      rw [List.filter_cons_of_pos (by simp [hselected])]
      refine Action.bind_ok_iff.2 ⟨_, _, hindex, ?_⟩
      have hlater := ih (hready.mono fun y hy => List.mem_cons_of_mem x hy) hapart hok
      rwa [hsame] at hlater

theorem recordsOf_cons (fields : Json.Fields) :
    recordsOf s fs (x :: xs) fields =
      recordsOf s fs xs (recordAll fs (lastPage s fs x) x.2 fields) := rfl

theorem field?_recordsOf_of_notMem {key : Json.Letters} {fields : Json.Fields}
    (hkey : ∀ x ∈ xs, ∀ p ∈ x.2, key ≠ Json.letters p.toText) :
    Json.field? (recordsOf s fs xs fields) key = Json.field? fields key := by
  induction xs generalizing fields with
  | nil => rfl
  | cons x xs ih =>
    rw [recordsOf_cons, ih fun y hy => hkey y (List.mem_cons_of_mem x hy),
      field?_recordAll_of_notMem (hkey x List.mem_cons_self)]

/-- Every file of the directories has its record. -/
theorem field?_recordsOf_of_mem {fields : Json.Fields} {p : Path}
    (hproper : ∀ x ∈ xs, ∀ p ∈ x.2, p.IsProper) (hnodup : ∀ x ∈ xs, x.2.Nodup)
    (hapart : xs.Pairwise Apart) (hx : x ∈ xs) (hp : p ∈ x.2) :
    Json.field? (recordsOf s fs xs fields) (Json.letters p.toText) =
      some (recordOf fs (lastPage s fs x) p) := by
  induction xs generalizing fields with
  | nil => cases hx
  | cons y xs ih =>
    obtain ⟨hyapart, hapart⟩ := List.pairwise_cons.1 hapart
    have hrest : ∀ z ∈ xs, z ∈ y :: xs := fun z hz => List.mem_cons_of_mem y hz
    rw [recordsOf_cons]
    rcases List.mem_cons.1 hx with rfl | hx
    · rw [field?_recordsOf_of_notMem fun z hz q hq heq => ?_,
        field?_recordAll_of_mem (hproper x List.mem_cons_self) (hnodup x List.mem_cons_self) hp]
      have hpq : p = q := (hproper x List.mem_cons_self p hp).toText_injective
        (hproper z (hrest z hz) q hq) (letters_injective heq)
      exact hyapart z hz p hp (hpq ▸ hq)
    · exact ih (fun z hz => hproper z (hrest z hz)) (fun z hz => hnodup z (hrest z hz)) hapart hx

theorem isSelected_congr (hk : KeepsSources s.registry fs fs') (h : fs.Plain)
    (hx : ∀ p ∈ x.2, Catalogue.Listed fs s.registry s.root p) :
    isSelected m fs' x = isSelected m fs x := by
  unfold isSelected
  rw [Bool.eq_iff_iff, List.any_eq_true, List.any_eq_true]
  refine exists_congr fun p => and_congr_right fun hp => ?_
  unfold isChanged
  rw [hk.look h (hx p hp)]

namespace Course

variable {K : Location}

/-- The directories that a run writes pages on: all of them, or those that an update selects. -/
def indexed (c : Course s fs) : Catalogue :=
  if s.onlyChanged then c.catalogue.filter (isSelected c.old fs) else c.catalogue

theorem indexed_of_full (hfull : s.onlyChanged = false) (c : Course s fs) :
    c.indexed = c.catalogue := by
  rw [indexed, hfull]
  rfl

theorem indexed_sublist (c : Course s fs) : c.indexed.Sublist c.catalogue := by
  unfold indexed
  split
  · exact List.filter_sublist
  · exact List.Sublist.refl _

theorem mem_catalogue_of_mem_indexed (c : Course s fs) (hx : x ∈ c.indexed) : x ∈ c.catalogue :=
  c.indexed_sublist.subset hx

/-- A run is one over the directories it writes pages on. -/
theorem loop_eq (h : fs.Plain) (hs : s.Sound) (c : Course s fs) (hK : c.Places K) (out : Text) :
    (c.catalogue.foldlM (visitDirectory s) c.start) ⟨c.begun, out⟩ =
      indexAll s c.start c.indexed ⟨c.begun, out⟩ := by
  have hquiet : Action.Quiet (c.catalogue.foldlM (visitDirectory s) c.start) :=
    Action.Quiet.foldlM (visitDirectory_quiet s) _ _
  cases hmode : s.onlyChanged with
  | false =>
    rw [visitDirectory_of_full hmode, indexed, hmode]
    rfl
  | true =>
    obtain ⟨out', hok⟩ := (hquiet.on_ok_iff out).1 c.paged_eq
    have hselected : c.catalogue.filter (isSelected c.start c.begun) = c.indexed := by
      rw [indexed, hmode, if_pos rfl]
      exact List.filter_congr fun x hx =>
        isSelected_congr hK.adds.keepsSources h (c.listed h hs hx)
    rw [hok, ← hselected]
    exact (indexAll_of_visits (c.ready h hs hK) (pairwise_apart_collect h hs.root) hmode hok).symm

/-- The pages of a run are those that the file system asks for which it found. -/
theorem paged_spec (h : fs.Plain) (hs : s.Sound) (c : Course s fs) (hK : c.Places K) :
    Indexable s c.begun (K ++ [Overview.pagesName]) c.indexed ∧
      (c.indexed ≠ [] → c.old.HasRecords) ∧
      c.updated = c.start.mapRecords (recordsOf s fs c.indexed) ∧
      c.paged = c.begun.putTexts (K ++ [Overview.pagesName])
        (c.indexed.flatMap (pagesOf s fs)) := by
  have hready := (c.ready h hs hK).mono fun x hx => c.mem_catalogue_of_mem_indexed hx
  have hlisted : ∀ x ∈ c.indexed, ∀ p ∈ x.2, Catalogue.Listed fs s.registry s.root p :=
    fun x hx => c.listed h hs (c.mem_catalogue_of_mem_indexed hx)
  have hon : (indexAll s c.start c.indexed).on c.begun = .ok (c.updated, c.paged) := by
    obtain ⟨out, hok⟩ := Action.on_ok_iff.1 c.paged_eq
    exact Action.on_ok_iff.2 ⟨out, (c.loop_eq h hs hK []).symm.trans hok⟩
  obtain ⟨hok, hrec, hupdated, hpaged⟩ := (indexAll_on_ok_iff hready).1 hon
  rw [recordsOf_congr hK.adds.keepsSources h hlisted] at hupdated
  rw [flatMap_pagesOf_congr hK.adds.keepsSources h hlisted] at hpaged
  exact ⟨hok, hrec, hupdated, hpaged⟩

/-- The records that a run leaves of the files it has described. -/
theorem recordAt?_updated (h : fs.Plain) (hs : s.Sound) (c : Course s fs) (hK : c.Places K)
    (hx : x ∈ c.indexed) {p : Path} (hp : p ∈ x.2) :
    c.updated.recordAt? (Json.letters p.toText) = some (recordOf fs (lastPage s fs x) p) := by
  obtain ⟨-, hrec, hupdated, -⟩ := c.paged_spec h hs hK
  obtain ⟨fields, hfields⟩ := hrec (List.ne_nil_of_mem hx)
  have hstart : c.start.files = .obj fields := hfields
  rw [hupdated, recordAt?, mapRecords_files hstart]
  refine field?_recordsOf_of_mem (fun y hy q hq => ?_) (fun y hy => ?_) ?_ hx hp
  · exact (c.listed h hs (c.mem_catalogue_of_mem_indexed hy) q hq).isProper
  · exact Catalogue.nodup_files h hs.root (c.mem_catalogue_of_mem_indexed hy)
  · exact (pairwise_apart_collect h hs.root).sublist c.indexed_sublist

theorem accepts_pages (h : fs.Plain) (hs : s.Sound) (c : Course s fs) (hK : c.Places K) :
    ∀ f ∈ c.indexed.flatMap (pagesOf s fs),
      c.begun.Accepts s.pagesDir (K ++ [Overview.pagesName]) f.1 := by
  intro f hf
  obtain ⟨x, hx, hf⟩ := List.mem_flatMap.1 hf
  refine (c.paged_spec h hs hK).1.accepts x hx f ?_
  rwa [pagesOf_congr hK.adds.keepsSources h (c.listed h hs (c.mem_catalogue_of_mem_indexed hx))]

theorem pagesAt_paged (h : fs.Plain) (hs : s.Sound) (c : Course s fs) (hK : c.Places K) :
    c.paged.PagesAt s.indexDir K ∧ c.paged.PagesAt s.pagesDir (K ++ [Overview.pagesName]) := by
  have hacc := c.accepts_pages h hs hK
  rw [(c.paged_spec h hs hK).2.2.2]
  have hpages := (hK.pages.putTexts hacc).1
  exact ⟨hK.index.of_keepsDirs hpages.plain (keepsDirs_putTexts hacc), hpages⟩

/-- The pages of a run stay where they were put. -/
theorem saved_spec (h : fs.Plain) (hs : s.Sound) (c : Course s fs) (hK : c.Places K) :
    c.saved.PagesAt s.pagesDir (K ++ [Overview.pagesName]) ∧
      ∀ n, c.saved.get? (K ++ [Overview.pagesName] ++ [n]) =
        (c.begun.putTexts (K ++ [Overview.pagesName]) (c.indexed.flatMap (pagesOf s fs))).get?
          (K ++ [Overview.pagesName] ++ [n]) := by
  obtain ⟨hindex, hpages⟩ := c.pagesAt_paged h hs hK
  obtain ⟨hafter, hkept, hget⟩ := c.after hindex
  refine ⟨hpages.of_keepsDirs hafter.plain hkept, fun n => ?_⟩
  rw [← (c.paged_spec h hs hK).2.2.2]
  refine hget _ (fun heq => ?_) fun heq => ?_
  · simpa using congrArg List.length heq
  · simpa using congrArg List.length heq

theorem keepsDirs_saved (h : fs.Plain) (hs : s.Sound) (c : Course s fs) (hK : c.Places K) :
    KeepsDirs c.begun c.saved := by
  obtain ⟨hindex, -⟩ := c.pagesAt_paged h hs hK
  have hpaged : KeepsDirs c.begun c.paged := by
    rw [(c.paged_spec h hs hK).2.2.2]
    exact keepsDirs_putTexts (c.accepts_pages h hs hK)
  exact hpaged.trans (c.after hindex).2.1

theorem saved_host (h : fs.Plain) (hs : s.Sound) (c : Course s fs) (hK : c.Places K) :
    c.saved.host = fs.host := by
  obtain ⟨hindex, -⟩ := c.pagesAt_paged h hs hK
  obtain ⟨-, -, -, hsaved⟩ := c.final hindex
  rw [hsaved, put_host, put_host, (c.paged_spec h hs hK).2.2.2, putTexts_host, hK.adds.host]

/-- The directory of the pages can be searched in the end, if a page was written. -/
theorem isSearchableAt_pages (h : fs.Plain) (hs : s.Sound) (c : Course s fs) (hK : c.Places K)
    {f : Text × Text} (hf : f ∈ c.indexed.flatMap (pagesOf s fs)) :
    c.saved.isSearchableAt (K ++ [Overview.pagesName]) = true :=
  ((c.keepsDirs_saved h hs hK).isSearchableAt hK.pages.directory).trans
    (c.accepts_pages h hs hK f hf).search

/-- A run keeps all files that can be outlined. -/
theorem keepsSources (h : fs.Plain) (hs : s.Sound) (c : Course s fs) (hK : c.Places K) :
    KeepsSources s.registry fs c.saved := by
  obtain ⟨hindex, -⟩ := c.pagesAt_paged h hs hK
  obtain ⟨hafter, hdirs, hget⟩ := c.after hindex
  have hpaged : KeepsSources s.registry c.begun c.paged := by
    rw [(c.paged_spec h hs hK).2.2.2]
    refine keepsSources_putTexts hK.pages hs.spares (c.accepts_pages h hs hK) fun f hf => ?_
    obtain ⟨x, -, hf⟩ := List.mem_flatMap.1 hf
    exact md_of_mem_pagesOf hf
  refine (hK.adds.keepsSources.trans hpaged).trans ⟨hafter.plain, hdirs, fun p e hp hthere => ?_⟩
  refine (hget p.names (fun heq => ?_) fun heq => ?_).trans hthere
  · have hname : p.name = "INDEX".toList ++ ".md".toList := by
      rw [Path.name, heq, List.getLast?_concat]
      rfl
    rw [hs.spares.pages p _ hname] at hp
    cases hp
  · have hname : p.name = Metadata.fileName := by
      rw [Path.name, heq, List.getLast?_concat]
      rfl
    rw [hs.spares.metadata p hname] at hp
    cases hp

/-- The main page and the metadata are in their places, and their directory can be searched. -/
theorem get?_saved (h : fs.Plain) (hs : s.Sound) (c : Course s fs) (hK : c.Places K) :
    c.saved.isSearchableAt K = true ∧
      c.saved.get? (K ++ [Overview.fileName]) =
        some (written c.saved.host (Utf8.encode c.content)) ∧
      c.saved.get? (K ++ [Metadata.fileName]) =
        some (written c.saved.host (Utf8.encode (c.updated.touch s.now).text)) := by
  obtain ⟨hindex, -⟩ := c.pagesAt_paged h hs hK
  obtain ⟨hacc, -, -, hsaved⟩ := c.final hindex
  have hne : Overview.fileName ≠ Metadata.fileName := by decide
  refine ⟨((c.after hindex).2.1.isSearchableAt hindex.directory).trans hacc.search, ?_, ?_⟩
  · rw [hsaved, get?_put _ (by simp), if_neg (by simpa using hne), get?_put _ (by simp), if_pos rfl,
      put_host, put_host]
  · rw [hsaved, get?_put _ (by simp), if_pos rfl, put_host, put_host]

theorem read_metadata (h : fs.Plain) (hs : s.Sound) (c : Course s fs) (hK : c.Places K) :
    c.saved.read (s.indexDir.child Metadata.fileName) =
      .ok (Utf8.encode (c.updated.touch s.now).text) := by
  obtain ⟨hindex, -⟩ := c.pagesAt_paged h hs hK
  obtain ⟨hsearch, -, hthere⟩ := c.get?_saved h hs hK
  exact (c.after hindex).1.read_written hsearch (c.final hindex).2.1 hthere

/-- Under the name of a page some page stands, so what is read there is what was put there last. -/
theorem read_page_iff (h : fs.Plain) (hs : s.Sound) (c : Course s fs) (hK : c.Places K)
    {f : Text × Text} {bytes : Bytes} (hf : f ∈ c.indexed.flatMap (pagesOf s fs)) :
    c.saved.read (s.pagesDir.child f.1) = .ok bytes ↔
      (c.begun.putTexts (K ++ [Overview.pagesName]) (c.indexed.flatMap (pagesOf s fs))).get?
        (K ++ [Overview.pagesName] ++ [f.1]) = some (written fs.host bytes) := by
  obtain ⟨hpages, hget⟩ := c.saved_spec h hs hK
  obtain ⟨t, ht⟩ := exists_lastText? hf
  have hthere : c.saved.get? (K ++ [Overview.pagesName] ++ [f.1]) =
      some (written fs.host (Utf8.encode t)) := by
    rw [hget, get?_putTexts, ht, hK.adds.host]
    rfl
  rw [hpages.read_written (c.isSearchableAt_pages h hs hK hf) (c.accepts_pages h hs hK f hf) hthere,
    ← hget, hthere]
  simp [written]

end Course

end Indexing

end CodeIndex
