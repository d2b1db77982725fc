import CodeIndex.Proofs.Indexing.Aside
import CodeIndex.Proofs.Indexing.Update
import CodeIndex.Proofs.Metadata.Saved

/-!
# Running again

A full run leaves an index that is up to date: what it holds is what a run would write into it. A run
on such an index, be it full or an update, changes nothing, as long as sets come in the same order. In
a process where they come in another one, the technologies on the main page are named in that order,
and all else stays.
-/

namespace CodeIndex

/-- Where all members of a list are the same, a set of them comes in one order only. -/
theorem SetOrder.arrange_eq {ts : List Text} (h : ∀ t ∈ ts, ∀ u ∈ ts, t = u) (sets sets' : SetOrder) :
    sets.arrange ts = sets'.arrange ts := by
  have hperm : (sets.arrange ts).Perm (sets'.arrange ts) := by
    refine (List.perm_ext_iff_of_nodup (sets.nodup ts) (sets'.nodup ts)).2 fun t => ?_
    rw [sets.mem_arrange, sets'.mem_arrange]
  have hall : ∀ us : List Text, us.Pairwise fun _ _ => True := fun us =>
    List.pairwise_of_forall fun _ _ => trivial
  refine hperm.eq_of_pairwise (fun t u ht hu _ _ => ?_) (hall _) (hall _)
  exact h t (sets.mem_arrange.1 ht) u (sets'.mem_arrange.1 hu)

namespace FileSystem

/-- A file system as a process finds it in which sets come in the given order. -/
def rearranged (fs : FileSystem) (sets : SetOrder) : FileSystem :=
  { fs with host := { fs.host with sets := sets } }

theorem sameEntries_rearranged (fs : FileSystem) (sets : SetOrder) :
    SameEntries fs (fs.rearranged sets) := ⟨rfl, rfl, fun _ => rfl⟩

theorem SameEntries.keepsSources {fs fs' : FileSystem} {registry : Registry} (h : SameEntries fs fs')
    (hfs : fs.Plain) : KeepsSources registry fs fs' :=
  ⟨h.plain hfs, h.keepsDirs, fun p _ _ hget => (h.get? p.names).trans hget⟩

end FileSystem

namespace Overview

variable {fs : FileSystem} {root indexDir : Path} {project : ProjectKind}
  {rules : IgnoreRules} {now : Timestamp} {content : Text}

theorem page_ok_iff : page fs root indexDir project rules now = .ok content ↔
    ∃ tree pages, Tree.ofPath fs (.full rules.ignores treeDepth true treeFiles) root = .ok tree ∧
      pageNames fs (indexDir.child pagesName) = .ok pages ∧
      content = text root.name project now (tree.draw true) pages := by
  simp only [page, bind_ok_iff, pure, Except.pure, Except.ok.injEq]
  constructor
  · rintro ⟨tree, htree, pages, hpages, rfl⟩
    exact ⟨tree, pages, htree, hpages, rfl⟩
  · rintro ⟨tree, pages, htree, hpages, rfl⟩
    exact ⟨tree, htree, pages, hpages, rfl⟩

/-- Main pages on one project are the same exactly if they name its technologies alike. -/
theorem text_arranged_eq_iff {sets sets' : SetOrder} {name tree : Text} {pages : List Text} :
    text name (project.arranged sets) now tree pages =
        text name (project.arranged sets') now tree pages ↔
      ProjectKind.stackText (sets.arrange project.stack) =
        ProjectKind.stackText (sets'.arrange project.stack) := by
  simp [text, topLines, ProjectKind.arranged, Text.unlines, List.intercalate]

end Overview

namespace Metadata

open Json

variable {m : Metadata} {fs : FileSystem} {p : Path} {e : Entry} {fields : Fields}

/-- Recording files as they are recorded changes nothing. -/
theorem recordAll_of_recorded {page : Text} {files : List Path} (hnodup : (keys fields).Nodup)
    (h : ∀ p ∈ files, field? fields (letters p.toText) = some (recordOf fs page p)) :
    recordAll fs page files fields = fields := by
  induction files with
  | nil => rfl
  | cons p files ih =>
    rw [recordAll, List.foldl_cons, setField_of_field? hnodup (h p List.mem_cons_self)]
    exact ih fun q hq => h q (List.mem_cons_of_mem _ hq)

theorem needsIndex_of_recorded (hp : p.IsProper) (hlook : fs.look p = .ok (some e))
    (hrecord : m.recordAt? (letters p.toText) = some (.obj fields)) (hne : fields ≠ [])
    (hagrees : agrees fields e = true) : m.needsIndex fs p.toText = .ok false := by
  unfold recordAt? at hrecord
  split at hrecord
  · next all hfiles =>
    have hset : (Json.obj fields).isSet = true := by
      cases fields with
      | nil => exact absurd rfl hne
      | cons f fields => rfl
    simp [needsIndex, hp.ofText_toText, hlook, records, hfiles, hrecord, hset, recordFields, hagrees,
      bind, Except.bind, pure, Except.pure]
  · cases hrecord

end Metadata

namespace Indexing

open FileSystem Metadata

variable {s : Setting} {fs fs' : FileSystem} {K : Location} {rules : IgnoreRules}
  {sets : SetOrder} {found : ProjectKind} {m : Metadata} {x : Text × List Path} {xs : Catalogue}

/-- An index in which a run would write what is there, if sets came in the given order. -/
structure UpToDate (s : Setting) (fs : FileSystem) (sets : SetOrder) (K : Location)
    (rules : IgnoreRules) (found : ProjectKind) (m : Metadata) : Prop where
  rules_eq : IgnoreRules.load fs s.root [] = .ok rules
  found_eq : ProjectKind.evidence fs s.root = .ok found
  ready : Ready s fs (K ++ [Overview.pagesName])
    (Catalogue.collect fs s.registry rules s.root)
  indexable : Indexable s fs (K ++ [Overview.pagesName])
    (Catalogue.collect fs s.registry rules s.root)
  /-- The pages hold what the files say now. -/
  pages : ∀ n t, lastText? ((Catalogue.collect fs s.registry rules s.root).flatMap (pagesOf s fs)) n =
    some t → fs.get? (K ++ [Overview.pagesName] ++ [n]) = some (written fs.host (Utf8.encode t))
  /-- Every file agrees with its record. -/
  recorded : ∀ x ∈ Catalogue.collect fs s.registry rules s.root, ∀ p ∈ x.2, ∃ e,
    (measure e).1 ≠ .nan ∧ fs.get? p.names = some e ∧
      m.recordAt? (Json.letters p.toText) = some (recordOf fs (lastPage s fs x) p)
  index : fs.PagesAt s.indexDir K
  /-- The main page shows the project as it is. -/
  title : ∃ tree pages,
    Tree.ofPath fs (.full rules.ignores Overview.treeDepth true Overview.treeFiles) s.root = .ok tree ∧
      Overview.pageNames fs s.pagesDir = .ok pages ∧
      fs.get? (K ++ [Overview.fileName]) = some (written fs.host (Utf8.encode
        (Overview.text s.root.name (found.arranged sets) s.now (tree.draw true) pages)))
  acceptsTitle : fs.Accepts s.indexDir K Overview.fileName
  /-- The metadata are those in their file. -/
  loaded : Metadata.load fs s.now s.indexDir = .ok m
  loadable : m.Loadable
  writable : m.isWritable = true
  kind : m.projectType = .text found.kind
  moment : m.updatedAt = .text s.now.iso
  accepts : fs.Accepts s.indexDir K Metadata.fileName
  saved : fs.get? (K ++ [Metadata.fileName]) = some (written fs.host (Utf8.encode m.text))

/-- Two file systems that differ at most in the main page of an index, and there in the order of the
technologies. -/
structure SameButStack (s : Setting) (found : ProjectKind) (sets sets' : SetOrder)
    (fs fs' : FileSystem) : Prop where
  cwd : fs'.cwd = fs.cwd
  listing : fs'.host.listing = fs.host.listing
  others : ∀ loc, loc ≠ s.indexDir.names ++ [Overview.fileName] → fs'.get? loc = fs.get? loc
  title : ∃ tree pages,
    fs.get? (s.indexDir.names ++ [Overview.fileName]) = some (written fs.host (Utf8.encode
      (Overview.text s.root.name (found.arranged sets) s.now tree pages))) ∧
    fs'.get? (s.indexDir.names ++ [Overview.fileName]) = some (written fs.host (Utf8.encode
      (Overview.text s.root.name (found.arranged sets') s.now tree pages)))

/-- All is the same exactly if the technologies are named alike. -/
theorem SameButStack.sameEntries_iff {sets' : SetOrder}
    (h : SameButStack s found sets sets' fs fs') :
    SameEntries fs fs' ↔ ProjectKind.stackText (sets'.arrange found.stack) =
      ProjectKind.stackText (sets.arrange found.stack) := by
  obtain ⟨tree, pages, htitle, htitle'⟩ := h.title
  have hsame : fs'.get? (s.indexDir.names ++ [Overview.fileName]) =
      fs.get? (s.indexDir.names ++ [Overview.fileName]) ↔
      ProjectKind.stackText (sets'.arrange found.stack) =
        ProjectKind.stackText (sets.arrange found.stack) := by
    rw [htitle, htitle']
    simp only [written, Option.some.injEq, Entry.file.injEq, FileData.mk.injEq, and_true,
      Utf8.encode_injective.eq_iff]
    exact Overview.text_arranged_eq_iff
  rw [← hsame]
  refine ⟨fun hall => hall.get? _, fun heq => ⟨h.cwd, h.listing, fun loc => ?_⟩⟩
  by_cases hloc : loc = s.indexDir.names ++ [Overview.fileName]
  · rw [hloc, heq]
  · exact h.others loc hloc

/-- A change that keeps the sources keeps what is recorded of a file. -/
theorem recordOf_lastPage_congr {p : Path} {e : Entry} (hk : KeepsSources s.registry fs fs')
    (h : fs.Plain) (hlisted : ∀ q ∈ x.2, Catalogue.Listed fs s.registry s.root q)
    (hget : fs.get? p.names = some e) (hget' : fs'.get? p.names = some e) :
    recordOf fs' (lastPage s fs' x) p = recordOf fs (lastPage s fs x) p := by
  rw [recordOf_eq hget', recordOf_eq hget, lastPage_congr (pagesOf_congr hk h hlisted)]

namespace UpToDate

theorem look_file (h : UpToDate s fs sets K rules found m)
    (hx : x ∈ Catalogue.collect fs s.registry rules s.root) {p : Path} (hp : p ∈ x.2) :
    ∃ e, (measure e).1 ≠ .nan ∧ fs.get? p.names = some e ∧ fs.look p = .ok (some e) := by
  obtain ⟨e, hnan, hget, -⟩ := h.recorded x hx p hp
  refine ⟨e, hnan, hget, ?_⟩
  have hlisted := h.ready.listed x hx p hp
  obtain ⟨e', hseen⟩ := h.indexable.seen x hx p hp
  refine (look_of_get? h.index.plain hlisted.isProper hget).resolve_right fun herr => ?_
  obtain ⟨errno, -, herr⟩ := herr
  rw [hseen] at herr
  cases herr

/-- In an index that is up to date no file has to be indexed. -/
theorem anyChanged_eq (h : UpToDate s fs sets K rules found m)
    (hx : x ∈ Catalogue.collect fs s.registry rules s.root) : anyChanged m fs x.2 = .ok false := by
  have hneeds : ∀ p ∈ x.2, m.needsIndex fs p.toText = .ok false := by
    intro p hp
    obtain ⟨e, hnan, hget, hlook⟩ := h.look_file hx hp
    obtain ⟨fields, hfields, hne, hagrees⟩ := agrees_record hnan (.text (lastPage s fs x)) .null
    obtain ⟨-, -, -, hrecord⟩ := h.recorded x hx p hp
    rw [recordOf_eq hget, hfields] at hrecord
    exact needsIndex_of_recorded (h.ready.listed x hx p hp).isProper hlook hrecord hne hagrees
  generalize x.2 = files at hneeds
  induction files with
  | nil => rfl
  | cons p files ih =>
    rw [anyChanged, hneeds p List.mem_cons_self]
    exact ih fun q hq => hneeds q (List.mem_cons_of_mem _ hq)

theorem exists_records (h : UpToDate s fs sets K rules found m)
    (hx : x ∈ Catalogue.collect fs s.registry rules s.root) : m.HasRecords := by
  obtain ⟨p, hp⟩ := List.exists_mem_of_ne_nil _ (h.ready.nonempty x hx)
  obtain ⟨-, -, -, hrecord⟩ := h.recorded x hx p hp
  unfold recordAt? at hrecord
  split at hrecord
  · next fields hfiles => exact ⟨fields, hfiles⟩
  · cases hrecord

/-- Recording all files again changes nothing. -/
theorem mapRecords_eq (h : UpToDate s fs sets K rules found m) :
    m.mapRecords (recordsOf s fs (Catalogue.collect fs s.registry rules s.root)) = m := by
  refine mapRecords_eq_self fun fields hfiles => ?_
  have hnodup : (Json.keys fields).Nodup := by
    cases hfiles ▸ h.loadable.files with
    | obj _ hnodup => exact hnodup
  have hrecords : ∀ xs : Catalogue, (∀ x ∈ xs, x ∈ Catalogue.collect fs s.registry rules s.root) →
      recordsOf s fs xs fields = fields := by
    intro xs
    induction xs with
    | nil => exact fun _ => rfl
    | cons x xs ih =>
      intro hsub
      rw [recordsOf_cons, recordAll_of_recorded hnodup fun p hp => ?_]
      · exact ih fun y hy => hsub y (List.mem_cons_of_mem _ hy)
      · obtain ⟨-, -, -, hrecord⟩ := h.recorded x (hsub x List.mem_cons_self) p hp
        rwa [recordAt?, hfiles] at hrecord
  exact hrecords _ fun x hx => hx

/-- A full run over the directories writes what is there. -/
theorem indexAll_on (h : UpToDate s fs sets K rules found m) :
    ∃ fs', (indexAll s m (Catalogue.collect fs s.registry rules s.root)).on fs = .ok (m, fs') ∧
      SameEntries fs fs' ∧ fs'.host = fs.host := by
  refine ⟨_, (indexAll_on_ok_iff h.ready).2 ⟨h.indexable, fun hne => ?_, h.mapRecords_eq.symm, rfl⟩,
    sameEntries_putTexts h.pages, putTexts_host _ _ _⟩
  obtain ⟨x, hx⟩ := List.exists_mem_of_ne_nil _ hne
  exact h.exists_records hx

/-- An update writes no page. -/
theorem visits_eq (h : UpToDate s fs sets K rules found m) (hupdate : s.onlyChanged = true) (out : Text)
    (hsub : ∀ x ∈ xs, x ∈ Catalogue.collect fs s.registry rules s.root) :
    (xs.foldlM (visitDirectory s) m) ⟨fs, out⟩ = .ok m ⟨fs, out⟩ := by
  induction xs with
  | nil => rfl
  | cons x xs ih =>
    rw [List.foldlM_cons, Action.bind_ok_iff]
    refine ⟨m, ⟨fs, out⟩, (visitDirectory_ok_iff hupdate).2 ⟨false, ?_, rfl⟩, ?_⟩
    · exact h.anyChanged_eq (hsub x List.mem_cons_self)
    · exact ih fun y hy => hsub y (List.mem_cons_of_mem _ hy)

theorem loop_on (h : UpToDate s fs sets K rules found m) :
    ∃ fs', ((Catalogue.collect fs s.registry rules s.root).foldlM (visitDirectory s) m).on fs =
      .ok (m, fs') ∧ SameEntries fs fs' ∧ fs'.host = fs.host := by
  cases hmode : s.onlyChanged with
  | false =>
    rw [visitDirectory_of_full hmode]
    exact h.indexAll_on
  | true =>
    exact ⟨fs, Action.on_ok_iff.2 ⟨[], h.visits_eq hmode [] fun x hx => hx⟩, .refl fs, rfl⟩

/-- A run on an index that is up to date succeeds and changes nothing but the order of technologies. -/
theorem exists_course (h : UpToDate s fs sets s.indexDir.names rules found m) (hs : s.Sound)
    (hin : s.Inside) : ∃ c : Course s fs, SameButStack s found sets fs.host.sets fs c.saved := by
  obtain ⟨paged, hloop, hsame, hhost⟩ := h.loop_on
  obtain ⟨tree, pages, htree, hpages, htitle⟩ := h.title
  have hplain := h.index.plain
  have hindex : paged.PagesAt s.indexDir s.indexDir.names :=
    h.index.of_keepsDirs (hsame.plain hplain) hsame.keepsDirs
  have hstart : m.setProjectType (.text found.kind) = m := by
    rw [setProjectType, ← h.kind]
  have htouch : m.touch s.now = m := by
    rw [touch, ← h.moment]
  have hproper : s.pagesDir.IsProper := (hin.isProper hs).child isName_pagesName
  obtain ⟨content, hcontent, hpage⟩ : ∃ content, content = Overview.text s.root.name
        (found.arranged fs.host.sets) s.now (tree.draw true) pages ∧
      Overview.page paged s.root s.indexDir (found.arranged fs.host.sets) rules s.now =
        .ok content := by
    refine ⟨_, rfl, ?_⟩
    rw [← Overview.page_congr (hsame.differBelow hplain s.indexDir.names) (hsame.get? _) hs.root
      hin.not_below]
    · exact Overview.page_ok_iff.2 ⟨tree, pages, htree, hpages, rfl⟩
    · exact hin.eq hs ▸ hin.ignores hs hplain h.rules_eq
    · exact Overview.pageNames_congr hplain hindex.plain hproper hsame.listing (hsame.agreeAlong _)
        fun v => (hsame.get? _).symm
  have hensure : fs.ensureDirs s.pagesDir = .ok fs :=
    ensureDirs_of_isDirectory hplain h.ready.pages.isFull h.ready.pages.located
      h.ready.pages.directory
  have hacc := hsame.accepts h.acceptsTitle
  have htitled : (paged.put (s.indexDir.names ++ [Overview.fileName])
      (written paged.host (Utf8.encode content))).PagesAt s.indexDir s.indexDir.names :=
    hindex.put hacc
  obtain ⟨saved, hsave⟩ : ∃ saved, (m.save s.indexDir).on (paged.put
      (s.indexDir.names ++ [Overview.fileName]) (written paged.host (Utf8.encode content))) =
        .ok ((), saved) :=
    ⟨_, (save_on_ok_iff htitled).2
      ⟨h.writable, (accepts_put hacc).2 (hsame.accepts h.accepts), rfl⟩⟩
  refine ⟨⟨rules, m, found.arranged fs.host.sets, fs, m, paged, content, _, saved, h.rules_eq,
    h.loaded, ProjectKind.detect_ok_iff.2 ⟨found, h.found_eq, rfl⟩, hensure, hstart.symm ▸ hloop, hpage,
    (hindex.write_ok_iff (by decide)).2 ⟨hacc, rfl⟩, htouch.symm ▸ hsave⟩, ?_⟩
  obtain ⟨-, -, rfl⟩ := (save_on_ok_iff htitled).1 hsave
  refine ⟨hsame.cwd, hsame.listing, fun loc hloc => ?_, tree.draw true, pages, htitle, ?_⟩
  · rw [get?_put _ (by simp)]
    split
    · next heq => rw [heq, h.saved, put_host, hhost]
    · rw [get?_put _ (by simp), if_neg hloc, hsame.get?]
  · have hne : Overview.fileName ≠ Metadata.fileName := by decide
    rw [get?_put _ (by simp), if_neg (by simpa using hne), get?_put _ (by simp), if_pos rfl, hhost,
      hcontent]

/-- Whether an index is up to date depends only on the entries and on what new ones would be. -/
theorem congr (h : UpToDate s fs sets s.indexDir.names rules found m) (hs : s.Sound) (hin : s.Inside)
    (hsame : SameEntries fs fs') (hclock : fs'.host.clock = fs.host.clock) :
    UpToDate s fs' sets s.indexDir.names rules found m := by
  have hplain := h.index.plain
  have hk : KeepsSources s.registry fs fs' := hsame.keepsSources hplain
  have hdiffer := hsame.differBelow hplain s.indexDir.names
  have hindex := h.index.of_keepsDirs hk.plain hk.dirs
  have hproper := hin.isProper hs
  have hignored := hin.eq hs ▸ hin.ignores hs hplain h.rules_eq
  obtain ⟨hrules, hfound, hcatalogue⟩ := hin.project_congr hs hdiffer
  have hcollect := hcatalogue rules ⟨hignored, fun _ _ => hin.eq hs ▸ h.index.isDir⟩
    ⟨hignored, fun _ _ => hin.eq hs ▸ hindex.isDir⟩
  have hwritten : ∀ bytes, written fs'.host bytes = written fs.host bytes := fun bytes => by
    rw [written, written, hclock]
  have hlisted := h.ready.listed
  obtain ⟨tree, pages, htree, hpages, htitle⟩ := h.title
  refine
    { rules_eq := hrules ▸ h.rules_eq
      found_eq := hfound ▸ h.found_eq
      ready := ?_
      indexable := ?_
      pages := ?_
      recorded := ?_
      index := hindex
      title := ⟨tree, pages, ?_, ?_, by rw [hsame.get?, hwritten, htitle]⟩
      acceptsTitle := hsame.accepts h.acceptsTitle
      loaded := ?_
      loadable := h.loadable
      writable := h.writable
      kind := h.kind
      moment := h.moment
      accepts := hsame.accepts h.accepts
      saved := by rw [hsame.get?, hwritten, h.saved] }
  · rw [← hcollect]
    exact { h.ready with
      pages := h.ready.pages.of_keepsDirs hk.plain hk.dirs
      listed := fun x hx p hp => hk.listed hplain (hlisted x hx p hp) }
  · rw [← hcollect]
    refine ⟨fun x hx f hf => ?_, fun x hx p hp => ?_⟩
    · rw [pagesOf_congr hk hplain (hlisted x hx)] at hf
      exact hsame.accepts (h.indexable.accepts x hx f hf)
    · rw [hk.look hplain (hlisted x hx p hp)]
      exact h.indexable.seen x hx p hp
  · rw [← hcollect, flatMap_pagesOf_congr hk hplain hlisted]
    intro n t ht
    rw [hsame.get?, hwritten, h.pages n t ht]
  · rw [← hcollect]
    intro x hx p hp
    obtain ⟨e, hnan, hget, hrecord⟩ := h.recorded x hx p hp
    refine ⟨e, hnan, (hsame.get? _).trans hget, ?_⟩
    rwa [recordOf_lastPage_congr hk hplain (hlisted x hx) hget ((hsame.get? _).trans hget)]
  · rw [← Overview.ofPath_congr hdiffer (hsame.get? _) hs.root hin.not_below hignored]
    exact htree
  · refine (Overview.pageNames_congr hplain hk.plain (hproper.child isName_pagesName) hsame.listing
      (hsame.agreeAlong _) fun v => (hsame.get? _).symm).symm.trans hpages
  · rw [load_congr (look_congr hplain hk.plain (hproper.child (by decide)) (hsame.agreeAlong _)).symm]
    exact h.loaded

theorem mode (h : UpToDate s fs sets K rules found m) (onlyChanged : Bool) :
    UpToDate { s with onlyChanged := onlyChanged } fs sets K rules found m :=
  { h with
    ready := { h.ready with }
    indexable := { h.indexable with } }

end UpToDate

namespace Course

variable {c : Course s fs}

theorem readable_recordsOf {fields : Json.Fields}
    (h : ∀ x ∈ xs, ∀ p ∈ x.2, ∀ e, fs.get? p.names = some e → e.Measured)
    (hfields : Json.Readable (.obj fields)) : Json.Readable (.obj (recordsOf s fs xs fields)) := by
  induction xs generalizing fields with
  | nil => exact hfields
  | cons x xs ih =>
    exact ih (fun y hy => h y (List.mem_cons_of_mem _ hy))
      (readable_recordAll (h x List.mem_cons_self) hfields)

theorem loadable_updated (h : fs.Plain) (hs : s.Sound) (c : Course s fs) (hK : c.Places K)
    (hmeasured : ∀ x ∈ c.indexed, ∀ p ∈ x.2, ∀ e, fs.get? p.names = some e → e.Measured) :
    c.updated.Loadable := by
  rw [(c.paged_spec h hs hK).2.2.1]
  have hstart : c.start.Loadable := (loadable_load c.old_eq).setProjectType (Json.readable_text _)
  exact hstart.mapRecords fun fields hfields => readable_recordsOf hmeasured hfields

/-- What a run has saved is what the next one loads, whatever its moment. -/
theorem load_saved (h : fs.Plain) (hs : s.Sound) (c : Course s fs) (hK : c.Places K)
    (hloadable : c.updated.Loadable) (now : Timestamp) :
    Metadata.load c.saved now s.indexDir = .ok (c.updated.touch s.now) := by
  obtain ⟨hindex, -⟩ := c.pagesAt_paged h hs hK
  obtain ⟨-, hacc, hwritable, -⟩ := c.final hindex
  obtain ⟨hsearch, -, hget⟩ := c.get?_saved h hs hK
  unfold Metadata.load
  rw [(c.after hindex).1.isPresent_accepted hsearch hacc hget, c.read_metadata h hs hK]
  dsimp only [bind, Except.bind]
  rw [if_pos rfl]
  exact ofBytes_text (hloadable.touch s.now) hwritable

/-- The main page shows the project as the run leaves it. -/
theorem page_saved (h : fs.Plain) (hs : s.Sound) (hin : s.Inside)
    (hthere : ∃ e, fs.get? s.root.names = some e) (c : Course s fs) :
    Overview.page c.saved s.root s.indexDir c.project c.rules s.now = .ok c.content := by
  have hindex := (c.pagesAt_paged h hs (c.places_inside h hs hin)).1
  obtain ⟨hafter, -, hget⟩ := c.after hindex
  have hdiffer := (c.differ_paged h hs hin hthere).symm.trans (c.differ_saved h hs hin hthere)
  have hproper : s.pagesDir.IsProper := (hin.isProper hs).child isName_pagesName
  rw [← c.content_eq]
  refine (Overview.page_congr hdiffer (hget _ (by simp) (by simp)) hs.root hin.not_below
    (hin.eq hs ▸ hin.ignores hs h c.rules_eq) ?_ _ _).symm
  refine Overview.pageNames_congr hindex.plain hafter.plain hproper hdiffer.listing
    (fun above habove => ?_) fun v => (hget _ (fun heq => ?_) fun heq => ?_).symm
  · -- neither the main page nor the metadata stand on the way to the pages
    have hbeside : ∀ n, n ≠ Overview.pagesName → above ≠ s.indexDir.names ++ [n] := by
      rintro n hne rfl
      have heq : s.indexDir.names ++ [n] = s.indexDir.names ++ [Overview.pagesName] :=
        habove.eq_of_length (by simp)
      exact hne (by simpa using heq)
    exact (hget above (hbeside _ (by decide)) (hbeside _ (by decide))).symm
  · simpa [Setting.pagesDir] using congrArg List.length heq
  · simpa [Setting.pagesDir] using congrArg List.length heq

/-- A full run leaves an index that is up to date. -/
theorem upToDate (h : fs.Plain) (hs : s.Sound) (hin : s.Inside) (hfull : s.onlyChanged = false)
    (hthere : ∃ e, fs.get? s.root.names = some e) (c : Course s fs)
    (hmeasured : ∀ x ∈ c.catalogue, ∀ p ∈ x.2, ∀ e, fs.get? p.names = some e → e.Measured) :
    ∃ found, ProjectKind.evidence fs s.root = .ok found ∧ UpToDate s c.saved fs.host.sets
      s.indexDir.names c.rules found (c.updated.touch s.now) := by
  have hK := c.places_inside h hs hin
  have hall := c.indexed_of_full hfull
  obtain ⟨found, hfound, hproject⟩ := ProjectKind.detect_ok_iff.1 c.project_eq
  obtain ⟨hrules, hevidence, hcatalogue⟩ := c.project_saved h hs hin hthere
  obtain ⟨hok, -, hupdated, -⟩ := c.paged_spec h hs hK
  obtain ⟨hpages, hget⟩ := c.saved_spec h hs hK
  obtain ⟨hindex, -⟩ := c.pagesAt_paged h hs hK
  obtain ⟨htitle, hmeta, hwritable, -⟩ := c.final hindex
  obtain ⟨hsearch, htitled, hmetadata⟩ := c.get?_saved h hs hK
  obtain ⟨tree, pages, htree, hnames, hcontent⟩ :=
    Overview.page_ok_iff.1 (c.page_saved h hs hin hthere)
  have hready := c.ready h hs hK
  have hk := c.keepsSources h hs hK
  have hlisted := fun x hx => c.listed (x := x) h hs hx
  have hloadable := c.loadable_updated h hs hK (hall ▸ hmeasured)
  have hwritten : ∀ n t, lastText? (c.catalogue.flatMap (pagesOf s fs)) n = some t →
      c.saved.get? (s.indexDir.names ++ [Overview.pagesName] ++ [n]) =
        some (written c.saved.host (Utf8.encode t)) := by
    intro n t ht
    rw [hget, hall, get?_putTexts, ht, hK.adds.host, c.saved_host h hs hK]
    rfl
  have hlook : ∀ x ∈ c.catalogue, ∀ p ∈ x.2, ∃ e, fs.get? p.names = some e ∧
      fs.look p = .ok (some e) := fun x hx p hp =>
    look_of_seen h hK.adds.keepsSources (hlisted x hx p hp) (hok.seen x (hall ▸ hx) p hp)
  refine ⟨found, hfound,
    { rules_eq := hrules
      found_eq := hevidence.trans hfound
      ready := ?_
      indexable := ?_
      pages := ?_
      recorded := ?_
      index := (c.after hindex).1
      title := ⟨tree, pages, htree, hnames, by rw [htitled, hcontent, hproject]⟩
      acceptsTitle := htitle.of_written hsearch htitled
      loaded := c.load_saved h hs hK hloadable s.now
      loadable := hloadable.touch s.now
      writable := hwritable
      kind := by rw [hupdated]; exact congrArg (fun project => Json.text project.kind) hproject
      moment := rfl
      accepts := hmeta.of_written hsearch hmetadata
      saved := hmetadata }⟩
  all_goals rw [hcatalogue]
  · exact { hready with
      pages := hpages
      listed := fun x hx p hp => hk.listed h (hlisted x hx p hp) }
  · refine ⟨fun x hx f hf => ?_, fun x hx p hp => ?_⟩
    · rw [pagesOf_congr hk h (hlisted x hx)] at hf
      have hmem : f ∈ c.catalogue.flatMap (pagesOf s fs) := List.mem_flatMap.2 ⟨x, hx, hf⟩
      obtain ⟨t, ht⟩ := exists_lastText? hmem
      exact (c.accepts_pages h hs hK f (hall ▸ hmem)).of_written
        (c.isSearchableAt_pages h hs hK (hall ▸ hmem)) (hwritten _ t ht)
    · obtain ⟨e, -, hseen⟩ := hlook x hx p hp
      exact ⟨e, (hk.look h (hlisted x hx p hp)).trans hseen⟩
  · rw [flatMap_pagesOf_congr hk h hlisted]
    exact hwritten
  · intro x hx p hp
    obtain ⟨e, hentry, -⟩ := hlook x hx p hp
    have hsame := hk.get?_listed (hlisted x hx p hp)
    have hlink : e.isLink = false := by
      cases e with
      | link target => exact absurd hentry (h.links _ _)
      | file | directory | special => rfl
    refine ⟨e, (hmeasured x hx p hp _ hentry hlink).2.1, hsame.trans hentry, ?_⟩
    rw [recordOf_lastPage_congr hk h (hlisted x hx) hentry (hsame.trans hentry)]
    exact c.recordAt?_updated h hs hK (hall ▸ hx) hp

theorem cwd_saved (h : fs.Plain) (hs : s.Sound) (c : Course s fs) (hK : c.Places K) :
    c.saved.cwd = fs.cwd := by
  obtain ⟨hindex, -⟩ := c.pagesAt_paged h hs hK
  rw [(c.final hindex).2.2.2, (c.paged_spec h hs hK).2.2.2]
  exact (putTexts_cwd _ _ _).trans hK.adds.cwd

/-- Another run on what a run has left has its setting, but for whether it is an update. -/
theorem asks_again {now : Timestamp} {arguments again : List Text} {o o' : CommandLine.Options}
    (h : fs.Plain) (hasks : Asks arguments o now fs s) (hin : s.Inside) (c : Course s fs)
    (hagain : CommandLine.parse again = .run o') (hproject : o'.project = o.project)
    (houtput : o'.output = some CommandLine.defaultOutput) :
    Asks again o' now c.saved { s with onlyChanged := o'.update && !o'.force } := by
  have hs := hasks.sound h
  have hK := c.places_inside h hs hin
  have hk := c.keepsSources h hs hK
  refine ⟨hagain, ?_, ?_⟩
  · rw [hproject]
    exact hk.dirs.resolve h hk.plain (c.cwd_saved h hs hK)
      (fun n hn => Path.isPiece_of_mem_ofText hn) hasks.root
  · simp only [settingOf, houtput, hasks.registry_eq, hasks.now_eq,
      Path.join_isName s.root isName_defaultOutput, show s.indexDir = _ from hin]

end Course

theorem measured_of_listed {registry : Registry} {root p : Path} {e : Entry} (hfs : fs.Plain)
    (h : fs.Measured registry) (hp : Catalogue.Listed fs registry root p)
    (hget : fs.get? p.names = some e) : e.Measured := by
  have hpath : (⟨.root, p.names⟩ : Path) = p := by rw [← hp.isProper.anchor]
  by_cases hne : p.names = []
  · -- the root is a directory, and those are not listed
    have hroot : p = ⟨.root, []⟩ := by rw [← hpath, hne]
    have hlocate : fs.locate .entry p = .ok [] := by
      rw [locate_eq hfs hp.isProper.isFull, hne, if_neg (by rw [hroot]; decide)]
      rfl
    have hdir := PagesAt.isDir ⟨hfs, hp.isProper.isFull, hlocate, rfl⟩
    rw [hp.notDir] at hdir
    cases hdir
  · exact h _ ((get?_eq_some_iff hne).1 hget) (by rw [hpath]; exact hp.language)

theorem exists_of_isPresent {p : Path} (h : fs.Plain) (hp : p.IsProper)
    (hpresent : fs.isPresent p = .ok true) : ∃ e, fs.get? p.names = some e := by
  unfold isPresent at hpresent
  cases hlook : fs.look p with
  | error failure =>
    rw [hlook] at hpresent
    cases hpresent
  | ok e? =>
    cases e? with
    | none =>
      rw [hlook] at hpresent
      cases hpresent
    | some e =>
      obtain ⟨loc, hloc, hget⟩ := (look_eq_some_iff hp.isFull).1 hlook
      exact ⟨e, locate_isProper h hp hloc ▸ hget⟩

/-- After a full run with its index in the project, the index is up to date, and running again in any way
succeeds. Whatever the order in which sets come then, all entries stay but the main page, and that one
differs at most in the order of the technologies: nothing changes exactly if they are named alike, as
they are where at most one is found. -/
theorem rerun_keeps_all_but_stack {now : Timestamp} {arguments again : List Text}
    {o o' : CommandLine.Options} (hfs : fs.Plain) (hmeasured : fs.Measured .standard)
    (hparse : CommandLine.parse arguments = .run o) (hagain : CommandLine.parse again = .run o')
    (hproject : o'.project = o.project) (houtput : o.output = some CommandLine.defaultOutput)
    (houtput' : o'.output = some CommandLine.defaultOutput)
    (hfull : o.update = false ∨ o.force = true)
    (hrun : (program .standard now arguments fs).result = .ok 0) :
    ∃ s rules found m, Asks again o' now (program .standard now arguments fs).fs s ∧
      ProjectKind.evidence fs s.root = .ok found ∧
      UpToDate s (program .standard now arguments fs).fs fs.host.sets s.indexDir.names rules found m ∧
      ∀ sets,
        (program .standard now again ((program .standard now arguments fs).fs.rearranged
          sets)).result = .ok 0 ∧
        SameButStack s found fs.host.sets sets (program .standard now arguments fs).fs
          (program .standard now again ((program .standard now arguments fs).fs.rearranged sets)).fs ∧
        (SameEntries (program .standard now arguments fs).fs
          (program .standard now again ((program .standard now arguments fs).fs.rearranged sets)).fs ↔
            ProjectKind.stackText (sets.arrange found.stack) =
              ProjectKind.stackText (fs.host.sets.arrange found.stack)) ∧
        ((∀ t ∈ found.stack, ∀ u ∈ found.stack, t = u) →
          SameEntries (program .standard now arguments fs).fs
            (program .standard now again
              ((program .standard now arguments fs).fs.rearranged sets)).fs) := by
  obtain ⟨s, hsucceeds⟩ := (program_ok_zero_iff hparse).1 ⟨hrun, rfl⟩
  have hasks : Asks arguments o now fs s := ⟨hparse, hsucceeds.root, hsucceeds.setting⟩
  have hs := hasks.sound hfs
  have hin := inside_of_settingOf hasks.setting houtput
  have hthere := exists_of_isPresent hfs hs.root hsucceeds.present
  obtain ⟨c, hc⟩ := hsucceeds.course
  rw [← hc]
  have hk := c.keepsSources hfs hs (c.places_inside hfs hs hin)
  obtain ⟨found, hfound, hupToDate⟩ := c.upToDate hfs hs hin (hasks.onlyChanged_of_full hfull) hthere
    fun x hx p hp e hget => measured_of_listed hfs (hasks.registry_eq ▸ hmeasured)
      (c.listed hfs hs hx p hp) hget
  have hagain' := c.asks_again hfs hasks hin hagain hproject houtput'
  have hpresent : c.saved.isPresent s.root = .ok true := by
    have hdiffer := c.differ_saved hfs hs hin hthere
    rw [← isPresent_congr hfs hk.plain hs.root (hdiffer.agreeAlong hin.not_below)]
    exact hsucceeds.present
  refine ⟨_, c.rules, found, _, hagain', hfound, hupToDate.mode _, fun sets => ?_⟩
  have hsame := sameEntries_rearranged c.saved sets
  have hplain := hsame.plain hk.plain
  obtain ⟨c', hcourse⟩ := ((hupToDate.mode (o'.update && !o'.force)).congr (hagain'.sound hk.plain) hin
    hsame rfl).exists_course (hagain'.sound hk.plain) hin
  have hstack : SameButStack { s with onlyChanged := o'.update && !o'.force } found fs.host.sets sets
      c.saved c'.saved := ⟨hcourse.cwd, hcourse.listing, hcourse.others, hcourse.title⟩
  have hroot := hsame.keepsDirs.resolve hk.plain hplain rfl
    (fun n hn => Path.isPiece_of_mem_ofText hn) hagain'.root
  rw [isPresent_congr hk.plain hplain hs.root (hsame.agreeAlong _)] at hpresent
  obtain ⟨hresult, hend⟩ := (program_ok_zero_iff hagain).2
    ⟨_, hroot, hagain'.setting, hpresent, c', rfl⟩
  rw [hend]
  exact ⟨hresult, hstack, hstack.sameEntries_iff, fun hone =>
    hstack.sameEntries_iff.2 (congrArg _ (SetOrder.arrange_eq hone _ _))⟩

/-- A project with an index of another time: a page on a directory that is gone, and metadata that are
no longer to be read. -/
def staleIndex : FileSystem :=
  ((((((FileSystem.empty .standard []).put ["p".toList] .openDir).put
    ["p".toList, "a.py".toList] (.file ⟨[], .finite false (2 ^ 52) (-52), false⟩)).put
    ["p".toList, "project-index".toList] .openDir).put
    ["p".toList, "project-index".toList, Metadata.fileName]
      (.file ⟨Utf8.encode "\x7b".toList, .finite false 1 0, false⟩)).put
    ["p".toList, "project-index".toList, Overview.pagesName] .openDir).put
    ["p".toList, "project-index".toList, Overview.pagesName, "old.md".toList]
      (.file ⟨[], .finite false 1 0, false⟩)

/-- The stale index is brought up to date once, and an update then finds nothing to do. -/
theorem staleIndex_rerun :
    (program .standard sampleSetting.now ["/p".toList] staleIndex).result = .ok 0 ∧
      ∀ sets, SameEntries (program .standard sampleSetting.now ["/p".toList] staleIndex).fs
        (program .standard sampleSetting.now ["/p".toList, "--update".toList]
          ((program .standard sampleSetting.now ["/p".toList] staleIndex).fs.rearranged sets)).fs := by
  have hplain : staleIndex.Plain := by decide +kernel
  have hrun : (program .standard sampleSetting.now ["/p".toList] staleIndex).result = .ok 0 := by
    decide +kernel
  have hnone : ProjectKind.evidence staleIndex sampleSetting.root = .ok ⟨"unknown".toList, []⟩ := by
    decide +kernel
  refine ⟨hrun, fun sets => ?_⟩
  obtain ⟨s, rules, found, m, hasks, hfound, hupToDate, hagain⟩ := rerun_keeps_all_but_stack hplain
    (by decide +kernel) (asks_sample hplain).parse (asks_sampleUpdate hplain).parse rfl rfl rfl
    (.inl rfl) hrun
  have hroot : s.root = sampleSetting.root :=
    Except.ok.inj (hasks.root.symm.trans (resolve_sample hupToDate.index.plain))
  rw [hroot, hnone] at hfound
  cases hfound
  exact (hagain sets).2.2.2 (by simp)

/-- A project for which two technologies are found. -/
def gradleProject : FileSystem :=
  ((FileSystem.empty .standard []).put ["p".toList] .openDir).put
    ["p".toList, "build.gradle".toList] (.file ⟨[], .finite false 1 0, false⟩)

/-- Sets come in the order of code points, backwards. -/
def backwards : SetOrder where
  arrange ts := (TextOrder.byCode.sort ts).reverse
  nodup ts := List.nodup_reverse.2 (TextOrder.byCode.nodup_sort ts)
  mem_arrange := List.mem_reverse.trans TextOrder.mem_sort

/-- The second run of the project, with its sets in another order, rewrites the main page. -/
theorem gradleProject_rewritten :
    (program .standard sampleSetting.now ["/p".toList] gradleProject).result = .ok 0 ∧
      ¬SameEntries (program .standard sampleSetting.now ["/p".toList] gradleProject).fs
        (program .standard sampleSetting.now ["/p".toList]
          ((program .standard sampleSetting.now ["/p".toList] gradleProject).fs.rearranged
            backwards)).fs := by
  have htitles : (program .standard sampleSetting.now ["/p".toList] gradleProject).result = .ok 0 ∧
      (program .standard sampleSetting.now ["/p".toList]
        ((program .standard sampleSetting.now ["/p".toList] gradleProject).fs.rearranged
          backwards)).fs.get? (sampleSetting.indexDir.names ++ [Overview.fileName]) ≠
      (program .standard sampleSetting.now ["/p".toList] gradleProject).fs.get?
        (sampleSetting.indexDir.names ++ [Overview.fileName]) := by decide +kernel
  exact ⟨htitles.1, fun hsame => htitles.2 (hsame.get? _)⟩

end Indexing

end CodeIndex
