import CodeIndex.Proofs.FileSystem.Footprint
import CodeIndex.Proofs.Indexing.Run
import CodeIndex.Proofs.Metadata.Saved

/-!
# What a run touches

A run can end at any of its steps. Up to the last one it touches pages and the main page alone, so a
run that fails leaves the metadata as they were. The exception is the last step itself: that metadata
are too deep to be written shows only when their file has been emptied.
-/

namespace CodeIndex

namespace Metadata

open Json

variable {fs : FileSystem} {m m' : Metadata}

theorem isWritable_iff : m.isWritable = true ↔
    m.version.depth ≤ maxDepth ∧ m.projectType.depth ≤ maxDepth ∧ m.createdAt.depth ≤ maxDepth ∧
      m.updatedAt.depth ≤ maxDepth ∧ m.files.depth ≤ maxDepth := by
  simp [isWritable]

theorem isWritable_setProjectType (h : m.isWritable = true) (kind : Text) :
    (m.setProjectType (.text kind)).isWritable = true := by
  obtain ⟨hversion, -, hrest⟩ := isWritable_iff.1 h
  exact isWritable_iff.2 ⟨hversion, Nat.zero_le _, hrest⟩

theorem isWritable_touch (h : m.isWritable = true) (now : Timestamp) :
    (m.touch now).isWritable = true := by
  obtain ⟨hversion, hkind, hcreated, -, hfiles⟩ := isWritable_iff.1 h
  exact isWritable_iff.2 ⟨hversion, hkind, hcreated, Nat.zero_le _, hfiles⟩

theorem depth_record (e : Entry) (page : Text) : (record e (.text page) .null).depth = 1 := by
  simp [record, Json.record, Json.depth, depthOfFields, Json.text]

/-- A further record makes no metadata too deep. -/
theorem isWritable_update {path page : Text} (hok : m.update fs path (.text page) .null = .ok m')
    (h : m.isWritable = true) : m'.isWritable = true := by
  unfold update at hok
  obtain ⟨e?, -, hok⟩ := bind_ok_iff.1 hok
  cases e? with
  | none =>
    cases hok
    exact h
  | some e =>
    cases hfiles : m.files with
    | obj fields =>
      rw [hfiles] at hok
      cases hok
      obtain ⟨hversion, hkind, hcreated, hupdated, hdepth⟩ := isWritable_iff.1 h
      rw [hfiles, Json.depth] at hdepth
      have hset : ∀ f ∈ setField fields (letters path) (record e (.text page) .null),
          f.2.depth ≤ maxDepth - 1 := by
        refine forall_mem_setField (P := fun f => f.2.depth ≤ maxDepth - 1) ?_ ?_
        · exact depthOfFields_le.1 (Nat.le_sub_one_of_lt hdepth)
        · rw [depth_record]
          decide
      refine isWritable_iff.2 ⟨hversion, hkind, hcreated, hupdated, ?_⟩
      rw [Json.depth]
      exact Nat.add_le_of_le_sub (by decide) (depthOfFields_le.2 hset)
    | _ =>
      rw [hfiles] at hok
      cases hok

/-- What every step of a loop keeps is kept by the loop. -/
theorem foldlM_invariant {α : Type} {step : Metadata → α → Except Failure Metadata} {as : List α}
    {inv : Metadata → Prop} (hstep : ∀ m m', ∀ a ∈ as, step m a = .ok m' → inv m → inv m')
    (hok : as.foldlM step m = .ok m') (h : inv m) : inv m' := by
  induction as generalizing m with
  | nil =>
    cases hok
    exact h
  | cons a as ih =>
    rw [List.foldlM_cons] at hok
    obtain ⟨m₁, hfirst, hrest⟩ := bind_ok_iff.1 hok
    exact ih (fun m m' b hb => hstep m m' b (List.mem_cons_of_mem a hb)) hrest
      (hstep m m₁ a List.mem_cons_self hfirst h)

end Metadata

namespace Indexing

open CodeIndex.Action FileSystem Metadata

variable {s : Setting} {fs fs₀ fs' : FileSystem} {m m' old : Metadata} {x : Text × List Path}
  {n : Text} {p : Path} {loc : Location}

theorem isWritable_recordFiles {files : List Path} {pages : List Text}
    (hok : recordFiles m fs files pages = .ok m') (h : m.isWritable = true) : m'.isWritable = true :=
  foldlM_invariant (fun _ _ _ _ hfile => foldlM_invariant (fun _ _ _ _ hpage => isWritable_update hpage)
    hfile) hok h

/-- The places of the main page and of the pages on directories. -/
inductive Setting.ShowsAt (s : Setting) : Location → Prop where
  | title : s.ShowsAt (homeOf (s.indexDir.child Overview.fileName))
  | page (stem : Text) (isName : Path.IsName (stem ++ ".md".toList)) :
    s.ShowsAt (homeOf (s.pagesDir.child (stem ++ ".md".toList)))

/-- The place of the metadata. -/
def Setting.recordsAt (s : Setting) : Location := homeOf (s.indexDir.child Metadata.fileName)

/-- The places of all files of an index. -/
def Setting.Owns (s : Setting) (loc : Location) : Prop := s.ShowsAt loc ∨ loc = s.recordsAt

theorem not_showsAt_recordsAt (s : Setting) : ¬s.ShowsAt s.recordsAt := by
  intro h
  have hmeta : s.recordsAt = homeOf s.indexDir ++ [Metadata.fileName] :=
    homeOf_child s.indexDir (by decide)
  generalize hloc : s.recordsAt = loc at h hmeta
  cases h with
  | title =>
    rw [homeOf_child s.indexDir (by decide)] at hmeta
    exact absurd (List.append_cancel_left hmeta) (by decide)
  | page stem isName =>
    rw [homeOf_child s.pagesDir isName.ne_dots, Setting.pagesDir,
      homeOf_child s.indexDir (by decide)] at hmeta
    simpa using congrArg List.length hmeta

theorem pieces_child (hp : ∀ n ∈ p.names, Path.IsPiece n) (hn : Path.IsName n) :
    ∀ m ∈ (p.child n).names, Path.IsPiece m := by
  intro m hm
  rcases List.mem_append.1 hm with hm | hm
  · exact hp m hm
  · exact List.mem_singleton.1 hm ▸ hn.toIsPiece

theorem Setting.Sound.pagesDir_pieces (hs : s.Sound) : ∀ n ∈ s.pagesDir.names, Path.IsPiece n :=
  pieces_child hs.pieces isName_pagesName

/-- One file of a page is written at its place. -/
theorem leaves_writeFile (hs : s.Sound) {f : Text × Text} {stem : Text}
    (hf : f.1 = stem ++ ".md".toList) (hn : Path.IsName f.1) (h : Spares s.ShowsAt fs₀ fs) :
    Leaves (Page.writeFile s.pagesDir f) fs (fun _ => Spares s.ShowsAt fs₀)
      fun _ => Spares s.ShowsAt fs₀ := by
  simp only [Page.writeFile, Path.join_isName _ hn, Path.child_parent]
  refine .change_bind (fun fs₁ hmake => ?_) fun _ _ => h
  have h₁ : Spares s.ShowsAt fs₀ fs₁ :=
    h.trans (spares_of_ensureDirs h.plain hmake hs.anchor hs.pagesDir_pieces)
  refine .change_bind (fun fs₂ hwrite => ?_) fun _ _ => h₁
  have h₂ : Spares s.ShowsAt fs₀ fs₂ := by
    have hhome := (write_home h₁.plain hwrite hs.anchor (pieces_child hs.pagesDir_pieces hn)).1
    refine h₁.trans (hhome.mono fun loc hloc => ?_)
    rw [hloc, hf]
    exact .page stem (hf ▸ hn)
  exact .ask (fun _ _ => h₂) fun _ _ => h₂

/-- The state of the loop over directories: pages may have been written, and metadata that could be
written still can. -/
structure Underway (s : Setting) (fs₀ : FileSystem) (old m : Metadata) (fs : FileSystem) : Prop where
  spares : Spares s.ShowsAt fs₀ fs
  writable : old.isWritable = true → m.isWritable = true

theorem leaves_indexDirectory (hs : s.Sound) (hbase : Page.IsBase (pageBase x.1))
    (h : Underway s fs₀ old m fs) :
    Leaves (indexDirectory s m x.1 x.2) fs (Underway s fs₀ old) fun _ => Spares s.ShowsAt fs₀ := by
  refine .print_bind (.ask_bind (fun content _ => ?_) fun _ _ => h.spares)
  refine .bind (fun _ => Spares s.ShowsAt fs₀) ?_ fun pages fs₁ h₁ => ?_
  · refine .mapM (fun fs₁ f hf h₁ => ?_) h.spares
    obtain ⟨stem, -, hstem⟩ := Page.exists_stem hf
    exact leaves_writeFile hs hstem (Page.isName_of_mem_pageFiles hbase hf) h₁
  · refine .ask (fun m' hok => ⟨h₁, fun hw => ?_⟩) fun _ _ => h₁
    exact isWritable_recordFiles hok (h.writable hw)

theorem leaves_visitDirectory (hs : s.Sound) (hbase : Page.IsBase (pageBase x.1))
    (h : Underway s fs₀ old m fs) :
    Leaves (visitDirectory s m x) fs (Underway s fs₀ old) fun _ => Spares s.ShowsAt fs₀ := by
  unfold visitDirectory
  split
  · refine .ask_bind (fun changed _ => ?_) fun _ _ => h.spares
    split
    · exact leaves_indexDirectory hs hbase h
    · exact .pure h
  · exact leaves_indexDirectory hs hbase h

/-- What a run leaves that fails: the metadata as they were, or, if those it has loaded are too deep
to be written, their file without content. -/
inductive Aborted (s : Setting) (fs₀ : FileSystem) : Failure → FileSystem → Prop where
  | before {e : Failure} {fs : FileSystem} (spares : Spares s.ShowsAt fs₀ fs) : Aborted s fs₀ e fs
  | emptied {fs : FileSystem} (old : Metadata)
    (loaded : Metadata.load fs₀ s.now s.indexDir = .ok old) (deep : old.isWritable = false)
    (spares : Spares s.Owns fs₀ fs) (empty : fs.fileAt? s.recordsAt = some ⟨[], fs₀.host.clock, false⟩) :
    Aborted s fs₀ .tooNested fs

/-- The metadata are written at their place. -/
theorem spares_of_write (hs : s.Sound) (h : Spares s.ShowsAt fs₀ fs) {bytes : Bytes}
    (hok : fs.write (s.indexDir.child Metadata.fileName) bytes = .ok fs') :
    Spares s.Owns fs₀ fs' ∧ fs'.fileAt? s.recordsAt = some ⟨bytes, fs₀.host.clock, false⟩ := by
  obtain ⟨hhome, hget⟩ := write_home h.plain hok hs.anchor (pieces_child hs.pieces (by decide))
  rw [← h.host]
  exact ⟨(h.mono fun _ => .inl).trans (hhome.mono fun _ => .inr), fileAt?_written hget⟩

/-- Saving is the only step that touches the metadata, and it may still fail. -/
theorem leaves_save (hs : s.Sound) (hold : Metadata.load fs₀ s.now s.indexDir = .ok old)
    (h : Underway s fs₀ old m fs) :
    Leaves (m.save s.indexDir) fs (fun _ => Spares s.Owns fs₀) (Aborted s fs₀) := by
  unfold Metadata.save
  refine .change_bind (fun fs₁ hmake => ?_) fun _ _ => .before h.spares
  have h₁ : Spares s.ShowsAt fs₀ fs₁ :=
    h.spares.trans (spares_of_ensureDirs h.spares.plain hmake hs.anchor hs.pieces)
  split
  · exact .change (fun fs₂ hwrite => (spares_of_write hs h₁ hwrite).1) fun _ _ => .before h₁
  · next hdeep =>
    refine .change_bind (fun fs₂ hwrite => .throw ?_) fun _ _ => .before h₁
    obtain ⟨hspares, hempty⟩ := spares_of_write hs h₁ hwrite
    exact .emptied old hold (Bool.eq_false_iff.2 fun hw => hdeep (h.writable hw)) hspares hempty

theorem leaves_title (hs : s.Sound) {project : ProjectKind} {rules : IgnoreRules}
    (h : Spares s.ShowsAt fs₀ fs) :
    Leaves (Overview.write s.root s.indexDir project rules s.now) fs
      (fun _ => Spares s.ShowsAt fs₀) fun _ => Spares s.ShowsAt fs₀ := by
  refine .ask_bind (fun content _ => .change (fun fs₁ hwrite => ?_) fun _ _ => h) fun _ _ => h
  have hhome := (write_home h.plain hwrite hs.anchor (pieces_child hs.pieces (by decide))).1
  exact h.trans (hhome.mono fun loc hloc => hloc ▸ .title)

/-- A run that succeeds touches its index alone, and one that fails spares the metadata. -/
theorem leaves_index (hs : s.Sound) (h : fs.Plain) :
    Leaves (index s) fs (fun _ => Spares s.Owns fs) (Aborted s fs) := by
  have hstay : ∀ e, Aborted s fs e fs := fun _ => .before (.refl h)
  refine .print_bind (.ask_bind (fun rules _ => ?_) fun e _ => hstay e)
  refine .ask_bind (fun old hold => ?_) fun e _ => hstay e
  refine .ask_bind (fun project _ => ?_) fun e _ => hstay e
  refine .print_bind (.print_bind (.print_bind (.ask_bind (fun catalogue hcatalogue => ?_) fun e _ =>
    hstay e)))
  cases hcatalogue
  refine .print_bind (.change_bind (fun begun hbegun => ?_) fun e _ => hstay e)
  have hstart : Underway s fs old (old.setProjectType (.text project.kind)) begun :=
    ⟨spares_of_ensureDirs h hbegun hs.anchor hs.pagesDir_pieces,
      fun hw => isWritable_setProjectType hw _⟩
  -- every directory keeps what holds at the start
  refine .bind (Underway s fs old) ?_ fun updated paged hpaged => ?_
  · refine (Leaves.foldlM (fun m fs₁ x hx h₁ => ?_) hstart).imp (fun _ _ h₁ => h₁) fun _ _ => .before
    exact leaves_visitDirectory hs (isBase_of_mem_collect h hs.root hx) h₁
  refine .print_bind (.bind (fun _ => Spares s.ShowsAt fs) ?_ fun _ titled htitled => ?_)
  · exact (leaves_title hs hpaged.spares).imp (fun _ _ h₁ => h₁) fun _ _ => .before
  refine .bind (fun _ => Spares s.Owns fs) ?_ fun _ saved hsaved => ?_
  · exact leaves_save hs hold ⟨htitled, fun hw => isWritable_touch (hpaged.writable hw) _⟩
  · exact .print_bind fun _ => hsaved

/-- What the program leaves of the file system it finds, by how it ends. -/
structure Leftover (s : Setting) (fs fs' : FileSystem) (result : Except Failure Nat) : Prop where
  spares : Spares s.Owns fs fs'
  /-- A run that fails leaves the metadata, or empties their file if they are too deep. -/
  failed : result ≠ .ok 0 → fs'.fileAt? s.recordsAt = fs.fileAt? s.recordsAt ∨
    result = .error .tooNested ∧ (∃ old, Metadata.load fs s.now s.indexDir = .ok old ∧
      old.isWritable = false) ∧ fs'.fileAt? s.recordsAt = some ⟨[], fs.host.clock, false⟩

theorem Aborted.leftover {e : Failure} (h : Aborted s fs₀ e fs) : Leftover s fs₀ fs (.error e) := by
  cases h with
  | before spares =>
    exact ⟨spares.mono fun _ => .inl, fun _ => .inl (spares.files _ (not_showsAt_recordsAt s))⟩
  | emptied old loaded deep spares empty =>
    exact ⟨spares, fun _ => .inr ⟨rfl, ⟨old, loaded, deep⟩, empty⟩⟩

/-- A run with a setting, or one that has found none and changes nothing. -/
theorem run_leftover (now : Timestamp) {arguments : List Text} {o : CommandLine.Options}
    (h : fs.Plain) (hparse : CommandLine.parse arguments = .run o) :
    Leaves (run .standard now o) fs
      (fun code fs' => ∃ s, Asks arguments o now fs s ∧ Leftover s fs fs' (.ok code))
      fun e fs' => (fs' = fs ∧ ∀ s, ¬Asks arguments o now fs s) ∨
        ∃ s, Asks arguments o now fs s ∧ Leftover s fs fs' (.error e) := by
  refine .ask_bind (fun root hroot => ?_) fun e hroot => .inl ⟨rfl, fun s hasks => ?_⟩
  · refine .ask_bind (fun s hs => ?_) fun e hs => .inl ⟨rfl, fun s hasks => ?_⟩
    · obtain rfl : s.root = root := by
        obtain ⟨output, -, rfl⟩ := settingOf_eq hs
        rfl
      have hasks : Asks arguments o now fs s := ⟨hparse, hroot, hs⟩
      have hstay : ∀ result, Leftover s fs fs result := fun _ => ⟨.refl h, fun _ => .inl rfl⟩
      refine .ask_bind (fun present _ => ?_) fun e _ => .inr ⟨s, hasks, hstay _⟩
      split
      · refine .bind (fun _ => Spares s.Owns fs) ?_ fun _ fs' h' => .pure ⟨s, hasks, h', ?_⟩
        · exact (leaves_index (hasks.sound h) h).imp (fun _ _ h' => h') fun e fs' h' =>
            .inr ⟨s, hasks, h'.leftover⟩
        · exact fun hne => absurd rfl hne
      · exact .print_bind (.pure ⟨s, hasks, hstay _⟩)
    · obtain rfl : s.root = root := Except.ok.inj (hasks.root.symm.trans hroot)
      rw [hasks.setting] at hs
      cases hs
  · rw [hasks.root] at hroot
    cases hroot

theorem program_leftover (now : Timestamp) (arguments : List Text) (h : fs.Plain) :
    ((program .standard now arguments fs).fs = fs ∧ ∀ o s, ¬Asks arguments o now fs s) ∨
      ∃ o s, Asks arguments o now fs s ∧ Leftover s fs (program .standard now arguments fs).fs
        (program .standard now arguments fs).result := by
  have hnone : (∀ o, CommandLine.parse arguments ≠ .run o) → ∀ o s, ¬Asks arguments o now fs s :=
    fun hparse o s hasks => hparse o hasks.parse
  unfold program perform
  cases hparse : CommandLine.parse arguments with
  | help => exact .inl ⟨rfl, hnone fun o => by rw [hparse]; exact nofun⟩
  | refuse message => exact .inl ⟨rfl, hnone fun o => by rw [hparse]; exact nofun⟩
  | run o =>
    have hsame : ∀ {o' s}, Asks arguments o' now fs s → o' = o := fun hasks =>
      CommandLine.Request.run.inj (hasks.parse.symm.trans hparse)
    have hrun := run_leftover now h hparse []
    cases hres : run .standard now o ⟨fs, []⟩ with
    | ok code σ =>
      simp only [hres] at hrun ⊢
      obtain ⟨s, hasks, hleft⟩ := hrun
      exact .inr ⟨o, s, hasks, hleft⟩
    | error e σ =>
      simp only [hres] at hrun ⊢
      rcases hrun with ⟨hfs, hno⟩ | ⟨s, hasks, hleft⟩
      · exact .inl ⟨hfs, fun o' s hasks => hno s (hsame hasks ▸ hasks)⟩
      · exact .inr ⟨o, s, hasks, hleft⟩

theorem Asks.unique {now : Timestamp} {arguments : List Text} {o o' : CommandLine.Options}
    {s s' : Setting} (h : Asks arguments o now fs s) (h' : Asks arguments o' now fs s') : s = s' := by
  obtain rfl : o = o' := CommandLine.Request.run.inj (h.parse.symm.trans h'.parse)
  have hroots : s.root = s'.root := Except.ok.inj (h.root.symm.trans h'.root)
  exact Except.ok.inj (h.setting.symm.trans (hroots ▸ h'.setting))

/-- The program changes no file but those of the index it is asked for. A run that fails leaves the
metadata as they were, unless those it has loaded are too deep to be written: it then fails for that
reason and leaves their file empty. In no case has it marked a file as indexed. -/
theorem failed_run_spares_metadata {now : Timestamp} {arguments : List Text} (hfs : fs.Plain) :
    (∀ loc, (program .standard now arguments fs).fs.fileAt? loc ≠ fs.fileAt? loc →
      ∃ o s, Asks arguments o now fs s ∧ s.Owns loc) ∧
    ∀ o s, Asks arguments o now fs s → (program .standard now arguments fs).result ≠ .ok 0 →
      ((program .standard now arguments fs).fs.fileAt? s.recordsAt = fs.fileAt? s.recordsAt ∨
        (program .standard now arguments fs).result = .error .tooNested ∧
          (∃ old, Metadata.load fs now s.indexDir = .ok old ∧ old.isWritable = false) ∧
          (program .standard now arguments fs).fs.fileAt? s.recordsAt =
            some ⟨[], fs.host.clock, false⟩) ∧
      ∀ data, (program .standard now arguments fs).fs.fileAt? s.recordsAt = some data →
        fs.fileAt? s.recordsAt = some data ∨ ofBytes now data.bytes = .ok (fresh now) := by
  rcases program_leftover now arguments hfs with ⟨hsame, hno⟩ | ⟨o, s, hasks, hleft⟩
  · exact ⟨fun loc hne => absurd (by rw [hsame]) hne, fun o s hasks => absurd hasks (hno o s)⟩
  · refine ⟨fun loc hne => ⟨o, s, hasks, ?_⟩, fun o' s' hasks' hfailed => ?_⟩
    · by_contra hout
      exact hne (hleft.spares.files loc hout)
    · obtain rfl := hasks.unique hasks'
      have hcases := hleft.failed hfailed
      rw [hasks.now_eq] at hcases
      refine ⟨hcases, fun data hdata => ?_⟩
      rcases hcases with hkept | ⟨-, -, hempty⟩
      · exact .inl (hkept ▸ hdata)
      · obtain rfl := Option.some.inj (hempty.symm.trans hdata)
        exact .inr rfl

/-- A project with an index whose main page is a directory, so that no page can be written there. -/
def blockedTitle : FileSystem :=
  (((((FileSystem.empty .standard []).put ["p".toList] .openDir).put
    ["p".toList, "a.py".toList] (.file ⟨[], .finite false 1 0, false⟩)).put
    ["p".toList, "project-index".toList] .openDir).put
    ["p".toList, "project-index".toList, Overview.fileName] .openDir).put
    ["p".toList, "project-index".toList, Metadata.fileName]
      (.file ⟨Utf8.encode "\x7b\x7d".toList, .finite false 1 0, false⟩)

/-- The run writes the page on the root and fails at the main page; the metadata are as they were. -/
theorem blockedTitle_spares_metadata :
    (program .standard sampleSetting.now ["/p".toList] blockedTitle).result ≠ .ok 0 ∧
      (program .standard sampleSetting.now ["/p".toList] blockedTitle).fs.fileAt?
        (homeOf (sampleSetting.pagesDir.child "root.md".toList)) ≠ none ∧
      (program .standard sampleSetting.now ["/p".toList] blockedTitle).fs.fileAt?
        sampleSetting.recordsAt = blockedTitle.fileAt? sampleSetting.recordsAt := by
  have hplain : blockedTitle.Plain := by decide +kernel
  have hend : (program .standard sampleSetting.now ["/p".toList] blockedTitle).result =
      .error (.refused .isDirectory "/p/project-index/INDEX.md".toList) ∧
      (program .standard sampleSetting.now ["/p".toList] blockedTitle).fs.fileAt?
        (homeOf (sampleSetting.pagesDir.child "root.md".toList)) ≠ none := by decide +kernel
  have hfailed : (program .standard sampleSetting.now ["/p".toList] blockedTitle).result ≠
      .ok 0 := by
    rw [hend.1]
    exact nofun
  refine ⟨hfailed, hend.2, ?_⟩
  obtain ⟨hcases, -⟩ := (failed_run_spares_metadata hplain).2 _ _ (asks_sample hplain) hfailed
  refine hcases.resolve_right fun hdeep => ?_
  rw [hend.1] at hdeep
  exact nomatch hdeep.1

/-- A project with metadata in which a value is too deep to be written. -/
def deepMetadata : FileSystem :=
  ((((FileSystem.empty .standard []).put ["p".toList] .openDir).put
    ["p".toList, "a.py".toList] (.file ⟨[], .finite false 1 0, false⟩)).put
    ["p".toList, "project-index".toList] .openDir).put
    ["p".toList, "project-index".toList, Metadata.fileName]
      (.file ⟨Utf8.encode ("\x7b\"version\": ".toList ++ List.replicate 500 '[' ++
        List.replicate 500 ']' ++ "\x7d".toList), .finite false 1 0, false⟩)

/-- The run fails, and the metadata are gone. -/
theorem deepMetadata_emptied :
    (program .standard sampleSetting.now ["/p".toList] deepMetadata).result ≠ .ok 0 ∧
      (program .standard sampleSetting.now ["/p".toList] deepMetadata).fs.fileAt?
        sampleSetting.recordsAt ≠ deepMetadata.fileAt? sampleSetting.recordsAt := by
  decide +kernel

end Indexing

end CodeIndex
