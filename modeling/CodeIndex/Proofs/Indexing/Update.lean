import CodeIndex.Proofs.Indexing.Selection

/-!
# Updates

What an update writes and records, said by the file system and the metadata that it found.
-/

namespace CodeIndex

namespace Metadata

variable {m : Metadata} {fs : FileSystem} {p : Path}

/-- A file is there, and no record of it tells the modification time and the size that it has. -/
def Changed (m : Metadata) (fs : FileSystem) (p : Path) : Prop :=
  ∃ e, fs.look p = .ok (some e) ∧ ∀ fields, m.recordAt? (Json.letters p.toText) = some (.obj fields) →
    fields ≠ [] → agrees fields e = false

theorem isChanged_iff : m.isChanged fs p = true ↔ m.Changed fs p := by
  unfold isChanged Changed
  cases hlook : fs.look p with
  | error failure => simp
  | ok e? =>
    cases e? with
    | none => simp
    | some e =>
      simp only [Except.ok.injEq, Option.some.injEq, exists_eq_left']
      cases hrecord : m.recordAt? (Json.letters p.toText) with
      | none => simp
      | some r =>
        cases r with
        | obj fields =>
          simp only [Option.some.injEq, Json.obj.injEq, Bool.or_eq_true, List.isEmpty_iff,
            Bool.not_eq_true', forall_eq']
          exact ⟨fun h hne => h.resolve_left hne, fun h => or_iff_not_imp_left.2 h⟩
        | _ => simp

end Metadata

namespace Indexing

open FileSystem Metadata

variable {s : Setting} {fs : FileSystem} {x : Text × List Path}

theorem isSelected_iff {m : Metadata} :
    isSelected m fs x = true ↔ ∃ p ∈ x.2, m.Changed fs p := by
  unfold isSelected
  rw [List.any_eq_true]
  exact exists_congr fun p => and_congr_right fun _ => isChanged_iff

/-- What an update does with the directories `all` of a project, from the file system `begun` to
`paged` and from the metadata `start` to `updated`, where the pages are at `L`. -/
structure Update (s : Setting) (fs : FileSystem) (all : Catalogue) (L : Location)
    (begun paged : FileSystem) (start updated : Metadata) : Prop where
  /-- The directories with a changed file, in their order and no others, are indexed. -/
  loop : ∀ out, ∃ out',
    (all.foldlM (visitDirectory s) start) ⟨begun, out⟩ = .ok updated ⟨paged, out'⟩ ∧
    ((all.filter (isSelected start fs)).foldlM (fun m x => indexDirectory s m x.1 x.2) start)
      ⟨begun, out⟩ = .ok updated ⟨paged, out'⟩
  selected : ∀ x ∈ all, isSelected start fs x = true ↔ ∃ p ∈ x.2, start.Changed fs p
  pages : paged = begun.putTexts L ((all.filter (isSelected start fs)).flatMap (pagesOf s fs))
  /-- A full run writes the same pages for them. -/
  full : ∀ updated' paged',
    (all.foldlM (visitDirectory { s with onlyChanged := false }) start).on begun =
      .ok (updated', paged') → paged' = begun.putTexts L (all.flatMap (pagesOf s fs))
  recorded : ∀ x ∈ all, isSelected start fs x = true → ∀ p ∈ x.2, ∃ e,
    fs.look p = .ok (some e) ∧
      updated.recordAt? (Json.letters p.toText) = some (record e (.text (lastPage s fs x)) .null)
  unselected : ∀ x ∈ all, isSelected start fs x = false → ∀ p ∈ x.2,
    updated.recordAt? (Json.letters p.toText) = start.recordAt? (Json.letters p.toText)
  kept : ∀ key, (∀ x ∈ all, isSelected start fs x = true → ∀ p ∈ x.2, key ≠ Json.letters p.toText) →
    updated.recordAt? key = start.recordAt? key

theorem indexed_eq (hupdate : s.onlyChanged = true) (c : Course s fs) :
    c.indexed = c.catalogue.filter (isSelected c.start fs) := by
  rw [Course.indexed, hupdate, if_pos rfl]
  rfl

theorem mem_indexed (hupdate : s.onlyChanged = true) (c : Course s fs) :
    x ∈ c.indexed ↔ x ∈ c.catalogue ∧ isSelected c.start fs x = true := by
  rw [indexed_eq hupdate, List.mem_filter]

theorem look_of_seen {begun : FileSystem} {p : Path} (h : fs.Plain)
    (hk : KeepsSources s.registry fs begun) (hp : Catalogue.Listed fs s.registry s.root p)
    (hseen : ∃ e, begun.look p = .ok (some e)) :
    ∃ e, fs.get? p.names = some e ∧ fs.look p = .ok (some e) := by
  obtain ⟨e, hget⟩ := hp.entry
  obtain ⟨e', hlook⟩ := hseen
  rw [hk.look h hp] at hlook
  refine ⟨e, hget, (look_of_get? h hp.isProper hget).resolve_right fun herr => ?_⟩
  obtain ⟨errno, -, herr⟩ := herr
  rw [hlook] at herr
  cases herr

/-- An update run does what an update does. -/
theorem Course.update (h : fs.Plain) (hs : s.Sound) (hupdate : s.onlyChanged = true)
    (c : Course s fs) {K : Location} (hK : c.Places K) :
    Update s fs c.catalogue (K ++ [Overview.pagesName]) c.begun c.paged c.start c.updated := by
  have hquiet : Action.Quiet (c.catalogue.foldlM (visitDirectory s) c.start) :=
    Action.Quiet.foldlM (visitDirectory_quiet s) _ _
  have hk : KeepsSources s.registry fs c.begun := hK.adds.keepsSources
  obtain ⟨hok, -, hupdated, hpaged⟩ := c.paged_spec h hs hK
  have hkept : ∀ key, (∀ x ∈ c.indexed, ∀ p ∈ x.2, key ≠ Json.letters p.toText) →
      c.updated.recordAt? key = c.start.recordAt? key := by
    intro key hkey
    rw [hupdated]
    exact recordAt?_mapRecords fun fields => field?_recordsOf_of_notMem hkey
  refine ⟨fun out => ?_, fun x _ => isSelected_iff, ?_, fun updated' paged' hfull => ?_,
    fun x hx hsel p hp => ?_, fun x hx hsel p hp => hkept _ fun y hy q hq heq => ?_,
    fun key hkey => hkept key fun x hx => ?_⟩
  · obtain ⟨out', hloop⟩ := (hquiet.on_ok_iff out).1 c.paged_eq
    refine ⟨out', hloop, ?_⟩
    rw [← indexed_eq hupdate]
    exact (c.loop_eq h hs hK out).symm.trans hloop
  · rw [← indexed_eq hupdate]
    exact hpaged
  · obtain ⟨-, -, -, hpaged'⟩ := (indexAll_on_ok_iff (c.ready h hs hK)).1 hfull
    rw [flatMap_pagesOf_congr hk h fun x hx => c.listed h hs hx] at hpaged'
    exact hpaged'
  · have hmem := (mem_indexed hupdate c).2 ⟨hx, hsel⟩
    obtain ⟨e, hget, hlook⟩ := look_of_seen h hk (c.listed h hs hx p hp) (hok.seen x hmem p hp)
    exact ⟨e, hlook, by rw [c.recordAt?_updated h hs hK hmem hp, recordOf_eq hget]⟩
  · obtain ⟨hy, hsel'⟩ := (mem_indexed hupdate c).1 hy
    have hpq : p = q := (c.listed h hs hx p hp).isProper.toText_injective
      (c.listed h hs hy q hq).isProper (letters_injective heq)
    have hxy : x = y := Catalogue.eq_of_mem_of_mem h hs.root hx hy hp (hpq ▸ hq)
    rw [hxy, hsel'] at hsel
    cases hsel
  · obtain ⟨hx, hsel⟩ := (mem_indexed hupdate c).1 hx
    exact hkey x hx hsel

/-- A run that is forced does the same whether or not it is an update. -/
theorem program_of_force {now : Timestamp} {o : CommandLine.Options} {forced plain : List Text}
    (hforced : CommandLine.parse forced = .run { o with update := true, force := true })
    (hplain : CommandLine.parse plain = .run { o with update := false }) :
    program .standard now forced fs = program .standard now plain fs := by
  have hrun : run .standard now { o with update := true, force := true } =
      run .standard now { o with update := false } := rfl
  unfold program perform
  simp only [hforced, hplain, hrun]

/-- An update that succeeds indexes exactly the directories with a changed file, leaves all other
records, and saves the records; with force it is a full run. -/
theorem update_indexes_changed_directories {now : Timestamp} {arguments : List Text}
    {o : CommandLine.Options} {rules : IgnoreRules} {old : Metadata} {project : ProjectKind}
    {begun : FileSystem} (hfs : fs.Plain) (hasks : Asks arguments o now fs s)
    (hupdate : o.update = true) (hforce : o.force = false)
    (hrules : IgnoreRules.load fs s.root [] = .ok rules)
    (hold : Metadata.load fs now s.indexDir = .ok old)
    (hproject : ProjectKind.detect fs s.root = .ok project)
    (hbegun : fs.ensureDirs s.pagesDir = .ok begun)
    (hrun : (program .standard now arguments fs).result = .ok 0) :
    (∃ L paged updated, begun.locate .entry s.pagesDir = .ok L ∧
      Update s fs (Catalogue.collect fs .standard rules s.root) L begun paged
        (old.setProjectType (.text project.kind)) updated ∧
      (program .standard now arguments fs).fs.read (s.indexDir.child Metadata.fileName) =
        .ok (Utf8.encode (updated.touch now).text)) ∧
    ∀ (o' : CommandLine.Options) (forced plain : List Text),
      CommandLine.parse forced = .run { o' with update := true, force := true } →
      CommandLine.parse plain = .run { o' with update := false } →
      program .standard now forced fs = program .standard now plain fs := by
  refine ⟨?_, fun o' forced plain hforced hplain => program_of_force hforced hplain⟩
  obtain ⟨c, hc⟩ := (hasks.succeeds hrun).course
  have hsound := hasks.sound hfs
  have hchanged : s.onlyChanged = true := by simp [hasks.onlyChanged_eq, hupdate, hforce]
  obtain ⟨K, hK⟩ := c.exists_places hfs hsound
  rw [← hasks.now_eq] at hold
  obtain rfl : c.rules = rules := Except.ok.inj (c.rules_eq.symm.trans hrules)
  obtain rfl : c.old = old := Except.ok.inj (c.old_eq.symm.trans hold)
  obtain rfl : c.project = project := Except.ok.inj (c.project_eq.symm.trans hproject)
  obtain rfl : c.begun = begun := Except.ok.inj (c.begun_eq.symm.trans hbegun)
  refine ⟨_, c.paged, c.updated, hK.pages.located, ?_, ?_⟩
  · have hdoes := c.update hfs hsound hchanged hK
    rw [Course.catalogue, hasks.registry_eq] at hdoes
    exact hdoes
  · rw [← hc, ← hasks.now_eq]
    exact c.read_metadata hfs hsound hK

/-- A project with two files, of which one has a record that it agrees with. -/
def halfRecorded : FileSystem :=
  (((((((FileSystem.empty .standard []).put ["p".toList] .openDir).put
    ["p".toList, "a.py".toList] (.file ⟨[], .finite false 1 0, false⟩)).put
    ["p".toList, "d".toList] .openDir).put
    ["p".toList, "d".toList, "b.py".toList] (.file ⟨[], .finite false 1 0, false⟩)).put
    ["p".toList, "project-index".toList] .openDir).put
    ["p".toList, "project-index".toList, Metadata.fileName] (.file ⟨Utf8.encode
      "\x7b\"files\": \x7b\"/p/a.py\": \x7b\"mtime\": 1, \"size\": 0\x7d\x7d\x7d".toList, .finite false 1 0, false⟩))

/-- Only the directory of the file without a record is written. -/
theorem halfRecorded_update : ∃ (L : Location) (old updated : Metadata) (begun paged : FileSystem),
    Metadata.load halfRecorded sampleUpdate.now sampleUpdate.indexDir = .ok old ∧
    halfRecorded.ensureDirs sampleUpdate.pagesDir = .ok begun ∧
    Update sampleUpdate halfRecorded (Catalogue.collect halfRecorded .standard
      ⟨sampleUpdate.root, IgnoreRules.builtIn⟩ sampleUpdate.root) L begun paged
      (old.setProjectType (.text "unknown".toList)) updated := by
  have hplain : halfRecorded.Plain := by decide +kernel
  have hrules : IgnoreRules.load halfRecorded sampleUpdate.root [] =
      .ok ⟨sampleUpdate.root, IgnoreRules.builtIn⟩ := by decide +kernel
  have hproject : ProjectKind.detect halfRecorded sampleUpdate.root = .ok ⟨"unknown".toList, []⟩ := by
    decide +kernel
  obtain ⟨old, hold⟩ : ∃ old, Metadata.load halfRecorded sampleUpdate.now sampleUpdate.indexDir =
      .ok old := exists_ok_of_isSome (by decide +kernel)
  obtain ⟨begun, hbegun⟩ : ∃ begun, halfRecorded.ensureDirs sampleUpdate.pagesDir = .ok begun :=
    exists_ok_of_isSome (by decide +kernel)
  obtain ⟨⟨L, paged, updated, -, hdoes, -⟩, -⟩ :=
    update_indexes_changed_directories hplain (asks_sampleUpdate hplain) rfl rfl hrules hold hproject
      hbegun (by decide +kernel)
  exact ⟨L, old, updated, begun, paged, hold, hbegun, hdoes⟩

end Indexing

end CodeIndex
