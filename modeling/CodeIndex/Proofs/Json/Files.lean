import CodeIndex.Metadata
import CodeIndex.ProjectKind
import CodeIndex.Proofs.FileSystem.Plain
import CodeIndex.Proofs.FileSystem.Present
import CodeIndex.Proofs.Json.Limits
import CodeIndex.Proofs.Json.Respacing
import CodeIndex.Proofs.Text.Decode

/-!
# Files that hold JSON

Two files of a project are read as JSON: the metadata of its index and its manifest of packages. Both
are read in the same way. Bytes that are no text, and a value that is no object, are failures; what
is not JSON, and a file that cannot be read, count as nothing.

A file is looked up before it is read. The look at a path that is too long, or that leads through a
directory that cannot be searched, is a failure by itself, and nothing is made of it.
-/

namespace CodeIndex

variable {α : Type}

namespace Json

variable {bytes : Bytes} {t : Text} {v : Json} {fields : Fields} {e : Failure}

/-- The text in a file exceeds no limit of the reader. -/
def FileWithinLimits (bytes : Bytes) : Prop :=
  ∀ t, Utf8.encode t = bytes → ¬ExceedsLimits (Text.unifyLineEnds t)

instance (bytes : Bytes) : Decidable (FileWithinLimits bytes) :=
  match h : Utf8.decode? bytes with
  | none => isTrue fun t ht => absurd ht (Utf8.decode?_eq_none_iff.1 h t)
  | some t =>
    decidable_of_iff (¬ExceedsLimits (Text.unifyLineEnds t)) ⟨fun hlimits t' ht' => by
      rw [Utf8.decode?_eq_some_iff.2 ht'] at h
      exact Option.some.inj h ▸ hlimits, fun hlimits => hlimits t (Utf8.decode?_eq_some_iff.1 h)⟩

/-- The text in a file spells a value. -/
def Holds (bytes : Bytes) (v : Json) : Prop := ∃ t, Utf8.encode t = bytes ∧ IsDocument t v

/-- The text in a file spells no value. -/
def IsMalformed (bytes : Bytes) : Prop := ∃ t, Utf8.encode t = bytes ∧ ∀ v, ¬IsDocument t v

/-- Why there is no object in a file that should hold one. -/
inductive NoObject (bytes : Bytes) : Failure → Prop
  | undecodable (h : ∀ t, Utf8.encode t ≠ bytes) : NoObject bytes .undecodable
  | noFields {v : Json} (h : Holds bytes v) (other : ∀ fields, v ≠ .obj fields) :
      NoObject bytes .noFields

/-- The object in a file, none if the file is not JSON. -/
def objectOf (bytes : Bytes) : Except Failure (Option Fields) :=
  match Utf8.decode? bytes with
  | none => .error .undecodable
  | some t =>
    match parse (Text.unifyLineEnds t) with
    | .ok (.obj fields) => .ok (some fields)
    | .ok _ => .error .noFields
    | .error fault => fault.orElse none

theorem parse_eq_ok_iff_holds (hlimits : FileWithinLimits bytes) (h : Utf8.encode t = bytes) :
    parse (Text.unifyLineEnds t) = .ok v ↔ Holds bytes v := by
  rw [parse_eq_ok_iff (hlimits t h), isDocument_unifyLineEnds]
  constructor
  · exact fun hdoc => ⟨t, h, hdoc⟩
  · rintro ⟨t', ht', hdoc⟩
    have hdecode := Utf8.decode?_eq_some_iff.2 ht'
    rw [Utf8.decode?_eq_some_iff.2 h] at hdecode
    exact Option.some.inj hdecode ▸ hdoc

theorem objectOf_of_holds (hlimits : FileWithinLimits bytes) (h : Holds bytes (.obj fields)) :
    objectOf bytes = .ok (some fields) := by
  obtain ⟨t, ht, -⟩ := id h
  simp only [objectOf, Utf8.decode?_eq_some_iff.2 ht, (parse_eq_ok_iff_holds hlimits ht).2 h]

theorem objectOf_of_isMalformed (hlimits : FileWithinLimits bytes) (h : IsMalformed bytes) :
    objectOf bytes = .ok none := by
  obtain ⟨t, ht, hnone⟩ := h
  have hparse : parse (Text.unifyLineEnds t) = .error .malformed :=
    (parse_eq_malformed_iff (hlimits t ht)).2 fun v hdoc => hnone v (isDocument_unifyLineEnds.1 hdoc)
  simp only [objectOf, Utf8.decode?_eq_some_iff.2 ht, hparse]
  rfl

theorem objectOf_of_noObject (hlimits : FileWithinLimits bytes) (h : NoObject bytes e) :
    objectOf bytes = .error e := by
  cases h with
  | undecodable h => simp only [objectOf, Utf8.decode?_eq_none_iff.2 h]
  | @noFields v h hother =>
    obtain ⟨t, ht, -⟩ := id h
    simp only [objectOf, Utf8.decode?_eq_some_iff.2 ht, (parse_eq_ok_iff_holds hlimits ht).2 h]

/-- A file is malformed, has no object or holds one. -/
theorem contents_cases (bytes : Bytes) :
    IsMalformed bytes ∨ (∃ e, NoObject bytes e) ∨ ∃ fields, Holds bytes (.obj fields) := by
  by_cases hdecode : ∃ t, Utf8.encode t = bytes
  · obtain ⟨t, ht⟩ := hdecode
    by_cases hdoc : ∃ v, IsDocument t v
    · obtain ⟨v, hv⟩ := hdoc
      by_cases hobject : ∃ fields, v = .obj fields
      · obtain ⟨fields, rfl⟩ := hobject
        exact .inr (.inr ⟨fields, t, ht, hv⟩)
      · exact .inr (.inl ⟨_, .noFields ⟨t, ht, hv⟩ fun fields hfields => hobject ⟨fields, hfields⟩⟩)
    · exact .inl ⟨t, ht, fun v hv => hdoc ⟨v, hv⟩⟩
  · exact .inr (.inl ⟨_, .undecodable fun t ht => hdecode ⟨t, ht⟩⟩)

theorem objectOf_eq_error_iff (hlimits : FileWithinLimits bytes) :
    objectOf bytes = .error e ↔ NoObject bytes e := by
  refine ⟨fun h => ?_, objectOf_of_noObject hlimits⟩
  rcases contents_cases bytes with hmalformed | ⟨e', hno⟩ | ⟨fields, hholds⟩
  · rw [objectOf_of_isMalformed hlimits hmalformed] at h
    cases h
  · rw [objectOf_of_noObject hlimits hno] at h
    cases h
    exact hno
  · rw [objectOf_of_holds hlimits hholds] at h
    cases h

theorem objectOf_eq_some_iff (hlimits : FileWithinLimits bytes) :
    objectOf bytes = .ok (some fields) ↔ Holds bytes (.obj fields) := by
  refine ⟨fun h => ?_, objectOf_of_holds hlimits⟩
  rcases contents_cases bytes with hmalformed | ⟨e', hno⟩ | ⟨fields', hholds⟩
  · rw [objectOf_of_isMalformed hlimits hmalformed] at h
    cases h
  · rw [objectOf_of_noObject hlimits hno] at h
    cases h
  · rw [objectOf_of_holds hlimits hholds] at h
    cases h
    exact hholds

end Json

namespace Metadata

variable {bytes : Bytes} {e : Failure} {now : Timestamp}

theorem ofBytes_eq (now : Timestamp) (bytes : Bytes) :
    ofBytes now bytes = (Json.objectOf bytes).map fun found => (found.map (ofFields now)).getD (fresh now) := by
  unfold ofBytes Json.objectOf
  cases Utf8.decode? bytes with
  | none => rfl
  | some t =>
    dsimp only
    cases Json.parse (Text.unifyLineEnds t) with
    | ok v => cases v <;> rfl
    | error fault => cases fault <;> rfl

theorem ofBytes_eq_error_iff (hlimits : Json.FileWithinLimits bytes) :
    ofBytes now bytes = .error e ↔ Json.NoObject bytes e := by
  rw [ofBytes_eq, ← Json.objectOf_eq_error_iff hlimits]
  cases Json.objectOf bytes <;> simp [Except.map]

theorem ofBytes_of_isMalformed (hlimits : Json.FileWithinLimits bytes) (h : Json.IsMalformed bytes) :
    ofBytes now bytes = .ok (fresh now) := by
  rw [ofBytes_eq, Json.objectOf_of_isMalformed hlimits h]
  rfl

end Metadata

namespace ProjectKind

variable {bytes : Bytes} {e : Failure} {fields : Json.Fields} {key : String}

/-- A field of an object that should be an object is something else. -/
def IsMisshapen (fields : Json.Fields) (key : String) : Prop :=
  ∃ v, Json.named? fields key = some v ∧ ∀ inner, v ≠ .obj inner

/-- Why there is no manifest in a file that should hold one. -/
inductive NoManifest (bytes : Bytes) : Failure → Prop
  | noObject {e : Failure} (h : Json.NoObject bytes e) : NoManifest bytes e
  | unsupported {fields : Json.Fields} (h : Json.Holds bytes (.obj fields))
      (misshapen : IsMisshapen fields "dependencies" ∨ IsMisshapen fields "devDependencies") :
      NoManifest bytes .unsupported

/-- The technologies among the dependencies that an object names. -/
def frameworksOf (fields : Json.Fields) : Except Failure (List Text) := do
  let names := (← dependencyNames fields "dependencies") ++
    (← dependencyNames fields "devDependencies")
  return (frameworks.filter fun f => names.contains (Json.letters f.1)).map Prod.snd

theorem frameworksIn_eq (bytes : Bytes) :
    frameworksIn bytes = Json.objectOf bytes >>= fun found => (found.map frameworksOf).getD (.ok []) := by
  unfold frameworksIn Json.objectOf
  cases Utf8.decode? bytes with
  | none => rfl
  | some t =>
    dsimp only
    cases Json.parse (Text.unifyLineEnds t) with
    | ok v => cases v <;> rfl
    | error fault => cases fault <;> rfl

/-- The dependencies of one kind are there unless they are misshapen. -/
theorem dependencyNames_cases (fields : Json.Fields) (key : String) :
    (IsMisshapen fields key ∧ dependencyNames fields key = .error .unsupported) ∨
    (¬IsMisshapen fields key ∧ ∃ names, dependencyNames fields key = .ok names) := by
  unfold dependencyNames IsMisshapen
  cases Json.named? fields key with
  | none => exact .inr ⟨by simp, _, rfl⟩
  | some v =>
    cases v with
    | obj inner => exact .inr ⟨by simp, _, rfl⟩
    | _ => exact .inl ⟨⟨_, rfl, by simp⟩, rfl⟩

theorem frameworksOf_eq_error_iff : frameworksOf fields = .error e ↔
    e = .unsupported ∧ (IsMisshapen fields "dependencies" ∨ IsMisshapen fields "devDependencies") := by
  unfold frameworksOf
  rcases dependencyNames_cases fields "dependencies" with ⟨hbad, heq⟩ | ⟨hgood, names, heq⟩
  · simp [heq, hbad, bind, Except.bind, eq_comm]
  · rcases dependencyNames_cases fields "devDependencies" with ⟨hbad', heq'⟩ | ⟨hgood', names', heq'⟩
    · simp [heq, heq', hbad', bind, Except.bind, eq_comm]
    · simp [heq, heq', hgood, hgood', bind, Except.bind, pure, Except.pure]

theorem frameworksIn_eq_error_iff (hlimits : Json.FileWithinLimits bytes) :
    frameworksIn bytes = .error e ↔ NoManifest bytes e := by
  rw [frameworksIn_eq]
  constructor
  · intro h
    cases hobject : Json.objectOf bytes with
    | error e' =>
      rw [hobject] at h
      cases h
      exact .noObject ((Json.objectOf_eq_error_iff hlimits).1 hobject)
    | ok found =>
      rw [hobject] at h
      cases found with
      | none => cases h
      | some fields =>
        obtain ⟨rfl, hbad⟩ := frameworksOf_eq_error_iff.1 h
        exact .unsupported ((Json.objectOf_eq_some_iff hlimits).1 hobject) hbad
  · rintro (h | ⟨h, hbad⟩)
    · rw [(Json.objectOf_eq_error_iff hlimits).2 h]
      rfl
    · rw [(Json.objectOf_eq_some_iff hlimits).2 h]
      exact frameworksOf_eq_error_iff.2 ⟨rfl, hbad⟩

theorem frameworksIn_of_isMalformed (hlimits : Json.FileWithinLimits bytes) (h : Json.IsMalformed bytes) :
    frameworksIn bytes = .ok [] := by
  rw [frameworksIn_eq, Json.objectOf_of_isMalformed hlimits h]
  rfl

/-- The kind of a project with the indicator files that are there and more technologies. -/
def fromIndicators (fs : FileSystem) (root : Path) (more : List Text) : ProjectKind :=
  let present := indicators.filter fun x => (fs.stat (root.child x.1)).isOk
  arranged fs.host.sets ⟨(present.getLast?.map fun x => x.2.1).getD "unknown".toList,
    (present.flatMap fun x => x.2.2) ++ more⟩

/-- The paths of the indicator files, in the order in which they are looked up. -/
def indicatorPaths (root : Path) : List Path := indicators.map fun x => root.child x.1

theorem detect_of_firstBarred {fs : FileSystem} {root p : Path} {cause : Errno}
    (h : fs.FirstBarred (indicatorPaths root) p cause) :
    detect fs root = .error (.refused cause p.toText) := by
  rw [detect, evidence, FileSystem.filterM_isPresent_of_firstBarred h]
  rfl

theorem detect_eq {fs : FileSystem} {root : Path}
    (h : ∀ p ∈ indicatorPaths root, ∀ cause, ¬fs.IsBarred p cause) :
    detect fs root = (manifestStack fs root).map (fromIndicators fs root) := by
  rw [detect, evidence, FileSystem.filterM_isPresent fun x hx => h _ (List.mem_map_of_mem hx)]
  cases manifestStack fs root <;> rfl

end ProjectKind

/-- A reader looks some paths up, reads the file at one of them and fails for exactly these reasons: a
path cannot be looked up, or what is in the file is rejected. It gives `default` for a file that is not
JSON or cannot be read. -/
structure FailsExactly (fs : FileSystem) (looked : List Path) (p : Path)
    (Rejects : Bytes → Failure → Prop) (default : α) (result : Except Failure α) : Prop where
  error_iff (e : Failure) : result = .error e ↔
    (∃ q cause, fs.FirstBarred looked q cause ∧ e = .refused cause q.toText) ∨
    ((∀ q ∈ looked, ∀ cause, ¬fs.IsBarred q cause) ∧ ∃ bytes, fs.read p = .ok bytes ∧
      Rejects bytes e)
  malformed {bytes : Bytes} (free : ∀ q ∈ looked, ∀ cause, ¬fs.IsBarred q cause)
    (read : fs.read p = .ok bytes) (h : Json.IsMalformed bytes) : result = .ok default
  unreadable {e : Failure} (free : ∀ q ∈ looked, ∀ cause, ¬fs.IsBarred q cause)
    (read : fs.read p = .error e) : result = .ok default

/-- What there is to show of such a reader: what it does with each content. -/
theorem failsExactly_of_content {fs : FileSystem} {looked : List Path} {p : Path}
    {Rejects : Bytes → Failure → Prop} {default : α} {result : Except Failure α}
    (content : Bytes → Except Failure α)
    (hbarred : ∀ q cause, fs.FirstBarred looked q cause → result = .error (.refused cause q.toText))
    (hread : ∀ bytes, (∀ q ∈ looked, ∀ cause, ¬fs.IsBarred q cause) → fs.read p = .ok bytes →
      result = content bytes)
    (hunread : ∀ e, (∀ q ∈ looked, ∀ cause, ¬fs.IsBarred q cause) → fs.read p = .error e →
      result = .ok default)
    (hrejects : ∀ bytes e, fs.read p = .ok bytes → (content bytes = .error e ↔ Rejects bytes e))
    (hmalformed : ∀ bytes, fs.read p = .ok bytes → Json.IsMalformed bytes → content bytes = .ok default) :
    FailsExactly fs looked p Rejects default result where
  error_iff e := by
    rcases fs.none_or_firstBarred looked with hfree | ⟨q, cause, hq⟩
    · have hno : ¬∃ q cause, fs.FirstBarred looked q cause ∧ e = .refused cause q.toText := by
        rintro ⟨q, cause, hq, -⟩
        obtain ⟨q', hmem, cause', hbarred'⟩ := hq.isBarred
        exact hfree q' hmem cause' hbarred'
      rw [or_iff_right hno, and_iff_right hfree]
      cases hfile : fs.read p with
      | error e' =>
        rw [hunread e' hfree hfile]
        simp
      | ok bytes =>
        rw [hread bytes hfree hfile, hrejects bytes e hfile]
        simp
    · rw [hbarred q cause hq]
      constructor
      · intro he
        exact .inl ⟨q, cause, hq, (Except.error.inj he).symm⟩
      · rintro (⟨q', cause', hq', rfl⟩ | ⟨hfree, -⟩)
        · exact (hbarred q cause hq).symm.trans (hbarred q' cause' hq')
        · obtain ⟨q', hmem, cause', hbarred'⟩ := hq.isBarred
          exact absurd hbarred' (hfree q' hmem cause')
  malformed hfree hfile h := (hread _ hfree hfile).trans (hmalformed _ hfile h)
  unreadable hfree hfile := hunread _ hfree hfile

namespace Metadata

variable {fs : FileSystem} {now : Timestamp} {indexDir : Path}

theorem load_failsExactly (hlimits : ∀ bytes, fs.read (indexDir.child fileName) = .ok bytes →
      Json.FileWithinLimits bytes) :
    FailsExactly fs [indexDir.child fileName] (indexDir.child fileName) Json.NoObject (fresh now)
      (load fs now indexDir) := by
  refine failsExactly_of_content (ofBytes now) ?_ ?_ ?_ ?_ ?_
  · rintro q cause ⟨before, behind, hpaths, -, hq⟩
    obtain rfl : indexDir.child fileName = q := by
      have hmem : q ∈ [indexDir.child fileName] := by rw [hpaths]; simp
      exact (List.mem_singleton.1 hmem).symm
    rw [load, FileSystem.isPresent_of_isBarred hq]
    rfl
  · intro bytes hfree hread
    rw [load, FileSystem.isPresent_of_not_isBarred (hfree _ List.mem_cons_self),
      FileSystem.isOk_stat_of_read hread, hread]
    rfl
  · intro e hfree hread
    rw [load, FileSystem.isPresent_of_not_isBarred (hfree _ List.mem_cons_self), hread]
    cases (fs.stat (indexDir.child fileName)).isOk <;> rfl
  · exact fun bytes e hread => ofBytes_eq_error_iff (hlimits bytes hread)
  · exact fun bytes hread h => ofBytes_of_isMalformed (hlimits bytes hread) h

end Metadata

namespace ProjectKind

variable {fs : FileSystem} {root : Path}

def manifestPath (root : Path) : Path := root.child "package.json".toList

theorem detect_failsExactly (hlimits : ∀ bytes, fs.read (manifestPath root) = .ok bytes →
      Json.FileWithinLimits bytes) :
    FailsExactly fs (indicatorPaths root) (manifestPath root) NoManifest (fromIndicators fs root [])
      (detect fs root) := by
  refine failsExactly_of_content (fun bytes => (frameworksIn bytes).map (fromIndicators fs root))
    (fun q cause hq => detect_of_firstBarred hq) ?_ ?_ ?_ ?_
  · intro bytes hfree hread
    have hstack : manifestStack fs root = frameworksIn bytes := by
      unfold manifestPath at hread
      rw [manifestStack, hread]
    rw [detect_eq hfree, hstack]
  · intro e hfree hread
    have hstack : manifestStack fs root = .ok [] := by
      unfold manifestPath at hread
      rw [manifestStack, hread]
    rw [detect_eq hfree, hstack]
    rfl
  · intro bytes e hread
    rw [← frameworksIn_eq_error_iff (hlimits bytes hread)]
    cases frameworksIn bytes <;> simp [Except.map]
  · intro bytes hread h
    rw [frameworksIn_of_isMalformed (hlimits bytes hread) h]
    rfl

end ProjectKind

/-- Metadata are not loaded exactly if their path cannot be looked up or there is no object in their
file. The kind of a project is not found exactly if the path of an indicator cannot be looked up or
there is no manifest in its file. Files that are not JSON or cannot be read are passed over. -/
theorem json_files_fail_exactly {fs : FileSystem} {indexDir root : Path} (now : Timestamp)
    (hmetadata : ∀ bytes, fs.read (indexDir.child Metadata.fileName) = .ok bytes →
      Json.FileWithinLimits bytes)
    (hmanifest : ∀ bytes, fs.read (ProjectKind.manifestPath root) = .ok bytes →
      Json.FileWithinLimits bytes) :
    FailsExactly fs [indexDir.child Metadata.fileName] (indexDir.child Metadata.fileName)
      Json.NoObject (Metadata.fresh now) (Metadata.load fs now indexDir) ∧
    FailsExactly fs (ProjectKind.indicatorPaths root) (ProjectKind.manifestPath root)
      ProjectKind.NoManifest (ProjectKind.fromIndicators fs root []) (ProjectKind.detect fs root) :=
  ⟨Metadata.load_failsExactly hmetadata, ProjectKind.detect_failsExactly hmanifest⟩

/-- A project with an array for its metadata and a manifest with no object for the dependencies. -/
def misshapenFiles : FileSystem :=
  (((FileSystem.empty .standard []).put ["i".toList] .openDir).put
    ["i".toList, Metadata.fileName]
      (.file ⟨Utf8.encode "[\r\n]\r".toList, .finite false 1 0, false⟩)).put
    ["package.json".toList]
      (.file ⟨Utf8.encode "\x7b\"dependencies\": null\x7d".toList, .finite false 1 0, false⟩)

theorem misshapenFiles_fail :
    Metadata.load misshapenFiles ⟨2024, 1, 1, 0, 0, 0, 0⟩ ⟨.root, ["i".toList]⟩ = .error .noFields ∧
      ∃ bytes, misshapenFiles.read (ProjectKind.manifestPath ⟨.root, []⟩) = .ok bytes ∧
        ProjectKind.NoManifest bytes .unsupported := by
  have hread : misshapenFiles.read (.child ⟨.root, ["i".toList]⟩ Metadata.fileName) =
      .ok (Utf8.encode "[\r\n]\r".toList) := by decide +kernel
  have hread' : misshapenFiles.read (ProjectKind.manifestPath ⟨.root, []⟩) =
      .ok (Utf8.encode "\x7b\"dependencies\": null\x7d".toList) := by decide +kernel
  obtain ⟨hload, hdetect⟩ := @json_files_fail_exactly misshapenFiles ⟨.root, ["i".toList]⟩ ⟨.root, []⟩
    ⟨2024, 1, 1, 0, 0, 0, 0⟩
    (fun bytes h => by
      rw [hread] at h
      cases h
      decide +kernel)
    (fun bytes h => by
      rw [hread'] at h
      cases h
      decide +kernel)
  constructor
  · have hfree : ∀ cause, ¬misshapenFiles.IsBarred (.child ⟨.root, ["i".toList]⟩ Metadata.fileName)
        cause := by
      rintro cause ⟨-, hstat⟩
      have hok := FileSystem.isOk_stat_of_read hread
      rw [hstat] at hok
      cases hok
    have hdoc : Json.IsDocument "[\r\n]\r".toList (.arr []) :=
      ⟨[], _, ['\r'], by decide, by decide, rfl, @Json.Spells.emptyArray ['\r', '\n'] (by decide)⟩
    refine (hload.error_iff _).2 (.inr ⟨List.forall_mem_singleton.2 hfree, _, hread, ?_⟩)
    exact .noFields ⟨_, rfl, hdoc⟩ (by simp)
  · rcases (hdetect.error_iff .unsupported).1 (by decide +kernel) with ⟨q, cause, -, hq⟩ | ⟨-, h⟩
    · cases hq
    · exact h

/-- Files that cannot be opened: links to a name that is too long, and files below a directory that
cannot be searched. -/
def barredFiles : FileSystem :=
  (((((FileSystem.empty .standard []).put [Metadata.fileName] (.link (List.replicate 256 'a'))).put
    ["package.json".toList] (.link (List.replicate 256 'a'))).put
    ["d".toList] (.directory { Host.standard.newDir with searchable := false })).put
    ["d".toList, Metadata.fileName] (.file ⟨[], .finite false 1 0, false⟩)).put
    ["d".toList, "package.json".toList] (.file ⟨[], .finite false 1 0, false⟩)

/-- They keep both readers from giving anything. -/
theorem barredFiles_fail :
    ((barredFiles.read ⟨.root, [Metadata.fileName]⟩).isOk = false ∧
      (Metadata.load barredFiles ⟨2024, 1, 1, 0, 0, 0, 0⟩ ⟨.root, []⟩).isOk = false ∧
      (barredFiles.read (ProjectKind.manifestPath ⟨.root, []⟩)).isOk = false ∧
      (ProjectKind.detect barredFiles ⟨.root, []⟩).isOk = false) ∧
    (barredFiles.read ⟨.root, ["d".toList, Metadata.fileName]⟩).isOk = false ∧
      (Metadata.load barredFiles ⟨2024, 1, 1, 0, 0, 0, 0⟩ ⟨.root, ["d".toList]⟩).isOk = false ∧
      (barredFiles.read (ProjectKind.manifestPath ⟨.root, ["d".toList]⟩)).isOk = false ∧
      (ProjectKind.detect barredFiles ⟨.root, ["d".toList]⟩).isOk = false := by
  decide +kernel

end CodeIndex
