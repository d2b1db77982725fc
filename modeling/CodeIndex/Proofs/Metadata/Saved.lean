import CodeIndex.Proofs.Json.Lines
import CodeIndex.Proofs.Metadata.Records
import CodeIndex.Proofs.Text.Utf8

/-!
# Saving and loading metadata

Metadata that were loaded, and those that a run makes of them, hold only values that are read back as
they were written. So what is saved is loaded again, with its fields in their order.
-/

namespace CodeIndex

/-- An entry that a system can tell the modification time and the size of. -/
def Entry.Measured (e : Entry) : Prop :=
  e.isLink = false → (Metadata.measure e).1.IsCanonical ∧ (Metadata.measure e).1 ≠ .nan ∧
    (Metadata.measure e).2 < 2 ^ 63

instance : DecidablePred Entry.Measured := fun e =>
  inferInstanceAs (Decidable (e.isLink = false → _))

/-- A file system that can tell the modification time and the size of all files that can be
outlined. -/
def FileSystem.Measured (registry : Registry) (fs : FileSystem) : Prop :=
  ∀ x ∈ fs.entries, (registry.languageOf? ⟨.root, x.1⟩).isSome → x.2.Measured

instance (registry : Registry) (fs : FileSystem) : Decidable (fs.Measured registry) :=
  inferInstanceAs (Decidable (∀ x ∈ fs.entries, _ → _))

namespace Metadata

open Json

variable {fs : FileSystem} {m : Metadata} {now : Timestamp} {e : Entry} {fields : Fields}

/-- Metadata that are loaded again when they have been saved. -/
structure Loadable (m : Metadata) : Prop where
  version : m.version.Readable
  projectType : m.projectType.Readable
  createdAt : m.createdAt.Readable
  updatedAt : m.updatedAt.Readable
  files : m.files.Readable
  created : m.createdAt ≠ .null
  recorded : m.files ≠ .null

theorem loadable_fresh (now : Timestamp) : (fresh now).Loadable where
  version := readable_text _
  projectType := .null
  createdAt := readable_text _
  updatedAt := .null
  files := .obj [] List.nodup_nil (by simp) (by simp)
  created := by simp [fresh, Json.text]
  recorded := by simp [fresh]

theorem readable_named? {key : String} {default : Json} (h : ∀ f ∈ fields, Readable f.2)
    (hdefault : Readable default) : Readable ((named? fields key).getD default) := by
  cases hfield : named? fields key with
  | none => exact hdefault
  | some v =>
    obtain ⟨f, hf, rfl⟩ := Option.map_eq_some_iff.1 hfield
    exact h f (List.mem_of_find?_eq_some hf)

theorem readable_orElse {default v : Json} (hdefault : Readable default) (h : Readable v) :
    Readable (orElse default v) := by
  unfold orElse
  split
  · exact hdefault
  · exact h

theorem orElse_ne_null {default v : Json} (hdefault : default ≠ .null) : orElse default v ≠ .null := by
  unfold orElse
  split
  · exact hdefault
  · assumption

theorem loadable_ofFields (now : Timestamp) (h : Readable (.obj fields)) :
    (ofFields now fields).Loadable := by
  cases h with
  | obj _ hnodup hjoined hfields =>
    have hempty : Readable (.obj []) := .obj [] List.nodup_nil (by simp) (by simp)
    exact
      { version := readable_named? hfields (readable_text _)
        projectType := readable_named? hfields .null
        createdAt := readable_orElse (readable_text _) (readable_named? hfields .null)
        updatedAt := readable_named? hfields .null
        files := readable_orElse hempty (readable_named? hfields hempty)
        created := orElse_ne_null (by simp [Json.text])
        recorded := orElse_ne_null (by simp) }

theorem loadable_ofBytes {bytes : Bytes} (h : ofBytes now bytes = .ok m) : m.Loadable := by
  unfold ofBytes at h
  split at h
  · cases h
  · split at h
    · next hparse =>
      cases h
      exact loadable_ofFields now (readable_of_parse hparse)
    · cases h
    · next fault _ =>
      cases fault with
      | malformed =>
        cases h
        exact loadable_fresh now
      | tooManyDigits | tooDeep => cases h

theorem loadable_load {dir : Path} (h : load fs now dir = .ok m) : m.Loadable := by
  obtain ⟨present, -, h⟩ := bind_ok_iff.1 h
  split at h
  · split at h
    · exact loadable_ofBytes h
    · cases h
      exact loadable_fresh now
  · cases h
    exact loadable_fresh now

theorem readable_toJson (h : m.Loadable) : m.toJson.Readable := by
  refine .obj _ ?_ ?_ ?_
  · simp only [keys, List.map_cons, List.map_nil]
    decide
  · simp only [List.map_cons, List.map_nil, List.forall_mem_cons]
    exact ⟨isJoined_letters _, isJoined_letters _, isJoined_letters _, isJoined_letters _,
      isJoined_letters _, by simp⟩
  · simp only [List.map_cons, List.map_nil, List.forall_mem_cons]
    exact ⟨h.version, h.projectType, h.createdAt, h.updatedAt, h.files, by simp⟩

theorem depth_toJson (hw : m.isWritable = true) : m.toJson.depth ≤ Json.maxDepth := by
  rw [isWritable, List.all_eq_true] at hw
  simp only [List.forall_mem_cons, decide_eq_true_eq] at hw
  have hmax : Metadata.maxDepth = 494 := rfl
  simp only [toJson, Json.record, List.map_cons, List.map_nil, depth, depthOfFields, Json.maxDepth]
  omega

theorem ofFields_toJson (h : m.Loadable) :
    ofFields now [(letters "version".toList, m.version),
      (letters "project_type".toList, m.projectType), (letters "created_at".toList, m.createdAt),
      (letters "updated_at".toList, m.updatedAt), (letters "files".toList, m.files)] = m := by
  have horElse : ∀ {d v : Json}, v ≠ .null → orElse d v = v := by
    intro d v hv
    unfold orElse
    split
    · exact absurd rfl hv
    · rfl
  obtain ⟨version, projectType, createdAt, updatedAt, files⟩ := m
  simp [ofFields, named?, field?_cons, letters_injective.eq_iff, horElse h.created,
    horElse h.recorded]

/-- What is saved is loaded. -/
theorem ofBytes_text (h : m.Loadable) (hw : m.isWritable = true) :
    ofBytes now (Utf8.encode m.text) = .ok m := by
  have hparse : parse (Text.unifyLineEnds m.text) = .ok m.toJson := by
    have hreturn : '\r' ∉ m.text := (readable_toJson h).return_notMem .spread 0
    rw [Text.unifyLineEnds_of_notMem hreturn]
    exact parse_write (readable_toJson h) (depth_toJson hw) .spread
  unfold ofBytes
  rw [Utf8.decode?_encode]
  simp only [hparse, toJson, Json.record, List.map_cons, List.map_nil]
  exact congrArg Except.ok (ofFields_toJson h)

theorem Loadable.setProjectType {kind : Json} (h : m.Loadable) (hkind : kind.Readable) :
    (m.setProjectType kind).Loadable := { h with projectType := hkind }

theorem Loadable.touch (h : m.Loadable) (now : Timestamp) : (m.touch now).Loadable :=
  { h with updatedAt := readable_text _ }

theorem Loadable.mapRecords {g : Fields → Fields} (h : m.Loadable)
    (hg : ∀ fields, Readable (.obj fields) → Readable (.obj (g fields))) :
    (m.mapRecords g).Loadable := by
  cases hfiles : m.files with
  | obj fields =>
    rw [mapRecords_eq hfiles]
    exact { h with files := hg fields (hfiles ▸ h.files), recorded := by simp }
  | _ =>
    rw [mapRecords_eq_self fun fields hobj => ?_]
    · exact h
    · rw [hfiles] at hobj
      cases hobj

theorem readable_setField {k : Letters} {v : Json} (h : Readable (.obj fields)) (hk : IsJoined k)
    (hv : Readable v) : Readable (.obj (setField fields k v)) := by
  cases h with
  | obj _ hnodup hjoined hfields =>
    exact .obj _ (nodup_keys_setField hnodup)
      (forall_mem_setField (P := fun f => IsJoined f.1) hjoined hk)
      (forall_mem_setField (P := fun f => Readable f.2) hfields hv)

theorem readable_eraseField {k : Letters} (h : Readable (.obj fields)) :
    Readable (.obj (eraseField fields k)) := by
  cases h with
  | obj _ hnodup hjoined hfields =>
    have hsub : (eraseField fields k).Sublist fields := List.filter_sublist
    exact .obj _ (hnodup.sublist (hsub.map _)) (fun f hf => hjoined f (hsub.subset hf))
      fun f hf => hfields f (hsub.subset hf)

/-- An entry whose modification time and size can be written down in a record. -/
def IsRecordable (e : Entry) : Prop := (measure e).1.IsCanonical ∧ (measure e).2 < 2 ^ 63

instance : DecidablePred IsRecordable := fun e =>
  inferInstanceAs (Decidable ((measure e).1.IsCanonical ∧ (measure e).2 < 2 ^ 63))

theorem isRecordable_of_measured (h : e.Measured) : IsRecordable e := by
  cases hlink : e.isLink with
  | false => exact ⟨(h hlink).1, (h hlink).2.2⟩
  | true =>
    cases e with
    | link target => exact ⟨trivial, (by decide : 0 < 2 ^ 63)⟩
    | file | directory | special => cases hlink

theorem readable_record {page checksum : Json} (h : IsRecordable e) (hpage : page.Readable)
    (hchecksum : checksum.Readable) : Readable (Metadata.record e page checksum) := by
  have hsize : (Decimal.natText (measure e).2).length ≤ Json.maxDigits := by
    refine ((Decimal.length_natText_le_iff (by decide)).2 ?_).trans (by decide : 19 ≤ Json.maxDigits)
    exact h.2.trans (by decide)
  refine .obj _ ?_ ?_ ?_
  · simp only [keys, List.map_cons, List.map_nil]
    decide
  · simp only [List.map_cons, List.map_nil, List.forall_mem_cons]
    exact ⟨isJoined_letters _, isJoined_letters _, isJoined_letters _, isJoined_letters _, by simp⟩
  · simp only [List.map_cons, List.map_nil, List.forall_mem_cons]
    exact ⟨.real _ h.1, .int _ hsize, hpage, hchecksum, by simp⟩

theorem readable_recordOf {p : Path} (h : ∀ e, fs.get? p.names = some e → e.Measured) (page : Text) :
    Readable (recordOf fs page p) := by
  unfold recordOf
  split
  · next e hget => exact readable_record (isRecordable_of_measured (h e hget)) (readable_text page) .null
  · exact .null

theorem readable_recordAll {files : List Path} {page : Text}
    (h : ∀ p ∈ files, ∀ e, fs.get? p.names = some e → e.Measured) (hfields : Readable (.obj fields)) :
    Readable (.obj (recordAll fs page files fields)) := by
  induction files generalizing fields with
  | nil => exact hfields
  | cons p files ih =>
    exact ih (fun q hq => h q (List.mem_cons_of_mem _ hq)) (readable_setField hfields
      (isJoined_letters _) (readable_recordOf (h p List.mem_cons_self) page))

theorem sameValue_self {x : Double} (hx : x ≠ .nan) : x.sameValue x = true := by
  cases x with
  | nan => exact absurd rfl hx
  | infinite negative => simp [Double.sameValue]
  | finite negative m e => simp [Double.sameValue]

/-- Whether two entries have the same modification time and size. -/
def sameMeasure (a b : Double × Nat) : Bool := a.1.sameValue b.1 && a.2 == b.2

/-- An entry agrees with the record of another one if the two have the same modification time and
size. -/
theorem agrees_record_eq (e e' : Entry) (page checksum : Json) : ∃ fields,
    Metadata.record e page checksum = .obj fields ∧ fields ≠ [] ∧
      agrees fields e' = sameMeasure (measure e) (measure e') := by
  refine ⟨[(letters "mtime".toList, .real (measure e).1),
    (letters "size".toList, .int (measure e).2), (letters "indexed_in".toList, page),
    (letters "checksum".toList, checksum)], rfl, by simp, ?_⟩
  rw [Bool.eq_iff_iff]
  simp [agrees, sameMeasure, named?, field?_cons, sameNumber, number?, letters_injective.eq_iff]

/-- An entry agrees with the record that was made of it. -/
theorem agrees_record (h : (measure e).1 ≠ .nan) (page checksum : Json) :
    ∃ fields, Metadata.record e page checksum = .obj fields ∧ fields ≠ [] ∧
      agrees fields e = true := by
  obtain ⟨fields, hfields, hne, hagrees⟩ := agrees_record_eq e e page checksum
  exact ⟨fields, hfields, hne, by simp [hagrees, sameMeasure, sameValue_self h]⟩

/-- What is loaded, given what is at the path of the metadata. -/
def ofEntry (now : Timestamp) : Option Entry → Except Failure Metadata
  | some (.file data) => if data.denied then .ok (fresh now) else ofBytes now data.bytes
  | _ => .ok (fresh now)

theorem load_eq (fs : FileSystem) (now : Timestamp) (dir : Path) :
    load fs now dir = fs.look (dir.child fileName) >>= ofEntry now := by
  unfold load FileSystem.isPresent
  cases hlook : fs.look (dir.child fileName) with
  | error failure => rfl
  | ok found =>
    cases found with
    | none => rfl
    | some e =>
      have hother : (∀ data, e ≠ .file data) →
          ∃ failure, fs.read (dir.child fileName) = .error failure := by
        intro hfile
        cases hread : fs.read (dir.child fileName) with
        | error failure => exact ⟨failure, rfl⟩
        | ok bytes =>
          obtain ⟨data, hlook'⟩ := FileSystem.isFile_of_read hread
          rw [hlook] at hlook'
          cases hlook'
          exact absurd rfl (hfile data)
      cases e with
      | file data =>
        have hread := FileSystem.read_of_look hlook
        cases hdenied : data.denied with
        | true =>
          rw [hdenied] at hread
          simp [hread, ofEntry, hdenied, bind, Except.bind, Functor.map, Except.map, pure, Except.pure]
        | false =>
          rw [hdenied] at hread
          simp [hread, ofEntry, hdenied, bind, Except.bind, Functor.map, Except.map]
      | directory | link | special =>
        obtain ⟨failure, hread⟩ := hother fun _ => nofun
        simp [hread, ofEntry, bind, Except.bind, Functor.map, Except.map, pure, Except.pure]

/-- What is loaded depends only on what is at the path of the metadata. -/
theorem load_congr {fs' : FileSystem} {dir : Path}
    (h : fs'.look (dir.child fileName) = fs.look (dir.child fileName)) (now : Timestamp) :
    load fs' now dir = load fs now dir := by
  rw [load_eq, load_eq, h]

/-- Metadata that were saved are loaded again. -/
theorem load_of_save {fs' : FileSystem} {dir : Path} {u : Unit} (h : m.Loadable)
    (hok : (m.save dir).on fs = .ok (u, fs')) (now : Timestamp) : load fs' now dir = .ok m := by
  obtain ⟨hw, made, -, hwrite⟩ := save_on_ok_iff_write.1 hok
  have hload : load fs' now dir = ofBytes now (Utf8.encode m.text) := by
    rw [load_eq, FileSystem.look_of_write hwrite]
    simp [bind, Except.bind, ofEntry, FileSystem.written]
  rw [hload, ofBytes_text h hw]

end Metadata

end CodeIndex
