import CodeIndex.Indexing
import CodeIndex.Proofs.Action
import CodeIndex.Proofs.Catalogue
import CodeIndex.Proofs.Json.Fields

/-!
# Records of files

Recording a file sets the record of its path and leaves all others. When a page is written in parts,
the record names the last of them.
-/

namespace CodeIndex

namespace Metadata

open Json

variable {fs fs' : FileSystem} {m m' : Metadata} {p : Path} {e : Entry} {fields : Fields}
  {g g' : Fields → Fields}

/-- The records of the metadata are an object. -/
def HasRecords (m : Metadata) : Prop := ∃ fields, m.files = .obj fields

/-- The metadata with other records; what is no object stays. -/
def mapRecords (g : Fields → Fields) (m : Metadata) : Metadata :=
  { m with
    files := match m.files with
      | .obj fields => .obj (g fields)
      | v => v }

theorem mapRecords_eq (h : m.files = .obj fields) :
    m.mapRecords g = { m with files := .obj (g fields) } := by
  simp [mapRecords, h]

theorem mapRecords_files (h : m.files = .obj fields) : (m.mapRecords g).files = .obj (g fields) := by
  simp [mapRecords, h]

theorem mapRecords_mapRecords (g g' : Fields → Fields) (m : Metadata) :
    (m.mapRecords g).mapRecords g' = m.mapRecords (g' ∘ g) := by
  cases m with
  | mk version projectType createdAt updatedAt files => cases files <;> rfl

/-- Metadata stay as they are if their records do. -/
theorem mapRecords_eq_self (h : ∀ fields, m.files = .obj fields → g fields = fields) :
    m.mapRecords g = m := by
  cases m with
  | mk version projectType createdAt updatedAt files =>
    cases files with
    | obj fields => rw [mapRecords_eq rfl, h fields rfl]
    | _ => rfl

theorem mapRecords_id (m : Metadata) : m.mapRecords id = m := mapRecords_eq_self fun _ _ => rfl

theorem hasRecords_mapRecords : (m.mapRecords g).HasRecords ↔ m.HasRecords := by
  cases m with
  | mk version projectType createdAt updatedAt files =>
    cases files <;> simp [HasRecords, mapRecords]

/-- The record of a file as it is now, described on a page. -/
def recordOf (fs : FileSystem) (page : Text) (p : Path) : Json :=
  match fs.get? p.names with
  | some e => record e (.text page) .null
  | none => .null

theorem recordOf_eq (hget : fs.get? p.names = some e) (page : Text) :
    recordOf fs page p = record e (.text page) .null := by
  simp [recordOf, hget]

/-- The records with those of some files, all described on one page. -/
def recordAll (fs : FileSystem) (page : Text) (files : List Path) (fields : Fields) : Fields :=
  files.foldl (fun fields p => setField fields (letters p.toText) (recordOf fs page p)) fields

theorem letters_injective : Function.Injective letters :=
  List.map_injective_iff.2 fun _ _ h => Letter.char.inj h

theorem field?_recordAll_of_notMem {page : Text} {files : List Path} {key : Letters}
    (hkey : ∀ p ∈ files, key ≠ letters p.toText) :
    field? (recordAll fs page files fields) key = field? fields key := by
  induction files generalizing fields with
  | nil => rfl
  | cons p files ih =>
    refine (ih fun q hq => hkey q (List.mem_cons_of_mem _ hq)).trans ?_
    rw [field?_setField, if_neg (hkey p List.mem_cons_self)]

/-- Every recorded file has its record. -/
theorem field?_recordAll_of_mem {page : Text} {files : List Path}
    (hproper : ∀ p ∈ files, p.IsProper) (hnodup : files.Nodup) (hp : p ∈ files) :
    field? (recordAll fs page files fields) (letters p.toText) = some (recordOf fs page p) := by
  induction files generalizing fields with
  | nil => cases hp
  | cons q files ih =>
    obtain ⟨hq, hnodup⟩ := List.nodup_cons.1 hnodup
    by_cases hpq : p = q
    · subst hpq
      have hother : ∀ r ∈ files, letters p.toText ≠ letters r.toText := by
        intro r hr heq
        have hrp : p = r := (hproper p List.mem_cons_self).toText_injective
          (hproper r (List.mem_cons_of_mem _ hr)) (letters_injective heq)
        exact hq (hrp ▸ hr)
      refine (field?_recordAll_of_notMem hother).trans ?_
      rw [field?_setField, if_pos rfl]
    · exact ih (fun r hr => hproper r (List.mem_cons_of_mem _ hr)) hnodup
        ((List.mem_cons.1 hp).resolve_left hpq)

theorem recordAll_congr {page : Text} {files : List Path}
    (h : ∀ p ∈ files, fs.get? p.names = fs'.get? p.names) :
    recordAll fs page files fields = recordAll fs' page files fields := by
  unfold recordAll
  refine List.foldl_ext _ _ _ fun fields p hp => ?_
  rw [recordOf, recordOf, h p hp]

theorem update_ok_iff (h : fs.Plain) (hp : p.IsProper) (hget : fs.get? p.names = some e)
    {page checksum : Json} :
    m.update fs p.toText page checksum = .ok m' ↔
      fs.look p = .ok (some e) ∧ m.HasRecords ∧
        m' = m.mapRecords fun fields =>
          setField fields (letters p.toText) (record e page checksum) := by
  unfold update
  rw [hp.ofText_toText, bind_ok_iff]
  rcases FileSystem.look_of_get? h hp hget with hlook | ⟨cause, -, hlook⟩
  · simp only [hlook, Except.ok.injEq, exists_eq_left', true_and]
    cases hfiles : m.files with
    | obj fields =>
      rw [mapRecords_eq hfiles]
      simpa [HasRecords, hfiles, pure, Except.pure] using eq_comm
    | _ => simp [HasRecords, hfiles, throw, throwThe, MonadExceptOf.throw]
  · simp [hlook]

/-- Recording a file on several pages records it on the last one. -/
theorem foldlM_update_ok_iff (h : fs.Plain) (hp : p.IsProper) (hget : fs.get? p.names = some e)
    {pages : List Text} (hpages : pages ≠ []) :
    pages.foldlM (fun m page => m.update fs p.toText (.text page) .null) m = .ok m' ↔
      fs.look p = .ok (some e) ∧ m.HasRecords ∧
        m' = m.mapRecords fun fields =>
          setField fields (letters p.toText) (recordOf fs (pages.getLast hpages) p) := by
  induction pages generalizing m with
  | nil => exact absurd rfl hpages
  | cons page rest ih =>
    simp only [List.foldlM_cons, bind_ok_iff, update_ok_iff h hp hget]
    by_cases hrest : rest = []
    · subst hrest
      simp only [List.foldlM_nil, pure, Except.pure, Except.ok.injEq, List.getLast_singleton,
        recordOf_eq hget]
      constructor
      · rintro ⟨m₁, ⟨hlook, hrec, rfl⟩, rfl⟩
        exact ⟨hlook, hrec, rfl⟩
      · rintro ⟨hlook, hrec, rfl⟩
        exact ⟨_, ⟨hlook, hrec, rfl⟩, rfl⟩
    · simp only [ih hrest, List.getLast_cons hrest]
      constructor
      · rintro ⟨m₁, ⟨hlook, hrec, rfl⟩, -, -, rfl⟩
        refine ⟨hlook, hrec, ?_⟩
        rw [mapRecords_mapRecords]
        simp only [Function.comp_def, setField_setField]
      · rintro ⟨hlook, hrec, rfl⟩
        refine ⟨_, ⟨hlook, hrec, rfl⟩, hlook, hasRecords_mapRecords.2 hrec, ?_⟩
        rw [mapRecords_mapRecords]
        simp only [Function.comp_def, setField_setField]

@[simp]
theorem save_quiet (m : Metadata) (dir : Path) : (m.save dir).Quiet := by
  refine (Action.Quiet.change _).bind fun _ => ?_
  split
  · exact Action.Quiet.writeText _ _
  · exact (Action.Quiet.writeText _ _).bind fun _ => Action.Quiet.throw _

/-- Saving metadata that can be written makes their directory and writes their file. -/
theorem save_on_ok_iff_write {dir : Path} {u : Unit} : (m.save dir).on fs = .ok (u, fs') ↔
    m.isWritable = true ∧ ∃ made, fs.ensureDirs dir = .ok made ∧
      made.write (dir.child fileName) (Utf8.encode m.text) = .ok fs' := by
  unfold save
  by_cases hw : m.isWritable = true
  · simp only [hw, if_true, true_and]
    rw [Action.on_change_bind_ok_iff fun _ => Action.Quiet.writeText _ _]
    simp only [Action.on_writeText_ok_iff]
  · simp [hw, Action.on_bind_ok_iff]

end Metadata

namespace Indexing

open Metadata

variable {fs : FileSystem} {m m' : Metadata} {files : List Path} {pages : List Text}

/-- The records that a directory's pages leave, where every file is an entry. -/
theorem recordFiles_ok_iff (h : fs.Plain) (hproper : ∀ p ∈ files, p.IsProper)
    (hentry : ∀ p ∈ files, ∃ e, fs.get? p.names = some e) (hpages : pages ≠ []) :
    recordFiles m fs files pages = .ok m' ↔
      (∀ p ∈ files, ∃ e, fs.look p = .ok (some e)) ∧ (files ≠ [] → m.HasRecords) ∧
        m' = m.mapRecords (recordAll fs (pages.getLast hpages) files) := by
  unfold recordFiles
  induction files generalizing m with
  | nil =>
    have hid : recordAll fs (pages.getLast hpages) [] = id := rfl
    simpa [hid, mapRecords_id, pure, Except.pure] using eq_comm
  | cons p files ih =>
    obtain ⟨e, hget⟩ := hentry p List.mem_cons_self
    have hp := hproper p List.mem_cons_self
    simp only [List.foldlM_cons, bind_ok_iff, foldlM_update_ok_iff h hp hget hpages,
      ih (fun q hq => hproper q (List.mem_cons_of_mem _ hq))
        (fun q hq => hentry q (List.mem_cons_of_mem _ hq))]
    constructor
    · rintro ⟨m₁, ⟨hlook, hrec, rfl⟩, hlooks, -, rfl⟩
      refine ⟨fun q hq => ?_, fun _ => hrec, ?_⟩
      · rcases List.mem_cons.1 hq with rfl | hq
        · exact ⟨e, hlook⟩
        · exact hlooks q hq
      · rw [mapRecords_mapRecords]
        rfl
    · rintro ⟨hlooks, hrec, rfl⟩
      have hrec := hrec (List.cons_ne_nil _ _)
      obtain ⟨e', hlook⟩ := hlooks p List.mem_cons_self
      have hsame : fs.look p = .ok (some e) :=
        FileSystem.eq_some_of_look h hp hget hlook ▸ hlook
      refine ⟨_, ⟨hsame, hrec, rfl⟩, fun q hq => hlooks q (List.mem_cons_of_mem _ hq),
        fun _ => hasRecords_mapRecords.2 hrec, ?_⟩
      rw [mapRecords_mapRecords]
      rfl

end Indexing

end CodeIndex
