import CodeIndex.Proofs.Json.Joined
import CodeIndex.Proofs.Metadata.Saved

/-!
# Working with metadata

The metadata of an index are opened, changed, saved and opened again while other things happen to the
file system. Whatever metadata such work comes to, they are loaded as they were saved, but for the
halves of characters that were put side by side: those have become characters.
-/

namespace CodeIndex

namespace Metadata

open Json

variable {fs fs' : FileSystem} {m m' : Metadata} {dir : Path} {path : Text} {page checksum : Json}

/-- Metadata with the strings in their values joined. -/
def joined (m : Metadata) : Metadata :=
  ⟨m.version.joined, m.projectType.joined, m.createdAt.joined, m.updatedAt.joined, m.files.joined⟩

theorem toJson_joined (m : Metadata) : m.joined.toJson = m.toJson.joined := rfl

theorem joined_touch (m : Metadata) (now : Timestamp) : (m.touch now).joined = m.joined.touch now := by
  simp only [joined, touch, joined_text]

theorem isWritable_joined (m : Metadata) : m.joined.isWritable = m.isWritable := by
  simp only [isWritable, joined, List.all_cons, depth_joined]

/-- Metadata are saved alike when their strings have been joined. -/
theorem save_joined (m : Metadata) (dir : Path) : m.joined.save dir = m.save dir := by
  have htext : m.joined.text = m.text := by
    rw [text, toJson_joined, write_joined, text]
  rw [save, isWritable_joined, htext, save]

/-- Joining leaves metadata alone exactly if no string in them has the halves of a character side by
side. -/
theorem joined_eq_self_iff (m : Metadata) :
    m.joined = m ↔ ∀ ls ∈ m.toJson.strings, IsJoined ls := by
  rw [← Json.joined_eq_self_iff, ← toJson_joined]
  refine ⟨fun h => congrArg toJson h, fun h => ?_⟩
  obtain ⟨version, projectType, createdAt, updatedAt, files⟩ := m
  simpa [toJson, Json.record, joined] using h

theorem Loadable.joined_eq (h : m.Loadable) : m.joined = m := by
  simp only [joined, h.version.joined_eq, h.projectType.joined_eq, h.createdAt.joined_eq,
    h.updatedAt.joined_eq, h.files.joined_eq]

theorem joined_mapRecords {g g' : Fields → Fields}
    (h : ∀ fields, joinedFields (g fields) = g' (joinedFields fields)) :
    (m.mapRecords g).joined = m.joined.mapRecords g' := by
  cases hfiles : m.files with
  | obj fields =>
    have hjoined : m.joined.files = .obj (joinedFields fields) := by rw [joined, hfiles, Json.joined]
    rw [mapRecords_eq hfiles, mapRecords_eq hjoined, ← h]
    rfl
  | _ =>
    rw [mapRecords_eq_self, mapRecords_eq_self]
    · intro fields hobj
      rw [joined, hfiles] at hobj
      cases hobj
    · intro fields hobj
      rw [hfiles] at hobj
      cases hobj

theorem joined_setField (m : Metadata) (key : Letters) (v : Json) :
    (m.mapRecords fun fields => setField fields key v).joined =
      m.joined.mapRecords fun fields => setField fields key v.joined :=
  joined_mapRecords fun fields => joinedFields_setField fields key v

theorem joined_eraseField (m : Metadata) (key : Letters) :
    (m.mapRecords fun fields => eraseField fields key).joined =
      m.joined.mapRecords fun fields => eraseField fields key :=
  joined_mapRecords fun fields => joinedFields_eraseField fields key

/-- What is saved is loaded with its strings joined. -/
theorem load_of_save_joined {u : Unit} (h : m.joined.Loadable)
    (hok : (m.save dir).on fs = .ok (u, fs')) (now : Timestamp) : load fs' now dir = .ok m.joined := by
  rw [← save_joined] at hok
  exact load_of_save h hok now

/-- Metadata that are open, and the file system they are used on. -/
structure Manager where
  fs : FileSystem
  metadata : Metadata

/-- What can happen while metadata are open. The strings that are given may have halves of characters
in them, in any order. -/
inductive Operation where
  | reopen (now : Timestamp)
  | save (now : Timestamp)
  | setProjectType (kind : Letters)
  | update (path : Text) (page : Letters) (checksum : Option Letters)
  | remove (key : Letters)
  | cleanUp (keys : List Letters)
  /-- Something else changes the file system. -/
  | change (after : FileSystem)

/-- The new metadata, or the ones that were open if there was a failure. -/
def Manager.become (s : Manager) : Except Failure Metadata → Manager
  | .ok m => { s with metadata := m }
  | .error _ => s

/-- The file system that an action leaves, whether it fails or not. -/
def leftBy (action : Action Unit) (fs : FileSystem) : FileSystem :=
  match action.on fs with
  | .ok (_, fs') => fs'
  | .error (_, fs') => fs'

/-- What an operation on the metadata of an index leaves. A save marks the metadata as changed even
when it fails. -/
def Manager.apply (dir : Path) (s : Manager) : Operation → Manager
  | .reopen now => s.become (load s.fs now dir)
  | .save now => ⟨leftBy ((s.metadata.touch now).save dir) s.fs, s.metadata.touch now⟩
  | .setProjectType kind => s.become (.ok (s.metadata.setProjectType (.str kind)))
  | .update path page checksum =>
    s.become (s.metadata.update s.fs path (.str page) (checksum.elim .null .str))
  | .remove key => s.become (s.metadata.removeKey key)
  | .cleanUp keys => s.become (s.metadata.cleanUpKeys keys)
  | .change after => { s with fs := after }

/-- What an operation records has a modification time that is a double of the machine and a size below
`2 ^ 63`. -/
def Operation.RecordsMeasured (s : Manager) : Operation → Prop
  | .update path _ _ => ∀ e, s.fs.look (Path.ofText path) = .ok (some e) → IsRecordable e
  | _ => True

theorem update_ok (hok : m.update fs path page checksum = .ok m') :
    (fs.look (Path.ofText path) = .ok none ∧ m' = m) ∨
      ∃ e, fs.look (Path.ofText path) = .ok (some e) ∧ m.HasRecords ∧
        m' = m.mapRecords fun fields => setField fields (letters path) (record e page checksum) := by
  obtain ⟨found, hlook, hok⟩ := bind_ok_iff.1 hok
  cases found with
  | none =>
    cases hok
    exact .inl ⟨hlook, rfl⟩
  | some e =>
    cases hfiles : m.files with
    | obj fields =>
      simp only [hfiles] at hok
      cases hok
      exact .inr ⟨e, hlook, ⟨fields, hfiles⟩, by rw [mapRecords_eq hfiles]⟩
    | _ =>
      simp only [hfiles] at hok
      cases hok

theorem removeKey_ok {key : Letters} (hok : m.removeKey key = .ok m') :
    m' = m.mapRecords fun fields => eraseField fields key := by
  unfold removeKey at hok
  have hself : ∀ {v : Json}, m.files = v → (∀ fields, v ≠ .obj fields) →
      m = m.mapRecords fun fields => eraseField fields key := fun hv hobj =>
    (mapRecords_eq_self fun fields hfields => absurd (hv.symm.trans hfields) (hobj fields)).symm
  split at hok
  · next fields hfiles =>
    cases hok
    rw [mapRecords_eq hfiles]
  · next items hfiles =>
    split at hok
    · cases hok
    · cases hok
      exact hself hfiles nofun
  · next ls hfiles =>
    split at hok
    · cases hok
    · cases hok
      exact hself hfiles nofun
  · cases hok

theorem loadable_removeKey {key : Letters} (h : m.joined.Loadable) (hok : m.removeKey key = .ok m') :
    m'.joined.Loadable := by
  rw [removeKey_ok hok, joined_eraseField]
  exact h.mapRecords fun _ => readable_eraseField

theorem loadable_cleanUpKeys {keys : List Letters} (h : m.joined.Loadable)
    (hok : m.cleanUpKeys keys = .ok m') : m'.joined.Loadable := by
  unfold cleanUpKeys at hok
  induction keys generalizing m with
  | nil =>
    cases hok
    exact h
  | cons key keys ih =>
    rw [List.foldlM_cons] at hok
    obtain ⟨m₁, hremove, hok⟩ := bind_ok_iff.1 hok
    exact ih (loadable_removeKey h hremove) hok

theorem readable_joined_str (ls : Letters) : (str ls).joined.Readable := .str _ (isJoined_joined ls)

theorem loadable_update {ls : Letters} {checksum : Option Letters} (h : m.joined.Loadable)
    (hentry : ∀ e, fs.look (Path.ofText path) = .ok (some e) → IsRecordable e)
    (hok : m.update fs path (.str ls) (checksum.elim .null .str) = .ok m') : m'.joined.Loadable := by
  rcases update_ok hok with ⟨-, rfl⟩ | ⟨e, hlook, -, rfl⟩
  · exact h
  · have hchecksum : (checksum.elim Json.null Json.str).joined.Readable := by
      cases checksum with
      | none => exact .null
      | some ls => exact readable_joined_str ls
    rw [joined_setField]
    exact h.mapRecords fun fields hfields => readable_setField hfields (isJoined_letters path)
      (readable_record (hentry e hlook) (readable_joined_str ls) hchecksum)

theorem Manager.loadable_become {s : Manager} {result : Except Failure Metadata}
    (h : s.metadata.joined.Loadable) (hresult : ∀ m, result = .ok m → m.joined.Loadable) :
    (s.become result).metadata.joined.Loadable := by
  cases result with
  | ok m => exact hresult m rfl
  | error failure => exact h

/-- Every operation comes to metadata that are loaded when they are saved. -/
theorem Manager.loadable_apply {s : Manager} {op : Operation} (h : s.metadata.joined.Loadable)
    (hop : op.RecordsMeasured s) : (s.apply dir op).metadata.joined.Loadable := by
  cases op with
  | reopen now =>
    refine loadable_become h fun m hm => ?_
    rw [(loadable_load hm).joined_eq]
    exact loadable_load hm
  | save now =>
    rw [apply, joined_touch]
    exact h.touch now
  | setProjectType kind => exact h.setProjectType (readable_joined_str kind)
  | update path page checksum => exact loadable_become h fun m => loadable_update h hop
  | remove key => exact loadable_become h fun m => loadable_removeKey h
  | cleanUp keys => exact loadable_become h fun m => loadable_cleanUpKeys h
  | change after => exact h

/-- What work on the metadata of an index can come to from some metadata that were loaded. -/
inductive Manager.Reached (dir : Path) : Manager → Prop
  | opened {fs : FileSystem} {now : Timestamp} {m : Metadata} (load : load fs now dir = .ok m) :
      Reached dir ⟨fs, m⟩
  | step {s : Manager} (before : Reached dir s) (op : Operation) (measured : op.RecordsMeasured s) :
      Reached dir (s.apply dir op)

theorem Manager.Reached.loadable {s : Manager} (h : Reached dir s) : s.metadata.joined.Loadable := by
  induction h with
  | opened load =>
    rw [(loadable_load load).joined_eq]
    exact loadable_load load
  | step before op measured ih => exact loadable_apply ih measured

/-- Whatever metadata have been loaded and whatever has been done with them since: once they are saved,
they are loaded with the same keys in the same order and with their strings joined, so as they were
exactly if no string in them has the halves of a character side by side. -/
theorem load_after_save {s : Manager} (h : Manager.Reached dir s) {now : Timestamp}
    (hok : ((s.metadata.touch now).save dir).on s.fs = .ok ((), fs')) (later : Timestamp) :
    load fs' later dir = .ok (s.metadata.touch now).joined ∧
    ((s.metadata.touch now).joined = s.metadata.touch now ↔
      ∀ ls ∈ (s.metadata.touch now).toJson.strings, IsJoined ls) := by
  have hloadable : (s.metadata.touch now).joined.Loadable := by
    rw [joined_touch]
    exact h.loadable.touch now
  exact ⟨load_of_save_joined hloadable hok later, joined_eq_self_iff _⟩

/-- An index whose metadata have a field that means nothing, a version that is a number and a record that
says nothing, beside a file with an odd name. -/
def oddIndex : FileSystem :=
  ((((FileSystem.empty .standard []).put ["w".toList] .openDir).put
    ["w".toList, "idx".toList] .openDir).put
    ["w".toList, "idx".toList, fileName] (.file
      ⟨Utf8.encode "\x7b\"extra\": [1], \"version\": 2, \"files\": \x7b\"z\": null\x7d\x7d".toList,
        .finite false 1 0, false⟩)).put
    ["w".toList, "a\"\\\n😀.py".toList] (.file ⟨[], .finite false (2 ^ 52) (-52), false⟩)

def oddDir : Path := ⟨.root, ["w".toList, "idx".toList]⟩

def oddDay (day : Nat) : Timestamp := ⟨2024, 1, day, 0, 0, 0, 0⟩

def oddOpened : Manager :=
  ⟨oddIndex, (load oddIndex (oddDay 1) oddDir).toOption.getD (fresh (oddDay 1))⟩

def oddUpdated : Manager :=
  oddOpened.apply oddDir (.update "/w/a\"\\\n😀.py".toList (letters "a.md".toList) none)

theorem reached_oddOpened : Manager.Reached oddDir oddOpened := by
  obtain ⟨m, hload⟩ : ∃ m, load oddIndex (oddDay 1) oddDir = .ok m :=
    exists_ok_of_isSome (by decide +kernel)
  have hopened : oddOpened = ⟨oddIndex, m⟩ := by rw [oddOpened, hload]; rfl
  exact hopened ▸ .opened hload

/-- Both records are loaded again, and no string has changed. -/
theorem oddUpdated_loaded : ∃ fs',
    ((oddUpdated.metadata.touch (oddDay 2)).save oddDir).on oddUpdated.fs = .ok ((), fs') ∧
    load fs' (oddDay 3) oddDir = .ok (oddUpdated.metadata.touch (oddDay 2)) ∧
    oddUpdated.metadata.records.toOption.map List.length = some 2 := by
  have hlook : oddOpened.fs.look (Path.ofText "/w/a\"\\\n😀.py".toList) =
      .ok (some (.file ⟨[], .finite false (2 ^ 52) (-52), false⟩)) := by decide +kernel
  have hupdated : Manager.Reached oddDir oddUpdated := by
    refine reached_oddOpened.step _ fun e he => ?_
    rw [hlook] at he
    cases he
    decide
  obtain ⟨⟨⟨⟩, fs'⟩, hok⟩ :
      ∃ result, ((oddUpdated.metadata.touch (oddDay 2)).save oddDir).on oddUpdated.fs = .ok result :=
    exists_ok_of_isSome (by decide +kernel)
  obtain ⟨hload, hsame⟩ := load_after_save hupdated hok (oddDay 3)
  have hwhole : ∀ ls ∈ (oddUpdated.metadata.touch (oddDay 2)).toJson.strings, IsJoined ls := by
    unfold IsJoined StayApart
    decide +kernel
  rw [hsame.2 hwhole] at hload
  exact ⟨fs', hok, hload, by decide +kernel⟩

/-- The two halves of one character. -/
def splitLetters : Letters := [.half ⟨0x3D, by decide⟩, .half ⟨0x600, by decide⟩]

def splitKind : Manager := oddOpened.apply oddDir (.setProjectType splitLetters)

/-- A kind that is set to the two halves of a character is loaded as that character. -/
theorem splitKind_changed : Manager.Reached oddDir splitKind ∧ ∃ fs' m,
    ((splitKind.metadata.touch (oddDay 2)).save oddDir).on splitKind.fs = .ok ((), fs') ∧
    load fs' (oddDay 3) oddDir = .ok m ∧ m.projectType = .text "😀".toList ∧
    m ≠ splitKind.metadata.touch (oddDay 2) := by
  have hreached : Manager.Reached oddDir splitKind := reached_oddOpened.step _ trivial
  have hloadable : (splitKind.metadata.touch (oddDay 2)).joined.Loadable := by
    rw [joined_touch]
    exact hreached.loadable.touch _
  obtain ⟨⟨⟨⟩, fs'⟩, hok⟩ :
      ∃ result, ((splitKind.metadata.touch (oddDay 2)).save oddDir).on splitKind.fs = .ok result :=
    exists_ok_of_isSome (by decide +kernel)
  have hsplit : (splitKind.metadata.touch (oddDay 2)).projectType = .str splitLetters := by
    simp only [splitKind, Manager.apply, Manager.become, setProjectType, touch]
  have hkind : (splitKind.metadata.touch (oddDay 2)).joined.projectType = .text "😀".toList := by
    rw [joined, hsplit]
    exact congrArg Json.str (by decide +kernel)
  refine ⟨hreached, fs', _, hok, load_of_save_joined hloadable hok _, hkind, fun hsame => ?_⟩
  rw [hsame, hsplit] at hkind
  simp [Json.text, letters, splitLetters] at hkind

end Metadata

end CodeIndex
