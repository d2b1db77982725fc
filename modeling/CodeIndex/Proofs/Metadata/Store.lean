import CodeIndex.Proofs.Metadata.Operations

/-!
# Metadata as a store of measurements

To tell whether a file has changed, metadata need to know one thing of it: its modification time and
size when it was last recorded. So they are a store with two levels, what is known now and what was
saved, and all work on them is work on that store. It is files that are kept track of: the time of a
directory also changes with what is put into it.
-/

namespace CodeIndex

namespace Metadata

open Json FileSystem

variable {fs fs' : FileSystem} {m m' : Metadata} {dir : Path} {path : Text} {s : Manager}
  {known : Text → Option (Double × Nat)}

/-- The modification times and sizes that are known of files by their paths, and those that were
saved. -/
structure Store where
  live : Text → Option (Double × Nat)
  saved : Text → Option (Double × Nat)

namespace Store

def empty : Store := ⟨fun _ => none, fun _ => none⟩

/-- What an operation does to the store, on the file system that it finds. -/
def apply (fs : FileSystem) (store : Store) : Operation → Store
  | .reopen _ => { store with live := store.saved }
  | .save _ => { store with saved := store.live }
  | .update path _ _ =>
    match fs.look (Path.ofText path) with
    | .ok (some (.file data)) =>
      { store with live := fun p => if p = path then some (measure (.file data)) else store.live p }
    | _ => store
  | .remove key => { store with live := fun p => if letters p = key then none else store.live p }
  | .cleanUp keys => { store with live := fun p => if letters p ∈ keys then none else store.live p }
  | .setProjectType _ => store
  | .change _ => store

end Store

/-- Whether a file is there and differs from what is known of it. -/
def differs (known : Option (Double × Nat)) : Option FileData → Bool
  | none => false
  | some data =>
    match known with
    | none => true
    | some measured => !sameMeasure measured (measure (.file data))

/-- What an operation records is a file, with a modification time and a size that can be written
down. -/
def Operation.RecordsFile (s : Manager) : Operation → Prop
  | .update path _ _ => ∀ e, s.fs.look (Path.ofText path) = .ok (some e) →
      e.isFile = true ∧ IsRecordable e
  | _ => True

theorem Operation.RecordsFile.measured {op : Operation} (h : op.RecordsFile s) :
    op.RecordsMeasured s := by
  cases op with
  | update path page checksum => exact fun e he => (h e he).2
  | _ => trivial

/-- A save succeeds, and what changes the file system otherwise leaves what is at the path of the
metadata. -/
def Operation.IsUndisturbed (dir : Path) (s : Manager) : Operation → Prop
  | .save now => ∃ result, ((s.metadata.touch now).save dir).on s.fs = .ok result
  | .change after => after.look (dir.child fileName) = s.fs.look (dir.child fileName)
  | _ => True

/-- Writing and deleting files does not disturb metadata that it leaves, whatever links there are. -/
theorem isUndisturbed_of_keepsWays (h : KeepsWays s.fs fs') (h' : KeepsWays fs' s.fs)
    (hkept : ∀ loc, s.fs.locate .entry (dir.child fileName) = .ok loc →
      fs'.get? loc = s.fs.get? loc) : (Operation.change fs').IsUndisturbed dir s :=
  h.look h' hkept

/-- What undisturbed work on an index comes to that has no metadata at first, and the store at that
point. -/
inductive Tracked (dir : Path) : Manager → Store → Prop
  | start {fs : FileSystem} (missing : fs.isPresent (dir.child fileName) = .ok false)
      (now : Timestamp) : Tracked dir ⟨fs, fresh now⟩ .empty
  | step {s : Manager} {store : Store} (before : Tracked dir s store) (op : Operation)
      (file : op.RecordsFile s) (undisturbed : op.IsUndisturbed dir s) :
      Tracked dir (s.apply dir op) (store.apply s.fs op)

theorem load_of_missing (h : fs.isPresent (dir.child fileName) = .ok false) (now : Timestamp) :
    load fs now dir = .ok (fresh now) := by
  unfold load
  rw [h]
  rfl

theorem Tracked.reached {store : Store} (h : Tracked dir s store) : Manager.Reached dir s := by
  induction h with
  | start missing now => exact .opened (load_of_missing missing now)
  | step before op file undisturbed ih => exact ih.step op file.measured

/-- A record that says what is known of a file, or none if nothing is. -/
inductive Records : Option (Double × Nat) → Option Json → Prop
  | unknown : Records none none
  | known (e : Entry) (page checksum : Json) :
      Records (some (measure e)) (some (record e page checksum))

/-- The records of metadata say what is known. -/
def Shows (m : Metadata) (known : Text → Option (Double × Nat)) : Prop :=
  ∃ fields, m.files = .obj fields ∧ ∀ p, Records (known p) (field? fields (letters p))

theorem shows_fresh (now : Timestamp) : (fresh now).Shows fun _ => none :=
  ⟨[], rfl, fun _ => .unknown⟩

theorem Shows.mapRecords {known' : Text → Option (Double × Nat)} {g : Fields → Fields}
    (h : m.Shows known)
    (hg : ∀ fields p, Records (known p) (field? fields (letters p)) →
      Records (known' p) (field? (g fields) (letters p))) : (m.mapRecords g).Shows known' := by
  obtain ⟨fields, hfiles, hrecords⟩ := h
  exact ⟨g fields, mapRecords_files hfiles, fun p => hg fields p (hrecords p)⟩

theorem Shows.record (h : m.Shows known) (e : Entry) (path : Text) (page checksum : Json) :
    (m.mapRecords fun fields => setField fields (letters path) (record e page checksum)).Shows
      fun p => if p = path then some (measure e) else known p := by
  refine h.mapRecords fun fields p hp => ?_
  rw [field?_setField]
  by_cases heq : p = path
  · rw [if_pos heq, if_pos (congrArg letters heq)]
    exact .known e page checksum
  · rwa [if_neg heq, if_neg fun hl => heq (letters_injective hl)]

theorem Shows.erase (h : m.Shows known) (key : Letters) :
    (m.mapRecords fun fields => eraseField fields key).Shows
      fun p => if letters p = key then none else known p := by
  refine h.mapRecords fun fields p hp => ?_
  rw [field?_eraseField]
  split
  · exact .unknown
  · exact hp

theorem Shows.removeKey (h : m.Shows known) (key : Letters) : ∃ m', m.removeKey key = .ok m' ∧
    m'.Shows fun p => if letters p = key then none else known p := by
  obtain ⟨fields, hfiles, -⟩ := id h
  have hok : m.removeKey key = .ok (m.mapRecords fun fields => eraseField fields key) := by
    rw [mapRecords_eq hfiles]
    simp [Metadata.removeKey, hfiles]
  exact ⟨_, hok, h.erase key⟩

theorem Shows.cleanUpKeys (h : m.Shows known) (keys : List Letters) :
    ∃ m', m.cleanUpKeys keys = .ok m' ∧
      m'.Shows fun p => if letters p ∈ keys then none else known p := by
  induction keys generalizing m known with
  | nil => exact ⟨m, rfl, by simpa using h⟩
  | cons key keys ih =>
    obtain ⟨m₁, hremove, h₁⟩ := h.removeKey key
    obtain ⟨m', hclean, h'⟩ := ih h₁
    refine ⟨m', ?_, ?_⟩
    · unfold Metadata.cleanUpKeys at hclean ⊢
      rw [List.foldlM_cons, hremove]
      exact hclean
    · have hsame : (fun p => if letters p ∈ key :: keys then none else known p) =
          fun p => if letters p ∈ keys then none else if letters p = key then none else known p := by
        funext p
        by_cases hkeys : letters p ∈ keys <;> by_cases hkey : letters p = key <;> simp [hkeys, hkey]
      rw [hsame]
      exact h'

/-- Joining the strings of records leaves what they say of files. -/
theorem Shows.joined (h : m.Shows known) : m.joined.Shows known := by
  obtain ⟨fields, hfiles, hrecords⟩ := h
  refine ⟨joinedFields fields, by rw [Metadata.joined, hfiles, Json.joined], fun p => ?_⟩
  rw [field?_joinedFields]
  have hrecord := hrecords p
  generalize known p = k at hrecord ⊢
  generalize field? fields (letters p) = r at hrecord
  cases hrecord with
  | unknown => exact .unknown
  | known e page checksum => exact .known e page.joined checksum.joined

theorem Shows.update (h : m.Shows known) (fs : FileSystem) (path : Text) (page checksum : Json) :
    m.update fs path page checksum = (fs.look (Path.ofText path)).map fun
      | none => m
      | some e => m.mapRecords fun fields =>
          setField fields (letters path) (Metadata.record e page checksum) := by
  obtain ⟨fields, hfiles, -⟩ := h
  unfold Metadata.update
  cases fs.look (Path.ofText path) with
  | error failure => rfl
  | ok found =>
    cases found with
    | none => rfl
    | some e =>
      simp only [mapRecords_eq hfiles, hfiles]
      rfl

theorem needsIndex_error {e : Failure} (h : fs.look (Path.ofText path) = .error e) :
    m.needsIndex fs path = .error e := by
  rw [needsIndex, h]
  rfl

/-- A file is found to be changed exactly if it differs from what is known of it. -/
theorem Shows.needsIndex {found : Option FileData} (h : m.Shows known)
    (hlook : fs.look (Path.ofText path) = .ok (found.map .file)) :
    m.needsIndex fs path = .ok (differs (known path) found) := by
  obtain ⟨fields, hfiles, hrecords⟩ := h
  rw [Metadata.needsIndex, hlook]
  cases found with
  | none => rfl
  | some data =>
    have hrecord := hrecords path
    generalize known path = k at hrecord
    generalize hr : field? fields (letters path) = r at hrecord
    cases hrecord with
    | unknown => simp [records, hfiles, hr, bind, Except.bind, differs, pure, Except.pure]
    | known e page checksum =>
      obtain ⟨rfields, hrfields, hne, hagrees⟩ := agrees_record_eq e (.file data) page checksum
      have hset : (obj rfields).isSet = true := by simpa [isSet] using hne
      simp [records, hfiles, hr, hset, hrfields, recordFields, bind, Except.bind, differs, pure,
        Except.pure, hagrees]

/-- Open metadata show what is known, and what would be loaded shows what was saved. -/
structure Refines (dir : Path) (s : Manager) (store : Store) : Prop where
  live : s.metadata.Shows store.live
  saved : ∀ now, ∃ m, load s.fs now dir = .ok m ∧ m.Shows store.saved

theorem refines_start (h : fs.isPresent (dir.child fileName) = .ok false) (now : Timestamp) :
    Refines dir ⟨fs, fresh now⟩ .empty :=
  ⟨shows_fresh now, fun later => ⟨_, load_of_missing h later, shows_fresh later⟩⟩

/-- An operation does to metadata what it does to the store. -/
theorem Refines.apply {store : Store} {op : Operation} (h : Refines dir s store)
    (hload : s.metadata.joined.Loadable) (hfile : op.RecordsFile s)
    (undisturbed : op.IsUndisturbed dir s) :
    Refines dir (s.apply dir op) (store.apply s.fs op) := by
  cases op with
  | reopen now =>
    obtain ⟨m, hm, hshows⟩ := h.saved now
    have happly : s.apply dir (.reopen now) = { s with metadata := m } := by
      simp only [Manager.apply, hm, Manager.become]
    rw [happly]
    exact ⟨hshows, h.saved⟩
  | save now =>
    obtain ⟨⟨⟨⟩, fs'⟩, hok⟩ := undisturbed
    have happly : s.apply dir (.save now) = ⟨fs', s.metadata.touch now⟩ := by
      simp only [Manager.apply, leftBy, hok]
    have hloadable : (s.metadata.touch now).joined.Loadable := by
      rw [joined_touch]
      exact hload.touch now
    have hshows : (s.metadata.touch now).Shows store.live := h.live
    rw [happly]
    exact ⟨hshows, fun later => ⟨_, load_of_save_joined hloadable hok later, hshows.joined⟩⟩
  | setProjectType kind => exact ⟨h.live, h.saved⟩
  | update path page checksum =>
    have hupdate := h.live.update s.fs path (.str page) (checksum.elim .null .str)
    cases hlook : s.fs.look (Path.ofText path) with
    | error failure =>
      simp only [Manager.apply, Store.apply, hupdate, hlook, Except.map, Manager.become]
      exact h
    | ok found =>
      cases found with
      | none =>
        simp only [Manager.apply, Store.apply, hupdate, hlook, Except.map, Manager.become]
        exact h
      | some e =>
        cases e with
        | file data =>
          simp only [Manager.apply, Store.apply, hupdate, hlook, Except.map, Manager.become]
          exact ⟨h.live.record (.file data) path _ _, h.saved⟩
        | directory | link | special => cases (hfile _ hlook).1
  | remove key =>
    obtain ⟨m', hm', hshows⟩ := h.live.removeKey key
    simp only [Manager.apply, hm', Manager.become]
    exact ⟨hshows, h.saved⟩
  | cleanUp keys =>
    obtain ⟨m', hm', hshows⟩ := h.live.cleanUpKeys keys
    simp only [Manager.apply, hm', Manager.become]
    exact ⟨hshows, h.saved⟩
  | change after =>
    refine ⟨h.live, fun now => ?_⟩
    obtain ⟨m, hm, hshows⟩ := h.saved now
    exact ⟨m, (load_congr undisturbed now).trans hm, hshows⟩

theorem Tracked.refines {store : Store} (h : Tracked dir s store) : Refines dir s store := by
  induction h with
  | start missing now => exact refines_start missing now
  | step before op file undisturbed ih =>
    exact ih.apply before.reached.loadable file undisturbed

/-- Whatever has been done since there were no metadata: at a path that names a file or nothing, a
change is found exactly if a file is there and nothing is known of it, or something else. A path that
cannot be looked up is a failure. -/
theorem needsIndex_eq_differs {store : Store} (h : Tracked dir s store) (path : Text) :
    (∀ found : Option FileData, s.fs.look (Path.ofText path) = .ok (found.map .file) →
      s.metadata.needsIndex s.fs path = .ok (differs (store.live path) found)) ∧
    ∀ e, s.fs.look (Path.ofText path) = .error e → s.metadata.needsIndex s.fs path = .error e :=
  ⟨fun _ hlook => h.refines.live.needsIndex hlook, fun _ => needsIndex_error⟩

/-- Nothing has a name that is too long, but asking for it does not say so. -/
theorem longName_unanswered :
    Tracked (Path.ofText "/idx".toList) ⟨FileSystem.empty .standard [], fresh (oddDay 1)⟩ .empty ∧
      (FileSystem.empty .standard []).get? [List.replicate 256 'a'] = none ∧
      (fresh (oddDay 1)).needsIndex (FileSystem.empty .standard []) ('/' :: List.replicate 256 'a') =
        .error (.refused .nameTooLong ('/' :: List.replicate 256 'a')) :=
  ⟨.start (by decide +kernel) _, by decide +kernel, by decide +kernel⟩

/-- A project without metadata, where they would be written to a file beside the index. -/
def unindexed : FileSystem :=
  ((((FileSystem.empty .standard []).put ["w".toList] .openDir).put
    ["w".toList, "idx".toList] .openDir).put
    ["w".toList, "idx".toList, fileName] (.link "/w/m.json".toList)).put
    ["w".toList, "a.py".toList] (.file ⟨[], .finite false (2 ^ 52) (-52), false⟩)

def recorded : Manager :=
  Manager.apply oddDir ⟨unindexed, fresh (oddDay 1)⟩
    (.update "/w/a.py".toList (letters "a.md".toList) none)

def recordedSaved : Manager := recorded.apply oddDir (.save (oddDay 2))

def emptied : FileSystem :=
  recordedSaved.fs.put ["w".toList, "m.json".toList] (.file ⟨[], .finite false 1 0, false⟩)

/-- Nothing is known any more once that file is empty, although it is not in the directory of the
index. -/
theorem emptied_needsIndex :
    (recordedSaved.apply oddDir (.reopen (oddDay 3))).metadata.needsIndex recordedSaved.fs
        "/w/a.py".toList = .ok false ∧
      ((recordedSaved.apply oddDir (.change emptied)).apply oddDir
        (.reopen (oddDay 3))).metadata.needsIndex emptied "/w/a.py".toList = .ok true := by
  decide +kernel

/-- The project after its metadata were saved and its file has grown. -/
def grown : FileSystem :=
  recordedSaved.fs.put ["w".toList, "a.py".toList]
    (.file ⟨Utf8.encode "x".toList, .finite false (2 ^ 52) (-52), false⟩)

def reopened : Manager :=
  (recordedSaved.apply oddDir (.change grown)).apply oddDir (.reopen (oddDay 3))

/-- When the index is opened again, the file is found to have changed. -/
theorem reopened_needsIndex : ∃ store, Tracked oddDir reopened store ∧
    store.live "/w/a.py".toList = some (.finite false (2 ^ 52) (-52), 0) ∧
    reopened.metadata.needsIndex reopened.fs "/w/a.py".toList = .ok true := by
  have hlook : unindexed.look (Path.ofText "/w/a.py".toList) =
      .ok (some (.file ⟨[], .finite false (2 ^ 52) (-52), false⟩)) := by decide +kernel
  have hstart : Tracked oddDir ⟨unindexed, fresh (oddDay 1)⟩ .empty :=
    .start (by decide +kernel) _
  have hrecorded := hstart.step (.update "/w/a.py".toList (letters "a.md".toList) none)
    (fun e he => by
      rw [hlook] at he
      cases he
      decide) trivial
  have hsaved := hrecorded.step (.save (oddDay 2)) trivial
    (exists_ok_of_isSome (by decide +kernel))
  have hmeta : recordedSaved.fs.locate .entry (oddDir.child fileName) =
      .ok ["w".toList, "m.json".toList] := by decide +kernel
  have hfree : recordedSaved.fs.isDirectoryAt ["w".toList, "a.py".toList] = false := by
    decide +kernel
  have hlink : ∀ target, recordedSaved.fs.get? ["w".toList, "a.py".toList] ≠
      some (.link target) := by
    have hfile : recordedSaved.fs.get? ["w".toList, "a.py".toList] =
        some (.file ⟨[], .finite false (2 ^ 52) (-52), false⟩) := by decide +kernel
    intro target
    rw [hfile]
    nofun
  have hopen : recordedSaved.fs.isSearchableAt ["w".toList, "a.py".toList] = true := by decide +kernel
  have hundisturbed : (Operation.change grown).IsUndisturbed oddDir recordedSaved := by
    have hne : ["w".toList, "a.py".toList] ≠ ([] : Location) := by simp
    refine isUndisturbed_of_keepsWays
      (keepsWays_put hne hfree hlink (fun target => nofun) rfl)
      (keepsWays_of_put hne hlink hopen (fun data => nofun) fun target => nofun) fun loc hloc => ?_
    rw [hmeta] at hloc
    cases hloc
    rw [grown, get?_put _ hne, if_neg (by decide)]
  have hreopened := (hsaved.step (.change grown) trivial hundisturbed).step (.reopen (oddDay 3))
    trivial trivial
  have hgrown : reopened.fs.look (Path.ofText "/w/a.py".toList) =
      .ok (some (.file ⟨Utf8.encode "x".toList, .finite false (2 ^ 52) (-52), false⟩)) := by
    decide +kernel
  exact ⟨_, hreopened, by decide +kernel,
    ((needsIndex_eq_differs hreopened _).1 (some _) hgrown).trans (by decide +kernel)⟩

end Metadata

end CodeIndex
