import CodeIndex.Metadata
import CodeIndex.Proofs.Json.Fields

/-!
# Cleaning up the records

The records of deleted files are removed one after the other. What is left depends only on which keys
are to go: the other records, in their order and as they were.
-/

namespace CodeIndex

namespace Json

variable {fields : Fields}

/-- Fields are erased together by erasing them one after the other. -/
theorem foldl_eraseField (fields : Fields) (gone : List Letters) :
    gone.foldl eraseField fields = fields.filter fun f => f.1 ∉ gone := by
  induction gone generalizing fields with
  | nil => simp
  | cons key gone ih =>
    rw [List.foldl_cons, ih, eraseField, List.filter_filter]
    refine List.filter_congr fun f _ => ?_
    simp only [List.mem_cons, not_or, Bool.decide_and, Bool.and_comm, ne_eq]

theorem keys_filter (fields : Fields) (p : Letters → Bool) :
    keys (fields.filter fun f => p f.1) = (keys fields).filter p := by
  rw [keys, keys, List.filter_map]
  rfl

end Json

namespace Metadata

open Json

variable {m : Metadata} {fields : Fields} {gone current : List Letters}

theorem removeKey_eq (hfiles : m.files = .obj fields) (key : Letters) :
    m.removeKey key = .ok { m with files := .obj (eraseField fields key) } := by
  simp only [removeKey, hfiles]

/-- Each removal works on what the ones before it have left. -/
theorem foldlM_removeKey (hfiles : m.files = .obj fields) (gone : List Letters) :
    gone.foldlM removeKey m = .ok { m with files := .obj (gone.foldl eraseField fields) } := by
  induction gone generalizing m fields with
  | nil =>
    rw [List.foldlM_nil, List.foldl_nil, ← hfiles]
    rfl
  | cons key gone ih =>
    rw [List.foldlM_cons, removeKey_eq hfiles]
    exact ih rfl

/-- What cleaning up leaves of records that are an object. -/
theorem cleanUpKeys_eq (hfiles : m.files = .obj fields) (gone : List Letters) :
    m.cleanUpKeys gone = .ok { m with files := .obj (fields.filter fun f => f.1 ∉ gone) } := by
  rw [cleanUpKeys, foldlM_removeKey hfiles, foldl_eraseField]

theorem deletedKeys_eq (hfiles : m.files = .obj fields) (current : List Letters) :
    m.deletedKeys current = .ok ((keys fields).filter fun key => key ∉ current) := by
  simp only [deletedKeys, records, hfiles, bind, Except.bind, pure, Except.pure, keys,
    List.contains_eq_mem, decide_not]

/-- Among the keys of an object, those to be deleted are exactly those that are not current. -/
theorem filter_deleted (fields : Fields) (current : List Letters) :
    (fields.filter fun f => f.1 ∉ (keys fields).filter fun key => key ∉ current) =
      fields.filter fun f => f.1 ∈ current := by
  refine List.filter_congr fun f hf => decide_eq_decide.2 ?_
  have hkey : f.1 ∈ keys fields := List.mem_map_of_mem hf
  simp [hkey]

/-- Cleaning up after the files that are gone leaves exactly the records of the current files, in their
order and as they were, and everything else in the metadata; then no recorded file is gone. For any keys,
whether they are recorded or not and however often they are given, cleaning up a second time changes
nothing, and neither the order of the keys nor their repetition matters. -/
theorem cleanUp_exact (hfiles : m.files = .obj fields) (current : List Letters) :
    (∃ gone m', m.deletedKeys current = .ok gone ∧ m.cleanUpKeys gone = .ok m' ∧
      m' = { m with files := .obj (fields.filter fun f => f.1 ∈ current) } ∧
      keys (fields.filter fun f => f.1 ∈ current) = (keys fields).filter (· ∈ current) ∧
      m'.deletedKeys current = .ok []) ∧
    ∀ gone, ∃ m', m.cleanUpKeys gone = .ok m' ∧ m'.cleanUpKeys gone = .ok m' ∧
      ∀ other : List Letters, (∀ key, key ∈ other ↔ key ∈ gone) → m.cleanUpKeys other = .ok m' := by
  refine ⟨⟨_, _, deletedKeys_eq hfiles current, cleanUpKeys_eq hfiles _, ?_, ?_, ?_⟩, fun gone => ?_⟩
  · rw [filter_deleted]
  · exact keys_filter fields (· ∈ current)
  · rw [deletedKeys_eq rfl, filter_deleted, keys_filter fields (· ∈ current), List.filter_filter]
    simp
  · refine ⟨_, cleanUpKeys_eq hfiles gone, ?_, fun other hother => ?_⟩
    · rw [cleanUpKeys_eq rfl, List.filter_filter]
      simp
    · rw [cleanUpKeys_eq hfiles]
      simp only [hother]

/-- Metadata with three records. One of them has a key that no file can have. -/
def threeRecords : Metadata :=
  { fresh ⟨2024, 1, 2, 3, 4, 5, 0⟩ with
    files := .obj [(letters "/w/a.py".toList, .null), ([.half 0], .int 1),
      (letters "/w/b.py".toList, .int 2)] }

/-- One of two current files is recorded, and its record alone is left. -/
theorem threeRecords_cleaned : ∃ gone m',
    threeRecords.deletedKeys [letters "/w/c.py".toList, letters "/w/b.py".toList] = .ok gone ∧
    gone.length = 2 ∧ threeRecords.cleanUpKeys gone = .ok m' ∧
    m'.files = .obj [(letters "/w/b.py".toList, .int 2)] := by
  obtain ⟨⟨gone, m', hgone, hclean, hleft, -, -⟩, -⟩ := cleanUp_exact (m := threeRecords) rfl
    [letters "/w/c.py".toList, letters "/w/b.py".toList]
  refine ⟨gone, m', hgone, ?_, hclean, ?_⟩
  · rw [deletedKeys_eq rfl] at hgone
    cases hgone
    decide
  · rw [hleft]
    rfl

end Metadata

end CodeIndex
