import CodeIndex.Json.Basic
import Mathlib.Data.List.Nodup

/-!
# Fields of objects

Setting a key changes the value of that key alone. A key that is set again keeps its place, so
setting the value it already has changes nothing.
-/

namespace CodeIndex.Json

variable {fields : Fields} {k key : Letters} {v w : Json}

/-- The keys of an object, in their order. -/
def keys (fields : Fields) : List Letters := fields.map Prod.fst

theorem any_key_iff : (fields.any fun f => f.1 = k) = true ↔ k ∈ keys fields := by
  simp [keys]

theorem keys_setField (fields : Fields) (k : Letters) (v : Json) :
    keys (setField fields k v) = if k ∈ keys fields then keys fields else keys fields ++ [k] := by
  unfold setField
  by_cases hk : k ∈ keys fields
  · rw [if_pos (any_key_iff.2 hk), if_pos hk]
    unfold keys
    rw [List.map_map]
    refine List.map_congr_left fun f _ => ?_
    by_cases hf : f.1 = k
    · simp [hf]
    · simp [hf]
  · rw [if_neg (mt any_key_iff.1 hk), if_neg hk]
    simp [keys]

theorem nodup_keys_setField (h : (keys fields).Nodup) : (keys (setField fields k v)).Nodup := by
  rw [keys_setField]
  split
  · exact h
  · next hk =>
    rw [← List.concat_eq_append]
    exact h.concat hk

theorem field?_eq_none_iff : field? fields k = none ↔ k ∉ keys fields := by
  simp only [field?, Option.map_eq_none_iff, List.find?_eq_none, decide_eq_true_eq, keys,
    List.mem_map, not_exists, not_and]

theorem field?_cons (f : Letters × Json) (fields : Fields) (key : Letters) :
    field? (f :: fields) key = if f.1 = key then some f.2 else field? fields key := by
  by_cases hf : f.1 = key
  · simp [field?, hf]
  · simp [field?, hf]

theorem field?_append (fields more : Fields) (key : Letters) :
    field? (fields ++ more) key = (field? fields key).or (field? more key) := by
  simp only [field?, List.find?_append]
  cases fields.find? fun f => decide (f.1 = key) <;> rfl

theorem field?_replaced (fields : Fields) (k key : Letters) (v : Json) :
    field? (fields.map fun f => if f.1 = k then (k, v) else f) key =
      if key = k then (field? fields k).map fun _ => v else field? fields key := by
  induction fields with
  | nil => simp [field?]
  | cons f fields ih =>
    rw [List.map_cons, field?_cons, ih, field?_cons, field?_cons]
    by_cases hf : f.1 = k
    · by_cases hkey : key = k
      · simp [hf, hkey]
      · simp [hf, hkey, Ne.symm hkey]
    · by_cases hkey : key = k
      · simp [hf, hkey]
      · simp [hf, hkey]

/-- A key that is set has its value, and all other keys keep theirs. -/
theorem field?_setField (fields : Fields) (k : Letters) (v : Json) (key : Letters) :
    field? (setField fields k v) key = if key = k then some v else field? fields key := by
  unfold setField
  by_cases hk : k ∈ keys fields
  · rw [if_pos (any_key_iff.2 hk), field?_replaced]
    obtain ⟨u, hu⟩ := Option.ne_none_iff_exists'.1 (mt field?_eq_none_iff.1 (not_not.2 hk))
    simp [hu]
  · rw [if_neg (mt any_key_iff.1 hk), field?_append]
    by_cases hkey : key = k
    · subst hkey
      rw [field?_eq_none_iff.2 hk]
      simp [field?]
    · simp [hkey, field?, Ne.symm hkey]

theorem field?_eraseField (fields : Fields) (k key : Letters) :
    field? (eraseField fields k) key = if key = k then none else field? fields key := by
  induction fields with
  | nil => simp [eraseField, field?]
  | cons f fields ih =>
    unfold eraseField at ih ⊢
    by_cases hf : f.1 = k
    · rw [List.filter_cons_of_neg (by simpa using hf), ih, field?_cons]
      split <;> simp_all [eq_comm]
    · rw [List.filter_cons_of_pos (by simpa using hf), field?_cons, field?_cons, ih]
      split <;> simp_all

theorem mem_keys_setField : k ∈ keys (setField fields k v) := by
  rw [keys_setField]
  split <;> simp_all

/-- The value that a key is set to last is the one that stays. -/
theorem setField_setField (fields : Fields) (k : Letters) (v w : Json) :
    setField (setField fields k v) k w = setField fields k w := by
  rw [setField, if_pos (any_key_iff.2 mem_keys_setField)]
  unfold setField
  split
  · rw [List.map_map]
    refine List.map_congr_left fun f _ => ?_
    by_cases hf : f.1 = k
    · simp [hf]
    · simp [hf]
  · next hk =>
    have hkept : (fields.map fun f => if f.1 = k then (k, w) else f) = fields := by
      refine (List.map_congr_left fun f hf => ?_).trans (List.map_id _)
      have hne : f.1 ≠ k := fun heq => hk (any_key_iff.2 (heq ▸ List.mem_map_of_mem hf))
      simp [hne]
    rw [List.map_append, hkept]
    simp

theorem eq_of_mem_of_field? (hnodup : (keys fields).Nodup) (hv : field? fields k = some v)
    {f : Letters × Json} (hf : f ∈ fields) (hk : f.1 = k) : f = (k, v) := by
  obtain ⟨g, hg, rfl⟩ := Option.map_eq_some_iff.1 hv
  have hgk : g.1 = k := by simpa using List.find?_some hg
  have heq : f = g :=
    List.inj_on_of_nodup_map hnodup hf (List.mem_of_find?_eq_some hg) (hk.trans hgk.symm)
  rw [heq, ← hgk]

/-- Setting a key to the value it has changes nothing. -/
theorem setField_of_field? (hnodup : (keys fields).Nodup) (hv : field? fields k = some v) :
    setField fields k v = fields := by
  have hk : k ∈ keys fields := by
    by_contra hk
    rw [field?_eq_none_iff.2 hk] at hv
    cases hv
  rw [setField, if_pos (any_key_iff.2 hk)]
  refine (List.map_congr_left fun f hf => ?_).trans (List.map_id _)
  by_cases heq : f.1 = k
  · rw [if_pos heq, eq_of_mem_of_field? hnodup hv hf heq]
    rfl
  · rw [if_neg heq]
    rfl

theorem setField_of_notMem (hk : k ∉ keys fields) : setField fields k v = fields ++ [(k, v)] := by
  rw [setField, if_neg (mt any_key_iff.1 hk)]

/-- Setting fields one after the other gives those fields if no key occurs twice. -/
theorem foldl_setField_of_nodup {done : Fields} (h : (keys (done ++ fields)).Nodup) :
    fields.foldl (fun done f => setField done f.1 f.2) done = done ++ fields := by
  induction fields generalizing done with
  | nil => simp
  | cons f fields ih =>
    have hnew : f.1 ∉ keys done := by
      intro hmem
      rw [keys, List.map_append, List.nodup_append] at h
      exact h.2.2 f.1 hmem f.1 List.mem_cons_self rfl
    rw [List.foldl_cons, setField_of_notMem hnew, ih (by simpa using h)]
    simp

theorem ofFields_of_nodup (h : (keys fields).Nodup) : ofFields fields = .obj fields := by
  rw [ofFields, foldl_setField_of_nodup (by simpa using h), List.nil_append]

theorem forall_mem_setField {P : Letters × Json → Prop} (hfields : ∀ f ∈ fields, P f)
    (hnew : P (k, v)) : ∀ f ∈ setField fields k v, P f := by
  intro f hf
  unfold setField at hf
  split at hf
  · obtain ⟨g, hg, rfl⟩ := List.mem_map.1 hf
    split
    · exact hnew
    · exact hfields g hg
  · rcases List.mem_append.1 hf with hf | hf
    · exact hfields f hf
    · rw [List.mem_singleton.1 hf]
      exact hnew

/-- Fields that are set one after the other keep what all of them have, and no key occurs twice. -/
theorem foldl_setField_spec {P : Letters × Json → Prop} {done : Fields}
    (hdone : ∀ f ∈ done, P f) (hfields : ∀ f ∈ fields, P f) (hnodup : (keys done).Nodup) :
    (∀ f ∈ fields.foldl (fun done f => setField done f.1 f.2) done, P f) ∧
      (keys (fields.foldl (fun done f => setField done f.1 f.2) done)).Nodup := by
  induction fields generalizing done with
  | nil => exact ⟨hdone, hnodup⟩
  | cons f fields ih =>
    exact ih (forall_mem_setField hdone (hfields f List.mem_cons_self))
      (fun g hg => hfields g (List.mem_cons_of_mem _ hg)) (nodup_keys_setField hnodup)

end CodeIndex.Json
