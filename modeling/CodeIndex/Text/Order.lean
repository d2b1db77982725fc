import CodeIndex.Text.Basic

/-!
# Orders of texts

A directory lists its names in an order of its own, and the members of a set come in an order that
nobody chose. The first is an order that can be asked about any two texts. Of the second only the
outcome is known: each member once.

Sorting by an order gives the members of a list, each once. The result is determined by them: lists
with the same members, as far as a test lets them through, are sorted alike as far as the test lets
them through.
-/

namespace CodeIndex

structure TextOrder where
  lt : Text → Text → Bool
  irrefl : ∀ t, lt t t = false
  trans : ∀ {t u v}, lt t u = true → lt u v = true → lt t v = true
  connected : ∀ {t u}, t ≠ u → lt t u = true ∨ lt u t = true

namespace TextOrder

def byCode : TextOrder where
  lt t u := decide (t < u)
  irrefl t := decide_eq_false (List.lt_irrefl t)
  trans htu huv := decide_eq_true (List.lt_trans (of_decide_eq_true htu) (of_decide_eq_true huv))
  connected {t u} hne := by
    rw [decide_eq_true_eq, decide_eq_true_eq]
    by_cases hlt : t < u
    · exact .inl hlt
    · exact .inr (Std.not_le.1 fun hle => hne (Std.le_antisymm hle (Std.not_lt.1 hlt)))

def insertOnce (o : TextOrder) (t : Text) : List Text → List Text
  | [] => [t]
  | u :: us =>
    if o.lt t u then t :: u :: us
    else if t = u then u :: us
    else u :: o.insertOnce t us

def sort (o : TextOrder) (ts : List Text) : List Text := ts.foldr o.insertOnce []

variable {o : TextOrder} {t u : Text} {ts us : List Text}

theorem mem_insertOnce : u ∈ o.insertOnce t ts ↔ u = t ∨ u ∈ ts := by
  induction ts with
  | nil => simp [insertOnce]
  | cons v ts ih =>
    rw [insertOnce]
    split
    · simp
    · split
      · next heq =>
        subst heq
        simp
      · simp only [List.mem_cons, ih]
        exact or_left_comm

theorem pairwise_insertOnce (h : ts.Pairwise (o.lt · ·)) :
    (o.insertOnce t ts).Pairwise (o.lt · ·) := by
  induction ts with
  | nil => exact List.pairwise_singleton _ _
  | cons v ts ih =>
    obtain ⟨hv, hts⟩ := List.pairwise_cons.1 h
    rw [insertOnce]
    split
    · next hlt =>
      refine List.pairwise_cons.2 ⟨fun w hw => ?_, h⟩
      rcases List.mem_cons.1 hw with rfl | hw
      · exact hlt
      · exact o.trans hlt (hv w hw)
    · next hge =>
      split
      · exact h
      · next hne =>
        have hgt : o.lt v t = true := (o.connected hne).resolve_left hge
        refine List.pairwise_cons.2 ⟨fun w hw => ?_, ih hts⟩
        rcases mem_insertOnce.1 hw with rfl | hw
        · exact hgt
        · exact hv w hw

theorem mem_sort : u ∈ o.sort ts ↔ u ∈ ts := by
  induction ts with
  | nil => exact Iff.rfl
  | cons t ts ih =>
    rw [sort, List.foldr_cons, mem_insertOnce, List.mem_cons]
    exact or_congr_right ih

theorem pairwise_sort (o : TextOrder) (ts : List Text) : (o.sort ts).Pairwise (o.lt · ·) := by
  induction ts with
  | nil => exact List.Pairwise.nil
  | cons t ts ih => exact pairwise_insertOnce ih

theorem nodup_of_pairwise (h : ts.Pairwise (o.lt · ·)) : ts.Nodup := by
  refine List.Pairwise.imp ?_ h
  rintro v w hlt rfl
  exact Bool.false_ne_true ((o.irrefl v).symm.trans hlt)

theorem nodup_sort (o : TextOrder) (ts : List Text) : (o.sort ts).Nodup :=
  nodup_of_pairwise (o.pairwise_sort ts)

theorem eq_of_pairwise (ht : ts.Pairwise (o.lt · ·)) (hu : us.Pairwise (o.lt · ·))
    (h : ∀ v, v ∈ ts ↔ v ∈ us) : ts = us := by
  have hperm : ts.Perm us :=
    (List.perm_ext_iff_of_nodup (nodup_of_pairwise ht) (nodup_of_pairwise hu)).2 h
  refine hperm.eq_of_pairwise (fun v w _ _ hvw hwv => ?_) ht hu
  exact absurd (o.trans hvw hwv) (by simp [o.irrefl])

theorem filter_sort_congr {test test' : Text → Bool}
    (h : ∀ v, (v ∈ ts ∧ test v = true) ↔ (v ∈ us ∧ test' v = true)) :
    (o.sort ts).filter test = (o.sort us).filter test' := by
  refine eq_of_pairwise ((o.pairwise_sort ts).filter _) ((o.pairwise_sort us).filter _)
    fun v => ?_
  rw [List.mem_filter, List.mem_filter, mem_sort, mem_sort]
  exact h v

theorem sort_congr (h : ∀ v, v ∈ ts ↔ v ∈ us) : o.sort ts = o.sort us :=
  eq_of_pairwise (o.pairwise_sort ts) (o.pairwise_sort us) fun v => by
    rw [mem_sort, mem_sort]
    exact h v

end TextOrder

def Text.sortedSet (ts : List Text) : List Text := TextOrder.byCode.sort ts

/-- An order in which the members of sets come. It may differ from one process to the next. -/
structure SetOrder where
  arrange : List Text → List Text
  nodup : ∀ ts, (arrange ts).Nodup
  mem_arrange : ∀ {ts t}, t ∈ arrange ts ↔ t ∈ ts

def SetOrder.byCode : SetOrder :=
  ⟨TextOrder.byCode.sort, TextOrder.byCode.nodup_sort, TextOrder.mem_sort⟩

end CodeIndex
