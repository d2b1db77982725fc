import CodeIndex.Outline.Python
import CodeIndex.Proofs.Parameters
import CodeIndex.Proofs.Text.Reader

/-!
# Headers of Python definitions

The pieces of a header are taken from the line it stands on: a name is a word, a pair of brackets ends at
the first closing one, and a result type at the first colon. The names shown of a list of parameters or
base classes are taken from that list. Of parameters that close their brackets they are shown one by one, in
order, less the empty ones.
-/

namespace CodeIndex.Python

open Text (IsWord)

variable {t u params bases : Text}

theorem paramName_subset (param : Text) : paramName param ⊆ param := by
  unfold paramName
  split
  · next hstar =>
    rw [← hstar]
    exact fun c hc => Text.trim_subset _
      ((List.takeWhile_sublist _).subset (Text.trim_subset _ hc))
  · exact fun c hc => Text.trim_subset _ (Text.leadingWord_subset _ hc)

theorem paramNames_subset (h : u ∈ paramNames params) : u ⊆ params := by
  obtain ⟨part, hpart, rfl⟩ := List.mem_map.1 (List.mem_filter.1 h).1
  intro c hc
  rw [← Parameters.intercalate_parts brackets params]
  exact Text.mem_intercalate hpart (paramName_subset part hc)

theorem baseNames_subset (h : u ∈ baseNames bases) : u ⊆ bases := by
  obtain ⟨piece, hpiece, rfl⟩ := List.mem_map.1 (List.mem_filter.1 h).1
  exact fun c hc => Text.mem_of_mem_pieces hpiece
    (Text.trim_subset piece (Text.leadingWord_subset _ hc))

theorem isWord_of_mem_baseNames (h : u ∈ baseNames bases) : IsWord u := by
  obtain ⟨hmem, hne⟩ := List.mem_filter.1 h
  obtain ⟨piece, -, rfl⟩ := List.mem_map.1 hmem
  exact Text.isWord_leadingWord (by simpa using hne)

/-- A header whose pieces are taken from a text. -/
inductive TakenFrom (t : Text) : Header → Prop where
  | ofClass {name : Text} {bases : Option Text} (word : IsWord name) (name_subset : name ⊆ t)
      (bases_subset : ∀ b ∈ bases, b ⊆ t) : TakenFrom t (.ofClass name bases)
  | ofFunction {isAsync : Bool} {name params : Text} {result : Option Text} (word : IsWord name)
      (name_subset : name ⊆ t) (params_subset : params ⊆ t) (params_end : ')' ∉ params)
      (result_subset : ∀ r ∈ result, r ⊆ t ∧ ':' ∉ r) :
      TakenFrom t (.ofFunction isAsync name params result)

theorem resultType_subset {rest result : Text} (h : resultType.parse t = some (result, rest)) :
    result ⊆ t ∧ ':' ∉ result := by
  simp only [resultType, Reader.bind_eq_some_iff, Reader.blanks, Reader.many_eq_some_iff,
    Reader.literal_eq_some_iff] at h
  obtain ⟨gap, _, ⟨rfl, -⟩, _, _, rfl, gap', _, ⟨rfl, -⟩, body, mid, ⟨rfl, hbody, -⟩, h⟩ := h
  split at h
  · exact absurd h Reader.fail_ne_some
  · obtain ⟨rfl, rfl⟩ := Reader.pure_eq_some_iff.1 h
    refine ⟨fun c hc => ?_, fun hc => ?_⟩
    · simp [Text.trim_subset body hc]
    · simpa using hbody ':' (Text.trim_subset body hc)

theorem takenFrom_classHeader {header : Header} {rest : Text}
    (h : classHeader.parse t = some (header, rest)) : TakenFrom t header := by
  simp only [classHeader, Reader.bind_eq_some_iff, Reader.keyword_eq_some_iff, Reader.word,
    Reader.many1_eq_some_iff, Reader.literal_eq_some_iff, Reader.pure_eq_some_iff,
    Reader.optional_eq_some_iff, Reader.between_eq_some_iff] at h
  obtain ⟨_, _, ⟨gap, -, rfl, -⟩, name, _, ⟨hne, rfl, hname, -⟩, bases, mid, hbases, _, _, rfl, rfl,
    rfl⟩ := h
  refine .ofClass ⟨hne, hname⟩ (fun c hc => by simp [hc]) fun b hb c hc => ?_
  rcases hbases with ⟨_, rfl, rfl, -⟩ | ⟨rfl, -⟩
  · obtain rfl := Option.mem_some.1 hb
    simp [hc]
  · cases hb

theorem takenFrom_functionHeader {header : Header} {rest : Text}
    (h : functionHeader.parse t = some (header, rest)) : TakenFrom t header := by
  simp only [functionHeader, Reader.bind_eq_some_iff, Reader.keyword_eq_some_iff, Reader.word,
    Reader.blanks, Reader.many_eq_some_iff, Reader.many1_eq_some_iff, Reader.literal_eq_some_iff,
    Reader.pure_eq_some_iff, Reader.optional_eq_some_iff, Reader.between_eq_some_iff] at h
  obtain ⟨marker, start, hmarker, _, _, ⟨gap, -, rfl, -⟩, name, _, ⟨hne, rfl, hname, -⟩, gap', _,
    ⟨rfl, -⟩, params, behind, ⟨rfl, hparams⟩, result, _, hresult, _, _, rfl, rfl, rfl⟩ := h
  have hrest : "def".toList ++ gap ++ (name ++ (gap' ++ ('(' :: params ++ ')' :: behind))) ⊆ t := by
    rcases hmarker with ⟨_, -, gap₀, -, rfl, -⟩ | ⟨-, -, rfl⟩
    · exact List.subset_append_right _ _
    · exact List.Subset.refl _
  refine .ofFunction ⟨hne, hname⟩ (fun c hc => hrest (by simp [hc])) (fun c hc => hrest (by simp [hc]))
    hparams fun r hr => ?_
  rcases hresult with ⟨_, rfl, hread⟩ | ⟨rfl, -⟩
  · obtain rfl := Option.mem_some.1 hr
    obtain ⟨hsubset, hcolon⟩ := resultType_subset hread
    exact ⟨fun c hc => hrest (by simp [hsubset hc]), hcolon⟩
  · cases hr

theorem takenFrom_header? {header : Header} (h : header? t = some header) : TakenFrom t header := by
  obtain ⟨⟨_, rest⟩, hread, rfl⟩ := Option.map_eq_some_iff.1 h
  rcases Reader.orElse_eq_some_iff.1 hread with hread | ⟨-, hread⟩
  · exact takenFrom_classHeader hread
  · exact takenFrom_functionHeader hread

/-! ### Lists of parameters -/

theorem paramNames_intercalate {ps : List Text} (h : ∀ p ∈ ps, Parameters.Whole brackets p) :
    paramNames ([','].intercalate ps) = (ps.map paramName).filter (!·.isEmpty) := by
  rcases List.eq_nil_or_concat ps with rfl | ⟨init, last, rfl⟩
  · decide
  · rw [List.concat_eq_append] at h ⊢
    have hinit : ∀ p ∈ init, Parameters.Whole brackets p := fun p hp => h p (List.mem_append_left _ hp)
    have hlast : Parameters.Whole brackets last := h last (by simp)
    have hparts := (Parameters.parts_eq_iff (by decide)).2 ⟨rfl, hinit, hlast.uncut⟩
    simp only [paramNames, hparts]

/-- Parameters of which each closes the brackets that it opens and has commas only inside brackets are shown
by their names, in order, less the empty ones. -/
theorem whole_params_shown_by_name {ps : List Text} (h : ∀ p ∈ ps, Parameters.Whole brackets p) :
    Text.commaJoin (paramNames ([','].intercalate ps)) =
      Text.commaJoin ((ps.map paramName).filter (!·.isEmpty)) := by
  rw [paramNames_intercalate h]

/-- Parameters with nested brackets, a blank one, and one whose brackets close before they open. -/
def tangledParams : List Text :=
  ["a: Dict[str, \x7bint, (str)\x7d] = f(1, 2)", " ", "*args: int", "b=),(", "**kw"].map String.toList

theorem tangledParams_shown_by_name :
    (∀ p ∈ tangledParams, Parameters.Whole brackets p) ∧
      Text.commaJoin (paramNames ([','].intercalate tangledParams)) = "a, *args, b, **kw".toList := by
  have hwhole : ∀ p ∈ tangledParams, Parameters.Whole brackets p := by decide
  refine ⟨hwhole, ?_⟩
  rw [whole_params_shown_by_name hwhole]
  decide

end CodeIndex.Python
