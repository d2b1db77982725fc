import CodeIndex.Proofs.Python.Entries

/-!
# Which functions Python files show

A function whose header stands unindented on one line is shown if the header can be read to its colon. Its
parameters are taken to end at the first closing bracket. So a header with a closing bracket among the
parameters is read only if what stands behind that bracket could itself end a header; any other such
function is left out, however well its brackets are nested.
-/

namespace CodeIndex.Python

open Text (IsWord)

variable {line name params inner t rest : Text} {ls : List Text} {isAsync inClass : Bool}
  {result : Option Text} {h : Header}

/-- The words that the header of a function begins with. -/
def opening (isAsync : Bool) : Text := (if isAsync then "async ".toList else []) ++ "def ".toList

/-- What stands in the header of a function behind the brackets. -/
def ending (result : Option Text) : Text := result.elim [] (" -> ".toList ++ ·) ++ [':']

/-- The header of a function, written on one line. -/
def functionLine (isAsync : Bool) (name params : Text) (result : Option Text) : Text :=
  opening isAsync ++ (name ++ '(' :: (params ++ ')' :: ending result))

/-- What can stand behind the closing bracket of a header: a colon, or an arrow and something that is no
colon. -/
def EndsHeader (t : Text) : Prop :=
  t.head? = some ':' ∨
    ∃ gap more, t = gap ++ '-' :: '>' :: more ∧ (∀ c ∈ gap, Text.isBlank c = true) ∧ more.head? ≠ some ':'

/-- Parameters behind whose first closing bracket, if there is one, the header could end. -/
def Closes (params : Text) : Prop :=
  ∀ before after, params = before ++ ')' :: after → ')' ∉ before → EndsHeader after

theorem closes_of_notMem (h : ')' ∉ params) : Closes params := by
  rintro before after rfl
  exact absurd (by simp) h

theorem closes_append_iff {before after : Text} (hbefore : ')' ∉ before) :
    Closes (before ++ ')' :: after) ↔ EndsHeader after := by
  constructor
  · intro hcloses
    exact hcloses before after rfl hbefore
  · intro hafter before' after' hsplit hbefore'
    obtain ⟨-, rfl⟩ := Text.append_cons_inj hbefore hbefore' hsplit
    exact hafter

/-- Texts in which every bracket is closed by its partner, and the last one opened is closed first. -/
inductive Nested : Text → Prop where
  | nil : Nested []
  | plain {c : Char} {t : Text} (not_opening : c ∉ brackets.opening) (not_closing : c ∉ brackets.closing)
      (rest : Nested t) : Nested (c :: t)
  | group {opening closing : Char} {t u : Text}
      (pair : (opening, closing) ∈ brackets.opening.zip brackets.closing) (inner : Nested t)
      (rest : Nested u) : Nested (opening :: (t ++ closing :: u))

theorem trim_trimLeft (t : Text) : Text.trim (Text.trimLeft t) = Text.trim t := by
  obtain ⟨-, -, -, hbody⟩ := exists_gap t
  rw [Text.trim, trimLeft_of_isUnindented hbody, Text.trim]

/-- A result type is all that stands between the arrow and the colon. -/
theorem resultType_arrow {gap r : Text} (hgap : ∀ c ∈ gap, Text.isBlank c = true) (hne : r ≠ [])
    (hr : ∀ c ∈ r, c ≠ ':' ∧ c ≠ '\n') :
    resultType.parse (gap ++ '-' :: '>' :: (r ++ ':' :: rest)) = some (Text.trim r, ':' :: rest) := by
  obtain ⟨gap', hr', hgap', hbody⟩ := exists_gap r
  have hnot : ¬(gap'.isEmpty && (Text.trimLeft r).isEmpty) = true := fun hempty => by
    rw [Bool.and_eq_true, List.isEmpty_iff, List.isEmpty_iff] at hempty
    rw [hempty.1, hempty.2] at hr'
    exact hne hr'
  have hblanks : Reader.blanks.parse (gap ++ '-' :: '>' :: (r ++ ':' :: rest)) =
      some (gap, '-' :: '>' :: (r ++ ':' :: rest)) := by
    refine Reader.many_eq_some_iff.2 ⟨rfl, hgap, ?_⟩
    rintro c ⟨⟩
    decide
  have harrow : (Reader.literal "->".toList).parse ('-' :: '>' :: (r ++ ':' :: rest)) =
      some ((), r ++ ':' :: rest) :=
    Reader.literal_eq_some_iff.2 rfl
  have hblanks' : Reader.blanks.parse (r ++ ':' :: rest) = some (gap', Text.trimLeft r ++ ':' :: rest) := by
    refine Reader.many_eq_some_iff.2 ⟨?_, hgap', ?_⟩
    · rw [← List.append_assoc, ← hr']
    · cases hcase : Text.trimLeft r with
      | nil =>
        rintro c ⟨⟩
        decide
      | cons d ds =>
        rintro c ⟨⟩
        exact hbody d (by rw [hcase]; rfl)
  have hmany : (Reader.many fun c => c != ':' && c != '\n').parse (Text.trimLeft r ++ ':' :: rest) =
      some (Text.trimLeft r, ':' :: rest) := by
    refine Reader.many_eq_some_iff.2 ⟨rfl, fun c hc => ?_, ?_⟩
    · simpa using hr c (Text.trimLeft_subset r hc)
    · rintro c ⟨⟩
      decide
  rw [resultType, Reader.bind_of_eq_some hblanks, Reader.bind_of_eq_some harrow,
    Reader.bind_of_eq_some hblanks', Reader.bind_of_eq_some hmany, if_neg hnot, trim_trimLeft]
  rfl

/-- On a line with a colon, what stands behind the closing bracket is read up to a colon exactly if it can
end a header. -/
theorem endsHeader_iff (hcolon : ':' ∈ t) (hline : '\n' ∉ t) :
    EndsHeader t ↔ ∃ result rest, (Reader.optional resultType).parse t = some (result, ':' :: rest) := by
  constructor
  · rintro (hhead | ⟨gap, more, rfl, hgap, hhead⟩)
    · obtain ⟨rest, rfl⟩ := List.head?_eq_some_iff.1 hhead
      exact ⟨none, rest, Reader.optional_eq_some_iff.2 (.inr ⟨rfl, rfl, rfl⟩)⟩
    · have hmore : ':' ∈ more := by
        rcases List.mem_append.1 hcolon with hmem | hmem
        · exact absurd (hgap _ hmem) (by decide)
        · simpa using hmem
      obtain ⟨r, rest, rfl, hr⟩ := List.eq_append_cons_of_mem hmore
      have hne : r ≠ [] := by
        rintro rfl
        exact hhead rfl
      refine ⟨some (Text.trim r), rest, Reader.optional_eq_some_iff.2 (.inl ⟨_, rfl, ?_⟩)⟩
      refine resultType_arrow hgap hne fun c hc => ⟨?_, ?_⟩
      · rintro rfl
        exact hr hc
      · rintro rfl
        exact hline (by simp [hc])
  · rintro ⟨result, rest, hread⟩
    rcases Reader.optional_eq_some_iff.1 hread with ⟨r, -, hr⟩ | ⟨-, -, rfl⟩
    · simp only [resultType, Reader.bind_eq_some_iff, Reader.blanks, Reader.many_eq_some_iff,
        Reader.literal_eq_some_iff] at hr
      obtain ⟨gap, _, ⟨rfl, hgap, -⟩, _, more, rfl, lead, _, ⟨rfl, hlead, -⟩, body, mid, ⟨rfl, hbody, -⟩,
        hr⟩ := hr
      refine .inr ⟨gap, _, rfl, hgap, fun hhead => ?_⟩
      split at hr
      · exact absurd hr Reader.fail_ne_some
      · next hne =>
        -- A colon is neither white space nor part of the result type.
        cases lead with
        | cons c lead =>
          obtain rfl : c = ':' := by simpa using hhead
          exact absurd (hlead ':' List.mem_cons_self) (by decide)
        | nil =>
          cases body with
          | nil => exact hne rfl
          | cons c body =>
            obtain rfl : c = ':' := by simpa using hhead
            simpa using hbody ':' List.mem_cons_self
    · exact .inl rfl

/-- Whether a header could end behind a closing bracket is settled before the next one. -/
theorem endsHeader_append : EndsHeader (t ++ ')' :: rest) ↔ EndsHeader t := by
  constructor
  · rintro (hhead | ⟨gap, more, hsplit, hgap, hhead⟩)
    · cases t with
      | nil => cases hhead
      | cons c t => exact .inl hhead
    · obtain ⟨more', rfl, rfl⟩ : ∃ more', t = gap ++ '-' :: '>' :: more' ∧ more = more' ++ ')' :: rest := by
        have hcut : t ++ ')' :: rest = (gap ++ ['-', '>']) ++ more := by simpa using hsplit
        rcases List.append_eq_append_iff.1 hcut with ⟨excess, hexcess, hrest⟩ | ⟨more', rfl, rfl⟩
        · cases excess with
          | nil => exact ⟨[], by simpa using hexcess.symm, hrest.symm⟩
          | cons c excess =>
            obtain rfl : c = ')' := (List.cons.inj hrest).1.symm
            have hmem : ')' ∈ gap ++ ['-', '>'] := hexcess ▸ by simp
            rcases List.mem_append.1 hmem with hmem | hmem
            · exact absurd (hgap _ hmem) (by decide)
            · exact absurd hmem (by decide)
        · exact ⟨more', by simp, rfl⟩
      refine .inr ⟨gap, more', rfl, hgap, fun hcolon => hhead ?_⟩
      rw [List.head?_append, hcolon, Option.some_or]
  · rintro (hhead | ⟨gap, more, rfl, hgap, hhead⟩)
    · obtain ⟨t, rfl⟩ := List.head?_eq_some_iff.1 hhead
      exact .inl rfl
    · refine .inr ⟨gap, more ++ ')' :: rest, by simp, hgap, ?_⟩
      cases more with
      | nil => exact fun hcolon => absurd (Option.some.inj hcolon) (by decide)
      | cons c more => exact hhead

/-- Where the first closing bracket behind the opening one stands, and what stands behind it. -/
theorem exists_firstBracket (params : Text) (hend : EndsHeader t) :
    ∃ behind, params ++ ')' :: t = params.takeWhile (· != ')') ++ ')' :: behind ∧ t <:+ behind ∧
      (EndsHeader behind ↔ Closes params) ∧ (')' ∉ params → behind = t) := by
  by_cases hmem : ')' ∈ params
  · obtain ⟨before, after, rfl, hbefore⟩ := List.eq_append_cons_of_mem hmem
    have hsplit : before ++ ')' :: after ++ ')' :: t = before ++ ')' :: (after ++ ')' :: t) := by simp
    refine ⟨after ++ ')' :: t, ?_, ⟨after ++ [')'], by simp⟩, ?_, fun hnot => absurd hmem hnot⟩
    · rw [hsplit, Text.takeWhile_append_sep hbefore]
    · rw [endsHeader_append, closes_append_iff hbefore]
  · rw [Text.takeWhile_of_notMem hmem]
    exact ⟨t, rfl, List.suffix_refl t, iff_of_true hend (closes_of_notMem hmem), fun _ => rfl⟩

theorem endsHeader_ending (result : Option Text) : EndsHeader (ending result) := by
  cases result with
  | none => exact .inl rfl
  | some r => exact .inr ⟨[' '], ' ' :: (r ++ [':']), rfl, List.forall_mem_singleton.2 rfl, by simp⟩

theorem optional_resultType_ending (hresult : ∀ r ∈ result, ∀ c ∈ r, c ≠ ':' ∧ c ≠ '\n') :
    (Reader.optional resultType).parse (ending result) = some (result.map Text.trim, [':']) := by
  cases result with
  | none => exact Reader.optional_eq_some_iff.2 (.inr ⟨rfl, rfl, rfl⟩)
  | some r =>
    have hr : ∀ c ∈ ' ' :: r, c ≠ ':' ∧ c ≠ '\n' :=
      List.forall_mem_cons.2 ⟨by decide, hresult r rfl⟩
    have hread : resultType.parse (ending (some r)) = some (Text.trim (' ' :: r), [':']) :=
      resultType_arrow (List.forall_mem_singleton.2 rfl) (List.cons_ne_nil _ _) hr
    have htrim : Text.trim (' ' :: r) = Text.trim r := by
      rw [← trim_trimLeft, ← trim_trimLeft r]
      rfl
    rw [htrim] at hread
    exact Reader.optional_eq_some_iff.2 (.inl ⟨_, rfl, hread⟩)

/-- What is read of a function behind the words that its header begins with. -/
def behindOpening (isAsync : Bool) : Reader Header := do
  let name ← Reader.word
  let _ ← Reader.blanks
  let params ← Reader.between '(' ')'
  let result ← Reader.optional resultType
  Reader.literal [':']
  return .ofFunction isAsync name params result

theorem functionHeader_opening (ht : IsUnindented t) :
    functionHeader.parse (opening isAsync ++ t) = (behindOpening isAsync).parse t := by
  have hdef : (Reader.keyword "def".toList).parse ("def ".toList ++ t) = some ((), t) :=
    Reader.keyword_eq_some_iff.2 ⟨[' '], List.cons_ne_nil _ _, rfl, List.forall_mem_singleton.2 rfl, ht⟩
  have hasync : (Reader.optional (Reader.keyword "async".toList)).parse (opening isAsync ++ t) =
      some (if isAsync then some () else none, "def ".toList ++ t) := by
    rw [Reader.optional_eq_some_iff]
    cases isAsync with
    | true =>
      refine .inl ⟨(), rfl, Reader.keyword_eq_some_iff.2
        ⟨[' '], List.cons_ne_nil _ _, rfl, List.forall_mem_singleton.2 rfl, ?_⟩⟩
      rintro c ⟨⟩
      decide
    | false => exact .inr ⟨rfl, rfl, rfl⟩
  rw [functionHeader, Reader.bind_of_eq_some hasync, Reader.bind_of_eq_some hdef]
  cases isAsync <;> rfl

theorem header?_opening (ht : IsUnindented t) :
    header? (opening isAsync ++ t) = ((behindOpening isAsync).parse t).map Prod.fst := by
  have hclass : classHeader.parse (opening isAsync ++ t) = none := by cases isAsync <;> rfl
  rw [← functionHeader_opening ht]
  simp only [header?, Reader.orElse, hclass, Option.none_or]

/-- A name is read up to the opening bracket if it is a word, and the parameters up to the first closing
one. -/
theorem behindOpening_eq_some_iff (hname : ∀ c ∈ name, c ≠ '(' ∧ Text.isBlank c = false) :
    (behindOpening isAsync).parse (name ++ '(' :: inner) = some (h, rest) ↔
      IsWord name ∧ ∃ params behind result, inner = params ++ ')' :: behind ∧ ')' ∉ params ∧
        (Reader.optional resultType).parse behind = some (result, ':' :: rest) ∧
        h = .ofFunction isAsync name params result := by
  simp only [behindOpening, Reader.word, Reader.blanks, Reader.bind_eq_some_iff, Reader.many_eq_some_iff,
    Reader.many1_eq_some_iff, Reader.between_eq_some_iff, Reader.literal_eq_some_iff,
    Reader.pure_eq_some_iff]
  constructor
  · rintro ⟨word, _, ⟨hne, hline, hword, -⟩, gap, _, ⟨rfl, hgap, -⟩, params, behind, ⟨rfl, hend⟩, result, _,
      hresult, _, _, rfl, rfl, rfl⟩
    have hbracket : '(' ∉ word ++ gap := fun hmem => by
      rcases List.mem_append.1 hmem with hmem | hmem
      · exact absurd (hword _ hmem) (by decide)
      · exact absurd (hgap _ hmem) (by decide)
    have hsplit : name ++ '(' :: inner = word ++ gap ++ '(' :: (params ++ ')' :: behind) := by
      rw [hline, List.append_assoc, List.cons_append]
    obtain ⟨rfl, rfl⟩ := Text.append_cons_inj (fun hmem => (hname _ hmem).1 rfl) hbracket hsplit
    -- White space in front of the bracket would be part of the name, which has none.
    obtain rfl : gap = [] := List.eq_nil_iff_forall_not_mem.2 fun c hc => by
      have hblank := hgap c hc
      rw [(hname c (List.mem_append_right word hc)).2] at hblank
      cases hblank
    rw [List.append_nil]
    exact ⟨⟨hne, hword⟩, params, behind, result, rfl, hend, hresult, rfl⟩
  · rintro ⟨hword, params, behind, result, rfl, hend, hresult, rfl⟩
    refine ⟨name, _, ⟨hword.1, rfl, hword.2, ?_⟩, [], _, ⟨rfl, ?_, ?_⟩, params, behind, ⟨rfl, hend⟩,
      result, _, hresult, (), _, rfl, rfl, rfl⟩
    · rintro c ⟨⟩
      decide
    · rintro c ⟨⟩
    · rintro c ⟨⟩
      decide

theorem header?_functionLine_iff {behind : Text} (hname : ∀ c ∈ name, c ≠ '(' ∧ Text.isBlank c = false)
    (hsplit : params ++ ')' :: ending result = params.takeWhile (· != ')') ++ ')' :: behind) :
    header? (functionLine isAsync name params result) = some h ↔
      IsWord name ∧ ∃ r rest, (Reader.optional resultType).parse behind = some (r, ':' :: rest) ∧
        h = .ofFunction isAsync name (params.takeWhile (· != ')')) r := by
  have hend : ')' ∉ params.takeWhile (· != ')') := fun hmem => by
    simpa using List.all_eq_true.1 List.all_takeWhile _ hmem
  have hstart : IsUnindented (name ++ '(' :: (params ++ ')' :: ending result)) := by
    cases name with
    | nil =>
      rintro c ⟨⟩
      decide
    | cons d name =>
      rintro _ ⟨⟩
      exact (hname d List.mem_cons_self).2
  rw [functionLine, header?_opening hstart, hsplit]
  constructor
  · intro hheader
    obtain ⟨⟨_, rest⟩, hparse, rfl⟩ := Option.map_eq_some_iff.1 hheader
    obtain ⟨hword, before, behind', r, hsplit', hbefore, hr, rfl⟩ :=
      (behindOpening_eq_some_iff hname).1 hparse
    obtain ⟨rfl, rfl⟩ := Text.append_cons_inj hend hbefore hsplit'
    exact ⟨hword, r, rest, hr, rfl⟩
  · rintro ⟨hword, r, rest, hr, rfl⟩
    exact Option.map_eq_some_iff.2
      ⟨(_, rest), (behindOpening_eq_some_iff hname).2 ⟨hword, _, behind, r, rfl, hend, hr, rfl⟩, rfl⟩

/-- A header on one line is read exactly if its name is a word and its parameters close. -/
theorem exists_header_iff (hname : ∀ c ∈ name, c ≠ '(' ∧ Text.isBlank c = false)
    (hline : '\n' ∉ functionLine isAsync name params result) :
    (∃ h, header? (functionLine isAsync name params result) = some h) ↔ IsWord name ∧ Closes params := by
  obtain ⟨behind, hsplit, hsuffix, hcloses, -⟩ := exists_firstBracket params (endsHeader_ending result)
  have hcolon : ':' ∈ behind := hsuffix.subset (by simp [ending])
  have hbehind : '\n' ∉ behind := fun hmem => hline (by simp [functionLine, hsplit, hmem])
  rw [← hcloses, endsHeader_iff hcolon hbehind]
  constructor
  · rintro ⟨h, hheader⟩
    obtain ⟨hword, r, rest, hr, -⟩ := (header?_functionLine_iff hname hsplit).1 hheader
    exact ⟨hword, r, rest, hr⟩
  · rintro ⟨hword, r, rest, hr⟩
    exact ⟨_, (header?_functionLine_iff hname hsplit).2 ⟨hword, r, rest, hr, rfl⟩⟩

theorem header_functionLine (hname : ∀ c ∈ name, c ≠ '(' ∧ Text.isBlank c = false)
    (hheader : header? (functionLine isAsync name params result) = some h) :
    ∃ r, h = .ofFunction isAsync name (params.takeWhile (· != ')')) r := by
  obtain ⟨behind, hsplit, -⟩ := exists_firstBracket params (endsHeader_ending result)
  obtain ⟨-, r, -, -, rfl⟩ := (header?_functionLine_iff hname hsplit).1 hheader
  exact ⟨r, rfl⟩

/-- Without a closing bracket among the parameters, the whole header is read. -/
theorem header?_functionLine (hword : IsWord name) (hname : ∀ c ∈ name, c ≠ '(' ∧ Text.isBlank c = false)
    (hresult : ∀ r ∈ result, ':' ∉ r) (hline : '\n' ∉ functionLine isAsync name params result)
    (hparams : ')' ∉ params) :
    header? (functionLine isAsync name params result) =
      some (.ofFunction isAsync name params (result.map Text.trim)) := by
  have hread : (Reader.optional resultType).parse (ending result) = some (result.map Text.trim, [':']) := by
    refine optional_resultType_ending fun r hr c hc => ⟨?_, ?_⟩
    · rintro rfl
      exact hresult r hr hc
    · rintro rfl
      obtain rfl := Option.mem_def.1 hr
      exact hline (by simp [functionLine, ending, hc])
  have htake := Text.takeWhile_of_notMem hparams
  rw [header?_functionLine_iff hname (by rw [htake]), htake]
  exact ⟨hword, _, _, hread, rfl⟩

/-- What is shown of the function whose header a line starts with. -/
def functionOf? (line : Text) : Option Signature :=
  match header? line with
  | some (.ofFunction isAsync name params result) => signature? isAsync name params result
  | _ => none

/-- An unindented line that opens no class adds its function, if it has one, and closes the class above. -/
theorem definitionsFrom_cons_of_no_class (hloud : ¬IsSkipped line) (hunindented : IsUnindented line)
    (hclass : ∀ name bases, header? line ≠ some (.ofClass name bases)) :
    definitionsFrom inClass (line :: ls) =
      ((functionOf? line).map .function).toList ++ definitionsFrom false ls := by
  have hsilent : ¬isSilent line = true := fun hsilent =>
    hloud (isSilent_trimLeft.1 (by rwa [trimLeft_of_isUnindented hunindented]))
  simp only [definitionsFrom_cons, lineExport, classAfter, indent_eq_zero_iff.2 hunindented,
    trimLeft_of_isUnindented hunindented, if_neg hsilent, functionOf?, readLine]
  cases hheader : header? line with
  | none => simp
  | some header =>
    cases header with
    | ofClass name bases => exact absurd hheader (hclass name bases)
    | ofFunction isAsync name params result => simp

theorem functionOf?_of_header (hpublic : isPrivate name = false)
    (hheader : header? line = some (.ofFunction isAsync name params result)) :
    functionOf? line = some ⟨isAsync, name, paramNames params, result⟩ := by
  simp only [functionOf?, hheader, signature?, hpublic]
  rfl

theorem isUnindented_functionLine (isAsync : Bool) (name params : Text) (result : Option Text) :
    IsUnindented (functionLine isAsync name params result) := by
  cases isAsync with
  | true =>
    rintro c ⟨⟩
    decide
  | false =>
    rintro c ⟨⟩
    decide

theorem not_isSkipped_functionLine (isAsync : Bool) (name params : Text) (result : Option Text) :
    ¬IsSkipped (functionLine isAsync name params result) := by
  rw [← isSilent_trimLeft, trimLeft_of_isUnindented (isUnindented_functionLine _ _ _ _)]
  cases isAsync with
  | true => exact Bool.false_ne_true
  | false => exact Bool.false_ne_true

/-- Every function that is not private and has its header unindented on one line is shown in its place, if
its name is a word and its parameters close, and otherwise left out. Without a closing bracket among the
parameters they always close, and all of the header is shown. -/
theorem public_function_shown_iff {content : Text} {above behind : List Text}
    (hname : ∀ c ∈ name, c ≠ '(' ∧ Text.isBlank c = false) (hpublic : isPrivate name = false)
    (hresult : ∀ r ∈ result, ':' ∉ r)
    (hlines : Text.lines content = above ++ functionLine isAsync name params result :: behind) :
    ∃ shown : Option Signature,
      (outline content).exports = (outline (Text.unlines above)).exports ++
        (shown.map Signature.render).toList ++ (outline (Text.unlines behind)).exports ∧
      (shown.isSome = true ↔ IsWord name ∧ Closes params) ∧
      (∀ s ∈ shown, s.isAsync = isAsync ∧ s.name = name ∧
        s.params = paramNames (params.takeWhile (· != ')'))) ∧
      (IsWord name → ')' ∉ params →
        shown = some ⟨isAsync, name, paramNames params, result.map Text.trim⟩) := by
  have hnewline : ∀ l ∈ above ++ functionLine isAsync name params result :: behind, '\n' ∉ l :=
    fun l hl => Text.notMem_of_mem_pieces (hlines ▸ hl)
  have hline := hnewline (functionLine isAsync name params result) (by simp)
  have hclass : ∀ name' bases,
      header? (functionLine isAsync name params result) ≠ some (.ofClass name' bases) := by
    intro name' bases hheader
    obtain ⟨r, hr⟩ := header_functionLine hname hheader
    cases hr
  refine ⟨functionOf? (functionLine isAsync name params result), ?_, ?_, ?_, ?_⟩
  · have habove := definitions_unlines fun l hl => hnewline l (List.mem_append_left _ hl)
    have hbehind := definitions_unlines fun l hl =>
      hnewline l (List.mem_append_right _ (List.mem_cons_of_mem _ hl))
    have hall : definitions content = definitions (Text.unlines above) ++
        ((functionOf? (functionLine isAsync name params result)).map .function).toList ++
        definitions (Text.unlines behind) := by
      rw [habove, hbehind, definitions, hlines, definitionsFrom_append, List.append_assoc,
        definitionsFrom_cons_of_no_class (not_isSkipped_functionLine _ _ _ _)
          (isUnindented_functionLine _ _ _ _) hclass]
    simp only [outline, hall, List.map_append, List.append_cancel_left_eq, List.append_cancel_right_eq]
    cases functionOf? (functionLine isAsync name params result) with
    | none => rfl
    | some s => rfl
  · rw [← exists_header_iff hname hline]
    cases hheader : header? (functionLine isAsync name params result) with
    | none => simp [functionOf?, hheader]
    | some h =>
      obtain ⟨r, rfl⟩ := header_functionLine hname hheader
      rw [functionOf?_of_header hpublic hheader]
      exact iff_of_true rfl ⟨_, rfl⟩
  · intro s hs
    cases hheader : header? (functionLine isAsync name params result) with
    | none => simp [functionOf?, hheader] at hs
    | some h =>
      obtain ⟨r, rfl⟩ := header_functionLine hname hheader
      rw [functionOf?_of_header hpublic hheader] at hs
      cases hs
      exact ⟨rfl, rfl, rfl⟩
  · intro hword hparams
    exact functionOf?_of_header hpublic (header?_functionLine hword hname hresult hline hparams)

/-- A class, and a function below it with a closing bracket and a colon among its parameters. -/
def shopServe : Text :=
  Text.unlines (["class Shop:", "    def open(self): ...",
    "async def serve(plan=\x7b(1): 2\x7d, hour=[0]) -> int:", "    return 1"].map String.toList)

/-- The parameters of that function. -/
def serveParams : Text := "plan=\x7b(1".toList ++ ')' :: ": 2\x7d, hour=[0]".toList

theorem shopServe_shown :
    Text.lines shopServe = ["class Shop:".toList, "    def open(self): ...".toList] ++
        functionLine true "serve".toList serveParams (some "int".toList) :: ["    return 1".toList] ∧
      isPrivate "serve".toList = false ∧ Closes serveParams ∧
      ∃ shown : Option Signature, shown.isSome = true ∧
        (outline shopServe).exports =
          (outline (Text.unlines ["class Shop:".toList, "    def open(self): ...".toList])).exports ++
            (shown.map Signature.render).toList ++
            (outline (Text.unlines ["    return 1".toList])).exports := by
  have hlines : Text.lines shopServe = ["class Shop:".toList, "    def open(self): ...".toList] ++
      functionLine true "serve".toList serveParams (some "int".toList) :: ["    return 1".toList] := by
    decide +kernel
  have hname : ∀ c ∈ "serve".toList, c ≠ '(' ∧ Text.isBlank c = false := by
    have hall : "serve".toList.all (fun c => c != '(' && !Text.isBlank c) = true := by decide
    intro c hc
    simpa using List.all_eq_true.1 hall c hc
  have hresult : ∀ r ∈ some "int".toList, ':' ∉ r := by
    rintro r ⟨⟩
    decide
  have hcloses : Closes serveParams := (closes_append_iff (by decide)).2 (.inl rfl)
  obtain ⟨shown, hexports, hshown, -⟩ := public_function_shown_iff hname (by decide) hresult hlines
  exact ⟨hlines, by decide, hcloses, shown, hshown.2 ⟨by decide, hcloses⟩, hexports⟩

/-- A parameter with a pair as its default. -/
def pairDefault : Text := "x=(1, 2)".toList

/-- A public function is left out for the brackets around a default. -/
theorem pairDefault_left_out :
    IsWord ['f'] ∧ isPrivate ['f'] = false ∧ Nested pairDefault ∧
      (['\n', '\'', '"', '#'].all (!pairDefault.contains ·)) = true ∧
      (outline (functionLine false ['f'] pairDefault none)).exports = [] := by
  have hchars : pairDefault = 'x' :: '=' :: '(' :: (['1', ',', ' ', '2'] ++ ')' :: []) := by decide
  have hpair : Nested ['1', ',', ' ', '2'] :=
    .plain (by decide) (by decide) (.plain (by decide) (by decide)
      (.plain (by decide) (by decide) (.plain (by decide) (by decide) .nil)))
  have hnested : Nested pairDefault := by
    rw [hchars]
    exact .plain (by decide) (by decide) (.plain (by decide) (by decide) (.group (by decide) hpair .nil))
  exact ⟨by decide, by decide, hnested, by decide, by decide⟩

end CodeIndex.Python
