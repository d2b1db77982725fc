import CodeIndex.Outline.TypeScript
import CodeIndex.Proofs.Text.Search

/-!
# What TypeScript files declare

Names are words, and what is annotated ends with its line. Type parameters and parameters end at a closing
bracket, wherever that stands. So a declaration is shown on one line unless it is a function with a line end
in one of these.
-/

namespace CodeIndex.TypeScript

open Text (IsWord)

variable {content name : Text} {d : Declaration}

/-- What is read of a declaration: its names are words and its annotations have no line ends. -/
def Declaration.IsRead : Declaration → Prop
  | function _ name _ _ result => IsWord name ∧ ∀ r ∈ result, '\n' ∉ r
  | classDecl name parent => IsWord name ∧ ∀ p ∈ parent, IsWord p
  | interfaceDecl name => IsWord name
  | typeAlias name => IsWord name
  | variableDecl _ name type => IsWord name ∧ ∀ t ∈ type, '\n' ∉ t
  | enumDecl name => IsWord name
  | defaultClass name => IsWord name
  | defaultFunction name => IsWord name
  | defaultExport => True

theorem yields_word : Reader.word.Yields IsWord := by
  intro t name rest h
  obtain ⟨hne, -, hword, -⟩ := Reader.many1_eq_some_iff.1 h
  exact ⟨hne, hword⟩

theorem yields_typeUpTo (stop : Char) : (typeUpTo stop).Yields fun body => '\n' ∉ body := by
  refine Reader.yields_skip fun gap => ?_
  refine Reader.yields_bind Reader.yields_many fun body hbody => ?_
  split
  · exact Reader.yields_fail
  · refine Reader.yields_pure fun hmem => ?_
    simpa using hbody '\n' (Text.trim_subset body hmem)

theorem yields_typed (stop : Char) : (typed stop).Yields fun body => '\n' ∉ body := by
  refine Reader.yields_skip fun _ => ?_
  refine Reader.yields_skip fun _ => ?_
  exact yields_typeUpTo stop

theorem isRead_exportedFunction : exportedFunction.Yields Declaration.IsRead := by
  refine Reader.yields_skip fun _ => Reader.yields_skip fun marker => Reader.yields_skip fun _ => ?_
  refine Reader.yields_bind yields_word fun name hname => ?_
  refine Reader.yields_skip fun _ => Reader.yields_skip fun parameters => Reader.yields_skip fun _ => ?_
  refine Reader.yields_skip fun params => ?_
  refine Reader.yields_bind (Reader.yields_optional (yields_typed _)) fun result hresult => ?_
  exact Reader.yields_pure ⟨hname, hresult⟩

theorem isRead_exportedClass : exportedClass.Yields Declaration.IsRead := by
  refine Reader.yields_skip fun _ => Reader.yields_skip fun _ => Reader.yields_skip fun _ => ?_
  refine Reader.yields_bind yields_word fun name hname => Reader.yields_skip fun _ => ?_
  refine Reader.yields_bind (Reader.yields_optional (Reader.yields_skip fun _ => yields_word))
    fun parent hparent => ?_
  refine Reader.yields_skip fun _ => ?_
  exact Reader.yields_pure ⟨hname, hparent⟩

theorem isRead_exportedInterface : exportedInterface.Yields Declaration.IsRead := by
  refine Reader.yields_skip fun _ => Reader.yields_skip fun _ => ?_
  refine Reader.yields_bind yields_word fun name hname => Reader.yields_skip fun _ => ?_
  exact Reader.yields_pure hname

theorem isRead_exportedAlias : exportedAlias.Yields Declaration.IsRead := by
  refine Reader.yields_skip fun _ => Reader.yields_skip fun _ => ?_
  refine Reader.yields_bind yields_word fun name hname => Reader.yields_skip fun _ => ?_
  refine Reader.yields_skip fun _ => Reader.yields_skip fun _ => ?_
  exact Reader.yields_pure hname

theorem isRead_exportedVariable : exportedVariable.Yields Declaration.IsRead := by
  refine Reader.yields_skip fun _ => Reader.yields_skip fun binding => ?_
  refine Reader.yields_bind yields_word fun name hname => ?_
  refine Reader.yields_bind (Reader.yields_optional (yields_typed _)) fun type htype => ?_
  refine Reader.yields_skip fun _ => Reader.yields_skip fun _ => ?_
  exact Reader.yields_pure ⟨hname, htype⟩

theorem isRead_exportedEnum : exportedEnum.Yields Declaration.IsRead := by
  refine Reader.yields_skip fun _ => Reader.yields_skip fun _ => ?_
  refine Reader.yields_bind yields_word fun name hname => ?_
  exact Reader.yields_pure hname

theorem isRead_exportedDefault : exportedDefault.Yields Declaration.IsRead := by
  refine Reader.yields_skip fun _ => Reader.yields_skip fun _ => ?_
  exact Reader.yields_pure trivial

theorem isRead_defaultNamedClass : defaultNamedClass.Yields Declaration.IsRead := by
  refine Reader.yields_skip fun _ => Reader.yields_skip fun _ => Reader.yields_skip fun _ => ?_
  refine Reader.yields_bind yields_word fun name hname => ?_
  exact Reader.yields_pure hname

theorem isRead_defaultNamedFunction : defaultNamedFunction.Yields Declaration.IsRead := by
  refine Reader.yields_skip fun _ => Reader.yields_skip fun _ => Reader.yields_skip fun _ => ?_
  refine Reader.yields_skip fun _ => Reader.yields_bind yields_word fun name hname => ?_
  exact Reader.yields_pure hname

theorem isRead_of_mem_exported {body : Reader Declaration} (hbody : body.Yields Declaration.IsRead)
    (h : d ∈ exported body content) : d.IsRead :=
  hbody.of_mem_findAll h

theorem isRead_of_defaultDeclaration? (h : defaultDeclaration? content = some d) : d.IsRead := by
  simp only [defaultDeclaration?, Option.orElse_eq_orElse, Option.orElse_eq_or, Option.or_eq_some_iff] at h
  rcases h with h | ⟨-, h | ⟨-, h⟩⟩
  · exact isRead_of_mem_exported isRead_defaultNamedClass (List.mem_of_mem_head? h)
  · exact isRead_of_mem_exported isRead_defaultNamedFunction (List.mem_of_mem_head? h)
  · exact isRead_of_mem_exported isRead_exportedDefault (List.mem_of_mem_head? h)

theorem isRead_of_mem_declarations (h : d ∈ declarations content) : d.IsRead := by
  simp only [declarations, List.mem_append, Option.mem_toList] at h
  rcases h with (((((h | h) | h) | h) | h) | h) | h
  · exact isRead_of_mem_exported isRead_exportedFunction h
  · exact isRead_of_mem_exported isRead_exportedClass h
  · exact isRead_of_mem_exported isRead_exportedInterface h
  · exact isRead_of_mem_exported isRead_exportedAlias h
  · exact isRead_of_mem_exported isRead_exportedVariable h
  · exact isRead_of_mem_exported isRead_exportedEnum h
  · exact isRead_of_defaultDeclaration? h

/-! ### Declarations on one line -/

/-- A function with a line end in its type parameters or in a parameter that is shown. -/
def Declaration.Spreads : Declaration → Prop
  | function _ _ generics params _ => (∃ g ∈ generics, '\n' ∈ g) ∨ ∃ p ∈ params, '\n' ∈ p
  | _ => False

/-- A function as it is shown up to its closing bracket. -/
def functionHead (isAsync : Bool) (name : Text) (generics : Option Text) (params : List Text) : Text :=
  (if isAsync then "async".toList else []) ++ "function ".toList ++ name ++
    (match generics with
      | none => []
      | some g => '<' :: g ++ ['>']) ++ ['('] ++ Text.commaJoin params ++ [')']

theorem notMem_of_isWord (h : IsWord name) : '\n' ∉ name := fun hmem =>
  absurd (h.2 '\n' hmem) (by decide)

theorem mem_functionHead_iff (isAsync : Bool) (hname : IsWord name) (generics : Option Text)
    (params : List Text) :
    '\n' ∈ functionHead isAsync name generics params ↔
      (∃ g ∈ generics, '\n' ∈ g) ∨ ∃ p ∈ params, '\n' ∈ p := by
  have hasync : '\n' ∉ if isAsync then "async".toList else [] := by
    cases isAsync with
    | true => decide
    | false => decide
  have hword : '\n' ∉ "function ".toList := by decide
  have hjoin : '\n' ∈ Text.commaJoin params ↔ ∃ p ∈ params, '\n' ∈ p := Text.mem_commaJoin_iff (by decide)
  generalize hmarker : (if isAsync then "async".toList else []) = marker at hasync
  generalize hlabel : "function ".toList = label at hword
  unfold functionHead
  rw [hmarker, hlabel]
  cases generics with
  | none => simp [hasync, hword, notMem_of_isWord hname, hjoin]
  | some g => simp [hasync, hword, notMem_of_isWord hname, hjoin]

/-- White space at the end is taken off behind the colon of a result type at most. -/
theorem render_function_some (isAsync : Bool) (name : Text) (generics : Option Text) (params : List Text)
    (r : Text) :
    (Declaration.function isAsync name generics params (some r)).render =
      functionHead isAsync name generics params ++ ':' :: Text.trimRight (' ' :: r) := by
  have hcolon : functionHead isAsync name generics params ++ ": ".toList ++ r =
      functionHead isAsync name generics params ++ ':' :: ' ' :: r := by
    rw [List.append_assoc]
    rfl
  change Text.trimRight (functionHead isAsync name generics params ++ ": ".toList ++ r) = _
  rw [hcolon, Text.trimRight_append_cons (by decide)]

/-- A result type goes to the end of its line at most. -/
theorem mem_render_function_iff {isAsync : Bool} {generics result : Option Text} {params : List Text}
    (hresult : ∀ r ∈ result, '\n' ∉ r) :
    '\n' ∈ (Declaration.function isAsync name generics params result).render ↔
      '\n' ∈ functionHead isAsync name generics params := by
  cases result with
  | none => exact Iff.rfl
  | some r =>
    have htype : '\n' ∉ Text.trimRight (' ' :: r) := fun hmem => by
      simpa [hresult r rfl] using Text.trimRight_subset _ hmem
    rw [render_function_some]
    simp [htype]

/-- Only functions can have line ends where they are shown. -/
theorem mem_render_iff (h : d.IsRead) : '\n' ∈ d.render ↔ d.Spreads := by
  have hlabelled {label name : Text} (hlabel : '\n' ∉ label) (hname : IsWord name) :
      '\n' ∈ label ++ name ↔ False := by
    simp [hlabel, notMem_of_isWord hname]
  cases d with
  | function isAsync name generics params result =>
    rw [mem_render_function_iff h.2]
    exact mem_functionHead_iff isAsync h.1 generics params
  | classDecl name parent =>
    have hclass : '\n' ∉ "class ".toList ++ name := (hlabelled (by decide) h.1).1
    cases parent with
    | none => exact iff_false_intro hclass
    | some parent =>
      refine hlabelled ?_ (h.2 parent rfl)
      rw [List.mem_append]
      exact not_or.2 ⟨hclass, by decide⟩
  | interfaceDecl name => exact hlabelled (by decide) h
  | typeAlias name => exact hlabelled (by decide) h
  | variableDecl binding name type =>
    have hbinding : '\n' ∉ binding.word ++ [' '] ++ name := by
      refine (hlabelled ?_ h.1).1
      cases binding with
      | constDecl => decide
      | letDecl => decide
      | varDecl => decide
    cases type with
    | none => exact iff_false_intro hbinding
    | some type =>
      refine iff_false_intro ?_
      change '\n' ∉ binding.word ++ [' '] ++ name ++ ": ".toList ++ type
      rw [List.mem_append, List.mem_append]
      exact not_or.2 ⟨not_or.2 ⟨hbinding, by decide⟩, h.2 type rfl⟩
  | enumDecl name => exact hlabelled (by decide) h
  | defaultClass name => exact hlabelled (by decide) h
  | defaultFunction name => exact hlabelled (by decide) h
  | defaultExport => exact iff_false_intro (by decide)

end CodeIndex.TypeScript
