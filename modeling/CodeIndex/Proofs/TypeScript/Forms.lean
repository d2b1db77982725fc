import CodeIndex.Proofs.TypeScript.Declarations

/-!
# Forms of TypeScript exports

Each kind of declaration is shown in a few forms: the keywords of the kind, a space behind each of them, and a
name. The entries of a kind stand together, in a fixed order of kinds, and a default export comes last and
alone. One form is never shown: of an asynchronous function the first keyword runs together with the second.
-/

namespace CodeIndex.TypeScript

open Text (IsWord)

variable {content e : Text} {d : Declaration}

/-- The kinds of declarations. -/
inductive Kind where
  | function
  | classDecl
  | interfaceDecl
  | typeAlias
  | variableDecl
  | enumDecl
  | defaultExport
deriving DecidableEq

namespace Kind

/-- The kinds in the order in which they are listed. -/
def inOrder : List Kind :=
  [function, classDecl, interfaceDecl, typeAlias, variableDecl, enumDecl, defaultExport]

/-- What follows the name of a function: type parameters or parameters. -/
def FollowsName (rest : Text) : Prop := rest.head? = some '<' ∨ rest.head? = some '('

/-- The forms of the entries of each kind. -/
inductive Shows : Kind → Text → Prop where
  | function {name rest : Text} (word : IsWord name) (follows : FollowsName rest) :
      Shows function ("function ".toList ++ (name ++ rest))
  | asyncFunction {name rest : Text} (word : IsWord name) (follows : FollowsName rest) :
      Shows function ("async function ".toList ++ (name ++ rest))
  | classDecl {name : Text} (word : IsWord name) : Shows classDecl ("class ".toList ++ name)
  | subclass {name parent : Text} (word : IsWord name) (parent_word : IsWord parent) :
      Shows classDecl ("class ".toList ++ name ++ " extends ".toList ++ parent)
  | interfaceDecl {name : Text} (word : IsWord name) : Shows interfaceDecl ("interface ".toList ++ name)
  | typeAlias {name : Text} (word : IsWord name) : Shows typeAlias ("type ".toList ++ name)
  | variableDecl (binding : Binding) {name : Text} (word : IsWord name) :
      Shows variableDecl (binding.word ++ [' '] ++ name)
  | typedVariable (binding : Binding) {name type : Text} (word : IsWord name) (line : '\n' ∉ type) :
      Shows variableDecl (binding.word ++ [' '] ++ name ++ ": ".toList ++ type)
  | enumDecl {name : Text} (word : IsWord name) : Shows enumDecl ("enum ".toList ++ name)
  | defaultClass {name : Text} (word : IsWord name) : Shows defaultExport ("default class ".toList ++ name)
  | defaultFunction {name : Text} (word : IsWord name) :
      Shows defaultExport ("default function ".toList ++ name)
  | defaultExport : Shows defaultExport "default export".toList

/-- An asynchronous function whose keywords are not set off from each other. -/
def RunsTogether (e : Text) : Prop :=
  ∃ name rest, IsWord name ∧ FollowsName rest ∧ e = "asyncfunction ".toList ++ (name ++ rest)

/-- The entries that are listed for a kind. -/
def Lists (k : Kind) (e : Text) : Prop := k.Shows e ∨ k = function ∧ RunsTogether e

/-- The kind that an entry begins like. -/
def of? : Text → Option Kind
  | 'f' :: _ => some function
  | 'a' :: _ => some function
  | 'c' :: 'l' :: _ => some classDecl
  | 'i' :: _ => some interfaceDecl
  | 't' :: _ => some typeAlias
  | 'c' :: 'o' :: _ => some variableDecl
  | 'l' :: _ => some variableDecl
  | 'v' :: _ => some variableDecl
  | 'e' :: _ => some enumDecl
  | 'd' :: _ => some defaultExport
  | _ => none

theorem of?_shows {k : Kind} (h : k.Shows e) : of? e = some k := by
  cases h with
  | variableDecl binding word => cases binding <;> rfl
  | typedVariable binding word line => cases binding <;> rfl
  | _ => rfl

theorem of?_lists {k : Kind} (h : k.Lists e) : of? e = some k := by
  rcases h with h | ⟨rfl, name, rest, -, -, rfl⟩
  · exact of?_shows h
  · rfl

/-- An entry is listed for one kind at most. -/
theorem Lists.unique {k k' : Kind} (h : k.Lists e) (h' : k'.Lists e) : k = k' :=
  Option.some.inj ((of?_lists h).symm.trans (of?_lists h'))

theorem Shows.not_runsTogether {k : Kind} (h : k.Shows e) : ¬RunsTogether e := by
  intro hruns
  have hkind : k = .function := Lists.unique (.inl h) (.inr ⟨rfl, hruns⟩)
  obtain ⟨name, rest, -, -, heq⟩ := hruns
  have hsixth : e[5]? = some 'f' := by rw [heq]; rfl
  cases h with
  | function word follows =>
    have hfirst := congrArg List.head? heq
    cases hfirst
  | asyncFunction word follows => cases hsixth
  | _ => cases hkind

/-- The readers that find the declarations of a kind. -/
def readers : Kind → List (Reader Declaration)
  | function => [exportedFunction]
  | classDecl => [exportedClass]
  | interfaceDecl => [exportedInterface]
  | typeAlias => [exportedAlias]
  | variableDecl => [exportedVariable]
  | enumDecl => [exportedEnum]
  | defaultExport => [defaultNamedClass, defaultNamedFunction, exportedDefault]

end Kind

def Declaration.kind : Declaration → Kind
  | function .. => .function
  | classDecl .. => .classDecl
  | interfaceDecl _ => .interfaceDecl
  | typeAlias _ => .typeAlias
  | variableDecl .. => .variableDecl
  | enumDecl _ => .enumDecl
  | defaultClass _ => .defaultExport
  | defaultFunction _ => .defaultExport
  | defaultExport => .defaultExport

def Declaration.isAsync : Declaration → Bool
  | function isAsync .. => isAsync
  | _ => false

/-! ### Kinds of what is found -/

theorem yields_kind {k : Kind} {r : Reader Declaration} (h : r ∈ k.readers) : r.Yields (·.kind = k) := by
  open Reader in
  cases k with
  | function =>
    obtain rfl := List.mem_singleton.1 h
    refine yields_skip fun _ => yields_skip fun _ => yields_skip fun _ => yields_skip fun _ => ?_
    refine yields_skip fun _ => yields_skip fun _ => yields_skip fun _ => yields_skip fun _ => ?_
    exact yields_skip fun _ => yields_pure rfl
  | classDecl =>
    obtain rfl := List.mem_singleton.1 h
    refine yields_skip fun _ => yields_skip fun _ => yields_skip fun _ => yields_skip fun _ => ?_
    exact yields_skip fun _ => yields_skip fun _ => yields_skip fun _ => yields_pure rfl
  | interfaceDecl =>
    obtain rfl := List.mem_singleton.1 h
    exact yields_skip fun _ => yields_skip fun _ => yields_skip fun _ => yields_skip fun _ => yields_pure rfl
  | typeAlias =>
    obtain rfl := List.mem_singleton.1 h
    refine yields_skip fun _ => yields_skip fun _ => yields_skip fun _ => yields_skip fun _ => ?_
    exact yields_skip fun _ => yields_skip fun _ => yields_pure rfl
  | variableDecl =>
    obtain rfl := List.mem_singleton.1 h
    refine yields_skip fun _ => yields_skip fun _ => yields_skip fun _ => yields_skip fun _ => ?_
    exact yields_skip fun _ => yields_skip fun _ => yields_pure rfl
  | enumDecl =>
    obtain rfl := List.mem_singleton.1 h
    exact yields_skip fun _ => yields_skip fun _ => yields_skip fun _ => yields_pure rfl
  | defaultExport =>
    simp only [Kind.readers, List.mem_cons, List.not_mem_nil, or_false] at h
    rcases h with rfl | rfl | rfl
    · refine yields_skip fun _ => yields_skip fun _ => yields_skip fun _ => ?_
      exact yields_skip fun _ => yields_pure rfl
    · refine yields_skip fun _ => yields_skip fun _ => yields_skip fun _ => yields_skip fun _ => ?_
      exact yields_skip fun _ => yields_pure rfl
    · exact yields_skip fun _ => yields_skip fun _ => yields_pure rfl

theorem kind_of_defaultDeclaration? (h : defaultDeclaration? content = some d) : d.kind = .defaultExport := by
  have hfound {r : Reader Declaration} (hr : r ∈ Kind.defaultExport.readers)
      (hd : (exported r content).head? = some d) : d.kind = .defaultExport :=
    (yields_kind hr).of_mem_findAll (List.mem_of_mem_head? hd)
  simp only [defaultDeclaration?, Option.orElse_eq_orElse, Option.orElse_eq_or, Option.or_eq_some_iff] at h
  rcases h with h | ⟨-, h | ⟨-, h⟩⟩
  · exact hfound (by simp [Kind.readers]) h
  · exact hfound (by simp [Kind.readers]) h
  · exact hfound (by simp [Kind.readers]) h

/-- The declarations of each kind. -/
def declarationsOf (content : Text) : Kind → List Declaration
  | .function => exported exportedFunction content
  | .classDecl => exported exportedClass content
  | .interfaceDecl => exported exportedInterface content
  | .typeAlias => exported exportedAlias content
  | .variableDecl => exported exportedVariable content
  | .enumDecl => exported exportedEnum content
  | .defaultExport => (defaultDeclaration? content).toList

theorem flatMap_declarationsOf (content : Text) :
    Kind.inOrder.flatMap (declarationsOf content) = declarations content := by
  simp [Kind.inOrder, declarationsOf, declarations]

theorem kind_of_mem_declarationsOf {k : Kind} (h : d ∈ declarationsOf content k) : d.kind = k := by
  cases k with
  | defaultExport => exact kind_of_defaultDeclaration? (Option.mem_toList.1 h)
  | _ => exact (yields_kind List.mem_cons_self).of_mem_findAll h

/-! ### Forms of what is shown -/

theorem functionHead_eq (isAsync : Bool) (name : Text) (generics : Option Text) (params : List Text) :
    ∃ rest, Kind.FollowsName rest ∧ functionHead isAsync name generics params =
      (if isAsync then "async".toList else []) ++ ("function ".toList ++ (name ++ rest)) := by
  unfold functionHead
  generalize (if isAsync then "async".toList else []) = marker, "function ".toList = label
  cases generics with
  | none => exact ⟨'(' :: (Text.commaJoin params ++ [')']), .inr rfl, by simp⟩
  | some g => exact ⟨'<' :: (g ++ '>' :: '(' :: (Text.commaJoin params ++ [')'])), .inl rfl, by simp⟩

theorem render_function_eq (isAsync : Bool) (name : Text) (generics : Option Text) (params : List Text)
    (result : Option Text) :
    ∃ rest, Kind.FollowsName rest ∧ (Declaration.function isAsync name generics params result).render =
      (if isAsync then "async".toList else []) ++ ("function ".toList ++ (name ++ rest)) := by
  obtain ⟨rest, hrest, hhead⟩ := functionHead_eq isAsync name generics params
  cases result with
  | none => exact ⟨rest, hrest, hhead⟩
  | some r =>
    refine ⟨rest ++ ':' :: Text.trimRight (' ' :: r), ?_, ?_⟩
    · cases rest with
      | nil => rcases hrest with hnone | hnone <;> cases hnone
      | cons c rest => exact hrest
    · rw [render_function_some, hhead]
      simp only [List.append_assoc]

theorem render_async_runsTogether {name : Text} (hname : IsWord name) (generics : Option Text)
    (params : List Text) (result : Option Text) :
    Kind.RunsTogether (Declaration.function true name generics params result).render := by
  obtain ⟨rest, hrest, hrender⟩ := render_function_eq true name generics params result
  exact ⟨name, rest, hname, hrest, hrender⟩

/-- What is read is shown in a form of its kind, asynchronous functions apart. -/
theorem shows_render (h : d.IsRead) (hsync : d.isAsync = false) : d.kind.Shows d.render := by
  cases d with
  | function isAsync name generics params result =>
    obtain rfl : isAsync = false := hsync
    obtain ⟨rest, hrest, hrender⟩ := render_function_eq false name generics params result
    rw [hrender]
    exact .function h.1 hrest
  | classDecl name parent =>
    cases parent with
    | none => exact .classDecl h.1
    | some parent => exact .subclass h.1 (h.2 parent rfl)
  | interfaceDecl name => exact .interfaceDecl h
  | typeAlias name => exact .typeAlias h
  | variableDecl binding name type =>
    cases type with
    | none => exact .variableDecl binding h.1
    | some type => exact .typedVariable binding h.1 (h.2 type rfl)
  | enumDecl name => exact .enumDecl h
  | defaultClass name => exact .defaultClass h
  | defaultFunction name => exact .defaultFunction h
  | defaultExport => exact .defaultExport

theorem runsTogether_render (h : d.IsRead) (hasync : d.isAsync = true) :
    d.kind = .function ∧ Kind.RunsTogether d.render := by
  cases d with
  | function isAsync name generics params result =>
    obtain rfl : isAsync = true := hasync
    exact ⟨rfl, render_async_runsTogether h.1 generics params result⟩
  | _ => cases hasync

theorem lists_render (h : d.IsRead) : d.kind.Lists d.render := by
  cases hasync : d.isAsync with
  | false => exact .inl (shows_render h hasync)
  | true => exact .inr (runsTogether_render h hasync)

theorem lists_of_mem_declarationsOf {k : Kind} (h : e ∈ (declarationsOf content k).map Declaration.render) :
    k.Lists e := by
  obtain ⟨d, hd, rfl⟩ := List.mem_map.1 h
  have hmem : d ∈ declarations content := by
    rw [← flatMap_declarationsOf]
    exact List.mem_flatMap.2 ⟨k, by cases k <;> decide, hd⟩
  rw [← kind_of_mem_declarationsOf hd]
  exact lists_render (isRead_of_mem_declarations hmem)

/-- All entries but the last are listed for other kinds than default exports. -/
theorem not_default_of_mem_dropLast (h : e ∈ (outline content).exports.dropLast) :
    ¬Kind.defaultExport.Shows e := by
  intro hshows
  have hexports : (outline content).exports =
      (Kind.inOrder.dropLast.flatMap fun k => (declarationsOf content k).map Declaration.render) ++
        (defaultDeclaration? content).toList.map Declaration.render := by
    simp [outline, declarations, Kind.inOrder, declarationsOf]
  have hmem : e ∈ Kind.inOrder.dropLast.flatMap fun k =>
      (declarationsOf content k).map Declaration.render := by
    rw [hexports] at h
    cases hdefault : defaultDeclaration? content with
    | none =>
      rw [hdefault, Option.toList_none, List.map_nil, List.append_nil] at h
      exact List.dropLast_subset _ h
    | some d =>
      rw [hdefault, Option.toList_some, List.map_singleton, List.dropLast_concat] at h
      exact h
  obtain ⟨k, hk, he⟩ := List.mem_flatMap.1 hmem
  obtain rfl : k = .defaultExport := (lists_of_mem_declarationsOf he).unique (.inl hshows)
  exact absurd hk (by decide)

/-- The entries of a TypeScript file come in groups, one for each kind, each entry in a form of its kind or as
an asynchronous function whose keywords run together; none but the last is a default export. The entries in
one of the forms are exactly those that show no asynchronous function. -/
theorem exports_grouped_in_forms (content : Text) :
    (∃ group : Kind → List Text, (outline content).exports = Kind.inOrder.flatMap group ∧
      (group .defaultExport).length ≤ 1 ∧ ∀ k, ∀ e ∈ group k, k.Lists e) ∧
    (∀ e ∈ (outline content).exports.dropLast, ¬Kind.defaultExport.Shows e) ∧
    ∀ d ∈ declarations content, (∃ k : Kind, k.Shows d.render) ↔ d.isAsync = false := by
  refine ⟨⟨fun k => (declarationsOf content k).map Declaration.render, ?_, ?_, ?_⟩, ?_, ?_⟩
  · rw [← List.map_flatMap, flatMap_declarationsOf]
    rfl
  · cases hdefault : defaultDeclaration? content <;> simp [declarationsOf, hdefault]
  · intro k e he
    exact lists_of_mem_declarationsOf he
  · intro e he
    exact not_default_of_mem_dropLast he
  · intro d hd
    have hread := isRead_of_mem_declarations hd
    constructor
    · rintro ⟨k, hshows⟩
      apply Bool.eq_false_iff.2
      intro hasync
      exact hshows.not_runsTogether (runsTogether_render hread hasync).2
    · intro hsync
      exact ⟨d.kind, shows_render hread hsync⟩

/-- An exported asynchronous function. -/
def asyncLoad : Text := "export async function load(): V".toList

/-- The keywords of an asynchronous function are shown without a space between them. -/
theorem asyncLoad_runs_together :
    (outline asyncLoad).exports = ["asyncfunction load(): V".toList] ∧
      ∀ k : Kind, ¬k.Shows "asyncfunction load(): V".toList := by
  refine ⟨by decide +kernel, ?_⟩
  intro k hshows
  exact hshows.not_runsTogether ⟨"load".toList, "(): V".toList, by decide, .inr rfl, rfl⟩

end CodeIndex.TypeScript
