import CodeIndex.Proofs.Lists
import CodeIndex.Proofs.Python.Header
import CodeIndex.Proofs.Python.Lines

/-!
# What Python files export

Each entry stands on one line and shows a class, a function or a method. The methods of a class stand
right below its entry: a line is read as one of a method only below the header of a class, with nothing
but indented and skipped lines between them, and these export methods at most.
-/

namespace CodeIndex.Python

open Text (IsWord)

variable {line content entry : Text} {ls : List Text} {inClass : Bool} {d : Definition} {n : Nat}

/-- The text of a class, with the names of its base classes or without brackets. -/
inductive ClassEntry : Text → Prop where
  | plain (name : Text) (word : IsWord name) : ClassEntry ("class ".toList ++ name)
  | derived (name : Text) (bases : List Text) (word : IsWord name) (words : ∀ b ∈ bases, IsWord b) :
      ClassEntry ("class ".toList ++ name ++ ['('] ++ Text.commaJoin bases ++ [')'])

/-- The text of a function whose name does not start with exactly one low line. -/
inductive FunctionEntry : Text → Prop where
  | intro (isAsync : Bool) (name params : Text) (result : Option Text) (word : IsWord name)
      (visible : ['_'] <+: name → ['_', '_'] <+: name)
      (params_end : ')' ∉ params) (result_end : ∀ r ∈ result, ':' ∉ r) :
      FunctionEntry ((if isAsync then "async ".toList else []) ++ "def ".toList ++ name ++ ['('] ++
        params ++ [')'] ++ result.elim [] (" -> ".toList ++ ·))

/-- The text of a method: that of a function behind two spaces. -/
inductive MethodEntry : Text → Prop where
  | intro (function : Text) (isFunction : FunctionEntry function) :
      MethodEntry (' ' :: ' ' :: function)

theorem ClassEntry.head (h : ClassEntry entry) : entry.head? = some 'c' := by
  cases h with
  | plain => rfl
  | derived => rfl

theorem FunctionEntry.head (h : FunctionEntry entry) :
    entry.head? = some 'a' ∨ entry.head? = some 'd' := by
  cases h with
  | intro isAsync =>
    cases isAsync with
    | true => exact .inl rfl
    | false => exact .inr rfl

theorem MethodEntry.head (h : MethodEntry entry) : entry.head? = some ' ' := by
  cases h
  rfl

theorem MethodEntry.not_classEntry (h : MethodEntry entry) : ¬ClassEntry entry := fun hclass => by
  have hhead := h.head.symm.trans hclass.head
  exact absurd hhead (by decide)

/-- The text of a definition stands on one line and tells what is defined. -/
def Definition.IsEntry (d : Definition) : Prop :=
  '\n' ∉ d.render ∧
    match d with
    | classDef _ _ => ClassEntry d.render
    | function _ => FunctionEntry d.render
    | method _ => MethodEntry d.render

theorem Definition.IsEntry.eq_method (h : d.IsEntry) (hmethod : MethodEntry d.render) :
    ∃ s, d = .method s := by
  cases d with
  | classDef name bases => exact absurd h.2 hmethod.not_classEntry
  | function s =>
    have hhead := FunctionEntry.head h.2
    rw [hmethod.head] at hhead
    exact absurd hhead (by decide)
  | method s => exact ⟨s, rfl⟩

theorem isEntry_classDef {name : Text} {bases : Option Text} (hline : '\n' ∉ line)
    (h : TakenFrom line (.ofClass name bases)) :
    (Definition.classDef name ((bases.filter (!·.isEmpty)).map baseNames)).IsEntry := by
  cases h with
  | ofClass hword hname hbases =>
    have hname' : '\n' ∉ name := fun h => hline (hname h)
    cases hshown : bases.filter (!·.isEmpty) with
    | none =>
      have hentry : '\n' ∉ "class ".toList ++ name := by simpa using hname'
      exact ⟨hentry, .plain name hword⟩
    | some b =>
      have hb : b ⊆ line := hbases b (Option.filter_eq_some_iff.1 hshown).1
      have hjoin : '\n' ∉ Text.commaJoin (baseNames b) :=
        Text.notMem_commaJoin (by decide) fun u hu hc => hline (hb (baseNames_subset hu hc))
      have hentry : '\n' ∉
          "class ".toList ++ name ++ ['('] ++ Text.commaJoin (baseNames b) ++ [')'] := by
        simpa [hjoin] using hname'
      exact ⟨hentry, .derived name (baseNames b) hword fun u hu => isWord_of_mem_baseNames hu⟩

theorem visible_of_not_isPrivate {name : Text} (h : ¬isPrivate name = true)
    (hname : ['_'] <+: name) : ['_', '_'] <+: name := by
  rw [isPrivate, List.isPrefixOf_iff_prefix.2 hname] at h
  exact List.isPrefixOf_iff_prefix.1 (by simpa using h)

theorem Signature.render_eq (s : Signature) :
    s.render = (if s.isAsync then "async ".toList else []) ++ "def ".toList ++ s.name ++ ['('] ++
      Text.commaJoin s.params ++ [')'] ++ s.result.elim [] (" -> ".toList ++ ·) := by
  cases hresult : s.result with
  | none => simp only [render, hresult, Option.elim_none]
  | some r => simp only [render, hresult, Option.elim_some]

theorem entry_signature? {isAsync : Bool} {name params : Text} {result : Option Text} {s : Signature}
    (hline : '\n' ∉ line) (h : TakenFrom line (.ofFunction isAsync name params result))
    (hs : signature? isAsync name params result = some s) :
    '\n' ∉ s.render ∧ FunctionEntry s.render := by
  unfold signature? at hs
  split at hs
  · cases hs
  · next hvisible =>
    obtain rfl := Option.some.inj hs
    cases h with
    | ofFunction hword hname hparams hend hresult =>
      have hjoin {c : Char} (hc : c ∉ [',', ' ']) (hparam : c ∉ params) :
          c ∉ Text.commaJoin (paramNames params) :=
        Text.notMem_commaJoin hc fun u hu hcu => hparam (paramNames_subset hu hcu)
      have harrow : '\n' ∉ result.elim [] (" -> ".toList ++ ·) := by
        cases result with
        | none => exact List.not_mem_nil
        | some r => simpa using fun h => hline ((hresult r rfl).1 h)
      have hasync : '\n' ∉ if isAsync then "async ".toList else [] := by
        cases isAsync with
        | true => decide
        | false => decide
      have hname' : '\n' ∉ name := fun h => hline (hname h)
      have hparams' : '\n' ∉ Text.commaJoin (paramNames params) :=
        hjoin (by decide) fun h => hline (hparams h)
      rw [Signature.render_eq]
      refine ⟨?_, .intro isAsync name _ result hword (visible_of_not_isPrivate hvisible)
        (hjoin (by decide) hend) fun r hr => (hresult r hr).2⟩
      simp only [List.mem_append, not_or]
      exact ⟨⟨⟨⟨⟨⟨hasync, by decide⟩, hname'⟩, by decide⟩, hparams'⟩, by decide⟩, harrow⟩

theorem isEntry_of_lineExport (hline : '\n' ∉ line) (h : lineExport inClass line = some d) :
    d.IsEntry := by
  obtain ⟨after, hread⟩ := reading_of_lineExport h
  cases hread with
  | classHeader _ _ name bases hheader => exact isEntry_classDef hline (takenFrom_header? hheader)
  | function _ _ isAsync name params result s hheader hshown =>
    exact entry_signature? hline (takenFrom_header? hheader) hshown
  | method _ _ isAsync name params result s hheader hshown =>
    have hbody : '\n' ∉ Text.trimLeft line := fun h => hline (Text.trimLeft_subset line h)
    obtain ⟨hnewline, hfunction⟩ := entry_signature? hbody (takenFrom_header? hheader) hshown
    have hspaces : '\n' ∉ ' ' :: ' ' :: s.render := by simpa using hnewline
    exact ⟨hspaces, .intro s.render hfunction⟩

/-- Every definition comes from a line, at which all lines above it have exported what stands above. -/
theorem exists_line_of_getElem? (h : (definitionsFrom inClass ls)[n]? = some d) :
    ∃ above line behind, ls = above ++ line :: behind ∧
      lineExport (above.foldl classAfter inClass) line = some d ∧
      (definitionsFrom inClass above).length = n := by
  induction ls generalizing inClass n with
  | nil => cases h
  | cons line ls ih =>
    rw [definitionsFrom_cons] at h
    cases hexport : lineExport inClass line with
    | none =>
      rw [hexport] at h
      obtain ⟨above, line', behind, rfl, hline', rfl⟩ := ih h
      refine ⟨line :: above, line', behind, rfl, hline', ?_⟩
      rw [definitionsFrom_cons, hexport]
      rfl
    | some d' =>
      rw [hexport] at h
      cases n with
      | zero => exact ⟨[], line, ls, rfl, hexport.trans h, rfl⟩
      | succ n =>
        obtain ⟨above, line', behind, rfl, hline', rfl⟩ := ih h
        refine ⟨line :: above, line', behind, rfl, hline', ?_⟩
        rw [definitionsFrom_cons, hexport]
        rfl

theorem isEntry_of_mem_definitions (h : d ∈ definitions content) : d.IsEntry := by
  obtain ⟨n, hn⟩ := List.getElem?_of_mem h
  obtain ⟨above, line, behind, hlines, hline, -⟩ := exists_line_of_getElem? hn
  have hmem : line ∈ Text.lines content := by simp [hlines]
  exact isEntry_of_lineExport (Text.notMem_of_mem_pieces hmem) hline

/-- A line that leaves a class open: it is left out or indented. -/
def IsInner (line : Text) : Prop := IsSkipped line ∨ ¬IsUnindented line

theorem eq_method_of_lineExport (hline : IsInner line) (h : lineExport inClass line = some d) :
    ∃ s, d = .method s := by
  obtain ⟨after, hread⟩ := reading_of_lineExport h
  cases hread with
  | classHeader hloud hunindented => exact absurd hline (by simp [IsInner, hloud, hunindented])
  | function hloud hunindented => exact absurd hline (by simp [IsInner, hloud, hunindented])
  | method _ _ _ _ _ _ s => exact ⟨s, rfl⟩

/-- Lines that leave a class open export methods only. -/
theorem eq_method_of_mem (hls : ∀ line ∈ ls, IsInner line) (h : d ∈ definitionsFrom inClass ls) :
    ∃ s, d = .method s := by
  obtain ⟨n, hn⟩ := List.getElem?_of_mem h
  obtain ⟨above, line, behind, rfl, hline, -⟩ := exists_line_of_getElem? hn
  exact eq_method_of_lineExport (hls line (by simp)) hline

/-- Below the header of a class, the last line that is unindented and not left out is that header. -/
theorem exists_header_of_below (h : ls.foldl classAfter inClass = true) :
    (inClass = true ∧ ∀ line ∈ ls, IsInner line) ∨
      ∃ above header between name bases, ls = above ++ header :: between ∧ ¬IsSkipped header ∧
        IsUnindented header ∧ (∀ line ∈ between, IsInner line) ∧
        lineExport (above.foldl classAfter inClass) header = some (.classDef name bases) := by
  induction ls generalizing inClass with
  | nil => exact .inl ⟨h, nofun⟩
  | cons line ls ih =>
    rcases ih h with ⟨hafter, hls⟩ | ⟨above, header, between, name, bases, rfl, hheader⟩
    · -- The line itself is the header, or the class was open above it and it leaves it so.
      have hread := reading inClass line
      have hopen (hinClass : inClass = true) (hline : IsInner line) :
          inClass = true ∧ ∀ l ∈ line :: ls, IsInner l :=
        ⟨hinClass, List.forall_mem_cons.2 ⟨hline, hls⟩⟩
      generalize hshown : lineExport inClass line = shown at hread
      generalize classAfter inClass line = after at hread hafter
      cases hread with
      | skipped hskip => exact .inl (hopen hafter (.inl hskip))
      | classHeader hloud hunindented name bases =>
        exact .inr ⟨[], line, ls, name, _, rfl, hloud, hunindented, hls, hshown⟩
      | function => cases hafter
      | plain => cases hafter
      | method _ hindented _ _ _ _ _ _ _ hbelow => exact .inl (hopen hbelow (.inr hindented))
      | inner _ hindented => exact .inl (hopen hafter (.inr hindented))
    · exact .inr ⟨line :: above, header, between, name, bases, rfl, hheader⟩

/-- The first lines of a text. -/
def firstLines (content : Text) (count : Nat) : Text := Text.unlines ((Text.lines content).take count)

theorem definitions_firstLines (content : Text) (count : Nat) :
    definitions (firstLines content count) =
      definitionsFrom false ((Text.lines content).take count) :=
  definitions_unlines fun _ hl => Text.notMem_of_mem_pieces (List.mem_of_mem_take hl)

/-- An entry comes from a line: the lines above it export the entries above the entry, and that line adds
the entry to them. -/
structure FoundAt (content : Text) (entry line : Nat) : Prop where
  entry_lt : entry < (outline content).exports.length
  above : (outline (firstLines content line)).exports = (outline content).exports.take entry
  added : (outline (firstLines content (line + 1))).exports = (outline content).exports.take (entry + 1)

/-- The last line above another that is unindented and not left out. -/
structure LastUnindented (ls : List Text) (below line : Nat) : Prop where
  line_lt : line < below
  unindented : ∃ l, ls[line]? = some l ∧ ¬IsSkipped l ∧ IsUnindented l
  last : ∀ between l, line < between → between < below → ls[between]? = some l →
    IsSkipped l ∨ ¬IsUnindented l

theorem foundAt_of_lineExport {above behind : List Text}
    (hlines : Text.lines content = above ++ line :: behind)
    (hline : lineExport (above.foldl classAfter false) line = some d) :
    FoundAt content (definitionsFrom false above).length above.length := by
  have hadded : definitionsFrom false (above ++ [line]) = definitionsFrom false above ++ [d] := by
    rw [definitionsFrom_append, definitionsFrom_cons, hline]
    rfl
  have hlines' : Text.lines content = (above ++ [line]) ++ behind := by
    rw [hlines, List.append_assoc, List.singleton_append]
  have hall : definitions content = (definitionsFrom false above ++ [d]) ++
      definitionsFrom ((above ++ [line]).foldl classAfter false) behind := by
    rw [definitions, hlines', definitionsFrom_append, hadded]
  refine ⟨?_, ?_, ?_⟩
  · simp only [outline, List.length_map, hall, List.length_append, List.length_singleton]
    omega
  · simp only [outline, definitions_firstLines, ← List.map_take]
    rw [hlines, List.take_left, hall, List.append_assoc, List.take_left]
  · simp only [outline, definitions_firstLines, ← List.map_take]
    rw [hlines', List.take_left' (by simp), hall, List.take_left' (by simp), hadded]

/-- A method stands below the last class above it, with nothing but methods between them. -/
structure IsMethodOf (defs : List Definition) (method owner : Nat) : Prop where
  owner_lt : owner < method
  isClass : ∃ name bases, defs[owner]? = some (.classDef name bases)
  methods : ∀ between, owner < between → between < method → ∃ s, defs[between]? = some (.method s)

theorem isMethodOf_of_append {before methods behind : List Definition} {name : Text}
    {bases : Option (List Text)} (hmethods : ∀ d ∈ methods, ∃ s, d = .method s) :
    IsMethodOf (before ++ .classDef name bases :: methods ++ behind)
      (before ++ .classDef name bases :: methods).length before.length := by
  refine ⟨by simp, ⟨name, bases, by simp⟩, fun k hlow hhigh => ?_⟩
  obtain ⟨d, hd⟩ : ∃ d, (before ++ .classDef name bases :: methods ++ behind)[k]? = some d := by
    rw [List.getElem?_append_left hhigh]
    exact ⟨_, List.getElem?_eq_getElem hhigh⟩
  obtain ⟨s, rfl⟩ := hmethods d (mem_of_getElem?_between hlow hhigh hd)
  exact ⟨s, hd⟩

theorem below_of_method {s : Signature} (h : lineExport inClass line = some (.method s)) :
    inClass = true := by
  obtain ⟨after, hread⟩ := reading_of_lineExport h
  cases hread with
  | method _ _ _ _ _ _ _ _ _ hbelow => exact hbelow

theorem lastUnindented_of_append {above between behind : List Text} (hloud : ¬IsSkipped line)
    (hunindented : IsUnindented line) (hinner : ∀ l ∈ between, IsInner l) :
    LastUnindented (above ++ line :: between ++ behind) (above ++ line :: between).length
      above.length where
  line_lt := by simp
  unindented := ⟨line, by simp, hloud, hunindented⟩
  last k l hlow hhigh hl := hinner l (mem_of_getElem?_between hlow hhigh hl)

theorem exists_class_of_method {s : Signature} (h : (definitions content)[n]? = some (.method s)) :
    ∃ c i j, IsMethodOf (definitions content) n c ∧ FoundAt content n i ∧ FoundAt content c j ∧
      LastUnindented (Text.lines content) i j := by
  obtain ⟨above, line, behind, hlines, hline, rfl⟩ := exists_line_of_getElem? h
  -- No class is open above the first line, so the one above the method has its header in the text.
  rcases exists_header_of_below (below_of_method hline) with ⟨hopen, -⟩ |
    ⟨top, header, between, name, bases, rfl, hloud, hunindented, hinner, hheader⟩
  · cases hopen
  · have habove : definitionsFrom false (top ++ header :: between) =
        definitionsFrom false top ++ .classDef name bases ::
          definitionsFrom ((top ++ [header]).foldl classAfter false) between := by
      rw [definitionsFrom_append, definitionsFrom_cons, hheader, List.foldl_append]
      rfl
    have hall := definitionsFrom_append false (top ++ header :: between) (line :: behind)
    rw [← hlines] at hall
    refine ⟨(definitionsFrom false top).length, (top ++ header :: between).length, top.length, ?_,
      foundAt_of_lineExport hlines hline,
      foundAt_of_lineExport (by rw [hlines, List.append_assoc, List.cons_append]) hheader, ?_⟩
    · rw [definitions, hall, habove]
      exact isMethodOf_of_append fun d hd => eq_method_of_mem hinner hd
    · rw [hlines]
      exact lastUnindented_of_append hloud hunindented hinner

theorem getElem?_exports (content : Text) (n : Nat) :
    (outline content).exports[n]? = (definitions content)[n]?.map Definition.render :=
  List.getElem?_map

theorem isEntry_of_getElem? (h : (definitions content)[n]? = some d) : d.IsEntry :=
  isEntry_of_mem_definitions (List.mem_of_getElem? h)

theorem exists_classEntry {name : Text} {bases : Option (List Text)}
    (h : (definitions content)[n]? = some (.classDef name bases)) :
    ∃ e, (outline content).exports[n]? = some e ∧ ClassEntry e := by
  refine ⟨_, ?_, (isEntry_of_getElem? h).2⟩
  rw [getElem?_exports, h, Option.map_some]

theorem exists_methodEntry {s : Signature} (h : (definitions content)[n]? = some (.method s)) :
    ∃ e, (outline content).exports[n]? = some e ∧ MethodEntry e := by
  refine ⟨_, ?_, (isEntry_of_getElem? h).2⟩
  rw [getElem?_exports, h, Option.map_some]

/-- The nearest entry of a class above another entry. -/
structure NearestClass (entries : List Text) (below entry : Nat) : Prop where
  entry_lt : entry < below
  isClass : ∃ e, entries[entry]? = some e ∧ ClassEntry e
  nearest : ∀ between e, entry < between → between < below → entries[between]? = some e →
    ¬ClassEntry e

theorem IsMethodOf.nearestClass {method owner : Nat}
    (h : IsMethodOf (definitions content) method owner) :
    NearestClass (outline content).exports method owner where
  entry_lt := h.owner_lt
  isClass := by
    obtain ⟨name, bases, hclass⟩ := h.isClass
    exact exists_classEntry hclass
  nearest between e hlow hhigh he := by
    obtain ⟨s, hs⟩ := h.methods between hlow hhigh
    obtain ⟨e', he', hmethod⟩ := exists_methodEntry hs
    rw [he', Option.some.injEq] at he
    exact he ▸ hmethod.not_classEntry

/-- The entry above a method is one of a method or a class. -/
theorem IsMethodOf.preceded {method owner : Nat} (h : IsMethodOf (definitions content) method owner) :
    ∃ e, 0 < method ∧ (outline content).exports[method - 1]? = some e ∧
      (MethodEntry e ∨ ClassEntry e) := by
  have hlt := h.owner_lt
  by_cases howner : method - 1 = owner
  · obtain ⟨name, bases, hclass⟩ := h.isClass
    obtain ⟨e, he, hentry⟩ := exists_classEntry hclass
    exact ⟨e, by omega, howner ▸ he, .inr hentry⟩
  · obtain ⟨s, hs⟩ := h.methods (method - 1) (by omega) (by omega)
    obtain ⟨e, he, hentry⟩ := exists_methodEntry hs
    exact ⟨e, by omega, he, .inl hentry⟩

/-- Every entry of a Python file stands on one line and shows a class, a function or a method. A method
stands right below another or below its class, and its class is the one whose header is the last
unindented line above that of the method, blank lines and comments apart. -/
theorem exports_shape (content : Text) :
    (∀ e ∈ (outline content).exports,
      '\n' ∉ e ∧ (ClassEntry e ∨ FunctionEntry e ∨ MethodEntry e)) ∧
    ∀ n e, (outline content).exports[n]? = some e → MethodEntry e →
      (∃ e', 0 < n ∧ (outline content).exports[n - 1]? = some e' ∧ (MethodEntry e' ∨ ClassEntry e')) ∧
      ∃ c i j, NearestClass (outline content).exports n c ∧ FoundAt content n i ∧ FoundAt content c j ∧
        LastUnindented (Text.lines content) i j := by
  constructor
  · intro e he
    obtain ⟨d, hd, rfl⟩ := List.mem_map.1 he
    obtain ⟨hnewline, hkind⟩ := isEntry_of_mem_definitions hd
    refine ⟨hnewline, ?_⟩
    cases d with
    | classDef name bases => exact .inl hkind
    | function s => exact .inr (.inl hkind)
    | method s => exact .inr (.inr hkind)
  · intro n e he hmethod
    rw [getElem?_exports] at he
    obtain ⟨d, hd, rfl⟩ := Option.map_eq_some_iff.1 he
    obtain ⟨s, rfl⟩ := (isEntry_of_getElem? hd).eq_method hmethod
    obtain ⟨c, i, j, howner, hmethodLine, hclassLine, hlast⟩ := exists_class_of_method hd
    exact ⟨howner.preceded, c, i, j, howner.nearestClass, hmethodLine, hclassLine, hlast⟩

/-- A class with another in it, whose method is indented further than the last one. -/
def shopNested : Text :=
  Text.unlines (["import os", "class Shop(Base):", "\tclass Door:", "\t\tdef open(self): ...", "# left",
    " ", "  async def __call__(self, *hours: int) -> None:", "\treturn None"].map String.toList)

theorem shopNested_method_shape :
    (outline shopNested).exports[2]? = some "  async def __call__(self, *hours) -> None".toList ∧
      MethodEntry "  async def __call__(self, *hours) -> None".toList ∧
      ∃ c i j, NearestClass (outline shopNested).exports 2 c ∧ FoundAt shopNested 2 i ∧
        FoundAt shopNested c j ∧ LastUnindented (Text.lines shopNested) i j := by
  have hentry : (outline shopNested).exports[2]? =
      some "  async def __call__(self, *hours) -> None".toList := by
    decide +kernel
  have hmethod : MethodEntry "  async def __call__(self, *hours) -> None".toList :=
    .intro _ (.intro true "__call__".toList "self, *hours".toList (some "None".toList) (by decide)
      (by decide) (by decide) (by decide))
  exact ⟨hentry, hmethod, ((exports_shape shopNested).2 2 _ hentry hmethod).2⟩

end CodeIndex.Python
