import CodeIndex.Proofs.Python.Entries

/-!
# Which lines Python files show as methods

A line is shown as that of a method if it is the indented header of a function that is not private, and the
last unindented line above it is the header of a class. How far it is indented and which other definitions
stand between the two does not count: the functions inside a method and the methods of a class inside the
class are shown like its own methods.
-/

namespace CodeIndex.Python

variable {line content : Text} {ls : List Text} {inClass : Bool} {s : Signature} {i j n : Nat}

/-- The words that a definition begins with, set off by white space. -/
def definitionWords : Reader Unit :=
  Reader.orElse (Reader.keyword "class".toList) do
    let _ ← Reader.optional (Reader.keyword "async".toList)
    Reader.keyword "def".toList

/-- A line that begins, behind its indentation, as the header of a class or a function does. -/
def OpensDefinition (line : Text) : Prop := (definitionWords.parse (Text.trimLeft line)).isSome = true

instance (line : Text) : Decidable (OpensDefinition line) :=
  inferInstanceAs (Decidable (_ = true))

/-- The definition that an indented line opens goes on to another line: all lines below it, up to that one,
are indented further or left out. -/
structure Encloses (ls : List Text) (outer inner : Nat) : Prop where
  above : outer < inner
  opens : ∃ line, ls[outer]? = some line ∧ ¬IsUnindented line ∧ OpensDefinition line ∧
    ∀ k l, outer < k → k ≤ inner → ls[k]? = some l → IsSkipped l ∨ indent line < indent l

/-- A line inside an indented definition. -/
def IsEnclosed (ls : List Text) (inner : Nat) : Prop := ∃ outer, Encloses ls outer inner

/-- The indented header of a function that is not private, below the header of a class. -/
def IsMethodLine (ls : List Text) (i : Nat) : Prop :=
  ∃ line, ls[i]? = some line ∧ ¬IsUnindented line ∧
    (∃ isAsync name params result, isPrivate name = false ∧
      header? (Text.trimLeft line) = some (.ofFunction isAsync name params result)) ∧
    ∃ j header name bases, LastUnindented ls i j ∧ ls[j]? = some header ∧
      header? header = some (.ofClass name bases)

theorem header?_of_isSilent {t : Text} (h : isSilent t = true) : header? t = none := by
  cases t with
  | nil => rfl
  | cons c t =>
    obtain rfl : c = '#' := by simpa [isSilent] using h
    rfl

theorem not_isSkipped_of_header {header : Header} (h : header? (Text.trimLeft line) = some header) :
    ¬IsSkipped line := fun hskip => by
  rw [header?_of_isSilent (isSilent_trimLeft.2 hskip)] at h
  cases h

/-- A line that is left out or indented leaves the class as it is. -/
theorem classAfter_of_isInner (h : IsInner line) : classAfter inClass line = inClass := by
  have hread := reading inClass line
  generalize lineExport inClass line = shown at hread
  generalize classAfter inClass line = after at hread
  cases hread with
  | skipped => rfl
  | classHeader hloud hunindented => exact absurd h (by simp [IsInner, hloud, hunindented])
  | function hloud hunindented => exact absurd h (by simp [IsInner, hloud, hunindented])
  | plain hloud hunindented => exact absurd h (by simp [IsInner, hloud, hunindented])
  | method _ _ _ _ _ _ _ _ _ hbelow => exact hbelow.symm
  | inner => rfl

theorem foldl_classAfter_of_isInner (h : ∀ line ∈ ls, IsInner line) :
    ls.foldl classAfter inClass = inClass := by
  induction ls with
  | nil => rfl
  | cons line ls ih =>
    rw [List.foldl_cons, classAfter_of_isInner (h line List.mem_cons_self)]
    exact ih fun l hl => h l (List.mem_cons_of_mem _ hl)

theorem classAfter_of_class {name : Text} {bases : Option Text} (hunindented : IsUnindented line)
    (hheader : header? line = some (.ofClass name bases)) : classAfter inClass line = true := by
  have htrim := trimLeft_of_isUnindented hunindented
  have hloud : ¬isSilent (Text.trimLeft line) = true := fun hsilent => by
    rw [← htrim, header?_of_isSilent hsilent] at hheader
    cases hheader
  rw [classAfter, if_neg hloud, htrim, indent_eq_zero_iff.2 hunindented, readLine, hheader]
  rfl

theorem lineExport_eq_method_iff : lineExport inClass line = some (.method s) ↔
    inClass = true ∧ ¬IsUnindented line ∧ ∃ isAsync name params result,
      header? (Text.trimLeft line) = some (.ofFunction isAsync name params result) ∧
        signature? isAsync name params result = some s := by
  constructor
  · intro h
    obtain ⟨after, hread⟩ := reading_of_lineExport h
    cases hread with
    | method _ hindented isAsync name params result _ hheader hshown hbelow =>
      exact ⟨hbelow, hindented, isAsync, name, params, result, hheader, hshown⟩
  · rintro ⟨rfl, hindented, isAsync, name, params, result, hheader, hshown⟩
    have hloud : ¬isSilent (Text.trimLeft line) = true := fun hsilent =>
      not_isSkipped_of_header hheader (isSilent_trimLeft.1 hsilent)
    have hpos : 0 < indent line := Nat.pos_of_ne_zero fun h => hindented (indent_eq_zero_iff.1 h)
    rw [lineExport, if_neg hloud, readLine, hheader]
    simp [hpos, hshown]

theorem exists_signature_iff {isAsync : Bool} {name params : Text} {result : Option Text} :
    (∃ s, signature? isAsync name params result = some s) ↔ isPrivate name = false := by
  simp [signature?]

/-- A line stands below the header of a class exactly if that is the last unindented line above it. -/
theorem below_class_iff (above behind : List Text) (line : Text) :
    above.foldl classAfter false = true ↔ ∃ j header name bases,
      LastUnindented (above ++ line :: behind) above.length j ∧
        (above ++ line :: behind)[j]? = some header ∧ header? header = some (.ofClass name bases) := by
  constructor
  · intro hbelow
    rcases exists_header_of_below hbelow with ⟨hopen, -⟩ |
      ⟨top, header, between, name, bases, rfl, hloud, hunindented, hinner, hexport⟩
    · cases hopen
    · obtain ⟨after, hread⟩ := reading_of_lineExport hexport
      cases hread with
      | classHeader _ _ _ bases' hheader =>
        exact ⟨top.length, header, name, bases', lastUnindented_of_append hloud hunindented hinner,
          by simp, hheader⟩
  · rintro ⟨j, header, name, bases, hlast, hj, hheader⟩
    obtain ⟨l, hl, -, hunindented⟩ := hlast.unindented
    obtain rfl := Option.some.inj (hl.symm.trans hj)
    rw [List.getElem?_append_left hlast.line_lt] at hj
    obtain ⟨top, between, rfl, rfl⟩ := exists_cut_of_getElem? hj
    have hinner : ∀ l' ∈ between, IsInner l' := by
      intro l' hl'
      obtain ⟨k, hk⟩ := List.getElem?_of_mem hl'
      have hbound := (List.getElem?_eq_some_iff.1 hk).1
      have hplace : (top ++ l :: between)[top.length + (k + 1)]? = some l' := by
        rwa [List.getElem?_append_right (Nat.le_add_right _ _), Nat.add_sub_cancel_left,
          List.getElem?_cons_succ]
      have hlength : (top ++ l :: between).length = top.length + (between.length + 1) := by simp
      refine hlast.last (top.length + (k + 1)) l' (by omega) (by omega) ?_
      rwa [List.getElem?_append_left (by omega)]
    rw [List.foldl_append, List.foldl_cons, classAfter_of_class hunindented hheader,
      foldl_classAfter_of_isInner hinner]

theorem isMethodLine_iff {above behind : List Text} :
    IsMethodLine (above ++ line :: behind) above.length ↔
      ∃ s, lineExport (above.foldl classAfter false) line = some (.method s) := by
  simp only [lineExport_eq_method_iff, below_class_iff above behind line]
  constructor
  · rintro ⟨l, hl, hindented, ⟨isAsync, name, params, result, hpublic, hheader⟩, hclass⟩
    obtain rfl : line = l := by simpa using hl
    obtain ⟨s, hs⟩ := exists_signature_iff.2 hpublic
    exact ⟨s, hclass, hindented, isAsync, name, params, result, hheader, hs⟩
  · rintro ⟨s, hclass, hindented, isAsync, name, params, result, hheader, hs⟩
    exact ⟨line, by simp, hindented,
      ⟨isAsync, name, params, result, exists_signature_iff.1 ⟨s, hs⟩, hheader⟩, hclass⟩

theorem length_firstLines_mono (content : Text) (h : i ≤ j) :
    (outline (firstLines content i)).exports.length ≤ (outline (firstLines content j)).exports.length := by
  obtain ⟨rest, hrest⟩ := List.take_prefix_take_left h (l := Text.lines content)
  simp only [outline, definitions_firstLines, List.length_map, ← hrest, definitionsFrom_append,
    List.length_append]
  exact Nat.le_add_right _ _

/-- An entry comes from one line only: its number is passed with that line. -/
theorem FoundAt.line_unique (h : FoundAt content n i) (h' : FoundAt content n j) : i = j := by
  have hpassed {k m : Nat} (hk : FoundAt content n k) (hm : FoundAt content n m) : ¬k + 1 ≤ m := by
    intro hle
    have hmono := length_firstLines_mono content hle
    rw [hk.added, hm.above, List.length_take, List.length_take] at hmono
    have hlt := hk.entry_lt
    omega
  have hij := hpassed h h'
  have hji := hpassed h' h
  omega

theorem getElem?_of_lineExport {above behind : List Text} {d : Definition}
    (hlines : Text.lines content = above ++ line :: behind)
    (hexport : lineExport (above.foldl classAfter false) line = some d) :
    (definitions content)[(definitionsFrom false above).length]? = some d := by
  rw [definitions, hlines, definitionsFrom_append, definitionsFrom_cons, hexport]
  simp

theorem exists_line_of_methodEntry {e : Text} (he : (outline content).exports[n]? = some e)
    (hmethod : MethodEntry e) : ∃ i, FoundAt content n i ∧ IsMethodLine (Text.lines content) i := by
  rw [getElem?_exports] at he
  obtain ⟨d, hd, rfl⟩ := Option.map_eq_some_iff.1 he
  obtain ⟨s, rfl⟩ := (isEntry_of_getElem? hd).eq_method hmethod
  obtain ⟨above, line, behind, hlines, hexport, rfl⟩ := exists_line_of_getElem? hd
  refine ⟨above.length, foundAt_of_lineExport hlines hexport, ?_⟩
  rw [hlines]
  exact isMethodLine_iff.2 ⟨s, hexport⟩

theorem exists_methodEntry_of_line (h : IsMethodLine (Text.lines content) i) :
    ∃ n e, FoundAt content n i ∧ (outline content).exports[n]? = some e ∧ MethodEntry e := by
  obtain ⟨line, hline, -⟩ := id h
  obtain ⟨above, behind, hlines, rfl⟩ := exists_cut_of_getElem? hline
  rw [hlines] at h
  obtain ⟨s, hexport⟩ := isMethodLine_iff.1 h
  obtain ⟨e, he, hmethod⟩ := exists_methodEntry (getElem?_of_lineExport hlines hexport)
  exact ⟨_, e, foundAt_of_lineExport hlines hexport, he, hmethod⟩

/-- The methods that are shown come from the indented headers of functions below a class that are not
private, one from each, whatever other definitions enclose them. So they all stand in no definition but
their class exactly if no such header in the file is enclosed by another. -/
theorem method_lines_exact (content : Text) :
    (∀ n e, (outline content).exports[n]? = some e → MethodEntry e →
      ∃ i, FoundAt content n i ∧ IsMethodLine (Text.lines content) i ∧
        ∀ j, FoundAt content n j → j = i) ∧
    (∀ i, IsMethodLine (Text.lines content) i →
      ∃ n e, FoundAt content n i ∧ (outline content).exports[n]? = some e ∧ MethodEntry e) ∧
    ((∀ n e i, (outline content).exports[n]? = some e → MethodEntry e → FoundAt content n i →
        ¬IsEnclosed (Text.lines content) i) ↔
      ∀ i, IsMethodLine (Text.lines content) i → ¬IsEnclosed (Text.lines content) i) := by
  refine ⟨fun n e he hmethod => ?_, fun i hi => exists_methodEntry_of_line hi, fun hfirst i hi => ?_,
    fun hfirst n e i he hmethod hfound => ?_⟩
  · obtain ⟨i, hfound, hi⟩ := exists_line_of_methodEntry he hmethod
    exact ⟨i, hfound, hi, fun j hj => hj.line_unique hfound⟩
  · obtain ⟨n, e, hfound, he, hmethod⟩ := exists_methodEntry_of_line hi
    exact hfirst n e i he hmethod hfound
  · obtain ⟨j, hfound', hj⟩ := exists_line_of_methodEntry he hmethod
    exact hfirst i (hfound.line_unique hfound' ▸ hj)

/-- A class with a function inside a method and a method inside an inner class. -/
def shopInner : Text :=
  Text.unlines (["class Shop:", "    def open(self):", "        def check(x): ...", "        return check",
    "    class Door:", "        def close(self): ..."].map String.toList)

theorem shopInner_lines :
    Text.lines shopInner = ["class Shop:".toList, "    def open(self):".toList,
      "        def check(x): ...".toList, "        return check".toList, "    class Door:".toList] ++
      "        def close(self): ...".toList :: [] := by
  decide +kernel

theorem shopInner_method_lines :
    IsMethodLine (Text.lines shopInner) 5 ∧
      ∃ n e, FoundAt shopInner n 5 ∧ (outline shopInner).exports[n]? = some e ∧ MethodEntry e := by
  have hline : IsMethodLine (Text.lines shopInner) 5 := by
    rw [shopInner_lines]
    exact isMethodLine_iff.2 ⟨⟨false, "close".toList, ["self".toList], none⟩, by decide⟩
  exact ⟨hline, (method_lines_exact shopInner).2.1 5 hline⟩

/-- A function inside a method is shown like a method. -/
theorem shopInner_shows_enclosed :
    (outline shopInner).exports[2]? = some "  def check(x)".toList ∧ MethodEntry "  def check(x)".toList ∧
      FoundAt shopInner 2 2 ∧ IsEnclosed (Text.lines shopInner) 2 := by
  have hmethod : MethodEntry "  def check(x)".toList :=
    .intro _ (.intro false "check".toList ['x'] none (by decide) (by decide) (by decide) nofun)
  have hfound : FoundAt shopInner 2 2 := ⟨by decide +kernel, by decide +kernel, by decide +kernel⟩
  have hencloses : Encloses (Text.lines shopInner) 1 2 := by
    rw [shopInner_lines]
    refine ⟨by decide, "    def open(self):".toList, rfl, by decide, by decide, fun k l hlow hhigh hl => ?_⟩
    obtain rfl : k = 2 := by omega
    obtain rfl := Option.some.inj hl
    exact .inr (by decide)
  exact ⟨by decide +kernel, hmethod, hfound, 1, hencloses⟩

end CodeIndex.Python
