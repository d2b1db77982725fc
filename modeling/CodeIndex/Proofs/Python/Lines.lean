import CodeIndex.Outline.Python
import CodeIndex.Proofs.Text.Pieces

/-!
# Python files line by line

A Python file is read as a machine would read its lines: a line exports at most one definition, and it
decides whether the next one stands below the header of a class. Lines that are blank or comments change
nothing, indented lines leave the class as it is, and an unindented line forgets all lines before it. So
the exports of two texts put together are those of both, if the second goes on unindented.
-/

namespace CodeIndex.Python

variable {line : Text} {ls : List Text} {inClass : Bool} {d : Definition}

/-- A line that is left out: there is nothing but white space in it, or a comment behind white space. -/
def IsSkipped (line : Text) : Prop :=
  (∀ c ∈ line, Text.isBlank c = true) ∨
    ∃ gap note, line = gap ++ '#' :: note ∧ ∀ c ∈ gap, Text.isBlank c = true

/-- A line that does not begin with white space. -/
def IsUnindented (line : Text) : Prop := ∀ c ∈ line.head?, Text.isBlank c = false

theorem trimLeft_gap {gap rest : Text} (hgap : ∀ c ∈ gap, Text.isBlank c = true) :
    Text.trimLeft (gap ++ rest) = Text.trimLeft rest :=
  List.dropWhile_append_of_pos hgap

theorem trimLeft_of_isUnindented (h : IsUnindented line) : Text.trimLeft line = line := by
  cases line with
  | nil => rfl
  | cons c cs =>
    have hc : Text.isBlank c = false := h c rfl
    rw [Text.trimLeft, List.dropWhile_cons_of_neg (by rw [hc]; decide)]

/-- A line is its indentation and what is left without it. -/
theorem exists_gap (line : Text) : ∃ gap, line = gap ++ Text.trimLeft line ∧
    (∀ c ∈ gap, Text.isBlank c = true) ∧ IsUnindented (Text.trimLeft line) :=
  ⟨line.takeWhile Text.isBlank, Text.takeWhile_eq_iff.1 ⟨rfl, rfl⟩⟩

theorem isSilent_trimLeft : isSilent (Text.trimLeft line) = true ↔ IsSkipped line := by
  constructor
  · intro h
    obtain ⟨gap, hline, hgap, -⟩ := exists_gap line
    cases hbody : Text.trimLeft line with
    | nil =>
      rw [hbody, List.append_nil] at hline
      exact .inl (hline ▸ hgap)
    | cons c note =>
      rw [hbody] at h hline
      obtain rfl : c = '#' := by simpa [isSilent] using h
      exact .inr ⟨gap, note, hline, hgap⟩
  · rintro (hblank | ⟨gap, note, rfl, hgap⟩)
    · have hnil : Text.trimLeft line = [] := by
        rw [← List.append_nil line, trimLeft_gap hblank]
        rfl
      rw [hnil]
      rfl
    · rw [trimLeft_gap hgap]
      rfl

instance (line : Text) : Decidable (IsSkipped line) := decidable_of_iff _ isSilent_trimLeft

instance (line : Text) : Decidable (IsUnindented line) :=
  decidable_of_iff (line.head?.all (!Text.isBlank ·) = true) (by cases line <;> simp [IsUnindented])

/-- How far a line is indented. -/
def indent (line : Text) : Nat := line.length - (Text.trimLeft line).length

theorem indent_eq_zero_iff : indent line = 0 ↔ IsUnindented line := by
  obtain ⟨gap, hline, -, hbody⟩ := exists_gap line
  have hindent : indent line = gap.length := by
    have hlength := congrArg List.length hline
    rw [List.length_append] at hlength
    rw [indent]
    omega
  rw [hindent, List.length_eq_zero_iff]
  constructor
  · rintro rfl
    exact hline ▸ hbody
  · intro h
    rw [trimLeft_of_isUnindented h] at hline
    exact List.append_left_eq_self.1 hline.symm

/-- What a line exports. -/
def lineExport (inClass : Bool) (line : Text) : Option Definition :=
  if isSilent (Text.trimLeft line) then none
  else (readLine inClass (indent line) (Text.trimLeft line)).1

/-- Whether the line below stands below the header of a class. -/
def classAfter (inClass : Bool) (line : Text) : Bool :=
  if isSilent (Text.trimLeft line) then inClass
  else (readLine inClass (indent line) (Text.trimLeft line)).2

theorem definitionsFrom_cons (inClass : Bool) (line : Text) (ls : List Text) :
    definitionsFrom inClass (line :: ls) =
      (lineExport inClass line).toList ++ definitionsFrom (classAfter inClass line) ls := by
  rw [definitionsFrom]
  simp only [lineExport, classAfter, indent]
  split
  · rfl
  · split
    · next hread => rw [hread]; rfl
    · next hread => rw [hread]; rfl

theorem definitionsFrom_append (inClass : Bool) (ls ms : List Text) :
    definitionsFrom inClass (ls ++ ms) =
      definitionsFrom inClass ls ++ definitionsFrom (ls.foldl classAfter inClass) ms := by
  induction ls generalizing inClass with
  | nil => rfl
  | cons line ls ih =>
    rw [List.cons_append, definitionsFrom_cons, definitionsFrom_cons, ih, List.append_assoc]
    rfl

/-- What a line can do, by what it is: what it exports and what it says of the next one. -/
inductive Reading (inClass : Bool) (line : Text) : Option Definition → Bool → Prop where
  | skipped (skip : IsSkipped line) : Reading inClass line none inClass
  | classHeader (loud : ¬IsSkipped line) (unindented : IsUnindented line) (name : Text)
      (bases : Option Text) (header : header? line = some (.ofClass name bases)) :
      Reading inClass line
        (some (.classDef name ((bases.filter (!·.isEmpty)).map baseNames))) true
  | function (loud : ¬IsSkipped line) (unindented : IsUnindented line) (isAsync : Bool)
      (name params : Text) (result : Option Text) (s : Signature)
      (header : header? line = some (.ofFunction isAsync name params result))
      (shown : signature? isAsync name params result = some s) :
      Reading inClass line (some (.function s)) false
  | plain (loud : ¬IsSkipped line) (unindented : IsUnindented line) :
      Reading inClass line none false
  | method (loud : ¬IsSkipped line) (indented : ¬IsUnindented line) (isAsync : Bool)
      (name params : Text) (result : Option Text) (s : Signature)
      (header : header? (Text.trimLeft line) = some (.ofFunction isAsync name params result))
      (shown : signature? isAsync name params result = some s) (below : inClass = true) :
      Reading inClass line (some (.method s)) true
  | inner (loud : ¬IsSkipped line) (indented : ¬IsUnindented line) :
      Reading inClass line none inClass

theorem reading_unindented (hloud : ¬IsSkipped line) (h : IsUnindented line) (inClass : Bool) :
    Reading inClass line (readLine inClass 0 line).1 (readLine inClass 0 line).2 := by
  unfold readLine
  cases hheader : header? line with
  | none => simpa using .plain hloud h
  | some header =>
    cases header with
    | ofClass name bases => simpa using .classHeader hloud h name bases hheader
    | ofFunction isAsync name params result =>
      cases hshown : signature? isAsync name params result with
      | none => simpa [hshown] using .plain hloud h
      | some s => simpa [hshown] using .function hloud h isAsync name params result s hheader hshown

theorem reading_indented (hloud : ¬IsSkipped line) (h : ¬IsUnindented line) {indent : Nat}
    (hindent : 0 < indent) (inClass : Bool) :
    Reading inClass line (readLine inClass indent (Text.trimLeft line)).1
      (readLine inClass indent (Text.trimLeft line)).2 := by
  have hne : indent ≠ 0 := Nat.ne_of_gt hindent
  unfold readLine
  cases hheader : header? (Text.trimLeft line) with
  | none => simpa [hindent] using .inner hloud h
  | some header =>
    cases header with
    | ofClass name bases => simpa [hindent, hne] using .inner hloud h
    | ofFunction isAsync name params result =>
      cases inClass with
      | false => simpa [hindent, hne] using .inner hloud h
      | true =>
        cases hshown : signature? isAsync name params result with
        | none => simpa [hindent, hshown] using .inner hloud h
        | some s =>
          simpa [hindent, hshown] using
            .method hloud h isAsync name params result s hheader hshown rfl

theorem reading (inClass : Bool) (line : Text) :
    Reading inClass line (lineExport inClass line) (classAfter inClass line) := by
  unfold lineExport classAfter
  split
  · next hskip => exact .skipped (isSilent_trimLeft.1 hskip)
  · next hskip =>
    have hloud : ¬IsSkipped line := fun h => hskip (isSilent_trimLeft.2 h)
    by_cases hindent : IsUnindented line
    · rw [indent_eq_zero_iff.2 hindent, trimLeft_of_isUnindented hindent]
      exact reading_unindented hloud hindent inClass
    · have hpos : 0 < indent line := Nat.pos_of_ne_zero fun h => hindent (indent_eq_zero_iff.1 h)
      exact reading_indented hloud hindent hpos inClass

theorem reading_of_lineExport (h : lineExport inClass line = some d) :
    ∃ after, Reading inClass line (some d) after :=
  ⟨classAfter inClass line, h ▸ reading inClass line⟩

theorem definitionsFrom_cons_of_isSkipped (h : IsSkipped line) :
    definitionsFrom inClass (line :: ls) = definitionsFrom inClass ls := by
  have hsilent := isSilent_trimLeft.2 h
  rw [definitionsFrom_cons, lineExport, classAfter, if_pos hsilent, if_pos hsilent]
  rfl

/-- An unindented line is read alike below all lines. -/
theorem definitionsFrom_cons_of_isUnindented (hloud : ¬IsSkipped line) (h : IsUnindented line)
    (inClass inClass' : Bool) :
    definitionsFrom inClass (line :: ls) = definitionsFrom inClass' (line :: ls) := by
  -- A line without indentation closes the class above before it is read.
  have hread : readLine inClass 0 line = readLine inClass' 0 line := by
    simp only [readLine, Nat.lt_irrefl, decide_false, Bool.and_false]
  have hsilent : ¬isSilent line = true := fun hsilent =>
    hloud (isSilent_trimLeft.1 (by rwa [trimLeft_of_isUnindented h]))
  simp only [definitionsFrom_cons, lineExport, classAfter, indent_eq_zero_iff.2 h,
    trimLeft_of_isUnindented h, if_neg hsilent, hread]

/-- The lines of a text that are not left out. -/
def loudLines (content : Text) : List Text := (Text.lines content).filter fun l => ¬IsSkipped l

theorem definitionsFrom_filter (inClass : Bool) (ls : List Text) :
    definitionsFrom inClass (ls.filter fun l => ¬IsSkipped l) = definitionsFrom inClass ls := by
  induction ls generalizing inClass with
  | nil => rfl
  | cons line ls ih =>
    by_cases hskip : IsSkipped line
    · rw [List.filter_cons_of_neg (by simpa using hskip), ih,
        definitionsFrom_cons_of_isSkipped hskip]
    · rw [List.filter_cons_of_pos (by simpa using hskip), definitionsFrom_cons, definitionsFrom_cons,
        ih]

theorem definitions_eq_loudLines (content : Text) :
    definitions content = definitionsFrom false (loudLines content) :=
  (definitionsFrom_filter false (Text.lines content)).symm

theorem definitions_unlines (h : ∀ l ∈ ls, '\n' ∉ l) :
    definitions (Text.unlines ls) = definitionsFrom false ls := by
  by_cases hnil : ls = []
  · rw [hnil]
    rfl
  · rw [definitions, Text.lines_unlines_of_notMem hnil h]

/-- What was read before does not matter to lines that go on unindented. -/
theorem definitionsFrom_of_goesOnUnindented
    (h : ∀ line ∈ (ls.filter fun l => ¬IsSkipped l).head?, IsUnindented line) (inClass inClass' : Bool) :
    definitionsFrom inClass ls = definitionsFrom inClass' ls := by
  rw [← definitionsFrom_filter inClass, ← definitionsFrom_filter inClass']
  cases hloud : ls.filter fun l => ¬IsSkipped l with
  | nil => rfl
  | cons line rest =>
    have hline : line ∈ ls.filter fun l => ¬IsSkipped l := hloud ▸ List.mem_cons_self
    exact definitionsFrom_cons_of_isUnindented (by simpa using (List.mem_filter.1 hline).2)
      (h line (by rw [hloud]; rfl)) inClass inClass'

/-- Python files are outlined piece by piece: a text and one that goes on unindented below it export
together what they export alone, and lines that are blank or comments, indented or not, may be put in
and taken out wherever lines begin or end. -/
theorem exports_compositional :
    (∀ first second : Text, (∀ line ∈ (loudLines second).head?, IsUnindented line) →
      (outline (first ++ '\n' :: second)).exports =
        (outline first).exports ++ (outline second).exports) ∧
    ∀ content content' : Text, loudLines content = loudLines content' →
      (outline content).exports = (outline content').exports := by
  constructor
  · intro first second hsecond
    have hlines : Text.lines (first ++ '\n' :: second) = Text.lines first ++ Text.lines second :=
      Text.pieces_append '\n' first second
    have hsplit : definitions (first ++ '\n' :: second) = definitions first ++ definitions second := by
      rw [definitions, hlines, definitionsFrom_append,
        definitionsFrom_of_goesOnUnindented hsecond _ false]
      rfl
    simp only [outline, hsplit, List.map_append]
  · intro content content' hsame
    simp only [outline, definitions_eq_loudLines, hsame]

/-- A class whose method ends the text. -/
def shopClass : Text :=
  Text.unlines (["class Shop(Base):", "    def open(self, hour: int):", "        pass"].map String.toList)

/-- A function below a comment that is indented further than all above it. -/
def shopMain : Text :=
  Text.unlines (["            # below", "", "async def main() -> None:", "    def inner(): pass"].map
    String.toList)

/-- Both, with the lines between them taken out and others put in. -/
def shopSpaced : Text :=
  Text.unlines (["# top", "class Shop(Base):", "# left", " \t", "    def open(self, hour: int):",
    "        pass", "async def main() -> None:", "    def inner(): pass", ""].map String.toList)

theorem shop_exports_compose :
    (∀ line ∈ (loudLines shopMain).head?, IsUnindented line) ∧
      loudLines shopSpaced = loudLines (shopClass ++ '\n' :: shopMain) ∧
      (outline shopSpaced).exports =
        ["class Shop(Base)".toList, "  def open(self, hour)".toList, "async def main() -> None".toList] := by
  have hfirst : (loudLines shopMain).head? = some "async def main() -> None:".toList := by decide +kernel
  have hmain : ∀ line ∈ (loudLines shopMain).head?, IsUnindented line := by
    intro line hline
    rw [hfirst] at hline
    obtain rfl := Option.mem_some.1 hline
    decide
  have hspaced : loudLines shopSpaced = loudLines (shopClass ++ '\n' :: shopMain) := by decide +kernel
  refine ⟨hmain, hspaced, ?_⟩
  rw [exports_compositional.2 shopSpaced _ hspaced, exports_compositional.1 shopClass shopMain hmain]
  decide

end CodeIndex.Python
