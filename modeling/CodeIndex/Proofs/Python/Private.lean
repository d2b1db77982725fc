import CodeIndex.Proofs.Python.Functions
import CodeIndex.Proofs.Python.Methods

/-!
# Which private names Python files show

A name is private if it starts with a low line, unless it both starts and ends with two. Of the functions and
methods, those are left out whose name starts with exactly one low line; one that starts with two is shown
whatever it ends with. Classes are shown under any name. The entries with a private name are those of such
lines and no others.
-/

namespace CodeIndex.Python

open Text (IsWord)

def Definition.name : Definition → Text
  | classDef name _ => name
  | function s => s.name
  | method s => s.name

variable {line content e name name' : Text} {d : Definition} {inClass : Bool} {i n : Nat}

/-- What entries begin with, before the name. -/
def leads : List Text := ["class ", "def ", "async def ", "  def ", "  async def "].map String.toList

/-- The name that an entry shows: the word behind what it begins with. -/
def Names (e name : Text) : Prop :=
  ∃ lead ∈ leads, ∃ rest, e = lead ++ (name ++ rest) ∧ IsWord name ∧ ∀ c ∈ rest.head?, Text.isWord c = false

/-- A name with two low lines at both ends. -/
def IsDunder (name : Text) : Prop := ['_', '_'] <+: name ∧ ['_', '_'] <:+ name

def IsPrivateName (name : Text) : Prop := ['_'] <+: name ∧ ¬IsDunder name

instance (name : Text) : Decidable (IsDunder name) := inferInstanceAs (Decidable (_ ∧ _))

instance (name : Text) : Decidable (IsPrivateName name) := inferInstanceAs (Decidable (_ ∧ _))

/-- A line with a private name that is shown all the same: the unindented header of a class, or the header of
a function whose name starts with two low lines, unindented or as a method. -/
inductive ShowsPrivate (ls : List Text) (i : Nat) (name : Text) : Prop where
  | ofClass (line : Text) (bases : Option Text) (at_line : ls[i]? = some line) (unindented : IsUnindented line)
      (header : header? line = some (.ofClass name bases)) (isPrivate : IsPrivateName name)
  | ofFunction (line : Text) (isAsync : Bool) (params : Text) (result : Option Text)
      (at_line : ls[i]? = some line) (place : IsUnindented line ∨ IsMethodLine ls i)
      (header : header? (Text.trimLeft line) = some (.ofFunction isAsync name params result))
      (starts : ['_', '_'] <+: name) (ends : ¬['_', '_'] <:+ name)

/-- No two beginnings can be taken for each other, so an entry has one name. -/
theorem Names.unique (h : Names e name) (h' : Names e name') : name = name' := by
  obtain ⟨lead, hlead, rest, rfl, hword, hrest⟩ := h
  obtain ⟨lead', hlead', rest', heq, hword', hrest'⟩ := h'
  have hall : (leads.all fun lead => leads.all fun lead' => !lead.isPrefixOf lead' || lead == lead') = true := by
    decide
  have hlonger {lead lead' : Text} (hlead : lead ∈ leads) (hlead' : lead' ∈ leads) (h : lead <+: lead') :
      lead = lead' := by
    have htest := List.all_eq_true.1 (List.all_eq_true.1 hall lead hlead) lead' hlead'
    simpa [List.isPrefixOf_iff_prefix.2 h] using htest
  have hsame : lead = lead' := by
    rcases List.prefix_or_prefix_of_prefix (List.prefix_append lead _) (heq ▸ List.prefix_append lead' _) with h | h
    · exact hlonger hlead hlead' h
    · exact (hlonger hlead' hlead h).symm
  subst hsame
  have htail := congrArg Text.leadingWord (List.append_cancel_left heq)
  rwa [Text.leadingWord_append hword.2 hrest, Text.leadingWord_append hword'.2 hrest'] at htail

theorem names_signature (s : Signature) (hword : IsWord s.name) (indent : Text)
    (hindent : indent = [] ∨ indent = [' ', ' ']) : Names (indent ++ s.render) s.name := by
  refine ⟨indent ++ opening s.isAsync, ?_, ['('] ++ (Text.commaJoin s.params ++ ([')'] ++
    s.result.elim [] (" -> ".toList ++ ·))), ?_, hword, ?_⟩
  · cases s.isAsync <;> rcases hindent with rfl | rfl <;> decide
  · rw [Signature.render_eq, opening]
    simp only [List.append_assoc]
  · rintro c ⟨⟩
    decide

theorem render_plain_class (name : Text) : (Definition.classDef name none).render = "class ".toList ++ name := rfl

theorem render_derived_class (name : Text) (bases : List Text) : (Definition.classDef name (some bases)).render =
    "class ".toList ++ name ++ ['('] ++ Text.commaJoin bases ++ [')'] := rfl

theorem Definition.names_render (hword : IsWord d.name) : Names d.render d.name := by
  cases d with
  | classDef name bases =>
    refine ⟨"class ".toList, by decide, ?_⟩
    cases bases with
    | none => exact ⟨[], by rw [render_plain_class, List.append_nil]; rfl, hword, nofun⟩
    | some bases =>
      refine ⟨['('] ++ (Text.commaJoin bases ++ [')']), ?_, hword, ?_⟩
      · rw [render_derived_class]
        simp only [List.append_assoc]
        rfl
      · rintro c ⟨⟩
        decide
  | function s => exact names_signature s hword [] (.inl rfl)
  | method s => exact names_signature s hword [' ', ' '] (.inr rfl)

theorem name_of_signature? {isAsync : Bool} {params : Text} {result : Option Text} {s : Signature}
    (h : signature? isAsync name params result = some s) :
    s.name = name ∧ (['_'] <+: name → ['_', '_'] <+: name) := by
  unfold signature? at h
  split at h
  · cases h
  · next hvisible =>
    cases h
    exact ⟨rfl, visible_of_not_isPrivate hvisible⟩

theorem isWord_of_lineExport (h : lineExport inClass line = some d) : IsWord d.name := by
  have hheader {t : Text} {isAsync : Bool} {name params : Text} {result : Option Text} {s : Signature}
      (hheader : header? t = some (.ofFunction isAsync name params result))
      (hs : signature? isAsync name params result = some s) : IsWord s.name := by
    cases takenFrom_header? hheader with
    | ofFunction hword => exact (name_of_signature? hs).1 ▸ hword
  obtain ⟨after, hread⟩ := reading_of_lineExport h
  cases hread with
  | classHeader _ _ name bases hclass =>
    cases takenFrom_header? hclass with
    | ofClass hword => exact hword
  | function _ _ _ _ _ _ s hfunction hs => exact hheader hfunction hs
  | method _ _ _ _ _ _ s hfunction hs => exact hheader hfunction hs

theorem lineExport_of_header {header : Header} (hunindented : IsUnindented line)
    (hheader : header? line = some header) : lineExport inClass line = (readLine inClass 0 line).1 := by
  have htrim := trimLeft_of_isUnindented hunindented
  have hloud : ¬isSilent (Text.trimLeft line) = true := fun hsilent =>
    not_isSkipped_of_header (htrim.symm ▸ hheader) (isSilent_trimLeft.1 hsilent)
  rw [lineExport, if_neg hloud, htrim, indent_eq_zero_iff.2 hunindented]

theorem lineExport_of_class {bases : Option Text} (hunindented : IsUnindented line)
    (hheader : header? line = some (.ofClass name bases)) :
    lineExport inClass line = some (.classDef name ((bases.filter (!·.isEmpty)).map baseNames)) := by
  rw [lineExport_of_header hunindented hheader, readLine, hheader]
  rfl

theorem lineExport_of_function {isAsync : Bool} {params : Text} {result : Option Text} {s : Signature}
    (hunindented : IsUnindented line) (hheader : header? line = some (.ofFunction isAsync name params result))
    (hs : signature? isAsync name params result = some s) :
    lineExport inClass line = some (.function s) := by
  rw [lineExport_of_header hunindented hheader, readLine, hheader]
  simp [hs]

theorem isPrivate_eq_false (h : ['_', '_'] <+: name) : isPrivate name = false := by
  simp [isPrivate, List.isPrefixOf_iff_prefix.2 h]

/-- A line shows a private name exactly if what it exports has one. -/
theorem showsPrivate_iff {above behind : List Text} :
    ShowsPrivate (above ++ line :: behind) above.length name ↔
      IsPrivateName name ∧ ∃ d, lineExport (above.foldl classAfter false) line = some d ∧ d.name = name := by
  have hfound {l : Text} (h : (above ++ line :: behind)[above.length]? = some l) : l = line := by
    simpa using h.symm
  constructor
  · intro h
    cases h with
    | ofClass l bases hl hunindented hheader hprivate =>
      obtain rfl := hfound hl
      exact ⟨hprivate, _, lineExport_of_class hunindented hheader, rfl⟩
    | ofFunction l isAsync params result hl hplace hheader hstarts hends =>
      obtain rfl := hfound hl
      have hlow : ['_'] <+: name := (List.prefix_append ['_'] ['_']).trans hstarts
      refine ⟨⟨hlow, fun hdunder => hends hdunder.2⟩, ?_⟩
      obtain ⟨s, hs⟩ := exists_signature_iff.2 (isPrivate_eq_false hstarts)
      rcases hplace with hunindented | hmethod
      · rw [trimLeft_of_isUnindented hunindented] at hheader
        exact ⟨_, lineExport_of_function hunindented hheader hs, (name_of_signature? hs).1⟩
      · obtain ⟨s', hexport⟩ := isMethodLine_iff.1 hmethod
        obtain ⟨-, -, _, _, _, _, hheader', hs'⟩ := lineExport_eq_method_iff.1 hexport
        rw [hheader] at hheader'
        cases hheader'
        exact ⟨_, hexport, (name_of_signature? hs').1⟩
  · rintro ⟨hprivate, d, hexport, rfl⟩
    have hline : (above ++ line :: behind)[above.length]? = some line := by simp
    -- A function that is shown does not start with one low line alone, so it is its end that is at fault.
    have hstarts {isAsync : Bool} {name params : Text} {result : Option Text} {s : Signature}
        (hs : signature? isAsync name params result = some s) (hprivate : IsPrivateName s.name) :
        name = s.name ∧ ['_', '_'] <+: s.name ∧ ¬['_', '_'] <:+ s.name := by
      obtain ⟨rfl, hvisible⟩ := name_of_signature? hs
      have htwo := hvisible hprivate.1
      exact ⟨rfl, htwo, fun hends => hprivate.2 ⟨htwo, hends⟩⟩
    obtain ⟨after, hread⟩ := reading_of_lineExport hexport
    cases hread with
    | classHeader _ hunindented name bases hheader =>
      exact .ofClass line bases hline hunindented hheader hprivate
    | function _ hunindented isAsync name params result s hheader hs =>
      obtain ⟨rfl, htwo, hends⟩ := hstarts hs hprivate
      rw [← trimLeft_of_isUnindented hunindented] at hheader
      exact .ofFunction line isAsync params result hline (.inl hunindented) hheader htwo hends
    | method _ _ isAsync name params result s hheader hs =>
      obtain ⟨rfl, htwo, hends⟩ := hstarts hs hprivate
      exact .ofFunction line isAsync params result hline (.inr (isMethodLine_iff.2 ⟨s, hexport⟩)) hheader htwo
        hends

theorem showsPrivate_of_entry (he : (outline content).exports[n]? = some e) (hname : Names e name)
    (hprivate : IsPrivateName name) : ∃ i, FoundAt content n i ∧ ShowsPrivate (Text.lines content) i name := by
  rw [getElem?_exports] at he
  obtain ⟨d, hd, rfl⟩ := Option.map_eq_some_iff.1 he
  obtain ⟨above, line, behind, hlines, hexport, rfl⟩ := exists_line_of_getElem? hd
  refine ⟨above.length, foundAt_of_lineExport hlines hexport, ?_⟩
  rw [hlines]
  have hname' := Definition.names_render (isWord_of_lineExport hexport)
  exact showsPrivate_iff.2 ⟨hprivate, d, hexport, hname'.unique hname⟩

theorem exists_entry_of_showsPrivate (h : ShowsPrivate (Text.lines content) i name) :
    IsPrivateName name ∧ ∃ n e, FoundAt content n i ∧ (outline content).exports[n]? = some e ∧ Names e name := by
  obtain ⟨line, hline⟩ : ∃ line, (Text.lines content)[i]? = some line := by
    cases h with
    | ofClass line _ hline => exact ⟨line, hline⟩
    | ofFunction line _ _ _ hline => exact ⟨line, hline⟩
  obtain ⟨above, behind, hlines, rfl⟩ := exists_cut_of_getElem? hline
  rw [hlines] at h
  obtain ⟨hprivate, d, hexport, rfl⟩ := showsPrivate_iff.1 h
  refine ⟨hprivate, _, d.render, foundAt_of_lineExport hlines hexport, ?_,
    Definition.names_render (isWord_of_lineExport hexport)⟩
  rw [getElem?_exports, getElem?_of_lineExport hlines hexport]
  rfl

/-- The entries with a private name come from the unindented headers of classes with such a name, and from the
headers of functions and methods whose name starts with two low lines but does not end so; and each of these
has its entry. So no private name is shown exactly if the file has no such line. -/
theorem private_names_shown_exactly (content : Text) :
    (∀ n e name, (outline content).exports[n]? = some e → Names e name → IsPrivateName name →
      ∃ i, FoundAt content n i ∧ ShowsPrivate (Text.lines content) i name) ∧
    (∀ i name, ShowsPrivate (Text.lines content) i name →
      IsPrivateName name ∧
        ∃ n e, FoundAt content n i ∧ (outline content).exports[n]? = some e ∧ Names e name) ∧
    ((∀ e ∈ (outline content).exports, ∀ name, Names e name → ['_'] <+: name → IsDunder name) ↔
      ∀ i name, ¬ShowsPrivate (Text.lines content) i name) := by
  refine ⟨fun n e name he hname hprivate => showsPrivate_of_entry he hname hprivate,
    fun i name h => exists_entry_of_showsPrivate h, fun hclean i name h => ?_, fun hnone e he name hname hlow => ?_⟩
  · obtain ⟨hprivate, n, e, -, he, hname⟩ := exists_entry_of_showsPrivate h
    exact hprivate.2 (hclean e (List.mem_of_getElem? he) name hname hprivate.1)
  · by_cases hdunder : IsDunder name
    · exact hdunder
    · obtain ⟨n, hn⟩ := List.getElem?_of_mem he
      obtain ⟨i, -, h⟩ := showsPrivate_of_entry hn hname ⟨hlow, hdunder⟩
      exact absurd h (hnone i name)

/-- A private class with a private method, whose name starts with two low lines. -/
def shopHidden : Text := Text.unlines (["class _Shop:", "    def __check(self): ..."].map String.toList)

theorem names_check : Names "  def __check(self)".toList "__check".toList := by
  refine ⟨"  def ".toList, by decide, '(' :: "self)".toList, by decide, by decide, ?_⟩
  rintro c ⟨⟩
  decide

theorem shopHidden_private_line :
    (outline shopHidden).exports[1]? = some "  def __check(self)".toList ∧
      Names "  def __check(self)".toList "__check".toList ∧ IsPrivateName "__check".toList ∧
      ∃ i, FoundAt shopHidden 1 i ∧ ShowsPrivate (Text.lines shopHidden) i "__check".toList := by
  have hentry : (outline shopHidden).exports[1]? = some "  def __check(self)".toList := by decide +kernel
  have hprivate : IsPrivateName "__check".toList := by decide
  exact ⟨hentry, names_check, hprivate,
    (private_names_shown_exactly shopHidden).1 1 _ _ hentry names_check hprivate⟩

/-- The class is shown, and so is the method. -/
theorem shopHidden_shows_private :
    (outline shopHidden).exports = ["class _Shop".toList, "  def __check(self)".toList] ∧
      Names "class _Shop".toList "_Shop".toList ∧ IsPrivateName "_Shop".toList ∧
      Names "  def __check(self)".toList "__check".toList ∧ IsPrivateName "__check".toList := by
  refine ⟨by decide +kernel, ?_, by decide, names_check, by decide⟩
  exact ⟨"class ".toList, by decide, [], by decide, by decide, nofun⟩

end CodeIndex.Python
