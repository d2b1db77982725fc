import CodeIndex.Indexing
import CodeIndex.Proofs.Lists
import CodeIndex.Proofs.Path

/-!
# The names of pages

All files of a page have names that end in `.md`, and such a file is never one that can be outlined.
-/

namespace CodeIndex

namespace Page

variable {base content : Text} {f : Text × Text}

theorem fillStep_lines_ne_nil (limit : Nat) (s : List (List Text) × Filling) (line : Text) :
    (fillStep limit s line).2.lines ≠ [] := by
  simp only [fillStep]
  split <;> simp

theorem cutLines_ne_nil {limit : Nat} {ls : List Text} (h : ls ≠ []) : cutLines limit ls ≠ [] := by
  obtain ⟨start, line, rfl⟩ := (List.eq_nil_or_concat ls).resolve_left h
  unfold cutLines
  simp only [List.concat_eq_append, List.foldl_append, List.foldl_cons, List.foldl_nil]
  split
  · next hempty => exact absurd (List.isEmpty_iff.1 hempty) (fillStep_lines_ne_nil _ _ _)
  · simp

theorem pageFiles_ne_nil (base content : Text) : pageFiles base content ≠ [] := by
  unfold pageFiles
  split
  · simp
  · have hparts : parts content ≠ [] := by
      simpa [parts, Text.lines] using cutLines_ne_nil (Text.pieces_ne_nil '\n' content)
    simpa using hparts

/-- The stem of a page's file: the base, or the base with the number of a part. -/
inductive IsStem (base : Text) : Text → Prop where
  | whole : IsStem base base
  | part (k : Nat) : IsStem base (base ++ "_part".toList ++ partNumber k)

theorem exists_stem (hf : f ∈ pageFiles base content) :
    ∃ stem, IsStem base stem ∧ f.1 = stem ++ ".md".toList := by
  unfold pageFiles at hf
  split at hf
  · obtain rfl := List.mem_singleton.1 hf
    exact ⟨base, .whole, rfl⟩
  · obtain ⟨i, hi, rfl⟩ := List.mem_mapIdx.1 hf
    exact ⟨_, .part (i + 1), rfl⟩

theorem IsStem.notMem {stem : Text} {c : Char} (h : IsStem base stem) (hbase : c ∉ base)
    (hpart : c ∉ "_part".toList) (hdigit : c.isDigit = false) : c ∉ stem := by
  cases h with
  | whole => exact hbase
  | part k =>
    simp only [List.mem_append, not_or]
    refine ⟨⟨hbase, hpart⟩, fun hc => ?_⟩
    rw [isDigit_toDigits hc] at hdigit
    cases hdigit

/-- A base for pages: not empty, and without a slash and a null character. -/
structure IsBase (base : Text) : Prop where
  ne_nil : base ≠ []
  slash : '/' ∉ base
  null : '\x00' ∉ base

theorem isName_append_md {stem : Text} (hslash : '/' ∉ stem) (hnull : '\x00' ∉ stem) :
    Path.IsName (stem ++ ".md".toList) := by
  have hlen : 3 ≤ (stem ++ ".md".toList).length := by simp
  refine ⟨⟨fun h => ?_, fun h => ?_, ?_⟩, fun h => ?_, ?_⟩
  · exact absurd hlen (by rw [h]; decide)
  · exact absurd hlen (by rw [h]; decide)
  · rw [List.mem_append, not_or]
    exact ⟨hslash, by decide⟩
  · exact absurd hlen (by rw [h]; decide)
  · rw [List.mem_append, not_or]
    exact ⟨hnull, by decide⟩

theorem isName_of_mem_pageFiles (hbase : IsBase base) (hf : f ∈ pageFiles base content) :
    Path.IsName f.1 := by
  obtain ⟨stem, hstem, hname⟩ := exists_stem hf
  rw [hname]
  exact isName_append_md (hstem.notMem hbase.slash (by decide) (by decide))
    (hstem.notMem hbase.null (by decide) (by decide))

end Page

namespace Path

theorem ofText_isName {n : Text} (hn : IsName n) : ofText n = ⟨.relative, [n]⟩ := by
  obtain ⟨c, cs, rfl⟩ := List.exists_cons_of_ne_nil hn.ne_nil
  have hc : c ≠ '/' := fun hc => hn.slash (by simp [hc])
  have hanchor : anchorOf (c :: cs) = .relative := by
    unfold anchorOf
    split <;> simp_all
  have hnames : namesOf (c :: cs) = [c :: cs] := by
    rw [namesOf, Text.pieces_of_notMem hn.slash]
    simpa using hn.ne_dot
  rw [ofText, hanchor, hnames]

theorem join_isName (p : Path) {n : Text} (hn : IsName n) : p.join (ofText n) = p.child n := by
  rw [ofText_isName hn]
  rfl

/-- A name that ends with `.md` has that ending, unless there is nothing in front of it. -/
theorem suffix_append_md {p : Path} {stem : Text} (hp : p.name = stem ++ ".md".toList) :
    p.suffix = ".md".toList ∨ p.suffix = [] := by
  rw [suffix, hp, cutSuffix]
  cases hstem : stem.reverse with
  | nil => simp [hstem]
  | cons c cs => simp [hstem]

end Path

namespace Registry

/-- A registry that takes nothing that a run writes for a file to be outlined. -/
structure SparesPages (registry : Registry) : Prop where
  pages : ∀ (p : Path) (stem : Text), p.name = stem ++ ".md".toList → registry.languageOf? p = none
  metadata : ∀ p : Path, p.name = Metadata.fileName → registry.languageOf? p = none

theorem languageOf?_eq_none {registry : Registry} {p : Path}
    (h : ∀ language ∈ registry, Text.lower p.suffix ∉ language.extensions) :
    registry.languageOf? p = none :=
  List.find?_eq_none.2 fun language hmem => by simpa [Language.accepts] using h language hmem

theorem standard_sparesPages : standard.SparesPages where
  pages p stem hp := by
    have hextensions : ∀ language ∈ standard,
        Text.lower ".md".toList ∉ language.extensions ∧ Text.lower [] ∉ language.extensions := by
      simp only [standard, List.forall_mem_cons]
      exact ⟨by decide, by decide, by simp⟩
    refine languageOf?_eq_none fun language hmem => ?_
    rcases Path.suffix_append_md hp with hs | hs
    · exact hs ▸ (hextensions language hmem).1
    · exact hs ▸ (hextensions language hmem).2
  metadata p hp := by
    have hsuffix : p.suffix = ".json".toList := by
      rw [Path.suffix, hp]
      decide
    have hextensions : ∀ language ∈ standard, Text.lower ".json".toList ∉ language.extensions := by
      simp only [standard, List.forall_mem_cons]
      exact ⟨by decide, by decide, by simp⟩
    exact languageOf?_eq_none fun language hmem => hsuffix ▸ hextensions language hmem

end Registry

namespace Indexing

variable {key : Text}

theorem pageBase_of_ne_nil (hkey : key ≠ []) :
    pageBase key = key.map fun c => if c = '/' then '_' else c := by
  simp [pageBase, hkey]

theorem isBase_pageBase (hnull : '\x00' ∉ key) : Page.IsBase (pageBase key) := by
  by_cases hkey : key = []
  · subst hkey
    exact ⟨by decide, by decide, by decide⟩
  · rw [pageBase_of_ne_nil hkey]
    refine ⟨by simpa using hkey, fun hmem => ?_, fun hmem => ?_⟩
    · obtain ⟨c, -, hc⟩ := List.mem_map.1 hmem
      split at hc
      · exact absurd hc (by decide)
      · exact absurd hc ‹_›
    · obtain ⟨c, hmem, hc⟩ := List.mem_map.1 hmem
      split at hc
      · exact absurd hc (by decide)
      · exact hnull (hc ▸ hmem)

end Indexing

end CodeIndex
