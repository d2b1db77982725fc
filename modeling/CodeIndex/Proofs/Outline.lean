import CodeIndex.Proofs.Python.Entries
import CodeIndex.Proofs.TypeScript.Declarations

/-!
# Exports shown one by one

The text of an outline shows each export as a bullet below its first line. If no export has a line end, the
bullets are the lines up to the first that is empty, and the exports can be read back. A Python outline is
always of this kind. One of a TypeScript file is exactly if no function that the file exports spreads over
lines.
-/

namespace CodeIndex.Outline

variable {o : Outline} {e line : Text} {es ls rest : List Text}

def bullet (e : Text) : Text := '-' :: ' ' :: '`' :: (e ++ ['`'])

/-- The entry that a line shows as a bullet. -/
def entryOf? : Text → Option Text
  | '-' :: ' ' :: '`' :: t => if t.getLast? = some '`' then some t.dropLast else none
  | _ => none

/-- The entries of the bullets that lines begin with. -/
def leadingEntries : List Text → List Text
  | [] => []
  | line :: ls =>
    match entryOf? line with
    | some e => e :: leadingEntries ls
    | none => []

/-- Reads the exports off the text of an outline. -/
def readExports (t : Text) : List Text := leadingEntries ((Text.lines t).drop 1)

/-- Below the first line stands one bullet for each export, and behind them an empty line or nothing. The
exports are read back from the bullets. -/
structure OneBulletEach (o : Outline) : Prop where
  lines : ∃ heading rest, Text.lines o.markdown = heading :: (o.exports.map bullet ++ rest) ∧
    ∀ line ∈ rest.head?, line = []
  readBack : readExports o.markdown = o.exports

theorem entryOf?_bullet (e : Text) : entryOf? (bullet e) = some e := by
  rw [bullet, entryOf?, if_pos (by simp), List.dropLast_concat]

theorem subset_of_entryOf? (h : entryOf? line = some e) : e ⊆ line := by
  unfold entryOf? at h
  split at h
  · next t =>
    split at h
    · obtain rfl := Option.some.inj h
      intro c hc
      have hmem : c ∈ t := (List.dropLast_sublist t).subset hc
      simp [hmem]
    · cases h
  · cases h

theorem leadingEntries_map_bullet (es : List Text) (hrest : ∀ line ∈ rest.head?, line = []) :
    leadingEntries (es.map bullet ++ rest) = es := by
  induction es with
  | nil =>
    cases rest with
    | nil => rfl
    | cons line rest =>
      obtain rfl := hrest line rfl
      rfl
  | cons e es ih => rw [List.map_cons, List.cons_append, leadingEntries, entryOf?_bullet, ih]

/-- No entry that is read off lines has a line end. -/
theorem notMem_of_mem_leadingEntries (hls : ∀ line ∈ ls, '\n' ∉ line) (h : e ∈ leadingEntries ls) :
    '\n' ∉ e := by
  induction ls with
  | nil => cases h
  | cons line ls ih =>
    obtain ⟨hline, hls⟩ := List.forall_mem_cons.1 hls
    rw [leadingEntries] at h
    split at h
    · next e' hentry =>
      rcases List.mem_cons.1 h with rfl | h
      · exact fun hmem => hline (subset_of_entryOf? hentry hmem)
      · exact ih hls h
    · cases h

theorem exportLines_eq (o : Outline) :
    ∃ heading, '\n' ∉ heading ∧ o.exportLines = heading :: o.exports.map bullet := by
  unfold exportLines
  cases o.exports with
  | nil => exact ⟨_, by decide, rfl⟩
  | cons e es => exact ⟨_, by decide, rfl⟩

/-- The imports are set off from the exports by an empty line. -/
theorem head_lines_importLines (o : Outline) :
    ∀ line ∈ (o.importLines.flatMap Text.lines).head?, line = [] := by
  unfold importLines
  split
  · nofun
  · rintro line ⟨⟩
    rfl

theorem lines_markdown (h : ∀ e ∈ o.exports, '\n' ∉ e) :
    ∃ heading, Text.lines o.markdown =
      heading :: (o.exports.map bullet ++ o.importLines.flatMap Text.lines) := by
  obtain ⟨heading, hheading, hexports⟩ := exportLines_eq o
  have hbullets : ∀ line ∈ heading :: o.exports.map bullet, '\n' ∉ line := by
    refine List.forall_mem_cons.2 ⟨hheading, fun line hline => ?_⟩
    obtain ⟨e, he, rfl⟩ := List.mem_map.1 hline
    simpa [bullet] using h e he
  have hlines := Text.lines_unlines_of_notMem (List.cons_ne_nil _ _) hbullets
  rw [Text.lines_unlines (List.cons_ne_nil _ _)] at hlines
  refine ⟨heading, ?_⟩
  rw [markdown, Text.lines_unlines (by simp [hexports]), List.flatMap_append, hexports, hlines,
    List.cons_append]

theorem oneBulletEach_iff (o : Outline) : o.OneBulletEach ↔ ∀ e ∈ o.exports, '\n' ∉ e := by
  constructor
  · intro h e he
    rw [← h.readBack] at he
    refine notMem_of_mem_leadingEntries (fun line hline => ?_) he
    exact Text.notMem_of_mem_pieces (List.mem_of_mem_drop hline)
  · intro h
    obtain ⟨heading, hlines⟩ := lines_markdown h
    refine ⟨⟨heading, _, hlines, head_lines_importLines o⟩, ?_⟩
    rw [readExports, hlines, List.drop_one, List.tail_cons]
    exact leadingEntries_map_bullet o.exports (head_lines_importLines o)

/-- The outline of a Python file shows one bullet for each export, from which the exports are read back. That
of a TypeScript file does exactly if no exported function has a line end in its type parameters or in a
parameter that is shown. -/
theorem exports_one_bullet_each (content : Text) :
    (Python.outline content).OneBulletEach ∧
      ((TypeScript.outline content).OneBulletEach ↔
        ∀ d ∈ TypeScript.declarations content, ¬d.Spreads) := by
  constructor
  · refine (oneBulletEach_iff _).2 fun e he => ?_
    obtain ⟨d, hd, rfl⟩ := List.mem_map.1 he
    exact (Python.isEntry_of_mem_definitions hd).1
  · rw [oneBulletEach_iff]
    constructor
    · intro h d hd hspreads
      refine h d.render (List.mem_map_of_mem hd) ?_
      exact (TypeScript.mem_render_iff (TypeScript.isRead_of_mem_declarations hd)).2 hspreads
    · intro h e he
      obtain ⟨d, hd, rfl⟩ := List.mem_map.1 he
      intro hmem
      exact h d hd ((TypeScript.mem_render_iff (TypeScript.isRead_of_mem_declarations hd)).1 hmem)

/-- Declarations that go over several lines, of which only names and types on one line are shown. -/
def longDeclarations : Text :=
  Text.unlines (["export async function load<T>(", "  key: string,", "  [a,\tb]: T", "): T", "\x7b\x7d",
    "export class Box<", "  T", "> \x7b\x7d"].map String.toList)

theorem longDeclarations_one_bullet_each :
    (∀ d ∈ TypeScript.declarations longDeclarations, ¬d.Spreads) ∧
      (TypeScript.outline longDeclarations).OneBulletEach := by
  have hall : TypeScript.declarations longDeclarations =
      [.function true "load".toList (some "T".toList) ["key".toList, "[a".toList, "b".toList]
        (some "T".toList), .classDecl "Box".toList none] := by
    decide +kernel
  have hnone : ∀ d ∈ TypeScript.declarations longDeclarations, ¬d.Spreads := by
    rw [hall]
    simp [TypeScript.Declaration.Spreads]
  exact ⟨hnone, (exports_one_bullet_each longDeclarations).2.2 hnone⟩

/-- A function that takes its argument apart over several lines. -/
def spreadPattern : Text := "export function f(\x7b\n  a\n\x7d) \x7b\x7d".toList

/-- The pattern is shown as it stands, so that the bullet of the function has three lines. -/
theorem spreadPattern_not_one_bullet_each :
    (TypeScript.outline spreadPattern).exports = ["function f(\x7b\n  a\n\x7d)".toList] ∧
      ¬(TypeScript.outline spreadPattern).OneBulletEach := by
  have hexports : (TypeScript.outline spreadPattern).exports = ["function f(\x7b\n  a\n\x7d)".toList] := by
    decide +kernel
  refine ⟨hexports, fun h => ?_⟩
  have hline := (oneBulletEach_iff _).1 h "function f(\x7b\n  a\n\x7d)".toList (by rw [hexports]; simp)
  exact hline (by decide)

end CodeIndex.Outline
