import CodeIndex.Proofs.Json.RoundTrip
import CodeIndex.Proofs.Text.LineEnds

/-!
# Line ends in JSON

What is written breaks lines with line feeds only, so reading it as a text file changes nothing.
-/

namespace CodeIndex.Json

theorem return_notMem_natText (n : Nat) : '\r' ∉ Decimal.natText n := fun hmem =>
  absurd (Decimal.isDigit_of_mem_natText hmem) (by decide)

theorem return_notMem_layoutText {ds : Text} (layout : Decimal.Layout) (hds : '\r' ∉ ds)
    (first : Int) : '\r' ∉ Decimal.layoutText layout ds first := by
  have htake : ∀ k, '\r' ∉ ds.take k := fun k hmem => hds (List.mem_of_mem_take hmem)
  have hdrop : ∀ k, '\r' ∉ ds.drop k := fun k hmem => hds (List.mem_of_mem_drop hmem)
  have hexp : '\r' ∉ Decimal.exponentText layout first := by
    simp only [Decimal.exponentText]
    split <;> simp [List.mem_replicate, return_notMem_natText]
  unfold Decimal.layoutText
  split
  · split
    · dsimp only
      split <;> simp [List.mem_replicate, htake, hdrop]
    · simp [List.mem_replicate, hds]
  · have htail : '\r' ∉ ds.tail := fun hmem => hds (List.mem_of_mem_tail hmem)
    split <;> simp [htake, htail, hexp]

theorem return_notMem_realText (x : Double) : '\r' ∉ realText x := by
  cases x with
  | nan => decide
  | infinite negative => cases negative <;> decide
  | finite negative m e =>
    have htext : ∀ d, '\r' ∉ Decimal.text numberLayout d := by
      intro d
      unfold Decimal.text
      split
      · decide
      · refine return_notMem_layoutText _ (fun hmem => return_notMem_natText d.digits ?_) _
        rw [Decimal.withoutTrailingZeros_spec (Decimal.natText d.digits)]
        exact List.mem_append_left _ hmem
    simp only [realText, List.mem_append, not_or]
    exact ⟨by cases negative <;> decide, htext _⟩

theorem return_notMem_unitText {n : Nat} (hn : n < 0x10000) : '\r' ∉ unitText n := by
  have hdigit : ∀ k < 16, k.digitChar ≠ '\r' := by decide
  rw [unitText, hexDigits_four hn]
  simp only [List.mem_cons, List.not_mem_nil, or_false, not_or]
  exact ⟨by decide, by decide, (hdigit _ (by omega)).symm, (hdigit _ (by omega)).symm,
    (hdigit _ (by omega)).symm, (hdigit _ (by omega)).symm⟩

theorem return_notMem_letterText (l : Letter) : '\r' ∉ letterText l := by
  cases l with
  | half i => exact return_notMem_unitText (by omega)
  | char c =>
    have hlt := toNat_lt c
    simp only [letterText, charText]
    split_ifs with _ _ _ hcr _ _ _ hplain hsmall
    · decide
    · decide
    · decide
    · decide
    · decide
    · decide
    · decide
    · simpa using Ne.symm hcr
    · exact return_notMem_unitText hsmall
    · rw [List.mem_append, not_or]
      exact ⟨return_notMem_unitText (by omega), return_notMem_unitText (by omega)⟩

theorem return_notMem_stringText (ls : Letters) : '\r' ∉ stringText ls := by
  simp [stringText, return_notMem_letterText]

theorem return_notMem_lineStart (style : Style) (level : Nat) : '\r' ∉ style.lineStart level := by
  unfold Style.lineStart
  split <;> simp [List.mem_replicate]

theorem return_notMem_separator (style : Style) (level : Nat) : '\r' ∉ style.separator level := by
  unfold Style.separator
  split
  · decide
  · simp [return_notMem_lineStart]

/-- What is written has no carriage returns. -/
theorem Readable.return_notMem {v : Json} (h : Readable v) (style : Style) :
    ∀ level, '\r' ∉ render style level v := by
  have hline := return_notMem_lineStart style
  have hitems : ∀ (vs : List Json) (level : Nat), (∀ w ∈ vs, '\r' ∉ render style level w) →
      '\r' ∉ renderItems style level vs := by
    intro vs level hvs
    induction vs with
    | nil => simp [renderItems]
    | cons w vs ih =>
      simp only [renderItems, List.mem_append, not_or]
      exact ⟨⟨return_notMem_separator style level, hvs w List.mem_cons_self⟩,
        ih fun u hu => hvs u (List.mem_cons_of_mem _ hu)⟩
  have hfields : ∀ (fs : Fields) (level : Nat), (∀ f ∈ fs, '\r' ∉ render style level f.2) →
      '\r' ∉ renderFields style level fs := by
    intro fs level hfs
    induction fs with
    | nil => simp [renderFields]
    | cons f fs ih =>
      simp only [renderFields, List.mem_append, not_or]
      exact ⟨⟨⟨⟨return_notMem_separator style level, return_notMem_stringText f.1⟩, by decide⟩,
        hfs f List.mem_cons_self⟩, ih fun g hg => hfs g (List.mem_cons_of_mem _ hg)⟩
  induction h with
  | null => simp [render]
  | bool b => cases b <;> simp [render]
  | int k =>
    intro _
    simp only [render, intText, List.mem_append, not_or]
    exact ⟨by split <;> decide, return_notMem_natText _⟩
  | real x => exact fun _ => return_notMem_realText x
  | str ls => exact fun _ => return_notMem_stringText ls
  | arr vs hvs ih =>
    intro level
    cases vs with
    | nil => simp [render]
    | cons w vs =>
      have hrest := hitems vs (level + 1) fun u hu => ih u (List.mem_cons_of_mem _ hu) _
      simp [render, hline, ih w List.mem_cons_self, hrest]
  | obj fs hnodup hjoined hfs ih =>
    intro level
    cases fs with
    | nil => simp [render]
    | cons f fs =>
      have hrest := hfields fs (level + 1) fun g hg => ih g (List.mem_cons_of_mem _ hg) _
      simp [render, hline, return_notMem_stringText, ih f List.mem_cons_self, hrest]

end CodeIndex.Json
