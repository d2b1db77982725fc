import CodeIndex.Proofs.Page.Parts
import Mathlib.Data.List.Nodup

/-!
# Pages under one name

The name of a part tells the base and the number of the part. Two pages share a name exactly if their
bases are the same and both are whole or both are in parts, or if one is whole and its base reads like
the name of a part of the other.
-/

namespace CodeIndex.Page

variable {base base' content content' : Text} {f : Text × Text} {i j k : Nat}

/-- The name of the file that a part is written to. -/
def partName (base : Text) (k : Nat) : Text :=
  base ++ "_part".toList ++ partNumber k ++ ".md".toList

theorem mem_pageFiles_whole (h : content.length ≤ maxChars) :
    f ∈ pageFiles base content ↔ f = (base ++ ".md".toList, content) := by
  rw [pageFiles, if_pos h, List.mem_singleton]

theorem mem_pageFiles_parts (h : maxChars < content.length) :
    f ∈ pageFiles base content ↔
      ∃ (i : Nat) (hi : i < (parts content).length),
        f = (partName base (i + 1), partHeading base (i + 1) ++ (parts content)[i]) := by
  rw [pageFiles, if_neg (by omega), List.mem_mapIdx]
  constructor
  · rintro ⟨i, hi, rfl⟩
    exact ⟨i, hi, rfl⟩
  · rintro ⟨i, hi, rfl⟩
    exact ⟨i, hi, rfl⟩

theorem parts_length_pos (content : Text) : 0 < (parts content).length := by
  refine List.length_pos_iff.2 ?_
  simpa [parts, Text.lines] using cutLines_ne_nil (Text.pieces_ne_nil '\n' content)

theorem partNumber_injective (h : partNumber i = partNumber j) : i = j := by
  have hvalue := congrArg (fun digits => Nat.ofDigitChars 10 digits 0) h
  simpa [partNumber] using hvalue

/-- The digits at the end of a part's stem are its number. -/
theorem takeWhile_isDigit_part (base : Text) (k : Nat) :
    (base ++ "_part".toList ++ partNumber k).reverse.takeWhile Char.isDigit =
      (partNumber k).reverse := by
  have hdigits : ∀ c ∈ (partNumber k).reverse, c.isDigit = true := fun c hc =>
    isDigit_toDigits (List.mem_reverse.1 hc)
  rw [List.reverse_append, List.takeWhile_append_of_pos hdigits, List.reverse_append]
  simp

theorem part_injective
    (h : base ++ "_part".toList ++ partNumber i = base' ++ "_part".toList ++ partNumber j) :
    base = base' ∧ i = j := by
  have hnumber : partNumber i = partNumber j := by
    have hdigits := congrArg (fun t => t.reverse.takeWhile Char.isDigit) h
    simp only [takeWhile_isDigit_part] at hdigits
    exact List.reverse_injective hdigits
  rw [hnumber] at h
  exact ⟨List.append_cancel_right (List.append_cancel_right h), partNumber_injective hnumber⟩

theorem partName_injective (h : partName base i = partName base' j) : base = base' ∧ i = j :=
  part_injective (List.append_cancel_right h)

/-- A whole page is named like a part of another exactly if its base is. -/
theorem whole_eq_partName :
    base ++ ".md".toList = partName base' k ↔ base = base' ++ "_part".toList ++ partNumber k :=
  ⟨fun h => List.append_cancel_right h, fun h => by rw [h, partName]⟩

/-- The file names that two pages have in common. -/
def ShareName (base content base' content' : Text) : Prop :=
  ∃ f ∈ pageFiles base content, ∃ g ∈ pageFiles base' content', f.1 = g.1

/-- How two pages can come to have a name in common. -/
inductive NameClash (base content base' content' : Text) : Prop where
  | bases (same : base = base')
      (kind : content.length ≤ maxChars ↔ content'.length ≤ maxChars)
  | first (whole : content.length ≤ maxChars) (cut : maxChars < content'.length)
      (k : Nat) (pos : 0 < k) (le : k ≤ (parts content').length)
      (named : base = base' ++ "_part".toList ++ partNumber k)
  | second (cut : maxChars < content.length) (whole : content'.length ≤ maxChars)
      (k : Nat) (pos : 0 < k) (le : k ≤ (parts content).length)
      (named : base' = base ++ "_part".toList ++ partNumber k)

theorem ShareName.symm (h : ShareName base content base' content') :
    ShareName base' content' base content := by
  obtain ⟨f, hf, g, hg, hname⟩ := h
  exact ⟨g, hg, f, hf, hname.symm⟩

theorem shareName_whole_part (h : content.length ≤ maxChars) (h' : maxChars < content'.length) :
    ShareName base content base' content' ↔
      ∃ k, 0 < k ∧ k ≤ (parts content').length ∧
        base = base' ++ "_part".toList ++ partNumber k := by
  constructor
  · rintro ⟨f, hf, g, hg, hname⟩
    obtain rfl := (mem_pageFiles_whole h).1 hf
    obtain ⟨i, hi, rfl⟩ := (mem_pageFiles_parts h').1 hg
    exact ⟨i + 1, by omega, hi, whole_eq_partName.1 hname⟩
  · rintro ⟨k, hpos, hle, hbase⟩
    obtain ⟨i, rfl⟩ := Nat.exists_eq_succ_of_ne_zero (by omega : k ≠ 0)
    exact ⟨_, (mem_pageFiles_whole h).2 rfl, _, (mem_pageFiles_parts h').2 ⟨i, hle, rfl⟩,
      whole_eq_partName.2 hbase⟩

theorem shareName_parts (h : maxChars < content.length) (h' : maxChars < content'.length) :
    ShareName base content base' content' ↔ base = base' := by
  constructor
  · rintro ⟨f, hf, g, hg, hname⟩
    obtain ⟨i, hi, rfl⟩ := (mem_pageFiles_parts h).1 hf
    obtain ⟨j, hj, rfl⟩ := (mem_pageFiles_parts h').1 hg
    exact (partName_injective hname).1
  · rintro rfl
    exact ⟨_, (mem_pageFiles_parts h).2 ⟨0, parts_length_pos content, rfl⟩, _,
      (mem_pageFiles_parts h').2 ⟨0, parts_length_pos content', rfl⟩, rfl⟩

theorem shareName_iff_nameClash :
    ShareName base content base' content' ↔ NameClash base content base' content' := by
  by_cases h : content.length ≤ maxChars
  · by_cases h' : content'.length ≤ maxChars
    · constructor
      · rintro ⟨f, hf, g, hg, hname⟩
        obtain rfl := (mem_pageFiles_whole h).1 hf
        obtain rfl := (mem_pageFiles_whole h').1 hg
        exact .bases (List.append_cancel_right hname) ⟨fun _ => h', fun _ => h⟩
      · rintro (⟨rfl, -⟩ | ⟨-, hcut, -⟩ | ⟨hcut, -⟩)
        · exact ⟨_, (mem_pageFiles_whole h).2 rfl, _, (mem_pageFiles_whole h').2 rfl, rfl⟩
        · omega
        · omega
    · rw [shareName_whole_part h (by omega)]
      constructor
      · rintro ⟨k, hpos, hle, hbase⟩
        exact .first h (by omega) k hpos hle hbase
      · rintro (⟨-, hkind⟩ | ⟨-, -, k, hpos, hle, hbase⟩ | ⟨hcut, -⟩)
        · exact absurd (hkind.1 h) h'
        · exact ⟨k, hpos, hle, hbase⟩
        · omega
  · by_cases h' : content'.length ≤ maxChars
    · have hswap : ShareName base content base' content' ↔ ShareName base' content' base content :=
        ⟨ShareName.symm, ShareName.symm⟩
      rw [hswap, shareName_whole_part h' (by omega)]
      constructor
      · rintro ⟨k, hpos, hle, hbase⟩
        exact .second (by omega) h' k hpos hle hbase
      · rintro (⟨-, hkind⟩ | ⟨hwhole, -⟩ | ⟨-, -, k, hpos, hle, hbase⟩)
        · exact absurd (hkind.2 h') h
        · omega
        · exact ⟨k, hpos, hle, hbase⟩
    · rw [shareName_parts (by omega) (by omega)]
      constructor
      · intro hbase
        exact .bases hbase ⟨fun hle => absurd hle h, fun hle => absurd hle h'⟩
      · rintro (⟨hbase, -⟩ | ⟨hwhole, -⟩ | ⟨-, hwhole, -⟩)
        · exact hbase
        · omega
        · omega

/-- The names of a page in parts count the parts. -/
theorem names_parts (base : Text) (h : maxChars < content.length) :
    (pageFiles base content).map Prod.fst =
      (List.range (parts content).length).map fun i => partName base (i + 1) := by
  rw [pageFiles, if_neg (by omega)]
  exact List.ext_getElem (by simp) (by simp [partName])

/-- No two files of one page have the same name. -/
theorem nodup_names (base content : Text) : ((pageFiles base content).map Prod.fst).Nodup := by
  by_cases h : content.length ≤ maxChars
  · rw [pageFiles, if_pos h]
    exact List.nodup_singleton _
  · rw [names_parts base (by omega)]
    refine List.nodup_range.map fun i j hij => ?_
    have := (partName_injective hij).2
    omega

end CodeIndex.Page
