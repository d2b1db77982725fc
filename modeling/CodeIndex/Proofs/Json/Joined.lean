import CodeIndex.Proofs.Json.RoundTrip
import CodeIndex.Proofs.Text.Decode

/-!
# Halves that stand together

A string that is given to a program may have the two halves of a character side by side. They are
written just as the character is, so it is the character that is read.
-/

namespace CodeIndex.Json

variable {l : Letter} {ls : Letters} {v : Json} {fields : Fields}

/-- Puts a letter before others. A first half and the second half behind it make one character. -/
def Letter.join : Letter → Letters → Letters
  | .half i, .half j :: rest =>
    if i.val < 1024 ∧ 1024 ≤ j.val then
      .char (Char.ofNat (0x10000 + i.val * 1024 + (j.val - 1024))) :: rest
    else .half i :: .half j :: rest
  | l, rest => l :: rest

/-- Letters with one character for each two halves of one that stand side by side. -/
def Letters.joined (ls : Letters) : Letters := ls.foldr Letter.join []

theorem charText_of_astral {c : Char} (h : 0x10000 ≤ c.toNat) :
    charText c = unitText (0xD800 + (c.toNat - 0x10000) / 1024) ++
      unitText (0xDC00 + (c.toNat - 0x10000) % 1024) := by
  have hne : ∀ d : Char, d.toNat < 0x10000 → c ≠ d := by
    rintro d hd rfl
    omega
  unfold charText
  rw [if_neg (hne '"' (by decide)), if_neg (hne '\\' (by decide)), if_neg (hne '\n' (by decide)),
    if_neg (hne '\r' (by decide)), if_neg (hne '\t' (by decide)), if_neg (by omega),
    if_neg (by omega), if_neg (by simp only [Bool.and_eq_true, decide_eq_true_eq]; omega),
    if_neg (by omega)]

theorem flatMap_letterText_join (l : Letter) (ls : Letters) :
    (l.join ls).flatMap letterText = letterText l ++ ls.flatMap letterText := by
  unfold Letter.join
  split
  · next i j rest =>
    split
    · next hhalves =>
      have hi := i.isLt
      have hj := j.isLt
      have hcode : (Char.ofNat (0x10000 + i.val * 1024 + (j.val - 1024))).toNat =
          0x10000 + i.val * 1024 + (j.val - 1024) := Utf8.toNat_ofNat (by omega)
      have hfirst : 0xD800 + (0x10000 + i.val * 1024 + (j.val - 1024) - 0x10000) / 1024 =
          0xD800 + i.val := by omega
      have hsecond : 0xDC00 + (0x10000 + i.val * 1024 + (j.val - 1024) - 0x10000) % 1024 =
          0xD800 + j.val := by omega
      rw [List.flatMap_cons, List.flatMap_cons, letterText, charText_of_astral (by omega), hcode,
        hfirst, hsecond, List.append_assoc]
      rfl
    · rfl
  · rfl

/-- Letters are written as they are when they have been joined. -/
theorem flatMap_letterText_joined (ls : Letters) :
    ls.joined.flatMap letterText = ls.flatMap letterText := by
  induction ls with
  | nil => rfl
  | cons l ls ih =>
    exact (flatMap_letterText_join l (Letters.joined ls)).trans (congrArg (letterText l ++ ·) ih)

theorem isJoined_char_cons (c : Char) (h : IsJoined ls) : IsJoined (.char c :: ls) := by
  refine List.isChain_cons.2 ⟨fun k _ => ?_, h⟩
  have hc := code_char_apart c
  simp only [StayApart, Letter.code]
  omega

theorem isJoined_join (l : Letter) (h : IsJoined ls) : IsJoined (l.join ls) := by
  match l, ls with
  | .char c, ls => exact isJoined_char_cons c h
  | .half i, [] => exact List.isChain_singleton _
  | .half i, .char c :: rest =>
    refine List.isChain_cons.2 ⟨fun k hk => ?_, h⟩
    have hc := code_char_apart c
    cases hk
    simp only [StayApart, Letter.code]
    omega
  | .half i, .half j :: rest =>
    rw [Letter.join]
    split
    · exact isJoined_char_cons _ (List.isChain_cons.1 h).2
    · next hapart =>
      refine List.isChain_cons.2 ⟨fun k hk => ?_, h⟩
      cases hk
      simp only [StayApart, Letter.code]
      omega

theorem isJoined_joined (ls : Letters) : IsJoined ls.joined := by
  induction ls with
  | nil => exact List.isChain_nil
  | cons l ls ih => exact isJoined_join l ih

theorem join_of_isJoined (h : IsJoined (l :: ls)) : l.join ls = l :: ls := by
  unfold Letter.join
  split
  · next i j rest =>
    have happart := (List.isChain_cons.1 h).1 _ rfl
    have hj := j.isLt
    simp only [StayApart, Letter.code] at happart
    rw [if_neg (by omega)]
  · rfl

theorem Letters.joined_eq_self_iff : ls.joined = ls ↔ IsJoined ls := by
  refine ⟨fun h => h ▸ isJoined_joined ls, fun h => ?_⟩
  induction ls with
  | nil => rfl
  | cons l ls ih =>
    have hrest : Letters.joined ls = ls := ih (List.isChain_cons.1 h).2
    rw [Letters.joined, List.foldr_cons, ← Letters.joined, hrest, join_of_isJoined h]

mutual

/-- A value with its strings joined. Its keys stay as they are. -/
def joined : Json → Json
  | str ls => .str ls.joined
  | arr items => .arr (joinedItems items)
  | obj fields => .obj (joinedFields fields)
  | v => v

def joinedItems : List Json → List Json
  | [] => []
  | v :: rest => v.joined :: joinedItems rest

def joinedFields : List (Letters × Json) → List (Letters × Json)
  | [] => []
  | (key, v) :: rest => (key, v.joined) :: joinedFields rest

end

mutual

/-- The strings in a value that are not keys. -/
def strings : Json → List Letters
  | str ls => [ls]
  | arr items => stringsOfItems items
  | obj fields => stringsOfFields fields
  | _ => []

def stringsOfItems : List Json → List Letters
  | [] => []
  | v :: rest => v.strings ++ stringsOfItems rest

def stringsOfFields : List (Letters × Json) → List Letters
  | [] => []
  | (_, v) :: rest => v.strings ++ stringsOfFields rest

end

theorem joinedItems_eq_map (items : List Json) : joinedItems items = items.map joined := by
  induction items with
  | nil => rfl
  | cons v items ih => rw [joinedItems, ih, List.map_cons]

theorem joinedFields_eq_map (fields : Fields) :
    joinedFields fields = fields.map fun f => (f.1, f.2.joined) := by
  induction fields with
  | nil => rfl
  | cons f fields ih => rw [joinedFields, ih, List.map_cons]

theorem joined_text (t : Text) : (text t).joined = text t :=
  congrArg str (Letters.joined_eq_self_iff.2 (isJoined_letters t))

mutual

theorem render_joined (style : Style) (level : Nat) :
    ∀ v : Json, render style level v.joined = render style level v
  | null | bool _ | int _ | real _ => rfl
  | str ls => by simp only [joined, render, stringText, flatMap_letterText_joined]
  | arr [] | obj [] => rfl
  | arr (v :: rest) => by
    simp only [joined, joinedItems, render, render_joined style (level + 1) v,
      renderItems_joined style (level + 1) rest]
  | obj ((key, v) :: rest) => by
    simp only [joined, joinedFields, render, render_joined style (level + 1) v,
      renderFields_joined style (level + 1) rest]

theorem renderItems_joined (style : Style) (level : Nat) :
    ∀ items : List Json, renderItems style level (joinedItems items) = renderItems style level items
  | [] => rfl
  | v :: rest => by
    simp only [joinedItems, renderItems, render_joined style level v,
      renderItems_joined style level rest]

theorem renderFields_joined (style : Style) (level : Nat) :
    ∀ fields : Fields, renderFields style level (joinedFields fields) =
      renderFields style level fields
  | [] => rfl
  | (key, v) :: rest => by
    simp only [joinedFields, renderFields, render_joined style level v,
      renderFields_joined style level rest]

end

/-- A value is written as it is when its strings have been joined. -/
theorem write_joined (style : Style) (v : Json) : write style v.joined = write style v :=
  render_joined style 0 v

mutual

theorem depth_joined : ∀ v : Json, v.joined.depth = v.depth
  | null | bool _ | int _ | real _ | str _ => rfl
  | arr items => by simp only [joined, depth, depthOfItems_joined items]
  | obj fields => by simp only [joined, depth, depthOfFields_joined fields]

theorem depthOfItems_joined : ∀ items : List Json, depthOfItems (joinedItems items) = depthOfItems items
  | [] => rfl
  | v :: rest => by simp only [joinedItems, depthOfItems, depth_joined v, depthOfItems_joined rest]

theorem depthOfFields_joined :
    ∀ fields : Fields, depthOfFields (joinedFields fields) = depthOfFields fields
  | [] => rfl
  | (_, v) :: rest => by
    simp only [joinedFields, depthOfFields, depth_joined v, depthOfFields_joined rest]

end

mutual

/-- Joining leaves a value alone exactly if no string in it has the halves of a character side by
side. -/
theorem joined_eq_self_iff : ∀ v : Json, v.joined = v ↔ ∀ ls ∈ v.strings, IsJoined ls
  | null | bool _ | int _ | real _ => by simp [joined, strings]
  | str ls => by simp [joined, strings, Letters.joined_eq_self_iff]
  | arr items => by simp [joined, strings, joinedItems_eq_self_iff items]
  | obj fields => by simp [joined, strings, joinedFields_eq_self_iff fields]

theorem joinedItems_eq_self_iff :
    ∀ items : List Json, joinedItems items = items ↔ ∀ ls ∈ stringsOfItems items, IsJoined ls
  | [] => by simp [joinedItems, stringsOfItems]
  | v :: rest => by
    rw [joinedItems, List.cons.injEq, joined_eq_self_iff v, joinedItems_eq_self_iff rest,
      stringsOfItems, List.forall_mem_append]

theorem joinedFields_eq_self_iff :
    ∀ fields : Fields, joinedFields fields = fields ↔ ∀ ls ∈ stringsOfFields fields, IsJoined ls
  | [] => by simp [joinedFields, stringsOfFields]
  | (_, v) :: rest => by
    rw [joinedFields, List.cons.injEq, Prod.mk.injEq, and_iff_right rfl, joined_eq_self_iff v,
      joinedFields_eq_self_iff rest, stringsOfFields, List.forall_mem_append]

end

theorem Readable.joined_eq (h : Readable v) : v.joined = v := by
  induction h with
  | null | bool | int | real => rfl
  | str ls hls => exact congrArg Json.str (Letters.joined_eq_self_iff.2 hls)
  | arr items _ ih =>
    rw [joined, joinedItems_eq_map]
    exact congrArg Json.arr ((List.map_congr_left ih).trans (List.map_id items))
  | obj fields _ _ _ ih =>
    rw [joined, joinedFields_eq_map]
    have hsame : (fields.map fun f => (f.1, f.2.joined)) = fields.map id :=
      List.map_congr_left fun f hf => Prod.ext rfl (ih f hf)
    rw [hsame, List.map_id]

theorem field?_joinedFields (fields : Fields) (k : Letters) :
    field? (joinedFields fields) k = (field? fields k).map joined := by
  rw [joinedFields_eq_map, field?, field?, List.find?_map, Option.map_map, Option.map_map]
  rfl

theorem joinedFields_setField (fields : Fields) (k : Letters) (v : Json) :
    joinedFields (setField fields k v) = setField (joinedFields fields) k v.joined := by
  simp only [joinedFields_eq_map, setField, List.any_map, Function.comp_def]
  split
  · rw [List.map_map, List.map_map]
    refine List.map_congr_left fun f _ => ?_
    simp only [Function.comp_apply]
    split <;> rfl
  · rw [List.map_append]
    rfl

theorem joinedFields_eraseField (fields : Fields) (k : Letters) :
    joinedFields (eraseField fields k) = eraseField (joinedFields fields) k := by
  simp only [joinedFields_eq_map, eraseField, List.filter_map, Function.comp_def]

end CodeIndex.Json
