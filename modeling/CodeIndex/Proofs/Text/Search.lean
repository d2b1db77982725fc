import CodeIndex.Proofs.Text.Reader

/-!
# Searches through texts

What a search finds has been read somewhere in the text. A search at the starts of lines goes on behind each
finding, which may reach into the lines below. Where it never does, each line is searched on its own.

A search through a whole text goes from place to place. It comes to a given place, or a finding that starts
before that place ends behind it.
-/

namespace CodeIndex.Reader

variable {α : Type} {key line behind t : Text} {ls : List Text} {body : Reader α} {a : α}

/-- Reads a key and then what stands behind it. -/
def keyed (key : Text) (body : Reader α) : Reader α := do
  literal key
  body

theorem keyed_append (body : Reader α) (key t : Text) : (keyed key body).parse (key ++ t) = body.parse t :=
  bind_of_eq_some (a := ()) (literal_eq_some_iff.2 rfl)

theorem hit_eq (hkey : key ≠ []) (body : Reader α) (c : Char) (cs : Text) :
    hit key body c cs = (keyed key body).parse (c :: cs) := by
  cases key with
  | nil => exact absurd rfl hkey
  | cons k ks =>
    have hliteral : (literal (k :: ks)).parse (c :: cs) = if k = c then (literal ks).parse cs else none := by
      by_cases hk : k = c
      · simp [literal, hk]
      · simp [literal, hk]
    change (if k = c then ((literal ks).parse cs).bind _ else none) =
      ((literal (k :: ks)).parse (c :: cs)).bind _
    rw [hliteral]
    split
    · rfl
    · rfl

/-- What a search finds has been read behind the key. -/
theorem Yields.of_mem_findAll {P : α → Prop} (hbody : body.Yields P) (h : a ∈ findAll key body t) : P a := by
  fun_induction findAll key body t with
  | case1 => cases h
  | case2 c cs b rest hfound ih =>
    rcases List.mem_cons.1 h with rfl | h
    · cases key with
      | nil => cases hfound
      | cons k ks =>
        rw [hit_eq (List.cons_ne_nil k ks)] at hfound
        exact yields_skip (fun _ => hbody) _ _ _ hfound
    · exact ih h
  | case3 c cs hmiss ih => exact ih h

/-- What a reader finds at the start of a line, whatever lines follow: nothing, or something that ends on the
line. -/
def FoundOn (r : Reader α) (line : Text) : Option α → Prop
  | none => ∀ behind, (∀ c ∈ behind.head?, c = '\n') → r.parse (line ++ behind) = none
  | some a => ∃ left, '\n' ∉ left ∧
      ∀ behind, (∀ c ∈ behind.head?, c = '\n') → r.parse (line ++ behind) = some (a, left ++ behind)

theorem FoundOn.unique {r : Reader α} {found found' : Option α} (h : FoundOn r line found)
    (h' : FoundOn r line found') : found = found' := by
  cases found with
  | none =>
    cases found' with
    | none => rfl
    | some a' =>
      obtain ⟨left, -, hread⟩ := h'
      cases (h [] nofun).symm.trans (hread [] nofun)
  | some a =>
    obtain ⟨left, -, hread⟩ := h
    cases found' with
    | none => cases (h' [] nofun).symm.trans (hread [] nofun)
    | some a' =>
      obtain ⟨left', -, hread'⟩ := h'
      have hboth := (hread [] nofun).symm.trans (hread' [] nofun)
      rw [(Prod.mk.inj (Option.some.inj hboth)).1]

/-- What is found behind the end of a line. -/
def findBelow (key : Text) (body : Reader α) : Text → List α
  | [] => []
  | _ :: below => findAllAtLineStart key body true below

theorem findAllAtLineStart_cons_of_none (atStart : Bool) {c : Char} {cs : Text}
    (h : (if atStart then hit key body c cs else none) = none) :
    findAllAtLineStart key body atStart (c :: cs) = findAllAtLineStart key body (c == '\n') cs := by
  rw [findAllAtLineStart]
  split
  · next hfound => cases h.symm.trans hfound
  · rfl

theorem findAllAtLineStart_cons_of_some {c : Char} {cs rest : Text}
    (h : hit key body c cs = some (a, rest)) :
    findAllAtLineStart key body true (c :: cs) = a :: findAllAtLineStart key body false rest := by
  rw [findAllAtLineStart]
  split
  · next hfound =>
    cases h.symm.trans hfound
    rfl
  · next hmiss => cases h.symm.trans hmiss

/-- Nothing is found that would begin with a character which is nowhere. -/
theorem findAllAtLineStart_of_notMem {k : Char} (h : k ∉ t) (ks : Text) (body : Reader α)
    (atStart : Bool) : findAllAtLineStart (k :: ks) body atStart t = [] := by
  induction t generalizing atStart with
  | nil => rw [findAllAtLineStart]
  | cons c t ih =>
    have hc : k ≠ c := fun hc => h (by simp [hc])
    have hmiss : (if atStart then hit (k :: ks) body c t else none) = none := by
      rw [hit, if_neg hc, ite_self]
    rw [findAllAtLineStart_cons_of_none atStart hmiss]
    exact ih (fun hk => h (List.mem_cons_of_mem _ hk)) _

/-- Inside a line nothing is found. -/
theorem findAllAtLineStart_inside (hline : '\n' ∉ line) (hbehind : ∀ c ∈ behind.head?, c = '\n') :
    findAllAtLineStart key body false (line ++ behind) = findBelow key body behind := by
  induction line with
  | nil =>
    cases behind with
    | nil => rw [List.nil_append, findAllAtLineStart, findBelow]
    | cons c below =>
      obtain rfl := hbehind c rfl
      exact findAllAtLineStart_cons_of_none false rfl
  | cons c line ih =>
    have hc : (c == '\n') = false := by
      simpa using fun heq : c = '\n' => hline (heq ▸ List.mem_cons_self)
    rw [List.cons_append, findAllAtLineStart_cons_of_none false rfl, hc]
    exact ih fun hmem => hline (List.mem_cons_of_mem _ hmem)

theorem keyed_nil (hkey : key ≠ []) (body : Reader α) : (keyed key body).parse [] = none := by
  refine Option.eq_none_iff_forall_ne_some.2 ?_
  rintro ⟨a, rest⟩ hread
  rw [keyed, bind_eq_some_iff] at hread
  obtain ⟨_, mid, hliteral, -⟩ := hread
  exact hkey (List.append_eq_nil_iff.1 (literal_eq_some_iff.1 hliteral).symm).1

/-- One line of a search: what it has comes first, and the search goes on with the line below. -/
theorem findAllAtLineStart_line {found : Option α} (hkey : key ≠ []) (hline : '\n' ∉ line)
    (hbehind : ∀ c ∈ behind.head?, c = '\n') (hfound : FoundOn (keyed key body) line found) :
    findAllAtLineStart key body true (line ++ behind) = found.toList ++ findBelow key body behind := by
  cases found with
  | none =>
    have hmiss := hfound behind hbehind
    cases line with
    | nil =>
      cases behind with
      | nil => rw [List.nil_append, findAllAtLineStart, findBelow, Option.toList_none, List.nil_append]
      | cons c below =>
        obtain rfl := hbehind c rfl
        rw [List.nil_append, ← hit_eq hkey] at hmiss
        exact findAllAtLineStart_cons_of_none true hmiss
    | cons c line =>
      have hc : (c == '\n') = false := by
        simpa using fun heq : c = '\n' => hline (heq ▸ List.mem_cons_self)
      rw [List.cons_append, ← hit_eq hkey] at hmiss
      rw [List.cons_append, findAllAtLineStart_cons_of_none true hmiss, hc]
      exact findAllAtLineStart_inside (fun hmem => hline (List.mem_cons_of_mem _ hmem)) hbehind
  | some a =>
    obtain ⟨left, hleft, hread⟩ := hfound
    have hhit := hread behind hbehind
    cases ht : line ++ behind with
    | nil =>
      rw [ht, keyed_nil hkey] at hhit
      cases hhit
    | cons c cs =>
      rw [ht, ← hit_eq hkey] at hhit
      rw [findAllAtLineStart_cons_of_some hhit, findAllAtLineStart_inside hleft hbehind]
      rfl

theorem mem_findAllAtLineStart_unlines (hkey : key ≠ []) (hne : ls ≠ []) (hlines : ∀ l ∈ ls, '\n' ∉ l)
    (h : ∀ l ∈ ls, ∃ found, FoundOn (keyed key body) l found) :
    a ∈ findAllAtLineStart key body true (Text.unlines ls) ↔
      ∃ l ∈ ls, FoundOn (keyed key body) l (some a) := by
  induction ls with
  | nil => exact absurd rfl hne
  | cons line ls ih =>
    obtain ⟨hline, hbelow⟩ := List.forall_mem_cons.1 hlines
    obtain ⟨⟨found, hfound⟩, hfounds⟩ := List.forall_mem_cons.1 h
    have hmem : a ∈ found.toList ↔ FoundOn (keyed key body) line (some a) := by
      rw [Option.mem_toList]
      exact ⟨fun heq => heq ▸ hfound, hfound.unique⟩
    cases ls with
    | nil =>
      have hstep : findAllAtLineStart key body true (line ++ []) = found.toList ++ findBelow key body [] :=
        findAllAtLineStart_line hkey hline nofun hfound
      rw [List.append_nil, findBelow, List.append_nil] at hstep
      rw [Text.unlines, List.intercalate_singleton, hstep, hmem]
      simp
    | cons next ls =>
      rw [Text.unlines_cons_cons, findAllAtLineStart_line hkey hline (by simp) hfound, List.mem_append,
        hmem, findBelow, ih (List.cons_ne_nil next ls) hbelow hfounds]
      simp

/-- Where nothing that is found goes past the end of its line, a search finds what the lines have. -/
theorem mem_findAllAtLineStart_iff (hkey : key ≠ [])
    (h : ∀ line ∈ Text.lines t, ∃ found, FoundOn (keyed key body) line found) :
    a ∈ findAllAtLineStart key body true t ↔
      ∃ line ∈ Text.lines t, FoundOn (keyed key body) line (some a) := by
  have hlines : ∀ line ∈ Text.lines t, '\n' ∉ line := fun line => Text.notMem_of_mem_pieces
  have hmem := mem_findAllAtLineStart_unlines (a := a) hkey (Text.pieces_ne_nil '\n' t) hlines h
  rwa [← Text.lines, Text.unlines_lines] at hmem

/-! ### Places of a search -/

/-- A search through a text comes to what is left of it at some place: it goes on behind what it finds, and to
the next character where it finds nothing. -/
inductive Comes (key : Text) (body : Reader α) : Text → Text → Prop where
  | here {t : Text} : Comes key body t t
  | skip {c : Char} {cs u : Text} (miss : (keyed key body).parse (c :: cs) = none)
      (later : Comes key body cs u) : Comes key body (c :: cs) u
  | pass {c : Char} {cs rest u : Text} {a : α} (found : (keyed key body).parse (c :: cs) = some (a, rest))
      (later : Comes key body rest u) : Comes key body (c :: cs) u

/-- A search through a text finds a value and leaves a rest. -/
def Finds (key : Text) (body : Reader α) (t : Text) (a : α) (rest : Text) : Prop :=
  ∃ u, Comes key body t u ∧ (keyed key body).parse u = some (a, rest)

theorem finds_nil (hkey : key ≠ []) (rest : Text) : ¬Finds key body [] a rest := by
  rintro ⟨u, hcomes, hread⟩
  cases hcomes
  rw [keyed_nil hkey] at hread
  cases hread

theorem finds_cons_of_none {c : Char} {cs rest : Text} (h : (keyed key body).parse (c :: cs) = none) :
    Finds key body (c :: cs) a rest ↔ Finds key body cs a rest := by
  constructor
  · rintro ⟨u, hcomes, hread⟩
    cases hcomes with
    | here => cases h.symm.trans hread
    | skip _ later => exact ⟨u, later, hread⟩
    | pass found _ => cases h.symm.trans found
  · rintro ⟨u, hcomes, hread⟩
    exact ⟨u, .skip h hcomes, hread⟩

theorem finds_cons_of_some {c : Char} {cs mid rest : Text} {b : α}
    (h : (keyed key body).parse (c :: cs) = some (b, mid)) :
    Finds key body (c :: cs) a rest ↔ a = b ∧ rest = mid ∨ Finds key body mid a rest := by
  constructor
  · rintro ⟨u, hcomes, hread⟩
    cases hcomes with
    | here =>
      cases h.symm.trans hread
      exact .inl ⟨rfl, rfl⟩
    | skip miss _ => cases h.symm.trans miss
    | pass found later =>
      cases h.symm.trans found
      exact .inr ⟨u, later, hread⟩
  · rintro (⟨rfl, rfl⟩ | ⟨u, hcomes, hread⟩)
    · exact ⟨c :: cs, .here, h⟩
    · exact ⟨u, .pass h hcomes, hread⟩

theorem mem_findAll_iff (hkey : key ≠ []) : a ∈ findAll key body t ↔ ∃ rest, Finds key body t a rest := by
  fun_induction findAll key body t with
  | case1 => simp [finds_nil hkey]
  | case2 c cs b mid hfound ih =>
    rw [hit_eq hkey] at hfound
    simp only [List.mem_cons, ih, finds_cons_of_some hfound]
    constructor
    · rintro (rfl | ⟨rest, hrest⟩)
      · exact ⟨mid, .inl ⟨rfl, rfl⟩⟩
      · exact ⟨rest, .inr hrest⟩
    · rintro ⟨rest, ⟨rfl, -⟩ | hrest⟩
      · exact .inl rfl
      · exact .inr ⟨rest, hrest⟩
  | case3 c cs hmiss ih =>
    rw [hit_eq hkey] at hmiss
    simp only [ih, finds_cons_of_none hmiss]

theorem Comes.length_le {u : Text} (h : Comes key body t u) : u.length ≤ t.length := by
  induction h with
  | here => exact Nat.le_refl _
  | skip miss later ih => exact Nat.le_succ_of_le ih
  | pass found later ih => exact Nat.le_trans ih (Reader.keeps _ found)

theorem Comes.suffix {u : Text}
    (hsuffix : ∀ t a rest, (keyed key body).parse t = some (a, rest) → rest <:+ t) (h : Comes key body t u) :
    u <:+ t := by
  induction h with
  | here => exact List.suffix_refl _
  | skip miss later ih => exact ih.trans (List.suffix_cons _ _)
  | pass found later ih => exact ih.trans (hsuffix _ _ _ found)

/-- Of two places of a search, it comes from one to the other. -/
theorem Comes.total {u v : Text} (hu : Comes key body t u) (hv : Comes key body t v) :
    Comes key body u v ∨ Comes key body v u := by
  induction hu with
  | here => exact .inl hv
  | skip miss later ih =>
    cases hv with
    | here => exact .inr (.skip miss later)
    | skip _ later' => exact ih later'
    | pass found _ => cases miss.symm.trans found
  | pass found later ih =>
    cases hv with
    | here => exact .inr (.pass found later)
    | skip miss _ => cases found.symm.trans miss
    | pass found' later' =>
      cases found.symm.trans found'
      exact ih later'

/-- A search goes on behind what it finds. -/
theorem Comes.eq_or_length_le {u rest : Text} (h : Comes key body t u)
    (hread : (keyed key body).parse t = some (a, rest)) : u = t ∨ u.length ≤ rest.length := by
  cases h with
  | here => exact .inl rfl
  | skip miss later => cases hread.symm.trans miss
  | pass found later =>
    cases hread.symm.trans found
    exact .inr later.length_le

/-- Findings do not overlap: of two, one ends before the other begins. -/
theorem Finds.length_le {b : α} {u rest rest' : Text} (h : Finds key body t a rest)
    (hcomes : Comes key body t u) (hread : (keyed key body).parse u = some (b, rest'))
    (hlt : rest'.length < rest.length) : u.length ≤ rest.length := by
  obtain ⟨v, hv, hread'⟩ := h
  rcases hv.total hcomes with hlater | hlater
  · rcases hlater.eq_or_length_le hread' with rfl | hle
    · cases hread.symm.trans hread'
      omega
    · exact hle
  · rcases hlater.eq_or_length_le hread with rfl | hle
    · cases hread.symm.trans hread'
      omega
    · have hkeeps := Reader.keeps _ hread'
      omega

/-- A search comes to a place, or a finding that starts before it ends behind it. -/
theorem comes_or_passes {w : Text} (hkey : key ≠ [])
    (hsuffix : ∀ t a rest, (keyed key body).parse t = some (a, rest) → rest <:+ t) (h : w <:+ t) :
    Comes key body t w ∨ ∃ u a rest, Comes key body t u ∧ (keyed key body).parse u = some (a, rest) ∧
      w <:+ u ∧ w.length < u.length ∧ rest.length < w.length := by
  fun_induction findAll key body t with
  | case1 =>
    obtain rfl := List.suffix_nil.1 h
    exact .inl .here
  | case2 c cs b mid hfound ih =>
    rw [hit_eq hkey] at hfound
    rcases List.suffix_cons_iff.1 h with rfl | hw
    · exact .inl .here
    · have hlt : w.length < (c :: cs).length := Nat.lt_succ_of_le hw.length_le
      by_cases hmid : mid.length < w.length
      · exact .inr ⟨c :: cs, b, mid, .here, hfound, h, hlt, hmid⟩
      · have hinside : w <:+ mid :=
          List.suffix_of_suffix_length_le h (hsuffix _ _ _ hfound) (Nat.le_of_not_lt hmid)
        rcases ih hinside with hcomes | ⟨u, a, rest, hcomes, hpasses⟩
        · exact .inl (.pass hfound hcomes)
        · exact .inr ⟨u, a, rest, .pass hfound hcomes, hpasses⟩
  | case3 c cs hmiss ih =>
    rw [hit_eq hkey] at hmiss
    rcases List.suffix_cons_iff.1 h with rfl | hw
    · exact .inl .here
    · rcases ih hw with hcomes | ⟨u, a, rest, hcomes, hpasses⟩
      · exact .inl (.skip hmiss hcomes)
      · exact .inr ⟨u, a, rest, .skip hmiss hcomes, hpasses⟩

end CodeIndex.Reader
