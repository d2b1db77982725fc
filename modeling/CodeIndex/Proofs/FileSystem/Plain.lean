import CodeIndex.FileSystem.Change
import CodeIndex.Proofs.Path
import Mathlib.Data.List.Nodup

/-!
# File systems without links

`Plain` says what every file system promises, that entries have names and stand in directories, and
that there is no link in it. Paths are then walked by `descend`, which looks at one entry for every
name and follows nothing.
-/

namespace CodeIndex

/-! Directories that examples are made of. -/

def Entry.openDir : Entry := .directory Host.standard.newDir

def Entry.shutDir : Entry := .directory { Host.standard.newDir with listable := false }

namespace FileSystem

variable {fs : FileSystem} {loc cur par : Location} {n : Text} {names : List Text} {e : Entry}

@[simp]
theorem get?_nil (fs : FileSystem) : fs.get? [] = some (.directory fs.host.root) := rfl

theorem get?_eq_some_iff (hloc : loc ≠ []) : fs.get? loc = some e ↔ (loc, e) ∈ fs.entries := by
  simp only [get?, Location.same_eq, if_neg hloc, Option.map_eq_some_iff]
  constructor
  · rintro ⟨⟨loc', e'⟩, hfind, rfl⟩
    have hloc' : loc' = loc := by simpa using List.find?_some hfind
    exact hloc' ▸ List.mem_of_find?_eq_some hfind
  · intro hmem
    obtain ⟨x, hx⟩ : ∃ x, fs.entries.find? (fun x => decide (x.1 = loc)) = some x :=
      Option.isSome_iff_exists.1 (List.find?_isSome.2 ⟨_, hmem, by simp⟩)
    have hxloc : x.1 = loc := by simpa using List.find?_some hx
    have hxe : x = (loc, e) :=
      List.inj_on_of_nodup_map fs.nodup (List.mem_of_find?_eq_some hx) hmem hxloc
    exact ⟨x, hx, by rw [hxe]⟩

theorem isDirectoryAt_iff : fs.isDirectoryAt loc = true ↔ ∃ data, fs.get? loc = some (.directory data) := by
  unfold isDirectoryAt
  cases h : fs.get? loc with
  | none => simp
  | some e => cases e <;> simp [Entry.isDirectory]

theorem isDirectoryAt_nil (fs : FileSystem) : fs.isDirectoryAt [] = true := rfl

theorem isSearchableAt_of_get? {data : DirData} (h : fs.get? loc = some (.directory data)) :
    fs.isSearchableAt loc = data.searchable := by
  rw [isSearchableAt, h]
  rfl

theorem childName?_eq_some {key : Location} : childName? loc key = some n ↔ key = loc ++ [n] := by
  unfold childName?
  constructor
  · intro h
    split at h
    · next hpre =>
      obtain ⟨rest, rfl⟩ := List.isPrefixOf_iff_prefix.1 hpre
      rw [List.drop_left] at h
      split at h
      · next hrest => simp_all
      · cases h
    · cases h
  · rintro rfl
    rw [if_pos (List.isPrefixOf_iff_prefix.2 (List.prefix_append _ _)), List.drop_left]

theorem mem_childNames : n ∈ fs.childNames loc ↔ ∃ e, fs.get? (loc ++ [n]) = some e := by
  simp only [childNames, TextOrder.mem_sort, List.mem_filterMap, childName?_eq_some,
    get?_eq_some_iff (List.append_ne_nil_of_right_ne_nil loc (List.cons_ne_nil n []))]
  constructor
  · rintro ⟨⟨key, e⟩, hmem, rfl⟩
    exact ⟨e, hmem⟩
  · rintro ⟨e, hmem⟩
    exact ⟨_, hmem, rfl⟩

theorem length_le_depth (h : fs.get? loc = some e) : loc.length ≤ fs.depth := by
  by_cases hloc : loc = []
  · simp [hloc]
  rw [get?_eq_some_iff hloc] at h
  have hfold : ∀ (xs : List (Location × Entry)) (k : Nat),
      k ≤ xs.foldl (fun n x => max n x.1.length) k ∧
        ∀ x ∈ xs, x.1.length ≤ xs.foldl (fun n x => max n x.1.length) k := by
    intro xs
    induction xs with
    | nil => simp
    | cons y ys ih =>
      intro k
      obtain ⟨hk, hys⟩ := ih (max k y.1.length)
      rw [List.foldl_cons]
      refine ⟨by omega, fun x hx => ?_⟩
      rcases List.mem_cons.1 hx with rfl | hx
      · omega
      · exact hys x hx
  exact (hfold fs.entries 0).2 _ h

/-- What a file system promises of its entries, and no links among them. -/
structure Plain (fs : FileSystem) : Prop where
  names : ∀ loc e, fs.get? loc = some e → ∀ n ∈ loc, Path.IsName n
  above : ∀ loc n e, fs.get? (loc ++ [n]) = some e → fs.isDirectoryAt loc = true
  links : ∀ loc target, fs.get? loc ≠ some (.link target)

/-- Whether a file system is plain shows in its entries one by one. -/
theorem plain_iff : fs.Plain ↔ ∀ x ∈ fs.entries, x.1 ≠ [] →
    (∀ n ∈ x.1, Path.IsName n) ∧ fs.isDirectoryAt x.1.dropLast = true ∧
      x.2.isLink = false := by
  constructor
  · rintro ⟨hnames, habove, hlinks⟩ ⟨loc, e⟩ hmem hloc
    have hget := (get?_eq_some_iff hloc).2 hmem
    refine ⟨hnames loc e hget, ?_, ?_⟩
    · obtain ⟨par, n, rfl⟩ := (List.eq_nil_or_concat loc).resolve_left hloc
      simpa using habove par n e (by simpa using hget)
    · cases e with
      | link target => exact absurd hget (hlinks loc target)
      | _ => rfl
  · intro h
    have hentry : ∀ loc e, loc ≠ [] → fs.get? loc = some e → _ := fun loc e hloc hget =>
      h (loc, e) ((get?_eq_some_iff hloc).1 hget) hloc
    refine ⟨fun loc e hget => ?_, fun loc n e hget => ?_, fun loc target hget => ?_⟩
    · by_cases hloc : loc = []
      · simp [hloc]
      · exact (hentry loc e hloc hget).1
    · simpa using (hentry (loc ++ [n]) e (by simp) hget).2.1
    · by_cases hloc : loc = []
      · simp [hloc] at hget
      · exact absurd (hentry loc _ hloc hget).2.2 (by simp [Entry.isLink])

instance (fs : FileSystem) : Decidable fs.Plain := decidable_of_iff _ plain_iff.symm

theorem Plain.dropLast (h : fs.Plain) (hloc : fs.isDirectoryAt loc = true) :
    fs.isDirectoryAt loc.dropLast = true := by
  rcases List.eq_nil_or_concat loc with rfl | ⟨par, n, rfl⟩
  · rfl
  · obtain ⟨data, hget⟩ := isDirectoryAt_iff.1 hloc
    simpa using h.above par n _ (by simpa using hget)

/-- Walks names from a directory in a file system without links. -/
def descend (fs : FileSystem) : Location → List Text → Except Errno Location
  | cur, [] => .ok cur
  | cur, name :: rest =>
    if !fs.isSearchableAt cur then .error .denied
    else if name = ['.', '.'] then descend fs cur.dropLast rest
    else if maxNameSize < Utf8.size name then .error .nameTooLong
    else
      match fs.get? (cur ++ [name]) with
      | some (.directory _) => descend fs (cur ++ [name]) rest
      | some _ => if rest.isEmpty then .ok (cur ++ [name]) else .error .notDirectory
      | none => if rest.isEmpty then .ok (cur ++ [name]) else .error .notFound

theorem walkNames_eq_descend (h : fs.Plain) (hn : ∀ n ∈ names, Path.IsPiece n)
    (follow : Location → List Text → Except Errno Location) (aim : Aim) (cur : Location) :
    walkNames fs follow aim cur names = fs.descend cur names := by
  induction names generalizing cur with
  | nil => rfl
  | cons name rest ih =>
    obtain ⟨hnil, hdot, -⟩ := hn name (by simp)
    have hrest : rest ≠ [[]] := by
      rintro rfl
      exact (hn [] (by simp)).ne_nil rfl
    have hih := ih fun m hm => hn m (by simp [hm])
    rw [walkNames, descend]
    simp only [hnil, hdot, hrest, if_false, and_false]
    split
    · rfl
    · split
      · exact hih _
      · split
        · rfl
        · cases hget : fs.get? (cur ++ [name]) with
          | none => rfl
          | some e =>
            cases e with
            | directory data => exact hih _
            | link target => exact absurd hget (h.links _ _)
            | file data => rfl
            | special mtime size => rfl

theorem walkLinks_eq_descend (h : fs.Plain) (hn : ∀ n ∈ names, Path.IsPiece n) (aim : Aim)
    (links : Nat) (cur : Location) : walkLinks fs aim links cur names = fs.descend cur names := by
  cases links <;> exact walkNames_eq_descend h hn _ _ _

theorem locate_eq (h : fs.Plain) {p : Path} (hp : p.IsFull) (aim : Aim) :
    fs.locate aim p =
      if maxPathSize < Utf8.size p.toText then .error .nameTooLong else fs.descend [] p.names := by
  have hstart : fs.startOf p = [] := by
    unfold startOf
    split
    · next ha => exact absurd ha hp.anchor
    · rfl
  rw [locate, hstart, walkLinks_eq_descend h hp.pieces, if_pos (isDirectoryAt_nil fs)]

/-- One more name at the end: what was reached before must be a directory. -/
theorem descend_concat (h : fs.Plain) (hn : n ≠ ['.', '.']) (hcur : fs.isDirectoryAt cur = true) :
    fs.descend cur (names ++ [n]) =
      fs.descend cur names >>= fun loc =>
        match fs.get? loc with
        | some (.directory data) =>
          if !data.searchable then .error .denied
          else if maxNameSize < Utf8.size n then .error .nameTooLong
          else .ok (loc ++ [n])
        | some _ => .error .notDirectory
        | none => .error .notFound := by
  induction names generalizing cur with
  | nil =>
    obtain ⟨data, hget⟩ := isDirectoryAt_iff.1 hcur
    simp only [List.nil_append, descend, if_neg hn, bind, Except.bind, hget,
      isSearchableAt_of_get? hget]
    split
    · rfl
    · split
      · rfl
      · cases fs.get? (cur ++ [n]) with
        | none => rfl
        | some e => cases e <;> rfl
  | cons name rest ih =>
    simp only [List.cons_append, descend]
    split
    · rfl
    · split
      · exact ih (h.dropLast hcur)
      · split
        · rfl
        · cases hget : fs.get? (cur ++ [name]) with
          | none => cases rest <;> simp [bind, Except.bind, hget]
          | some e =>
            cases e with
            | directory data => exact ih (isDirectoryAt_iff.2 ⟨data, hget⟩)
            | link target => exact absurd hget (h.links _ _)
            | file data => cases rest <;> simp [bind, Except.bind, hget]
            | special mtime size => cases rest <;> simp [bind, Except.bind, hget]

/-- What is reached is a directory, or one of the names in a directory. -/
theorem descend_ok_cases (h : fs.Plain) (hcur : fs.isDirectoryAt cur = true)
    (hok : fs.descend cur names = .ok loc) :
    fs.isDirectoryAt loc = true ∨
      ∃ par n, loc = par ++ [n] ∧ n ∈ names ∧ n ≠ ['.', '.'] ∧ fs.isDirectoryAt par = true := by
  induction names generalizing cur with
  | nil =>
    simp only [descend, Except.ok.injEq] at hok
    exact .inl (hok ▸ hcur)
  | cons name rest ih =>
    have hlater : ∀ {cur}, fs.isDirectoryAt cur = true → fs.descend cur rest = .ok loc →
        fs.isDirectoryAt loc = true ∨ ∃ par n, loc = par ++ [n] ∧ n ∈ name :: rest ∧
          n ≠ ['.', '.'] ∧ fs.isDirectoryAt par = true := by
      intro cur hdir hrest
      rcases ih hdir hrest with hloc | ⟨par, n, heq, hmem, hn, hpar⟩
      · exact .inl hloc
      · exact .inr ⟨par, n, heq, List.mem_cons_of_mem _ hmem, hn, hpar⟩
    have hhere : ∀ {err : Errno}, name ≠ ['.', '.'] →
        (if rest.isEmpty then .ok (cur ++ [name]) else .error err) = Except.ok loc →
        ∃ par n, loc = par ++ [n] ∧ n ∈ name :: rest ∧ n ≠ ['.', '.'] ∧
          fs.isDirectoryAt par = true := by
      intro err hname hif
      split at hif
      · cases hif
        exact ⟨cur, name, rfl, by simp, hname, hcur⟩
      · cases hif
    rw [descend] at hok
    split at hok
    · cases hok
    split at hok
    · exact hlater (h.dropLast hcur) hok
    · next hname =>
      split at hok
      · cases hok
      · cases hget : fs.get? (cur ++ [name]) with
        | none =>
          rw [hget] at hok
          exact .inr (hhere hname hok)
        | some e =>
          rw [hget] at hok
          cases e with
          | directory data => exact hlater (isDirectoryAt_iff.2 ⟨data, hget⟩) hok
          | link target => exact absurd hget (h.links _ _)
          | file data => exact .inr (hhere hname hok)
          | special mtime size => exact .inr (hhere hname hok)

/-- Without double dots the names themselves are where a path leads. -/
theorem descend_ok_eq (hn : ∀ n ∈ names, n ≠ ['.', '.']) (hok : fs.descend cur names = .ok loc) :
    loc = cur ++ names := by
  induction names generalizing cur with
  | nil =>
    simp only [descend, Except.ok.injEq] at hok
    simp [hok]
  | cons name rest ih =>
    rw [descend, if_neg (hn name (by simp))] at hok
    split at hok
    · cases hok
    have hih : fs.descend (cur ++ [name]) rest = .ok loc → loc = cur ++ name :: rest := by
      intro hrest
      simpa using ih (fun m hm => hn m (by simp [hm])) hrest
    split at hok
    · cases hok
    · split at hok
      · exact hih hok
      · split at hok
        · next hempty =>
          cases hok
          simp [List.isEmpty_iff.1 hempty]
        · cases hok
      · split at hok
        · next hempty =>
          cases hok
          simp [List.isEmpty_iff.1 hempty]
        · cases hok

/-- Two file systems that have the same entries along a path walk it alike. -/
theorem descend_congr {fs' : FileSystem} (hn : ∀ n ∈ names, n ≠ ['.', '.'])
    (h : ∀ above, above <+: names → fs.get? (cur ++ above) = fs'.get? (cur ++ above)) :
    fs.descend cur names = fs'.descend cur names := by
  induction names generalizing cur with
  | nil => rfl
  | cons name rest ih =>
    have hhere := h [name] (by simp)
    have hsearch : fs.isSearchableAt cur = fs'.isSearchableAt cur := by
      simpa [isSearchableAt] using congrArg (Option.all Entry.isSearchable) (h [] (by simp))
    have hih : fs.descend (cur ++ [name]) rest = fs'.descend (cur ++ [name]) rest := by
      refine ih (fun m hm => hn m (by simp [hm])) fun above habove => ?_
      simpa using h (name :: above) (List.cons_prefix_cons.2 ⟨rfl, habove⟩)
    rw [descend, descend, if_neg (hn name (by simp)), if_neg (hn name (by simp)), hsearch, hhere,
      hih]

end FileSystem

end CodeIndex
