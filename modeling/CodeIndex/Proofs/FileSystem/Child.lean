import CodeIndex.Proofs.FileSystem.Links
import CodeIndex.Proofs.FileSystem.Query

/-!
# Names in a directory that a path leads to

Whatever links a path goes through, one more name at its end is looked up in the directory that the
path leads to. So every entry below that directory which is reached through directories alone has one
location, found by appending names.
-/

namespace CodeIndex

/-- The path that goes on from another through the given names. -/
def Path.under (p : Path) (way : List Text) : Path := ⟨p.anchor, p.names ++ way⟩

namespace Path

variable (p : Path) (n : Text) (way : List Text)

theorem under_nil : p.under [] = p := by simp [under]

theorem child_under : (p.child n).under way = p.under (n :: way) := by simp [under, child]

variable {p way} in
theorem under_injective {way' : List Text} (h : p.under way = p.under way') : way = way' := by
  simpa [under] using h

end Path

namespace FileSystem

variable {fs : FileSystem} {loc cur : Location} {n : Text} {names : List Text} {p : Path}
  {data : DirData} {aim : Aim} {follow follow' : Location → List Text → Except Errno Location}
  {result : Except Errno Location}

/-- A walk that comes to a directory goes on from there with one more name. -/
theorem walkNames_concat (haim : aim ≠ .file)
    (hlast : ∀ follow, walkNames fs follow aim loc [n] = result)
    (hfollow : ∀ cur names, follow cur names = .ok loc → follow' cur (names ++ [n]) = result)
    (hdir : fs.get? loc = some (.directory data))
    (hok : walkNames fs follow .entry cur names = .ok loc) :
    walkNames fs follow' aim cur (names ++ [n]) = result := by
  induction names generalizing cur with
  | nil =>
    cases hok
    exact hlast follow'
  | cons name rest ih =>
    have hlooked : LookedUp fs .entry cur name rest → LookedUp fs aim cur name (rest ++ [n]) :=
      fun hl => { hl with slash := fun hcond => haim hcond.1 }
    rw [List.cons_append]
    cases walkStep_of_ok hok with
    | stay dot walk =>
      rcases dot with hnil | ⟨hsearch, hdot⟩
      · simpa [walkNames, hnil] using ih walk
      · simpa [walkNames, hsearch, hdot] using ih walk
    | up search dots walk => simpa [walkNames, search, dots] using ih walk
    | enter lookedUp data here walk =>
      rw [walkNames_lookedUp (hlooked lookedUp), here]
      exact ih walk
    | last _ _ eq noDirectory =>
      rw [← eq, isDirectoryAt, hdir] at noDirectory
      cases noDirectory
    | link _ _ itself => cases itself
    | follow lookedUp target here onward walk =>
      rw [walkNames_lookedUp (hlooked lookedUp), here]
      simpa using hfollow _ _ walk

theorem locate_child_of_last (haim : aim ≠ .file)
    (hlast : ∀ follow, walkNames fs follow aim loc [n] = result)
    (hloc : fs.locate .entry p = .ok loc) (hdir : fs.get? loc = some (.directory data)) :
    fs.locate aim (p.child n) =
      if maxPathSize < Utf8.size (p.child n).toText then .error .nameTooLong else result := by
  have hlinks : ∀ (links : Nat) (cur : Location) (names : List Text),
      walkLinks fs .entry links cur names = .ok loc →
      walkLinks fs aim links cur (names ++ [n]) = result := by
    intro links
    induction links with
    | zero =>
      exact fun cur names => walkNames_concat haim hlast (fun _ _ herr => by cases herr) hdir
    | succ links ih => exact fun cur names => walkNames_concat haim hlast ih hdir
  obtain ⟨-, hstart, hwalk⟩ := locate_ok_iff_walk.1 hloc
  have hsame : fs.startOf (p.child n) = fs.startOf p := rfl
  unfold locate
  rw [hsame, if_pos hstart]
  exact ite_congr rfl (fun _ => rfl) fun _ => hlinks _ _ _ hwalk

/-- A name in a directory that cannot be searched, or a name that is too long, is refused. -/
theorem walkNames_barred (hn : Path.IsName n)
    (hbar : ¬(fs.isSearchableAt loc = true ∧ Utf8.size n ≤ maxNameSize))
    (follow : Location → List Text → Except Errno Location) :
    walkNames fs follow aim loc [n] =
      .error (if fs.isSearchableAt loc then .nameTooLong else .denied) := by
  cases hsearch : fs.isSearchableAt loc with
  | false => simp [walkNames, hn.ne_nil, hsearch]
  | true =>
    have hlong : maxNameSize < Utf8.size n := by simpa [hsearch] using hbar
    simp [walkNames, hn.ne_nil, hn.ne_dot, hn.ne_dots, hsearch, hlong]

/-- A name that is not followed as a link is where it stands. -/
theorem walkNames_last (hn : Path.IsName n)
    (hopen : fs.isSearchableAt loc = true ∧ Utf8.size n ≤ maxNameSize)
    (hlink : aim = .name ∨ ∀ target, fs.get? (loc ++ [n]) ≠ some (.link target))
    (follow : Location → List Text → Except Errno Location) :
    walkNames fs follow aim loc [n] = .ok (loc ++ [n]) := by
  have hlooked : LookedUp fs aim loc n [] :=
    ⟨hopen.1, hn.ne_nil, hn.ne_dot, hn.ne_dots, nofun, hopen.2⟩
  rw [walkNames_lookedUp hlooked]
  cases hget : fs.get? (loc ++ [n]) with
  | none => rfl
  | some e =>
    cases e with
    | link target =>
      rcases hlink with haim | hlink
      · simp [haim]
      · exact absurd hget (hlink target)
    | _ => rfl

/-- A name in a directory that is not followed as a link is located in the directory, or it cannot be
looked up at all. -/
theorem eq_of_locate_child (hn : Path.IsName n) (hloc : fs.locate .entry p = .ok loc)
    (hdir : fs.get? loc = some (.directory data)) {loc' : Location}
    (hok : fs.locate aim (p.child n) = .ok loc') (haim : aim ≠ .file)
    (hlink : aim = .name ∨ ∀ target, fs.get? (loc ++ [n]) ≠ some (.link target)) :
    loc' = loc ++ [n] := by
  by_cases hopen : fs.isSearchableAt loc = true ∧ Utf8.size n ≤ maxNameSize
  · rw [locate_child_of_last haim (walkNames_last hn hopen hlink) hloc hdir] at hok
    split at hok
    · cases hok
    · exact (Except.ok.inj hok).symm
  · rw [locate_child_of_last haim (walkNames_barred hn hopen) hloc hdir] at hok
    split at hok <;> cases hok

/-- What can be looked up through all links has a name that can. -/
theorem locate_name_of_entry (hn : Path.IsName n) (hloc : fs.locate .entry p = .ok loc)
    (hdir : fs.get? loc = some (.directory data)) {loc' : Location}
    (hok : fs.locate .entry (p.child n) = .ok loc') :
    fs.locate .name (p.child n) = .ok (loc ++ [n]) := by
  have hpath : ¬maxPathSize < Utf8.size (p.child n).toText :=
    Nat.not_lt.2 (locate_ok_iff_walk.1 hok).1
  have hname : Aim.name ≠ .file := nofun
  have hentry : Aim.entry ≠ .file := nofun
  by_cases hopen : fs.isSearchableAt loc = true ∧ Utf8.size n ≤ maxNameSize
  · rw [locate_child_of_last hname (walkNames_last hn hopen (.inl rfl)) hloc hdir, if_neg hpath]
  · rw [locate_child_of_last hentry (walkNames_barred hn hopen) hloc hdir, if_neg hpath] at hok
    cases hok

end FileSystem

end CodeIndex
