import CodeIndex.Proofs.Action
import CodeIndex.Proofs.FileSystem.Change

/-!
# Changes to file systems with links

A path is walked through directories and links. A change that keeps both leads every path on to where
it has led, so a file that is written is read under its path, and a directory that was made is there.
-/

namespace CodeIndex.FileSystem

variable {fs fs' fs'' : FileSystem} {loc cur : Location} {name : Text} {names rest : List Text}
  {p : Path} {e : Entry} {bytes : Bytes} {aim aim' : Aim}
  {follow follow' : Location → List Text → Except Errno Location}

/-- A name that is looked up on a walk: it has a meaning of its own, and it is not refused. -/
structure LookedUp (fs : FileSystem) (aim : Aim) (cur : Location) (name : Text)
    (rest : List Text) : Prop where
  search : fs.isSearchableAt cur = true
  ne_nil : name ≠ []
  ne_dot : name ≠ ['.']
  ne_dots : name ≠ ['.', '.']
  slash : ¬(aim = .file ∧ rest = [[]])
  size : Utf8.size name ≤ maxNameSize

/-- The first step of a walk that comes to a location. -/
inductive WalkStep (fs : FileSystem) (follow : Location → List Text → Except Errno Location)
    (aim : Aim) (cur : Location) (name : Text) (rest : List Text) (loc : Location) : Prop where
  | stay (dot : name = [] ∨ fs.isSearchableAt cur = true ∧ name = ['.'])
      (walk : walkNames fs follow aim cur rest = .ok loc)
  | up (search : fs.isSearchableAt cur = true) (dots : name = ['.', '.'])
      (walk : walkNames fs follow aim cur.dropLast rest = .ok loc)
  | enter (lookedUp : LookedUp fs aim cur name rest) (data : DirData)
      (here : fs.get? (cur ++ [name]) = some (.directory data))
      (walk : walkNames fs follow aim (cur ++ [name]) rest = .ok loc)
  | last (lookedUp : LookedUp fs aim cur name rest) (isLast : rest = []) (eq : loc = cur ++ [name])
      (noDirectory : fs.isDirectoryAt (cur ++ [name]) = false)
      (noLink : ∀ target, fs.get? (cur ++ [name]) ≠ some (.link target))
  | link (lookedUp : LookedUp fs aim cur name rest) (isLast : rest = []) (itself : aim = .name)
      (eq : loc = cur ++ [name]) (target : Text) (here : fs.get? loc = some (.link target))
  | follow (lookedUp : LookedUp fs aim cur name rest) (target : Text)
      (here : fs.get? (cur ++ [name]) = some (.link target)) (onward : ¬(rest = [] ∧ aim = .name))
      (walk : follow (targetStart cur target) (targetNames target ++ rest) = .ok loc)

theorem walkNames_lookedUp (h : LookedUp fs aim cur name rest) :
    walkNames fs follow aim cur (name :: rest) = match fs.get? (cur ++ [name]) with
      | none => if rest.isEmpty then .ok (cur ++ [name]) else .error .notFound
      | some (.directory _) => walkNames fs follow aim (cur ++ [name]) rest
      | some (.link target) =>
        if rest.isEmpty && aim = .name then .ok (cur ++ [name])
        else follow (targetStart cur target) (targetNames target ++ rest)
      | some _ => if rest.isEmpty then .ok (cur ++ [name]) else .error .notDirectory := by
  have hsize : ¬maxNameSize < Utf8.size name := Nat.not_lt.2 h.size
  cases hget : fs.get? (cur ++ [name]) with
  | none => simp [walkNames, h.search, h.ne_nil, h.ne_dot, h.ne_dots, h.slash, hsize, hget]
  | some e =>
    cases e <;> simp [walkNames, h.search, h.ne_nil, h.ne_dot, h.ne_dots, h.slash, hsize, hget]

theorem walkStep_of_ok (hok : walkNames fs follow aim cur (name :: rest) = .ok loc) :
    WalkStep fs follow aim cur name rest loc := by
  by_cases hnil : name = []
  · rw [walkNames, if_pos hnil] at hok
    exact .stay (.inl hnil) hok
  cases hsearch : fs.isSearchableAt cur with
  | false => simp [walkNames, hnil, hsearch] at hok
  | true =>
  by_cases hdot : name = ['.']
  · rw [walkNames, if_neg hnil, hsearch, if_neg (by simp), if_pos hdot] at hok
    exact .stay (.inr ⟨hsearch, hdot⟩) hok
  by_cases hdots : name = ['.', '.']
  · rw [walkNames, if_neg hnil, hsearch, if_neg (by simp), if_neg hdot, if_pos hdots] at hok
    exact .up hsearch hdots hok
  have hlooked : LookedUp fs aim cur name rest := by
    rw [walkNames, if_neg hnil, hsearch, if_neg (by simp), if_neg hdot, if_neg hdots] at hok
    split at hok
    · cases hok
    · next hslash =>
      split at hok
      · cases hok
      · next hsize => exact ⟨hsearch, hnil, hdot, hdots, hslash, Nat.not_lt.1 hsize⟩
  have hlast : ∀ {err : Errno},
      (if rest.isEmpty then .ok (cur ++ [name]) else .error err) = Except.ok loc →
      rest = [] ∧ loc = cur ++ [name] := by
    intro err hif
    split at hif
    · next hempty => exact ⟨List.isEmpty_iff.1 hempty, (Except.ok.inj hif).symm⟩
    · cases hif
  rw [walkNames_lookedUp hlooked] at hok
  cases hget : fs.get? (cur ++ [name]) with
  | none =>
    rw [hget] at hok
    obtain ⟨hrest, hloc⟩ := hlast hok
    exact .last hlooked hrest hloc (by rw [isDirectoryAt, hget]; rfl) fun _ => by simp [hget]
  | some e =>
    rw [hget] at hok
    cases e with
    | directory data => exact .enter hlooked data hget hok
    | link target =>
      dsimp only at hok
      split at hok
      · next hend =>
        obtain ⟨hrest, haim⟩ : rest = [] ∧ aim = .name := by simpa using hend
        cases hok
        exact .link hlooked hrest haim rfl target hget
      · next hend => exact .follow hlooked target hget (by simpa using hend) hok
    | _ =>
      obtain ⟨hrest, hloc⟩ := hlast hok
      exact .last hlooked hrest hloc (by rw [isDirectoryAt, hget]; rfl) fun _ => by simp [hget]

theorem WalkStep.ok (h : WalkStep fs follow aim cur name rest loc) :
    walkNames fs follow aim cur (name :: rest) = .ok loc := by
  cases h with
  | stay dot walk =>
    rcases dot with hnil | ⟨hsearch, hdot⟩
    · rw [walkNames, if_pos hnil]
      exact walk
    · rw [walkNames, if_neg (by simp [hdot]), hsearch, if_neg (by simp), if_pos hdot]
      exact walk
  | up search dots walk =>
    rw [walkNames, if_neg (by simp [dots]), search, if_neg (by simp), if_neg (by simp [dots]),
      if_pos dots]
    exact walk
  | enter lookedUp data here walk =>
    rw [walkNames_lookedUp lookedUp, here]
    exact walk
  | last lookedUp isLast eq noDirectory noLink =>
    rw [walkNames_lookedUp lookedUp, isLast, eq]
    cases hget : fs.get? (cur ++ [name]) with
    | none => rfl
    | some e =>
      cases e with
      | directory data => rw [isDirectoryAt, hget] at noDirectory; cases noDirectory
      | link target => exact absurd hget (noLink target)
      | _ => rfl
  | link lookedUp isLast itself eq target here =>
    subst eq
    rw [walkNames_lookedUp lookedUp, here]
    simp [isLast, itself]
  | follow lookedUp target here onward walk =>
    rw [walkNames_lookedUp lookedUp, here]
    dsimp only
    rw [if_neg (by simpa using onward)]
    exact walk

/-- One file system has the directories of another and the same links, and closes no way. -/
structure KeepsWays (fs fs' : FileSystem) : Prop where
  cwd : fs'.cwd = fs.cwd
  dirs : KeepsDirs fs fs'
  links : ∀ loc target, fs'.get? loc = some (.link target) ↔ fs.get? loc = some (.link target)
  search : ∀ loc, fs.isSearchableAt loc = true → fs'.isSearchableAt loc = true

theorem KeepsWays.refl (fs : FileSystem) : KeepsWays fs fs :=
  ⟨rfl, .refl fs, fun _ _ => Iff.rfl, fun _ h => h⟩

theorem KeepsWays.trans (h : KeepsWays fs fs') (h' : KeepsWays fs' fs'') : KeepsWays fs fs'' :=
  ⟨h'.cwd.trans h.cwd, h.dirs.trans h'.dirs, fun loc target =>
    (h'.links loc target).trans (h.links loc target), fun loc hloc =>
    h'.search loc (h.search loc hloc)⟩

theorem keepsWays_put (hloc : loc ≠ []) (hfree : fs.isDirectoryAt loc = false)
    (hold : ∀ target, fs.get? loc ≠ some (.link target)) (hnew : ∀ target, e ≠ .link target)
    (hopen : e.isSearchable = true) : KeepsWays fs (fs.put loc e) := by
  refine ⟨rfl, keepsDirs_put hloc hfree, fun key target => ?_, fun key hkey => ?_⟩
  · rw [get?_put fs hloc]
    split
    · next heq =>
      subst heq
      exact ⟨fun h => absurd (Option.some.inj h) (hnew target), fun h => absurd h (hold target)⟩
    · exact Iff.rfl
  · rw [isSearchableAt, get?_put fs hloc]
    split
    · exact hopen
    · exact hkey

/-- Putting something that is neither a directory nor a link opens no way. -/
theorem keepsWays_of_put (hloc : loc ≠ []) (hold : ∀ target, fs.get? loc ≠ some (.link target))
    (hopen : fs.isSearchableAt loc = true) (hdir : ∀ data, e ≠ .directory data)
    (hlink : ∀ target, e ≠ .link target) : KeepsWays (fs.put loc e) fs := by
  refine ⟨rfl, fun key data hget => ?_, fun key target => ?_, fun key hkey => ?_⟩
  · rw [get?_put fs hloc] at hget
    split at hget
    · exact absurd (Option.some.inj hget) (hdir data)
    · exact hget
  · rw [get?_put fs hloc]
    split
    · next heq =>
      subst heq
      exact ⟨fun h => absurd h (hold target), fun h => absurd (Option.some.inj h) (hlink target)⟩
    · exact Iff.rfl
  · rw [isSearchableAt, get?_put fs hloc] at hkey
    split at hkey
    · next heq => exact heq ▸ hopen
    · exact hkey

theorem CanWrite.keepsWays (h : fs.CanWrite loc) (host : Host) (bytes : Bytes) :
    KeepsWays fs (fs.put loc (written host bytes)) := by
  refine keepsWays_put h.ne_nil h.not_directory (fun target hget => ?_) (fun target => nofun) rfl
  rcases h with ⟨hnone, -⟩ | ⟨data, hfile, -⟩
  · rw [hnone] at hget
    cases hget
  · rw [hfile] at hget
    cases hget

/-- A walk in one file system goes as far as in the other. Only a walk for a file to be written can be
refused where another is not. -/
theorem KeepsWays.walkNames (h : KeepsWays fs fs') (hfile : aim' = .file → aim = .file)
    (hname : aim' = .name ↔ aim = .name)
    (hfollow : ∀ cur names, follow cur names = .ok loc → follow' cur names = .ok loc)
    (hok : walkNames fs follow aim cur names = .ok loc) :
    walkNames fs' follow' aim' cur names = .ok loc := by
  induction names generalizing cur with
  | nil => exact hok
  | cons name rest ih =>
    have hlooked : LookedUp fs aim cur name rest → LookedUp fs' aim' cur name rest := fun hl =>
      { hl with
        search := h.search _ hl.search
        slash := fun hcond => hl.slash ⟨hfile hcond.1, hcond.2⟩ }
    cases walkStep_of_ok hok with
    | stay dot walk =>
      exact (WalkStep.stay (dot.imp_right fun hdot => ⟨h.search _ hdot.1, hdot.2⟩) (ih walk)).ok
    | up search dots walk => exact (WalkStep.up (h.search _ search) dots (ih walk)).ok
    | enter lookedUp data here walk =>
      exact (WalkStep.enter (hlooked lookedUp) data (h.dirs _ _ here) (ih walk)).ok
    | last lookedUp isLast eq noDirectory noLink =>
      -- a directory may stand there now, and then the walk ends in it
      have hlink : ∀ target, fs'.get? (cur ++ [name]) ≠ some (.link target) := fun target hget =>
        noLink target ((h.links _ _).1 hget)
      cases hdir : fs'.isDirectoryAt (cur ++ [name]) with
      | false => exact (WalkStep.last (hlooked lookedUp) isLast eq hdir hlink).ok
      | true =>
        obtain ⟨data, hget⟩ := isDirectoryAt_iff.1 hdir
        refine (WalkStep.enter (hlooked lookedUp) data hget ?_).ok
        rw [isLast, eq]
        rfl
    | link lookedUp isLast itself eq target here =>
      exact (WalkStep.link (hlooked lookedUp) isLast (hname.2 itself) eq target
        ((h.links _ _).2 here)).ok
    | follow lookedUp target here onward walk =>
      refine (WalkStep.follow (hlooked lookedUp) target ((h.links _ _).2 here) ?_
        (hfollow _ _ walk)).ok
      exact fun hcond => onward ⟨hcond.1, hname.1 hcond.2⟩

theorem KeepsWays.walkLinks (h : KeepsWays fs fs') (hfile : aim' = .file → aim = .file)
    (hname : aim' = .name ↔ aim = .name) {links : Nat}
    (hok : walkLinks fs aim links cur names = .ok loc) :
    walkLinks fs' aim' links cur names = .ok loc := by
  induction links generalizing cur names with
  | zero =>
    rw [FileSystem.walkLinks] at hok ⊢
    exact h.walkNames hfile hname (fun _ _ herr => by cases herr) hok
  | succ links ih => exact h.walkNames hfile hname (fun _ _ => ih) hok

theorem locate_ok_iff_walk : fs.locate aim p = .ok loc ↔
    Utf8.size p.toText ≤ maxPathSize ∧ fs.isDirectoryAt (fs.startOf p) = true ∧
      walkLinks fs aim maxLinks (fs.startOf p) p.names = .ok loc := by
  unfold locate
  split
  · next hsize => exact ⟨nofun, fun hok => absurd hok.1 (by omega)⟩
  · next hsize =>
    split
    · next hdir => exact ⟨fun hok => ⟨by omega, hdir, hok⟩, fun hok => hok.2.2⟩
    · next hdir => exact ⟨nofun, fun hok => absurd hok.2.1 hdir⟩

/-- A path leads to where it has led. -/
theorem KeepsWays.locate (h : KeepsWays fs fs') (hok : fs.locate aim p = .ok loc)
    (hfile : aim' = .file → aim = .file) (hname : aim' = .name ↔ aim = .name) :
    fs'.locate aim' p = .ok loc := by
  have hstart : fs'.startOf p = fs.startOf p := by simp only [startOf, h.cwd]
  obtain ⟨hsize, hdir, hwalk⟩ := locate_ok_iff_walk.1 hok
  rw [locate_ok_iff_walk, hstart]
  exact ⟨hsize, h.dirs.isDirectoryAt hdir, h.walkLinks hfile hname hwalk⟩

/-- Two walks that come to the same place or are refused alike, or both find nothing there. -/
def Alike (result result' : Except Errno Location) : Prop :=
  result = result' ∨ ∃ err err', result = .error err ∧ result' = .error err' ∧
    err.meansAbsent = true ∧ err'.meansAbsent = true

/-- Where there is neither a directory nor a link, a walk ends. -/
theorem walkNames_closed (hlooked : LookedUp fs aim cur name rest)
    (hdir : fs.isDirectoryAt (cur ++ [name]) = false)
    (hlink : ∀ target, fs.get? (cur ++ [name]) ≠ some (.link target)) :
    ∃ err, Errno.meansAbsent err = true ∧ walkNames fs follow aim cur (name :: rest) =
      if rest.isEmpty then .ok (cur ++ [name]) else .error err := by
  rw [walkNames_lookedUp hlooked]
  cases hget : fs.get? (cur ++ [name]) with
  | none => exact ⟨.notFound, rfl, rfl⟩
  | some e =>
    cases e with
    | directory data => simp [isDirectoryAt, hget, Entry.isDirectory] at hdir
    | link target => exact absurd hget (hlink target)
    | _ => exact ⟨.notDirectory, rfl, rfl⟩

/-- With the same directories and links, walks are alike. -/
theorem KeepsWays.alike_walkNames (h : KeepsWays fs fs') (h' : KeepsWays fs' fs)
    (hfollow : ∀ cur names, Alike (follow cur names) (follow' cur names)) :
    Alike (FileSystem.walkNames fs follow aim cur names)
      (FileSystem.walkNames fs' follow' aim cur names) := by
  induction names generalizing cur with
  | nil => exact .inl rfl
  | cons name rest ih =>
    have hsame : fs'.isSearchableAt cur = fs.isSearchableAt cur :=
      Bool.eq_iff_iff.2 ⟨h'.search cur, h.search cur⟩
    by_cases hnil : name = []
    · rw [FileSystem.walkNames, FileSystem.walkNames, if_pos hnil, if_pos hnil]
      exact ih
    cases hsearch : fs.isSearchableAt cur with
    | false => simp [FileSystem.walkNames, hnil, hsame, hsearch, Alike]
    | true =>
    rw [hsearch] at hsame
    by_cases hdot : name = ['.']
    · simpa [FileSystem.walkNames, hsame, hsearch, hdot] using ih
    by_cases hdots : name = ['.', '.']
    · simpa [FileSystem.walkNames, hsame, hsearch, hdots] using ih
    by_cases hslash : aim = .file ∧ rest = [[]]
    · simp [FileSystem.walkNames, hsame, hsearch, hnil, hdot, hdots, hslash, Alike]
    by_cases hsize : maxNameSize < Utf8.size name
    · simp [FileSystem.walkNames, hsame, hsearch, hnil, hdot, hdots, hslash, hsize, Alike]
    have hlooked : LookedUp fs aim cur name rest :=
      ⟨hsearch, hnil, hdot, hdots, hslash, Nat.not_lt.1 hsize⟩
    have hlooked' : LookedUp fs' aim cur name rest := { hlooked with search := hsame }
    cases hdir : fs.isDirectoryAt (cur ++ [name]) with
    | true =>
      obtain ⟨data, hget⟩ := isDirectoryAt_iff.1 hdir
      rw [walkNames_lookedUp hlooked, walkNames_lookedUp hlooked', hget, h.dirs _ _ hget]
      exact ih
    | false =>
      by_cases hlink : ∃ target, fs.get? (cur ++ [name]) = some (.link target)
      · obtain ⟨target, hget⟩ := hlink
        rw [walkNames_lookedUp hlooked, walkNames_lookedUp hlooked', hget, (h.links _ _).2 hget]
        dsimp only
        split
        · exact .inl rfl
        · exact hfollow _ _
      · have hdir' : fs'.isDirectoryAt (cur ++ [name]) = false :=
          Bool.eq_false_iff.2 fun hreal => by simp [h'.dirs.isDirectoryAt hreal] at hdir
        have hlink' : ∀ target, fs'.get? (cur ++ [name]) ≠ some (.link target) :=
          fun target hget => hlink ⟨target, (h.links _ _).1 hget⟩
        obtain ⟨err, herr, hwalk⟩ := walkNames_closed hlooked hdir fun target hget =>
          hlink ⟨target, hget⟩
        obtain ⟨err', herr', hwalk'⟩ := walkNames_closed hlooked' hdir' hlink'
        rw [hwalk, hwalk']
        split
        · exact .inl rfl
        · exact .inr ⟨err, err', rfl, rfl, herr, herr'⟩

theorem KeepsWays.alike_locate (h : KeepsWays fs fs') (h' : KeepsWays fs' fs) (aim : Aim) (p : Path) :
    Alike (fs.locate aim p) (fs'.locate aim p) := by
  have hlinks : ∀ (links : Nat) (cur : Location) (names : List Text),
      Alike (FileSystem.walkLinks fs aim links cur names)
        (FileSystem.walkLinks fs' aim links cur names) := by
    intro links
    induction links with
    | zero => exact fun cur names => h.alike_walkNames h' fun _ _ => .inl rfl
    | succ links ih => exact fun cur names => h.alike_walkNames h' ih
  have hstart : fs'.startOf p = fs.startOf p := by simp only [startOf, h.cwd]
  have hdir : fs'.isDirectoryAt (fs.startOf p) = fs.isDirectoryAt (fs.startOf p) :=
    Bool.eq_iff_iff.2 ⟨h'.dirs.isDirectoryAt, h.dirs.isDirectoryAt⟩
  unfold FileSystem.locate
  rw [hstart, hdir]
  split
  · exact .inl rfl
  · split
    · exact hlinks _ _ _
    · exact .inl rfl

/-- What is there through all links is there under its name, be it as a link. -/
theorem walkNames_name (hget : fs.get? loc = some e)
    (hfollow : ∀ cur names, follow cur names = .ok loc →
      ∃ loc' e', follow' cur names = .ok loc' ∧ fs.get? loc' = some e')
    (hok : walkNames fs follow .entry cur names = .ok loc) :
    ∃ loc' e', walkNames fs follow' .name cur names = .ok loc' ∧ fs.get? loc' = some e' := by
  induction names generalizing cur with
  | nil => exact ⟨loc, e, hok, hget⟩
  | cons name rest ih =>
    have hlooked : LookedUp fs .entry cur name rest → LookedUp fs .name cur name rest := fun hl =>
      { hl with slash := fun hcond => by cases hcond.1 }
    cases walkStep_of_ok hok with
    | stay dot walk =>
      obtain ⟨loc', e', hwalk, hget'⟩ := ih walk
      exact ⟨loc', e', (WalkStep.stay dot hwalk).ok, hget'⟩
    | up search dots walk =>
      obtain ⟨loc', e', hwalk, hget'⟩ := ih walk
      exact ⟨loc', e', (WalkStep.up search dots hwalk).ok, hget'⟩
    | enter lookedUp data here walk =>
      obtain ⟨loc', e', hwalk, hget'⟩ := ih walk
      exact ⟨loc', e', (WalkStep.enter (hlooked lookedUp) data here hwalk).ok, hget'⟩
    | last lookedUp isLast eq noDirectory noLink =>
      exact ⟨loc, e, (WalkStep.last (hlooked lookedUp) isLast eq noDirectory noLink).ok, hget⟩
    | link _ _ itself => cases itself
    | follow lookedUp target here onward walk =>
      by_cases hrest : rest = []
      · exact ⟨_, _, (WalkStep.link (hlooked lookedUp) hrest rfl rfl target here).ok, here⟩
      · obtain ⟨loc', e', hwalk, hget'⟩ := hfollow _ _ walk
        refine ⟨loc', e', (WalkStep.follow (hlooked lookedUp) target here ?_ hwalk).ok, hget'⟩
        exact fun hcond => hrest hcond.1

theorem locate_name (hok : fs.locate .entry p = .ok loc) (hget : fs.get? loc = some e) :
    ∃ loc' e', fs.locate .name p = .ok loc' ∧ fs.get? loc' = some e' := by
  have hlinks : ∀ (links : Nat) (cur : Location) (names : List Text),
      walkLinks fs .entry links cur names = .ok loc →
      ∃ loc' e', walkLinks fs .name links cur names = .ok loc' ∧ fs.get? loc' = some e' := by
    intro links
    induction links with
    | zero => exact fun cur names => walkNames_name hget fun _ _ herr => by cases herr
    | succ links ih => exact fun cur names => walkNames_name hget ih
  obtain ⟨hsize, hdir, hwalk⟩ := locate_ok_iff_walk.1 hok
  obtain ⟨loc', e', hwalk', hget'⟩ := hlinks _ _ _ hwalk
  exact ⟨loc', e', locate_ok_iff_walk.2 ⟨hsize, hdir, hwalk'⟩, hget'⟩

/-- A walk for a name that ends where nothing is would end there through all links too. -/
theorem walkNames_entry (hnone : fs.get? loc = none)
    (hfollow : ∀ cur names, follow cur names = .ok loc → follow' cur names = .ok loc)
    (hok : walkNames fs follow .name cur names = .ok loc) :
    walkNames fs follow' .entry cur names = .ok loc := by
  induction names generalizing cur with
  | nil => exact hok
  | cons name rest ih =>
    have hlooked : LookedUp fs .name cur name rest → LookedUp fs .entry cur name rest := fun hl =>
      { hl with slash := fun hcond => by cases hcond.1 }
    cases walkStep_of_ok hok with
    | stay dot walk => exact (WalkStep.stay dot (ih walk)).ok
    | up search dots walk => exact (WalkStep.up search dots (ih walk)).ok
    | enter lookedUp data here walk =>
      exact (WalkStep.enter (hlooked lookedUp) data here (ih walk)).ok
    | last lookedUp isLast eq noDirectory noLink =>
      exact (WalkStep.last (hlooked lookedUp) isLast eq noDirectory noLink).ok
    | link _ _ _ _ target here =>
      rw [hnone] at here
      cases here
    | follow lookedUp target here onward walk =>
      exact (WalkStep.follow (hlooked lookedUp) target here (fun hcond => by cases hcond.2)
        (hfollow _ _ walk)).ok

theorem locate_entry (hok : fs.locate .name p = .ok loc) (hnone : fs.get? loc = none) :
    fs.locate .entry p = .ok loc := by
  have hlinks : ∀ (links : Nat) (cur : Location) (names : List Text),
      walkLinks fs .name links cur names = .ok loc →
      walkLinks fs .entry links cur names = .ok loc := by
    intro links
    induction links with
    | zero => exact fun cur names => walkNames_entry hnone fun _ _ herr => by cases herr
    | succ links ih => exact fun cur names => walkNames_entry hnone ih
  obtain ⟨hsize, hdir, hwalk⟩ := locate_ok_iff_walk.1 hok
  exact locate_ok_iff_walk.2 ⟨hsize, hdir, hlinks _ _ _ hwalk⟩

theorem answer_ok_iff {α : Type} {result : Except Errno α} {a : α} :
    answer p result = .ok a ↔ p.hasNull = false ∧ result = .ok a := by
  unfold answer
  cases p.hasNull with
  | true => simp
  | false => cases result <;> simp

/-- A path leads to a directory. -/
def LeadsToDir (fs : FileSystem) (p : Path) : Prop :=
  p.hasNull = false ∧ ∃ loc data, fs.locate .entry p = .ok loc ∧
    fs.get? loc = some (.directory data)

theorem KeepsWays.leadsToDir (h : KeepsWays fs fs') (hp : fs.LeadsToDir p) : fs'.LeadsToDir p := by
  obtain ⟨hnull, loc, data, hloc, hget⟩ := hp
  exact ⟨hnull, loc, data, h.locate hloc (fun haim => haim) Iff.rfl, h.dirs _ _ hget⟩

theorem stat_ok_iff : fs.stat p = .ok e ↔
    p.hasNull = false ∧ ∃ loc, fs.locate .entry p = .ok loc ∧ fs.get? loc = some e := by
  unfold stat
  rw [answer_ok_iff, bind_ok_iff]
  refine and_congr_right fun _ => exists_congr fun loc => and_congr_right fun _ => ?_
  cases fs.get? loc with
  | none => exact ⟨nofun, nofun⟩
  | some e' => exact ⟨fun h => by cases h; rfl, fun h => by cases h; rfl⟩

theorem look_some_iff : fs.look p = .ok (some e) ↔ fs.stat p = .ok e := by
  unfold look
  split
  · simp_all
  · split <;> simp_all
  · simp_all

/-- Where files alone are changed, a path shows what it has shown if the file it leads to is kept. -/
theorem KeepsWays.look (h : KeepsWays fs fs') (h' : KeepsWays fs' fs)
    (hkept : ∀ loc, fs.locate .entry p = .ok loc → fs'.get? loc = fs.get? loc) :
    fs'.look p = fs.look p := by
  unfold FileSystem.look stat answer
  cases p.hasNull with
  | true => rfl
  | false =>
    rcases h.alike_locate h' .entry p with heq | ⟨err, err', herr, herr', habsent, habsent'⟩
    · rw [← heq]
      cases hloc : fs.locate .entry p with
      | error err => rfl
      | ok loc => simp [bind, Except.bind, hkept loc hloc]
    · simp [herr, herr', bind, Except.bind, habsent, habsent']

/-- What is read from a file that is seen depends on the file alone. -/
theorem read_of_look {data : FileData} (hlook : fs.look p = .ok (some (.file data))) :
    fs.read p = if data.denied then .error (.refused .denied p.toText) else .ok data.bytes := by
  obtain ⟨hnull, loc, hloc, hget⟩ := stat_ok_iff.1 (look_some_iff.1 hlook)
  unfold read answer
  rw [hnull, hloc]
  cases hdenied : data.denied with
  | true => simp [hget, hdenied, bind, Except.bind, throw, throwThe, MonadExceptOf.throw]
  | false => simp [hget, hdenied, bind, Except.bind, pure, Except.pure]

/-- From the same entry the same is read. -/
theorem read_eq_of_look {fs' : FileSystem} (hlook : fs.look p = .ok (some e))
    (hlook' : fs'.look p = .ok (some e)) : fs.read p = fs'.read p := by
  obtain ⟨hnull, loc, hloc, hget⟩ := stat_ok_iff.1 (look_some_iff.1 hlook)
  obtain ⟨-, loc', hloc', hget'⟩ := stat_ok_iff.1 (look_some_iff.1 hlook')
  simp only [read, answer, hnull, hloc, hloc', hget, hget', bind, Except.bind]

theorem isFile_of_read (hread : fs.read p = .ok bytes) :
    ∃ data, fs.look p = .ok (some (.file data)) := by
  unfold read at hread
  obtain ⟨hnull, hread⟩ := answer_ok_iff.1 hread
  obtain ⟨loc, hloc, hread⟩ := bind_ok_iff.1 hread
  split at hread
  · next data hget => exact ⟨data, look_some_iff.2 (stat_ok_iff.2 ⟨hnull, loc, hloc, hget⟩)⟩
  all_goals cases hread

theorem leadsToDir_iff : fs.LeadsToDir p ↔ ∃ data, fs.look p = .ok (some (.directory data)) := by
  simp only [look_some_iff, stat_ok_iff, LeadsToDir]
  constructor
  · rintro ⟨hnull, loc, data, hloc, hget⟩
    exact ⟨data, hnull, loc, hloc, hget⟩
  · rintro ⟨data, hnull, loc, hloc, hget⟩
    exact ⟨hnull, loc, data, hloc, hget⟩

theorem isDir_iff : fs.isDir p = true ↔ fs.LeadsToDir p := by
  rw [leadsToDir_iff]
  simp only [look_some_iff]
  unfold isDir
  cases fs.stat p with
  | error failure => simp
  | ok e => cases e <;> simp [Entry.isDirectory]

/-- The names in a directory are those of the entries directly below the place it is at. -/
theorem list_ok_iff_locate : fs.list p = .ok names ↔ p.hasNull = false ∧
    ∃ loc, fs.locate .entry p = .ok loc ∧
      (∃ data, fs.get? loc = some (.directory data) ∧ data.listable = true) ∧
      names = fs.childNames loc := by
  unfold list
  rw [answer_ok_iff, bind_ok_iff]
  refine and_congr_right fun _ => exists_congr fun loc => and_congr_right fun _ => ?_
  cases hget : fs.get? loc with
  | none => exact ⟨nofun, nofun⟩
  | some e =>
    cases e with
    | directory data =>
      cases hlist : data.listable with
      | true => simpa [pure, Except.pure, hlist] using eq_comm
      | false => simp [hlist, throw, throwThe, MonadExceptOf.throw]
    | _ => exact ⟨nofun, nofun⟩

/-- A directory is made where nothing was. -/
theorem exists_put_of_makeDir (hok : fs.makeDir p = .ok fs') :
    p.hasNull = false ∧ ∃ loc, fs.locate .name p = .ok loc ∧ fs.get? loc = none ∧ loc ≠ [] ∧
      fs' = fs.put loc (.directory fs.host.newDir) := by
  obtain ⟨hnull, hmake⟩ := answer_ok_iff.1 hok
  obtain ⟨loc, hloc, hmake⟩ := bind_ok_iff.1 hmake
  cases hget : fs.get? loc with
  | some e =>
    rw [hget] at hmake
    cases hmake
  | none =>
    simp only [hget] at hmake
    split at hmake
    · cases hmake
    cases hmake
    have hne : loc ≠ [] := by
      rintro rfl
      cases hget
    exact ⟨hnull, loc, hloc, hget, hne, rfl⟩

theorem keepsWays_makeDir (hget : fs.get? loc = none) (hne : loc ≠ []) :
    KeepsWays fs (fs.put loc (.directory fs.host.newDir)) :=
  keepsWays_put hne (by rw [isDirectoryAt, hget]; rfl) (fun target => by simp [hget])
    (fun target => nofun) rfl

theorem makeDir_leadsToDir (hok : fs.makeDir p = .ok fs') : fs'.LeadsToDir p := by
  obtain ⟨hnull, loc, hloc, hget, hne, rfl⟩ := exists_put_of_makeDir hok
  refine ⟨hnull, loc, fs.host.newDir, ?_, ?_⟩
  · exact (keepsWays_makeDir hget hne).locate (locate_entry hloc hget) (fun haim => haim) Iff.rfl
  · rw [get?_put fs hne, if_pos rfl]

theorem ensureDir_leadsToDir (hok : fs.ensureDir p = .ok fs') : fs'.LeadsToDir p := by
  unfold ensureDir at hok
  split at hok
  · cases hok
  · obtain ⟨found, hlook, hok⟩ := bind_ok_iff.1 hok
    split at hok
    · next hdir =>
      cases hok
      obtain ⟨e, rfl, hdir⟩ := (Option.any_eq_true _ _).1 hdir
      cases e with
      | directory data => exact leadsToDir_iff.2 ⟨data, hlook⟩
      | _ => cases hdir
    · cases hok
  · exact makeDir_leadsToDir hok

/-- A directory that was made is there. -/
theorem ensureDirs_leadsToDir (hok : fs.ensureDirs p = .ok fs') : fs'.LeadsToDir p := by
  obtain ⟨anchor, names⟩ := p
  unfold ensureDirs at hok
  cases hrev : names.reverse with
  | nil =>
    rw [List.reverse_eq_nil_iff.1 hrev] at hok ⊢
    exact ensureDir_leadsToDir hok
  | cons name above =>
    have hnames : (name :: above).reverse = names := by rw [← hrev, List.reverse_reverse]
    simp only [hrev, ensureDirsAlong, hnames] at hok
    split at hok
    · obtain ⟨fs₁, -, hok⟩ := bind_ok_iff.1 hok
      exact ensureDir_leadsToDir hok
    · exact ensureDir_leadsToDir hok

/-- A directory that is there is not made again. -/
theorem LeadsToDir.ensureDirs (h : fs.LeadsToDir p) : fs.ensureDirs p = .ok fs := by
  obtain ⟨data, hlook⟩ := leadsToDir_iff.1 h
  have hmake : fs.makeDir p = .error (.refused .alreadyThere p.toText) := by
    obtain ⟨hnull, loc, data, hloc, hget⟩ := h
    obtain ⟨loc', e', hloc', hget'⟩ := locate_name hloc hget
    unfold makeDir answer
    rw [hnull, hloc']
    simp [bind, Except.bind, hget', throw, throwThe, MonadExceptOf.throw]
  have hensure : fs.ensureDir p = .ok fs := by
    unfold ensureDir
    rw [hmake]
    simp [hlook, bind, Except.bind, Entry.isDirectory, pure, Except.pure]
  obtain ⟨anchor, names⟩ := p
  unfold FileSystem.ensureDirs
  cases hrev : names.reverse with
  | nil =>
    rw [List.reverse_eq_nil_iff.1 hrev] at hensure
    exact hensure
  | cons name above =>
    have hnames : (name :: above).reverse = names := by rw [← hrev, List.reverse_reverse]
    simp only [ensureDirsAlong, hnames, hmake]
    exact hensure

/-- A file can be written along a path, and the location where it then stands. -/
structure Opens (fs : FileSystem) (p : Path) (loc : Location) : Prop where
  null : p.hasNull = false
  located : fs.locate .file p = .ok loc
  canWrite : fs.CanWrite loc

theorem Opens.write (h : fs.Opens p loc) (bytes : Bytes) :
    fs.write p bytes = .ok (fs.put loc (written fs.host bytes)) := by
  unfold FileSystem.write
  rw [answer_ok_iff]
  refine ⟨h.null, bind_ok_iff.2 ⟨loc, h.located, ?_⟩⟩
  rcases h.canWrite with ⟨hnone, hdir⟩ | ⟨data, hfile, hdenied⟩
  · simp [hnone, hdir, pure, Except.pure, written]
  · simp [hfile, hdenied, pure, Except.pure, written]

/-- What can be written can still be when another file, or this one, has been written. -/
theorem Opens.put {loc' : Location} (h : fs.Opens p loc) (hcan : fs.CanWrite loc') (host : Host)
    (bytes : Bytes) : (fs.put loc' (written host bytes)).Opens p loc :=
  ⟨h.null, (hcan.keepsWays host bytes).locate h.located (fun haim => haim) Iff.rfl,
    (canWrite_put hcan loc).2 h.canWrite⟩

theorem write_ok_iff_opens : fs.write p bytes = .ok fs' ↔
    ∃ loc, fs.Opens p loc ∧ fs' = fs.put loc (written fs.host bytes) := by
  constructor
  · intro hok
    obtain ⟨hnull, hok⟩ := answer_ok_iff.1 hok
    obtain ⟨loc, hloc, hok⟩ := bind_ok_iff.1 hok
    cases hget : fs.get? loc with
    | none =>
      cases hdir : fs.isWritableAt loc.dropLast with
      | false =>
        simp only [hget, hdir] at hok
        cases hok
      | true =>
        simp only [hget, hdir] at hok
        cases hok
        exact ⟨loc, ⟨hnull, hloc, .inl ⟨hget, hdir⟩⟩, rfl⟩
    | some e =>
      rw [hget] at hok
      cases e with
      | file data =>
        cases hdenied : data.denied with
        | true =>
          simp only [hdenied] at hok
          cases hok
        | false =>
          simp only [hdenied] at hok
          cases hok
          exact ⟨loc, ⟨hnull, hloc, .inr ⟨data, hget, hdenied⟩⟩, rfl⟩
      | _ => cases hok
  · rintro ⟨loc, hopens, rfl⟩
    exact hopens.write bytes

/-- A file is seen under the path it was written along. -/
theorem Opens.look {host : Host} (h : fs.Opens p loc)
    (hget : fs.get? loc = some (written host bytes)) :
    fs.look p = .ok (some (written host bytes)) := by
  have hloc : fs.locate .entry p = .ok loc :=
    (KeepsWays.refl fs).locate h.located nofun ⟨nofun, nofun⟩
  exact look_some_iff.2 (stat_ok_iff.2 ⟨h.null, loc, hloc, hget⟩)

theorem Opens.read {host : Host} (h : fs.Opens p loc)
    (hget : fs.get? loc = some (written host bytes)) : fs.read p = .ok bytes :=
  read_of_look (h.look hget)

theorem look_of_write (hok : fs.write p bytes = .ok fs') :
    fs'.look p = .ok (some (written fs.host bytes)) := by
  obtain ⟨loc, hopens, rfl⟩ := write_ok_iff_opens.1 hok
  refine (hopens.put hopens.canWrite fs.host bytes).look ?_
  rw [get?_put fs hopens.canWrite.ne_nil, if_pos rfl]

/-! ### Other data in files -/

/-- File systems that differ only in what their files hold. -/
structure SameButData (fs fs' : FileSystem) : Prop where
  cwd : fs'.cwd = fs.cwd
  entries : ∀ loc, fs'.get? loc = fs.get? loc ∨
    ∃ data data', fs.get? loc = some (.file data) ∧ fs'.get? loc = some (.file data')

theorem ne_nil_of_file {data : FileData} (hget : fs.get? loc = some (.file data)) : loc ≠ [] := by
  rintro rfl
  cases hget

theorem sameButData_put {data : FileData} (hget : fs.get? loc = some (.file data)) (data' : FileData) :
    SameButData fs (fs.put loc (.file data')) := by
  refine ⟨rfl, fun key => ?_⟩
  rw [get?_put fs (ne_nil_of_file hget)]
  split
  · next heq => exact .inr ⟨data, data', heq ▸ hget, rfl⟩
  · exact .inl rfl

namespace SameButData

theorem walkNames (h : SameButData fs fs') (follow : Location → List Text → Except Errno Location)
    (aim : Aim) (cur : Location) (names : List Text) :
    FileSystem.walkNames fs' follow aim cur names = FileSystem.walkNames fs follow aim cur names := by
  induction names generalizing cur with
  | nil => rfl
  | cons name rest ih =>
    have hsearch : fs'.isSearchableAt cur = fs.isSearchableAt cur := by
      unfold isSearchableAt
      rcases h.entries cur with heq | ⟨data, data', hget, hget'⟩
      · rw [heq]
      · rw [hget, hget']
        rfl
    rw [FileSystem.walkNames, FileSystem.walkNames, hsearch, ih cur, ih cur.dropLast,
      ih (cur ++ [name])]
    rcases h.entries (cur ++ [name]) with heq | ⟨data, data', hget, hget'⟩
    · rw [heq]
    · rw [hget, hget']

theorem walkLinks (h : SameButData fs fs') (aim : Aim) (links : Nat) :
    FileSystem.walkLinks fs' aim links = FileSystem.walkLinks fs aim links := by
  induction links with
  | zero => exact funext fun cur => funext fun names => h.walkNames _ aim cur names
  | succ links ih =>
    rw [FileSystem.walkLinks, FileSystem.walkLinks, ih]
    exact funext fun cur => funext fun names => h.walkNames _ aim cur names

theorem locate (h : SameButData fs fs') (aim : Aim) (p : Path) : fs'.locate aim p = fs.locate aim p := by
  have hstart : fs'.startOf p = fs.startOf p := by simp only [startOf, h.cwd]
  have hdir : fs'.isDirectoryAt (fs.startOf p) = fs.isDirectoryAt (fs.startOf p) := by
    unfold isDirectoryAt
    rcases h.entries (fs.startOf p) with heq | ⟨data, data', hget, hget'⟩
    · rw [heq]
    · rw [hget, hget']
      rfl
  unfold FileSystem.locate
  rw [hstart, hdir, h.walkLinks]

/-- What a path reads depends on the file it leads to alone. -/
theorem read (h : SameButData fs fs')
    (hkept : ∀ loc, fs.locate .entry p = .ok loc → fs'.get? loc = fs.get? loc) :
    fs'.read p = fs.read p := by
  unfold FileSystem.read
  rw [h.locate]
  cases hloc : fs.locate .entry p with
  | error err => rfl
  | ok loc => simp only [bind, Except.bind, hkept loc hloc]

end SameButData

theorem read_put_file {data data' : FileData} (hget : fs.get? loc = some (.file data))
    (hp : fs.locate .entry p ≠ .ok loc) : (fs.put loc (.file data')).read p = fs.read p := by
  refine (sameButData_put hget data').read fun key hkey => ?_
  rw [get?_put fs (ne_nil_of_file hget), if_neg]
  rintro rfl
  exact hp hkey

end CodeIndex.FileSystem
