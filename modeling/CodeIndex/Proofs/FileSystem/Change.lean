import CodeIndex.Proofs.FileSystem.Plain

/-!
# Changes to file systems without links

Writing a file and making directories are single entries put in place. A file system that keeps the
directories of another walks every path to where the other walks it.
-/

namespace CodeIndex.FileSystem

variable {fs fs' fs'' : FileSystem} {loc cur par : Location} {n : Text} {names : List Text}
  {e : Entry} {p : Path} {bytes : Bytes}

/-- All directories of one file system are in the other. -/
def KeepsDirs (fs fs' : FileSystem) : Prop :=
  ∀ loc data, fs.get? loc = some (.directory data) → fs'.get? loc = some (.directory data)

theorem KeepsDirs.refl (fs : FileSystem) : KeepsDirs fs fs := fun _ _ h => h

theorem KeepsDirs.trans (h : KeepsDirs fs fs') (h' : KeepsDirs fs' fs'') : KeepsDirs fs fs'' :=
  fun loc data hget => h' loc data (h loc data hget)

theorem KeepsDirs.isDirectoryAt (h : KeepsDirs fs fs') (hloc : fs.isDirectoryAt loc = true) :
    fs'.isDirectoryAt loc = true := by
  obtain ⟨data, hget⟩ := isDirectoryAt_iff.1 hloc
  exact isDirectoryAt_iff.2 ⟨data, h loc data hget⟩

theorem KeepsDirs.isSearchableAt (h : KeepsDirs fs fs') (hloc : fs.isDirectoryAt loc = true) :
    fs'.isSearchableAt loc = fs.isSearchableAt loc := by
  obtain ⟨data, hget⟩ := isDirectoryAt_iff.1 hloc
  rw [isSearchableAt_of_get? hget, isSearchableAt_of_get? (h loc data hget)]

theorem KeepsDirs.descend (h : KeepsDirs fs fs') (hfs : fs.Plain)
    (hcur : fs.isDirectoryAt cur = true) (hok : fs.descend cur names = .ok loc) :
    fs'.descend cur names = .ok loc := by
  induction names generalizing cur with
  | nil => exact hok
  | cons name rest ih =>
    have hsearch := h.isSearchableAt hcur
    -- a name that is the last one is reached whatever stands there
    have hlast : ∀ {err : Errno}, ¬ (!fs.isSearchableAt cur) = true → name ≠ ['.', '.'] →
        ¬ maxNameSize < Utf8.size name →
        (if rest.isEmpty then .ok (cur ++ [name]) else .error err) = Except.ok loc →
        fs'.descend cur (name :: rest) = .ok loc := by
      intro err hopen hname hsize hif
      split at hif
      · next hempty =>
        cases hif
        rw [List.isEmpty_iff.1 hempty, FileSystem.descend, hsearch, if_neg hopen, if_neg hname,
          if_neg hsize]
        cases fs'.get? (cur ++ [name]) with
        | none => rfl
        | some e => cases e <;> rfl
      · cases hif
    rw [FileSystem.descend] at hok
    split at hok
    · cases hok
    next hopen =>
    split at hok
    · next hname =>
      rw [FileSystem.descend, hsearch, if_neg hopen, if_pos hname]
      exact ih (hfs.dropLast hcur) hok
    · next hname =>
      split at hok
      · cases hok
      · next hsize =>
        cases hget : fs.get? (cur ++ [name]) with
        | none =>
          rw [hget] at hok
          exact hlast hopen hname hsize hok
        | some e =>
          rw [hget] at hok
          cases e with
          | directory data =>
            rw [FileSystem.descend, hsearch, if_neg hopen, if_neg hname, if_neg hsize, h _ _ hget]
            exact ih (isDirectoryAt_iff.2 ⟨data, hget⟩) hok
          | file data => exact hlast hopen hname hsize hok
          | link target => exact hlast hopen hname hsize hok
          | special mtime size => exact hlast hopen hname hsize hok

theorem locate_ok_iff (h : fs.Plain) (hp : p.IsFull) (aim : Aim) :
    fs.locate aim p = .ok loc ↔
      Utf8.size p.toText ≤ maxPathSize ∧ fs.descend [] p.names = .ok loc := by
  rw [locate_eq h hp]
  split
  · next hsize => exact ⟨fun hok => (nomatch hok), fun hok => absurd hok.1 (by omega)⟩
  · next hsize => exact ⟨fun hok => ⟨by omega, hok⟩, And.right⟩

theorem KeepsDirs.locate (hk : KeepsDirs fs fs') (h : fs.Plain) (h' : fs'.Plain) (hp : p.IsFull)
    {aim : Aim} (hok : fs.locate aim p = .ok loc) (aim' : Aim) : fs'.locate aim' p = .ok loc := by
  rw [locate_ok_iff h hp] at hok
  exact (locate_ok_iff h' hp _).2 ⟨hok.1, hk.descend h (isDirectoryAt_nil fs) hok.2⟩

theorem locate_aim (h : fs.Plain) (hp : p.IsFull) (aim aim' : Aim) :
    fs.locate aim p = fs.locate aim' p := by
  rw [locate_eq h hp, locate_eq h hp]

/-- Where a name in a directory is, given where the directory is. -/
theorem locate_child (h : fs.Plain) (hp : p.IsFull) (hn : Path.IsName n)
    {aim : Aim} (hloc : fs.locate aim p = .ok loc) (hdir : fs.isDirectoryAt loc = true) (aim' : Aim) :
    fs.locate aim' (p.child n) =
      if maxPathSize < Utf8.size (p.child n).toText then .error .nameTooLong
      else if !fs.isSearchableAt loc then .error .denied
      else if maxNameSize < Utf8.size n then .error .nameTooLong else .ok (loc ++ [n]) := by
  obtain ⟨data, hget⟩ := isDirectoryAt_iff.1 hdir
  rw [locate_eq h (hp.child hn), Path.child_names,
    descend_concat h hn.ne_dots (isDirectoryAt_nil fs), ((locate_ok_iff h hp aim).1 hloc).2]
  simp only [bind, Except.bind, hget, isSearchableAt_of_get? hget]

theorem size_append (t u : Text) : Utf8.size (t ++ u) = Utf8.size t + Utf8.size u := by
  have hfold : ∀ (u : Text) (k : Nat),
      u.foldl (fun n c => n + (Utf8.encodeChar c).length) k = k + Utf8.size u := by
    intro u
    induction u with
    | nil => intro k; rfl
    | cons c u ih =>
      intro k
      rw [Utf8.size, List.foldl_cons, List.foldl_cons, ih, ih]
      omega
  rw [Utf8.size, List.foldl_append, hfold]
  rfl

/-- A path that leads to a name leads there through a directory. -/
theorem exists_dir_of_locate_child (h : fs.Plain) (hp : p.IsFull) (hn : Path.IsName n) {aim : Aim}
    (hloc : fs.locate aim (p.child n) = .ok loc) :
    ∃ dir, loc = dir ++ [n] ∧ fs.locate aim p = .ok dir ∧ fs.isDirectoryAt dir = true ∧
      fs.isSearchableAt dir = true := by
  obtain ⟨hsize, hdesc⟩ := (locate_ok_iff h (hp.child hn) aim).1 hloc
  rw [Path.child_names, descend_concat h hn.ne_dots (isDirectoryAt_nil fs)] at hdesc
  cases hdir : fs.descend [] p.names with
  | error err => simp [hdir, bind, Except.bind] at hdesc
  | ok dir =>
    obtain ⟨rest, hrest⟩ := Path.toText_prefix_child hp.anchor n
    have hshort : Utf8.size p.toText ≤ maxPathSize := by
      rw [← hrest, size_append] at hsize
      omega
    simp only [hdir, bind, Except.bind] at hdesc
    refine ⟨dir, ?_, (locate_ok_iff h hp aim).2 ⟨hshort, hdir⟩, ?_⟩
    · split at hdesc
      · split at hdesc
        · cases hdesc
        · split at hdesc <;> simp_all
      · cases hdesc
      · cases hdesc
    · split at hdesc
      · next data hget =>
        refine ⟨isDirectoryAt_iff.2 ⟨_, hget⟩, ?_⟩
        rw [isSearchableAt_of_get? hget]
        cases hsearch : data.searchable with
        | true => rfl
        | false => simp [hsearch] at hdesc
      · cases hdesc
      · cases hdesc

/-- An entry that is put where no directory stands leaves the file system plain. -/
theorem Plain.put (h : fs.Plain) (hn : Path.IsName n) (hpar : fs.isDirectoryAt par = true)
    (hfree : fs.isDirectoryAt (par ++ [n]) = false) (hlink : ∀ target, e ≠ .link target) :
    (fs.put (par ++ [n]) e).Plain := by
  have hne : par ++ [n] ≠ [] := by simp
  obtain ⟨data, hparent⟩ := isDirectoryAt_iff.1 hpar
  refine ⟨fun loc e' hget => ?_, fun loc m e' hget => ?_, fun loc target hget => ?_⟩
  · rw [get?_put fs hne] at hget
    split at hget
    · next heq =>
      subst heq
      intro m hm
      rcases List.mem_append.1 hm with hm | hm
      · exact h.names par _ hparent m hm
      · exact List.mem_singleton.1 hm ▸ hn
    · exact h.names loc e' hget
  · have habove : fs.isDirectoryAt loc = true := by
      rw [get?_put fs hne] at hget
      split at hget
      · next heq => exact (List.append_inj_left' heq rfl) ▸ hpar
      · exact h.above loc m e' hget
    have hloc : loc ≠ par ++ [n] := by
      rintro rfl
      rw [hfree] at habove
      cases habove
    obtain ⟨data, hdir⟩ := isDirectoryAt_iff.1 habove
    refine isDirectoryAt_iff.2 ⟨data, ?_⟩
    rw [get?_put fs hne, if_neg hloc, hdir]
  · rw [get?_put fs hne] at hget
    split at hget
    · exact hlink target (Option.some.inj hget)
    · exact h.links loc target hget

theorem keepsDirs_put (hloc : loc ≠ []) (hfree : fs.isDirectoryAt loc = false) :
    KeepsDirs fs (fs.put loc e) := by
  intro key data hget
  have hne : key ≠ loc := by
    rintro rfl
    rw [isDirectoryAt_iff.2 ⟨data, hget⟩] at hfree
    cases hfree
  rw [get?_put fs hloc, if_neg hne, hget]

/-- Where a file can be written: a file that is not denied is there, or nothing in a directory that
takes new entries. -/
def CanWrite (fs : FileSystem) (loc : Location) : Prop :=
  fs.get? loc = none ∧ fs.isWritableAt loc.dropLast = true ∨
    ∃ data, fs.get? loc = some (.file data) ∧ data.denied = false

/-- A file that a run on the host has written. -/
def written (host : Host) (bytes : Bytes) : Entry := .file ⟨bytes, host.clock, false⟩

@[simp]
theorem put_host (fs : FileSystem) (loc : Location) (e : Entry) : (fs.put loc e).host = fs.host :=
  rfl

theorem CanWrite.not_directory (h : fs.CanWrite loc) : fs.isDirectoryAt loc = false := by
  rcases h with ⟨hget, -⟩ | ⟨data, hget, -⟩ <;> simp [isDirectoryAt, hget, Entry.isDirectory]

theorem CanWrite.ne_nil (h : fs.CanWrite loc) : loc ≠ [] := by
  rintro rfl
  exact absurd h.not_directory (by simp [isDirectoryAt_nil])

theorem canWrite_written {host : Host} (h : fs.get? loc = some (written host bytes)) :
    fs.CanWrite loc :=
  .inr ⟨_, h, rfl⟩

/-- Writing a file takes no directory's place. -/
theorem CanWrite.isWritableAt (h : fs.CanWrite loc) (host : Host) (key : Location) :
    (fs.put loc (written host bytes)).isWritableAt key = fs.isWritableAt key := by
  unfold FileSystem.isWritableAt
  rw [get?_put fs h.ne_nil]
  split
  · next heq =>
    subst heq
    rcases h with ⟨hget, -⟩ | ⟨data, hget, -⟩ <;> rw [hget] <;> rfl
  · rfl

/-- Writing one file does not decide whether another can be written. -/
theorem canWrite_put {host : Host} (h : fs.CanWrite loc) (key : Location) :
    (fs.put loc (written host bytes)).CanWrite key ↔ fs.CanWrite key := by
  unfold CanWrite
  rw [get?_put fs h.ne_nil, h.isWritableAt]
  split
  · next heq =>
    subst heq
    exact ⟨fun _ => h, fun _ => .inr ⟨_, rfl, rfl⟩⟩
  · exact Iff.rfl

theorem write_ok_iff (h : fs.Plain) (hp : p.IsFull) :
    fs.write p bytes = .ok fs' ↔
      ∃ loc, fs.locate .entry p = .ok loc ∧ fs.CanWrite loc ∧
        fs' = fs.put loc (written fs.host bytes) := by
  unfold write answer
  rw [hp.null, locate_aim h hp .file .entry]
  simp only [Bool.false_eq_true, if_false]
  cases hloc : fs.locate .entry p with
  | error err => simp [bind, Except.bind]
  | ok loc =>
    simp only [bind, Except.bind, Except.ok.injEq, exists_eq_left', CanWrite, written]
    cases hget : fs.get? loc with
    | none =>
      cases hw : fs.isWritableAt loc.dropLast with
      | true => simpa [pure, Except.pure, hw] using eq_comm
      | false => simp [throw, throwThe, MonadExceptOf.throw]
    | some e =>
      cases e with
      | file data =>
        cases hd : data.denied with
        | true => simp [hd, throw, throwThe, MonadExceptOf.throw]
        | false => simpa [pure, Except.pure, hd] using eq_comm
      | directory data => simp [throw, throwThe, MonadExceptOf.throw]
      | link target => exact absurd hget (h.links _ _)
      | special mtime size => simp [throw, throwThe, MonadExceptOf.throw]

theorem makeDir_ok_iff (h : fs.Plain) (hp : p.IsFull) :
    fs.makeDir p = .ok fs' ↔
      ∃ loc, fs.locate .entry p = .ok loc ∧ fs.get? loc = none ∧
        fs.isWritableAt loc.dropLast = true ∧ fs' = fs.put loc (.directory fs.host.newDir) := by
  unfold makeDir answer
  rw [hp.null, locate_aim h hp .name .entry]
  simp only [Bool.false_eq_true, if_false]
  cases hloc : fs.locate .entry p with
  | error err => simp [bind, Except.bind]
  | ok loc =>
    simp only [bind, Except.bind, Except.ok.injEq, exists_eq_left']
    cases hget : fs.get? loc with
    | none =>
      cases hw : fs.isWritableAt loc.dropLast with
      | true => simpa [pure, Except.pure, hw] using eq_comm
      | false => simp [throw, throwThe, MonadExceptOf.throw]
    | some e => simp [throw, throwThe, MonadExceptOf.throw]

theorem look_eq_some_iff (hp : p.IsFull) :
    fs.look p = .ok (some e) ↔ ∃ loc, fs.locate .entry p = .ok loc ∧ fs.get? loc = some e := by
  unfold look stat answer
  rw [hp.null]
  simp only [Bool.false_eq_true, if_false]
  cases hloc : fs.locate .entry p with
  | error err => cases err <;> simp [bind, Except.bind, Errno.meansAbsent]
  | ok loc =>
    simp only [bind, Except.bind, Except.ok.injEq, exists_eq_left']
    cases hget : fs.get? loc with
    | none => simp [throw, throwThe, MonadExceptOf.throw, Errno.meansAbsent]
    | some e' => simp [pure, Except.pure]

/-- One file system is the other with further directories, each at a place of the given kind. -/
structure AddsDirs (fs fs' : FileSystem) (place : Location → Prop) : Prop where
  plain : fs'.Plain
  cwd : fs'.cwd = fs.cwd
  host : fs'.host = fs.host
  kept : ∀ loc e, fs.get? loc = some e → fs'.get? loc = some e
  new : ∀ loc, fs.get? loc = none →
    fs'.get? loc = none ∨ (fs'.get? loc = some (.directory fs.host.newDir) ∧ place loc)

variable {place place' : Location → Prop}

theorem AddsDirs.refl (h : fs.Plain) : AddsDirs fs fs place :=
  ⟨h, rfl, rfl, fun _ _ hget => hget, fun _ hget => .inl hget⟩

theorem AddsDirs.mono (h : AddsDirs fs fs' place) (hplace : ∀ loc, place loc → place' loc) :
    AddsDirs fs fs' place' :=
  ⟨h.plain, h.cwd, h.host, h.kept, fun loc hget => (h.new loc hget).imp_right fun hnew =>
    ⟨hnew.1, hplace loc hnew.2⟩⟩

theorem AddsDirs.trans (h : AddsDirs fs fs' place) (h' : AddsDirs fs' fs'' place) :
    AddsDirs fs fs'' place := by
  refine ⟨h'.plain, h'.cwd.trans h.cwd, h'.host.trans h.host,
    fun loc e hget => h'.kept loc e (h.kept loc e hget), fun loc hget => ?_⟩
  rcases h.new loc hget with hnone | ⟨hdir, hplace⟩
  · rw [← h.host]
    exact h'.new loc hnone
  · exact .inr ⟨h'.kept loc _ hdir, hplace⟩

theorem AddsDirs.keepsDirs (h : AddsDirs fs fs' place) : KeepsDirs fs fs' :=
  fun loc _ hget => h.kept loc _ hget

theorem AddsDirs.isSearchableAt (h : AddsDirs fs fs' place) (hopen : fs.isSearchableAt loc = true) :
    fs'.isSearchableAt loc = true := by
  cases hget : fs.get? loc with
  | some e => rwa [FileSystem.isSearchableAt, h.kept loc e hget, ← hget]
  | none =>
    rcases h.new loc hget with hnone | ⟨hnew, -⟩
    · rw [FileSystem.isSearchableAt, hnone]
      rfl
    · rw [FileSystem.isSearchableAt, hnew]
      rfl

/-- Of the names of a path that does lead somewhere, the last one can be the name of an entry. -/
theorem isName_of_mem (hp : p.IsFull) (hmem : n ∈ p.names) (hn : n ≠ ['.', '.']) :
    Path.IsName n where
  toIsPiece := hp.pieces n hmem
  ne_dots := hn
  null := Path.hasNull_eq_false_iff.1 hp.null n hmem

/-- A location that a path leads to and that is free stands in a directory. -/
theorem exists_parent_of_locate (h : fs.Plain) (hp : p.IsFull) {aim : Aim}
    (hloc : fs.locate aim p = .ok loc) (hfree : fs.isDirectoryAt loc = false) :
    ∃ par n, loc = par ++ [n] ∧ Path.IsName n ∧ fs.isDirectoryAt par = true := by
  have hdesc := ((locate_ok_iff h hp aim).1 hloc).2
  rcases descend_ok_cases h (isDirectoryAt_nil fs) hdesc with hdir | ⟨par, n, heq, hmem, hn, hpar⟩
  · rw [hfree] at hdir
    cases hdir
  · exact ⟨par, n, heq, isName_of_mem hp hmem hn, hpar⟩

/-- The directories made on the way to a path without double dots lie on that way. -/
def OnWay (names : List Text) (loc : Location) : Prop :=
  (∀ n ∈ names, n ≠ ['.', '.']) → loc <+: names

theorem onWay_of_locate (h : fs.Plain) (hp : p.IsFull) {aim : Aim}
    (hloc : fs.locate aim p = .ok loc) : OnWay p.names loc := by
  intro hn
  rw [descend_ok_eq hn ((locate_ok_iff h hp aim).1 hloc).2]
  exact List.prefix_refl _

theorem makeDir_ok (h : fs.Plain) (hp : p.IsFull) (hok : fs.makeDir p = .ok fs') :
    AddsDirs fs fs' (OnWay p.names) ∧
      ∃ loc, fs'.locate .entry p = .ok loc ∧ fs'.isDirectoryAt loc = true := by
  obtain ⟨loc, hloc, hnone, -, rfl⟩ := (makeDir_ok_iff h hp).1 hok
  have hfree : fs.isDirectoryAt loc = false := by simp [isDirectoryAt, hnone]
  obtain ⟨par, n, rfl, hn, hpar⟩ := exists_parent_of_locate h hp hloc hfree
  have hne : par ++ [n] ≠ [] := by simp
  have hplain : (fs.put (par ++ [n]) (.directory fs.host.newDir)).Plain :=
    h.put hn hpar hfree fun target hlink => by cases hlink
  refine ⟨⟨hplain, rfl, rfl, fun loc e hget => ?_, fun loc hget => ?_⟩, par ++ [n], ?_, ?_⟩
  · have hloc' : loc ≠ par ++ [n] := by
      rintro rfl
      rw [hnone] at hget
      cases hget
    rw [get?_put fs hne, if_neg hloc', hget]
  · rw [get?_put fs hne]
    split
    · next heq => exact .inr ⟨rfl, heq ▸ onWay_of_locate h hp hloc⟩
    · exact .inl hget
  · exact (keepsDirs_put hne hfree).locate h hplain hp hloc _
  · exact isDirectoryAt_iff.2 ⟨_, by rw [get?_put fs hne, if_pos rfl]⟩

/-- Making a directory that may be there: it is made, or it is there and nothing happens. -/
theorem ensureDir_ok_iff (h : fs.Plain) (hp : p.IsFull) :
    fs.ensureDir p = .ok fs' ↔
      fs.makeDir p = .ok fs' ∨
        (fs' = fs ∧ ∃ loc, fs.locate .entry p = .ok loc ∧ fs.isDirectoryAt loc = true) := by
  have hlook : (∃ loc, fs.locate .entry p = .ok loc ∧ fs.isDirectoryAt loc = true) ↔
      ∃ data, fs.look p = .ok (some (.directory data)) := by
    simp only [isDirectoryAt_iff, look_eq_some_iff hp]
    constructor
    · rintro ⟨loc, hloc, data, hget⟩
      exact ⟨data, loc, hloc, hget⟩
    · rintro ⟨data, loc, hloc, hget⟩
      exact ⟨loc, hloc, data, hget⟩
  rw [hlook]
  unfold ensureDir
  cases hmake : fs.makeDir p with
  | ok fs₁ =>
    constructor
    · exact .inl
    · rintro (hok | ⟨-, data, hdir⟩)
      · exact hok
      · -- what can be made is not there
        obtain ⟨loc, hloc, hnone, -⟩ := (makeDir_ok_iff h hp).1 hmake
        obtain ⟨loc', hloc', hget⟩ := (look_eq_some_iff hp).1 hdir
        rw [hloc] at hloc'
        cases hloc'
        rw [hnone] at hget
        cases hget
  | error failure =>
    have hthere : (∃ data, fs.look p = .ok (some (.directory data))) →
        failure = .refused .alreadyThere p.toText := by
      rintro ⟨data, hdir⟩
      obtain ⟨loc, hloc, hget⟩ := (look_eq_some_iff hp).1 hdir
      unfold makeDir answer at hmake
      rw [hp.null, locate_aim h hp .name .entry, hloc] at hmake
      simp only [Bool.false_eq_true, if_false, bind, Except.bind, hget, throw, throwThe,
        MonadExceptOf.throw, Except.error.injEq] at hmake
      exact hmake.symm
    simp only [reduceCtorEq, false_or]
    cases hl : fs.look p with
    | error failure' =>
      cases failure with
      | refused err t => cases err <;> simp [bind, Except.bind]
      | _ => simp
    | ok found =>
      cases failure with
      | refused err t =>
        by_cases hdir : ∃ data, found = some (.directory data)
        · obtain ⟨data, rfl⟩ := hdir
          obtain ⟨rfl, rfl⟩ := Failure.refused.inj (hthere ⟨data, hl⟩)
          simpa [bind, Except.bind, pure, Except.pure, Entry.isDirectory] using eq_comm
        · have hany : found.any Entry.isDirectory = false := by
            cases found with
            | none => rfl
            | some e => cases e <;> simp_all [Entry.isDirectory]
          cases err <;>
            simp [bind, Except.bind, hany, throw, throwThe, MonadExceptOf.throw] <;> simp_all
      | _ => simp_all

theorem ensureDir_ok (h : fs.Plain) (hp : p.IsFull) (hok : fs.ensureDir p = .ok fs') :
    AddsDirs fs fs' (OnWay p.names) ∧
      ∃ loc, fs'.locate .entry p = .ok loc ∧ fs'.isDirectoryAt loc = true := by
  rcases (ensureDir_ok_iff h hp).1 hok with hmake | ⟨rfl, hthere⟩
  · exact makeDir_ok h hp hmake
  · exact ⟨.refl h, hthere⟩

theorem isFull_of_above {anchor : Anchor} (hp : (⟨anchor, names ++ [n]⟩ : Path).IsFull) :
    (⟨anchor, names⟩ : Path).IsFull where
  anchor := hp.anchor
  pieces m hm := hp.pieces m (List.mem_append_left _ hm)
  null := Path.hasNull_eq_false_iff.2 fun m hm =>
    Path.hasNull_eq_false_iff.1 hp.null m (List.mem_append_left _ hm)

theorem ensureDirsAlong_ok {anchor : Anchor} {reversed : List Text} (h : fs.Plain)
    (hp : (⟨anchor, reversed.reverse⟩ : Path).IsFull)
    (hok : ensureDirsAlong anchor reversed fs = .ok fs') :
    AddsDirs fs fs' (OnWay reversed.reverse) ∧
      ∃ loc, fs'.locate .entry ⟨anchor, reversed.reverse⟩ = .ok loc ∧
        fs'.isDirectoryAt loc = true := by
  induction reversed generalizing fs fs' with
  | nil => exact ensureDir_ok h hp hok
  | cons name above ih =>
    rw [ensureDirsAlong] at hok
    split at hok
    · cases habove : ensureDirsAlong anchor above fs with
      | error failure => simp [habove, bind, Except.bind] at hok
      | ok fs₁ =>
        have hpre : (⟨anchor, above.reverse⟩ : Path).IsFull :=
          isFull_of_above (n := name) (by simpa using hp)
        obtain ⟨hadds, -⟩ := ih h hpre habove
        have hlast : fs₁.ensureDir ⟨anchor, (name :: above).reverse⟩ = .ok fs' := by
          simpa [habove, bind, Except.bind] using hok
        obtain ⟨hadds', hthere⟩ := ensureDir_ok hadds.plain hp hlast
        refine ⟨AddsDirs.trans (hadds.mono fun loc hway hn => ?_) hadds', hthere⟩
        rw [List.reverse_cons] at hn ⊢
        exact (hway fun m hm => hn m (List.mem_append_left _ hm)).trans (List.prefix_append _ _)
    · exact ensureDir_ok h hp hok

theorem ensureDirs_ok (h : fs.Plain) (hp : p.IsFull) (hok : fs.ensureDirs p = .ok fs') :
    AddsDirs fs fs' (OnWay p.names) ∧
      ∃ loc, fs'.locate .entry p = .ok loc ∧ fs'.isDirectoryAt loc = true := by
  have hrev : (⟨p.anchor, p.names.reverse.reverse⟩ : Path) = p := by simp
  have := ensureDirsAlong_ok h (by rwa [hrev]) hok
  rwa [hrev, List.reverse_reverse] at this

/-- No directory is made along a path with a null character. -/
theorem hasNull_of_ensureDirs (hok : fs.ensureDirs p = .ok fs') : p.hasNull = false := by
  by_contra hnull
  rw [Bool.not_eq_false] at hnull
  have hmake : fs.makeDir p = .error .nullCharacter := by
    unfold makeDir answer
    rw [if_pos hnull]
  have hensure : fs.ensureDir p = .error .nullCharacter := by
    unfold ensureDir
    rw [hmake]
  obtain ⟨anchor, names⟩ := p
  unfold ensureDirs at hok
  cases hrev : names.reverse with
  | nil =>
    rw [List.reverse_eq_nil_iff.1 hrev] at hnull
    cases hnull
  | cons name above =>
    have hnames : (name :: above).reverse = names := by rw [← hrev, List.reverse_reverse]
    simp only [hrev, ensureDirsAlong, hnames, hmake, hensure] at hok
    cases hok

theorem ensureDirs_of_isDirectory (h : fs.Plain) (hp : p.IsFull) {aim : Aim}
    (hloc : fs.locate aim p = .ok loc) (hdir : fs.isDirectoryAt loc = true) :
    fs.ensureDirs p = .ok fs := by
  have hensure : fs.ensureDir p = .ok fs :=
    (ensureDir_ok_iff h hp).2 (.inr ⟨rfl, loc, locate_aim h hp aim .entry ▸ hloc, hdir⟩)
  unfold ensureDirs
  obtain ⟨anchor, names⟩ := p
  cases hrev : names.reverse with
  | nil =>
    rw [ensureDirsAlong]
    rwa [List.reverse_eq_nil_iff.1 hrev] at hensure
  | cons name above =>
    have hnames : (name :: above).reverse = names := by rw [← hrev, List.reverse_reverse]
    rw [ensureDirsAlong]
    simp only [hnames]
    split
    · -- a directory that is there is not missing
      next hmake =>
      exfalso
      unfold ensureDir at hensure
      rw [hmake] at hensure
      cases hensure
    · exact hensure

end CodeIndex.FileSystem
