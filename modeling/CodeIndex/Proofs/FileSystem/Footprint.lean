import CodeIndex.Proofs.FileSystem.Resolve

/-!
# Where changes show

Without links a path leads to one location only, its own with the double dots taken out, whatever is
in the file system. So writing along a path shows at that location alone, and making directories
shows in no file.
-/

namespace CodeIndex.FileSystem

variable {fs fs' fs'' : FileSystem} {loc cur : Location} {n : Text} {names : List Text} {p : Path}
  {bytes : Bytes} {place place' : Location → Prop}

/-- What is said of the file at a location, if a file is there. -/
def fileAt? (fs : FileSystem) (loc : Location) : Option FileData :=
  match fs.get? loc with
  | some (.file data) => some data
  | _ => none

theorem fileAt?_eq_none (h : fs.isDirectoryAt loc = true) : fs.fileAt? loc = none := by
  obtain ⟨data, hget⟩ := isDirectoryAt_iff.1 h
  rw [fileAt?, hget]

theorem fileAt?_congr (h : fs'.get? loc = fs.get? loc) : fs'.fileAt? loc = fs.fileAt? loc := by
  rw [fileAt?, fileAt?, h]

theorem fileAt?_written {host : Host} (h : fs.get? loc = some (written host bytes)) :
    fs.fileAt? loc = some ⟨bytes, host.clock, false⟩ := by
  rw [fileAt?, h]
  rfl

/-- The location that a path leads to if it leads anywhere. -/
def homeOf (p : Path) : Location := collapse p.names

theorem homeOf_child (p : Path) (hn : n ≠ ['.', '.']) : homeOf (p.child n) = homeOf p ++ [n] := by
  rw [homeOf, homeOf, collapse, collapse, Path.child_names, List.foldl_append, List.foldl_cons,
    List.foldl_nil, if_neg hn]

theorem descend_ok_foldl (hok : fs.descend cur names = .ok loc) :
    loc = names.foldl (fun done name =>
      if name = ['.', '.'] then done.dropLast else done ++ [name]) cur := by
  induction names generalizing cur with
  | nil => exact (Except.ok.inj hok).symm
  | cons name rest ih =>
    -- a name that is the last one is where the way ends
    have hlast : ∀ {err : Errno}, name ≠ ['.', '.'] →
        (if rest.isEmpty then .ok (cur ++ [name]) else .error err) = Except.ok loc →
        loc = (name :: rest).foldl (fun done name =>
          if name = ['.', '.'] then done.dropLast else done ++ [name]) cur := by
      intro err hname hif
      split at hif
      · next hempty =>
        cases hif
        rw [List.isEmpty_iff.1 hempty, List.foldl_cons, List.foldl_nil, if_neg hname]
      · cases hif
    rw [descend] at hok
    split at hok
    · cases hok
    split at hok
    · next hname =>
      rw [List.foldl_cons, if_pos hname]
      exact ih hok
    · next hname =>
      split at hok
      · cases hok
      · split at hok
        · rw [List.foldl_cons, if_neg hname]
          exact ih hok
        · exact hlast hname hok
        · exact hlast hname hok

theorem locate_home (h : fs.Plain) (hp : p.IsFull) {aim : Aim} (hok : fs.locate aim p = .ok loc) :
    loc = homeOf p :=
  descend_ok_foldl ((locate_ok_iff h hp aim).1 hok).2

/-- One file system is the other but for files at places of the given kind and for further
directories. -/
structure Spares (place : Location → Prop) (fs fs' : FileSystem) : Prop where
  plain : fs'.Plain
  dirs : KeepsDirs fs fs'
  cwd : fs'.cwd = fs.cwd
  host : fs'.host = fs.host
  files : ∀ loc, ¬place loc → fs'.fileAt? loc = fs.fileAt? loc

namespace Spares

theorem refl (h : fs.Plain) : Spares place fs fs := ⟨h, .refl fs, rfl, rfl, fun _ _ => rfl⟩

theorem trans (h : Spares place fs fs') (h' : Spares place fs' fs'') : Spares place fs fs'' :=
  ⟨h'.plain, h.dirs.trans h'.dirs, h'.cwd.trans h.cwd, h'.host.trans h.host,
    fun loc hloc => (h'.files loc hloc).trans (h.files loc hloc)⟩

theorem mono (h : Spares place fs fs') (hplace : ∀ loc, place loc → place' loc) :
    Spares place' fs fs' :=
  { h with files := fun loc hloc => h.files loc fun hp => hloc (hplace loc hp) }

end Spares

theorem AddsDirs.spares (h : AddsDirs fs fs' place') : Spares place fs fs' := by
  refine ⟨h.plain, h.keepsDirs, h.cwd, h.host, fun loc _ => ?_⟩
  cases hget : fs.get? loc with
  | some e => exact fileAt?_congr (by rw [h.kept loc e hget, hget])
  | none =>
    rcases h.new loc hget with hnone | ⟨hdir, -⟩
    · exact fileAt?_congr (by rw [hnone, hget])
    · rw [fileAt?_eq_none (isDirectoryAt_iff.2 ⟨_, hdir⟩), fileAt?, hget]

/-- A directory is made without a change to any file. -/
theorem spares_of_ensureDirs (h : fs.Plain) (hok : fs.ensureDirs p = .ok fs')
    (ha : p.anchor ≠ .relative) (hpieces : ∀ n ∈ p.names, Path.IsPiece n) : Spares place fs fs' :=
  (ensureDirs_ok h ⟨ha, hpieces, hasNull_of_ensureDirs hok⟩ hok).1.spares

theorem hasNull_of_write (hok : fs.write p bytes = .ok fs') : p.hasNull = false := by
  by_contra hnull
  rw [Bool.not_eq_false] at hnull
  unfold write answer at hok
  rw [if_pos hnull] at hok
  cases hok

/-- A file is written where its path leads, and nowhere else. -/
theorem write_home (h : fs.Plain) (hok : fs.write p bytes = .ok fs') (ha : p.anchor ≠ .relative)
    (hpieces : ∀ n ∈ p.names, Path.IsPiece n) :
    Spares (· = homeOf p) fs fs' ∧ fs'.get? (homeOf p) = some (written fs.host bytes) := by
  have hfull : p.IsFull := ⟨ha, hpieces, hasNull_of_write hok⟩
  obtain ⟨loc, hloc, hcan, rfl⟩ := (write_ok_iff h hfull).1 hok
  obtain ⟨par, n, heq, hn, hpar⟩ := exists_parent_of_locate h hfull hloc hcan.not_directory
  have hplain : (fs.put loc (written fs.host bytes)).Plain := by
    rw [heq]
    exact h.put hn hpar (heq ▸ hcan.not_directory) fun target hlink => by cases hlink
  obtain rfl : loc = homeOf p := locate_home h hfull hloc
  refine ⟨⟨hplain, keepsDirs_put hcan.ne_nil hcan.not_directory, rfl, rfl, fun key hkey => ?_⟩, ?_⟩
  · exact fileAt?_congr (by rw [get?_put fs hcan.ne_nil, if_neg hkey])
  · rw [get?_put fs hcan.ne_nil, if_pos rfl]

end CodeIndex.FileSystem
