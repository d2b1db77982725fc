import CodeIndex.Proofs.Action
import CodeIndex.Proofs.FileSystem.Query
import CodeIndex.Proofs.Page.Names
import CodeIndex.Proofs.Text.Utf8

/-!
# Writing pages

Writing a page into a directory that is there puts one file for every part of it. The last file
written under a name is the one that stays.
-/

namespace CodeIndex

namespace FileSystem

variable {fs fs' : FileSystem} {L loc : Location} {dir : Path} {n : Text}
  {files more : List (Text × Text)} {f : Text × Text}

/-- The file system with texts written into a directory, one after the other. -/
def putTexts (fs : FileSystem) (L : Location) (files : List (Text × Text)) : FileSystem :=
  files.foldl (fun fs f => fs.put (L ++ [f.1]) (written fs.host (Utf8.encode f.2))) fs

@[simp]
theorem putTexts_nil (fs : FileSystem) (L : Location) : fs.putTexts L [] = fs := rfl

theorem putTexts_cons (fs : FileSystem) (L : Location) (f : Text × Text)
    (files : List (Text × Text)) :
    fs.putTexts L (f :: files) =
      (fs.put (L ++ [f.1]) (written fs.host (Utf8.encode f.2))).putTexts L files := rfl

theorem putTexts_append (fs : FileSystem) (L : Location) (files more : List (Text × Text)) :
    fs.putTexts L (files ++ more) = (fs.putTexts L files).putTexts L more :=
  List.foldl_append

@[simp]
theorem putTexts_cwd (fs : FileSystem) (L : Location) (files : List (Text × Text)) :
    (fs.putTexts L files).cwd = fs.cwd := by
  induction files generalizing fs with
  | nil => rfl
  | cons f files ih => exact ih _

@[simp]
theorem putTexts_host (fs : FileSystem) (L : Location) (files : List (Text × Text)) :
    (fs.putTexts L files).host = fs.host := by
  induction files generalizing fs with
  | nil => rfl
  | cons f files ih => exact ih _

/-- The text that was written last under a name. -/
def lastText? (files : List (Text × Text)) (n : Text) : Option Text :=
  (files.reverse.find? fun f => f.1 = n).map Prod.snd

theorem lastText?_append (files more : List (Text × Text)) (n : Text) :
    lastText? (files ++ more) n = (lastText? more n).or (lastText? files n) := by
  simp only [lastText?, List.reverse_append, List.find?_append]
  cases more.reverse.find? fun f => decide (f.1 = n) <;> simp

/-- Under every name stands the last text written, and all else is as it was. -/
theorem get?_putTexts (fs : FileSystem) (L : Location) (files : List (Text × Text))
    (n : Text) : (fs.putTexts L files).get? (L ++ [n]) =
      ((lastText? files n).map fun t => written fs.host (Utf8.encode t)).or (fs.get? (L ++ [n])) := by
  induction files generalizing fs with
  | nil => rfl
  | cons f files ih =>
    have hlast : lastText? (f :: files) n = (lastText? files n).or (lastText? [f] n) :=
      lastText?_append [f] files n
    rw [putTexts_cons, ih, get?_put fs (by simp), put_host, hlast]
    cases lastText? files n with
    | some t => rfl
    | none =>
      by_cases hn : n = f.1
      · simp [lastText?, hn]
      · simp [lastText?, hn, Ne.symm hn]

theorem get?_putTexts_of_ne (fs : FileSystem) (L : Location) (files : List (Text × Text))
    (hloc : ∀ f ∈ files, loc ≠ L ++ [f.1]) : (fs.putTexts L files).get? loc = fs.get? loc := by
  induction files generalizing fs with
  | nil => rfl
  | cons f files ih =>
    rw [putTexts_cons, ih _ fun g hg => hloc g (List.mem_cons_of_mem _ hg),
      get?_put fs (by simp), if_neg (hloc f List.mem_cons_self)]

theorem mem_of_lastText? {t : Text} (h : lastText? files n = some t) : (n, t) ∈ files := by
  obtain ⟨f, hf, rfl⟩ := Option.map_eq_some_iff.1 h
  have hname : f.1 = n := by simpa using List.find?_some hf
  rw [← hname]
  exact List.mem_reverse.1 (List.mem_of_find?_eq_some hf)

theorem exists_lastText? (hf : f ∈ files) : ∃ t, lastText? files f.1 = some t := by
  have hsome : (files.reverse.find? fun g => g.1 = f.1).isSome :=
    List.find?_isSome.2 ⟨f, List.mem_reverse.2 hf, by simp⟩
  obtain ⟨g, hg⟩ := Option.isSome_iff_exists.1 hsome
  exact ⟨g.2, by simp [lastText?, hg]⟩

/-- Writing the texts that stand there changes nothing. -/
theorem sameEntries_putTexts
    (h : ∀ n t, lastText? files n = some t → fs.get? (L ++ [n]) = some (written fs.host (Utf8.encode t))) :
    SameEntries fs (fs.putTexts L files) := by
  refine ⟨putTexts_cwd fs L files, by rw [putTexts_host], fun loc => ?_⟩
  by_cases hloc : ∃ f ∈ files, loc = L ++ [f.1]
  · obtain ⟨f, hf, rfl⟩ := hloc
    obtain ⟨t, ht⟩ := exists_lastText? hf
    rw [get?_putTexts, ht, h f.1 t ht]
    rfl
  · exact get?_putTexts_of_ne fs L files fun f hf heq => hloc ⟨f, hf, heq⟩

/-- All texts stay exactly if no two different ones were written under one name. -/
theorem putTexts_stay_iff :
    (∀ f ∈ files, (fs.putTexts L files).get? (L ++ [f.1]) = some (written fs.host (Utf8.encode f.2))) ↔
      ∀ f ∈ files, ∀ g ∈ files, f.1 = g.1 → f.2 = g.2 := by
  constructor
  · intro h f hf g hg hname
    have hsame := h f hf
    rw [hname, h g hg] at hsame
    simp only [written, Option.some.injEq, Entry.file.injEq, FileData.mk.injEq, and_true] at hsame
    exact (Utf8.encode_injective hsame).symm
  · intro h f hf
    obtain ⟨t, ht⟩ := exists_lastText? hf
    rw [get?_putTexts, ht, h f hf (f.1, t) (mem_of_lastText? ht) rfl]
    rfl

/-- A directory that pages are written to, and where it is. -/
structure PagesAt (fs : FileSystem) (dir : Path) (L : Location) : Prop where
  plain : fs.Plain
  isFull : dir.IsFull
  located : fs.locate .entry dir = .ok L
  directory : fs.isDirectoryAt L = true

/-- A file can be written under a name in a directory: the name and the path are not too long, the
directory can be searched, and neither a directory nor a file that is denied is there. -/
structure Accepts (fs : FileSystem) (dir : Path) (L : Location) (n : Text) : Prop where
  isName : Path.IsName n
  pathSize : Utf8.size (dir.child n).toText ≤ maxPathSize
  nameSize : Utf8.size n ≤ maxNameSize
  search : fs.isSearchableAt L = true
  canWrite : fs.CanWrite (L ++ [n])

theorem Accepts.congr {fs₁ fs₂ : FileSystem} (hsearch : fs₁.isSearchableAt L = fs₂.isSearchableAt L)
    (hiff : fs₁.CanWrite (L ++ [n]) ↔ fs₂.CanWrite (L ++ [n])) :
    fs₁.Accepts dir L n ↔ fs₂.Accepts dir L n :=
  ⟨fun h => ⟨h.isName, h.pathSize, h.nameSize, hsearch ▸ h.search, hiff.1 h.canWrite⟩,
    fun h => ⟨h.isName, h.pathSize, h.nameSize, hsearch ▸ h.search, hiff.2 h.canWrite⟩⟩

/-- A file that was written can be written again. -/
theorem Accepts.of_written {host : Host} {bytes : Bytes} (h : fs'.Accepts dir L n)
    (hsearch : fs.isSearchableAt L = true)
    (hget : fs.get? (L ++ [n]) = some (written host bytes)) : fs.Accepts dir L n :=
  ⟨h.isName, h.pathSize, h.nameSize, hsearch, canWrite_written hget⟩

theorem SameEntries.accepts (h : SameEntries fs fs') (hacc : fs.Accepts dir L n) :
    fs'.Accepts dir L n := by
  refine (Accepts.congr ?_ ?_).1 hacc
  · rw [isSearchableAt, isSearchableAt, h.get?]
  · rw [CanWrite, CanWrite, isWritableAt, isWritableAt, h.get?, h.get?]

theorem PagesAt.of_keepsDirs (h : fs.PagesAt dir L) (hplain : fs'.Plain) (hk : KeepsDirs fs fs') :
    fs'.PagesAt dir L :=
  ⟨hplain, h.isFull, hk.locate h.plain hplain h.isFull h.located _, hk.isDirectoryAt h.directory⟩

theorem PagesAt.put (h : fs.PagesAt dir L) {host : Host} {bytes : Bytes}
    (hacc : fs.Accepts dir L n) : (fs.put (L ++ [n]) (written host bytes)).PagesAt dir L := by
  have hfree := hacc.canWrite.not_directory
  have hplain := h.plain.put hacc.isName h.directory hfree (e := written host bytes)
    fun target hlink => by cases hlink
  exact h.of_keepsDirs hplain (keepsDirs_put (by simp) hfree)

theorem accepts_put {host : Host} {bytes : Bytes} {m : Text} (hacc : fs.Accepts dir L n) :
    (fs.put (L ++ [n]) (written host bytes)).Accepts dir L m ↔ fs.Accepts dir L m := by
  refine Accepts.congr ?_ (canWrite_put hacc.canWrite _)
  rw [isSearchableAt, get?_put fs (by simp), if_neg (by simp), isSearchableAt]

theorem PagesAt.putTexts (h : fs.PagesAt dir L) (hacc : ∀ f ∈ files, fs.Accepts dir L f.1) :
    (fs.putTexts L files).PagesAt dir L ∧
      ∀ m, (fs.putTexts L files).Accepts dir L m ↔ fs.Accepts dir L m := by
  induction files generalizing fs with
  | nil => exact ⟨h, fun m => Iff.rfl⟩
  | cons f files ih =>
    have hf := hacc f List.mem_cons_self
    obtain ⟨hpages, hiff⟩ := ih (h.put hf) fun g hg =>
      (accepts_put hf).2 (hacc g (List.mem_cons_of_mem _ hg))
    exact ⟨hpages, fun m => (hiff m).trans (accepts_put hf)⟩

theorem keepsDirs_putTexts (hacc : ∀ f ∈ files, fs.Accepts dir L f.1) :
    KeepsDirs fs (fs.putTexts L files) := by
  induction files generalizing fs with
  | nil => exact .refl fs
  | cons f files ih =>
    have hf := hacc f List.mem_cons_self
    refine (keepsDirs_put (by simp) hf.canWrite.not_directory).trans (ih fun g hg => ?_)
    exact (accepts_put hf).2 (hacc g (List.mem_cons_of_mem _ hg))

/-- A name that is accepted stands in its directory. -/
theorem PagesAt.locate_accepted (h : fs.PagesAt dir L) (hsearch : fs.isSearchableAt L = true)
    (hacc : fs'.Accepts dir L n) : fs.locate .entry (dir.child n) = .ok (L ++ [n]) := by
  rw [locate_child h.plain h.isFull hacc.isName h.located h.directory,
    if_neg (by have := hacc.pathSize; omega), hsearch, if_neg (by simp),
    if_neg (by have := hacc.nameSize; omega)]

/-- A text that was written under a name is read there. -/
theorem PagesAt.read_written (h : fs.PagesAt dir L) (hsearch : fs.isSearchableAt L = true)
    (hacc : fs'.Accepts dir L n) {host : Host} {bytes : Bytes}
    (hget : fs.get? (L ++ [n]) = some (written host bytes)) :
    fs.read (dir.child n) = .ok bytes := by
  unfold read answer
  rw [(h.isFull.child hacc.isName).null]
  simp [h.locate_accepted hsearch hacc, bind, Except.bind, hget, written, pure, Except.pure]

theorem PagesAt.isPresent_accepted (h : fs.PagesAt dir L) (hsearch : fs.isSearchableAt L = true)
    (hacc : fs'.Accepts dir L n) {e : Entry} (hget : fs.get? (L ++ [n]) = some e) :
    fs.isPresent (dir.child n) = .ok true := by
  have hlook : fs.look (dir.child n) = .ok (some e) :=
    (look_eq_some_iff (h.isFull.child hacc.isName)).2 ⟨_, h.locate_accepted hsearch hacc, hget⟩
  rw [isPresent, hlook]
  rfl

/-- A file can be written exactly under the names that the directory accepts. -/
theorem PagesAt.write_ok_iff (h : fs.PagesAt dir L) (hn : Path.IsName n) {bytes : Bytes} :
    fs.write (dir.child n) bytes = .ok fs' ↔
      fs.Accepts dir L n ∧ fs' = fs.put (L ++ [n]) (written fs.host bytes) := by
  rw [FileSystem.write_ok_iff h.plain (h.isFull.child hn),
    locate_child h.plain h.isFull hn h.located h.directory]
  constructor
  · rintro ⟨loc, hloc, hcan, rfl⟩
    split at hloc
    · cases hloc
    · cases hsearch : fs.isSearchableAt L with
      | false => simp [hsearch] at hloc
      | true =>
        rw [hsearch, if_neg (by simp)] at hloc
        split at hloc
        · cases hloc
        · cases hloc
          exact ⟨⟨hn, by omega, by omega, hsearch, hcan⟩, rfl⟩
  · rintro ⟨hacc, rfl⟩
    refine ⟨L ++ [n], ?_, hacc.canWrite, rfl⟩
    rw [if_neg (by have := hacc.pathSize; omega), hacc.search, if_neg (by simp),
      if_neg (by have := hacc.nameSize; omega)]

end FileSystem

namespace Page

open FileSystem

variable {fs fs' : FileSystem} {L : Location} {dir : Path} {base content name : Text}
  {f : Text × Text} {files : List (Text × Text)}

/-- A file of a page as it is named in records. -/
def shownName (name n : Text) : Text := name ++ '/' :: n

theorem shownPath_child (dir : Path) {name n : Text} (hname : name ≠ []) :
    shownPath (dir.child name) ((dir.child name).child n) = .ok (shownName name n) := by
  have hrel : ((dir.child name).child n).relativeTo? (dir.child name).parent =
      some ⟨.relative, [name, n]⟩ := by
    rw [Path.child_parent]
    exact Path.relativeTo?_eq_some.2 ⟨rfl, rfl, by simp⟩
  obtain ⟨c, cs, rfl⟩ := List.exists_cons_of_ne_nil hname
  simp only [shownPath, hrel, Path.toText, Path.bareText, Anchor.text, Path.joinNames_cons]
  simp [shownName, Path.joinNames, List.intercalate]

@[simp]
theorem writeFile_quiet (output : Path) (file : Text × Text) : (writeFile output file).Quiet :=
  (Action.Quiet.change _).bind fun _ =>
    (Action.Quiet.writeText _ _).bind fun _ => Action.Quiet.ask _

@[simp]
theorem write_quiet (output : Path) (base content : Text) : (write output base content).Quiet :=
  Action.Quiet.mapM (writeFile_quiet output) _

theorem writeFile_on_ok_iff (h : fs.PagesAt (dir.child name) L) (hname : name ≠ [])
    (hf : Path.IsName f.1) {shown : Text} :
    (writeFile (dir.child name) f).on fs = .ok (shown, fs') ↔
      fs.Accepts (dir.child name) L f.1 ∧ shown = shownName name f.1 ∧
        fs' = fs.put (L ++ [f.1]) (written fs.host (Utf8.encode f.2)) := by
  have hensure : fs.ensureDirs (dir.child name) = .ok fs :=
    ensureDirs_of_isDirectory h.plain h.isFull h.located h.directory
  simp only [writeFile, Path.join_isName _ hf, Path.child_parent]
  rw [Action.on_change_bind_ok_iff fun _ =>
    (Action.Quiet.writeText _ _).bind fun _ => Action.Quiet.ask _]
  simp only [hensure, Except.ok.injEq, exists_eq_left']
  rw [Action.writeText, Action.on_change_bind_ok_iff fun _ => Action.Quiet.ask _]
  simp only [h.write_ok_iff hf, Action.on_ask_ok_iff, shownPath_child dir hname, Except.ok.injEq]
  constructor
  · rintro ⟨fs₁, ⟨hacc, rfl⟩, rfl, rfl⟩
    exact ⟨hacc, rfl, rfl⟩
  · rintro ⟨hacc, rfl, rfl⟩
    exact ⟨_, ⟨hacc, rfl⟩, rfl, rfl⟩

theorem mapM_writeFile_on_ok_iff (h : fs.PagesAt (dir.child name) L) (hname : name ≠ [])
    (hfiles : ∀ f ∈ files, Path.IsName f.1) {pages : List Text} :
    (files.mapM (writeFile (dir.child name))).on fs = .ok (pages, fs') ↔
      (∀ f ∈ files, fs.Accepts (dir.child name) L f.1) ∧
        pages = files.map (fun f => shownName name f.1) ∧ fs' = fs.putTexts L files := by
  induction files generalizing fs fs' pages with
  | nil => simp [eq_comm]
  | cons f files ih =>
    have hquiet : ∀ b, Action.Quiet (files.mapM (writeFile (dir.child name)) >>= fun bs =>
        pure (b :: bs)) := fun b =>
      (Action.Quiet.mapM (writeFile_quiet _) _).bind fun bs => Action.Quiet.pure _
    rw [List.mapM_cons, Action.on_bind_ok_iff hquiet]
    simp only [Action.on_bind_ok_iff fun bs => Action.Quiet.pure _,
      writeFile_on_ok_iff h hname (hfiles f List.mem_cons_self)]
    constructor
    · rintro ⟨b, fs₁, ⟨hacc, rfl, rfl⟩, bs, fs₂, hrest, hpure⟩
      obtain ⟨hall, rfl, rfl⟩ := (ih (h.put hacc) fun g hg =>
        hfiles g (List.mem_cons_of_mem _ hg)).1 hrest
      cases hpure
      refine ⟨fun g hg => ?_, rfl, rfl⟩
      rcases List.mem_cons.1 hg with rfl | hg
      · exact hacc
      · exact (accepts_put hacc).1 (hall g hg)
    · rintro ⟨hall, rfl, rfl⟩
      have hacc := hall f List.mem_cons_self
      refine ⟨_, _, ⟨hacc, rfl, rfl⟩, files.map (fun f => shownName name f.1),
        fs.putTexts L (f :: files), ?_, rfl⟩
      exact (ih (h.put hacc) fun g hg => hfiles g (List.mem_cons_of_mem _ hg)).2
        ⟨fun g hg => (accepts_put hacc).2 (hall g (List.mem_cons_of_mem _ hg)), rfl, rfl⟩

/-- A page is written exactly if all its names are accepted, and then its files are put. -/
theorem write_on_ok_iff (h : fs.PagesAt (dir.child name) L) (hname : name ≠ [])
    (hbase : IsBase base) {pages : List Text} :
    (write (dir.child name) base content).on fs = .ok (pages, fs') ↔
      (∀ f ∈ pageFiles base content, fs.Accepts (dir.child name) L f.1) ∧
        pages = (pageFiles base content).map (fun f => shownName name f.1) ∧
        fs' = fs.putTexts L (pageFiles base content) :=
  mapM_writeFile_on_ok_iff h hname fun _ hf => isName_of_mem_pageFiles hbase hf

end Page

end CodeIndex
