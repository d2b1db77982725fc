import CodeIndex.Proofs.FileSystem.Links
import CodeIndex.Proofs.Page.Clashes
import CodeIndex.Proofs.Page.Write
import Mathlib.Data.List.Basic

/-!
# Reading a page back

The files of a page hold the page: without the headings of their parts, and joined by line feeds, they
are its text again. This is so in any directory in which no two of the names lead to one file; links
can make them do so, and then the part that is written last takes the place of the other.
-/

namespace CodeIndex.Page

open FileSystem

variable {fs made : FileSystem} {output : Path} {base content n t : Text} {f : Text × Text}
  {files : List (Text × Text)} {loc : Location} {place : Text → Location}

/-- What a file of a page holds without the heading that parts have from the second one on. -/
def withoutHeading? (base : Text) (number : Nat) (t : Text) : Option Text :=
  if number ≤ 1 then some t
  else t.dropPrefix? ("# ".toList ++ base ++ " (Part ".toList ++ Nat.toDigits 10 number ++
    ")\n\n".toList)

/-- The page that files with the given texts hold. -/
def reassemble? (base : Text) (texts : List Text) : Option Text :=
  ((texts.zipIdx 1).mapM fun x => withoutHeading? base x.2 x.1).map Text.unlines

theorem withoutHeading?_heading (base : Text) (number : Nat) (t : Text) :
    withoutHeading? base number (partHeading base number ++ t) = some t := by
  unfold withoutHeading? partHeading
  split
  · rfl
  · exact List.dropPrefix?_append_of_beq t (beq_self_eq_true _)

/-- Parts under their headings are found again, whatever number is the first. -/
theorem mapM_withoutHeading? (base : Text) (ps : List Text) (first : Nat) :
    ((ps.mapIdx fun i part => partHeading base (i + first) ++ part).zipIdx first).mapM
      (fun x => withoutHeading? base x.2 x.1) = some ps := by
  induction ps generalizing first with
  | nil => rfl
  | cons part ps ih =>
    have hrest : (fun (i : Nat) (part : Text) => partHeading base (i + 1 + first) ++ part) =
        fun i part => partHeading base (i + (first + 1)) ++ part := by
      funext i part
      rw [Nat.add_right_comm, Nat.add_assoc]
    rw [List.mapIdx_cons, List.zipIdx_cons, List.mapM_cons, Nat.zero_add, withoutHeading?_heading,
      hrest, ih]
    rfl

/-- The files of a page hold the page. -/
theorem reassemble?_pageFiles (base content : Text) :
    reassemble? base ((pageFiles base content).map Prod.snd) = some content := by
  unfold reassemble? pageFiles
  split
  · simp [withoutHeading?, Text.unlines, List.intercalate]
  · have htexts : ((parts content).mapIdx fun i part =>
        (partName base (i + 1), partHeading base (i + 1) ++ part)).map Prod.snd =
        (parts content).mapIdx fun i part => partHeading base (i + 1) ++ part := by
      apply List.ext_getElem <;> simp
    have hparts := mapM_withoutHeading? base (parts content) 1
    rw [← htexts] at hparts
    exact (congrArg (Option.map Text.unlines) hparts).trans (congrArg some (unlines_parts content))

/-- A file in the output directory as it is named in the answer: below the last name of the directory,
if that has one. -/
def shownBelow (output : Path) (n : Text) : Text :=
  match output.name with
  | [] => n
  | name => shownName name n

theorem shownBelow_concat {dir : Path} {name : Text} (hname : name ≠ []) (n : Text) :
    shownBelow (dir.child name) n = shownName name n := by
  unfold shownBelow
  rw [Path.child_name]
  split
  · next hnil => exact absurd rfl hname
  · rfl

theorem shownBelow_injective (output : Path) : Function.Injective (shownBelow output) := by
  intro m n h
  unfold shownBelow at h
  split at h
  · exact h
  · exact List.cons_injective (List.append_cancel_left h)

/-- A directory that is written down has no name, or a last one in another directory. -/
theorem eq_nil_or_child (hpieces : ∀ n ∈ output.names, Path.IsPiece n) :
    output.names = [] ∨ ∃ dir name, output = Path.child dir name ∧ Path.IsPiece name := by
  obtain ⟨anchor, names⟩ := output
  rcases List.eq_nil_or_concat names with hnil | ⟨above, name, rfl⟩
  · exact .inl hnil
  · refine .inr ⟨⟨anchor, above⟩, name, ?_, hpieces name (by simp)⟩
    rw [List.concat_eq_append]
    rfl

theorem shownPath_eq (hpieces : ∀ n ∈ output.names, Path.IsPiece n) (hn : Path.IsName n) :
    shownPath output (output.child n) = .ok (shownBelow output n) := by
  rcases eq_nil_or_child hpieces with hnil | ⟨dir, name, rfl, hname⟩
  · obtain ⟨anchor, names⟩ := output
    obtain rfl : names = [] := hnil
    have hrel : (Path.child ⟨anchor, []⟩ n).relativeTo? (Path.parent ⟨anchor, []⟩) =
        some ⟨.relative, [n]⟩ := Path.relativeTo?_eq_some.2 ⟨rfl, rfl, rfl⟩
    obtain ⟨c, cs, rfl⟩ := List.exists_cons_of_ne_nil hn.ne_nil
    simp [shownPath, hrel, Path.toText, Path.bareText, Anchor.text, Path.joinNames,
      List.intercalate, shownBelow, Path.name]
  · rw [shownPath_child dir hname.ne_nil, shownBelow_concat hname.ne_nil]

/-- The name in the answer leads from above the output directory to the file. -/
theorem join_shownBelow (hpieces : ∀ n ∈ output.names, Path.IsPiece n) (hn : Path.IsName n) :
    output.parent.join (Path.ofText (shownBelow output n)) = output.child n := by
  rcases eq_nil_or_child hpieces with hnil | ⟨dir, name, rfl, hname⟩
  · obtain ⟨anchor, names⟩ := output
    obtain rfl : names = [] := hnil
    exact Path.join_isName _ hn
  · have htext : Path.ofText (shownName name n) = ⟨.relative, [name, n]⟩ := by
      obtain ⟨c, cs, rfl⟩ := List.exists_cons_of_ne_nil hname.ne_nil
      have hc : c ≠ '/' := fun hc => hname.slash (by simp [hc])
      have hanchor : Path.anchorOf (shownName (c :: cs) n) = .relative := by
        unfold Path.anchorOf shownName
        split <;> simp_all
      have hnames : Path.namesOf (shownName (c :: cs) n) = [c :: cs, n] := by
        rw [Path.namesOf, shownName, Text.pieces_append_sep hname.slash,
          Text.pieces_of_notMem hn.slash]
        simp [hn.ne_nil, hn.ne_dot, hname.ne_dot]
      rw [Path.ofText, hanchor, hnames]
    rw [shownBelow_concat hname.ne_nil, htext, Path.child_parent]
    simp [Path.join, Path.child]

/-- The file system with texts written, each where its name leads. -/
def putAt (place : Text → Location) (fs : FileSystem) (files : List (Text × Text)) : FileSystem :=
  files.foldl (fun fs f => fs.put (place f.1) (written fs.host (Utf8.encode f.2))) fs

theorem writeFile_on (hpieces : ∀ n ∈ output.names, Path.IsPiece n) (hn : Path.IsName f.1)
    (hmade : fs.ensureDirs output = .ok made) (hopens : made.Opens (output.child f.1) loc) :
    (writeFile output f).on fs =
      .ok (shownBelow output f.1, made.put loc (written made.host (Utf8.encode f.2))) := by
  simp only [writeFile, Path.join_isName _ hn, Path.child_parent]
  rw [Action.on_change_bind_ok_iff fun _ =>
    (Action.Quiet.writeText _ _).bind fun _ => Action.Quiet.ask _]
  refine ⟨made, hmade, ?_⟩
  rw [Action.writeText, Action.on_change_bind_ok_iff fun _ => Action.Quiet.ask _]
  exact ⟨_, hopens.write _, Action.on_ask_ok_iff.2 ⟨shownPath_eq hpieces hn, rfl⟩⟩

/-- Files that can be written are written one after the other, each of them where its name leads. -/
theorem mapM_writeFile_on (hpieces : ∀ n ∈ output.names, Path.IsPiece n)
    (hnames : ∀ f ∈ files, Path.IsName f.1) (hdir : made.LeadsToDir output)
    (hopens : ∀ f ∈ files, made.Opens (output.child f.1) (place f.1)) :
    (files.mapM (writeFile output)).on made =
      .ok (files.map (fun f => shownBelow output f.1), putAt place made files) := by
  induction files generalizing made with
  | nil => rfl
  | cons f files ih =>
    have hf := hopens f List.mem_cons_self
    have hfirst := writeFile_on hpieces (hnames f List.mem_cons_self) hdir.ensureDirs hf
    have hrest := ih (fun g hg => hnames g (List.mem_cons_of_mem _ hg))
      ((hf.canWrite.keepsWays made.host (Utf8.encode f.2)).leadsToDir hdir)
      fun g hg => (hopens g (List.mem_cons_of_mem _ hg)).put hf.canWrite _ _
    rw [List.mapM_cons, Action.on_bind_ok_iff fun _ =>
      (Action.Quiet.mapM (writeFile_quiet output) _).bind fun _ => Action.Quiet.pure _]
    refine ⟨_, _, hfirst, ?_⟩
    rw [Action.on_bind_ok_iff fun _ => Action.Quiet.pure _]
    exact ⟨_, _, hrest, rfl⟩

/-- The first file makes the output directory, the others find it. -/
theorem mapM_writeFile_on_of_made (hpieces : ∀ n ∈ output.names, Path.IsPiece n)
    (hnames : ∀ f ∈ files, Path.IsName f.1) (hne : files ≠ [])
    (hmade : fs.ensureDirs output = .ok made)
    (hopens : ∀ f ∈ files, made.Opens (output.child f.1) (place f.1)) :
    (files.mapM (writeFile output)).on fs =
      .ok (files.map (fun f => shownBelow output f.1), putAt place made files) := by
  obtain ⟨f, files, rfl⟩ := List.exists_cons_of_ne_nil hne
  have hf := hopens f List.mem_cons_self
  have hn := hnames f List.mem_cons_self
  have hdir := ensureDirs_leadsToDir hmade
  have hsame : (writeFile output f).on fs = (writeFile output f).on made := by
    rw [writeFile_on hpieces hn hmade hf, writeFile_on hpieces hn hdir.ensureDirs hf]
  rw [← mapM_writeFile_on hpieces hnames hdir hopens, List.mapM_cons,
    Action.on_bind fun _ =>
      (Action.Quiet.mapM (writeFile_quiet output) _).bind fun _ => Action.Quiet.pure _,
    Action.on_bind fun _ =>
      (Action.Quiet.mapM (writeFile_quiet output) _).bind fun _ => Action.Quiet.pure _, hsame]

theorem opens_putAt (hcan : ∀ f ∈ files, made.CanWrite (place f.1)) {p : Path}
    (h : made.Opens p loc) : (putAt place made files).Opens p loc := by
  induction files generalizing made with
  | nil => exact h
  | cons f files ih =>
    have hf := hcan f List.mem_cons_self
    exact ih (fun g hg => (canWrite_put hf _).2 (hcan g (List.mem_cons_of_mem _ hg))) (h.put hf _ _)

theorem get?_putAt_of_ne (hcan : ∀ f ∈ files, made.CanWrite (place f.1))
    (hne : ∀ f ∈ files, loc ≠ place f.1) : (putAt place made files).get? loc = made.get? loc := by
  induction files generalizing made with
  | nil => rfl
  | cons f files ih =>
    have hf := hcan f List.mem_cons_self
    have hcan' : ∀ g ∈ files,
        (made.put (place f.1) (written made.host (Utf8.encode f.2))).CanWrite (place g.1) :=
      fun g hg => (canWrite_put hf _).2 (hcan g (List.mem_cons_of_mem f hg))
    refine (ih hcan' fun g hg => hne g (List.mem_cons_of_mem f hg)).trans ?_
    rw [get?_put _ hf.ne_nil, if_neg (hne f List.mem_cons_self)]

/-- Where names lead to different places, every text stays. -/
theorem get?_putAt (hcan : ∀ f ∈ files, made.CanWrite (place f.1))
    (hapart : files.Pairwise fun f g => place f.1 ≠ place g.1) (hf : f ∈ files) :
    (putAt place made files).get? (place f.1) = some (written made.host (Utf8.encode f.2)) := by
  induction files generalizing made with
  | nil => cases hf
  | cons g files ih =>
    obtain ⟨hfirst, hapart⟩ := List.pairwise_cons.1 hapart
    have hg := hcan g List.mem_cons_self
    have hcan' : ∀ h ∈ files,
        (made.put (place g.1) (written made.host (Utf8.encode g.2))).CanWrite (place h.1) :=
      fun h hh => (canWrite_put hg _).2 (hcan h (List.mem_cons_of_mem g hh))
    rcases List.mem_cons.1 hf with rfl | hf
    · refine (get?_putAt_of_ne hcan' hfirst).trans ?_
      rw [get?_put _ hg.ne_nil, if_pos rfl]
    · exact ih hcan' hapart hf

/-- What is said of a page that was written: the names in the answer, and that the page can be read
back through them. -/
structure Reassembles (fs : FileSystem) (output : Path) (base content : Text) (pages : List Text) :
    Prop where
  whole : content.length ≤ 32000 → pages = [shownBelow output (base ++ ".md".toList)]
  parts : 32000 < content.length → ∃ count, pages = (List.range count).map fun i =>
    shownBelow output (base ++ "_part".toList ++ Nat.toDigits 10 (i + 1) ++ ".md".toList)
  nodup : pages.Nodup
  /-- The texts of the files, in the order of the answer, are the page. -/
  content : ∃ texts, List.Forall₂ (fun page t =>
      fs.read (output.parent.join (Path.ofText page)) = .ok (Utf8.encode t)) pages texts ∧
    reassemble? base texts = some content

theorem isName_of_opens (hbase : '/' ∉ base) (hf : f ∈ pageFiles base content)
    (hopens : made.Opens (output.child f.1) loc) : Path.IsName f.1 := by
  have hnull : '\x00' ∉ f.1 := Path.hasNull_eq_false_iff.1 hopens.null f.1 (by simp)
  obtain ⟨stem, hstem, hname⟩ := exists_stem hf
  rw [hname] at hnull ⊢
  exact isName_append_md (hstem.notMem hbase (by decide) (by decide)) fun hmem =>
    hnull (List.mem_append_left _ hmem)

/-- Where a name in the output directory leads. -/
def placeOf (fs : FileSystem) (output : Path) (n : Text) : Location :=
  (fs.locate .file (output.child n)).toOption.getD []

theorem placeOf_eq (hopens : made.Opens (output.child n) loc) : placeOf made output n = loc := by
  rw [placeOf, hopens.located]
  rfl

/-- What was written in files at different places is read back through the answer. -/
theorem reassembles_putAt (hpieces : ∀ n ∈ output.names, Path.IsPiece n)
    (hnames : ∀ f ∈ pageFiles base content, Path.IsName f.1)
    (hopens : ∀ f ∈ pageFiles base content, made.Opens (output.child f.1) (place f.1))
    (hapart : (pageFiles base content).Pairwise fun f g => place f.1 ≠ place g.1) :
    Reassembles (putAt place made (pageFiles base content)) output base content
      ((pageFiles base content).map fun f => shownBelow output f.1) := by
  have hcan : ∀ f ∈ pageFiles base content, made.CanWrite (place f.1) :=
    fun f hf => (hopens f hf).canWrite
  have hshown : (pageFiles base content).map (fun f => shownBelow output f.1) =
      ((pageFiles base content).map Prod.fst).map (shownBelow output) := by simp
  refine ⟨fun hle => ?_, fun hlt => ⟨(Page.parts content).length, ?_⟩, ?_,
    (pageFiles base content).map Prod.snd, ?_, reassemble?_pageFiles base content⟩
  · have hwhole : content.length ≤ maxChars := hle
    rw [pageFiles, if_pos hwhole]
    rfl
  · rw [hshown, names_parts base hlt, List.map_map]
    rfl
  · rw [hshown]
    exact (nodup_names base content).map (shownBelow_injective output)
  · rw [List.forall₂_map_left_iff, List.forall₂_map_right_iff, List.forall₂_same]
    intro f hf
    rw [join_shownBelow hpieces (hnames f hf)]
    exact (opens_putAt hcan (hopens f hf)).read (get?_putAt hcan hapart hf)

/-- A page that can be written where no two of its names lead to one file is written, and it can be
read back. -/
theorem written_page_reassembles {dir : Text} (hbase : '/' ∉ base)
    (hmade : fs.ensureDirs (Path.ofText dir) = .ok made)
    (hopens : ∀ f ∈ pageFiles base content, ∃ loc, made.Opens ((Path.ofText dir).child f.1) loc)
    (hapart : ∀ f ∈ pageFiles base content, ∀ g ∈ pageFiles base content, ∀ loc,
      made.Opens ((Path.ofText dir).child f.1) loc → made.Opens ((Path.ofText dir).child g.1) loc →
        f.1 = g.1) :
    ∃ pages fs', (write (Path.ofText dir) base content).on fs = .ok (pages, fs') ∧
      Reassembles fs' (Path.ofText dir) base content pages := by
  have hpieces : ∀ n ∈ (Path.ofText dir).names, Path.IsPiece n :=
    fun n hn => Path.isPiece_of_mem_ofText hn
  have hnames : ∀ f ∈ pageFiles base content, Path.IsName f.1 := by
    intro f hf
    obtain ⟨loc, hloc⟩ := hopens f hf
    exact isName_of_opens hbase hf hloc
  have hplaces : ∀ f ∈ pageFiles base content, made.Opens ((Path.ofText dir).child f.1)
      (placeOf made (Path.ofText dir) f.1) := by
    intro f hf
    obtain ⟨loc, hloc⟩ := hopens f hf
    rwa [placeOf_eq hloc]
  have hdifferent : (pageFiles base content).Pairwise fun f g =>
      placeOf made (Path.ofText dir) f.1 ≠ placeOf made (Path.ofText dir) g.1 := by
    refine (List.pairwise_map.1 (nodup_names base content)).imp_of_mem ?_
    intro f g hf hg hne heq
    exact hne (hapart f hf g hg _ (hplaces f hf) (heq ▸ hplaces g hg))
  exact ⟨_, _, mapM_writeFile_on_of_made hpieces hnames (pageFiles_ne_nil base content) hmade hplaces,
    reassembles_putAt hpieces hnames hplaces hdifferent⟩

/-- A line that fills a part. -/
def fullLine : Text := List.replicate 31999 'a'

/-- A page of two lines that do not fit into one part. -/
def twoParts : Text := fullLine ++ "\nb".toList

theorem length_fullLine : fullLine.length = 31999 := List.length_replicate

theorem pageFiles_twoParts : pageFiles "x".toList twoParts =
    [("x_part1.md".toList, fullLine), ("x_part2.md".toList, "# x (Part 2)\n\nb".toList)] := by
  have hline : '\n' ∉ fullLine := by
    intro hmem
    rw [fullLine] at hmem
    exact absurd (List.eq_of_mem_replicate hmem) (by decide)
  have hlines : Text.lines twoParts = [fullLine, "b".toList] := by
    have hend : Text.pieces '\n' "b".toList = ["b".toList] := by decide
    rw [Text.lines, twoParts, show "\nb".toList = '\n' :: "b".toList by decide,
      Text.pieces_append_sep hline, hend]
  have hparts : Page.parts twoParts = [fullLine, "b".toList] := by
    simp [Page.parts, hlines, cutLines, fillStep, maxChars, Text.unlines, List.intercalate,
      length_fullLine]
  have hlong : ¬twoParts.length ≤ maxChars := by
    simp [twoParts, maxChars, length_fullLine]
  have hfirst : partHeading "x".toList (0 + 1) = [] := rfl
  have hsecond : partHeading "x".toList (0 + 1 + 1) ++ "b".toList = "# x (Part 2)\n\nb".toList := by
    decide
  rw [pageFiles, if_neg hlong, hparts, List.mapIdx_cons, List.mapIdx_cons, List.mapIdx_nil, hfirst,
    hsecond, List.nil_append]
  rfl

/-- A directory for pages behind a link. -/
def linkedOutput : FileSystem :=
  (((FileSystem.empty .standard []).put ["w".toList] .openDir).put
    ["w".toList, "real".toList] .openDir).put
    ["w".toList, "out".toList] (.link "real".toList)

/-- The page comes back from the two files behind the link. -/
theorem linkedOutput_reassembles :
    ∃ pages fs', (write (Path.ofText "/w/out".toList) "x".toList twoParts).on linkedOutput =
        .ok (pages, fs') ∧
      Reassembles fs' (Path.ofText "/w/out".toList) "x".toList twoParts pages := by
  have hdir : linkedOutput.LeadsToDir (Path.ofText "/w/out".toList) :=
    ⟨by decide, ["w".toList, "real".toList], _, by decide +kernel, rfl⟩
  have hopens : ∀ n ∈ ["x_part1.md".toList, "x_part2.md".toList],
      linkedOutput.Opens ((Path.ofText "/w/out".toList).child n) ["w".toList, "real".toList, n] := by
    simp only [List.forall_mem_cons]
    refine ⟨⟨by decide, by decide +kernel, .inl ⟨by decide +kernel, by decide +kernel⟩⟩,
      ⟨by decide, by decide +kernel, .inl ⟨by decide +kernel, by decide +kernel⟩⟩, by simp⟩
  have hnames : ∀ f ∈ pageFiles "x".toList twoParts,
      f.1 ∈ ["x_part1.md".toList, "x_part2.md".toList] := by
    rw [pageFiles_twoParts]
    exact List.forall_mem_cons.2 ⟨List.mem_cons_self, List.forall_mem_singleton.2 (by simp)⟩
  refine written_page_reassembles (by decide) hdir.ensureDirs (fun f hf => ?_) ?_
  · exact ⟨_, hopens f.1 (hnames f hf)⟩
  · intro f hf g hg loc hfloc hgloc
    have hsame := (placeOf_eq (hopens f.1 (hnames f hf))).symm.trans (placeOf_eq hfloc)
    have hsame' := (placeOf_eq (hopens g.1 (hnames g hg))).symm.trans (placeOf_eq hgloc)
    simpa using hsame.trans hsame'.symm

/-- A directory in which the second part of a page would be written to the first. -/
def aliasedParts : FileSystem :=
  (((FileSystem.empty .standard []).put ["w".toList] .openDir).put
    ["w".toList, "out".toList] .openDir).put
    ["w".toList, "out".toList, "x_part2.md".toList] (.link "x_part1.md".toList)

/-- The page is written and lost: both names lead to the second part. -/
theorem aliasedParts_lost :
    ∃ pages fs', (write (Path.ofText "/w/out".toList) "x".toList twoParts).on aliasedParts =
        .ok (pages, fs') ∧
      ¬Reassembles fs' (Path.ofText "/w/out".toList) "x".toList twoParts pages := by
  have hdir : aliasedParts.LeadsToDir (Path.ofText "/w/out".toList) :=
    ⟨by decide, ["w".toList, "out".toList], _, by decide +kernel, rfl⟩
  have hpieces : ∀ n ∈ (Path.ofText "/w/out".toList).names, Path.IsPiece n :=
    fun n hn => Path.isPiece_of_mem_ofText hn
  have hopens : ∀ f ∈ pageFiles "x".toList twoParts, aliasedParts.Opens
      ((Path.ofText "/w/out".toList).child f.1)
      ["w".toList, "out".toList, "x_part1.md".toList] := by
    rw [pageFiles_twoParts]
    exact List.forall_mem_cons.2 ⟨⟨by decide, by decide +kernel, .inl ⟨by decide +kernel, by decide +kernel⟩⟩,
      List.forall_mem_singleton.2 ⟨by decide, by decide +kernel, .inl ⟨by decide +kernel, by decide +kernel⟩⟩⟩
  have hnames : ∀ f ∈ pageFiles "x".toList twoParts, Path.IsName f.1 := fun f hf =>
    isName_of_opens (by decide) hf (hopens f hf)
  have hwrite : (write (Path.ofText "/w/out".toList) "x".toList twoParts).on aliasedParts = .ok (_,
      putAt (fun _ => ["w".toList, "out".toList, "x_part1.md".toList]) aliasedParts
        (pageFiles "x".toList twoParts)) := mapM_writeFile_on hpieces hnames hdir hopens
  refine ⟨_, _, hwrite, fun hre => ?_⟩
  -- whatever is read is the part that was written last
  have hget : (putAt (fun _ => ["w".toList, "out".toList, "x_part1.md".toList]) aliasedParts
      (pageFiles "x".toList twoParts)).get? ["w".toList, "out".toList, "x_part1.md".toList] =
        some (written aliasedParts.host (Utf8.encode "# x (Part 2)\n\nb".toList)) := by
    rw [pageFiles_twoParts]
    exact (get?_put _ (by simp) _ _).trans (if_pos rfl)
  have hlast : ∀ f ∈ pageFiles "x".toList twoParts, ∀ t,
      (putAt (fun _ => ["w".toList, "out".toList, "x_part1.md".toList]) aliasedParts
        (pageFiles "x".toList twoParts)).read ((Path.ofText "/w/out".toList).parent.join
          (Path.ofText (shownBelow (Path.ofText "/w/out".toList) f.1))) = .ok (Utf8.encode t) →
      t = "# x (Part 2)\n\nb".toList := by
    intro f hf t ht
    rw [join_shownBelow hpieces (hnames f hf), (opens_putAt (fun g hg => (hopens g hg).canWrite)
      (hopens f hf)).read hget] at ht
    exact (Utf8.encode_injective (Except.ok.inj ht)).symm
  obtain ⟨texts, hread, htexts⟩ := hre.content
  rw [List.forall₂_map_left_iff, pageFiles_twoParts] at hread
  rw [pageFiles_twoParts] at hlast
  obtain ⟨t, rest, ht, hrest, rfl⟩ := List.forall₂_cons_left_iff.1 hread
  obtain ⟨u, rest, hu, hnone, rfl⟩ := List.forall₂_cons_left_iff.1 hrest
  obtain rfl := List.forall₂_nil_left_iff.1 hnone
  rw [hlast _ List.mem_cons_self t ht, hlast _ (List.mem_cons_of_mem _ List.mem_cons_self) u hu]
    at htexts
  have hboth : reassemble? "x".toList ["# x (Part 2)\n\nb".toList, "# x (Part 2)\n\nb".toList] =
      some "# x (Part 2)\n\nb\nb".toList := by decide +kernel
  have hpage : "# x (Part 2)\n\nb\nb".toList = twoParts :=
    Option.some.inj (hboth.symm.trans htexts)
  have hlength := congrArg List.length hpage
  rw [twoParts, List.length_append, length_fullLine] at hlength
  exact absurd hlength (by decide)

end CodeIndex.Page
