import CodeIndex.Proofs.FileSystem.Footprint
import CodeIndex.Proofs.FileSystem.Links
import CodeIndex.Proofs.Page.Lines
import CodeIndex.Proofs.Page.Reassembly

/-!
# The sizes of page files

A page whose lines are short is cut into parts below the limit. The headings are put in front of the
parts afterwards, so a file can go over the limit, by its heading and no more. This is said of every
file that writing a page changes, wherever its names lead and wherever it ends.
-/

namespace CodeIndex

namespace FileSystem

variable {fs fs' fs'' : FileSystem} {loc : Location} {p : Path} {bytes : Bytes} {data : FileData}

/-- A change that closes no way and touches no file. -/
structure KeepsFiles (fs fs' : FileSystem) : Prop extends KeepsWays fs fs' where
  host : fs'.host = fs.host
  files : ∀ loc, fs'.fileAt? loc = fs.fileAt? loc

theorem KeepsFiles.refl (fs : FileSystem) : KeepsFiles fs fs := ⟨.refl fs, rfl, fun _ => rfl⟩

theorem KeepsFiles.trans (h : KeepsFiles fs fs') (h' : KeepsFiles fs' fs'') : KeepsFiles fs fs'' :=
  ⟨h.toKeepsWays.trans h'.toKeepsWays, h'.host.trans h.host,
    fun loc => (h'.files loc).trans (h.files loc)⟩

theorem keepsFiles_of_makeDir (hok : fs.makeDir p = .ok fs') : KeepsFiles fs fs' := by
  obtain ⟨-, loc, -, hget, hne, rfl⟩ := exists_put_of_makeDir hok
  refine ⟨keepsWays_makeDir hget hne, rfl, fun key => ?_⟩
  by_cases hkey : key = loc
  · rw [hkey, fileAt?_eq_none, fileAt?, hget]
    exact isDirectoryAt_iff.2 ⟨_, by rw [get?_put fs hne, if_pos rfl]⟩
  · exact fileAt?_congr (by rw [get?_put fs hne, if_neg hkey])

theorem keepsFiles_of_ensureDir (hok : fs.ensureDir p = .ok fs') : KeepsFiles fs fs' := by
  unfold ensureDir at hok
  split at hok
  · cases hok
  · obtain ⟨found, -, hok⟩ := bind_ok_iff.1 hok
    split at hok
    · cases hok
      exact .refl fs
    · cases hok
  · exact keepsFiles_of_makeDir hok

theorem keepsFiles_of_ensureDirsAlong {anchor : Anchor} {reversed : List Text}
    (hok : ensureDirsAlong anchor reversed fs = .ok fs') : KeepsFiles fs fs' := by
  induction reversed generalizing fs' with
  | nil => exact keepsFiles_of_ensureDir hok
  | cons name above ih =>
    rw [ensureDirsAlong] at hok
    split at hok
    · obtain ⟨fs₁, habove, hok⟩ := bind_ok_iff.1 hok
      exact (ih habove).trans (keepsFiles_of_ensureDir hok)
    · exact keepsFiles_of_ensureDir hok

/-- Directories are made without a change to any file. -/
theorem keepsFiles_of_ensureDirs (hok : fs.ensureDirs p = .ok fs') : KeepsFiles fs fs' :=
  keepsFiles_of_ensureDirsAlong hok

theorem get?_of_fileAt? (h : fs.fileAt? loc = some data) : fs.get? loc = some (.file data) := by
  unfold fileAt? at h
  split at h
  · rw [← Option.some.inj h]
    assumption
  · cases h

/-- A path leads on to the place it has led to. -/
theorem KeepsWays.look_file (h : KeepsWays fs fs') {e : Entry} (hlook : fs.look p = .ok (some e)) :
    ∃ loc, fs.get? loc = some e ∧ ∀ e', fs'.get? loc = some e' → fs'.look p = .ok (some e') := by
  obtain ⟨hnull, loc, hloc, hget⟩ := stat_ok_iff.1 (look_some_iff.1 hlook)
  refine ⟨loc, hget, fun e' hget' => look_some_iff.2 (stat_ok_iff.2 ⟨hnull, loc, ?_, hget'⟩)⟩
  exact h.locate hloc (fun haim => haim) Iff.rfl

end FileSystem

namespace Page

open CodeIndex.Action FileSystem

variable {fs fs₀ : FileSystem} {output : Path} {base content t : Text} {f : Text × Text}
  {files : List (Text × Text)} {done : List Path} {texts : Text → Prop} {number : Nat}

/-- What holds while files are written that shall hold texts of a kind: every file that is not as it was
holds such a text, and so does every path that has been written along. -/
structure Holding (texts : Text → Prop) (fs₀ : FileSystem) (done : List Path) (fs : FileSystem) :
    Prop where
  host : fs.host = fs₀.host
  changed : ∀ loc, fs.fileAt? loc = fs₀.fileAt? loc ∨
    ∃ t, texts t ∧ fs.fileAt? loc = some ⟨Utf8.encode t, fs₀.host.clock, false⟩
  done : ∀ p ∈ done, ∃ t, texts t ∧ fs.look p = .ok (some (written fs₀.host (Utf8.encode t)))

namespace Holding

theorem refl (texts : Text → Prop) (fs : FileSystem) : Holding texts fs [] fs :=
  ⟨rfl, fun _ => .inl rfl, by simp⟩

theorem forget (h : Holding texts fs₀ done fs) : Holding texts fs₀ [] fs :=
  ⟨h.host, h.changed, by simp⟩

theorem keepsFiles {fs' : FileSystem} (h : Holding texts fs₀ done fs) (hkeeps : KeepsFiles fs fs') :
    Holding texts fs₀ done fs' := by
  refine ⟨hkeeps.host.trans h.host, fun loc => (hkeeps.files loc).symm ▸ h.changed loc,
    fun p hp => ?_⟩
  obtain ⟨t, ht, hlook⟩ := h.done p hp
  obtain ⟨loc, hget, hleads⟩ := hkeeps.toKeepsWays.look_file hlook
  have hfile := (hkeeps.files loc).trans (fileAt?_written hget)
  exact ⟨t, ht, hleads _ (get?_of_fileAt? hfile)⟩

/-- A file that is written may take the place of another one of the same kind. -/
theorem write {fs' : FileSystem} {p : Path} (h : Holding texts fs₀ done fs) (ht : texts t)
    (hok : fs.write p (Utf8.encode t) = .ok fs') : Holding texts fs₀ (done ++ [p]) fs' := by
  have hlook := look_of_write hok
  obtain ⟨loc, hopens, rfl⟩ := write_ok_iff_opens.1 hok
  have hcan := hopens.canWrite
  rw [h.host] at hlook ⊢
  have hput : ∀ key, (fs.put loc (written fs₀.host (Utf8.encode t))).get? key =
      if key = loc then some (written fs₀.host (Utf8.encode t)) else fs.get? key :=
    fun key => get?_put fs hcan.ne_nil _ key
  refine ⟨h.host, fun key => ?_, fun q hq => ?_⟩
  · by_cases hkey : key = loc
    · exact .inr ⟨t, ht, fileAt?_written (by rw [hput, if_pos hkey])⟩
    · have hsame : (fs.put loc (written fs₀.host (Utf8.encode t))).fileAt? key = fs.fileAt? key :=
        fileAt?_congr (by rw [hput, if_neg hkey])
      rw [hsame]
      exact h.changed key
  · rcases List.mem_append.1 hq with hq | hq
    · obtain ⟨u, hu, hlook⟩ := h.done q hq
      obtain ⟨key, hget, hleads⟩ := (hcan.keepsWays fs₀.host (Utf8.encode t)).look_file hlook
      by_cases hkey : key = loc
      · exact ⟨t, ht, hleads _ (by rw [hput, if_pos hkey])⟩
      · exact ⟨u, hu, hleads _ (by rw [hput, if_neg hkey, hget])⟩
    · exact ⟨t, ht, List.mem_singleton.1 hq ▸ hlook⟩

theorem writeFile (h : Holding texts fs₀ done fs) (hf : texts f.2) (output : Path) :
    Leaves (writeFile output f) fs
      (fun _ => Holding texts fs₀ (done ++ [output.join (Path.ofText f.1)]))
      fun _ => Holding texts fs₀ [] := by
  refine .change_bind (fun fs₁ hmake => ?_) fun _ _ => h.forget
  have h₁ := h.keepsFiles (keepsFiles_of_ensureDirs hmake)
  refine .change_bind (fun fs₂ hwrite => ?_) fun _ _ => h₁.forget
  have h₂ := h₁.write hf hwrite
  exact .ask (fun _ _ => h₂) fun _ _ => h₂.forget

/-- Files are written one after the other, and writing may end at each of them. -/
theorem mapM (h : Holding texts fs₀ done fs) (hfiles : ∀ f ∈ files, texts f.2) (output : Path) :
    Leaves (files.mapM (Page.writeFile output)) fs
      (fun _ => Holding texts fs₀ (done ++ files.map fun f => output.join (Path.ofText f.1)))
      fun _ => Holding texts fs₀ [] := by
  induction files generalizing fs done with
  | nil =>
    rw [List.map_nil, List.append_nil]
    exact .pure h
  | cons f files ih =>
    rw [List.mapM_cons]
    refine .bind _ (h.writeFile (hfiles f List.mem_cons_self) output) fun _ fs₁ h₁ => ?_
    refine .bind _ (ih h₁ fun g hg => hfiles g (List.mem_cons_of_mem _ hg)) fun _ fs₂ h₂ => ?_
    rw [List.append_assoc] at h₂
    exact .pure h₂

end Holding

theorem length_partHeading (base : Text) (h : 2 ≤ number) :
    (partHeading base number).length = base.length + 12 + (Nat.toDigits 10 number).length := by
  rw [partHeading, if_neg (by omega)]
  simp only [List.length_append, partNumber]
  have hwords : "# ".toList.length = 2 ∧ " (Part ".toList.length = 7 ∧ ")\n\n".toList.length = 3 := by
    decide
  omega

/-- A run of short lines is below the limit as soon as it fits. -/
theorem length_unlines_lt {limit : Nat} {run : List Text} (hne : run ≠ []) (hfits : Fits limit run)
    (hshort : ∀ l ∈ run, l.length < limit) : (Text.unlines run).length < limit := by
  have hsize := length_unlines hne
  rcases hfits with hone | hfits
  · obtain ⟨l, ls, rfl⟩ := List.exists_cons_of_ne_nil hne
    obtain rfl : ls = [] := List.length_eq_zero_iff.1 (by rw [List.length_cons] at hone; omega)
    have hl := hshort l List.mem_cons_self
    rw [linesSize_cons, linesSize] at hsize
    omega
  · omega

theorem length_lt_of_mem_parts {part : Text} (hshort : ∀ l ∈ Text.lines content, l.length < maxChars)
    (hpart : part ∈ parts content) : part.length < maxChars := by
  obtain ⟨run, hrun, rfl⟩ := List.mem_map.1 hpart
  refine length_unlines_lt (cutLines_nonempty _ _ run hrun) (fits_of_mem_cutLines hrun) fun l hl => ?_
  have hmem : l ∈ (cutLines maxChars (Text.lines content)).flatten :=
    List.mem_flatten.2 ⟨run, hrun, hl⟩
  rw [flatten_cutLines] at hmem
  exact hshort l hmem

/-- How long a text in one of `count` files of a page is: the limit holds, or the text is that of a part
from the second one on, and without its heading it is below the limit. -/
inductive IsSized (base : Text) (count : Nat) (t : Text) : Prop where
  | within (size : t.length ≤ 32000)
  | headed (number : Nat) (second : 2 ≤ number) (le : number ≤ count) (part : Text)
      (eq : t = partHeading base number ++ part) (below : part.length < 32000)
      (size : t.length ≤ 32011 + base.length + (Nat.toDigits 10 number).length)

theorem isSized_of_mem (hshort : ∀ l ∈ Text.lines content, l.length < 32000)
    (hf : f ∈ pageFiles base content) : IsSized base (pageFiles base content).length f.2 := by
  by_cases hwhole : content.length ≤ maxChars
  · obtain rfl := (mem_pageFiles_whole hwhole).1 hf
    exact .within hwhole
  · obtain ⟨i, hi, rfl⟩ := (mem_pageFiles_parts (by omega)).1 hf
    have hpart : (parts content)[i].length < 32000 :=
      length_lt_of_mem_parts hshort (List.getElem_mem hi)
    have hcount : (pageFiles base content).length = (parts content).length := by
      rw [pageFiles, if_neg hwhole, List.length_mapIdx]
    by_cases hfirst : i = 0
    · subst hfirst
      exact .within (Nat.le_of_lt hpart)
    · refine .headed (i + 1) (by omega) (by omega) _ rfl hpart ?_
      rw [List.length_append, length_partHeading base (by omega)]
      omega

/-- Lines of which no two fit into one part are parts of their own. -/
theorem cutLines_of_large {limit : Nat} {ls : List Text}
    (hlarge : ∀ l ∈ ls, limit ≤ l.length + 1) : cutLines limit ls = ls.map fun l => [l] := by
  have hone : ∀ run ∈ cutLines limit ls, ∃ l, run = [l] := by
    intro run hrun
    have hmem : ∀ l ∈ run, limit ≤ l.length + 1 := fun l hl =>
      hlarge l (flatten_cutLines limit ls ▸ List.mem_flatten.2 ⟨run, hrun, hl⟩)
    match run, cutLines_nonempty limit ls run hrun, fits_of_mem_cutLines hrun with
    | [l], _, _ => exact ⟨l, rfl⟩
    | l :: l' :: rest, _, .inl hlength => simp at hlength
    | l :: l' :: rest, _, .inr hsize =>
      have hl := hmem l (by simp)
      have hl' := hmem l' (by simp)
      rw [linesSize_cons, linesSize_cons] at hsize
      omega
  have hsplit : ∀ runs : List (List Text), (∀ run ∈ runs, ∃ l, run = [l]) →
      runs = runs.flatten.map fun l => [l] := by
    intro runs hruns
    induction runs with
    | nil => rfl
    | cons run runs ih =>
      obtain ⟨l, rfl⟩ := hruns run List.mem_cons_self
      rw [List.flatten_cons, List.map_append, ← ih fun r hr => hruns r (List.mem_cons_of_mem _ hr)]
      rfl
  rw [hsplit _ hone, flatten_cutLines]

theorem newline_notMem_replicate {c : Char} (hc : '\n' ≠ c) (n : Nat) : '\n' ∉ List.replicate n c :=
  fun hmem => hc (List.eq_of_mem_replicate hmem)

/-- A page of lines each of which fills a part. -/
def fullPage (count : Nat) : Text := Text.unlines (List.replicate count fullLine)

theorem lines_fullPage (h : 0 < number) :
    Text.lines (fullPage number) = List.replicate number fullLine := by
  have hne : List.replicate number fullLine ≠ [] := by
    rw [ne_eq, List.replicate_eq_nil_iff]
    omega
  rw [fullPage]
  apply Text.lines_unlines_of_notMem hne
  intro l hl
  rw [List.eq_of_mem_replicate hl]
  exact newline_notMem_replicate (by decide) _

theorem parts_fullPage (h : 0 < number) :
    parts (fullPage number) = List.replicate number fullLine := by
  rw [parts, lines_fullPage h, cutLines_of_large]
  · simp [Text.unlines, List.intercalate]
  · intro l hl
    rw [List.eq_of_mem_replicate hl, length_fullLine]
    exact Nat.le_refl _

theorem length_fullPage (h : 0 < number) : (fullPage number).length + 1 = number * 32000 := by
  have hne : List.replicate number fullLine ≠ [] := by
    rw [ne_eq, List.replicate_eq_nil_iff]
    omega
  rw [fullPage, length_unlines hne, linesSize_replicate, length_fullLine]

/-- Every part from the second one on can be as long as its heading makes it. -/
theorem exists_overfull (base : Text) (hnumber : 2 ≤ number) :
    ∃ content, (∀ l ∈ Text.lines content, l.length < 32000) ∧ ∃ f ∈ pageFiles base content,
      f.2.length = 32011 + base.length + (Nat.toDigits 10 number).length := by
  have hlong : maxChars < (fullPage number).length := by
    have hlength := length_fullPage (by omega : 0 < number)
    have hmax : maxChars = 32000 := rfl
    omega
  have hparts := parts_fullPage (by omega : 0 < number)
  have hi : number - 1 < (parts (fullPage number)).length := by
    rw [hparts, List.length_replicate]
    omega
  have hpart : (parts (fullPage number))[number - 1] = fullLine := by
    simp only [hparts, List.getElem_replicate]
  refine ⟨fullPage number, fun l hl => ?_, _, (mem_pageFiles_parts hlong).2 ⟨number - 1, hi, rfl⟩, ?_⟩
  · rw [lines_fullPage (by omega)] at hl
    rw [List.eq_of_mem_replicate hl, length_fullLine]
    decide
  · rw [List.length_append, hpart, length_fullLine, Nat.sub_add_cancel (by omega),
      length_partHeading base hnumber]
    omega

/-- A page whose lines are short is written to files of at most 32000 characters, but for the headings of
its parts: these come on top, and nothing else does. So it is for every file that has changed, also
where writing fails, and a part can be as long as this allows, whatever its number. -/
theorem page_files_sized (base : Text) :
    (∀ content, (∀ l ∈ Text.lines content, l.length < 32000) → ∀ output fs,
      Leaves (write output base content) fs
        (fun _ => Holding (IsSized base (pageFiles base content).length) fs
          ((pageFiles base content).map fun f => output.join (Path.ofText f.1)))
        fun _ => Holding (IsSized base (pageFiles base content).length) fs []) ∧
    ∀ number, 2 ≤ number → ∃ content, (∀ l ∈ Text.lines content, l.length < 32000) ∧
      ∃ f ∈ pageFiles base content,
        f.2.length = 32011 + base.length + (Nat.toDigits 10 number).length := by
  refine ⟨fun content hshort output fs => ?_, fun number hnumber => exists_overfull base hnumber⟩
  exact (Holding.refl _ fs).mapM (fun f hf => isSized_of_mem hshort hf) output

/-- A line of half a part. -/
def halfLine (c : Char) : Text := List.replicate 15999 c

theorem length_halfLine (c : Char) : (halfLine c).length = 15999 := List.length_replicate

/-- A page of one line that fills a part and two that do so together. -/
@[irreducible]
def unevenPage : Text := Text.unlines [fullLine, halfLine 'b', halfLine 'c']

theorem lines_unevenPage : Text.lines unevenPage = [fullLine, halfLine 'b', halfLine 'c'] := by
  rw [unevenPage]
  apply Text.lines_unlines_of_notMem (List.cons_ne_nil _ _)
  simp only [List.forall_mem_cons]
  exact ⟨newline_notMem_replicate (by decide) _, newline_notMem_replicate (by decide) _,
    newline_notMem_replicate (by decide) _, by simp⟩

theorem short_unevenPage : ∀ l ∈ Text.lines unevenPage, l.length < 32000 := by
  rw [lines_unevenPage]
  simp [length_fullLine, length_halfLine]

theorem length_unevenPage : unevenPage.length = 63999 := by
  have hsize := length_unlines (List.cons_ne_nil fullLine [halfLine 'b', halfLine 'c'])
  rw [linesSize_cons, linesSize_cons, linesSize_cons, linesSize, length_fullLine, length_halfLine,
    length_halfLine] at hsize
  rw [unevenPage]
  omega

theorem cutLines_halves {first second third : Text} (hfirst : first.length = 31999)
    (hsecond : second.length = 15999) (hthird : third.length = 15999) :
    cutLines maxChars [first, second, third] = [[first], [second, third]] := by
  simp [cutLines, fillStep, maxChars, hfirst, hsecond, hthird]

/-- The lines that the parts of the page hold. -/
theorem cutLines_unevenPage :
    cutLines maxChars (Text.lines unevenPage) = [[fullLine], [halfLine 'b', halfLine 'c']] := by
  rw [lines_unevenPage]
  exact cutLines_halves length_fullLine (length_halfLine 'b') (length_halfLine 'c')

theorem pageFiles_unevenPage : pageFiles "x".toList unevenPage =
    [("x_part1.md".toList, fullLine), ("x_part2.md".toList,
      partHeading "x".toList 2 ++ Text.unlines [halfLine 'b', halfLine 'c'])] := by
  have hlong : ¬unevenPage.length ≤ maxChars := by
    rw [length_unevenPage]
    decide
  have hfirst : Text.unlines [fullLine] = fullLine := by simp [Text.unlines, List.intercalate]
  rw [pageFiles, if_neg hlong, parts, cutLines_unevenPage, List.map_cons, List.map_singleton, hfirst]
  rfl

/-- A directory for pages in which there are none. -/
def freshOutput : FileSystem :=
  ((FileSystem.empty .standard []).put ["w".toList] .openDir).put
    ["w".toList, "out".toList] .openDir

/-- The page is written there. -/
theorem write_unevenPage : ∃ pages,
    (write (Path.ofText "/w/out".toList) "x".toList unevenPage).on freshOutput =
      .ok (pages, putAt (fun n => ["w".toList, "out".toList, n]) freshOutput
        (pageFiles "x".toList unevenPage)) := by
  have hdir : freshOutput.LeadsToDir (Path.ofText "/w/out".toList) :=
    ⟨by decide, ["w".toList, "out".toList], Host.standard.newDir, by decide +kernel, by decide +kernel⟩
  have hopens : ∀ f ∈ pageFiles "x".toList unevenPage, freshOutput.Opens
      ((Path.ofText "/w/out".toList).child f.1) ["w".toList, "out".toList, f.1] := by
    rw [pageFiles_unevenPage]
    exact List.forall_mem_cons.2 ⟨⟨by decide, by decide +kernel, .inl (by decide +kernel)⟩,
      List.forall_mem_singleton.2 ⟨by decide, by decide +kernel, .inl (by decide +kernel)⟩⟩
  exact ⟨_, mapM_writeFile_on (fun n hn => Path.isPiece_of_mem_ofText hn)
    (fun f hf => isName_of_opens (by decide) hf (hopens f hf)) hdir hopens⟩

/-- Both files are sized as said. -/
theorem unevenPage_sized : (∀ l ∈ Text.lines unevenPage, l.length < 32000) ∧
    ∃ pages fs', (write (Path.ofText "/w/out".toList) "x".toList unevenPage).on freshOutput =
        .ok (pages, fs') ∧
      Holding (IsSized "x".toList 2) freshOutput
        [Path.ofText "/w/out/x_part1.md".toList, Path.ofText "/w/out/x_part2.md".toList] fs' := by
  have hcount : (pageFiles "x".toList unevenPage).length = 2 := by
    rw [pageFiles_unevenPage]
    rfl
  have hpaths : (pageFiles "x".toList unevenPage).map (fun f =>
      (Path.ofText "/w/out".toList).join (Path.ofText f.1)) =
        [Path.ofText "/w/out/x_part1.md".toList, Path.ofText "/w/out/x_part2.md".toList] := by
    rw [pageFiles_unevenPage]
    rfl
  obtain ⟨pages, hwrite⟩ := write_unevenPage
  obtain ⟨hsized, -⟩ := page_files_sized "x".toList
  have hleaves := hsized unevenPage short_unevenPage (Path.ofText "/w/out".toList) freshOutput
  rw [hcount, hpaths] at hleaves
  exact ⟨short_unevenPage, pages, _, hwrite, hleaves.of_on hwrite⟩

/-- The second file is larger than the limit, although it holds two lines that fit. -/
theorem unevenPage_overfull : (∀ l ∈ Text.lines unevenPage, l.length < 32000) ∧
    ∃ pages fs' t, (write (Path.ofText "/w/out".toList) "x".toList unevenPage).on freshOutput =
        .ok (pages, fs') ∧
      fs'.read (Path.ofText "/w/out/x_part2.md".toList) = .ok (Utf8.encode t) ∧ t.length = 32013 := by
  obtain ⟨pages, hwrite⟩ := write_unevenPage
  refine ⟨short_unevenPage, pages, _,
    partHeading "x".toList 2 ++ Text.unlines [halfLine 'b', halfLine 'c'], hwrite, ?_, ?_⟩
  · rw [pageFiles_unevenPage]
    have hopens : (putAt (fun n => ["w".toList, "out".toList, n]) freshOutput
        [("x_part1.md".toList, fullLine), ("x_part2.md".toList,
          partHeading "x".toList 2 ++ Text.unlines [halfLine 'b', halfLine 'c'])]).Opens
        (Path.ofText "/w/out/x_part2.md".toList) ["w".toList, "out".toList, "x_part2.md".toList] := by
      refine opens_putAt ?_ ⟨by decide, by decide +kernel, .inl (by decide +kernel)⟩
      exact List.forall_mem_cons.2 ⟨.inl (by decide +kernel),
        List.forall_mem_singleton.2 (.inl (by decide +kernel))⟩
    exact hopens.read ((get?_put _ (by simp) _ _).trans (if_pos rfl))
  · have hsize := length_unlines (List.cons_ne_nil (halfLine 'b') [halfLine 'c'])
    rw [linesSize_cons, linesSize_cons, linesSize, length_halfLine, length_halfLine] at hsize
    have hdigits : "x".toList.length + 12 + (Nat.toDigits 10 2).length = 14 := by decide
    rw [List.length_append, length_partHeading "x".toList (Nat.le_refl 2), hdigits]
    omega

end Page

end CodeIndex
