import CodeIndex.Proofs.Indexing.Footprint
import CodeIndex.Proofs.Indexing.Rerun
import CodeIndex.Proofs.Indexing.Update

/-!
# Histories of an index

Between two runs a project is edited by others, who leave its index alone. A run adds pages and
records to the index and takes none away, be it an update or a full run. So an index holds what it
held at first and all that was ever written into it, and the main page links to all of these pages.
-/

namespace CodeIndex

namespace FileSystem

variable {fs fs' : FileSystem} {L loc key : Location} {pages : Path} {names : List Text} {n : Text}

theorem get?_erase (fs : FileSystem) (hkey : ¬loc <+: key) :
    (fs.erase loc).get? key = fs.get? key := by
  by_cases hnil : key = []
  · rw [hnil]
    rfl
  · have hother : loc.isPrefixOf key = false := by
      rwa [Bool.eq_false_iff, ne_eq, List.isPrefixOf_iff_prefix]
    apply Option.ext
    intro e
    rw [get?_eq_some_iff hnil, get?_eq_some_iff hnil]
    simp [erase, hother]

theorem Plain.erase (h : fs.Plain) (loc : Location) : (fs.erase loc).Plain := by
  -- what is left was there, and so was the directory above it
  have hkept : ∀ key e, (fs.erase loc).get? key = some e →
      fs.get? key = some e ∧ (key ≠ [] → ¬loc <+: key) := by
    intro key e hget
    by_cases hnil : key = []
    · subst hnil
      exact ⟨hget, fun hne => absurd rfl hne⟩
    · rw [get?_eq_some_iff hnil] at hget ⊢
      obtain ⟨hmem, hnot⟩ := List.mem_filter.1 hget
      refine ⟨hmem, fun _ hpre => ?_⟩
      rw [List.isPrefixOf_iff_prefix.2 hpre] at hnot
      cases hnot
  refine ⟨?_, ?_, ?_⟩
  · intro key e hget
    exact h.names key e (hkept key e hget).1
  · intro par n e hget
    obtain ⟨hthere, hnot⟩ := hkept _ e hget
    obtain ⟨denied, hpar⟩ := isDirectoryAt_iff.1 (h.above par n e hthere)
    apply isDirectoryAt_iff.2
    refine ⟨denied, ?_⟩
    rw [get?_erase fs fun hpre => hnot (by simp) (hpre.trans (List.prefix_append _ _))]
    exact hpar
  · intro key target hget
    exact h.links key target (hkept key _ hget).1

theorem lastText?_eq_none_iff {written : List (Text × Text)} :
    lastText? written n = none ↔ n ∉ written.map Prod.fst := by
  constructor
  · intro hnone hmem
    obtain ⟨f, hf, rfl⟩ := List.mem_map.1 hmem
    obtain ⟨t, ht⟩ := exists_lastText? hf
    rw [hnone] at ht
    cases ht
  · intro hmem
    cases hlast : lastText? written n with
    | none => rfl
    | some t => exact absurd (List.mem_map.2 ⟨_, mem_of_lastText? hlast, rfl⟩) hmem

theorem PagesAt.look (h : fs.PagesAt pages L) : ∃ denied,
    fs.look pages = .ok (some (.directory denied)) ∧ fs.get? L = some (.directory denied) := by
  obtain ⟨denied, hget⟩ := isDirectoryAt_iff.1 h.directory
  exact ⟨denied, (look_eq_some_iff h.isFull).2 ⟨L, h.located, hget⟩, hget⟩

theorem PagesAt.list_ok_iff (h : fs.PagesAt pages L) :
    fs.list pages = .ok names ↔ (∃ data, fs.get? L = some (.directory data) ∧ data.listable = true) ∧
      names = fs.childNames L := by
  obtain ⟨data, hget⟩ := isDirectoryAt_iff.1 h.directory
  unfold list answer
  rw [h.isFull.null, h.located]
  cases hlistable : data.listable with
  | true => simpa [hget, hlistable, bind, Except.bind, pure, Except.pure] using eq_comm
  | false => simp [hget, hlistable, bind, Except.bind, throw, throwThe, MonadExceptOf.throw]

end FileSystem

namespace Overview

open FileSystem

variable {fs : FileSystem} {L : Location} {pages : Path} {names : List Text} {n : Text}

/-- All that stands under the name of a page is linked, if the directory can be listed. -/
theorem mem_pageNames_iff (h : fs.PagesAt pages L) (hok : pageNames fs pages = .ok names) :
    n ∈ names ↔ (∃ data, fs.get? L = some (.directory data) ∧ data.listable = true) ∧
      globMatches "*.md".toList n = true ∧ ∃ e, fs.get? (L ++ [n]) = some e := by
  obtain ⟨denied, hlook, hget⟩ := h.look
  have hpresent : fs.isPresent pages = .ok true := by
    unfold isPresent
    rw [hlook]
    rfl
  unfold pageNames at hok
  rw [hpresent] at hok
  cases hlist : fs.list pages with
  | ok all =>
    obtain ⟨hopen, rfl⟩ := h.list_ok_iff.1 hlist
    obtain rfl : Text.sortedSet ((fs.childNames L).filter (globMatches "*.md".toList)) = names := by
      simpa [hlist, bind, Except.bind, pure, Except.pure] using hok
    rw [Text.sortedSet, TextOrder.mem_sort, List.mem_filter, mem_childNames]
    simp only [hopen, true_and]
    exact and_comm
  | error failure =>
    obtain rfl : [] = names := by
      simpa [hlist, bind, Except.bind, pure, Except.pure] using hok
    have hdenied : ¬∃ data, fs.get? L = some (.directory data) ∧ data.listable = true := by
      intro hopen
      rw [h.list_ok_iff.2 ⟨hopen, rfl⟩] at hlist
      cases hlist
    simp [hdenied]

end Overview

namespace Metadata

variable {fs fs' : FileSystem} {m : Metadata} {now now' : Timestamp} {indexDir : Path}

theorem map_files_ofBytes (now now' : Timestamp) (bytes : Bytes) :
    (ofBytes now bytes).map files = (ofBytes now' bytes).map files := by
  unfold ofBytes
  cases Utf8.decode? bytes with
  | none => rfl
  | some t =>
    simp only
    cases Json.parse (Text.unifyLineEnds t) with
    | ok v => cases v <;> rfl
    | error fault => cases fault <;> rfl

/-- The records that are loaded do not depend on the moment. -/
theorem map_files_load (fs : FileSystem) (now now' : Timestamp) (indexDir : Path) :
    (load fs now indexDir).map files = (load fs now' indexDir).map files := by
  unfold load
  cases fs.isPresent (indexDir.child fileName) with
  | error failure => rfl
  | ok present =>
    cases present with
    | false => rfl
    | true =>
      cases fs.read (indexDir.child fileName) with
      | ok bytes => exact map_files_ofBytes now now' bytes
      | error failure => rfl

end Metadata

namespace Indexing

open FileSystem Metadata

variable {s : Setting} {fs fs' first : FileSystem} {indexDir : Path} {m : Metadata}
  {names : List Text} {files : List Path} {xs : Catalogue} {now : Timestamp} {n : Text}
  {key : Json.Letters}

/-- The place of a page of an index. -/
def pageAt (indexDir : Path) (n : Text) : Location := homeOf indexDir ++ [Overview.pagesName] ++ [n]

def HasPage (fs : FileSystem) (indexDir : Path) (n : Text) : Prop :=
  (fs.fileAt? (pageAt indexDir n)).isSome = true

def HasRecord (fs : FileSystem) (indexDir : Path) (key : Json.Letters) : Prop :=
  ∃ now m, Metadata.load fs now indexDir = .ok m ∧ (m.recordAt? key).isSome = true

theorem hasRecord_iff (hload : Metadata.load fs now indexDir = .ok m) :
    HasRecord fs indexDir key ↔ (m.recordAt? key).isSome = true := by
  constructor
  · rintro ⟨now', m', hload', hrecord⟩
    have hfiles := map_files_load fs now now' indexDir
    rw [hload, hload'] at hfiles
    have hsame : m.files = m'.files := Except.ok.inj hfiles
    rwa [recordAt?, hsame]
  · intro hrecord
    exact ⟨now, m, hload, hrecord⟩

/-- An edit that leaves an index alone. -/
structure LeavesIndex (indexDir : Path) (fs fs' : FileSystem) : Prop where
  plain : fs'.Plain
  present : fs'.isPresent (indexDir.child Metadata.fileName) =
    fs.isPresent (indexDir.child Metadata.fileName)
  read : fs'.read (indexDir.child Metadata.fileName) = fs.read (indexDir.child Metadata.fileName)
  pages : ∀ n, fs'.fileAt? (pageAt indexDir n) = fs.fileAt? (pageAt indexDir n)

namespace LeavesIndex

theorem load (h : LeavesIndex indexDir fs fs') (now : Timestamp) :
    Metadata.load fs' now indexDir = Metadata.load fs now indexDir := by
  unfold Metadata.load
  rw [h.present, h.read]

theorem hasRecord_iff (h : LeavesIndex indexDir fs fs') :
    HasRecord fs' indexDir key ↔ HasRecord fs indexDir key := by
  unfold HasRecord
  simp only [h.load]

theorem hasPage_iff (h : LeavesIndex indexDir fs fs') :
    HasPage fs' indexDir n ↔ HasPage fs indexDir n := by
  unfold HasPage
  rw [h.pages]

/-- An edit that changes nothing in the index and on the way to it leaves it alone. -/
theorem of_get? (h : fs.Plain) (h' : fs'.Plain) (hp : indexDir.IsProper)
    (hkept : ∀ loc, indexDir.names <+: loc ∨ loc <+: indexDir.names → fs'.get? loc = fs.get? loc) :
    LeavesIndex indexDir fs fs' := by
  have hname : Path.IsName Metadata.fileName := by decide
  have hag : AgreeAlong fs' fs (indexDir.child Metadata.fileName).names := by
    intro above habove
    apply hkept
    rcases Nat.lt_or_ge above.length (indexDir.child Metadata.fileName).names.length with hlt | hge
    · right
      refine List.prefix_of_prefix_length_le habove (List.prefix_append _ _) ?_
      simpa [Path.child_names] using Nat.le_of_lt_succ (by simpa [Path.child_names] using hlt)
    · left
      rw [habove.eq_of_length (Nat.le_antisymm habove.length_le hge)]
      exact List.prefix_append _ _
  have hhome : homeOf indexDir = indexDir.names :=
    collapse_of_no_dots fun n hn => (hp.names n hn).ne_dots
  refine ⟨h', isPresent_congr h' h (hp.child hname) hag, read_congr h' h (hp.child hname) hag, ?_⟩
  intro n
  apply fileAt?_congr
  apply hkept
  left
  rw [pageAt, hhome, List.append_assoc]
  exact List.prefix_append _ _

/-- Removing something beside the index leaves it alone. -/
theorem erase (h : fs.Plain) (hp : indexDir.IsProper) {loc : Location}
    (habove : ¬loc <+: indexDir.names) (hbelow : ¬indexDir.names <+: loc) :
    LeavesIndex indexDir fs (fs.erase loc) := by
  apply of_get? h (h.erase loc) hp
  intro key hkey
  apply get?_erase
  intro hpre
  rcases hkey with hkey | hkey
  · exact (List.prefix_or_prefix_of_prefix hpre hkey).elim habove hbelow
  · exact habove (hpre.trans hkey)

/-- Putting something beside the index leaves it alone. -/
theorem put (h : fs.Plain) (hp : indexDir.IsProper) {loc : Location} {e : Entry}
    (h' : (fs.put loc e).Plain) (habove : ¬loc <+: indexDir.names)
    (hbelow : ¬indexDir.names <+: loc) : LeavesIndex indexDir fs (fs.put loc e) := by
  have hloc : loc ≠ [] := by
    rintro rfl
    exact habove List.nil_prefix
  apply of_get? h h' hp
  intro key hkey
  rw [get?_put fs hloc, if_neg]
  rintro rfl
  exact hkey.elim hbelow habove

end LeavesIndex

/-- The directories that a run with a setting writes pages on. -/
def Indexes (s : Setting) (fs : FileSystem) (xs : Catalogue) : Prop :=
  ∃ rules old, IgnoreRules.load fs s.root [] = .ok rules ∧
    Metadata.load fs s.now s.indexDir = .ok old ∧
    xs = if s.onlyChanged then
        (Catalogue.collect fs s.registry rules s.root).filter (isSelected old fs)
      else Catalogue.collect fs s.registry rules s.root

/-- The names of the files that the pages on directories are written to. -/
def writtenNames (s : Setting) (fs : FileSystem) (xs : Catalogue) : List Text :=
  (xs.flatMap (pagesOf s fs)).map Prod.fst

namespace Course

theorem indexed_of_indexes (c : Course s fs) (h : Indexes s fs xs) : c.indexed = xs := by
  obtain ⟨rules, old, hrules, hold, rfl⟩ := h
  obtain rfl : c.rules = rules := Except.ok.inj (c.rules_eq.symm.trans hrules)
  obtain rfl : c.old = old := Except.ok.inj (c.old_eq.symm.trans hold)
  rfl

/-- A run puts its pages over those that are there and leaves all others. -/
theorem fileAt?_saved (h : fs.Plain) (hs : s.Sound) (c : Course s fs) (n : Text) :
    c.saved.fileAt? (pageAt s.indexDir n) =
      ((lastText? (c.indexed.flatMap (pagesOf s fs)) n).map
        fun t => ⟨Utf8.encode t, fs.host.clock, false⟩).or (fs.fileAt? (pageAt s.indexDir n)) := by
  obtain ⟨K, hK⟩ := c.exists_places h hs
  obtain rfl : K = homeOf s.indexDir := locate_home hK.index.plain hK.index.isFull hK.index.located
  have hget := (c.saved_spec h hs hK).2 n
  rw [get?_putTexts] at hget
  cases hlast : lastText? (c.indexed.flatMap (pagesOf s fs)) n with
  | some t =>
    rw [hlast, hK.adds.host] at hget
    exact fileAt?_written hget
  | none =>
    rw [hlast] at hget
    have hspares : Spares (fun _ => False) fs c.begun := hK.adds.spares
    exact (fileAt?_congr hget).trans (hspares.files _ id)

theorem hasPage_saved_iff (h : fs.Plain) (hs : s.Sound) (c : Course s fs) :
    HasPage c.saved s.indexDir n ↔
      n ∈ writtenNames s fs c.indexed ∨ HasPage fs s.indexDir n := by
  unfold HasPage
  rw [c.fileAt?_saved h hs n]
  cases hlast : lastText? (c.indexed.flatMap (pagesOf s fs)) n with
  | some t =>
    have hmem : n ∈ writtenNames s fs c.indexed :=
      List.mem_map.2 ⟨_, mem_of_lastText? hlast, rfl⟩
    simp [hmem]
  | none =>
    have hmem : n ∉ writtenNames s fs c.indexed := lastText?_eq_none_iff.1 hlast
    simp [hmem]

theorem fileAt?_of_notMem (h : fs.Plain) (hs : s.Sound) (c : Course s fs)
    (hn : n ∉ writtenNames s fs c.indexed) :
    c.saved.fileAt? (pageAt s.indexDir n) = fs.fileAt? (pageAt s.indexDir n) := by
  rw [c.fileAt?_saved h hs n, lastText?_eq_none_iff.2 hn]
  rfl

theorem measured (h : fs.Plain) (hs : s.Sound) (hmeasured : fs.Measured s.registry)
    (c : Course s fs) :
    ∀ x ∈ c.indexed, ∀ p ∈ x.2, ∀ e, fs.get? p.names = some e → e.Measured := by
  intro x hx p hp e hget
  exact measured_of_listed h hmeasured
    (c.listed h hs (c.mem_catalogue_of_mem_indexed hx) p hp) hget

theorem hasRecord_saved_iff (h : fs.Plain) (hs : s.Sound) (hmeasured : fs.Measured s.registry)
    (c : Course s fs) :
    HasRecord c.saved s.indexDir key ↔
      (∃ p ∈ c.indexed.flatMap Prod.snd, key = Json.letters p.toText) ∨
        HasRecord fs s.indexDir key := by
  obtain ⟨K, hK⟩ := c.exists_places h hs
  have hloadable := c.loadable_updated h hs hK (c.measured h hs hmeasured)
  rw [hasRecord_iff (c.load_saved h hs hK hloadable s.now), hasRecord_iff c.old_eq]
  change (c.updated.recordAt? key).isSome = true ↔ _
  by_cases hkey : ∃ p ∈ c.indexed.flatMap Prod.snd, key = Json.letters p.toText
  · obtain ⟨p, hp, rfl⟩ := hkey
    obtain ⟨x, hx, hpx⟩ := List.mem_flatMap.1 hp
    rw [c.recordAt?_updated h hs hK hx hpx]
    exact ⟨fun _ => .inl ⟨p, hp, rfl⟩, fun _ => rfl⟩
  · have hsame : c.updated.recordAt? key = c.old.recordAt? key := by
      rw [(c.paged_spec h hs hK).2.2.1]
      apply recordAt?_mapRecords
      intro fields
      apply field?_recordsOf_of_notMem
      intro x hx p hp heq
      exact hkey ⟨p, List.mem_flatMap.2 ⟨x, hx, hp⟩, heq⟩
    rw [hsame]
    simp only [hkey, false_or]

/-- The main page links to all pages that the run leaves. -/
theorem exists_links (h : fs.Plain) (hs : s.Sound) (c : Course s fs) :
    ∃ top linked : List Text, c.saved.read (s.indexDir.child Overview.fileName) =
        .ok (Utf8.encode (Text.unlines (top ++ linked.map Overview.link ++ [[]]))) ∧
      ∀ n, n ∈ linked ↔
        (∃ data, c.saved.get? (homeOf s.indexDir ++ [Overview.pagesName]) = some (.directory data) ∧
            data.listable = true) ∧
          globMatches "*.md".toList n = true ∧
          ∃ e, c.saved.get? (pageAt s.indexDir n) = some e := by
  obtain ⟨K, hK⟩ := c.exists_places h hs
  obtain rfl : K = homeOf s.indexDir := locate_home hK.index.plain hK.index.isFull hK.index.located
  obtain ⟨hindex, hpages⟩ := c.pagesAt_paged h hs hK
  obtain ⟨hafter, -, hget⟩ := c.after hindex
  obtain ⟨hsearch, htitled, -⟩ := c.get?_saved h hs hK
  obtain ⟨tree, linked, -, hlinked, hcontent⟩ := Overview.page_ok_iff.1 c.content_eq
  refine ⟨Overview.topLines s.root.name c.project.kind c.project.stack s.now (tree.draw true), linked,
    ?_, ?_⟩
  · rw [hafter.read_written hsearch (c.final hindex).1 htitled, hcontent]
    rfl
  · intro n
    rw [Overview.mem_pageNames_iff hpages hlinked]
    have hbeside : ∀ m, m ≠ Overview.pagesName →
        homeOf s.indexDir ++ [Overview.pagesName] ≠ homeOf s.indexDir ++ [m] := by
      intro m hm heq
      exact hm (by simpa using heq.symm)
    have hdeeper : ∀ m, pageAt s.indexDir n ≠ homeOf s.indexDir ++ [m] := by
      intro m heq
      simpa [pageAt] using congrArg List.length heq
    rw [hget _ (hbeside _ (by decide)) (hbeside _ (by decide)), hget _ (hdeeper _) (hdeeper _)]
    rfl

end Course

/-- The file systems that come about from a first one by edits and by runs that succeed with one
directory for the index, with the names of the files that their pages were written to and the files
that they have described. -/
inductive History (indexDir : Path) (first : FileSystem) :
    List Text → List Path → FileSystem → Prop where
  | start (plain : first.Plain) : History indexDir first [] [] first
  | edit {names : List Text} {files : List Path} {fs fs' : FileSystem}
    (before : History indexDir first names files fs) (leaves : LeavesIndex indexDir fs fs') :
    History indexDir first names files fs'
  | run {names : List Text} {files : List Path} {fs : FileSystem} {arguments : List Text}
    {o : CommandLine.Options} {now : Timestamp} {s : Setting} {xs : Catalogue}
    (before : History indexDir first names files fs) (measured : fs.Measured .standard)
    (asks : Asks arguments o now fs s) (same : s.indexDir = indexDir)
    (result : (program .standard now arguments fs).result = .ok 0) (indexes : Indexes s fs xs) :
    History indexDir first (names ++ writtenNames s fs xs) (files ++ xs.flatMap Prod.snd)
      (program .standard now arguments fs).fs

/-- An index holds what it held at first, the given pages and records of the given files. -/
structure Holds (indexDir : Path) (first fs : FileSystem) (names : List Text) (files : List Path) :
    Prop where
  plain : fs.Plain
  pages : ∀ n, HasPage fs indexDir n ↔ n ∈ names ∨ HasPage first indexDir n
  records : ∀ key, HasRecord fs indexDir key ↔
    (∃ p ∈ files, key = Json.letters p.toText) ∨ HasRecord first indexDir key

namespace Holds

theorem start (h : first.Plain) : Holds indexDir first first [] [] := by
  refine ⟨h, ?_, ?_⟩
  · intro n
    simp
  · intro key
    simp

theorem edit (h : Holds indexDir first fs names files) (hedit : LeavesIndex indexDir fs fs') :
    Holds indexDir first fs' names files := by
  refine ⟨hedit.plain, ?_, ?_⟩
  · intro n
    rw [hedit.hasPage_iff, h.pages]
  · intro key
    rw [hedit.hasRecord_iff, h.records]

/-- What a run writes comes to what is there. -/
theorem run (h : Holds s.indexDir first fs names files) (hs : s.Sound)
    (hmeasured : fs.Measured s.registry) (c : Course s fs) :
    Holds s.indexDir first c.saved (names ++ writtenNames s fs c.indexed)
      (files ++ c.indexed.flatMap Prod.snd) := by
  obtain ⟨K, hK⟩ := c.exists_places h.plain hs
  refine ⟨(c.saved_spec h.plain hs hK).1.plain, ?_, ?_⟩
  · intro n
    rw [c.hasPage_saved_iff h.plain hs, h.pages, List.mem_append, ← or_assoc]
    exact or_congr_left or_comm
  · intro key
    rw [c.hasRecord_saved_iff h.plain hs hmeasured, h.records, ← or_assoc]
    apply or_congr_left
    simp only [List.mem_append, or_and_right, exists_or]
    exact or_comm

end Holds

/-- After any history an index holds all that was ever put into it. -/
theorem History.holds (h : History indexDir first names files fs) :
    Holds indexDir first fs names files := by
  induction h with
  | start plain => exact .start plain
  | edit before leaves ih => exact ih.edit leaves
  | run before measured asks same result indexes ih =>
    subst same
    obtain ⟨c, hc⟩ := (asks.succeeds result).course
    rw [← hc, ← c.indexed_of_indexes indexes]
    exact ih.run (asks.sound ih.plain) (asks.registry_eq ▸ measured) c

/-- After any history a full run leaves in the index what every run has put there, and the main page
links to all of it. Nothing in the index is stale exactly if the last run has written all anew. -/
theorem full_run_keeps_history {arguments : List Text} {o : CommandLine.Options}
    {rules : IgnoreRules} (hhistory : History s.indexDir first names files fs)
    (hmeasured : fs.Measured .standard) (hasks : Asks arguments o now fs s)
    (hfull : o.update = false ∨ o.force = true)
    (hrules : IgnoreRules.load fs s.root [] = .ok rules)
    (hxs : Catalogue.collect fs .standard rules s.root = xs)
    (hrun : (program .standard now arguments fs).result = .ok 0) :
    Holds s.indexDir first (program .standard now arguments fs).fs
        (names ++ writtenNames s fs xs) (files ++ xs.flatMap Prod.snd) ∧
      (∀ n, n ∉ writtenNames s fs xs →
        (program .standard now arguments fs).fs.fileAt? (pageAt s.indexDir n) =
          fs.fileAt? (pageAt s.indexDir n)) ∧
      (∃ top linked : List Text,
        (program .standard now arguments fs).fs.read (s.indexDir.child Overview.fileName) =
            .ok (Utf8.encode (Text.unlines (top ++ linked.map Overview.link ++ [[]]))) ∧
          ∀ n, n ∈ linked ↔
            (∃ data, (program .standard now arguments fs).fs.get?
                (homeOf s.indexDir ++ [Overview.pagesName]) = some (.directory data) ∧
                data.listable = true) ∧
              globMatches "*.md".toList n = true ∧
              ∃ e, (program .standard now arguments fs).fs.get? (pageAt s.indexDir n) = some e) ∧
      ((∀ n, HasPage (program .standard now arguments fs).fs s.indexDir n ↔
          n ∈ writtenNames s fs xs) ↔
        ∀ n, n ∈ names ∨ HasPage first s.indexDir n → n ∈ writtenNames s fs xs) ∧
      ((∀ key, HasRecord (program .standard now arguments fs).fs s.indexDir key ↔
          ∃ p ∈ xs.flatMap Prod.snd, key = Json.letters p.toText) ↔
        ∀ key, (∃ p ∈ files, key = Json.letters p.toText) ∨ HasRecord first s.indexDir key →
          ∃ p ∈ xs.flatMap Prod.snd, key = Json.letters p.toText) := by
  have hholds := hhistory.holds
  have hs := hasks.sound hholds.plain
  obtain ⟨c, hc⟩ := (hasks.succeeds hrun).course
  obtain rfl : c.rules = rules := Except.ok.inj (c.rules_eq.symm.trans hrules)
  obtain rfl : c.indexed = xs := by
    rw [c.indexed_of_full (hasks.onlyChanged_of_full hfull), ← hxs, Course.catalogue,
      hasks.registry_eq]
  have hmeasured' : fs.Measured s.registry := hasks.registry_eq ▸ hmeasured
  rw [← hc]
  refine ⟨hholds.run hs hmeasured' c, ?_, c.exists_links hholds.plain hs, ?_, ?_⟩
  · intro n hn
    exact c.fileAt?_of_notMem hholds.plain hs hn
  · rw [← forall_congr' fun n => or_iff_left_iff_imp]
    apply forall_congr'
    intro n
    rw [c.hasPage_saved_iff hholds.plain hs, hholds.pages]
  · rw [← forall_congr' fun key => or_iff_left_iff_imp]
    apply forall_congr'
    intro key
    rw [c.hasRecord_saved_iff hholds.plain hs hmeasured', hholds.records]

/-- A project with one file, in a directory. -/
def lonely : FileSystem :=
  (((FileSystem.empty .standard []).put ["p".toList] .openDir).put
    ["p".toList, "d".toList] .openDir).put
    ["p".toList, "d".toList, "b.py".toList] (.file ⟨[], .finite false (2 ^ 52) (-52), false⟩)

def lonelyCatalogue : Catalogue :=
  [("d".toList, [⟨.root, ["p".toList, "d".toList, "b.py".toList]⟩])]

theorem lonely_found : lonely.Plain ∧ lonely.Measured .standard ∧
    IgnoreRules.load lonely sampleSetting.root [] =
      .ok ⟨sampleSetting.root, IgnoreRules.builtIn⟩ ∧
    Catalogue.collect lonely .standard ⟨sampleSetting.root, IgnoreRules.builtIn⟩
      sampleSetting.root = lonelyCatalogue ∧
    (program .standard sampleSetting.now ["/p".toList] lonely).result = .ok 0 ∧
    (program .standard sampleSetting.now ["/p".toList] lonely).fs.Plain := by
  decide +kernel

/-- The project after a run, with its directory removed. -/
def deserted : FileSystem :=
  (program .standard sampleSetting.now ["/p".toList] lonely).fs.erase ["p".toList, "d".toList]

theorem deserted_history : History sampleSetting.indexDir lonely ["d.md".toList]
    [⟨.root, ["p".toList, "d".toList, "b.py".toList]⟩] deserted := by
  obtain ⟨hplain, hmeasured, hrules, hcollect, hresult, hafter⟩ := lonely_found
  have hnames : writtenNames sampleSetting lonely lonelyCatalogue = ["d.md".toList] := by
    decide +kernel
  obtain ⟨old, hold⟩ : ∃ old, Metadata.load lonely sampleSetting.now sampleSetting.indexDir =
      .ok old := exists_ok_of_isSome (by decide +kernel)
  have hindexes : Indexes sampleSetting lonely lonelyCatalogue :=
    ⟨_, old, hrules, hold, hcollect.symm⟩
  have hrun := History.run (.start hplain) hmeasured (asks_sample hplain) rfl hresult hindexes
  rw [hnames] at hrun
  exact hrun.edit (.erase hafter ⟨rfl, by decide⟩ (by decide) (by decide))

theorem deserted_found : deserted.Measured .standard ∧
    IgnoreRules.load deserted sampleSetting.root [] =
      .ok ⟨sampleSetting.root, IgnoreRules.builtIn⟩ ∧
    Catalogue.collect deserted .standard ⟨sampleSetting.root, IgnoreRules.builtIn⟩
      sampleSetting.root = [] ∧
    (program .standard sampleSetting.now ["/p".toList] deserted).result = .ok 0 ∧
    ((program .standard sampleSetting.now ["/p".toList] deserted).fs.fileAt?
      (pageAt sampleSetting.indexDir "d.md".toList)).isSome = true := by
  decide +kernel

/-- After the next run the page on the directory and the record of its file are still there. -/
theorem deserted_run_keeps :
    HasPage (program .standard sampleSetting.now ["/p".toList] deserted).fs sampleSetting.indexDir
        "d.md".toList ∧
      HasRecord (program .standard sampleSetting.now ["/p".toList] deserted).fs
        sampleSetting.indexDir (Json.letters "/p/d/b.py".toList) := by
  have hhistory := deserted_history
  obtain ⟨hmeasured, hrules, hcollect, hrun, -⟩ := deserted_found
  obtain ⟨hholds, -⟩ := full_run_keeps_history hhistory hmeasured
    (asks_sample hhistory.holds.plain) (.inl rfl) hrules hcollect hrun
  have htext : "/p/d/b.py".toList =
      Path.toText ⟨.root, ["p".toList, "d".toList, "b.py".toList]⟩ := by decide
  constructor
  · apply (hholds.pages _).2
    exact .inl (List.mem_append_left _ List.mem_cons_self)
  · apply (hholds.records _).2
    exact .inl ⟨_, List.mem_append_left _ List.mem_cons_self, congrArg Json.letters htext⟩

/-- Nothing is left of the project, and its index still has a page that the run did not write. -/
theorem deserted_stale_page :
    (program .standard sampleSetting.now ["/p".toList] deserted).result = .ok 0 ∧
      Catalogue.collect deserted .standard ⟨sampleSetting.root, IgnoreRules.builtIn⟩
        sampleSetting.root = [] ∧
      HasPage (program .standard sampleSetting.now ["/p".toList] deserted).fs
        sampleSetting.indexDir "d.md".toList := by
  obtain ⟨-, -, hcollect, hrun, hpage⟩ := deserted_found
  exact ⟨hrun, hcollect, hpage⟩

end Indexing

end CodeIndex
