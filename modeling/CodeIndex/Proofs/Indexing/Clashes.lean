import CodeIndex.Proofs.Indexing.Selection
import CodeIndex.Proofs.Page.Clashes

/-!
# Pages that are lost

Pages are named after the keys of directories with slashes turned into underscores, so different
directories can come to share a name, and then the page written last stays. The texts of two
directories always differ, so a shared name is always a loss.
-/

namespace CodeIndex.Indexing

open FileSystem Page

variable {s : Setting} {fs : FileSystem} {key key' t content : Text}
  {x y : Text × List Path} {xs : Catalogue} {k : Nat}

/-- The text of the page on a directory. -/
def textOf (s : Setting) (fs : FileSystem) (x : Text × List Path) : Text :=
  Page.textOf fs s.registry s.root x.1 x.2

theorem length_pageBase (hkey : key ≠ []) : (pageBase key).length = key.length := by
  rw [pageBase_of_ne_nil hkey, List.length_map]

theorem length_opening (hkey : key ≠ []) : (opening key).length = key.length + 3 := by
  simp [opening, hkey]

theorem opening_of_ne_nil (hkey : key ≠ []) : opening key = '#' :: ' ' :: key ++ ['\n'] := by
  simp [opening, hkey]

theorem getElem?_mono {as bs : List Char} {i : Nat} {c : Char} (h : as <+: bs)
    (hc : as[i]? = some c) : bs[i]? = some c := by
  obtain ⟨rest, rfl⟩ := h
  obtain ⟨hi, -⟩ := List.getElem?_eq_some_iff.1 hc
  rw [List.getElem?_append_left hi, hc]

/-- A character of a key and what stands for it in the name of the pages. -/
theorem getElem?_pageBase (hkey : key ≠ []) {i : Nat} {d : Char}
    (hd : (pageBase key)[i]? = some d) :
    ∃ c, key[i]? = some c ∧ (if c = '/' then '_' else c) = d := by
  rw [pageBase_of_ne_nil hkey, List.getElem?_map] at hd
  exact Option.map_eq_some_iff.1 hd

theorem getElem?_opening (hkey : key ≠ []) {i : Nat} {c : Char} (hc : key[i]? = some c) :
    (opening key)[i + 2]? = some c := by
  obtain ⟨hi, -⟩ := List.getElem?_eq_some_iff.1 hc
  rw [opening_of_ne_nil hkey, List.cons_append, List.cons_append, List.getElem?_cons_succ,
    List.getElem?_cons_succ, List.getElem?_append_left hi, hc]

/-- The page on the root begins with a capital letter that no other page named like it has. -/
theorem root_opening_ne (hkey : key ≠ []) (hbase : (pageBase key)[0]? = some 'r')
    (ht : opening key <+: t) (ht' : opening [] <+: t) : False := by
  obtain ⟨c, hc, hflat⟩ := getElem?_pageBase hkey hbase
  have hr : c = 'r' := by
    split at hflat
    · exact absurd hflat (by decide)
    · exact hflat
  have hsmall := getElem?_mono ht (getElem?_opening hkey hc)
  have hbig : t[2]? = some 'R' := getElem?_mono ht' (by decide)
  rw [hbig, hr] at hsmall
  exact absurd hsmall (by decide)

/-- Different keys that are flattened to one name have pages that begin differently. -/
theorem eq_of_pageBase_eq (hbase : pageBase key = pageBase key') (ht : opening key <+: t)
    (ht' : opening key' <+: t) : key = key' := by
  by_cases hkey : key = []
  · by_cases hkey' : key' = []
    · rw [hkey, hkey']
    · rw [hkey] at hbase ht
      exact (root_opening_ne hkey' (by rw [← hbase]; decide) ht' ht).elim
  · by_cases hkey' : key' = []
    · rw [hkey'] at hbase ht'
      exact (root_opening_ne hkey (by rw [hbase]; decide) ht ht').elim
    · have hlength : key.length = key'.length := by
        rw [← length_pageBase hkey, hbase, length_pageBase hkey']
      have hopenings : (opening key).length = (opening key').length := by
        rw [length_opening hkey, length_opening hkey', hlength]
      have hopening : opening key = opening key' :=
        (List.prefix_of_prefix_length_le ht ht' (Nat.le_of_eq hopenings)).eq_of_length hopenings
      rw [opening_of_ne_nil hkey, opening_of_ne_nil hkey'] at hopening
      simpa using hopening

/-- A whole page that is named like a part of another has a different text. -/
theorem whole_ne_part (hbase : pageBase key = pageBase key' ++ "_part".toList ++ partNumber (k + 1))
    (ht : opening key <+: t) (hcontent : opening key' <+: content)
    (part : Text) (hpart : k = 0 → part <+: content) :
    t ≠ partHeading (pageBase key') (k + 1) ++ part := by
  rintro rfl
  have hkey : key ≠ [] := by
    rintro rfl
    have hmem : '_' ∈ pageBase [] := by simp [hbase]
    exact absurd hmem (by decide)
  -- the key goes on behind the other base, where the part has something else
  have hunder : (pageBase key)[(pageBase key').length]? = some '_' := by
    rw [hbase, List.append_assoc, List.getElem?_append_right (Nat.le_refl _), Nat.sub_self]
    rfl
  obtain ⟨c, hc, hflat⟩ := getElem?_pageBase hkey hunder
  have hthere := getElem?_mono ht (getElem?_opening hkey hc)
  cases k with
  | zero =>
    have hbegins : opening key <+: content := ht.trans (hpart rfl)
    by_cases hkey' : key' = []
    · subst hkey'
      exact root_opening_ne hkey (by rw [hbase]; decide) hbegins hcontent
    · have hend : (opening key')[key'.length + 2]? = some '\n' := by
        simp [opening_of_ne_nil hkey']
      rw [length_pageBase hkey'] at hthere
      have hline := getElem?_mono hcontent hend
      rw [getElem?_mono (hpart rfl) hthere] at hline
      cases hline
      exact absurd hflat (by decide)
  | succ k =>
    have hheading : (partHeading (pageBase key') (k + 2) ++ part)[(pageBase key').length + 2]? =
        some ' ' := by
      simp [partHeading]
    rw [hheading] at hthere
    cases hthere
    exact absurd hflat (by decide)

/-- Two pages have different texts under a common name. -/
def Differ (base content base' content' : Text) : Prop :=
  ∃ f ∈ pageFiles base content, ∃ g ∈ pageFiles base' content', f.1 = g.1 ∧ f.2 ≠ g.2

theorem differ_whole_part {content content' : Text} (hwhole : content.length ≤ maxChars)
    (hcut : maxChars < content'.length) (hpos : 0 < k) (hle : k ≤ (parts content').length)
    (hbase : pageBase key = pageBase key' ++ "_part".toList ++ partNumber k)
    (h : opening key <+: content) (h' : opening key' <+: content') :
    Differ (pageBase key) content (pageBase key') content' := by
  obtain ⟨i, rfl⟩ := Nat.exists_eq_succ_of_ne_zero (by omega : k ≠ 0)
  refine ⟨_, (mem_pageFiles_whole hwhole).2 rfl, _, (mem_pageFiles_parts hcut).2 ⟨i, hle, rfl⟩,
    whole_eq_partName.2 hbase, whole_ne_part hbase h h' _ fun hi => ?_⟩
  subst hi
  exact first_part_begins hle

theorem differ_same_base {content content' : Text} (hkey : key ≠ key')
    (hbase : pageBase key = pageBase key')
    (hkind : content.length ≤ maxChars ↔ content'.length ≤ maxChars)
    (h : opening key <+: content) (h' : opening key' <+: content') :
    Differ (pageBase key) content (pageBase key') content' := by
  by_cases hwhole : content.length ≤ maxChars
  · refine ⟨_, (mem_pageFiles_whole hwhole).2 rfl, _, (mem_pageFiles_whole (hkind.1 hwhole)).2 rfl,
      by rw [hbase], fun htext => hkey (eq_of_pageBase_eq hbase h ?_)⟩
    rw [show content = content' from htext]
    exact h'
  · have hcut : maxChars < content.length := by omega
    have hcut' : maxChars < content'.length := Nat.lt_of_not_le (mt hkind.2 hwhole)
    -- if all common parts were the same, one page would begin with the other
    by_contra hsame
    have hparts : ∀ (i : Nat) (hi : i < (parts content).length) (hi' : i < (parts content').length),
        (parts content)[i] = (parts content')[i] := by
      intro i hi hi'
      by_contra hne
      refine hsame ⟨_, (mem_pageFiles_parts hcut).2 ⟨i, hi, rfl⟩, _,
        (mem_pageFiles_parts hcut').2 ⟨i, hi', rfl⟩, by rw [hbase], fun htext => hne ?_⟩
      rw [hbase] at htext
      exact List.append_cancel_left htext
    rcases prefix_or_prefix_of_parts hparts with hbegins | hbegins
    · exact hkey (eq_of_pageBase_eq hbase (h.trans hbegins) h')
    · exact hkey (eq_of_pageBase_eq hbase h (h'.trans hbegins))

theorem Differ.symm {base base' content content' : Text} (h : Differ base content base' content') :
    Differ base' content' base content := by
  obtain ⟨f, hf, g, hg, hname, htext⟩ := h
  exact ⟨g, hg, f, hf, hname.symm, htext.symm⟩

/-- Pages on different directories that have a name in common differ under such a name. -/
theorem differ_of_nameClash {content content' : Text} (hkey : key ≠ key')
    (h : opening key <+: content) (h' : opening key' <+: content')
    (hclash : NameClash (pageBase key) content (pageBase key') content') :
    Differ (pageBase key) content (pageBase key') content' := by
  rcases hclash with ⟨hbase, hkind⟩ | ⟨hwhole, hcut, k, hpos, hle, hbase⟩ |
    ⟨hcut, hwhole, k, hpos, hle, hbase⟩
  · exact differ_same_base hkey hbase hkind h h'
  · exact differ_whole_part hwhole hcut hpos hle hbase h h'
  · exact (differ_whole_part hwhole hcut hpos hle hbase h' h).symm

/-- Different directories of a catalogue whose pages have a name in common. -/
def Clash (s : Setting) (fs : FileSystem) (x y : Text × List Path) : Prop :=
  NameClash (pageBase x.1) (textOf s fs x) (pageBase y.1) (textOf s fs y)

/-- All pages stay exactly if no two different directories clash. -/
theorem pages_stay_iff (before : FileSystem) (L : Location) (hkeys : (xs.map Prod.fst).Nodup)
    (hfiles : ∀ x ∈ xs, ∀ p ∈ x.2, (p.relativeTo? s.root).isSome) :
    (∀ x ∈ xs, ∀ f ∈ pagesOf s fs x, (before.putTexts L (xs.flatMap (pagesOf s fs))).get?
        (L ++ [f.1]) = some (written before.host (Utf8.encode f.2))) ↔
      ∀ x ∈ xs, ∀ y ∈ xs, x.1 ≠ y.1 → ¬Clash s fs x y := by
  have hflat : (∀ x ∈ xs, ∀ f ∈ pagesOf s fs x, (before.putTexts L (xs.flatMap (pagesOf s fs))).get?
        (L ++ [f.1]) = some (written before.host (Utf8.encode f.2))) ↔
      ∀ f ∈ xs.flatMap (pagesOf s fs), (before.putTexts L (xs.flatMap (pagesOf s fs))).get?
        (L ++ [f.1]) = some (written before.host (Utf8.encode f.2)) := by
    simp only [List.mem_flatMap, forall_exists_index, and_imp]
    exact ⟨fun h f x hx hf => h x hx f hf, fun h x hx f hf => h f x hx hf⟩
  rw [hflat, putTexts_stay_iff]
  constructor
  · intro hsame x hx y hy hkey hclash
    obtain ⟨f, hf, g, hg, hname, htext⟩ :=
      differ_of_nameClash hkey (opening_begins (hfiles x hx)) (opening_begins (hfiles y hy)) hclash
    exact htext (hsame f (List.mem_flatMap.2 ⟨x, hx, hf⟩) g (List.mem_flatMap.2 ⟨y, hy, hg⟩) hname)
  · intro hclash f hf g hg hname
    obtain ⟨x, hx, hf⟩ := List.mem_flatMap.1 hf
    obtain ⟨y, hy, hg⟩ := List.mem_flatMap.1 hg
    by_cases hkey : x.1 = y.1
    · obtain rfl := List.inj_on_of_nodup_map hkeys hx hy hkey
      have hfg : f = g := List.inj_on_of_nodup_map (nodup_names _ _) hf hg hname
      rw [hfg]
    · exact absurd (shareName_iff_nameClash.1 ⟨f, hf, g, hg, hname⟩) (hclash x hx y hy hkey)

/-- The page on a directory is read as the files in the directory say. -/
def Shows (s : Setting) (fs after : FileSystem) (x : Text × List Path) : Prop :=
  ∀ f ∈ pagesOf s fs x, after.read (s.pagesDir.child f.1) = .ok (Utf8.encode f.2)

namespace Course

variable {K : Location} {f : Text × Text}

/-- Without clashes every page that a run writes stays. -/
theorem get?_page (h : fs.Plain) (hs : s.Sound) (c : Course s fs) (hK : c.Places K)
    (hclash : ∀ x ∈ c.catalogue, ∀ y ∈ c.catalogue, x.1 ≠ y.1 → ¬Clash s fs x y)
    (hx : x ∈ c.indexed) (hf : f ∈ pagesOf s fs x) :
    c.saved.get? (K ++ [Overview.pagesName] ++ [f.1]) =
      some (written fs.host (Utf8.encode f.2)) := by
  have hkeys : (c.indexed.map Prod.fst).Nodup :=
    (Catalogue.nodup_keys h hs.root).sublist (c.indexed_sublist.map _)
  rw [(c.saved_spec h hs hK).2, ← hK.adds.host]
  refine (pages_stay_iff c.begun _ hkeys ?_).2 ?_ x hx f hf
  · intro y hy p hp
    exact relativeTo?_of_listed hs.root (c.listed h hs (c.mem_catalogue_of_mem_indexed hy) p hp)
  · intro y hy z hz
    exact hclash y (c.mem_catalogue_of_mem_indexed hy) z (c.mem_catalogue_of_mem_indexed hz)

theorem shows_of_mem_indexed (h : fs.Plain) (hs : s.Sound) (c : Course s fs)
    (hclash : ∀ x ∈ c.catalogue, ∀ y ∈ c.catalogue, x.1 ≠ y.1 → ¬Clash s fs x y)
    (hx : x ∈ c.indexed) : Shows s fs c.saved x := by
  intro f hf
  obtain ⟨K, hK⟩ := c.exists_places h hs
  have hmem := List.mem_flatMap.2 ⟨x, hx, hf⟩
  exact (c.saved_spec h hs hK).1.read_written (c.isSearchableAt_pages h hs hK hmem)
    (c.accepts_pages h hs hK f hmem) (c.get?_page h hs hK hclash hx hf)

end Course

/-- After a full run all pages can be read exactly if no two directories of the project clash, and
they clash exactly if their pages have a file name in common. -/
theorem full_run_keeps_pages_iff {now : Timestamp} {arguments : List Text}
    {o : CommandLine.Options} {rules : IgnoreRules} (hfs : fs.Plain)
    (hasks : Asks arguments o now fs s) (hfull : o.update = false ∨ o.force = true)
    (hrules : IgnoreRules.load fs s.root [] = .ok rules)
    (hrun : (program .standard now arguments fs).result = .ok 0) :
    ((∀ x ∈ Catalogue.collect fs .standard rules s.root, ∀ f ∈ pagesOf s fs x,
        (program .standard now arguments fs).fs.read (s.pagesDir.child f.1) =
          .ok (Utf8.encode f.2)) ↔
      ∀ x ∈ Catalogue.collect fs .standard rules s.root,
        ∀ y ∈ Catalogue.collect fs .standard rules s.root, x.1 ≠ y.1 → ¬Clash s fs x y) ∧
    ∀ x y, Clash s fs x y ↔ ∃ f ∈ pagesOf s fs x, ∃ g ∈ pagesOf s fs y, f.1 = g.1 := by
  refine ⟨?_, fun x y => shareName_iff_nameClash.symm⟩
  obtain ⟨c, hc⟩ := (hasks.succeeds hrun).course
  obtain rfl : c.rules = rules := Except.ok.inj (c.rules_eq.symm.trans hrules)
  have hsound := hasks.sound hfs
  have hchanged := hasks.onlyChanged_of_full hfull
  obtain ⟨K, hK⟩ := c.exists_places hfs hsound
  have hcollect : Catalogue.collect fs .standard c.rules s.root = c.indexed := by
    simp [Course.indexed, Course.catalogue, hchanged, hasks.registry_eq]
  have hkeys : (c.indexed.map Prod.fst).Nodup := hcollect ▸ Catalogue.nodup_keys hfs hsound.root
  rw [← hc, hcollect, ← pages_stay_iff c.begun (K ++ [Overview.pagesName]) hkeys fun x hx p hp =>
    relativeTo?_of_listed hsound.root
      (c.listed hfs hsound (c.mem_catalogue_of_mem_indexed hx) p hp)]
  refine forall₄_congr fun x hx f hf => ?_
  rw [c.read_page_iff hfs hsound hK (List.mem_flatMap.2 ⟨x, hx, hf⟩), hK.adds.host]

/-- A project with a file in its root and one in a directory of the name `root`. -/
def rootTwice : FileSystem :=
  ((((FileSystem.empty .standard []).put ["p".toList] .openDir).put
    ["p".toList, "a.py".toList] (.file ⟨[], .finite false 1 0, false⟩)).put
    ["p".toList, "root".toList] .openDir).put
    ["p".toList, "root".toList, "b.py".toList] (.file ⟨[], .finite false 1 0, false⟩)

/-- The page on the root and the page on the directory `root` are both written to `root.md`, so one
of them is lost. -/
theorem rootTwice_loses_page :
    (program .standard sampleSetting.now ["/p".toList] rootTwice).result = .ok 0 ∧
      ¬∀ x ∈ Catalogue.collect rootTwice .standard ⟨sampleSetting.root, IgnoreRules.builtIn⟩
          sampleSetting.root, ∀ f ∈ pagesOf sampleSetting rootTwice x,
        (program .standard sampleSetting.now ["/p".toList] rootTwice).fs.read
          (sampleSetting.pagesDir.child f.1) = .ok (Utf8.encode f.2) := by
  have hplain : rootTwice.Plain := by decide +kernel
  have hrules : IgnoreRules.load rootTwice sampleSetting.root [] =
      .ok ⟨sampleSetting.root, IgnoreRules.builtIn⟩ := by decide +kernel
  have hrun : (program .standard sampleSetting.now ["/p".toList] rootTwice).result = .ok 0 := by
    decide +kernel
  refine ⟨hrun, fun hall => ?_⟩
  have hclash := (full_run_keeps_pages_iff hplain (asks_sample hplain) (.inl rfl) hrules hrun).1.1
    hall
  have hlisted : Catalogue.collect rootTwice .standard ⟨sampleSetting.root, IgnoreRules.builtIn⟩
      sampleSetting.root = [([], [⟨.root, ["p".toList, "a.py".toList]⟩]),
        ("root".toList, [⟨.root, ["p".toList, "root".toList, "b.py".toList]⟩])] := by
    decide +kernel
  rw [hlisted] at hclash
  refine hclash _ List.mem_cons_self _ (List.mem_cons_of_mem _ List.mem_cons_self) (by decide) ?_
  exact .bases (by decide) ⟨fun _ => by decide +kernel, fun _ => by decide +kernel⟩

/-- A project with a file in `a/b` and one in `a_b`. -/
def flattened : FileSystem :=
  ((((((FileSystem.empty .standard []).put ["p".toList] .openDir).put
    ["p".toList, "a".toList] .openDir).put
    ["p".toList, "a".toList, "b".toList] .openDir).put
    ["p".toList, "a".toList, "b".toList, "x.py".toList]
      (.file ⟨[], .finite false 1 0, false⟩)).put
    ["p".toList, "a_b".toList] .openDir).put
    ["p".toList, "a_b".toList, "y.py".toList] (.file ⟨[], .finite false 1 0, false⟩)

/-- Both pages are written to `a_b.md`, so the first one can no longer be read. -/
theorem flattened_loses_page :
    (program .standard sampleSetting.now ["/p".toList] flattened).result = .ok 0 ∧
      ∃ x ∈ Catalogue.collect flattened .standard ⟨sampleSetting.root, IgnoreRules.builtIn⟩
          sampleSetting.root, ∃ f ∈ pagesOf sampleSetting flattened x,
        (program .standard sampleSetting.now ["/p".toList] flattened).fs.read
          (sampleSetting.pagesDir.child f.1) ≠ .ok (Utf8.encode f.2) := by
  decide +kernel

end CodeIndex.Indexing
