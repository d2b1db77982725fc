import CodeIndex.Proofs.Catalogue
import CodeIndex.Proofs.FileSystem.Child

/-!
# Catalogues are exact

In every file system, links, dangling links and refused directories included, a walk visits the
directories to which an open way leads, and no others. So a catalogue lists the files that stand in
such a directory, once each, and its directories come in pre-order.
-/

namespace CodeIndex

namespace FileSystem

variable {fs : FileSystem} {skips : Path → Bool} {levels : Nat} {dir : Path} {loc : Location}
  {v : Visit} {n m : Text} {way above : List Text}

/-- A way down from the directory at a location that a walk takes: all directories on it can be
listed, and those below the start stand there themselves, not as links, and are not skipped. -/
structure IsOpen (fs : FileSystem) (skips : Path → Bool) (dir : Path) (loc : Location)
    (way : List Text) : Prop where
  listed : ∀ above, above <+: way → ∃ names, fs.list (dir.under above) = .ok names
  real : ∀ above, above <+: way → above ≠ [] →
    ∃ data, fs.get? (loc ++ above) = some (.directory data)
  kept : ∀ above, above <+: way → above ≠ [] → skips (dir.under above) = false

theorem isOpen_nil : fs.IsOpen skips dir loc [] ↔ ∃ names, fs.list dir = .ok names := by
  constructor
  · intro h
    simpa [Path.under_nil] using h.listed [] (List.prefix_refl _)
  · intro h
    constructor <;> intro above habove <;> obtain rfl := List.prefix_nil.1 habove
    · simpa [Path.under_nil] using h
    · exact fun hne => absurd rfl hne
    · exact fun hne => absurd rfl hne

theorem isOpen_cons : fs.IsOpen skips dir loc (n :: way) ↔
    (∃ names, fs.list dir = .ok names) ∧ fs.isDirectoryAt (loc ++ [n]) = true ∧
      skips (dir.child n) = false ∧ fs.IsOpen skips (dir.child n) (loc ++ [n]) way := by
  have hchild : dir.under [n] = dir.child n := rfl
  constructor
  · intro h
    have hfirst : [n] <+: n :: way := List.prefix_append [n] way
    refine ⟨by simpa [Path.under_nil] using h.listed [] (List.nil_prefix),
      isDirectoryAt_iff.2 (h.real _ hfirst (List.cons_ne_nil _ _)),
      hchild ▸ h.kept _ hfirst (List.cons_ne_nil _ _), ?_⟩
    have hcons : ∀ above, above <+: way → n :: above <+: n :: way := fun above habove =>
      List.cons_prefix_cons.2 ⟨rfl, habove⟩
    refine ⟨fun above habove => ?_, fun above habove _ => ?_, fun above habove _ => ?_⟩
    · rw [Path.child_under]
      exact h.listed _ (hcons above habove)
    · rw [List.append_assoc]
      exact h.real _ (hcons above habove) (List.cons_ne_nil _ _)
    · rw [Path.child_under]
      exact h.kept _ (hcons above habove) (List.cons_ne_nil _ _)
  · rintro ⟨hlist, hreal, hkept, h⟩
    refine ⟨fun above habove => ?_, fun above habove hne => ?_, fun above habove hne => ?_⟩ <;>
      rcases List.prefix_cons_iff.1 habove with rfl | ⟨rest, rfl, hrest⟩
    · simpa [Path.under_nil] using hlist
    · rw [← Path.child_under]
      exact h.listed rest hrest
    · exact absurd rfl hne
    · by_cases hnil : rest = []
      · subst hnil
        exact isDirectoryAt_iff.1 hreal
      · simpa using h.real rest hrest hnil
    · exact absurd rfl hne
    · by_cases hnil : rest = []
      · subst hnil
        exact hkept
      · rw [← Path.child_under]
        exact h.kept rest hrest hnil

theorem IsOpen.start (h : fs.IsOpen skips dir loc way) :
    ∃ loc' data, fs.locate .entry dir = .ok loc' ∧ fs.get? loc' = some (.directory data) := by
  obtain ⟨names, hlist⟩ := h.listed [] List.nil_prefix
  rw [Path.under_nil] at hlist
  obtain ⟨-, loc', hloc', ⟨data, hdir, -⟩, -⟩ := list_ok_iff_locate.1 hlist
  exact ⟨loc', data, hloc', hdir⟩

/-- The visit of the directory at a location. -/
def visitAt (fs : FileSystem) (dir : Path) (loc : Location) : Visit :=
  ⟨dir, (fs.childNames loc).filter fun n => !fs.holdsDir dir n⟩

/-- A walk visits the directories to which the open ways lead. Where the start is located is asked only
if it can be. -/
theorem mem_walk_iff (h : fs.Named) (hloc : ∀ loc', fs.locate .entry dir = .ok loc' → loc' = loc) :
    v ∈ fs.walk skips levels dir ↔ ∃ way, way.length < levels ∧ fs.IsOpen skips dir loc way ∧
      v = fs.visitAt (dir.under way) (loc ++ way) := by
  induction levels generalizing dir loc with
  | zero => simp [walk]
  | succ levels ih =>
    rw [walk_succ]
    cases hlist : fs.list dir with
    | error failure =>
      refine ⟨nofun, fun ⟨way, _, hopen, _⟩ => ?_⟩
      obtain ⟨names, hnames⟩ := hopen.listed [] List.nil_prefix
      rw [Path.under_nil, hlist] at hnames
      cases hnames
    | ok names =>
      obtain ⟨-, loc', hloc', ⟨data, hdir, -⟩, rfl⟩ := list_ok_iff_locate.1 hlist
      obtain rfl := hloc loc' hloc'
      simp only [List.mem_cons, List.mem_flatMap, mem_entered_iff h hloc' hdir]
      constructor
      · rintro (rfl | ⟨n, ⟨hreal, hkept⟩, hv⟩)
        · refine ⟨[], Nat.succ_pos _, isOpen_nil.2 ⟨_, hlist⟩, ?_⟩
          rw [Path.under_nil, List.append_nil]
          rfl
        · obtain ⟨way, hlen, hopen, rfl⟩ := (ih (eq_of_locate_real h hloc' hdir hreal)).1 hv
          refine ⟨n :: way, Nat.succ_lt_succ hlen,
            isOpen_cons.2 ⟨⟨_, hlist⟩, hreal, hkept, hopen⟩, ?_⟩
          rw [Path.child_under, List.append_assoc]
          rfl
      · rintro ⟨way, hlen, hopen, rfl⟩
        cases way with
        | nil =>
          left
          rw [Path.under_nil, List.append_nil]
          rfl
        | cons n way =>
          obtain ⟨-, hreal, hkept, hopen⟩ := isOpen_cons.1 hopen
          refine .inr ⟨n, ⟨hreal, hkept⟩, (ih (eq_of_locate_real h hloc' hdir hreal)).2
            ⟨way, Nat.lt_of_succ_lt_succ hlen, hopen, ?_⟩⟩
          rw [Path.child_under, List.append_assoc]
          rfl

theorem IsOpen.length_le (h : fs.IsOpen skips dir loc way) : way.length ≤ fs.depth := by
  by_cases hway : way = []
  · simp [hway]
  · obtain ⟨data, hget⟩ := h.real way (List.prefix_refl _) hway
    have hlen := length_le_depth hget
    rw [List.length_append] at hlen
    omega

/-- A name in the directory at a location is that of an entry which is no directory and does not lead
to one. -/
def HoldsFile (fs : FileSystem) (dir : Path) (loc : Location) (n : Text) : Prop :=
  ∃ e, fs.get? (loc ++ [n]) = some e ∧ e.isDirectory = false ∧
    ∀ target, e = .link target → fs.isDir (dir.child n) = false

theorem mem_visitAt_files (hloc : fs.locate .entry dir = .ok loc) :
    n ∈ (fs.visitAt dir loc).files ↔ fs.HoldsFile dir loc n := by
  simp only [visitAt, List.mem_filter, mem_childNames, holdsDir, hloc, HoldsFile]
  cases hget : fs.get? (loc ++ [n]) with
  | none => simp
  | some e => cases e <;> simp [Entry.isDirectory]

/-- The end of an open way is located where the way leads. -/
theorem IsOpen.locate (h : fs.Named) (hopen : fs.IsOpen skips dir loc way)
    (hloc : fs.locate .entry dir = .ok loc) : fs.locate .entry (dir.under way) = .ok (loc ++ way) := by
  induction way generalizing dir loc with
  | nil => rwa [Path.under_nil, List.append_nil]
  | cons n way ih =>
    obtain ⟨loc', data, hloc', hdir⟩ := hopen.start
    obtain rfl : loc = loc' := Except.ok.inj (hloc.symm.trans hloc')
    obtain ⟨-, hreal, -, hrest⟩ := isOpen_cons.1 hopen
    obtain ⟨loc₁, -, hloc₁, -⟩ := hrest.start
    obtain rfl := eq_of_locate_real h hloc hdir hreal loc₁ hloc₁
    rw [← Path.child_under, ih hrest hloc₁, List.append_assoc]
    rfl

end FileSystem

namespace Catalogue

open FileSystem

variable {fs : FileSystem} {registry : Registry} {rules : IgnoreRules} {root f : Path} {key : Text}
  {loc : Location} {way : List Text} {n : Text}

/-- A name at the end of a way that makes a file to be listed: the way is open, the file is not ignored,
and its ending in lower case is one of a language's. -/
structure IsListed (fs : FileSystem) (registry : Registry) (rules : IgnoreRules) (root : Path)
    (loc : Location) (way : List Text) (n : Text) : Prop where
  isOpen : fs.IsOpen rules.ignores root loc way
  holds : fs.HoldsFile (root.under way) (loc ++ way) n
  kept : rules.ignores ((root.under way).child n) = false
  language : ∃ l ∈ registry, Text.lower ((root.under way).child n).suffix ∈ l.extensions

theorem languageOf?_isSome_iff {p : Path} : (registry.languageOf? p).isSome ↔
    ∃ l ∈ registry, Text.lower p.suffix ∈ l.extensions := by
  simp [Registry.languageOf?, List.find?_isSome, Language.accepts]

theorem mem_filesOf_iff {v : Visit} : f ∈ filesOf registry rules v ↔
    (∃ n ∈ v.files, v.dir.child n = f) ∧ rules.ignores f = false ∧
      (registry.languageOf? f).isSome := by
  simp [filesOf]

/-- A walk of the root goes down as far as there are directories. -/
theorem mem_walk_root_iff {v : Visit} (h : fs.Named) :
    v ∈ fs.walk rules.ignores (fs.depth + 1) root ↔ ∃ loc way, fs.locate .entry root = .ok loc ∧
      fs.IsOpen rules.ignores root loc way ∧ v = fs.visitAt (root.under way) (loc ++ way) := by
  have hmem : ∀ loc, (∀ loc', fs.locate .entry root = .ok loc' → loc' = loc) →
      (v ∈ fs.walk rules.ignores (fs.depth + 1) root ↔ ∃ way, way.length < fs.depth + 1 ∧
        fs.IsOpen rules.ignores root loc way ∧ v = fs.visitAt (root.under way) (loc ++ way)) :=
    fun _ hsame => mem_walk_iff h hsame
  constructor
  · intro hv
    cases hloc : fs.locate .entry root with
    | error err =>
      obtain ⟨way, -, hopen, -⟩ := (hmem [] (by simp [hloc])).1 hv
      obtain ⟨loc, -, hloc', -⟩ := hopen.start
      rw [hloc] at hloc'
      cases hloc'
    | ok loc =>
      obtain ⟨way, -, hopen, rfl⟩ := (hmem loc fun loc' heq => (Except.ok.inj (hloc ▸ heq)).symm).1 hv
      exact ⟨loc, way, rfl, hopen, rfl⟩
  · rintro ⟨loc, way, hloc, hopen, rfl⟩
    exact (hmem loc fun loc' heq => (Except.ok.inj (hloc ▸ heq)).symm).2
      ⟨way, Nat.lt_succ_of_le hopen.length_le, hopen, rfl⟩

/-- The files that a catalogue lists, with their keys. -/
theorem exists_mem_collect_iff (h : fs.Named) :
    (∃ files, (key, files) ∈ collect fs registry rules root ∧ f ∈ files) ↔
      ∃ loc way n, fs.locate .entry root = .ok loc ∧ IsListed fs registry rules root loc way n ∧
        key = Path.joinNames way ∧ f = (root.under way).child n := by
  simp only [mem_collect_iff, mem_walk_root_iff h]
  constructor
  · rintro ⟨files, ⟨-, v, ⟨loc, way, hloc, hopen, rfl⟩, heq⟩, hf⟩
    obtain ⟨rfl, rfl⟩ := Prod.mk.inj heq
    obtain ⟨⟨n, hn, rfl⟩, hkept, hlanguage⟩ := mem_filesOf_iff.1 hf
    have hholds := (mem_visitAt_files (hopen.locate h hloc)).1 hn
    exact ⟨loc, way, n, hloc, ⟨hopen, hholds, hkept, languageOf?_isSome_iff.1 hlanguage⟩,
      directoryKey_eq rfl rfl, rfl⟩
  · rintro ⟨loc, way, n, hloc, hlisted, rfl, rfl⟩
    have hf : (root.under way).child n ∈
        filesOf registry rules (fs.visitAt (root.under way) (loc ++ way)) :=
      mem_filesOf_iff.2 ⟨⟨n, (mem_visitAt_files (hlisted.isOpen.locate h hloc)).2 hlisted.holds, rfl⟩,
        hlisted.kept, languageOf?_isSome_iff.2 hlisted.language⟩
    refine ⟨_, ⟨List.ne_nil_of_mem hf, _, ⟨loc, way, hloc, hlisted.isOpen, rfl⟩, ?_⟩, hf⟩
    have hkey : directoryKey root (root.under way) = Path.joinNames way := directoryKey_eq rfl rfl
    rw [← hkey]
    rfl

/-- The visits that a catalogue keeps. -/
def kept (fs : FileSystem) (registry : Registry) (rules : IgnoreRules) (root : Path) : List Visit :=
  (fs.walk rules.ignores (fs.depth + 1) root).filter fun v => !(filesOf registry rules v).isEmpty

theorem collect_eq_map : collect fs registry rules root =
    (kept fs registry rules root).map fun v =>
      (directoryKey root v.dir, filesOf registry rules v) := by
  rw [collect, List.filter_map]
  rfl

/-- The keys are those of ways in pre-order. -/
theorem exists_ways (h : fs.Named) (registry : Registry) (rules : IgnoreRules) (root : Path) :
    ∃ ways : List (List Text),
    (collect fs registry rules root).map Prod.fst = ways.map Path.joinNames ∧
      (∀ loc, fs.locate .entry root = .ok loc → ways.Pairwise (fs.Precedes loc)) ∧
      ∀ way ∈ ways, ∀ n ∈ way, Path.IsName n := by
  have hway : ∀ v ∈ kept fs registry rules root, ∃ way, v.dir = root.under way ∧
      v.dir.names.drop root.names.length = way ∧ ∀ n ∈ way, Path.IsName n := by
    intro v hv
    obtain ⟨way, hdir, hnames⟩ := below_of_mem_walk h (List.mem_filter.1 hv).1
    exact ⟨way, hdir, by simp [hdir, Path.under], hnames⟩
  refine ⟨(kept fs registry rules root).map fun v => v.dir.names.drop root.names.length, ?_, ?_, ?_⟩
  · rw [collect_eq_map, List.map_map, List.map_map]
    refine List.map_congr_left fun v hv => ?_
    obtain ⟨way, hdir, hdrop, -⟩ := hway v hv
    refine directoryKey_eq (by rw [hdir]; rfl) ?_
    dsimp only
    rw [hdrop, hdir]
    rfl
  · intro loc hloc
    have hpre : List.Pairwise _ (fs.walk rules.ignores (fs.depth + 1) root) :=
      pairwise_walk h fun loc' heq => (Except.ok.inj (hloc.symm.trans heq)).symm
    refine List.pairwise_map.2 ((hpre.filter _).imp ?_)
    rintro v w ⟨way, way', hv, hw, hprec⟩
    simpa [hv, hw, Path.under] using hprec
  · intro way hmem
    obtain ⟨v, hv, rfl⟩ := List.mem_map.1 hmem
    obtain ⟨way, -, rfl, hnames⟩ := hway v hv
    exact hnames

theorem nodup_keys_of_named (h : fs.Named) :
    ((collect fs registry rules root).map Prod.fst).Nodup := by
  have hkeys : ((kept fs registry rules root).map fun v => directoryKey root v.dir).Nodup := by
    refine List.pairwise_map.2 (((pairwise_walk_ne h).filter _).imp_of_mem ?_)
    intro v w hv hw hne heq
    obtain ⟨way, hdir, hnames⟩ := below_of_mem_walk h (List.mem_filter.1 hv).1
    obtain ⟨way', hdir', hnames'⟩ := below_of_mem_walk h (List.mem_filter.1 hw).1
    rw [directoryKey_eq (by rw [hdir]; rfl) (by rw [hdir]; rfl),
      directoryKey_eq (by rw [hdir']; rfl) (by rw [hdir']; rfl)] at heq
    have hsame : way = way' := joinNames_injective (fun n hn => (hnames n hn).toIsPiece)
      (fun n hn => (hnames' n hn).toIsPiece) heq
    exact hne (by rw [hdir, hdir', hsame])
  simpa [collect_eq_map, Function.comp_def] using hkeys

theorem nodup_flatMap_files (h : fs.Named) :
    ((collect fs registry rules root).flatMap Prod.snd).Nodup := by
  rw [collect_eq_map, List.flatMap_map]
  refine List.nodup_flatMap.2 ⟨fun v hv => ?_,
    ((pairwise_walk_ne h).filter _).imp fun {v w} hne f hf hf' => ?_⟩
  · obtain ⟨loc, way, -, -, rfl⟩ := (mem_walk_root_iff h).1 (List.mem_filter.1 hv).1
    exact nodup_filesOf ((fs.nodup_childNames _).filter _)
  · obtain ⟨⟨n, -, rfl⟩, -⟩ := mem_filesOf_iff.1 hf
    obtain ⟨⟨n', -, heq⟩, -⟩ := mem_filesOf_iff.1 hf'
    exact hne (Path.child_injective heq).1.symm

/-- A catalogue lists a file under the key of its directory exactly if the directory is reached by an
open way and the file is one to be listed. It lists no file twice and no directory twice or without
files, and its directories come in pre-order, with each directory's own order of listing. -/
theorem collect_exact (h : fs.Named) (registry : Registry) (rules : IgnoreRules) (root : Path) :
    (∀ key f, (∃ files, (key, files) ∈ collect fs registry rules root ∧ f ∈ files) ↔
      ∃ loc way n, fs.locate .entry root = .ok loc ∧ IsListed fs registry rules root loc way n ∧
        key = Path.joinNames way ∧ f = (root.under way).child n) ∧
    ((collect fs registry rules root).flatMap Prod.snd).Nodup ∧
    (∀ x ∈ collect fs registry rules root, x.2 ≠ []) ∧
    ((collect fs registry rules root).map Prod.fst).Nodup ∧
    ∃ ways : List (List Text), (collect fs registry rules root).map Prod.fst =
      ways.map Path.joinNames ∧
      (∀ loc, fs.locate .entry root = .ok loc → ways.Pairwise (fs.Precedes loc)) ∧
      ∀ way ∈ ways, ∀ n ∈ way, Path.IsName n :=
  ⟨fun _ _ => exists_mem_collect_iff h, nodup_flatMap_files h, fun _ hx => (mem_collect_iff.1 hx).1,
    nodup_keys_of_named h, exists_ways h registry rules root⟩

/-- A project behind a link, with a dangling link, a link to a directory, a directory that cannot be
listed and one to be ignored. -/
def linkedProject : FileSystem :=
  ((((((((((FileSystem.empty .standard []).put ["l".toList] (.link "p".toList)).put
    ["p".toList] .openDir).put
    ["p".toList, "dead.py".toList] (.link "gone".toList)).put
    ["p".toList, "dir.py".toList] (.link "sub".toList)).put
    ["p".toList, "old".toList] .openDir).put
    ["p".toList, "old".toList, "y.py".toList] (.file ⟨[], .finite false 1 0, false⟩)).put
    ["p".toList, "shut".toList] .shutDir).put
    ["p".toList, "shut".toList, "x.py".toList] (.file ⟨[], .finite false 1 0, false⟩)).put
    ["p".toList, "sub".toList] .openDir).put
    ["p".toList, "sub".toList, "B.PY".toList] (.file ⟨[], .finite false 1 0, false⟩)

def linkedRules : IgnoreRules := ⟨Path.ofText "/l".toList, ["old".toList]⟩

/-- The dangling link and the file in the directory that is open are all that is listed. -/
theorem linkedProject_listed :
    linkedProject.Named ∧
      (∃ files, ("sub".toList, files) ∈
          collect linkedProject .standard linkedRules (Path.ofText "/l".toList) ∧
        Path.ofText "/l/sub/B.PY".toList ∈ files) ∧
      ((collect linkedProject .standard linkedRules (Path.ofText "/l".toList)).map
        Prod.fst).Nodup ∧
      collect linkedProject .standard linkedRules (Path.ofText "/l".toList) =
        [([], [Path.ofText "/l/dead.py".toList]),
          ("sub".toList, [Path.ofText "/l/sub/B.PY".toList])] := by
  have hnamed : linkedProject.Named := by decide +kernel
  have hexact := collect_exact hnamed .standard linkedRules (Path.ofText "/l".toList)
  have hopen : linkedProject.IsOpen linkedRules.ignores (Path.ofText "/l".toList) ["p".toList]
      ["sub".toList] :=
    isOpen_cons.2 ⟨⟨_, rfl⟩, by decide +kernel, by decide +kernel, isOpen_nil.2 ⟨_, rfl⟩⟩
  have hlisted : IsListed linkedProject .standard linkedRules (Path.ofText "/l".toList)
      ["p".toList] ["sub".toList] "B.PY".toList :=
    ⟨hopen, ⟨_, rfl, rfl, nofun⟩, by decide +kernel, languageOf?_isSome_iff.1 (by decide +kernel)⟩
  exact ⟨hnamed, (hexact.1 _ _).2 ⟨_, _, _, by decide +kernel, hlisted, by decide +kernel,
    by decide +kernel⟩, hexact.2.2.2.1, by decide +kernel⟩

end Catalogue

end CodeIndex
