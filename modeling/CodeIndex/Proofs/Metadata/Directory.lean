import CodeIndex.Proofs.Catalogue.Exact
import CodeIndex.Proofs.Indexing.History
import CodeIndex.Proofs.Metadata.Operations

/-!
# Recorded files in a directory

The recorded files in a directory are found by what their keys start with. In a key every name stands
behind a slash and has none in it, so a key starts with the path of a directory and a slash exactly if the
names of the directory are the first of its own. Every key that a run records is of that kind.
-/

namespace CodeIndex

namespace Path

section Spelling

variable {α : Type} {sep c : α} {x y u v : List α} {xs ys : List (List α)}

/-- Names one behind the other, each behind a separator. -/
def spelled (sep : α) (names : List (List α)) : List α := names.flatMap (sep :: ·)

theorem spelled_cons (sep : α) (x : List α) (xs : List (List α)) :
    spelled sep (x :: xs) = sep :: (x ++ spelled sep xs) := rfl

theorem spelled_concat (sep : α) (xs : List (List α)) (x : List α) :
    spelled sep (xs ++ [x]) = spelled sep xs ++ sep :: x := by
  rw [spelled, List.flatMap_append, List.flatMap_singleton]
  rfl

theorem eq_of_mem_head?_spelled (h : c ∈ (spelled sep xs).head?) : c = sep := by
  cases xs with
  | nil => cases h
  | cons x xs => exact (Option.some.inj h).symm

/-- A name ends where a separator follows. -/
theorem append_prefix_append_iff (hx : sep ∉ x) (hy : sep ∉ y) (hu : u.head? = some sep)
    (hv : ∀ c ∈ v.head?, c = sep) : x ++ u <+: y ++ v ↔ x = y ∧ u <+: v := by
  constructor
  · rintro ⟨rest, hrest⟩
    rw [List.append_assoc] at hrest
    rcases List.append_eq_append_iff.1 hrest with ⟨more, rfl, hmore⟩ | ⟨more, rfl, hmore⟩
    · cases more with
      | nil => exact ⟨(List.append_nil x).symm, rest, hmore⟩
      | cons c more =>
        have hc : c = sep := by
          have hhead := congrArg List.head? hmore
          rw [List.head?_append, hu] at hhead
          exact (Option.some.inj hhead).symm
        exact absurd (by simp [hc]) hy
    · cases more with
      | nil => exact ⟨List.append_nil y, rest, hmore.symm⟩
      | cons c more =>
        have hc : c = sep := hv c (by rw [hmore]; rfl)
        exact absurd (by simp [hc]) hx
  · rintro ⟨rfl, hbegins⟩
    exact (List.prefix_append_right_inj x).2 hbegins

/-- Names with a separator behind them start exactly the names that they are the first of. -/
theorem spelled_prefix_iff (hxs : ∀ x ∈ xs, sep ∉ x) (hys : ∀ y ∈ ys, sep ∉ y) :
    spelled sep xs ++ [sep] <+: spelled sep ys ↔ xs <+: ys ∧ xs ≠ ys := by
  induction xs generalizing ys with
  | nil =>
    cases ys with
    | nil => simp [spelled]
    | cons y ys => simp [spelled]
  | cons x xs ih =>
    cases ys with
    | nil => simp [spelled]
    | cons y ys =>
      obtain ⟨hx, hxs⟩ := List.forall_mem_cons.1 hxs
      obtain ⟨hy, hys⟩ := List.forall_mem_cons.1 hys
      have hhead : (spelled sep xs ++ [sep]).head? = some sep := by
        cases xs with
        | nil => rfl
        | cons x xs => rfl
      rw [spelled_cons, spelled_cons, List.cons_append, List.append_assoc, List.cons_prefix_cons,
        append_prefix_append_iff hx hy hhead fun c => eq_of_mem_head?_spelled, ih hxs hys,
        List.cons_prefix_cons]
      constructor
      · rintro ⟨-, rfl, hbegins, hne⟩
        exact ⟨⟨rfl, hbegins⟩, fun heq => hne (List.cons.inj heq).2⟩
      · rintro ⟨⟨rfl, hbegins⟩, hne⟩
        exact ⟨rfl, rfl, hbegins, fun heq => hne (by rw [heq])⟩

theorem prefix_of_spelled_eq (hxs : ∀ x ∈ xs, sep ∉ x) (hys : ∀ y ∈ ys, sep ∉ y)
    (h : spelled sep xs = spelled sep ys) : xs <+: ys := by
  -- with an empty name behind them, the names are below themselves
  have hmore : ∀ y ∈ ys ++ [[]], sep ∉ y := by
    intro y hy
    rcases List.mem_append.1 hy with hy | hy
    · exact hys y hy
    · rw [List.mem_singleton.1 hy]
      exact List.not_mem_nil
  have hsame : spelled sep (ys ++ [[]]) = spelled sep xs ++ [sep] := by rw [spelled_concat, h]
  have hbelow := (spelled_prefix_iff hxs hmore).1 (hsame ▸ List.prefix_refl _)
  exact (List.prefix_concat_iff.1 hbelow.1).resolve_left hbelow.2

theorem spelled_injective (hxs : ∀ x ∈ xs, sep ∉ x) (hys : ∀ y ∈ ys, sep ∉ y)
    (h : spelled sep xs = spelled sep ys) : xs = ys :=
  (prefix_of_spelled_eq hxs hys h).eq_of_length_le (prefix_of_spelled_eq hys hxs h.symm).length_le

theorem map_spelled {β : Type} (f : α → β) (sep : α) (xs : List (List α)) :
    (spelled sep xs).map f = spelled (f sep) (xs.map (List.map f)) := by
  simp [spelled, List.map_flatMap, List.flatMap_map]

end Spelling

variable {d : Path} {dir : Text}

theorem toText_eq_spelled (ha : d.anchor = .root) (hne : d.names ≠ []) :
    d.toText = spelled '/' d.names := by
  rw [toText_of_root ha]
  generalize d.names = names at hne
  induction names with
  | nil => exact absurd rfl hne
  | cons n names ih =>
    cases names with
    | nil => simp [joinNames, spelled]
    | cons m names => rw [joinNames_cons, spelled_cons, ← ih (List.cons_ne_nil m names)]

theorem getLast?_spelled {names : List Text} (h : ∀ n ∈ names, IsPiece n) :
    (spelled '/' names).getLast? ≠ some '/' := by
  rcases List.eq_nil_or_concat names with rfl | ⟨above, n, rfl⟩
  · simp [spelled]
  · rw [List.concat_eq_append] at h ⊢
    have hn := h n (by simp)
    rw [spelled_concat, List.getLast?_append_of_ne_nil _ (List.cons_ne_nil _ _),
      ← List.singleton_append, List.getLast?_append_of_ne_nil _ hn.ne_nil]
    exact fun hlast => hn.slash (List.mem_of_getLast? hlast)

/-- The path of a file that is written out: from the root, which is no file itself. -/
structure IsFilePath (p : Path) : Prop where
  anchor : p.anchor = .root
  ne_nil : p.names ≠ []
  pieces : ∀ n ∈ p.names, IsPiece n

theorem IsProper.isFilePath {p : Path} (h : p.IsProper) (hne : p.names ≠ []) : p.IsFilePath :=
  ⟨h.anchor, hne, fun n hn => (h.names n hn).toIsPiece⟩

/-- A directory is written as its path, with or without a slash at the end. The root has one anyway. -/
def IsWrittenAs (d : Path) (dir : Text) : Prop :=
  dir = d.toText ∨ d.names ≠ [] ∧ dir = d.toText ++ ['/']

/-- However a directory is written, with a slash at the end it is the same. -/
theorem IsWrittenAs.slashed (h : d.IsWrittenAs dir) (ha : d.anchor = .root)
    (hpieces : ∀ n ∈ d.names, IsPiece n) :
    (if dir.getLast? = some '/' then dir else dir ++ ['/']) = spelled '/' d.names ++ ['/'] := by
  by_cases hne : d.names = []
  · have hdir : dir = ['/'] := by
      rw [h.resolve_right fun hslashed => hslashed.1 hne, toText_of_root ha, hne]
      rfl
    rw [hdir, hne]
    rfl
  · rcases h with rfl | ⟨-, rfl⟩
    · rw [toText_eq_spelled ha hne, if_neg (getLast?_spelled hpieces)]
    · rw [toText_eq_spelled ha hne, if_pos (by simp)]

end Path

namespace Metadata

open Json

variable {m m' : Metadata} {d : Path} {dir : Text}

/-- The letter in front of every name of a path. -/
def slash : Letter := .char '/'

/-- A name in the path of a recorded file. It need not be a text: it can have halves of characters. -/
structure IsKeyName (n : Letters) : Prop where
  ne_nil : n ≠ []
  ne_dot : n ≠ [.char '.']
  slash : Metadata.slash ∉ n

/-- A file that is recorded, with the names of its path from the root. There is a name: the root is no
file, and if it were recorded, it would be found in itself. -/
structure RecordedFile where
  names : List Letters
  ne_nil : names ≠ []
  isName : ∀ n ∈ names, IsKeyName n

def RecordedFile.key (f : RecordedFile) : Letters := Path.spelled slash f.names

theorem RecordedFile.key_injective : Function.Injective RecordedFile.key := by
  intro f g h
  have hnames : f.names = g.names :=
    Path.spelled_injective (fun n hn => (f.isName n hn).slash) (fun n hn => (g.isName n hn).slash) h
  cases f
  cases g
  cases hnames
  rfl

/-- The records are those of some files, in their order. -/
def RecordsOnly (m : Metadata) (files : List RecordedFile) : Prop :=
  ∃ fields, m.files = .obj fields ∧ keys fields = files.map RecordedFile.key

/-- The records are those of some files, and perhaps of more files behind them. -/
def RecordsFirst (files : List RecordedFile) (m : Metadata) : Prop := ∃ more, m.RecordsOnly (files ++ more)

theorem RecordsOnly.recordsFirst {files : List RecordedFile} (h : m.RecordsOnly files) :
    RecordsFirst files m :=
  ⟨[], by rwa [List.append_nil]⟩

/-- A file is somewhere below a directory: the names of the directory are the first of its names, but not
all of them. -/
def RecordedFile.IsBelow (f : RecordedFile) (d : Path) : Prop :=
  d.names.map letters <+: f.names ∧ d.names.map letters ≠ f.names

instance (f : RecordedFile) (d : Path) : Decidable (f.IsBelow d) := inferInstanceAs (Decidable (_ ∧ _))

theorem letters_spelled (names : List Text) :
    letters (Path.spelled '/' names) = Path.spelled slash (names.map letters) :=
  Path.map_spelled Letter.char '/' names

theorem slash_notMem_letters {n : Text} (h : '/' ∉ n) : slash ∉ letters n := by
  intro hmem
  obtain ⟨c, hc, heq⟩ := List.mem_map.1 hmem
  exact h (Letter.char.inj heq ▸ hc)

/-- What the key of a file starts with tells whether it is below a directory. -/
theorem RecordedFile.prefix_key_iff (f : RecordedFile) (hpieces : ∀ n ∈ d.names, Path.IsPiece n) :
    letters (Path.spelled '/' d.names ++ ['/']) <+: f.key ↔ f.IsBelow d := by
  have hletters : letters (Path.spelled '/' d.names ++ ['/']) =
      Path.spelled slash (d.names.map letters) ++ [slash] := by
    rw [← letters_spelled]
    exact List.map_append
  have hnames : ∀ n ∈ d.names.map letters, slash ∉ n := by
    intro n hn
    obtain ⟨t, ht, rfl⟩ := List.mem_map.1 hn
    exact slash_notMem_letters (hpieces t ht).slash
  rw [hletters]
  exact Path.spelled_prefix_iff hnames fun n hn => (f.isName n hn).slash

theorem filesIn_eq {files : List RecordedFile} (h : m.RecordsOnly files) (ha : d.anchor = .root)
    (hpieces : ∀ n ∈ d.names, Path.IsPiece n) (hdir : d.IsWrittenAs dir) :
    m.filesIn dir = .ok ((files.filter fun f => f.IsBelow d).map RecordedFile.key) := by
  obtain ⟨fields, hfields, hkeys⟩ := h
  have hrecords : m.records = .ok fields := by rw [records, hfields]
  rw [filesIn, hdir.slashed ha hpieces, hrecords]
  have hfilter : (keys fields).filter (letters (Path.spelled '/' d.names ++ ['/'])).isPrefixOf =
      (files.filter fun f => f.IsBelow d).map RecordedFile.key := by
    rw [hkeys, List.filter_map]
    congr 1
    refine List.filter_congr fun f _ => ?_
    rw [Bool.eq_iff_iff, decide_eq_true_iff, ← f.prefix_key_iff hpieces]
    exact List.isPrefixOf_iff_prefix
  exact congrArg Except.ok hfilter

/-- A file in a directory whose name goes on where that of another one ends is not below that one. -/
theorem RecordedFile.not_isBelow_of_sibling {f : RecordedFile} {above rest : List Letters}
    {n more : Letters} (hd : d.names.map letters = above ++ [n]) (hmore : more ≠ [])
    (hf : f.names = above ++ (n ++ more) :: rest) : ¬f.IsBelow d := by
  rintro ⟨hbegins, -⟩
  rw [hd, hf, List.prefix_append_right_inj, List.cons_prefix_cons] at hbegins
  exact hmore (List.self_eq_append_right.1 hbegins.1)

/-- A file as it is recorded. -/
def RecordedFile.ofPath (p : Path) (h : p.IsFilePath) : RecordedFile where
  names := p.names.map letters
  ne_nil := by simpa using h.ne_nil
  isName n hn := by
    obtain ⟨t, ht, rfl⟩ := List.mem_map.1 hn
    obtain ⟨hnil, hdot, hslash⟩ := h.pieces t ht
    refine ⟨by simpa [letters] using hnil, fun heq => hdot ?_, slash_notMem_letters hslash⟩
    exact letters_injective heq

theorem RecordedFile.key_ofPath {p : Path} (h : p.IsFilePath) : (ofPath p h).key = letters p.toText := by
  rw [Path.toText_eq_spelled h.anchor h.ne_nil, letters_spelled]
  rfl

/-- Recording a file leaves the keys as they are, or puts its own behind them. -/
theorem RecordsFirst.update {files : List RecordedFile} (h : RecordsFirst files m) {f : RecordedFile}
    {fs : FileSystem} {path : Text} {page checksum : Json} (hkey : f.key = letters path)
    (hok : m.update fs path page checksum = .ok m') : RecordsFirst files m' := by
  rcases update_ok hok with ⟨-, rfl⟩ | ⟨e, -, -, rfl⟩
  · exact h
  · obtain ⟨more, fields, hfields, hkeys⟩ := h
    refine ⟨more ++ if letters path ∈ keys fields then [] else [f], _, mapRecords_files hfields, ?_⟩
    rw [keys_setField, ← List.append_assoc]
    split
    · rw [List.append_nil, hkeys]
    · rw [List.map_append, hkeys, ← hkey]
      rfl

end Metadata

namespace Indexing

open CodeIndex.Action Metadata

variable {s : Setting} {fs : FileSystem} {m m' : Metadata} {files : List RecordedFile}

/-- What a catalogue lists can be recorded. -/
theorem isFilePath_of_mem_collect {registry : Registry} {rules : IgnoreRules} {root p : Path}
    {x : Text × List Path} (h : fs.Named) (hroot : root.IsProper)
    (hx : x ∈ Catalogue.collect fs registry rules root) (hp : p ∈ x.2) : p.IsFilePath := by
  obtain ⟨loc, way, n, -, hlisted, -, rfl⟩ := (Catalogue.exists_mem_collect_iff h).1 ⟨x.2, hx, hp⟩
  obtain ⟨e, hget, -⟩ := hlisted.holds
  refine ⟨hroot.anchor, by simp, fun m hm => ?_⟩
  have hm : m ∈ root.names ∨ m ∈ way ++ [n] := by
    simpa [Path.under, or_assoc] using hm
  rcases hm with hm | hm
  · exact (hroot.names m hm).toIsPiece
  · have hmem : m ∈ loc ++ way ++ [n] := by
      rw [List.append_assoc]
      exact List.mem_append_right loc hm
    exact (h _ _ hget m hmem).toIsPiece

theorem recordsFirst_recordFiles {paths : List Path} {pages : List Text} (h : RecordsFirst files m)
    (hpaths : ∀ p ∈ paths, p.IsFilePath) (hok : recordFiles m fs paths pages = .ok m') :
    RecordsFirst files m' := by
  refine foldlM_invariant (fun m m' p hp hfile h => ?_) hok h
  refine foldlM_invariant (fun m m' page _ hpage h => ?_) hfile h
  exact h.update (RecordedFile.key_ofPath (hpaths p hp)) hpage

/-- A directory that a run comes to leaves the keys as they are, or puts more of them behind. -/
theorem leaves_recordsFirst {x : Text × List Path} (h : RecordsFirst files m)
    (hpaths : ∀ p ∈ x.2, p.IsFilePath) :
    Leaves (visitDirectory s m x) fs (fun m _ => RecordsFirst files m) fun _ _ => True := by
  have hindexed : Leaves (indexDirectory s m x.1 x.2) fs (fun m _ => RecordsFirst files m)
      fun _ _ => True := by
    refine .print_bind (.ask_bind (fun content _ => ?_) fun _ _ => trivial)
    -- whatever writing the page does, the metadata are not touched by it
    refine .bind (fun _ _ => True) (fun out => by split <;> trivial) fun pages fs₁ _ => ?_
    exact .ask (fun m' hok => recordsFirst_recordFiles h hpaths hok) fun _ _ => trivial
  unfold visitDirectory
  split
  · refine .ask_bind (fun changed _ => ?_) fun _ _ => trivial
    split
    · exact hindexed
    · exact .pure h
  · exact hindexed

/-- A run keeps the keys that there are, and what it adds are the keys of files. -/
theorem Course.recordsFirst (c : Course s fs) (h : fs.Named) (hroot : s.root.IsProper)
    (hold : c.old.RecordsOnly files) : RecordsFirst files c.updated := by
  have hstart : c.start.RecordsOnly files := hold
  have hloop : Leaves (c.catalogue.foldlM (visitDirectory s) c.start) c.begun
      (fun m _ => RecordsFirst files m) fun _ _ => True := by
    refine .foldlM (fun m fs₁ x hx hm => leaves_recordsFirst hm fun p hp => ?_) hstart.recordsFirst
    exact isFilePath_of_mem_collect h hroot hx hp
  exact hloop.of_on c.paged_eq

end Indexing

namespace Metadata

open Json Indexing

/-- Whatever files are recorded, a directory is asked for by its path, with or without a slash at the end,
and the answer is exactly the files somewhere below it, in the order of their keys; a directory whose name
only starts with its own has no part in it. A run that finds records of files and no others leaves records
of files: those that it found, and behind them those of the files it has added. -/
theorem directory_queries_exact :
    (∀ (m : Metadata) (files : List RecordedFile), m.RecordsOnly files →
      ∀ d : Path, d.anchor = .root → (∀ n ∈ d.names, Path.IsPiece n) → ∀ dir, d.IsWrittenAs dir →
      ∃ found, m.filesIn dir = .ok found ∧
        found = (files.filter fun f => f.IsBelow d).map RecordedFile.key ∧
        ∀ (f : RecordedFile) (above rest : List Letters) (n more : Letters),
          d.names.map letters = above ++ [n] → more ≠ [] → f.names = above ++ (n ++ more) :: rest →
          f.key ∉ found) ∧
    ∀ (s : Setting) (fs : FileSystem) (c : Course s fs) (files : List RecordedFile), fs.Named →
      s.root.IsProper → c.old.RecordsOnly files →
      ∃ more, (c.updated.touch s.now).RecordsOnly (files ++ more) := by
  refine ⟨fun m files h d ha hpieces dir hdir => ?_,
    fun s fs c files h hroot hold => c.recordsFirst h hroot hold⟩
  refine ⟨_, filesIn_eq h ha hpieces hdir, rfl, fun f above rest n more hd hmore hf hmem => ?_⟩
  obtain ⟨g, hg, hkey⟩ := List.mem_map.1 hmem
  obtain rfl := RecordedFile.key_injective hkey
  exact RecordedFile.not_isBelow_of_sibling hd hmore hf (of_decide_eq_true (List.mem_filter.1 hg).2)

/-- A file by the names of its path. -/
def fileAt (names : List Text) (hne : names ≠ []) (h : ∀ n ∈ names, Path.IsName n) : RecordedFile :=
  .ofPath ⟨.root, names⟩ (Path.IsProper.isFilePath ⟨rfl, h⟩ hne)

/-- Files in two directories with names that start alike. -/
def alikeFiles : List RecordedFile :=
  [fileAt ["w".toList, "src".toList, "a.py".toList] (by simp) (by decide),
    fileAt ["w".toList, "src2".toList, "b.py".toList] (by simp) (by decide)]

def alikeRecords : Metadata :=
  { fresh sampleSetting.now with
    files := .obj [(letters "/w/src/a.py".toList, .null), (letters "/w/src2/b.py".toList, .null)] }

/-- The directory with the shorter name has one of the files, and a first run records files only. -/
theorem alikeRecords_queried :
    alikeRecords.filesIn "/w/src/".toList = .ok [letters "/w/src/a.py".toList] ∧
      ∃ (c : Course sampleSetting lonely) (more : List RecordedFile),
        (c.updated.touch sampleSetting.now).RecordsOnly more := by
  obtain ⟨hqueries, hruns⟩ := directory_queries_exact
  have hpieces : ∀ n ∈ ["w".toList, "src".toList], Path.IsName n := by decide
  constructor
  · obtain ⟨found, hfound, hbelow, -⟩ := hqueries alikeRecords alikeFiles ⟨_, rfl, by decide⟩
      ⟨.root, ["w".toList, "src".toList]⟩ rfl (fun n hn => (hpieces n hn).toIsPiece) "/w/src/".toList
      (.inr (by decide))
    rw [hfound, hbelow]
    exact congrArg Except.ok (by decide)
  · obtain ⟨hplain, -, -, -, hresult, -⟩ := lonely_found
    obtain ⟨c, -⟩ := ((asks_sample hplain).succeeds hresult).course
    have habsent : lonely.isPresent (sampleSetting.indexDir.child fileName) = .ok false := by
      decide +kernel
    have hfresh : load lonely sampleSetting.now sampleSetting.indexDir =
        .ok (fresh sampleSetting.now) := by
      rw [load, habsent]
      rfl
    have hold : c.old = fresh sampleSetting.now := Except.ok.inj (c.old_eq.symm.trans hfresh)
    obtain ⟨more, hmore⟩ := hruns sampleSetting lonely c [] hplain.named ⟨rfl, by decide⟩
      (hold ▸ ⟨[], rfl, rfl⟩)
    exact ⟨c, more, hmore⟩

end Metadata

end CodeIndex
