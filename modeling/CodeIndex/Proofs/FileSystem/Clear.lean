import CodeIndex.Proofs.FileSystem.Query

/-!
# Making directories

Along a path that is not too long all directories can be made unless something else stands on the way,
where every directory that is there can be searched and takes new entries.
-/

namespace CodeIndex

/-- What stands in front of a name does not depend on the name. -/
theorem Path.exists_toText_child {p : Path} (ha : p.anchor ≠ .relative) :
    ∃ front, ∀ n, (p.child n).toText = front ++ n := by
  have hnames : ∀ names : List Text, ∃ front, ∀ n, joinNames (names ++ [n]) = front ++ n := by
    intro names
    induction names with
    | nil => exact ⟨[], fun n => by simp [joinNames, List.intercalate]⟩
    | cons name names ih =>
      obtain ⟨front, hfront⟩ := ih
      refine ⟨name ++ '/' :: front, fun n => ?_⟩
      obtain ⟨m, rest, hrest⟩ := List.exists_cons_of_ne_nil
        (List.append_ne_nil_of_right_ne_nil names (List.cons_ne_nil n []))
      rw [List.cons_append, hrest, joinNames_cons, ← hrest, hfront, List.append_assoc]
      rfl
  obtain ⟨front, hfront⟩ := hnames p.names
  refine ⟨p.anchor.text ++ front, fun n => ?_⟩
  rw [toText_of_ne_relative (by exact ha), bareText, child_names, hfront, List.append_assoc]
  rfl

/-- A character has at most four bytes. -/
theorem Utf8.size_le (t : Text) : Utf8.size t ≤ 4 * t.length := by
  induction t with
  | nil => exact Nat.le_refl 0
  | cons c t ih =>
    have hchar : Utf8.size [c] ≤ 4 := by
      simp only [Utf8.size, List.foldl_cons, List.foldl_nil, Utf8.encodeChar]
      split
      · simp
      · split
        · simp
        · split <;> simp
    have hsize := FileSystem.size_append [c] t
    rw [List.singleton_append] at hsize
    rw [hsize, List.length_cons]
    omega

namespace FileSystem

variable {fs : FileSystem} {p : Path} {n : Text} {loc cur : Location} {names : List Text}

/-- Every directory can be searched and takes new entries. -/
def AllOpen (fs : FileSystem) : Prop :=
  ∀ loc e, fs.get? loc = some e → e.isSearchable = true ∧ e.isWritable = true

theorem AllOpen.isSearchableAt (h : fs.AllOpen) (loc : Location) : fs.isSearchableAt loc = true :=
  (Option.all_eq_true _ _).2 fun e hget => (h loc e hget).1

theorem AllOpen.isWritableAt (h : fs.AllOpen) (loc : Location) : fs.isWritableAt loc = true :=
  (Option.all_eq_true _ _).2 fun e hget => (h loc e hget).2

theorem AllOpen.openWay (h : fs.AllOpen) (loc : Location) : fs.OpenWay loc :=
  fun above _ _ => h.isSearchableAt above

theorem AllOpen.put {e : Entry} (h : fs.AllOpen) (hloc : loc ≠ [])
    (he : e.isSearchable = true ∧ e.isWritable = true) : (fs.put loc e).AllOpen := by
  intro key e' hget
  rw [get?_put fs hloc] at hget
  split at hget
  · exact Option.some.inj hget ▸ he
  · exact h key e' hget

theorem AddsDirs.allOpen {fs' : FileSystem} {place : Location → Prop} (h : AddsDirs fs fs' place)
    (hopen : fs.AllOpen) : fs'.AllOpen := by
  intro loc e hget
  cases hbefore : fs.get? loc with
  | some e' =>
    rw [h.kept loc e' hbefore] at hget
    exact Option.some.inj hget ▸ hopen loc e' hbefore
  | none =>
    rcases h.new loc hbefore with hnone | ⟨hnew, -⟩
    · rw [hnone] at hget
      cases hget
    · rw [hnew] at hget
      cases hget
      exact ⟨rfl, rfl⟩

/-- On the way to a location and at it nothing but directories stands. -/
def IsClear (fs : FileSystem) (loc : Location) : Prop :=
  ∀ above e, above <+: loc → fs.get? above = some e → e.isDirectory = true

theorem isClear_of_isDirectoryAt (h : fs.Plain) (hdir : fs.isDirectoryAt loc = true) :
    fs.IsClear loc := by
  intro above e habove hget
  have habove : fs.isDirectoryAt above = true := by
    by_cases heq : above = loc
    · exact heq ▸ hdir
    · obtain ⟨data, hloc⟩ := isDirectoryAt_iff.1 hdir
      exact h.isDirectoryAt_above hloc habove heq
  simpa [isDirectoryAt, hget] using habove

theorem IsClear.concat (h : fs.IsClear loc)
    (hlast : ∀ e, fs.get? (loc ++ [n]) = some e → e.isDirectory = true) :
    fs.IsClear (loc ++ [n]) := by
  intro above e habove hget
  rcases List.prefix_concat_iff.1 habove with rfl | habove
  · exact hlast e hget
  · exact h above e habove hget

theorem IsClear.above (h : fs.IsClear (loc ++ [n])) : fs.IsClear loc :=
  fun above e habove => h above e (habove.trans (List.prefix_append _ _))

theorem descend_of_clear (hopen : fs.AllOpen) (hn : ∀ n ∈ names, n ≠ ['.', '.'])
    (hsize : ∀ n ∈ names, Utf8.size n ≤ maxNameSize)
    (hclear : ∀ above e, above <+: names → fs.get? (cur ++ above) = some e → e.isDirectory = true) :
    fs.descend cur names = .ok (cur ++ names) ∨ fs.descend cur names = .error .notFound := by
  induction names generalizing cur with
  | nil => exact .inl (by simp [descend])
  | cons name rest ih =>
    rw [descend, hopen.isSearchableAt, if_neg (by simp), if_neg (hn name List.mem_cons_self),
      if_neg (Nat.not_lt.2 (hsize name List.mem_cons_self))]
    cases hget : fs.get? (cur ++ [name]) with
    | none =>
      cases rest with
      | nil => exact .inl rfl
      | cons m rest => exact .inr rfl
    | some e =>
      have hdir := hclear [name] e (by simp) hget
      cases e with
      | directory data =>
        have hrest : ∀ above e, above <+: rest → fs.get? (cur ++ [name] ++ above) = some e →
            e.isDirectory = true := fun above e habove hget =>
          hclear (name :: above) e (List.cons_prefix_cons.2 ⟨rfl, habove⟩) (by simpa using hget)
        simpa using ih (fun m hm => hn m (List.mem_cons_of_mem _ hm))
          (fun m hm => hsize m (List.mem_cons_of_mem _ hm)) hrest
      | _ => cases hdir

/-- A path with a clear way leads to its names unless some name before the last is missing. -/
theorem IsClear.locate (hclear : fs.IsClear p.names) (h : fs.Plain) (hopen : fs.AllOpen)
    (hp : p.IsProper) (hs : IsShort p) (aim : Aim) :
    fs.locate aim p = .ok p.names ∨ fs.locate aim p = .error .notFound := by
  rw [locate_eq h hp.isFull, if_neg (Nat.not_lt.2 hs.path)]
  exact descend_of_clear hopen (fun n hn => (hp.names n hn).ne_dots) hs.names hclear

/-- At a path with a clear way nothing is found if nothing is there. -/
theorem IsClear.look_eq_none (hclear : fs.IsClear p.names) (h : fs.Plain) (hopen : fs.AllOpen)
    (hp : p.IsProper) (hs : IsShort p) (hnone : fs.get? p.names = none) :
    fs.look p = .ok none := by
  unfold look stat answer
  rw [hp.isFull.null]
  rcases hclear.locate h hopen hp hs .entry with hloc | hloc
  · simp [hloc, hnone, bind, Except.bind, throw, throwThe, MonadExceptOf.throw, Errno.meansAbsent]
  · simp [hloc, bind, Except.bind, Errno.meansAbsent]

/-- Nothing is found under a name that a directory does not have. -/
theorem look_missing (h : fs.Plain) (hopen : fs.AllOpen) (hp : p.IsProper)
    (hdir : fs.isDirectoryAt p.names = true)
    (hn : Path.IsName n) (hs : IsShort (p.child n)) (hnone : fs.get? (p.names ++ [n]) = none) :
    fs.look (p.child n) = .ok none := by
  have hclear : fs.IsClear (p.child n).names :=
    (isClear_of_isDirectoryAt h hdir).concat fun e hget => by
      rw [hnone] at hget
      cases hget
  exact hclear.look_eq_none h hopen (hp.child hn) hs hnone

theorem IsShort.above (hs : IsShort (p.child n)) (ha : p.anchor ≠ .relative) : IsShort p where
  path := by
    obtain ⟨rest, hrest⟩ := Path.toText_prefix_child ha n
    have hsize := hs.path
    rw [← hrest, size_append] at hsize
    omega
  names m hm := hs.names m (List.mem_append_left _ hm)

theorem IsShort.mono {names' : List Text} (hs : IsShort ⟨.root, names⟩) (h : names' <+: names) :
    IsShort ⟨.root, names'⟩ := by
  obtain ⟨rest, rfl⟩ := h
  induction rest using List.reverseRecOn with
  | nil => rwa [List.append_nil] at hs
  | append_singleton rest n ih =>
    rw [← List.append_assoc] at hs
    exact ih (IsShort.above hs nofun)

/-- A name with no more bytes makes no path longer. -/
theorem IsShort.of_size {m : Text} (hs : IsShort (p.child m)) (ha : p.anchor ≠ .relative)
    (hsize : Utf8.size n ≤ Utf8.size m) : IsShort (p.child n) where
  path := by
    obtain ⟨front, hfront⟩ := Path.exists_toText_child ha
    have hpath := hs.path
    rw [hfront, size_append] at hpath ⊢
    omega
  names k hk := by
    rcases List.mem_append.1 hk with hk | hk
    · exact hs.names k (List.mem_append_left _ hk)
    · rw [List.mem_singleton.1 hk]
      exact Nat.le_trans hsize (hs.names m (by simp))

/-- Where no entry has a path that is too long, no path to an entry is. -/
theorem isShort_of_entries (h : ∀ x ∈ fs.entries, IsShort ⟨.root, x.1⟩) {e : Entry}
    (hget : fs.get? names = some e) : IsShort ⟨.root, names⟩ := by
  by_cases hne : names = []
  · subst hne
    decide
  · exact h _ ((get?_eq_some_iff hne).1 hget)

theorem exists_ensureDir (h : fs.Plain) (hopen : fs.AllOpen) (hp : p.IsProper)
    (hloc : fs.locate .entry p = .ok p.names)
    (hclear : ∀ e, fs.get? p.names = some e → e.isDirectory = true) :
    ∃ fs', fs.ensureDir p = .ok fs' := by
  cases hget : fs.get? p.names with
  | none =>
    have hmake := (makeDir_ok_iff h hp.isFull).2 ⟨_, hloc, hget, hopen.isWritableAt _, rfl⟩
    exact ⟨_, (ensureDir_ok_iff h hp.isFull).2 (.inl hmake)⟩
  | some e =>
    have hdir : fs.isDirectoryAt p.names = true := by simpa [isDirectoryAt, hget] using hclear e hget
    exact ⟨fs, (ensureDir_ok_iff h hp.isFull).2 (.inr ⟨rfl, _, hloc, hdir⟩)⟩

/-- Where nothing but a directory stood, nothing else is added. -/
theorem AddsDirs.isDirectory {fs' : FileSystem} {place : Location → Prop}
    (h : AddsDirs fs fs' place) (hold : ∀ e, fs.get? loc = some e → e.isDirectory = true) (e : Entry)
    (hget : fs'.get? loc = some e) : e.isDirectory = true := by
  cases hbefore : fs.get? loc with
  | some e' =>
    rw [h.kept loc e' hbefore] at hget
    cases hget
    exact hold e hbefore
  | none =>
    rcases h.new loc hbefore with hnone | ⟨hnew, -⟩
    · rw [hnone] at hget
      cases hget
    · rw [hnew] at hget
      cases hget
      rfl

theorem exists_ensureDirsAlong {reversed : List Text} (h : fs.Plain) (hopen : fs.AllOpen)
    (hp : (⟨.root, reversed.reverse⟩ : Path).IsProper) (hs : IsShort ⟨.root, reversed.reverse⟩)
    (hclear : fs.IsClear reversed.reverse) : ∃ fs', ensureDirsAlong .root reversed fs = .ok fs' := by
  induction reversed generalizing fs with
  | nil =>
    exact exists_ensureDir h hopen hp (hs.locate h hp (hopen.openWay _) rfl .entry) fun e hget =>
      hclear [] e (by simp) hget
  | cons name above ih =>
    have hpath : (⟨.root, (name :: above).reverse⟩ : Path) =
        (⟨.root, above.reverse⟩ : Path).child name := by simp [Path.child]
    have hproper : (⟨.root, above.reverse⟩ : Path).IsProper :=
      ⟨rfl, fun m hm => hp.names m (by simp_all)⟩
    rw [ensureDirsAlong]
    simp only [hpath]
    rw [hpath] at hp hs
    rw [List.reverse_cons] at hclear
    rcases hclear.locate h hopen hp hs .entry with hloc | hloc
    · obtain ⟨fs', hensure⟩ := exists_ensureDir h hopen hp hloc fun e => hclear _ e (List.prefix_refl _)
      split
      · next hmake =>
        rw [ensureDir, hmake] at hensure
        cases hensure
      · exact ⟨fs', hensure⟩
    · have hmake : fs.makeDir ((⟨.root, above.reverse⟩ : Path).child name) =
          .error (.refused .notFound ((⟨.root, above.reverse⟩ : Path).child name).toText) := by
        unfold makeDir answer
        rw [hp.isFull.null, locate_aim h hp.isFull .name .entry, hloc]
        rfl
      -- the directories above are made first, and then the last one is missing or among them
      obtain ⟨fs₁, habove⟩ := ih h hopen hproper (hs.above hproper.isFull.anchor) hclear.above
      obtain ⟨hadds, L, hL, hdir⟩ := ensureDirsAlong_ok h hproper.isFull habove
      obtain rfl : L = above.reverse := locate_isProper hadds.plain hproper hL
      have hlast : fs₁.locate .entry ((⟨.root, above.reverse⟩ : Path).child name) =
          .ok (above.reverse ++ [name]) := by
        rw [locate_child hadds.plain hproper.isFull (hp.names name (by simp)) hL hdir,
          if_neg (Nat.not_lt.2 hs.path), (hadds.allOpen hopen).isSearchableAt, if_neg (by simp),
          if_neg (Nat.not_lt.2 (hs.names name (by simp)))]
      obtain ⟨fs', hensure⟩ := exists_ensureDir hadds.plain (hadds.allOpen hopen) hp hlast
        (hadds.isDirectory fun e => hclear _ e (List.prefix_refl _))
      refine ⟨fs', ?_⟩
      rw [hmake, habove]
      exact hensure

/-- Directories can be made along a path with a clear way. -/
theorem IsClear.exists_ensureDirs (hclear : fs.IsClear p.names) (h : fs.Plain)
    (hopen : fs.AllOpen) (hp : p.IsProper) (hs : IsShort p) : ∃ fs', fs.ensureDirs p = .ok fs' := by
  obtain ⟨anchor, names⟩ := p
  obtain rfl : anchor = .root := hp.anchor
  apply exists_ensureDirsAlong h hopen
  all_goals rwa [List.reverse_reverse]

/-- Where nothing stands, nothing stands below. -/
theorem Plain.get?_below {K : Location} (h : fs.Plain) (hnone : fs.get? K = none) (hloc : K <+: loc) :
    fs.get? loc = none := by
  cases hget : fs.get? loc with
  | none => rfl
  | some e =>
    by_cases heq : K = loc
    · rw [← heq, hnone] at hget
      cases hget
    · obtain ⟨data, hdir⟩ := isDirectoryAt_iff.1 (h.isDirectoryAt_above hget hloc heq)
      rw [hnone] at hdir
      cases hdir

/-- What is made along a path stands on the way to it. -/
theorem AddsDirs.prefix_of_ne {fs' : FileSystem} (h : AddsDirs fs fs' (OnWay p.names))
    (hp : p.IsProper) (hne : fs'.get? loc ≠ fs.get? loc) : loc <+: p.names := by
  cases hget : fs.get? loc with
  | some e => exact absurd ((h.kept loc e hget).trans hget.symm) hne
  | none =>
    rcases h.new loc hget with hsame | ⟨-, hway⟩
    · exact absurd (hsame.trans hget.symm) hne
    · exact hway fun n hn => (hp.names n hn).ne_dots

end FileSystem

end CodeIndex
