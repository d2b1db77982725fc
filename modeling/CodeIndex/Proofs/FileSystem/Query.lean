import CodeIndex.Proofs.FileSystem.Resolve
import Mathlib.Data.List.Induction

/-!
# Questions to file systems without links

What is said of a path depends on the entries along it alone. `AgreeAlong` names the agreement of two
file systems on them.
-/

namespace CodeIndex.FileSystem

variable {fs fs' fs'' : FileSystem} {loc : Location} {p : Path} {e : Entry} {n : Text}
  {names : List Text}

theorem locate_isProper (h : fs.Plain) (hp : p.IsProper) {aim : Aim}
    (hloc : fs.locate aim p = .ok loc) : loc = p.names := by
  rw [locate_ok_iff h hp.isFull] at hloc
  simpa using descend_ok_eq (fun n hn => (hp.names n hn).ne_dots) hloc.2

/-- Two file systems have the same entries along a location. -/
def AgreeAlong (fs fs' : FileSystem) (loc : Location) : Prop :=
  ∀ above, above <+: loc → fs.get? above = fs'.get? above

theorem AgreeAlong.symm (h : AgreeAlong fs fs' loc) : AgreeAlong fs' fs loc :=
  fun above habove => (h above habove).symm

theorem AgreeAlong.here (h : AgreeAlong fs fs' loc) : fs.get? loc = fs'.get? loc :=
  h loc (List.prefix_refl loc)

theorem locate_congr (h : fs.Plain) (h' : fs'.Plain) (hp : p.IsProper)
    (hag : AgreeAlong fs fs' p.names) (aim : Aim) : fs.locate aim p = fs'.locate aim p := by
  rw [locate_eq h hp.isFull, locate_eq h' hp.isFull,
    descend_congr (fun n hn => (hp.names n hn).ne_dots) fun above habove => by
      simpa using hag above habove]

theorem stat_congr (h : fs.Plain) (h' : fs'.Plain) (hp : p.IsProper)
    (hag : AgreeAlong fs fs' p.names) : fs.stat p = fs'.stat p := by
  unfold stat
  rw [← locate_congr h h' hp hag .entry]
  cases hloc : fs.locate .entry p with
  | error err => rfl
  | ok loc =>
    simp only [bind, Except.bind]
    rw [locate_isProper h hp hloc, hag.here]

theorem look_congr (h : fs.Plain) (h' : fs'.Plain) (hp : p.IsProper)
    (hag : AgreeAlong fs fs' p.names) : fs.look p = fs'.look p := by
  unfold look
  rw [stat_congr h h' hp hag]

theorem isPresent_congr (h : fs.Plain) (h' : fs'.Plain) (hp : p.IsProper)
    (hag : AgreeAlong fs fs' p.names) : fs.isPresent p = fs'.isPresent p := by
  unfold isPresent
  rw [look_congr h h' hp hag]

theorem isDir_congr (h : fs.Plain) (h' : fs'.Plain) (hp : p.IsProper)
    (hag : AgreeAlong fs fs' p.names) : fs.isDir p = fs'.isDir p := by
  unfold isDir
  rw [stat_congr h h' hp hag]

theorem read_congr (h : fs.Plain) (h' : fs'.Plain) (hp : p.IsProper)
    (hag : AgreeAlong fs fs' p.names) : fs.read p = fs'.read p := by
  unfold read
  rw [← locate_congr h h' hp hag .entry]
  cases hloc : fs.locate .entry p with
  | error err => rfl
  | ok loc =>
    simp only [bind, Except.bind]
    rw [locate_isProper h hp hloc, hag.here]

theorem list_congr (h : fs.Plain) (h' : fs'.Plain) (hp : p.IsProper)
    (hag : AgreeAlong fs fs' p.names) (hnames : fs.childNames p.names = fs'.childNames p.names) :
    fs.list p = fs'.list p := by
  unfold list
  rw [← locate_congr h h' hp hag .entry]
  cases hloc : fs.locate .entry p with
  | error err => rfl
  | ok loc =>
    simp only [bind, Except.bind]
    rw [locate_isProper h hp hloc, hag.here, hnames]

theorem list_ok_iff (h : fs.Plain) (hp : p.IsProper) :
    fs.list p = .ok names ↔
      fs.locate .entry p = .ok p.names ∧
        (∃ data, fs.get? p.names = some (.directory data) ∧ data.listable = true) ∧
        names = fs.childNames p.names := by
  unfold list answer
  rw [hp.isFull.null]
  simp only [Bool.false_eq_true, if_false]
  cases hloc : fs.locate .entry p with
  | error err => simp [bind, Except.bind]
  | ok loc =>
    obtain rfl := locate_isProper h hp hloc
    simp only [bind, Except.bind, true_and]
    cases hget : fs.get? p.names with
    | none => simp [throw, throwThe, MonadExceptOf.throw]
    | some e =>
      cases e with
      | link target => exact absurd hget (h.links _ _)
      | directory data =>
        cases hlist : data.listable with
        | true => simpa [pure, Except.pure, hlist] using eq_comm
        | false => simp [hlist, throw, throwThe, MonadExceptOf.throw]
      | file data => simp [throw, throwThe, MonadExceptOf.throw]
      | special mtime size => simp [throw, throwThe, MonadExceptOf.throw]

/-- Every entry is named along its location as entries of directories can be. -/
def Named (fs : FileSystem) : Prop :=
  ∀ loc e, fs.get? loc = some e → ∀ n ∈ loc, Path.IsName n

theorem named_iff : fs.Named ↔ ∀ x ∈ fs.entries, ∀ n ∈ x.1, Path.IsName n := by
  constructor
  · intro h x hx n hn
    have hne : x.1 ≠ [] := List.ne_nil_of_mem hn
    exact h x.1 x.2 ((get?_eq_some_iff hne).2 hx) n hn
  · intro h loc e hget n hn
    exact h (loc, e) ((get?_eq_some_iff (List.ne_nil_of_mem hn)).1 hget) n hn

instance (fs : FileSystem) : Decidable fs.Named := decidable_of_iff _ named_iff.symm

theorem Plain.named (h : fs.Plain) : fs.Named := h.names

theorem Named.isName_of_mem_childNames (h : fs.Named) (hn : n ∈ fs.childNames loc) :
    Path.IsName n := by
  obtain ⟨e, hget⟩ := mem_childNames.1 hn
  exact h _ _ hget n (by simp)

theorem isName_of_mem_childNames (h : fs.Plain) (hn : n ∈ fs.childNames loc) : Path.IsName n :=
  h.named.isName_of_mem_childNames hn

theorem isLink_eq_false (h : fs.Plain) (p : Path) : fs.isLink p = false := by
  unfold isLink
  split
  · next loc _ =>
    cases hget : fs.get? loc with
    | none => rfl
    | some e =>
      cases e with
      | link target => exact absurd hget (h.links _ _)
      | _ => rfl
  · rfl

/-- The location of a directory on the way to an entry is a directory. -/
theorem Plain.isDirectoryAt_above (h : fs.Plain) {below : Location} (hget : fs.get? loc = some e)
    (hpre : below <+: loc) (hne : below ≠ loc) : fs.isDirectoryAt below = true := by
  obtain ⟨rest, rfl⟩ := hpre
  induction rest using List.reverseRecOn generalizing e with
  | nil => simp at hne
  | append_singleton rest m ih =>
    have hdir : fs.isDirectoryAt (below ++ rest) = true := h.above _ m e (by simpa using hget)
    by_cases hrest : rest = []
    · simpa [hrest] using hdir
    · obtain ⟨data, hget'⟩ := isDirectoryAt_iff.1 hdir
      exact ih hget' (by simpa using hrest)

/-- The way to an entry never looks as if it were not there: it can only be closed, or too long. -/
theorem descend_of_get? (h : fs.Plain) (cur : Location) (hn : ∀ n ∈ names, n ≠ ['.', '.'])
    (hget : fs.get? (cur ++ names) = some e) :
    fs.descend cur names = .ok (cur ++ names) ∨ fs.descend cur names = .error .denied ∨
      fs.descend cur names = .error .nameTooLong ∧ ∃ n ∈ names, maxNameSize < Utf8.size n := by
  induction names generalizing cur with
  | nil => exact .inl (by simp [descend])
  | cons name rest ih =>
    rw [descend, if_neg (hn name List.mem_cons_self)]
    by_cases hopen : (!fs.isSearchableAt cur) = true
    · exact .inr (.inl (if_pos hopen))
    rw [if_neg hopen]
    by_cases hsize : maxNameSize < Utf8.size name
    · exact .inr (.inr ⟨if_pos hsize, name, List.mem_cons_self, hsize⟩)
    rw [if_neg hsize]
    have hbelow : fs.get? ((cur ++ [name]) ++ rest) = some e := by simpa using hget
    have hih := ih (cur ++ [name]) (fun m hm => hn m (List.mem_cons_of_mem _ hm)) hbelow
    by_cases hrest : rest = []
    · subst hrest
      refine .inl ?_
      rw [hget]
      cases e <;> rfl
    · have hne : cur ++ [name] ≠ cur ++ [name] ++ rest := by simpa using hrest
      obtain ⟨data, hdir⟩ := isDirectoryAt_iff.1 <|
        h.isDirectoryAt_above hbelow (List.prefix_append _ _) hne
      simp only [hdir]
      rcases hih with hok | hdenied | ⟨hlong, m, hm, hsize⟩
      · exact .inl (by simpa using hok)
      · exact .inr (.inl hdenied)
      · exact .inr (.inr ⟨hlong, m, List.mem_cons_of_mem _ hm, hsize⟩)

theorem look_of_get? (h : fs.Plain) (hp : p.IsProper) (hget : fs.get? p.names = some e) :
    fs.look p = .ok (some e) ∨
      ∃ cause, cause.meansAbsent = false ∧ fs.look p = .error (.refused cause p.toText) := by
  have hloc : fs.locate .entry p = .ok p.names ∨
      ∃ cause, cause.meansAbsent = false ∧ fs.locate .entry p = .error cause := by
    rw [locate_eq h hp.isFull]
    split
    · exact .inr ⟨.nameTooLong, rfl, rfl⟩
    · rcases descend_of_get? h [] (fun n hn => (hp.names n hn).ne_dots) hget with hok | hbad | ⟨hbad, -⟩
      · exact .inl hok
      · exact .inr ⟨_, rfl, hbad⟩
      · exact .inr ⟨_, rfl, hbad⟩
  unfold look stat answer
  rw [hp.isFull.null]
  rcases hloc with hloc | ⟨cause, hcause, hloc⟩
  · left
    simp [hloc, bind, Except.bind, hget, pure, Except.pure]
  · right
    exact ⟨cause, hcause, by simp [hloc, bind, Except.bind, hcause]⟩

/-- A look is refused only where the way is, for a cause other than that nothing is there. -/
theorem look_error_iff {failure : Failure} : fs.look p = .error failure ↔
    p.hasNull = false ∧ ∃ cause, fs.locate .entry p = .error cause ∧ cause.meansAbsent = false ∧
      failure = .refused cause p.toText := by
  unfold look stat answer
  cases hnull : p.hasNull with
  | true => simp
  | false =>
    cases hloc : fs.locate .entry p with
    | error cause =>
      cases hcause : cause.meansAbsent with
      | true => simp [bind, Except.bind, hcause]
      | false => simpa [bind, Except.bind, hcause] using eq_comm
    | ok loc =>
      cases hget : fs.get? loc with
      | none => simp [bind, Except.bind, hget, throw, throwThe, MonadExceptOf.throw, Errno.meansAbsent]
      | some e => simp [bind, Except.bind, hget, pure, Except.pure]

/-- Where an entry can be looked up, it is what is found. -/
theorem eq_some_of_look (h : fs.Plain) (hp : p.IsProper) (hget : fs.get? p.names = some e)
    {found : Option Entry} (hlook : fs.look p = .ok found) : found = some e := by
  rcases look_of_get? h hp hget with hok | ⟨cause, -, herr⟩
  · exact Except.ok.inj (hlook.symm.trans hok)
  · rw [hlook] at herr
    cases herr

/-- A path that is not too long to be looked up. -/
structure IsShort (p : Path) : Prop where
  path : Utf8.size p.toText ≤ maxPathSize
  names : ∀ n ∈ p.names, Utf8.size n ≤ maxNameSize

theorem isShort_iff : IsShort p ↔
    Utf8.size p.toText ≤ maxPathSize ∧ ∀ n ∈ p.names, Utf8.size n ≤ maxNameSize :=
  ⟨fun h => ⟨h.path, h.names⟩, fun ⟨hpath, hnames⟩ => ⟨hpath, hnames⟩⟩

instance (p : Path) : Decidable (IsShort p) := decidable_of_iff _ isShort_iff.symm

theorem size_of_descend (hn : ∀ n ∈ names, n ≠ ['.', '.']) {cur : Location}
    (hok : fs.descend cur names = .ok loc) : ∀ n ∈ names, Utf8.size n ≤ maxNameSize := by
  induction names generalizing cur with
  | nil => exact nofun
  | cons name rest ih =>
    rw [descend, if_neg (hn name List.mem_cons_self)] at hok
    split at hok
    · cases hok
    split at hok
    · cases hok
    next hsize =>
    have hlast : ∀ {err : Errno}, (if rest.isEmpty then .ok (cur ++ [name]) else .error err) =
        Except.ok loc → ∀ n ∈ rest, Utf8.size n ≤ maxNameSize := by
      intro err hok
      split at hok
      · next hempty => simp [List.isEmpty_iff.1 hempty]
      · cases hok
    refine List.forall_mem_cons.2 ⟨Nat.not_lt.1 hsize, ?_⟩
    split at hok
    · exact ih (fun m hm => hn m (List.mem_cons_of_mem _ hm)) hok
    · exact hlast hok
    · exact hlast hok

theorem isShort_of_locate (h : fs.Plain) (hp : p.IsProper) {aim : Aim}
    (hloc : fs.locate aim p = .ok loc) : IsShort p := by
  obtain ⟨hpath, hdesc⟩ := (locate_ok_iff h hp.isFull aim).1 hloc
  exact ⟨hpath, size_of_descend (fun n hn => (hp.names n hn).ne_dots) hdesc⟩

/-- The directories above a location can be searched. -/
def OpenWay (fs : FileSystem) (loc : Location) : Prop :=
  ∀ above, above <+: loc → above ≠ loc → fs.isSearchableAt above = true

theorem OpenWay.above (h : fs.OpenWay (loc ++ [n])) : fs.OpenWay loc := by
  intro above habove _
  refine h above (habove.trans (List.prefix_append _ _)) fun heq => ?_
  have hlength := habove.length_le
  rw [heq, List.length_append, List.length_singleton] at hlength
  omega

theorem descend_of_short {cur : Location} (hn : ∀ n ∈ names, n ≠ ['.', '.'])
    (hsize : ∀ n ∈ names, Utf8.size n ≤ maxNameSize)
    (hopen : ∀ above, above <+: names → above ≠ names → fs.isSearchableAt (cur ++ above) = true)
    (hdirs : ∀ above, above <+: names → above ≠ names → fs.isDirectoryAt (cur ++ above) = true) :
    fs.descend cur names = .ok (cur ++ names) := by
  induction names generalizing cur with
  | nil => simp [descend]
  | cons name rest ih =>
    have hsearch : fs.isSearchableAt cur = true := by simpa using hopen [] (by simp) (by simp)
    rw [descend, hsearch, if_neg (by simp), if_neg (hn name List.mem_cons_self),
      if_neg (Nat.not_lt.2 (hsize name List.mem_cons_self))]
    by_cases hrest : rest = []
    · subst hrest
      cases fs.get? (cur ++ [name]) with
      | none => rfl
      | some e => cases e <;> rfl
    · obtain ⟨data, hdir⟩ := isDirectoryAt_iff.1 (hdirs [name] (by simp) (by simpa using hrest))
      have hlater : ∀ above, above <+: rest → above ≠ rest →
          name :: above <+: name :: rest ∧ name :: above ≠ name :: rest := fun above hpre hne =>
        ⟨List.cons_prefix_cons.2 ⟨rfl, hpre⟩, fun heq => hne (List.cons.inj heq).2⟩
      simp only [hdir]
      rw [ih (fun m hm => hn m (List.mem_cons_of_mem _ hm))
        (fun m hm => hsize m (List.mem_cons_of_mem _ hm))
        (fun above hpre hne => by
          simpa using hopen _ (hlater above hpre hne).1 (hlater above hpre hne).2)
        fun above hpre hne => by
          simpa using hdirs _ (hlater above hpre hne).1 (hlater above hpre hne).2]
      simp

theorem IsShort.locate (hs : IsShort p) (h : fs.Plain) (hp : p.IsProper)
    (hopen : fs.OpenWay p.names) (hget : fs.get? p.names = some e) (aim : Aim) :
    fs.locate aim p = .ok p.names := by
  rw [locate_eq h hp.isFull, if_neg (Nat.not_lt.2 hs.path)]
  exact descend_of_short (fun n hn => (hp.names n hn).ne_dots) hs.names hopen
    fun above hpre hne => h.isDirectoryAt_above hget hpre hne

/-- An entry with a path that is not too long is found, unless the way to it is closed. -/
theorem IsShort.locate_or_denied (hs : IsShort p) (h : fs.Plain) (hp : p.IsProper)
    (hget : fs.get? p.names = some e) (aim : Aim) :
    fs.locate aim p = .ok p.names ∨ fs.locate aim p = .error .denied := by
  rw [locate_eq h hp.isFull, if_neg (Nat.not_lt.2 hs.path)]
  rcases descend_of_get? h [] (fun n hn => (hp.names n hn).ne_dots) hget with
    hok | hdenied | ⟨-, n, hn, hlong⟩
  · exact .inl hok
  · exact .inr hdenied
  · exact absurd (hs.names n hn) (Nat.not_le.2 hlong)

/-- Keeping the directories and what is at a location keeps all that is along it. -/
theorem KeepsDirs.agreeAlong (hk : KeepsDirs fs fs') (h : fs.Plain) (hget : fs.get? loc = some e)
    (hget' : fs'.get? loc = some e) : AgreeAlong fs fs' loc := by
  intro above habove
  by_cases hne : above = loc
  · rw [hne, hget, hget']
  · obtain ⟨data, hdir⟩ := isDirectoryAt_iff.1 (h.isDirectoryAt_above hget habove hne)
    rw [hdir, hk above data hdir]

theorem isDir_of_look {p : Path} (h : fs.look p = .ok (some e)) : fs.isDir p = e.isDirectory := by
  unfold look at h
  unfold isDir
  split at h
  · next hstat =>
    cases h
    rw [hstat]
  · split at h <;> cases h
  · cases h

/-- Two file systems in which the same is to be found. -/
structure SameEntries (fs fs' : FileSystem) : Prop where
  cwd : fs'.cwd = fs.cwd
  listing : fs'.host.listing = fs.host.listing
  get? : ∀ loc, fs'.get? loc = fs.get? loc

namespace SameEntries

theorem refl (fs : FileSystem) : SameEntries fs fs := ⟨rfl, rfl, fun _ => rfl⟩

theorem plain (h : SameEntries fs fs') (hfs : fs.Plain) : fs'.Plain where
  names loc e hget := hfs.names loc e (h.get? loc ▸ hget)
  above loc n e hget := by
    rw [isDirectoryAt, h.get? loc]
    exact hfs.above loc n e (h.get? _ ▸ hget)
  links loc target hget := hfs.links loc target (h.get? loc ▸ hget)

theorem keepsDirs (h : SameEntries fs fs') : KeepsDirs fs fs' :=
  fun loc _ hget => (h.get? loc).trans hget

theorem agreeAlong (h : SameEntries fs fs') (loc : Location) : AgreeAlong fs fs' loc :=
  fun above _ => (h.get? above).symm

/-- Putting an entry where it stands changes nothing. -/
theorem put (h : SameEntries fs fs') (hloc : loc ≠ []) (hget : fs.get? loc = some e) :
    SameEntries fs (fs'.put loc e) := by
  refine ⟨h.cwd, h.listing, fun key => ?_⟩
  rw [get?_put _ hloc]
  split
  · next heq => rw [heq, hget]
  · exact h.get? key

end SameEntries

end CodeIndex.FileSystem
