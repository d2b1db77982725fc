import CodeIndex.Proofs.Text.Decode
import CodeIndex.Proofs.Text.LineEnds
import CodeIndex.Proofs.Text.Pieces
import Mathlib.Data.List.Basic
import Mathlib.Data.List.Induction

/-!
# Reading in chunks

A file that is read chunk by chunk gives the lines of its text, wherever the chunks end. Between two
chunks a reader has decoded a text, whose last character may be a carriage return that is held back, and
has cut it into lines; the next chunk, if it can be decoded, goes on with that text. So a file that is text
to its end gives all its lines, and of any other file only lines are given that end in the longest text it
starts with.
-/

namespace CodeIndex

namespace Utf8

variable {bs : Bytes} {s : State} {t u acc : Text}

/-- What has been decoded before has no part in what comes. -/
theorem feed_append (s : State) (u acc : Text) (b : UInt8) :
    feed (s, u ++ acc) b = (feed (s, u) b).map fun p => (p.1, p.2 ++ acc) := by
  simp only [feed]
  cases step s b <;> rfl

theorem foldlM_feed_append (bs : Bytes) (s : State) (u acc : Text) :
    bs.foldlM feed (s, u ++ acc) = (bs.foldlM feed (s, u)).map fun p => (p.1, p.2 ++ acc) := by
  induction bs generalizing s u with
  | nil => rfl
  | cons b bs ih =>
    rw [List.foldlM_cons, List.foldlM_cons, feed_append]
    cases feed (s, u) b with
    | none => rfl
    | some p => exact ih p.1 p.2

/-- What has been decoded stands at the start of the bytes; behind it there are at most the first bytes of
a character. -/
theorem encode_prefix_of_foldlM (h : bs.foldlM feed (.between, []) = some (s, t.reverse)) :
    encode t <+: bs := by
  induction bs using List.reverseRecOn generalizing s t with
  | nil =>
    cases t with
    | nil => exact List.prefix_refl []
    | cons c t => simp at h
  | append_singleton bs b ih =>
    have hwhole := h
    rw [List.foldlM_append, Option.bind_eq_bind, Option.bind_eq_some_iff] at h
    obtain ⟨⟨s₀, acc⟩, hbs, hb⟩ := h
    have hfeed : feed (s₀, acc) b = some (s, t.reverse) := by simpa using hb
    simp only [feed] at hfeed
    split at hfeed
    · obtain ⟨-, hacc⟩ := Prod.mk.inj (Option.some.inj hfeed)
      exact (ih (hacc ▸ hbs)).trans (List.prefix_append bs [b])
    · -- a character is complete, so all bytes are those of what has been decoded
      obtain ⟨rfl, -⟩ := Prod.mk.inj (Option.some.inj hfeed)
      obtain ⟨u, hu, ht⟩ := exists_encode_of_foldlM hwhole
      rw [List.append_nil, List.reverse_inj] at ht
      have heq : encode t = bs ++ [b] := by rw [ht, hu]
      exact heq ▸ List.prefix_refl _
    · cases hfeed

/-- No character's bytes start those of another one, and so it is with texts. -/
theorem prefix_of_encode (h : encode u <+: encode t) : u <+: t := by
  obtain ⟨rest, hrest⟩ := h
  have hdecoded := foldlM_feed_encode t []
  rw [← hrest, List.foldlM_append, foldlM_feed_encode, Option.bind_eq_bind, Option.bind_some,
    List.append_nil, List.append_nil] at hdecoded
  obtain ⟨v, -, hv⟩ := exists_encode_of_foldlM hdecoded
  rw [← List.reverse_append, List.reverse_inj] at hv
  exact ⟨v, hv.symm⟩

/-- The longest text that some bytes start with. -/
structure IsLongest (t : Text) (bs : Bytes) : Prop where
  starts : encode t <+: bs
  longest : ∀ u, encode u <+: bs → (encode u).length ≤ (encode t).length

theorem exists_isLongest (bs : Bytes) : ∃ t, IsLongest t bs := by
  induction bs using List.reverseRecOn with
  | nil => exact ⟨[], List.prefix_refl [], fun u hu => hu.length_le⟩
  | append_singleton bs b ih =>
    by_cases hwhole : ∃ t, encode t = bs ++ [b]
    · obtain ⟨t, ht⟩ := hwhole
      exact ⟨t, ht ▸ List.prefix_refl _, fun u hu => ht ▸ hu.length_le⟩
    · obtain ⟨t, hstarts, hlongest⟩ := ih
      refine ⟨t, hstarts.trans (List.prefix_append bs [b]), fun u hu => ?_⟩
      rcases List.prefix_concat_iff.1 hu with hu | hu
      · exact absurd ⟨u, hu⟩ hwhole
      · exact hlongest u hu

theorem IsLongest.begins (h : IsLongest t bs) (hu : encode u <+: bs) : u <+: t :=
  prefix_of_encode (List.prefix_of_prefix_length_le hu h.starts (h.longest u hu))

end Utf8

namespace Text

variable {t u l : Text} {ls : List Text}

theorem lines_ne_nil (t : Text) : lines t ≠ [] := pieces_ne_nil '\n' t

/-- The last line of a text goes on in what is appended. -/
theorem lines_append_of_eq (h : lines t = ls ++ [l]) (u : Text) :
    lines (t ++ u) = ls ++ lines (l ++ u) := by
  have hjoin : unlines (ls ++ [l]) = t := by rw [← h, unlines_lines]
  by_cases hls : ls = []
  · rw [hls, List.nil_append, unlines, List.intercalate_singleton] at hjoin
    rw [hls, hjoin, List.nil_append]
  · have hmem : ∀ x ∈ ls, '\n' ∉ x := fun x hx =>
      notMem_of_mem_pieces (h ▸ List.mem_append_left [l] hx)
    rw [unlines, intercalate_append hls (List.cons_ne_nil l []), List.intercalate_singleton] at hjoin
    rw [← hjoin, List.append_assoc, List.append_assoc, List.singleton_append, lines, pieces_append,
      pieces_intercalate_of_notMem hls hmem, lines]

/-- A carriage return that is held back stands in front of what follows. -/
theorem append_eq_withoutFinalReturn (t u : Text) :
    t ++ u = withoutFinalReturn t ++ if t.getLast? = some '\r' then '\r' :: u else u := by
  unfold withoutFinalReturn
  split
  · next hlast =>
    rw [List.append_cons, List.dropLast_append_getLast? _ hlast]
  · rfl

theorem withoutFinalReturn_append (t : Text) (hu : u ≠ []) :
    withoutFinalReturn (t ++ u) = t ++ withoutFinalReturn u := by
  unfold withoutFinalReturn
  rw [List.getLast?_append_of_ne_nil t hu]
  split
  · rw [List.dropLast_append_of_ne_nil hu]
  · rfl

/-- Where a carriage return is held back, a text can be cut. -/
theorem isCut_withoutFinalReturn (t : Text) {v : Text}
    (hv : t.getLast? = some '\r' → v.head? ≠ some '\n') : IsCut (withoutFinalReturn t) v := by
  by_cases hlast : t.getLast? = some '\r'
  · exact .inr (hv hlast)
  · rw [withoutFinalReturn, if_neg hlast]
    exact .inl hlast

/-- Line ends are unified chunk by chunk if the carriage return at the end of a chunk is held back. -/
theorem unifyLineEnds_withoutFinalReturn_append (t : Text) (hu : u ≠ []) :
    unifyLineEnds (withoutFinalReturn (t ++ u)) = unifyLineEnds (withoutFinalReturn t) ++
      unifyLineEnds (withoutFinalReturn (if t.getLast? = some '\r' then '\r' :: u else u)) := by
  have hne : (if t.getLast? = some '\r' then '\r' :: u else u) ≠ [] := by
    split
    · exact List.cons_ne_nil _ u
    · exact hu
  rw [append_eq_withoutFinalReturn t u, withoutFinalReturn_append _ hne]
  refine unifyLineEnds_append (isCut_withoutFinalReturn t fun hlast => ?_)
  rw [if_pos hlast, ← List.singleton_append, withoutFinalReturn_append _ hu]
  simp

/-- Without what is held back, a text has the line ends of every text it is the start of. -/
theorem exists_unifyLineEnds_append (h : t <+: u) :
    ∃ rest, unifyLineEnds u = unifyLineEnds (withoutFinalReturn t) ++ rest := by
  obtain ⟨v, rfl⟩ := h
  rw [append_eq_withoutFinalReturn t v]
  refine ⟨_, unifyLineEnds_append (isCut_withoutFinalReturn t fun hlast => ?_)⟩
  rw [if_pos hlast]
  simp

/-- The lines of a text that are ended in it. -/
def completeLines (t : Text) : List Text := (lines (unifyLineEnds t)).dropLast

theorem prefix_completeLines (h : t <+: u)
    (hls : lines (unifyLineEnds (withoutFinalReturn t)) = ls ++ [l]) : ls <+: completeLines u := by
  obtain ⟨rest, hrest⟩ := exists_unifyLineEnds_append h
  rw [completeLines, hrest, lines_append_of_eq hls,
    List.dropLast_append_of_ne_nil (lines_ne_nil (l ++ rest))]
  exact List.prefix_append _ _

theorem flatten_chunks (bs : Bytes) : (chunks bs).flatten = bs := by
  fun_induction chunks bs with
  | case1 bs hempty => simpa using hempty
  | case2 bs hempty ih => rw [List.flatten_cons, ih, List.take_append_drop]

end Text

namespace LineReader

open Text

variable {r r' : LineReader} {bs chunk : Bytes} {t u : Text}

/-- A reader has read some bytes, with a text decoded from them. -/
structure HasRead (r : LineReader) (bs : Bytes) (t : Text) : Prop where
  decoded : bs.foldlM Utf8.feed (.between, []) = some (r.decoder, t.reverse)
  held : r.held = decide (t.getLast? = some '\r')
  lines_eq : lines (unifyLineEnds (withoutFinalReturn t)) = r.complete ++ [r.begun]

theorem hasRead_start : start.HasRead [] [] := ⟨rfl, rfl, rfl⟩

theorem append_eq (r : LineReader) (t : Text) :
    (r.append t).complete ++ [(r.append t).begun] = r.complete ++ lines (r.begun ++ t) := by
  have hne := lines_ne_nil (r.begun ++ t)
  simp only [append, List.getLast?_eq_some_getLast hne, Option.getD_some, List.append_assoc,
    List.dropLast_append_getLast]

theorem takeText_lines (hheld : r.held = decide (t.getLast? = some '\r'))
    (hlines : lines (unifyLineEnds (withoutFinalReturn t)) = r.complete ++ [r.begun]) (u : Text) :
    (r.takeText u).held = decide ((t ++ u).getLast? = some '\r') ∧
      lines (unifyLineEnds (withoutFinalReturn (t ++ u))) =
        (r.takeText u).complete ++ [(r.takeText u).begun] := by
  by_cases hu : u = []
  · subst hu
    rw [List.append_nil]
    exact ⟨hheld, hlines⟩
  · have hempty : u.isEmpty = false := by simpa using hu
    have htaken : (if r.held then '\r' :: u else u) =
        if t.getLast? = some '\r' then '\r' :: u else u := by rw [hheld]; simp
    simp only [takeText, hempty, Bool.false_eq_true, if_false, htaken]
    constructor
    · rw [List.getLast?_append_of_ne_nil t hu]
      split
      · rw [← List.singleton_append, List.getLast?_append_of_ne_nil _ hu]
      · rfl
    · rw [unifyLineEnds_withoutFinalReturn_append t hu, lines_append_of_eq hlines]
      exact (append_eq r _).symm

/-- A chunk that can be decoded goes on with the text. -/
theorem HasRead.takeChunk (h : r.HasRead bs t) (hchunk : r.takeChunk chunk = some r') :
    ∃ u, r'.HasRead (bs ++ chunk) (t ++ u) := by
  obtain ⟨⟨s, acc⟩, hfeed, rfl⟩ := Option.map_eq_some_iff.1 hchunk
  obtain ⟨hheld, hlines⟩ := takeText_lines h.held h.lines_eq acc.reverse
  refine ⟨acc.reverse, ?_, hheld, hlines⟩
  rw [List.foldlM_append, h.decoded, Option.bind_eq_bind, Option.bind_some,
    ← List.nil_append t.reverse, Utf8.foldlM_feed_append, hfeed]
  simp

/-- A chunk that cannot be decoded leaves no text whose bytes start with those read so far and it. -/
theorem HasRead.not_encode (h : r.HasRead bs t) (hchunk : r.takeChunk chunk = none) (rest : Bytes) :
    Utf8.encode u ≠ bs ++ chunk ++ rest := by
  intro hu
  have hfeed : chunk.foldlM Utf8.feed (r.decoder, []) = none := Option.map_eq_none_iff.1 hchunk
  have hdecoded := Utf8.foldlM_feed_encode u []
  rw [hu, List.foldlM_append, List.foldlM_append, h.decoded, Option.bind_eq_bind, Option.bind_some,
    ← List.nil_append t.reverse, Utf8.foldlM_feed_append, hfeed] at hdecoded
  cases hdecoded

/-- At the end of a file that is text, all its lines are there. -/
theorem HasRead.finish_eq (h : r.HasRead bs t) (hbetween : r.decoder = .between) :
    r.finish = lines (unifyLineEnds t) := by
  rw [finish, if_pos hbetween]
  by_cases hlast : t.getLast? = some '\r'
  · have hheld : r.held = true := by rw [h.held]; simpa using hlast
    have hunified : unifyLineEnds t = unifyLineEnds (withoutFinalReturn t) ++ ['\n'] := by
      have happend := append_eq_withoutFinalReturn t []
      rw [List.append_nil, if_pos hlast] at happend
      conv_lhs => rw [happend]
      exact unifyLineEnds_append (isCut_withoutFinalReturn t fun _ => by simp)
    rw [hheld, if_pos rfl, hunified, lines_append_of_eq h.lines_eq]
    exact append_eq r _
  · have hheld : r.held = false := by rw [h.held]; simpa using hlast
    have hsame : withoutFinalReturn t = t := if_neg hlast
    rw [hheld, if_neg Bool.false_ne_true, ← h.lines_eq, hsame]

/-- What has been read of a text is the text. -/
theorem HasRead.decoder_eq (h : r.HasRead (Utf8.encode u) t) : r.decoder = .between ∧ t = u := by
  have hdecoded := h.decoded
  rw [Utf8.foldlM_feed_encode, List.append_nil] at hdecoded
  obtain ⟨hbetween, htext⟩ := Prod.mk.inj (Option.some.inj hdecoded)
  exact ⟨hbetween.symm, (List.reverse_inj.1 htext).symm⟩

/-- The lines of a file that is text to its end do not depend on where its chunks end. -/
theorem HasRead.linesFrom_eq (h : r.HasRead bs t) (chunks : List Bytes)
    (hu : Utf8.encode u = bs ++ chunks.flatten) : r.linesFrom chunks = lines (unifyLineEnds u) := by
  induction chunks generalizing r bs t with
  | nil =>
    rw [List.flatten_nil, List.append_nil] at hu
    obtain ⟨hbetween, rfl⟩ := decoder_eq (hu ▸ h)
    exact h.finish_eq hbetween
  | cons chunk chunks ih =>
    rw [List.flatten_cons, ← List.append_assoc] at hu
    rw [linesFrom]
    cases hchunk : r.takeChunk chunk with
    | none => exact absurd hu (h.not_encode hchunk _)
    | some r' =>
      obtain ⟨v, hr'⟩ := h.takeChunk hchunk
      exact ih hr' hu

/-- Lines that are complete end in the longest text that the file starts with. -/
theorem HasRead.complete_begins (h : r.HasRead bs t) {rest : Bytes} (hu : Utf8.IsLongest u (bs ++ rest)) :
    r.complete <+: completeLines u :=
  prefix_completeLines
    (hu.begins ((Utf8.encode_prefix_of_foldlM h.decoded).trans (List.prefix_append bs rest))) h.lines_eq

/-- Of a file that is not text to its end only lines are read that end in the longest text it starts
with. -/
theorem HasRead.linesFrom_begins (h : r.HasRead bs t) (chunks : List Bytes)
    (hu : Utf8.IsLongest u (bs ++ chunks.flatten)) (hcut : Utf8.encode u ≠ bs ++ chunks.flatten) :
    r.linesFrom chunks <+: completeLines u := by
  induction chunks generalizing r bs t with
  | nil =>
    have hcomplete := h.complete_begins hu
    rw [List.flatten_nil, List.append_nil] at hu hcut
    have hinside : r.decoder ≠ .between := by
      intro hbetween
      have hdecoded := h.decoded
      rw [hbetween] at hdecoded
      obtain ⟨v, rfl, -⟩ := Utf8.exists_encode_of_foldlM hdecoded
      have hv : Utf8.encode v <+: Utf8.encode v := List.prefix_refl _
      exact hcut (hu.starts.eq_of_length_le (hu.longest v hv))
    rw [linesFrom, finish, if_neg hinside]
    exact hcomplete
  | cons chunk chunks ih =>
    rw [linesFrom]
    cases hchunk : r.takeChunk chunk with
    | none => exact h.complete_begins hu
    | some r' =>
      obtain ⟨v, hr'⟩ := h.takeChunk hchunk
      rw [List.flatten_cons, ← List.append_assoc] at hu hcut
      exact ih hr' hu hcut

end LineReader

namespace Text

/-- The whole lines of a file that starts with a text: those that are ended in the text, and the last one
too if the text is all that there is. -/
def wholeLines (bs : Bytes) (t : Text) : List Text :=
  if Utf8.encode t = bs then lines (unifyLineEnds t) else completeLines t

theorem linesOfBytes_encode (t : Text) : linesOfBytes (Utf8.encode t) = lines (unifyLineEnds t) :=
  LineReader.hasRead_start.linesFrom_eq _ (flatten_chunks _).symm

/-- No line that is read is cut short. -/
theorem linesOfBytes_begins {bs : Bytes} {t : Text} (h : Utf8.IsLongest t bs) :
    linesOfBytes bs <+: wholeLines bs t := by
  unfold wholeLines
  split
  · next hwhole => exact hwhole ▸ linesOfBytes_encode t ▸ List.prefix_refl _
  · next hcut =>
    rw [← flatten_chunks bs, ← List.nil_append (chunks bs).flatten] at h hcut
    exact LineReader.hasRead_start.linesFrom_begins _ h hcut

end Text

end CodeIndex
