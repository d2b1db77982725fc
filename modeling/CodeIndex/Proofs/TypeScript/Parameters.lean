import CodeIndex.Outline.TypeScript
import CodeIndex.Proofs.Parameters
import CodeIndex.Proofs.Text.Reader

/-!
# Parameter lists of TypeScript functions

A parameter has a name and a type, and types are built from names, arrays, type arguments, objects, tuples and
functions. They are written as tokens with white space anywhere between them.

Where a list of parameters is cut, square brackets do not count, and the arrow of a function type counts as a
closing angle bracket. So a comma cuts exactly if as many arrows stand before it as other brackets around it.
The commas between parameters have no brackets around them: they all cut exactly if no parameter but the last
has a function type. Inside a parameter none cuts exactly if the two numbers differ at each comma, which fails
for a pair that stands outside all other brackets.
-/

namespace CodeIndex.TypeScript

open Text (IsWord)
open Parameters (Distinct Uncut Whole depth parts)

/-! ### Types and their tokens -/

/-- The characters that types and parameters are put together with. -/
def marks : Text := "()<>\x7b\x7d[],:;?=".toList

/-- A name: at least one character, and neither white space nor marks. -/
structure Identifier where
  text : Text
  ne_nil : text ≠ []
  plain : (text.all fun c => !Text.isBlank c && !marks.contains c) = true
deriving DecidableEq

inductive BracketKind where
  | round
  | angle
  | curly
  | square
deriving DecidableEq

inductive Token where
  | name (n : Identifier)
  | opening (k : BracketKind)
  | closing (k : BracketKind)
  | comma
  | semicolon
  | colon
  | optional
  | arrow
deriving DecidableEq

def BracketKind.openingMark : BracketKind → Char
  | round => '('
  | angle => '<'
  | curly => '\x7b'
  | square => '['

def BracketKind.closingMark : BracketKind → Char
  | round => ')'
  | angle => '>'
  | curly => '\x7d'
  | square => ']'

def Token.text : Token → Text
  | name n => n.text
  | opening k => [k.openingMark]
  | closing k => [k.closingMark]
  | comma => [',']
  | semicolon => [';']
  | colon => [':']
  | optional => ['?']
  | arrow => ['=', '>']

/-- What stands before the type of an item: nothing, or its name and whether the item may be missing. -/
abbrev Label := Option (Identifier × Bool)

def Label.tokens : Label → List Token
  | none => []
  | some (n, isOptional) => .name n :: (if isOptional then [.optional] else []) ++ [.colon]

/-- What a member of an object type ends with. -/
inductive Ending where
  | nothing
  | comma
  | semicolon
deriving DecidableEq

def Ending.tokens : Ending → List Token
  | nothing => []
  | comma => [.comma]
  | semicolon => [.semicolon]

inductive TypeExpr where
  | named (name : Identifier)
  | array (item : TypeExpr)
  | generic (name : Identifier) (args : List (Label × TypeExpr))
  | object (members : List (Label × TypeExpr × Ending))
  | tuple (items : List (Label × TypeExpr))
  | function (params : List (Label × TypeExpr)) (result : TypeExpr)

namespace TypeExpr

mutual

def tokens : TypeExpr → List Token
  | named n => [.name n]
  | array item => item.tokens ++ [.opening .square, .closing .square]
  | generic n args => .name n :: .opening .angle :: (listed args ++ [.closing .angle])
  | object members => .opening .curly :: (enclosed members ++ [.closing .curly])
  | tuple items => .opening .square :: (listed items ++ [.closing .square])
  | function params result =>
    .opening .round :: (listed params ++ .closing .round :: .arrow :: result.tokens)

/-- Items with commas between them. -/
def listed : List (Label × TypeExpr) → List Token
  | [] => []
  | [(label, type)] => label.tokens ++ type.tokens
  | (label, type) :: item :: rest => label.tokens ++ (type.tokens ++ .comma :: listed (item :: rest))

/-- Members of an object type. -/
def enclosed : List (Label × TypeExpr × Ending) → List Token
  | [] => []
  | (label, type, ending) :: rest => label.tokens ++ (type.tokens ++ (ending.tokens ++ enclosed rest))

end

end TypeExpr

/-- A parameter with its name and type. -/
structure Parameter where
  name : Identifier
  isOptional : Bool
  type : TypeExpr

def Parameter.tokens (p : Parameter) : List Token :=
  Label.tokens (some (p.name, p.isOptional)) ++ p.type.tokens

/-- Texts of tokens with white space anywhere between them. -/
inductive Spaced : List Token → Text → Prop where
  | nil {gap : Text} (blank : ∀ c ∈ gap, Text.isBlank c = true) : Spaced [] gap
  | cons {gap t : Text} {token : Token} {ts : List Token} (blank : ∀ c ∈ gap, Text.isBlank c = true)
      (rest : Spaced ts t) : Spaced (token :: ts) (gap ++ (token.text ++ t))

/-- A parameter as it stands in a list, with the white space around it. -/
structure WrittenParameter extends Parameter where
  text : Text
  spaced : Spaced toParameter.tokens text

variable {c : Char} {d : Int} {t u : Text} {n : Identifier} {token : Token} {ts us : List Token}

theorem Identifier.isBlank_of_mem (n : Identifier) (h : c ∈ n.text) : Text.isBlank c = false := by
  have hplain := List.all_eq_true.1 n.plain c h
  simp only [Bool.and_eq_true, Bool.not_eq_true'] at hplain
  exact hplain.1

theorem Identifier.notMem_of_mem (n : Identifier) (h : c ∈ n.text) : c ∉ marks := by
  have hplain := List.all_eq_true.1 n.plain c h
  simp only [Bool.and_eq_true, Bool.not_eq_true'] at hplain
  simpa using hplain.2

/-! ### Brackets and arrows -/

/-- Opening brackets, less those that do not count where a list is cut. -/
def Token.opens : Token → Bool
  | opening k => k != .square
  | _ => false

/-- Closing brackets, less those that do not count where a list is cut. -/
def Token.closes : Token → Bool
  | closing k => k != .square
  | _ => false

/-- The brackets that stand open behind tokens, square ones apart. -/
def around (ts : List Token) : Int := (ts.countP Token.opens : Int) - (ts.countP Token.closes : Int)

/-- The arrows among tokens. -/
def arrows (ts : List Token) : Nat := ts.count .arrow

@[simp]
theorem around_nil : around [] = 0 := rfl

@[simp]
theorem around_append (ts us : List Token) : around (ts ++ us) = around ts + around us := by
  simp only [around, List.countP_append]
  omega

theorem around_cons (token : Token) (ts : List Token) : around (token :: ts) = around [token] + around ts :=
  around_append [token] ts

@[simp]
theorem arrows_append (ts us : List Token) : arrows (ts ++ us) = arrows ts + arrows us := List.count_append

theorem arrows_cons (token : Token) (ts : List Token) : arrows (token :: ts) = arrows [token] + arrows ts :=
  arrows_append [token] ts

@[simp]
theorem around_label (label : Label) : around label.tokens = 0 := by
  cases label with
  | none => rfl
  | some l =>
    obtain ⟨n, isOptional⟩ := l
    cases isOptional <;> rfl

@[simp]
theorem around_ending (ending : Ending) : around ending.tokens = 0 := by
  cases ending <;> rfl

mutual

/-- Types close the brackets that they open. -/
theorem TypeExpr.around_tokens (type : TypeExpr) : around type.tokens = 0 := by
  cases type with
  | named n => rfl
  | array item =>
    rw [tokens, around_append, item.around_tokens]
    rfl
  | generic n args =>
    rw [tokens, around_cons, around_cons (.opening .angle), around_append, around_listed args]
    rfl
  | object members =>
    rw [tokens, around_cons, around_append, around_enclosed members]
    rfl
  | tuple items =>
    rw [tokens, around_cons, around_append, around_listed items]
    rfl
  | function params result =>
    rw [tokens, around_cons, around_append, around_listed params, around_cons (.closing .round),
      around_cons .arrow, result.around_tokens]
    rfl

theorem TypeExpr.around_listed (items : List (Label × TypeExpr)) : around (listed items) = 0 := by
  match items with
  | [] => rfl
  | [(label, type)] => rw [listed, around_append, around_label, type.around_tokens, Int.add_zero]
  | (label, type) :: item :: rest =>
    rw [listed, around_append, around_append, around_label, type.around_tokens, around_cons,
      around_listed (item :: rest)]
    rfl

theorem TypeExpr.around_enclosed (members : List (Label × TypeExpr × Ending)) :
    around (enclosed members) = 0 := by
  match members with
  | [] => rfl
  | (label, type, ending) :: rest =>
    rw [enclosed, around_append, around_append, around_append, around_label, type.around_tokens,
      around_ending, around_enclosed rest]
    rfl

end

theorem Parameter.around_tokens (p : Parameter) : around p.tokens = 0 := by
  rw [tokens, around_append, around_label, p.type.around_tokens, Int.add_zero]

/-- At no comma stand as many arrows before it as brackets around it, where the tokens stand inside the given
number of brackets already. -/
def KeepsCommas (d : Int) (ts : List Token) : Prop :=
  ∀ before after, ts = before ++ .comma :: after → d + around before ≠ arrows before

theorem keepsCommas_nil (d : Int) : KeepsCommas d [] := by
  intro before after hsplit
  simp at hsplit

theorem keepsCommas_cons : KeepsCommas d (token :: ts) ↔
    (token = .comma → d ≠ 0) ∧ KeepsCommas (d + (around [token] - arrows [token])) ts := by
  constructor
  · intro h
    constructor
    · rintro rfl
      have hfirst := h [] ts rfl
      simpa [arrows] using hfirst
    · intro before after hsplit
      have hrest := h (token :: before) after (by rw [hsplit, List.cons_append])
      rw [around_cons, arrows_cons] at hrest
      omega
  · rintro ⟨hfirst, hrest⟩ before after hsplit
    cases before with
    | nil =>
      have htoken : token = .comma := (List.cons.inj hsplit).1
      simpa [arrows] using hfirst htoken
    | cons token' before =>
      obtain ⟨rfl, rfl⟩ := List.cons.inj hsplit
      have hne := hrest before after rfl
      rw [around_cons, arrows_cons]
      omega

theorem keepsCommas_append : KeepsCommas d (ts ++ us) ↔
    KeepsCommas d ts ∧ KeepsCommas (d + (around ts - arrows ts)) us := by
  induction ts generalizing d with
  | nil => simp [keepsCommas_nil, arrows]
  | cons token ts ih =>
    have hsum : d + (around [token] - arrows [token]) + (around ts - arrows ts) =
        d + (around (token :: ts) - arrows (token :: ts)) := by
      rw [around_cons token ts, arrows_cons token ts]
      omega
    rw [List.cons_append, keepsCommas_cons, keepsCommas_cons, ih, hsum, and_assoc]

instance decidableKeepsCommas : (d : Int) → (ts : List Token) → Decidable (KeepsCommas d ts)
  | d, [] => isTrue (keepsCommas_nil d)
  | d, token :: ts =>
    have := decidableKeepsCommas (d + (around [token] - arrows [token])) ts
    decidable_of_iff
      ((token = .comma → d ≠ 0) ∧ KeepsCommas (d + (around [token] - arrows [token])) ts)
      keepsCommas_cons.symm

/-! ### Types without functions -/

namespace TypeExpr

mutual

/-- Whether all tuples of more than one item stand inside other brackets, where the type itself does or
not. -/
def pairsInside (inside : Bool) : TypeExpr → Bool
  | named _ => true
  | array item => item.pairsInside inside
  | generic _ args => allPairsInside true args
  | object members => memberPairsInside members
  | tuple items => (inside || items.length ≤ 1) && allPairsInside inside items
  | function params result => allPairsInside true params && result.pairsInside inside

def allPairsInside (inside : Bool) : List (Label × TypeExpr) → Bool
  | [] => true
  | (_, type) :: rest => type.pairsInside inside && allPairsInside inside rest

def memberPairsInside : List (Label × TypeExpr × Ending) → Bool
  | [] => true
  | (_, type, _) :: rest => type.pairsInside true && memberPairsInside rest

end

end TypeExpr

theorem keepsCommas_of_notMem (h : .comma ∉ ts) : KeepsCommas d ts := by
  rintro before after rfl
  simp at h

theorem keepsCommas_label (d : Int) (label : Label) : KeepsCommas d label.tokens := by
  apply keepsCommas_of_notMem
  cases label with
  | none => exact List.not_mem_nil
  | some l =>
    obtain ⟨n, isOptional⟩ := l
    cases isOptional <;> simp [Label.tokens]

theorem keepsCommas_ending (hd : 0 < d) (ending : Ending) : KeepsCommas d ending.tokens := by
  cases ending with
  | nothing => exact keepsCommas_nil d
  | comma => exact keepsCommas_cons.2 ⟨fun _ => by omega, keepsCommas_nil _⟩
  | semicolon => exact keepsCommas_of_notMem (by decide)

theorem keepsCommas_name : KeepsCommas d (.name n :: ts) ↔ KeepsCommas d ts := by
  rw [keepsCommas_cons]
  simp [around, arrows, Token.opens, Token.closes]

theorem keepsCommas_comma : KeepsCommas d (.comma :: ts) ↔ d ≠ 0 ∧ KeepsCommas d ts := by
  rw [keepsCommas_cons]
  simp [around, arrows, Token.opens, Token.closes]

/-- Brackets around tokens add one to the brackets around each comma, or nothing if they are square. -/
theorem keepsCommas_bracketed (k : BracketKind) :
    KeepsCommas d (.opening k :: (ts ++ [.closing k])) ↔
      KeepsCommas (if k = .square then d else d + 1) ts := by
  have hopening : d + (around [.opening k] - arrows [.opening k]) = if k = .square then d else d + 1 := by
    cases k <;> simp [around, arrows, Token.opens, Token.closes]
  rw [keepsCommas_cons, keepsCommas_append, hopening]
  constructor
  · rintro ⟨-, h, -⟩
    exact h
  · intro h
    exact ⟨nofun, h, keepsCommas_of_notMem (by simp)⟩

/-- Behind tokens that close their brackets and have no arrows, commas count as before them. -/
theorem keepsCommas_append_of_level (haround : around ts = 0) (harrows : arrows ts = 0) :
    KeepsCommas d (ts ++ us) ↔ KeepsCommas d ts ∧ KeepsCommas d us := by
  rw [keepsCommas_append, haround, harrows]
  simp

theorem arrows_label (label : Label) : arrows label.tokens = 0 := by
  cases label with
  | none => rfl
  | some l =>
    obtain ⟨n, isOptional⟩ := l
    cases isOptional <;> simp [Label.tokens, arrows]

theorem arrows_ending (ending : Ending) : arrows ending.tokens = 0 := by
  cases ending <;> rfl

mutual

/-- In a type without functions no comma cuts exactly if all tuples of more than one item stand inside other
brackets. -/
theorem TypeExpr.keepsCommas_tokens_iff (d : Int) (type : TypeExpr) (hd : 0 ≤ d)
    (harrows : arrows type.tokens = 0) :
    KeepsCommas d type.tokens ↔ type.pairsInside (decide (0 < d)) = true := by
  cases type with
  | named n => exact iff_of_true (keepsCommas_of_notMem (by simp [tokens])) rfl
  | array item =>
    rw [tokens, arrows_append] at harrows
    rw [tokens, keepsCommas_append, item.keepsCommas_tokens_iff d hd (by omega), pairsInside]
    exact and_iff_left (keepsCommas_of_notMem (by decide))
  | generic n args =>
    rw [tokens, arrows_cons, arrows_cons (.opening .angle), arrows_append] at harrows
    rw [tokens, keepsCommas_name, keepsCommas_bracketed, if_neg nofun, pairsInside,
      keepsCommas_listed_iff (d + 1) args (by omega) (by omega), decide_eq_true (by omega)]
    exact and_iff_right (.inl (by omega))
  | object members =>
    rw [tokens, arrows_cons, arrows_append] at harrows
    rw [tokens, keepsCommas_bracketed, if_neg nofun, pairsInside,
      keepsCommas_enclosed_iff (d + 1) members (by omega) (by omega)]
  | tuple items =>
    rw [tokens, arrows_cons, arrows_append] at harrows
    rw [tokens, keepsCommas_bracketed, if_pos rfl, pairsInside,
      keepsCommas_listed_iff d items hd (by omega)]
    simp
  | function params result =>
    rw [tokens, arrows_cons, arrows_append, arrows_cons (.closing .round), arrows_cons .arrow] at harrows
    have harrow : arrows [.arrow] = 1 := rfl
    omega

theorem TypeExpr.keepsCommas_listed_iff (d : Int) (items : List (Label × TypeExpr)) (hd : 0 ≤ d)
    (harrows : arrows (listed items) = 0) :
    KeepsCommas d (listed items) ↔
      (0 < d ∨ items.length ≤ 1) ∧ allPairsInside (decide (0 < d)) items = true := by
  match items with
  | [] => exact iff_of_true (keepsCommas_nil d) ⟨.inr (by simp), rfl⟩
  | [(label, type)] =>
    rw [listed, arrows_append] at harrows
    rw [listed, keepsCommas_append_of_level (around_label label) (arrows_label label),
      type.keepsCommas_tokens_iff d hd (by omega)]
    simp [keepsCommas_label, allPairsInside]
  | (label, type) :: item :: rest =>
    rw [listed, arrows_append, arrows_append, arrows_cons .comma] at harrows
    have hrest := keepsCommas_listed_iff d (item :: rest) hd (by omega)
    have hlong : ¬((label, type) :: item :: rest).length ≤ 1 := by simp
    have hpairs : allPairsInside (decide (0 < d)) ((label, type) :: item :: rest) = true ↔
        type.pairsInside (decide (0 < d)) = true ∧
          allPairsInside (decide (0 < d)) (item :: rest) = true := by
      rw [allPairsInside, Bool.and_eq_true]
    rw [listed, keepsCommas_append_of_level (around_label label) (arrows_label label),
      keepsCommas_append_of_level type.around_tokens (by omega), type.keepsCommas_tokens_iff d hd (by omega),
      keepsCommas_comma, hrest, hpairs]
    constructor
    · rintro ⟨-, htype, hne, -, hall⟩
      exact ⟨.inl (by omega), htype, hall⟩
    · rintro ⟨hpositive | hshort, htype, hall⟩
      · exact ⟨keepsCommas_label d label, htype, by omega, .inl hpositive, hall⟩
      · exact absurd hshort hlong

theorem TypeExpr.keepsCommas_enclosed_iff (d : Int) (members : List (Label × TypeExpr × Ending)) (hd : 0 < d)
    (harrows : arrows (enclosed members) = 0) :
    KeepsCommas d (enclosed members) ↔ memberPairsInside members = true := by
  match members with
  | [] => exact iff_of_true (keepsCommas_nil d) rfl
  | (label, type, ending) :: rest =>
    rw [enclosed, arrows_append, arrows_append, arrows_append] at harrows
    rw [enclosed, keepsCommas_append_of_level (around_label label) (arrows_label label),
      keepsCommas_append_of_level type.around_tokens (by omega),
      keepsCommas_append_of_level (around_ending ending) (arrows_ending ending),
      type.keepsCommas_tokens_iff d (by omega) (by omega), keepsCommas_enclosed_iff d rest hd (by omega),
      decide_eq_true hd]
    simp [keepsCommas_label, keepsCommas_ending hd, memberPairsInside]

end

/-! ### Tokens in a text -/

theorem notMem_brackets_of_notMem_marks (h : c ∉ marks) : c ∉ brackets.opening ∧ c ∉ brackets.closing := by
  have hopening : brackets.opening.all marks.contains = true := by decide
  have hclosing : brackets.closing.all marks.contains = true := by decide
  constructor
  · intro hc
    exact h (by simpa using List.all_eq_true.1 hopening c hc)
  · intro hc
    exact h (by simpa using List.all_eq_true.1 hclosing c hc)

theorem depth_gap {gap : Text} (h : ∀ c ∈ gap, Text.isBlank c = true) : depth brackets gap = 0 :=
  Parameters.depth_eq_zero fun c hc =>
    notMem_brackets_of_notMem_marks (Text.notMem_of_isBlank (by decide) (h c hc))

theorem uncut_gap {gap : Text} (h : ∀ c ∈ gap, Text.isBlank c = true) : Uncut brackets d gap :=
  Parameters.uncut_of_notMem fun hc =>
    @Text.notMem_of_isBlank [','] _ (by decide) (h _ hc) List.mem_cons_self

theorem depth_text (token : Token) : depth brackets token.text = around [token] - arrows [token] := by
  cases token with
  | name n =>
    have hzero : depth brackets n.text = 0 :=
      Parameters.depth_eq_zero fun c hc => notMem_brackets_of_notMem_marks (n.notMem_of_mem hc)
    simpa [around, arrows, Token.opens, Token.closes, Token.text] using hzero
  | opening k => cases k <;> decide
  | closing k => cases k <;> decide
  | comma => decide
  | semicolon => decide
  | colon => decide
  | optional => decide
  | arrow => decide

theorem uncut_text : Uncut brackets d token.text ↔ (token = .comma → d ≠ 0) := by
  have hplain (hno : ',' ∉ token.text) (hne : token ≠ .comma) :
      Uncut brackets d token.text ↔ (token = .comma → d ≠ 0) :=
    iff_of_true (Parameters.uncut_of_notMem hno) fun heq => absurd heq hne
  cases token with
  | name n => exact hplain (fun hmem => n.notMem_of_mem hmem (by decide)) nofun
  | opening k => exact hplain (by cases k <;> decide) nofun
  | closing k => exact hplain (by cases k <;> decide) nofun
  | comma => simp [Token.text, Parameters.uncut_cons, Parameters.uncut_nil]
  | semicolon => exact hplain (by decide) nofun
  | colon => exact hplain (by decide) nofun
  | optional => exact hplain (by decide) nofun
  | arrow => exact hplain (by decide) nofun

theorem Spaced.depth_eq (h : Spaced ts t) : depth brackets t = around ts - arrows ts := by
  induction h with
  | nil blank => simpa [arrows] using depth_gap blank
  | @cons gap t token ts blank rest ih =>
    rw [Parameters.depth_append, Parameters.depth_append, depth_gap blank, depth_text, ih,
      around_cons token ts, arrows_cons token ts]
    omega

theorem Spaced.uncut_iff (h : Spaced ts t) : Uncut brackets d t ↔ KeepsCommas d ts := by
  induction h generalizing d with
  | nil blank => exact iff_of_true (uncut_gap blank) (keepsCommas_nil d)
  | @cons gap t token ts blank rest ih =>
    rw [Parameters.uncut_append, Parameters.uncut_append, depth_gap blank, Int.add_zero, depth_text,
      uncut_text, ih, keepsCommas_cons]
    exact and_iff_right (uncut_gap blank)

/-! ### Tokens read off a text -/

theorem Spaced.uncons (h : Spaced (token :: ts) t) :
    ∃ gap rest, t = gap ++ (token.text ++ rest) ∧ (∀ c ∈ gap, Text.isBlank c = true) ∧ Spaced ts rest := by
  cases h with
  | cons blank rest => exact ⟨_, _, rfl, blank, rest⟩

theorem Token.text_ne_nil (token : Token) : token.text ≠ [] := by
  cases token with
  | name n => exact n.ne_nil
  | _ => exact List.cons_ne_nil _ _

theorem Token.isBlank_head (token : Token) : ∀ c ∈ (token.text ++ t).head?, Text.isBlank c = false := by
  obtain ⟨first, tail, htext⟩ := List.exists_cons_of_ne_nil token.text_ne_nil
  rw [htext]
  rintro c ⟨⟩
  cases token with
  | name n => exact n.isBlank_of_mem (c := first) (by rw [← Token.text, htext]; exact List.mem_cons_self)
  | opening k => cases k <;> cases htext <;> decide
  | closing k => cases k <;> cases htext <;> decide
  | comma => cases htext; decide
  | semicolon => cases htext; decide
  | colon => cases htext; decide
  | optional => cases htext; decide
  | arrow => cases htext; decide

theorem spaced_cons_iff : Spaced (token :: ts) t ↔
    token.text <+: Text.trimLeft t ∧ Spaced ts ((Text.trimLeft t).drop token.text.length) := by
  constructor
  · intro h
    obtain ⟨gap, rest, rfl, hgap, hrest⟩ := h.uncons
    have htrim : Text.trimLeft (gap ++ (token.text ++ rest)) = token.text ++ rest :=
      (Text.takeWhile_eq_iff.2 ⟨rfl, hgap, token.isBlank_head⟩).2
    rw [htrim, List.drop_left]
    exact ⟨List.prefix_append _ _, hrest⟩
  · rintro ⟨⟨rest, hrest⟩, hspaced⟩
    have ht : t = t.takeWhile Text.isBlank ++ (token.text ++ rest) := by
      rw [hrest, Text.trimLeft, List.takeWhile_append_dropWhile]
    rw [← hrest, List.drop_left] at hspaced
    rw [ht]
    exact .cons (List.all_eq_true.1 List.all_takeWhile) hspaced

instance decidableSpaced : (ts : List Token) → (t : Text) → Decidable (Spaced ts t)
  | [], t => decidable_of_iff (t.all Text.isBlank = true)
      ⟨fun h => .nil (List.all_eq_true.1 h), fun | .nil blank => List.all_eq_true.2 blank⟩
  | token :: ts, t =>
    have := decidableSpaced ts ((Text.trimLeft t).drop token.text.length)
    decidable_of_iff
      (token.text <+: Text.trimLeft t ∧ Spaced ts ((Text.trimLeft t).drop token.text.length))
      spaced_cons_iff.symm

/-! ### Names -/

variable {gap gap' name rest : Text}

/-- A parameter is written as its name and then a question mark or a colon. -/
theorem WrittenParameter.text_eq (p : WrittenParameter) :
    ∃ gap gap' c rest, p.text = gap ++ (p.name.text ++ (gap' ++ c :: rest)) ∧
      (∀ c ∈ gap, Text.isBlank c = true) ∧ (∀ c ∈ gap', Text.isBlank c = true) ∧ (c = '?' ∨ c = ':') := by
  obtain ⟨⟨n, isOptional, type⟩, text, hspaced⟩ := p
  cases isOptional with
  | false =>
    have htokens : Spaced (.name n :: .colon :: type.tokens) text := hspaced
    obtain ⟨gap, t, htext, hgap, hrest⟩ := htokens.uncons
    obtain ⟨gap', rest, rfl, hgap', -⟩ := hrest.uncons
    exact ⟨gap, gap', ':', rest, htext, hgap, hgap', .inr rfl⟩
  | true =>
    have htokens : Spaced (.name n :: .optional :: .colon :: type.tokens) text := hspaced
    obtain ⟨gap, t, htext, hgap, hrest⟩ := htokens.uncons
    obtain ⟨gap', rest, rfl, hgap', -⟩ := hrest.uncons
    exact ⟨gap, gap', '?', rest, htext, hgap, hgap', .inl rfl⟩

theorem trim_named (hgap : ∀ c ∈ gap, Text.isBlank c = true) (n : Identifier)
    (hc : Text.isBlank c = false) :
    Text.trim (gap ++ (n.text ++ (gap' ++ c :: rest))) = n.text ++ (gap' ++ c :: Text.trimRight rest) := by
  have hleft : Text.trimLeft (gap ++ (n.text ++ (gap' ++ c :: rest))) = n.text ++ (gap' ++ c :: rest) := by
    refine (Text.takeWhile_eq_iff.2 ⟨rfl, hgap, ?_⟩).2
    intro c' hc'
    obtain ⟨first, tail, htext⟩ := List.exists_cons_of_ne_nil n.ne_nil
    rw [htext] at hc'
    cases hc'
    exact n.isBlank_of_mem (by rw [htext]; exact List.mem_cons_self)
  rw [Text.trim, hleft, ← List.append_assoc, Text.trimRight_append_cons hc, List.append_assoc]

/-- What does not start like a pattern is shown up to the end of its first word, or as it is. -/
theorem paramName_of_trim (n : Identifier) (htrim : Text.trim t = n.text ++ rest) :
    paramName t = if Text.leadingWord (n.text ++ rest) = [] then n.text ++ rest
      else Text.leadingWord (n.text ++ rest) := by
  obtain ⟨first, tail, htext⟩ := List.exists_cons_of_ne_nil n.ne_nil
  have hmark : first ∉ marks := n.notMem_of_mem (by rw [htext]; exact List.mem_cons_self)
  have hpattern : ¬(first == '\x7b' || first == '[') = true := by
    intro hfirst
    rw [Bool.or_eq_true, beq_iff_eq, beq_iff_eq] at hfirst
    rcases hfirst with rfl | rfl
    · exact hmark (by decide)
    · exact hmark (by decide)
  rw [paramName, htrim, htext, List.cons_append]
  simp only [if_neg hpattern]
  cases Text.leadingWord (first :: (tail ++ rest)) with
  | nil => rfl
  | cons c w => rfl

/-- The name of a parameter is shown exactly if it is a word. -/
theorem paramName_text_iff (p : WrittenParameter) :
    paramName p.text = p.name.text ↔ IsWord p.name.text := by
  obtain ⟨gap, gap', c, rest, htext, hgap, hgap', hc⟩ := p.text_eq
  have hblank : Text.isBlank c = false := by rcases hc with rfl | rfl <;> decide
  have hword : Text.isWord c = false := by rcases hc with rfl | rfl <;> decide
  have htrim : Text.trim p.text = p.name.text ++ (gap' ++ c :: Text.trimRight rest) := by
    rw [htext]
    exact trim_named hgap p.name hblank
  rw [paramName_of_trim p.name htrim]
  constructor
  · intro hname
    split at hname
    · exact absurd (List.append_right_eq_self.1 hname) (by simp)
    · next hne =>
      rw [← hname]
      exact Text.isWord_leadingWord hne
  · intro hname
    have hstop : ∀ c' ∈ (gap' ++ c :: Text.trimRight rest).head?, Text.isWord c' = false := by
      intro c' hc'
      cases gap' with
      | nil =>
        cases hc'
        exact hword
      | cons first tail =>
        cases hc'
        exact Text.isWord_of_isBlank (hgap' _ List.mem_cons_self)
    have hlead := (Text.takeWhile_eq_iff.2 ⟨rfl, hname.2, hstop⟩).1
    rw [Text.leadingWord, hlead, if_neg hname.1]

theorem WrittenParameter.trim_ne_nil (p : WrittenParameter) : Text.trim p.text ≠ [] := by
  obtain ⟨gap, gap', c, rest, htext, hgap, -, hc⟩ := p.text_eq
  have hblank : Text.isBlank c = false := by rcases hc with rfl | rfl <;> decide
  rw [htext, trim_named hgap p.name hblank]
  simp

/-! ### Lists of parameters -/

/-- Lists of which every comma between parameters cuts, and no other one. -/
structure Separable (ps : List Parameter) : Prop where
  arrows : ∀ p ∈ ps.dropLast, .arrow ∉ p.tokens
  commas : ∀ p ∈ ps, KeepsCommas 0 p.tokens

theorem whole_text_iff (p : WrittenParameter) :
    Whole brackets p.text ↔ .arrow ∉ p.tokens ∧ KeepsCommas 0 p.tokens := by
  have hdepth : depth brackets p.text = 0 ↔ .arrow ∉ p.tokens := by
    rw [p.spaced.depth_eq, p.around_tokens, ← List.count_eq_zero, ← TypeScript.arrows]
    omega
  rw [← hdepth, ← p.spaced.uncut_iff]
  exact ⟨fun h => ⟨h.closed, h.uncut⟩, fun h => ⟨h.2, h.1⟩⟩

/-- The list of the texts of parameters, with commas between them. -/
def listText (ps : List WrittenParameter) : Text := [','].intercalate (ps.map (·.text))

theorem parts_listText_iff (ps : List WrittenParameter) :
    parts brackets (listText ps) = ((ps.map (·.text)).dropLast, (ps.map (·.text)).getLastD []) ↔
      Separable (ps.map (·.toParameter)) := by
  rcases List.eq_nil_or_concat ps with rfl | ⟨init, last, rfl⟩
  · exact iff_of_true (by decide) ⟨nofun, nofun⟩
  · have htexts : (init.concat last).map (·.text) = init.map (·.text) ++ [last.text] := by simp
    have hparams : (init.concat last).map (·.toParameter) =
        init.map (·.toParameter) ++ [last.toParameter] := by simp
    rw [listText, htexts, hparams, List.dropLast_concat, List.getLastD_concat,
      Parameters.parts_eq_iff (by decide)]
    constructor
    · rintro ⟨-, hinit, hlast⟩
      have hwhole : ∀ p ∈ init, .arrow ∉ p.tokens ∧ KeepsCommas 0 p.tokens := fun p hp =>
        (whole_text_iff p).1 (hinit p.text (List.mem_map_of_mem hp))
      constructor
      · rw [List.dropLast_concat]
        exact List.forall_mem_map.2 fun p hp => (hwhole p hp).1
      · refine List.forall_mem_append.2 ⟨?_, ?_⟩
        · exact List.forall_mem_map.2 fun p hp => (hwhole p hp).2
        · exact List.forall_mem_singleton.2 (last.spaced.uncut_iff.1 hlast)
    · rintro ⟨harrows, hcommas⟩
      rw [List.dropLast_concat] at harrows
      obtain ⟨hinit, hlast⟩ := List.forall_mem_append.1 hcommas
      refine ⟨rfl, ?_, ?_⟩
      · refine List.forall_mem_map.2 fun p hp => (whole_text_iff p).2 ⟨?_, ?_⟩
        · exact harrows p.toParameter (List.mem_map_of_mem hp)
        · exact hinit p.toParameter (List.mem_map_of_mem hp)
      · exact last.spaced.uncut_iff.2 (hlast last.toParameter List.mem_cons_self)

theorem paramNames_listText {ps : List WrittenParameter} (h : Separable (ps.map (·.toParameter))) :
    paramNames (listText ps) = ps.map fun p => paramName p.text := by
  have hparts := (parts_listText_iff ps).2 h
  rcases List.eq_nil_or_concat ps with rfl | ⟨init, last, rfl⟩
  · decide
  · have htexts : (init.concat last).map (·.text) = init.map (·.text) ++ [last.text] := by simp
    have hlast : (Text.trim last.text).isEmpty = false := by simpa using last.trim_ne_nil
    rw [htexts, List.dropLast_concat, List.getLastD_concat] at hparts
    simp only [paramNames, hparts, hlast]
    simp

theorem Parameter.keepsCommas_tokens_iff (p : Parameter) :
    KeepsCommas 0 p.tokens ↔ KeepsCommas 0 p.type.tokens := by
  rw [tokens, keepsCommas_append_of_level (around_label _) (arrows_label _)]
  exact and_iff_right (keepsCommas_label 0 _)

/-- Without function types, only the pairs outside other brackets have commas that cut. -/
theorem separable_iff_of_no_arrows {ps : List Parameter} (h : ∀ p ∈ ps, .arrow ∉ p.tokens) :
    Separable ps ↔ ∀ p ∈ ps, p.type.pairsInside false = true := by
  have hpairs : ∀ p ∈ ps, (KeepsCommas 0 p.tokens ↔ p.type.pairsInside false = true) := by
    intro p hp
    have harrows : arrows p.type.tokens = 0 := by
      apply List.count_eq_zero.2
      intro hmem
      exact h p hp (List.mem_append_right _ hmem)
    rw [p.keepsCommas_tokens_iff]
    exact p.type.keepsCommas_tokens_iff 0 (by omega) harrows
  constructor
  · intro hseparable p hp
    exact (hpairs p hp).1 (hseparable.commas p hp)
  · intro hall
    refine ⟨?_, ?_⟩
    · intro p hp
      exact h p (List.dropLast_subset ps hp)
    · intro p hp
      exact (hpairs p hp).2 (hall p hp)

/-- A list of parameters is cut into these parameters exactly if it is separable. Then all names are shown, in
order, exactly if they are words. A list without function types is separable exactly if all tuples of more
than one item stand inside other brackets. -/
theorem params_separated_iff (ps : List WrittenParameter) :
    (parts brackets (listText ps) = ((ps.map (·.text)).dropLast, (ps.map (·.text)).getLastD []) ↔
      Separable (ps.map (·.toParameter))) ∧
    (Separable (ps.map (·.toParameter)) →
      (paramNames (listText ps) = ps.map (·.name.text) ↔ ∀ p ∈ ps, IsWord p.name.text)) ∧
    ((∀ p ∈ ps, .arrow ∉ p.tokens) →
      (Separable (ps.map (·.toParameter)) ↔ ∀ p ∈ ps, p.type.pairsInside false = true)) := by
  refine ⟨parts_listText_iff ps, ?_, ?_⟩
  · intro hseparable
    rw [paramNames_listText hseparable, List.map_inj_left]
    constructor
    · intro hnames p hp
      exact (paramName_text_iff p).1 (hnames p hp)
    · intro hwords p hp
      exact (paramName_text_iff p).2 (hwords p hp)
  · intro harrows
    rw [separable_iff_of_no_arrows (List.forall_mem_map.2 harrows)]
    exact List.forall_mem_map

def typeK : TypeExpr := .named ⟨['K'], by decide, by decide⟩

def typeV : TypeExpr := .named ⟨['V'], by decide, by decide⟩

/-- Pairs inside other brackets, and a function type at the end. -/
def lookupParams : List WrittenParameter :=
  [{ name := ⟨"key".toList, by decide, by decide⟩
     isOptional := false
     type := .generic ⟨"Map".toList, by decide, by decide⟩
       [(none, typeK), (none, .tuple [(none, typeV), (none, .array typeV)])]
     text := "\n  key: Map<K, [V, V[]]>".toList
     spaced := by decide },
   { name := ⟨"opts".toList, by decide, by decide⟩
     isOptional := true
     type := .object [(some (⟨"at".toList, by decide, by decide⟩, false), typeK, .semicolon),
       (some (⟨"or".toList, by decide, by decide⟩, true), .tuple [(none, typeK), (none, typeV)], .nothing)]
     text := "\n  opts?: \x7b at: K; or?: [K, V] \x7d".toList
     spaced := by decide },
   { name := ⟨"done".toList, by decide, by decide⟩
     isOptional := false
     type := .function [(some (⟨"found".toList, by decide, by decide⟩, true), typeV)]
       (.tuple [(none, typeK), (none, typeV)])
     text := " done: (found?: V) => [K, V]\n".toList
     spaced := by decide }]

theorem lookupParams_separated :
    Separable (lookupParams.map (·.toParameter)) ∧
      paramNames (listText lookupParams) = ["key".toList, "opts".toList, "done".toList] := by
  have hseparable : Separable (lookupParams.map (·.toParameter)) := ⟨by decide, by decide⟩
  refine ⟨hseparable, ?_⟩
  exact ((params_separated_iff lookupParams).2.1 hseparable).2 (by decide)

/-- A pair outside other brackets. -/
def outerPair : List WrittenParameter :=
  [{ name := ⟨['a'], by decide, by decide⟩
     isOptional := false
     type := .tuple [(none, typeK), (none, typeV)]
     text := "a: [K, V]".toList
     spaced := by decide }]

/-- A function type before the last parameter. -/
def earlyCallback : List WrittenParameter :=
  [{ name := ⟨['f'], by decide, by decide⟩
     isOptional := false
     type := .function [] typeV
     text := "f: () => V".toList
     spaced := by decide },
   { name := ⟨['b'], by decide, by decide⟩
     isOptional := false
     type := typeK
     text := " b: K".toList
     spaced := by decide }]

/-- The pair is cut in two, and the parameter behind the arrow is not found. -/
theorem outerPair_earlyCallback_not_separated :
    paramNames (listText outerPair) = [['a'], ['V']] ∧ outerPair.map (·.name.text) = [['a']] ∧
      paramNames (listText earlyCallback) = [['f']] ∧ earlyCallback.map (·.name.text) = [['f'], ['b']] := by
  decide

end CodeIndex.TypeScript
