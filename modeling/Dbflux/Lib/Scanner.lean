import Dbflux.Lib.Text

/-!
# Scanning a command text

A scanner for texts made of words, symbols, quotations and comments, over the
conventions of a dialect (`Lexicon`). A round looks at the current character,
at what is before and behind it, and consumes one or more characters.

Results:
* `Lexicon.scan_fuel`: the loop ends on every text, since a round consumes
  something.
* `Lexicon.scan_eq_of_related`: two dialects whose rounds agree in related
  states read the same tokens.
* `Lexicon.SpaceEnds.tokens_append`: behind a text that leaves the scanner outside comments
  and quotations, a second text is read as if it stood alone.
-/

namespace Dbflux.Lib

open List

namespace Scanner

/-- Where the scanner is. A dollar-quoted string is closed by the label it was
opened with. -/
inductive State where
  | normal
  | lineComment
  | blockComment (depth : ℕ)
  | quoted (close : Char) (backslashEscapes : Bool)
  | dollarQuoted (label : Text)
  deriving DecidableEq, Repr

/-- A word in upper case, a quotation of any kind, or a symbol. -/
inductive Token where
  | word (text : Text)
  | quoted
  | symbol (c : Char)
  deriving DecidableEq, Repr

/-- What a round does: the tokens it adds, the next state and how many
characters it consumes. -/
structure Round where
  tokens : List Token
  next : State
  consumed : ℕ
  deriving DecidableEq, Repr

/-- `$label$`. -/
def delimiter (label : Text) : Text := '$' :: label ++ ['$']

@[simp] theorem length_delimiter (label : Text) : (delimiter label).length = label.length + 2 := by
  simp [delimiter]

/-- The label of the delimiter at the start of a text, if there is one whose
first character passes `starts` and whose others pass `continues`. -/
def labelAt (starts continues : Char → Bool) : Text → Option Text
  | '$' :: c :: rest =>
    if c = '$' then some []
    else if starts c then
      let label := (c :: rest).takeWhile fun d => d ≠ '$' && continues d
      if (c :: rest)[label.length]? = some '$' then some label else none
    else none
  | _ => none

/-- The character behind the run that `takeWhile` takes. -/
theorem getElem?_length_takeWhile (test : Char → Bool) (text : Text) :
    text[(text.takeWhile test).length]? = (text.dropWhile test).head? := by
  induction text with
  | nil => rfl
  | cons c text ih => by_cases hc : test c <;> simp [hc, ih]

variable {text : Text}

theorem eq_false_of_getElem?_length_takeWhile {test : Char → Bool} {c : Char}
    (h : text[(text.takeWhile test).length]? = some c) : test c = false := by
  rw [getElem?_length_takeWhile] at h
  have hnot := head?_dropWhile_not test text
  rw [h] at hnot
  exact hnot

theorem take_length_takeWhile (test : Char → Bool) (text : Text) :
    text.take (text.takeWhile test).length = text.takeWhile test :=
  (prefix_iff_eq_take.mp (List.takeWhile_prefix test)).symm

/-- A label is found in front of a text that starts with its delimiter. -/
theorem take_delimiter_of_labelAt {starts continues : Char → Bool} {text label : Text}
    (h : labelAt starts continues text = some label) :
    text.take (delimiter label).length = delimiter label := by
  unfold labelAt at h
  split at h
  next c rest =>
    dsimp only at h
    split_ifs at h with hdollar hfirst hclosed
    · cases h
      simp [delimiter, hdollar]
    · cases h
      rw [length_delimiter, take_succ_cons, take_add_one, take_length_takeWhile, hclosed]
      rfl
  · cases h

/-- A label stays one under any other test that its characters pass. -/
theorem labelAt_of_imp {starts continues starts' continues' : Char → Bool} {text label : Text}
    (h : labelAt starts continues text = some label)
    (hstarts : ∀ c ∈ label, starts c → starts' c)
    (hcontinues : ∀ c ∈ label, continues c → continues' c) :
    labelAt starts' continues' text = some label := by
  unfold labelAt at h
  split at h
  next c rest =>
    dsimp only at h
    split_ifs at h with hdollar hfirst hclosed
    · simpa [labelAt, hdollar] using h
    · cases h
      -- The first character passes, since otherwise the closing dollar would be it.
      have hmem : c ∈ (c :: rest).takeWhile fun d => d ≠ '$' && continues d := by
        by_cases hc : continues c
        · simp [hdollar, hc]
        · simp [hc, hdollar] at hclosed
      have hrun : ∀ d ∈ (c :: rest).takeWhile (fun d => d ≠ '$' && continues d),
          (d ≠ '$' && continues' d) = true := by
        intro d hd
        have hpass := mem_takeWhile_imp hd
        simp only [Bool.and_eq_true] at hpass ⊢
        exact ⟨hpass.1, hcontinues d hd hpass.2⟩
      have hsame : (c :: rest).takeWhile (fun d => d ≠ '$' && continues' d) =
          (c :: rest).takeWhile fun d => d ≠ '$' && continues d := by
        conv_lhs => rw [← takeWhile_append_dropWhile (p := fun d => d ≠ '$' && continues d)
          (l := c :: rest)]
        refine (takeWhile_append_of_stop hrun fun d hd => ?_).1
        rw [← getElem?_length_takeWhile, hclosed] at hd
        cases hd
        simp
      simp only [labelAt, if_neg hdollar, hstarts c hmem hfirst, if_true, hsame, hclosed]
  · cases h

/-- How far the opening of an executable comment reaches: `/*!` or `/*M!` and a
version number. `behind` is the text behind `/*`. -/
def executableOpening (behind : Text) : Option ℕ :=
  let digits (text : Text) : ℕ := (text.takeWhile isAsciiDigit).length
  match behind with
  | '!' :: rest => some (3 + digits rest)
  | 'M' :: '!' :: rest => some (4 + digits rest)
  | 'm' :: '!' :: rest => some (4 + digits rest)
  | _ => none

end Scanner

open Scanner

/-- The lexical conventions of a dialect. What a dialect decides by looking
back it decides on the pieces consumed so far, the last one first. -/
structure Lexicon where
  isSpace : Char → Bool
  /-- The characters that end a line comment. -/
  endsLine : Char → Bool
  /-- Whether `--` in front of this character starts a comment. -/
  dashComment : Option Char → Bool
  hashComments : Bool
  /-- The body of `/*! … */` and `/*M! … */` is code. -/
  executableComments : Bool
  nestedComments : Bool
  /-- The closing character of a quotation that this character opens. -/
  closer : Char → Option Char
  /-- Whether a backslash escapes in a quotation that this character opens. -/
  backslashEscapes : List Text → Char → Bool
  /-- How far a quotation closed by this character in front of this text goes
      on: the length up to the reopening quote. -/
  continued : Char → Text → Option ℕ
  /-- The label of a dollar-quoted string at the start of the text. -/
  dollarLabel : List Text → Text → Option Text
  /-- The length of the word at the start of the text, `0` if there is none. -/
  wordLength : Text → ℕ

namespace Lexicon

variable (L : Lexicon)

/-- A round outside comments and quotations. -/
def normalRound (before : List Text) (c : Char) (rest : Text) : Round :=
  if L.isSpace c then ⟨[], .normal, 1⟩
  else if c = '-' ∧ rest.head? = some '-' ∧ L.dashComment rest.tail.head? then
    ⟨[], .lineComment, 2⟩
  else if c = '#' ∧ L.hashComments then ⟨[], .lineComment, 1⟩
  else if c = '/' ∧ rest.head? = some '*' then
    match if L.executableComments then executableOpening rest.tail else none with
    | some n => ⟨[], .normal, n⟩
    | none => ⟨[], .blockComment 1, 2⟩
  else
    match L.closer c with
    | some close => ⟨[.quoted], .quoted close (L.backslashEscapes before c), 1⟩
    | none =>
      match L.dollarLabel before (c :: rest) with
      | some label => ⟨[.quoted], .dollarQuoted label, (delimiter label).length⟩
      | none =>
        match L.wordLength (c :: rest) with
        | 0 => ⟨[.symbol c], .normal, 1⟩
        | n + 1 => ⟨[.word (asciiUppercase ((c :: rest).take (n + 1)))], .normal, n + 1⟩

/-- A round of the scanner. -/
def round (state : State) (before : List Text) (c : Char) (rest : Text) : Round :=
  match state with
  | .normal => L.normalRound before c rest
  | .lineComment => ⟨[], if L.endsLine c then .normal else .lineComment, 1⟩
  | .blockComment depth =>
    if c = '*' ∧ rest.head? = some '/' then
      ⟨[], if depth = 1 then .normal else .blockComment (depth - 1), 2⟩
    else if L.nestedComments ∧ c = '/' ∧ rest.head? = some '*' then
      ⟨[], .blockComment (depth + 1), 2⟩
    else ⟨[], .blockComment depth, 1⟩
  | .quoted close backslashEscapes =>
    if backslashEscapes ∧ c = '\\' then ⟨[], .quoted close backslashEscapes, 2⟩
    else if c = close then
      if rest.head? = some close then ⟨[], .quoted close backslashEscapes, 2⟩
      else
        match L.continued close rest with
        | some n => ⟨[], .quoted close backslashEscapes, n + 1⟩
        | none => ⟨[], .normal, 1⟩
    else ⟨[], .quoted close backslashEscapes, 1⟩
  | .dollarQuoted label =>
    if (delimiter label).isPrefixOf (c :: rest) then ⟨[], .normal, (delimiter label).length⟩
    else ⟨[], .dollarQuoted label, 1⟩

/-- The scanner's loop: the tokens of a text and the state at its end. -/
def scan : ℕ → State → List Text → Text → List Token × State
  | _, state, _, [] => ([], state)
  | 0, state, _, _ :: _ => ([], state)
  | fuel + 1, state, before, c :: rest =>
    let r := L.round state before c rest
    let tail := scan fuel r.next ((c :: rest).take r.consumed :: before)
      ((c :: rest).drop r.consumed)
    (r.tokens ++ tail.1, tail.2)

/-- The tokens of a text. -/
def tokens (text : Text) : List Token := (L.scan text.length .normal [] text).1

/-- The state at the end of a text. -/
def endState (text : Text) : State := (L.scan text.length .normal [] text).2

/-- A place at which the scanner starts a round. -/
structure Place where
  state : State
  before : List Text
  c : Char
  rest : Text

/-- The places a scan goes through. -/
def places : ℕ → State → List Text → Text → List Place
  | _, _, _, [] => []
  | 0, _, _, _ :: _ => []
  | fuel + 1, state, before, c :: rest =>
    let r := L.round state before c rest
    ⟨state, before, c, rest⟩ :: places fuel r.next ((c :: rest).take r.consumed :: before)
      ((c :: rest).drop r.consumed)

/-! ## The loop ends -/

variable {L}

theorem normalRound_consumed_pos (before : List Text) (c : Char) (rest : Text) :
    0 < (L.normalRound before c rest).consumed := by
  have hopening : ∀ text n, executableOpening text = some n → 0 < n := by
    intro text n h
    unfold executableOpening at h
    split at h <;> simp only [Option.some.injEq, reduceCtorEq] at h <;> omega
  unfold normalRound
  repeat' split
  all_goals try simp
  next n h =>
    split at h
    · exact hopening _ _ h
    · cases h

variable (state : State)

theorem round_consumed_pos (before : List Text) (c : Char) (rest : Text) :
    0 < (L.round state before c rest).consumed := by
  cases state with
  | normal => exact normalRound_consumed_pos before c rest
  | lineComment => simp [round]
  | blockComment | quoted => simp only [round]; (repeat' split) <;> simp
  | dollarQuoted label => simp only [round]; split <;> simp

@[simp] theorem scan_nil (fuel : ℕ) (state : State) (before : List Text) :
    L.scan fuel state before [] = ([], state) := by
  cases fuel <;> rfl

/-- The text behind a round is shorter. -/
theorem length_drop_round (before : List Text) (c : Char) (rest : Text) :
    ((c :: rest).drop (L.round state before c rest).consumed).length ≤ rest.length := by
  have hpos := round_consumed_pos (L := L) state before c rest
  simp only [length_drop, length_cons]
  omega

variable {fuel : ℕ}

/-- Fuel for every character is enough, and more changes nothing. -/
theorem scan_fuel (before : List Text) (hfuel : text.length ≤ fuel) :
    L.scan fuel state before text = L.scan text.length state before text := by
  -- Both sides are compared at every pair of sufficient fuels.
  suffices h : ∀ n m (state : State) (before : List Text) (text : Text),
      text.length ≤ n → text.length ≤ m → L.scan n state before text = L.scan m state before text
    from h _ _ _ _ _ hfuel le_rfl
  intro n
  induction n with
  | zero =>
    intro m state before text hn _
    obtain rfl := length_eq_zero_iff.mp (Nat.le_zero.mp hn)
    simp
  | succ n ih =>
    intro m state before text hn hm
    cases text with
    | nil => simp
    | cons c rest =>
      obtain ⟨m, rfl⟩ := Nat.exists_eq_succ_of_ne_zero (n := m) (by rintro rfl; simp at hm)
      have hshort := length_drop_round (L := L) state before c rest
      have hn' : rest.length ≤ n := Nat.le_of_succ_le_succ hn
      have hm' : rest.length ≤ m := Nat.le_of_succ_le_succ hm
      simp only [scan]
      rw [ih m _ _ _ (hshort.trans hn') (hshort.trans hm')]

/-! ## Two dialects -/

/-- Two dialects that agree on everything a round asks take the same one. -/
theorem normalRound_congr {M : Lexicon} {before : List Text} {c : Char} {rest : Text}
    (hspace : L.isSpace c = M.isSpace c) (hdash : L.dashComment = M.dashComment)
    (hhash : L.hashComments = M.hashComments)
    (hexecutable : L.executableComments = M.executableComments)
    (hcloser : L.closer c = M.closer c)
    (hescapes : L.backslashEscapes before c = M.backslashEscapes before c)
    (hlabel : L.dollarLabel before (c :: rest) = M.dollarLabel before (c :: rest))
    (hword : L.wordLength (c :: rest) = M.wordLength (c :: rest)) :
    L.normalRound before c rest = M.normalRound before c rest := by
  unfold normalRound
  rw [hspace, hdash, hhash, hexecutable, hcloser, hescapes, hlabel, hword]

/-- **Simulation.** If in related states, at the places the second dialect goes
through, a round of either dialect gives the same tokens, consumes the same
and leads to related states, then both read the same tokens. -/
theorem scan_eq_of_related {M : Lexicon} {R : State → State → List Text → Text → Prop}
    {good : Place → Prop}
    (hround : ∀ s t before c rest, R s t before (c :: rest) → good ⟨t, before, c, rest⟩ →
      (L.round s before c rest).tokens = (M.round t before c rest).tokens ∧
      (L.round s before c rest).consumed = (M.round t before c rest).consumed ∧
      R (L.round s before c rest).next (M.round t before c rest).next
        ((c :: rest).take (M.round t before c rest).consumed :: before)
        ((c :: rest).drop (M.round t before c rest).consumed)) {s t : State} {before : List Text}
    (h : R s t before text) (hgood : ∀ place ∈ M.places fuel t before text, good place) :
    (L.scan fuel s before text).1 = (M.scan fuel t before text).1 := by
  induction fuel generalizing s t before text with
  | zero => cases text <;> rfl
  | succ fuel ih =>
    cases text with
    | nil => rfl
    | cons c rest =>
      simp only [places, mem_cons, forall_eq_or_imp] at hgood
      obtain ⟨htokens, hconsumed, hnext⟩ := hround s t before c rest h hgood.1
      simp only [scan]
      rw [htokens, hconsumed, ih hnext hgood.2]

/-! ## Two texts -/

/-- A dialect that decides nothing by looking back, and in which a space ends
whatever the end of the text ends. -/
structure SpaceEnds (L : Lexicon) : Prop where
  isSpace : L.isSpace ' ' = true
  dashComment : L.dashComment (some ' ') = L.dashComment none
  noExecutable : L.executableComments = false
  closer : ∀ c, L.closer c ≠ some ' '
  noEscapes : ∀ before c, L.backslashEscapes before c = false
  noContinued : ∀ close rest, L.continued close rest = none
  noDollar : ∀ before text, L.dollarLabel before text = none
  wordLength_le : ∀ text, L.wordLength text ≤ text.length
  wordLength_append : ∀ c rest behind,
    L.wordLength (c :: rest ++ ' ' :: behind) = L.wordLength (c :: rest)

/-- The states of a dialect without dollars and escapes. -/
def Simple : State → Prop
  | .quoted close backslashEscapes => close ≠ ' ' ∧ backslashEscapes = false
  | .dollarQuoted _ => False
  | _ => True

section

variable (hL : L.SpaceEnds)

include hL

variable {state : State} (before before' : List Text)

theorem SpaceEnds.round_before (c : Char) (rest : Text) :
    L.round state before c rest = L.round state before' c rest := by
  cases state with
  | normal => simp only [round, normalRound, hL.noEscapes, hL.noDollar]
  | _ => rfl

theorem SpaceEnds.scan_before (text : Text) :
    L.scan fuel state before text = L.scan fuel state before' text := by
  induction fuel generalizing state before before' text with
  | zero => cases text <;> rfl
  | succ fuel ih =>
    cases text with
    | nil => rfl
    | cons c rest =>
      simp only [scan]
      rw [hL.round_before before before' c rest, ih]

omit hL in
theorem head?_append_space {c : Char} (hc : c ≠ ' ') (rest behind : Text) :
    (rest ++ ' ' :: behind).head? = some c ↔ rest.head? = some c := by
  cases rest with
  | nil => simp [hc.symm]
  | cons d rest => simp

theorem SpaceEnds.dash_append (rest behind : Text) : ((rest ++ ' ' :: behind).head? = some '-' ∧
      L.dashComment (rest ++ ' ' :: behind).tail.head?) ↔
    (rest.head? = some '-' ∧ L.dashComment rest.tail.head?) := by
  match rest with
  | [] => simp
  | [d] => simp [hL.dashComment]
  | d :: e :: rest => simp

variable (hstate : Simple state)
include hstate

variable (before : List Text)

/-- A round sees a space behind the text as it sees the end of the text. -/
theorem SpaceEnds.round_append (c : Char) (rest behind : Text) :
    L.round state before c (rest ++ ' ' :: behind) = L.round state before c rest := by
  cases state with
  | normal =>
    have hle := hL.wordLength_le (c :: rest)
    simp only [round, normalRound, hL.dash_append, hL.noExecutable, hL.noDollar,
      head?_append_space (show '*' ≠ ' ' by decide), ← cons_append, hL.wordLength_append]
    cases hword : L.wordLength (c :: rest) with
    | zero => rfl
    | succ n =>
      rw [hword] at hle
      simp only [take_append_of_le_length hle, Bool.false_eq_true, if_false]
  | lineComment => rfl
  | blockComment depth =>
    simp only [round, head?_append_space (show '*' ≠ ' ' by decide),
      head?_append_space (show '/' ≠ ' ' by decide)]
  | quoted close escapes => simp only [round, hL.noContinued, head?_append_space hstate.1]
  | dollarQuoted label => cases hstate

/-- It does not reach over the end of the text. -/
theorem SpaceEnds.round_consumed_le (c : Char)
    (rest : Text) : (L.round state before c rest).consumed ≤ (c :: rest).length := by
  have htwo : ∀ d, rest.head? = some d → 2 ≤ (c :: rest).length := by
    intro d hd
    obtain ⟨more, rfl⟩ := head?_eq_some_iff.mp hd
    simp
  have hone : 1 ≤ (c :: rest).length := by simp
  cases state with
  | normal =>
    have hle := hL.wordLength_le (c :: rest)
    simp only [round, normalRound, hL.noExecutable, hL.noDollar, Bool.false_eq_true, if_false]
    split_ifs with _ hdash _ hslash
    · exact hone
    · exact htwo _ hdash.2.1
    · exact hone
    · exact htwo _ hslash.2
    · cases L.closer c with
      | some close => exact hone
      | none =>
        cases hword : L.wordLength (c :: rest) with
        | zero => exact hone
        | succ n => exact hword.symm.trans_le hle
  | lineComment => exact hone
  | blockComment depth =>
    simp only [round]
    split_ifs with hclose _ hopen
    · exact htwo _ hclose.2
    · exact htwo _ hclose.2
    · exact htwo _ hopen.2.2
    · exact hone
  | quoted close escapes =>
    simp only [round, hL.noContinued, hstate.2, Bool.false_eq_true, false_and, if_false]
    split_ifs with _ hdouble
    · exact htwo _ hdouble
    · exact hone
    · exact hone
  | dollarQuoted label => cases hstate

theorem SpaceEnds.simple_round (c : Char)
    (rest : Text) : Simple (L.round state before c rest).next := by
  cases state with
  | normal =>
    simp only [round, normalRound, hL.noExecutable, hL.noDollar, Bool.false_eq_true, if_false]
    split_ifs
    · trivial
    · trivial
    · trivial
    · trivial
    · cases hcloser : L.closer c with
      | some close =>
        refine ⟨?_, hL.noEscapes before c⟩
        rintro rfl
        exact hL.closer c hcloser
      | none =>
        cases L.wordLength (c :: rest) with
        | zero | succ => trivial
  | lineComment =>
    simp only [round]
    split <;> trivial
  | blockComment depth =>
    simp only [round]
    split_ifs <;> trivial
  | quoted close escapes =>
    simp only [round, hL.noContinued]
    split_ifs
    · exact hstate
    · exact hstate
    · trivial
    · exact hstate
  | dollarQuoted label => cases hstate

theorem SpaceEnds.scan_append (behind : Text) (hfuel : text.length ≤ fuel)
    (hend : (L.scan fuel state before text).2 = .normal) :
    (L.scan (fuel + (behind.length + 1)) state before (text ++ ' ' :: behind)).1 =
      (L.scan fuel state before text).1 ++ L.tokens behind := by
  -- At the end of the first text the space is skipped.
  have hempty : ∀ {state : State} {before : List Text} (fuel : ℕ),
      (L.scan fuel state before []).2 = .normal →
      (L.scan (fuel + (behind.length + 1)) state before ([] ++ ' ' :: behind)).1 =
        (L.scan fuel state before []).1 ++ L.tokens behind := by
    intro state before fuel hend
    rw [scan_nil] at hend ⊢
    obtain rfl : state = .normal := hend
    have hround : L.round .normal before ' ' behind = ⟨[], .normal, 1⟩ := by
      simp [round, normalRound, hL.isSpace]
    rw [← Nat.add_assoc]
    simp only [nil_append, scan, hround, drop_one, tail_cons]
    rw [scan_fuel _ _ (by omega), hL.scan_before _ [], tokens]
  induction fuel generalizing state before text with
  | zero =>
    obtain rfl := length_eq_zero_iff.mp (Nat.le_zero.mp hfuel)
    exact hempty 0 hend
  | succ fuel ih =>
    cases text with
    | nil => exact hempty (fuel + 1) hend
    | cons c rest =>
      have hround := hL.round_append hstate before c rest behind
      have hle := hL.round_consumed_le hstate before c rest
      have hshort := length_drop_round (L := L) state before c rest
      rw [Nat.succ_add]
      simp only [cons_append, scan, hround] at hend ⊢
      rw [← cons_append, take_append_of_le_length hle, drop_append_of_le_length hle,
        ih (hL.simple_round hstate before c rest) _
          (hshort.trans (Nat.le_of_succ_le_succ hfuel)) hend, append_assoc]

omit hstate

/-- **Two texts.** Behind a text that ends outside comments and quotations and a
space, a text is read as if it stood alone. -/
theorem SpaceEnds.tokens_append (behind : Text) (hend : L.endState text = .normal) :
    L.tokens (text ++ ' ' :: behind) = L.tokens text ++ L.tokens behind := by
  have hlength : (text ++ ' ' :: behind).length = text.length + (behind.length + 1) := by simp
  rw [tokens, hlength]
  exact hL.scan_append (show Simple .normal from trivial) [] behind le_rfl hend

end

end Lexicon

end Dbflux.Lib
