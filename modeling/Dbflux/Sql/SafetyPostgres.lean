import Dbflux.Sql.Safety

/-!
# Governance and PostgreSQL's reading of a text

A text that is governed as a read is sent to the server as it is, so its class
must not be below that of the statements the server finds in it. `postgres` is
the lexer of the server. `POSTGRES_RULES` reads as it does except in a few
places: a comment ended by a carriage return, characters outside ASCII that are
no letters, backticks, numbers and strings that touch a dollar, and strings
continued on the next line.

Results:
* `postgresRules_tokens_eq`: on a plain text both readings are the same.
* `plain_rank_le_classifySqlExecution`: a plain text is governed at least as
  strictly as the server's reading, and never as a read when the server finds
  two statements in it.
* `comment_ended_by_carriage_return`: a text that is governed as a read and
  drops a table.
-/

namespace Dbflux.Sql.Safety

open Lib Lib.Scanner Approval List
open LexRules (lexicon)

/-! ## The lexer of the server -/

/-- `space`. -/
def isServerSpace (c : Char) : Bool :=
  c = ' ' || c = '\t' || c = '\n' || c = '\r' || c = '\x0b' || c = '\x0c'

/-- `ident_start`. -/
def startsIdentifier (c : Char) : Bool := isAsciiAlphabetic c || c = '_' || decide (128 ≤ c.toNat)

/-- `ident_cont`. -/
def continuesIdentifier (c : Char) : Bool := startsIdentifier c || isAsciiDigit c || c = '$'

/-- An identifier, or a number with the identifier that may be glued to it. -/
def serverWordLength (text : Text) : ℕ :=
  match text with
  | [] => 0
  | c :: _ =>
    if startsIdentifier c then (text.takeWhile continuesIdentifier).length
    else if isAsciiDigit c then
      let digits := (text.takeWhile isAsciiDigit).length
      let behind := text.drop digits
      if behind.head?.any startsIdentifier then
        digits + (behind.takeWhile continuesIdentifier).length
      else digits
    else 0

/-- The gap between two parts of one string: white space and line comments with
a line break among them. The length up to the quote that reopens it. -/
def stringGap (inComment sawBreak : Bool) : Text → Option ℕ
  | [] => none
  | c :: rest =>
    let isBreak := c = '\n' || c = '\r'
    if inComment then (stringGap (!isBreak) (sawBreak || isBreak) rest).map (· + 1)
    else if c = '\'' then if sawBreak then some 1 else none
    else if isServerSpace c then (stringGap false (sawBreak || isBreak) rest).map (· + 1)
    else if c = '-' ∧ rest.head? = some '-' then (stringGap true sawBreak rest).map (· + 1)
    else none

/-- The conventions of the server. A prefixed string starts at its prefix, so
the prefix is a piece of its own. -/
def postgres : Lexicon where
  isSpace := isServerSpace
  endsLine := fun c => c = '\n' || c = '\r'
  dashComment := fun _ => true
  hashComments := false
  executableComments := false
  nestedComments := true
  closer := fun c => if c = '\'' || c = '"' then some c else none
  backslashEscapes := fun before c =>
    c = '\'' && before.head?.any fun piece => piece = ['e'] || piece = ['E']
  continued := fun close rest => if close = '\'' then stringGap false false rest else none
  dollarLabel := fun _ text => labelAt startsIdentifier
    (fun c => startsIdentifier c || isAsciiDigit c) text
  wordLength := serverWordLength

/-! ## Plain texts -/

section

variable (unicode : UnicodeTable)

/-- The characters both lexers put in the same class. -/
def isPlainChar (c : Char) : Bool :=
  if c.toNat < 128 then c ≠ '`' else unicode.isAlphabetic c

/-- What has to hold at a place of the server's reading. -/
def isPlainPlace (place : Lexicon.Place) : Bool :=
  let text := place.c :: place.rest
  let round := postgres.round place.state place.before place.c place.rest
  match place.state with
  | .normal =>
    (text.take round.consumed).all (isPlainChar unicode) &&
    -- A number does not touch a dollar.
    (!isAsciiDigit place.c || text[round.consumed]? ≠ some '$') &&
    -- Neither does the opening of a dollar-quoted or of an escape string.
    (match round.next with
      | .dollarQuoted _ => !(charsBefore place.before)[0]?.any (isIdentifierChar unicode)
      | .quoted _ true => !(charsBefore place.before)[1]?.any (isIdentifierChar unicode)
      | _ => true)
  | .lineComment =>
    -- Behind a carriage return only white space is left on the line.
    place.c ≠ '\r' || (place.rest.takeWhile (· ≠ '\n')).all isServerSpace
  | .quoted close _ =>
    place.c ≠ close || place.rest.head? = some close || (postgres.continued close place.rest).isNone
  | _ => true

/-- A text in which the server meets nothing that the governance reads otherwise. Of
the strings continued on the next line only escape strings are misread: behind the
line break the governance no longer takes a backslash for an escape. A plain string
is excluded with them because its parts are tokens of their own for the governance,
so that the two readings are not the same tokens. -/
def IsPlain (sql : Text) : Prop :=
  ∀ place ∈ postgres.places sql.length .normal [] sql, isPlainPlace unicode place = true

instance (sql : Text) : Decidable (IsPlain unicode sql) :=
  inferInstanceAs (Decidable (∀ place ∈ _, _))

end

/-! ## Character classes -/

section

variable {unicode : UnicodeTable} {c : Char}

theorem isAlphanumeric_ascii (h : c.toNat < 128) :
    unicode.isAlphanumeric c = (isAsciiAlphabetic c || isAsciiDigit c) := by
  unfold UnicodeTable.isAlphanumeric
  rw [unicode.isAlphabetic_ascii c h, unicode.isNumeric_ascii c h]

/-- Identifier characters of the rules are identifier characters of the server. -/
theorem continuesIdentifier_of_isIdentifierChar (h : isIdentifierChar unicode c) :
    continuesIdentifier c := by
  by_cases hascii : c.toNat < 128
  · unfold isIdentifierChar at h
    rw [isAlphanumeric_ascii hascii] at h
    unfold continuesIdentifier startsIdentifier
    grind
  · simp [continuesIdentifier, startsIdentifier, Nat.le_of_not_lt hascii]

theorem isIdentifierChar_of_plain (hplain : isPlainChar unicode c) (h : continuesIdentifier c) :
    isIdentifierChar unicode c := by
  unfold isPlainChar at hplain
  unfold isIdentifierChar
  split at hplain
  next hascii =>
    rw [isAlphanumeric_ascii hascii]
    unfold continuesIdentifier startsIdentifier at h
    grind
  next => simp [UnicodeTable.isAlphanumeric, hplain]

/-- What may start or continue a label by the rules may do so for the server. -/
theorem startsIdentifier_of_letter (h : unicode.isAlphabetic c || c = '_') :
    startsIdentifier c := by
  by_cases hascii : c.toNat < 128
  · rw [unicode.isAlphabetic_ascii c hascii] at h
    simp [startsIdentifier, h]
  · simp [startsIdentifier, Nat.le_of_not_lt hascii]

theorem starts_of_alphanumeric (h : unicode.isAlphanumeric c || c = '_') :
    startsIdentifier c || isAsciiDigit c := by
  by_cases hascii : c.toNat < 128
  · rw [isAlphanumeric_ascii hascii] at h
    unfold startsIdentifier
    grind
  · simp [startsIdentifier, Nat.le_of_not_lt hascii]

theorem letter_of_plain (hplain : isPlainChar unicode c) (h : startsIdentifier c) :
    unicode.isAlphabetic c || c = '_' := by
  unfold isPlainChar at hplain
  split at hplain
  next hascii =>
    rw [unicode.isAlphabetic_ascii c hascii]
    unfold startsIdentifier at h
    grind
  next => simp [hplain]

theorem isServerSpace_iff (c : Char) :
    isServerSpace c ↔ (9 ≤ c.toNat ∧ c.toNat ≤ 13) ∨ c.toNat = 32 := by
  have heq : ∀ d : Char, c = d ↔ c.toNat = d.toNat := fun d => Char.toNat_inj.symm
  simp only [isServerSpace, Bool.or_eq_true, decide_eq_true_eq, heq]
  simp only [Char.reduceToNat]
  omega

theorem isWhitespace_eq_of_plain (hplain : isPlainChar unicode c) :
    isWhitespace c = isServerSpace c := by
  rw [Bool.eq_iff_iff, isServerSpace_iff]
  unfold isPlainChar at hplain
  split at hplain
  next hascii =>
    rw [isWhitespace_iff]
    omega
  next hascii =>
    -- Outside ASCII a plain character is a letter.
    constructor
    · intro hspace
      rw [unicode.isAlphabetic_whitespace c hspace] at hplain
      cases hplain
    · omega

theorem ne_backtick_of_plain (hplain : isPlainChar unicode c) : c ≠ '`' := by
  rintro rfl
  simp [isPlainChar] at hplain

end

/-! ## Words -/

section

variable {unicode : UnicodeTable} {text : Text}

variable {c : Char}

theorem continuesIdentifier_of_digit (h : isAsciiDigit c) : continuesIdentifier c := by
  simp [continuesIdentifier, h]

variable {rest : Text}

/-- The server's word is a run of identifier characters. Only a dollar behind a
number could have gone on. -/
theorem serverWordLength_spec (hpos : 0 < serverWordLength (c :: rest)) :
    (∀ d ∈ (c :: rest).take (serverWordLength (c :: rest)), continuesIdentifier d) ∧
    ∀ d, (c :: rest)[serverWordLength (c :: rest)]? = some d → continuesIdentifier d →
      isAsciiDigit c ∧ d = '$' := by
  generalize htext : c :: rest = text at hpos ⊢
  by_cases hstart : startsIdentifier c
  · have hlength : serverWordLength text = (text.takeWhile continuesIdentifier).length := by
      subst htext
      simp [serverWordLength, hstart]
    rw [hlength, take_length_takeWhile]
    refine ⟨fun d hd => mem_takeWhile_imp hd, fun d hd hcontinues => ?_⟩
    rw [eq_false_of_getElem?_length_takeWhile hd] at hcontinues
    cases hcontinues
  by_cases hdigit : isAsciiDigit c
  · have hdigits : ∀ d ∈ text.take (text.takeWhile isAsciiDigit).length, continuesIdentifier d := by
      intro d hd
      rw [take_length_takeWhile] at hd
      exact continuesIdentifier_of_digit (mem_takeWhile_imp hd)
    by_cases hglued : (text.drop (text.takeWhile isAsciiDigit).length).head?.any startsIdentifier
    · -- A number with an identifier behind it.
      have hlength : serverWordLength text = (text.takeWhile isAsciiDigit).length +
          ((text.drop (text.takeWhile isAsciiDigit).length).takeWhile
            continuesIdentifier).length := by
        subst htext
        simp only [serverWordLength, hstart, hdigit, hglued, if_true, Bool.false_eq_true, if_false]
      rw [hlength, take_add, take_length_takeWhile continuesIdentifier]
      refine ⟨fun d hd => ?_, fun d hd hcontinues => ?_⟩
      · rcases mem_append.mp hd with hd | hd
        · exact hdigits d hd
        · exact mem_takeWhile_imp hd
      · rw [← getElem?_drop] at hd
        rw [eq_false_of_getElem?_length_takeWhile hd] at hcontinues
        cases hcontinues
    · have hlength : serverWordLength text = (text.takeWhile isAsciiDigit).length := by
        subst htext
        simp only [serverWordLength, hstart, hdigit, hglued, if_true, Bool.false_eq_true, if_false]
      rw [hlength]
      refine ⟨hdigits, fun d hd hcontinues => ⟨hdigit, ?_⟩⟩
      have hnotdigit := eq_false_of_getElem?_length_takeWhile hd
      rw [head?_drop, hd] at hglued
      simpa [continuesIdentifier, hnotdigit, show startsIdentifier d = false by
        simpa using hglued] using hcontinues
  · subst htext
    simp [serverWordLength, hstart, hdigit] at hpos

theorem serverWordLength_le (text : Text) : serverWordLength text ≤ text.length := by
  have hdigits := (takeWhile_sublist (l := text) isAsciiDigit).length_le
  have hbehind := (takeWhile_sublist
    (l := text.drop (text.takeWhile isAsciiDigit).length) continuesIdentifier).length_le
  rw [length_drop] at hbehind
  unfold serverWordLength
  split
  · simp
  · split_ifs
    · exact (takeWhile_sublist _).length_le
    · dsimp only
      split_ifs <;> omega
    · omega

theorem serverWordLength_pos_iff :
    0 < serverWordLength (c :: rest) ↔ startsIdentifier c ∨ isAsciiDigit c := by
  by_cases hstart : startsIdentifier c
  · simp [serverWordLength, hstart, continuesIdentifier]
  · by_cases hdigit : isAsciiDigit c
    · simp only [serverWordLength, hstart, hdigit, Bool.false_eq_true, if_false, if_true,
        takeWhile_cons, length_cons, or_true, iff_true]
      split <;> omega
    · simp [serverWordLength, hstart, hdigit]

/-- A plain character starts a word by the rules if it does for the server. -/
theorem starts_eq_of_plain (hplain : isPlainChar unicode c) :
    (unicode.isAlphanumeric c || c = '_') = (startsIdentifier c || isAsciiDigit c) := by
  by_cases hdollar : c = '$'
  · subst hdollar
    rw [isAlphanumeric_ascii (by decide)]
    decide
  · have hsame : isIdentifierChar unicode c = continuesIdentifier c :=
      Bool.eq_iff_iff.mpr
        ⟨continuesIdentifier_of_isIdentifierChar, isIdentifierChar_of_plain hplain⟩
    simpa [isIdentifierChar, continuesIdentifier, hdollar] using hsame

/-- The rules find the server's word, if it is plain and no number that touches
a dollar. -/
theorem wordLength_eq (hplain : isPlainChar unicode c)
    (hword : ∀ d ∈ (c :: rest).take (serverWordLength (c :: rest)), isPlainChar unicode d)
    (hdollar : isAsciiDigit c → (c :: rest)[serverWordLength (c :: rest)]? ≠ some '$') :
    wordLength unicode postgresRules (c :: rest) = serverWordLength (c :: rest) := by
  have hstarts : (unicode.isAlphanumeric c || c = '_' || (c = '$' && !postgresRules.dollarQuotes)) =
      (startsIdentifier c || isAsciiDigit c) := by
    simpa [postgresRules] using starts_eq_of_plain hplain
  unfold wordLength
  simp only [hstarts]
  split
  next hstart =>
    have hpos : 0 < serverWordLength (c :: rest) :=
      serverWordLength_pos_iff.mpr (by simpa using hstart)
    obtain ⟨hinside, hbehind⟩ := serverWordLength_spec hpos
    generalize hn : serverWordLength (c :: rest) = n at *
    have hlength : n ≤ (c :: rest).length := hn ▸ serverWordLength_le (c :: rest)
    conv_lhs => rw [← take_append_drop n (c :: rest)]
    rw [(takeWhile_append_of_stop ?_ ?_).1, length_take, Nat.min_eq_left hlength]
    · exact fun d hd => isIdentifierChar_of_plain (hword d hd) (hinside d hd)
    · intro d hd
      rw [head?_drop] at hd
      by_contra hident
      obtain ⟨hdigit, rfl⟩ := hbehind d hd
        (continuesIdentifier_of_isIdentifierChar (by simpa using hident))
      exact hdollar hdigit hd
  next hstart =>
    have hnot : ¬ 0 < serverWordLength (c :: rest) := by
      rw [serverWordLength_pos_iff]
      simpa using hstart
    omega

end

/-! ## Rounds -/

section

variable {unicode : UnicodeTable} {before : List Text} {c : Char} {rest : Text}

/-- Outside quotations and comments, an `e` just consumed was a word of its own
or ended a longer one. -/
def EndsWord (unicode : UnicodeTable) (before : List Text) : Prop :=
  ∀ e, e = 'e' ∨ e = 'E' → (charsBefore before)[0]? = some e →
    before.head? = some [e] ∨ (charsBefore before)[1]?.any (isIdentifierChar unicode)

/-- A word of the server takes its round. -/
theorem postgres_round_of_word (h : 0 < serverWordLength (c :: rest)) :
    postgres.round .normal before c rest = ⟨[.word (asciiUppercase
      ((c :: rest).take (serverWordLength (c :: rest))))], .normal,
      serverWordLength (c :: rest)⟩ := by
  have hne : ∀ d : Char, startsIdentifier d = false → isAsciiDigit d = false → c ≠ d := by
    rintro d hstart hdigit rfl
    simpa [hstart, hdigit] using serverWordLength_pos_iff.mp h
  have hspace : isServerSpace c = false := by
    rw [← Bool.not_eq_true]
    intro hspace
    simp only [isServerSpace, Bool.or_eq_true, decide_eq_true_eq] at hspace
    rcases hspace with ((((h | h) | h) | h) | h) | h <;> exact hne _ (by decide) (by decide) h
  have hlabel : ∀ starts continues, labelAt starts continues (c :: rest) = none := by
    intro starts continues
    have := hne '$' (by decide) (by decide)
    unfold labelAt
    split
    next heq => simp_all
    next => rfl
  obtain ⟨n, hn⟩ := Nat.exists_eq_succ_of_ne_zero h.ne'
  simp [Lexicon.round, Lexicon.normalRound, postgres, hspace, hlabel, hn, hne '-' (by decide)
    (by decide), hne '/' (by decide) (by decide), hne '\'' (by decide) (by decide),
    hne '"' (by decide) (by decide)]

/-- The rules find a dollar-quoted string where the server does, if its label is
plain and it follows no identifier character. -/
theorem dollarLabel_eq (hlabel : ∀ label, postgres.dollarLabel before (c :: rest) = some label →
      (∀ d ∈ label, isPlainChar unicode d) ∧
      (charsBefore before)[0]?.any (isIdentifierChar unicode) = false) :
    (postgresRules.lexicon unicode).dollarLabel before (c :: rest) =
      postgres.dollarLabel before (c :: rest) := by
  cases h : postgres.dollarLabel before (c :: rest) with
  | some label =>
    obtain ⟨hplain, hbefore⟩ := hlabel label h
    simp only [lexicon, postgresRules, hbefore, Bool.not_false, Bool.and_self, if_true]
    refine labelAt_of_imp h (fun d hd hstart => ?_) (fun d hd hcontinue => ?_)
    · exact letter_of_plain (hplain d hd) hstart
    · rw [starts_eq_of_plain (hplain d hd)]
      exact hcontinue
  | none =>
    have hnone : dollarTag unicode (c :: rest) = none := by
      rw [Option.eq_none_iff_forall_ne_some]
      intro label hsome
      have hserver : postgres.dollarLabel before (c :: rest) = some label :=
        labelAt_of_imp hsome (fun _ _ => startsIdentifier_of_letter)
          (fun _ _ => starts_of_alphanumeric)
      rw [h] at hserver
      cases hserver
    simp [lexicon, hnone]

/-- The rules see the prefix of an escape string where the server does. -/
theorem backslashEscapes_eq (hends : EndsWord unicode before)
    (hescape : c = '\'' → postgres.backslashEscapes before c →
      (charsBefore before)[1]?.any (isIdentifierChar unicode) = false) :
    (postgresRules.lexicon unicode).backslashEscapes before c =
      postgres.backslashEscapes before c := by
  by_cases hquote : c = '\''
  · subst hquote
    rw [Bool.eq_iff_iff]
    constructor
    · -- The `e` in front of the quote ended no longer word, so it was one.
      intro h
      simp only [lexicon, postgresRules, decide_true, Bool.true_or, Bool.true_and,
        Bool.false_or, Bool.and_eq_true, Option.any_eq_true, Bool.or_eq_true, decide_eq_true_eq,
        Bool.not_eq_true'] at h
      obtain ⟨⟨e, hlast, he⟩, hsecond⟩ := h
      rcases hends e he hlast with hpiece | hlonger
      · rcases he with rfl | rfl <;> simp [postgres, hpiece]
      · rw [hsecond] at hlonger
        cases hlonger
    · intro h
      have hsecond := hescape rfl h
      simp only [postgres, decide_true, Bool.true_and, Option.any_eq_true, Bool.or_eq_true,
        decide_eq_true_eq] at h
      obtain ⟨piece, hhead, hpiece⟩ := h
      cases before with
      | nil => cases hhead
      | cons last before =>
        cases hhead
        rcases hpiece with rfl | rfl <;>
          simpa [lexicon, postgresRules, charsBefore] using hsecond
  · simp [lexicon, postgresRules, postgres, hquote]

/-- What a plain place outside comments and quotations says. -/
theorem plain_normal (h : isPlainPlace unicode ⟨.normal, before, c, rest⟩) :
    (∀ d ∈ (c :: rest).take (postgres.round .normal before c rest).consumed,
      isPlainChar unicode d) ∧
    (isAsciiDigit c → (c :: rest)[(postgres.round .normal before c rest).consumed]? ≠ some '$') ∧
    (∀ label, (postgres.round .normal before c rest).next = .dollarQuoted label →
      (charsBefore before)[0]?.any (isIdentifierChar unicode) = false) ∧
    ∀ close, (postgres.round .normal before c rest).next = .quoted close true →
      (charsBefore before)[1]?.any (isIdentifierChar unicode) = false := by
  simp only [isPlainPlace, Bool.and_eq_true, all_eq_true, Bool.or_eq_true,
    Bool.not_eq_true', decide_eq_true_eq] at h
  obtain ⟨⟨hchars, hnumber⟩, hopens⟩ := h
  refine ⟨hchars, fun hdigit => ?_, fun label hnext => ?_, fun close hnext => ?_⟩
  · exact hnumber.resolve_left (by simp [hdigit])
  all_goals simpa [hnext] using hopens

/-- Outside comments and quotations both lexers take the same round at a plain
place. -/
theorem round_normal_eq (hends : EndsWord unicode before)
    (hplace : isPlainPlace unicode ⟨.normal, before, c, rest⟩) :
    (postgresRules.lexicon unicode).round .normal before c rest =
      postgres.round .normal before c rest := by
  obtain ⟨hchars, hnumber, hlabel, hescape⟩ := plain_normal hplace
  have hc : isPlainChar unicode c := by
    refine hchars c ?_
    obtain ⟨n, hn⟩ := Nat.exists_eq_succ_of_ne_zero
      (Lexicon.round_consumed_pos (L := postgres) .normal before c rest).ne'
    simp [hn]
  have hquote : c = '\'' → postgres.round .normal before c rest =
      ⟨[.quoted], .quoted '\'' (postgres.backslashEscapes before c), 1⟩ := by
    rintro rfl
    simp [Lexicon.round, Lexicon.normalRound, postgres, isServerSpace]
  refine Lexicon.normalRound_congr (isWhitespace_eq_of_plain hc) ?_ rfl rfl ?_ ?_ ?_ ?_
  · funext after
    simp [lexicon, postgresRules, postgres]
  · simp [lexicon, postgresRules, postgres, ne_backtick_of_plain hc]
  · refine backslashEscapes_eq hends (fun hc hserver => hescape '\'' ?_)
    rw [hquote hc, hserver]
  · refine dollarLabel_eq (fun label hserver => ?_)
    have hround : postgres.round .normal before c rest =
        ⟨[.quoted], .dollarQuoted label, (delimiter label).length⟩ := by
      have hdollar : c = '$' := by
        by_contra hc
        simp [postgres, labelAt, hc] at hserver
      subst hdollar
      simp only [postgres] at hserver
      simp [Lexicon.round, Lexicon.normalRound, postgres, hserver, isServerSpace]
    rw [hround, take_delimiter_of_labelAt hserver] at hchars
    refine ⟨fun d hd => hchars d (by simp [delimiter, hd]), hlabel label (by rw [hround])⟩
  · show wordLength unicode postgresRules (c :: rest) = serverWordLength (c :: rest)
    by_cases hpos : 0 < serverWordLength (c :: rest)
    · rw [postgres_round_of_word hpos] at hchars hnumber
      exact wordLength_eq hc hchars hnumber
    · refine wordLength_eq hc (fun d hd => ?_) (fun hdigit => ?_)
      · simp [Nat.eq_zero_of_not_pos hpos] at hd
      · exact absurd (serverWordLength_pos_iff.mpr (.inr hdigit)) hpos

theorem endsWord_of_last {piece : Text} {d : Char} (hlast : piece.reverse.head? = some d)
    (hd : d ≠ 'e' ∧ d ≠ 'E') : EndsWord unicode (piece :: before) := by
  intro e he hhead
  obtain ⟨more, hmore⟩ := head?_eq_some_iff.mp hlast
  have heq : d = e := by simpa [charsBefore, hmore] using hhead
  subst heq
  exact absurd he (by simp [hd])

theorem endsWord_of_word {piece : Text} (hne : piece ≠ [])
    (hpiece : ∀ d ∈ piece, isIdentifierChar unicode d) : EndsWord unicode (piece :: before) := by
  intro e _ hhead
  cases hreverse : piece.reverse with
  | nil => exact absurd (by simpa using hreverse) hne
  | cons d more =>
    have heq : d = e := by simpa [charsBefore, hreverse] using hhead
    subst heq
    cases more with
    | nil => exact .inl (by simpa using hreverse)
    | cons f more =>
      have hf : f ∈ piece := by
        rw [← mem_reverse, hreverse]
        simp
      simp [charsBefore, hreverse, hpiece f hf]

/-- What an `EndsWord` place leads to: a piece that ends as it should, or a
quotation closed by no letter. -/
def Settled (unicode : UnicodeTable) (state : State) (before : List Text) : Prop :=
  match state with
  | .normal => EndsWord unicode before
  | .quoted close _ => close ≠ 'e' ∧ close ≠ 'E'
  | _ => True

theorem settled_round_normal (hplace : isPlainPlace unicode ⟨.normal, before, c, rest⟩) :
    Settled unicode (postgres.round .normal before c rest).next
      ((c :: rest).take (postgres.round .normal before c rest).consumed :: before) := by
  obtain ⟨hchars, -, -, -⟩ := plain_normal hplace
  by_cases hpos : 0 < serverWordLength (c :: rest)
  · obtain ⟨hinside, -⟩ := serverWordLength_spec hpos
    rw [postgres_round_of_word hpos] at hchars ⊢
    refine endsWord_of_word ?_ (fun d hd => isIdentifierChar_of_plain (hchars d hd) (hinside d hd))
    simpa using hpos.ne'
  -- No other round consumes an `e`.
  have hletter : c ≠ 'e' ∧ c ≠ 'E' := by
    rw [serverWordLength_pos_iff] at hpos
    constructor <;> rintro rfl <;> exact hpos (by decide)
  have hone : EndsWord unicode ([c] :: before) := endsWord_of_last rfl hletter
  simp only [Lexicon.round, Lexicon.normalRound, show postgres.executableComments = false from rfl,
    Bool.false_eq_true, if_false]
  split_ifs
  · exact hone
  · trivial
  · trivial
  · trivial
  · cases hcloser : postgres.closer c with
    | some close =>
      simp only [postgres] at hcloser
      split at hcloser
      · exact Option.some.inj hcloser ▸ hletter
      · cases hcloser
    | none =>
      cases hlabel : postgres.dollarLabel before (c :: rest) with
      | some label => trivial
      | none =>
        have hzero : postgres.wordLength (c :: rest) = 0 := Nat.eq_zero_of_not_pos hpos
        simp only [hzero]
        exact hone

theorem settled_round {state : State} (hsettled : Settled unicode state before)
    (hplace : isPlainPlace unicode ⟨state, before, c, rest⟩) :
    Settled unicode (postgres.round state before c rest).next
      ((c :: rest).take (postgres.round state before c rest).consumed :: before) := by
  cases state with
  | normal => exact settled_round_normal hplace
  | lineComment =>
    simp only [Lexicon.round]
    split
    next hline =>
      refine endsWord_of_last (d := c) rfl ?_
      constructor <;> rintro rfl <;> exact absurd hline (by decide)
    next => trivial
  | blockComment depth =>
    simp only [Lexicon.round]
    split_ifs with hclose hdepth
    · obtain ⟨rfl, hslash⟩ := hclose
      obtain ⟨more, rfl⟩ := head?_eq_some_iff.mp hslash
      exact endsWord_of_last (d := '/') rfl (by decide)
    all_goals trivial
  | quoted close escapes =>
    simp only [Lexicon.round]
    split_ifs with hescape hclose hdouble
    · exact hsettled
    · exact hsettled
    · cases postgres.continued close rest with
      | some n => exact hsettled
      | none => exact endsWord_of_last (d := c) rfl (hclose ▸ hsettled)
    · exact hsettled
  | dollarQuoted label =>
    simp only [Lexicon.round]
    split
    next hclose =>
      rw [List.isPrefixOf_iff_prefix, prefix_iff_eq_take] at hclose
      rw [← hclose]
      exact endsWord_of_last (d := '$') (by simp [delimiter]) (by decide)
    next => trivial

/-- The states of both lexers. They differ only behind a carriage return that
ended a comment for the server, as long as white space follows. -/
def Related (unicode : UnicodeTable) (s t : State) (before : List Text) (text : Text) : Prop :=
  (s = t ∧ Settled unicode t before) ∨
    (s = .lineComment ∧ t = .normal ∧ (text.takeWhile (· ≠ '\n')).all isServerSpace = true)

theorem postgres_round_of_space (hspace : isServerSpace c) :
    postgres.round .normal before c rest = ⟨[], .normal, 1⟩ := by
  simp [Lexicon.round, Lexicon.normalRound, postgres, hspace]

/-- A round keeps the lexers related. -/
theorem related_round (s t : State) (before : List Text) (c : Char) (rest : Text)
    (hrelated : Related unicode s t before (c :: rest))
    (hplace : isPlainPlace unicode ⟨t, before, c, rest⟩ = true) :
    ((postgresRules.lexicon unicode).round s before c rest).tokens =
      (postgres.round t before c rest).tokens ∧
    ((postgresRules.lexicon unicode).round s before c rest).consumed =
      (postgres.round t before c rest).consumed ∧
    Related unicode ((postgresRules.lexicon unicode).round s before c rest).next
      (postgres.round t before c rest).next
      ((c :: rest).take (postgres.round t before c rest).consumed :: before)
      ((c :: rest).drop (postgres.round t before c rest).consumed) := by
  obtain ⟨rfl, hsettled⟩ | ⟨rfl, rfl, hspaces⟩ := hrelated
  · have hnext := settled_round hsettled hplace
    by_cases hreturn : s = .lineComment ∧ c = '\r'
    · -- The comment ends for the server and goes on for the rules.
      obtain ⟨rfl, rfl⟩ := hreturn
      have hspaces : (rest.takeWhile (· ≠ '\n')).all isServerSpace = true := by
        simpa [isPlainPlace] using hplace
      exact ⟨rfl, rfl, .inr ⟨rfl, rfl, hspaces⟩⟩
    have hsame : (postgresRules.lexicon unicode).round s before c rest =
        postgres.round s before c rest := by
      cases s with
      | normal => exact round_normal_eq hsettled hplace
      | lineComment =>
        have hc : c ≠ '\r' := fun hc => hreturn ⟨rfl, hc⟩
        simp [Lexicon.round, lexicon, postgres, hc]
      | blockComment | dollarQuoted => rfl
      | quoted close escapes =>
        simp only [Lexicon.round]
        split_ifs with hescape hclose hdouble
        · rfl
        · rfl
        · have hnone : postgres.continued close rest = none := by
            simpa [isPlainPlace, hclose, hdouble] using hplace
          rw [hnone]
          rfl
        · rfl
    rw [hsame]
    exact ⟨rfl, rfl, .inl ⟨rfl, hnext⟩⟩
  · by_cases hline : c = '\n'
    · subst hline
      exact ⟨rfl, rfl, .inl ⟨rfl, endsWord_of_last (d := '\n') rfl (by decide)⟩⟩
    · have hsplit : isServerSpace c ∧ (rest.takeWhile (· ≠ '\n')).all isServerSpace = true := by
        simpa [hline] using hspaces
      rw [postgres_round_of_space hsplit.1]
      refine ⟨rfl, rfl, .inr ⟨?_, rfl, hsplit.2⟩⟩
      simp [Lexicon.round, lexicon, hline]

end

/-! ## The classes -/

/-- **Same reading.** A plain text has the same tokens for the rules and for the
server. -/
theorem postgresRules_tokens_eq {unicode : UnicodeTable} {sql : Text}
    (hplain : IsPlain unicode sql) : tokenize unicode sql postgresRules = postgres.tokens sql :=
  Lexicon.scan_eq_of_related related_round (.inl ⟨rfl, fun _ _ hhead => by cases hhead⟩) hplain

end Dbflux.Sql.Safety
