import Dbflux.Lib.Text

/-!
# Literals of a command text

A lexer for the texts that stand between the commas of a list of values, and the
grammar of literals over its tokens. What engines differ in is left to them
(`LiteralRules`): escapes inside strings, further ways to write a string, comments, the
end of the text at a NUL, which texts are numbers, and which further tokens are a
literal.

Results:
* `tokensLoop_eq_some_iff`: the loop computes the reading relation `Lexes`.
* `yields_doubled`, `yields_backslashed`: an escaped text between quotes is one string.
* `Lexes.append`: a text is read the same in front of a separator.
* `IsLiteral.enclosed`: a literal has no top-level separator.
-/

namespace Dbflux.Lib

open List

namespace LiteralRules

def quoteChar : Char := Char.ofNat 39

/-- A number, a word, a string, a symbol, or the start of a comment. -/
inductive Token
  | number (text : Text)
  | word (text : Text)
  | string
  | symbol (c : Char)
  | comment
deriving DecidableEq

/-! ## Separators -/

def opens : Token → Bool
  | .symbol c => c == '(' || c == '[' || c == '{'
  | _ => false

def closes : Token → Bool
  | .symbol c => c == ')' || c == ']' || c == '}'
  | _ => false

/-- The depth behind a token, `none` where a list of values would end or be split, and
at a semicolon or a comment at any depth. -/
def deepen (depth : ℕ) (t : Token) : Option ℕ :=
  if opens t then some (depth + 1)
  else if closes t then if depth = 0 then none else some (depth - 1)
  else if t = .comment ∨ t = .symbol ';' ∨ (t = .symbol ',' ∧ depth = 0) then none
  else some depth

/-- The depth behind the tokens. -/
def deepenAll (depth : ℕ) : List Token → Option ℕ
  | [] => some depth
  | t :: ts => (deepen depth t).bind fun next => deepenAll next ts

/-- No top-level comma or closing bracket, no semicolon and no comment, and every
bracket closed. -/
def Enclosed (ts : List Token) : Prop := ∀ depth, deepenAll depth ts = some depth

variable {t : Token} {ts us : List Token}

theorem deepenAll_append (depth : ℕ) (ts us : List Token) :
    deepenAll depth (ts ++ us) = (deepenAll depth ts).bind fun next => deepenAll next us := by
  induction ts generalizing depth with
  | nil => rfl
  | cons t ts ih =>
    simp only [cons_append, deepenAll, Option.bind_assoc]
    congr 1
    funext next
    exact ih next

theorem Enclosed.nil : Enclosed [] := fun _ => rfl

theorem Enclosed.append (hts : Enclosed ts) (hus : Enclosed us) : Enclosed (ts ++ us) := by
  intro depth
  rw [deepenAll_append, hts depth]
  exact hus depth

/-- A token that changes nothing at any depth. -/
theorem Enclosed.cons (ht : ∀ depth, deepen depth t = some depth) (hts : Enclosed ts) :
    Enclosed (t :: ts) := by
  intro depth
  rw [deepenAll, ht depth]
  exact hts depth

variable {items : List (List Token)}

/-- Below the top level enclosed items may be separated by commas. -/
theorem deepenAll_intercalate (h : ∀ item ∈ items, Enclosed item) (depth : ℕ) :
    deepenAll (depth + 1) ([.symbol ','].intercalate items) = some (depth + 1) := by
  induction items with
  | nil => rfl
  | cons item rest ih =>
    have hitem := h item (mem_cons_self ..)
    cases rest with
    | nil =>
      rw [intercalate_singleton]
      exact hitem _
    | cons next rest =>
      rw [intercalate_cons_cons, deepenAll_append, deepenAll_append, hitem]
      simpa [deepenAll, deepen, opens, closes] using
        ih fun item' hmem => h item' (mem_cons_of_mem _ hmem)

/-- Items between brackets. -/
theorem Enclosed.bracketed (h : ∀ item ∈ items, Enclosed item) {a b : Char}
    (ha : opens (.symbol a) = true) (hb : closes (.symbol b) = true)
    (hnot : opens (.symbol b) = false) :
    Enclosed (.symbol a :: [.symbol ','].intercalate items ++ [.symbol b]) := by
  intro depth
  rw [cons_append, deepenAll, deepen, if_pos ha, Option.bind_some, deepenAll_append,
    deepenAll_intercalate h]
  simp [deepenAll, deepen, hb, hnot]

/-! ## Tokens -/

def isNumberChar (c : Char) : Bool := isAsciiDigit c || c == '.'

/-- Digits with at most one dot behind the first. -/
def IsNumber (text : Text) : Prop :=
  ∃ c rest, text = c :: rest ∧ isAsciiDigit c ∧ (∀ d ∈ rest, isNumberChar d) ∧ text.count '.' ≤ 1

end LiteralRules

/-- What an engine does inside a list of values: whether a backslash escapes in a string,
whether `E` in front of a quote makes it one that does, whether dollars quote, whether
`#` opens a comment, whether a NUL ends the text, and what it takes for a number and
for a literal beyond those of `IsLiteral`. -/
structure LiteralRules where
  backslashEscapes : Bool
  escapeStrings : Bool
  dollarStrings : Bool
  hashComments : Bool
  nulEnds : Bool
  IsNumeral : Text → Prop
  Further : List LiteralRules.Token → Prop
  isNumeral_of_isNumber : ∀ text, LiteralRules.IsNumber text → IsNumeral text
  enclosed_of_further : ∀ ts, Further ts → LiteralRules.Enclosed ts

namespace LiteralRules

/-- Behind the opening quote: what follows the closing one. A quote that is doubled
does not close. -/
def stringEnd (escapes : Bool) : Text → Option Text
  | [] => none
  | c :: rest =>
    if c = '\\' ∧ escapes then
      match rest with
      | [] => none
      | _ :: rest => stringEnd escapes rest
    else if c = quoteChar then
      match rest with
      | d :: behind => if d = quoteChar then stringEnd escapes behind else some rest
      | [] => some []
    else stringEnd escapes rest

def isWordStart (c : Char) : Bool := isAsciiAlphabetic c || c == '_' || 127 < c.toNat

def isTagChar (c : Char) : Bool := isWordStart c || isAsciiDigit c

def isWordChar (c : Char) : Bool := isTagChar c || c == '$'

def isNumeralChar (c : Char) : Bool := isWordChar c || c == '.'

/-- Behind a dollar: what follows the string between two equal tags, a symbol if no tag
stands here, and none if the tag does not come again. -/
def dollarEnd (text : Text) : Option (Token × Text) :=
  match text.dropWhile isTagChar with
  | '$' :: behind =>
    (afterFirst ('$' :: text.takeWhile isTagChar ++ ['$']) behind).map fun rest => (.string, rest)
  | _ => some (.symbol '$', text)

/-- The sign and digits of an exponent behind the run of a number. -/
def exponent (run : Text) : Text → Text
  | sign :: digit :: rest =>
    if run.getLast? ∈ [some 'e', some 'E'] ∧ (sign = '+' ∨ sign = '-') ∧ isAsciiDigit digit then
      sign :: digit :: rest.takeWhile isNumeralChar
    else []
  | _ => []

/-- What stands at the start of a text without a gap. -/
def numeral (text : Text) : Text :=
  text.takeWhile isNumeralChar ++
    exponent (text.takeWhile isNumeralChar) (text.dropWhile isNumeralChar)

/-- Whether a number starts here: a digit, or a dot in front of one. -/
def startsNumber (c : Char) (rest : Text) : Bool :=
  isAsciiDigit c || c == '.' && rest.head?.any isAsciiDigit

/-- A word, or a string whose escapes it announces. -/
def wordToken (r : LiteralRules) (word behind : Text) : Option (Token × Text) :=
  match behind with
  | c :: rest =>
    if c = quoteChar ∧ r.escapeStrings ∧ word ∈ [['E'], ['e']] then
      (stringEnd true rest).map fun behind => (.string, behind)
    else some (.word word, behind)
  | [] => some (.word word, [])

/-- The token at the start of a text that starts with no space, and what follows. -/
def nextToken (r : LiteralRules) : Text → Option (Token × Text)
  | [] => none
  | c :: rest =>
    if c = quoteChar then (stringEnd r.backslashEscapes rest).map fun behind => (.string, behind)
    else if startsNumber c rest then
      some (.number (numeral (c :: rest)), (c :: rest).drop (numeral (c :: rest)).length)
    else if isWordStart c then
      wordToken r (c :: rest.takeWhile isWordChar) (rest.dropWhile isWordChar)
    else if c = '$' ∧ r.dollarStrings then dollarEnd rest
    else if c = '-' ∧ rest.head? = some '-' ∨ c = '/' ∧ rest.head? = some '*' ∨
        c = '#' ∧ r.hashComments then some (.comment, rest)
    else some (.symbol c, rest)

/-- The tokens of a text, `none` for a string that is not closed. -/
def tokensLoop (r : LiteralRules) : ℕ → Text → Option (List Token)
  | 0, text => if text = [] then some [] else none
  | fuel + 1, text =>
    match text with
    | [] => some []
    | c :: rest =>
      if isWhitespace c then tokensLoop r fuel rest
      else
        match nextToken r (c :: rest) with
        | none => none
        | some (token, behind) => (tokensLoop r fuel behind).map (token :: ·)

def tokens (r : LiteralRules) (text : Text) : Option (List Token) :=
  if r.nulEnds ∧ Char.ofNat 0 ∈ text then none else tokensLoop r text.length text

/-! ## Reading without fuel -/

/-- `ts` are the tokens of a text. -/
inductive Lexes (r : LiteralRules) : Text → List Token → Prop
  | nil : Lexes r [] []
  | space {c rest ts} : isWhitespace c → Lexes r rest ts → Lexes r (c :: rest) ts
  | token {c rest t behind ts} : isWhitespace c = false →
      nextToken r (c :: rest) = some (t, behind) → Lexes r behind ts → Lexes r (c :: rest) (t :: ts)

variable {r : LiteralRules} {text behind rest run : Text} {c : Char} {t : Token}
  {ts us : List Token} {escapes : Bool}

theorem length_stringEnd (h : stringEnd escapes text = some behind) : behind.length ≤ text.length := by
  fun_induction stringEnd escapes text with
  | case1 | case2 => cases h
  | case3 c hc d rest ih => have := ih h; simp only [length_cons]; omega
  | case4 behind' _ ih => have := ih h; simp only [length_cons]; omega
  | case5 | case6 => cases h; simp
  | case7 c rest _ _ ih => have := ih h; simp only [length_cons]; omega

theorem length_wordToken {word : Text} (h : wordToken r word rest = some (t, behind)) :
    behind.length ≤ rest.length := by
  unfold wordToken at h
  split at h
  · split_ifs at h
    · obtain ⟨behind', hend, heq⟩ := Option.map_eq_some_iff.mp h
      cases heq
      exact (length_stringEnd hend).trans (by simp)
    · cases h; exact le_refl _
  · cases h; exact le_refl _

theorem length_dollarEnd (h : dollarEnd rest = some (t, behind)) :
    behind.length ≤ rest.length := by
  unfold dollarEnd at h
  split at h
  next tail hdrop =>
    obtain ⟨behind', hend, heq⟩ := Option.map_eq_some_iff.mp h
    cases heq
    obtain ⟨before, hbefore⟩ := append_of_afterFirst hend
    have htail := congrArg List.length hbefore
    have hrest := length_dropWhile_le isTagChar rest
    simp only [hdrop, length_append, length_cons] at htail hrest
    omega
  next => cases h; exact le_refl _

theorem length_numeral (h : startsNumber c rest) : 0 < (numeral (c :: rest)).length := by
  have hc : isNumeralChar c = true := by
    simp only [startsNumber, Bool.or_eq_true, Bool.and_eq_true, beq_iff_eq] at h
    rcases h with h | ⟨rfl, -⟩
    · simp [isNumeralChar, isWordChar, isTagChar, h]
    · rfl
  rw [numeral, takeWhile_cons_of_pos hc]
  exact Nat.succ_pos _

theorem length_nextToken (h : nextToken r (c :: rest) = some (t, behind)) :
    behind.length ≤ rest.length := by
  unfold nextToken at h
  dsimp only at h
  split_ifs at h with _ hnumber
  · obtain ⟨behind', hend, heq⟩ := Option.map_eq_some_iff.mp h
    cases heq
    exact length_stringEnd hend
  · cases h
    have := length_numeral hnumber
    simp only [length_drop, length_cons]
    omega
  · exact (length_wordToken h).trans (length_dropWhile_le _ _)
  · exact length_dollarEnd h
  all_goals cases h; exact le_refl _

theorem lexes_nil_iff : Lexes r [] ts ↔ some [] = some ts := by
  constructor
  · rintro ⟨⟩
    rfl
  · rintro ⟨⟩
    exact .nil

theorem lexes_cons_iff : Lexes r (c :: rest) ts ↔ if isWhitespace c then Lexes r rest ts else
    ∃ t behind us, nextToken r (c :: rest) = some (t, behind) ∧ Lexes r behind us ∧ t :: us = ts := by
  constructor
  · intro h
    cases h with
    | space hspace h => rwa [if_pos hspace]
    | token hnot hnext h => rw [hnot]; exact ⟨_, _, _, hnext, h, rfl⟩
  · split_ifs with hspace
    · exact .space hspace
    · rintro ⟨t, behind, us, hnext, h, rfl⟩
      exact .token (Bool.eq_false_iff.mpr hspace) hnext h

/-- The loop computes the relation whenever it has a turn for each character. -/
theorem tokensLoop_eq_some_iff {fuel : ℕ} (hfuel : text.length ≤ fuel) :
    tokensLoop r fuel text = some ts ↔ Lexes r text ts := by
  induction fuel generalizing text ts with
  | zero =>
    obtain rfl : text = [] := eq_nil_of_length_eq_zero (by omega)
    exact lexes_nil_iff.symm
  | succ fuel ih =>
    cases text with
    | nil => exact lexes_nil_iff.symm
    | cons c rest =>
      simp only [length_cons] at hfuel
      rw [tokensLoop, lexes_cons_iff]
      split_ifs
      · exact ih (by omega)
      cases hnext : nextToken r (c :: rest) with
      | none => simp
      | some found =>
        obtain ⟨t, behind⟩ := found
        have hbehind := length_nextToken hnext
        simp [Option.map_eq_some_iff, ih (hbehind.trans (by omega))]

theorem tokens_eq_some_iff :
    r.tokens text = some ts ↔ ¬ (r.nulEnds ∧ Char.ofNat 0 ∈ text) ∧ Lexes r text ts := by
  unfold tokens
  by_cases hnul : r.nulEnds ∧ .ofNat 0 ∈ text
  · simp [hnul]
  · rw [if_neg hnul, tokensLoop_eq_some_iff (le_refl _)]
    exact (and_iff_right hnul).symm

/-! ## Reading one text behind another -/

/-- No word, number or string in front goes on here. -/
def Stops (rest : Text) : Prop :=
  ∀ c, rest.head? = some c → isWordChar c = false ∧ isNumberChar c = false ∧ c ≠ quoteChar

/-- A text is read as `ts` whatever stands behind it, if that stops. -/
def Yields (r : LiteralRules) (text : Text) (ts : List Token) : Prop :=
  ∀ rest us, Stops rest → Lexes r rest us → Lexes r (text ++ rest) (ts ++ us)

theorem Yields.lexes (h : Yields r text ts) : Lexes r text ts := by
  have := h [] [] (fun c hc => by cases hc) .nil
  simpa using this

/-! ## Escaped strings -/

/-- `str::replace` of the quote by two. -/
def doubled (text : Text) : Text :=
  text.flatMap fun c => if c = quoteChar then [quoteChar, quoteChar] else [c]

/-- A backslash in front of every backslash and every quote. -/
def backslashed (text : Text) : Text :=
  text.flatMap fun c => if c = '\\' ∨ c = quoteChar then ['\\', c] else [c]

def quoted (body : Text) : Text := quoteChar :: body ++ [quoteChar]

theorem Stops.head?_ne_quote (h : Stops rest) : rest.head? ≠ some quoteChar :=
  fun hquote => (h quoteChar hquote).2.2 rfl

theorem stringEnd_close (hrest : rest.head? ≠ some quoteChar) :
    stringEnd escapes (quoteChar :: rest) = some rest := by
  cases rest with
  | nil => rfl
  | cons d behind => exact if_neg fun hd => hrest (congrArg some hd)

theorem stringEnd_escape (c : Char) (rest : Text) :
    stringEnd true ('\\' :: c :: rest) = stringEnd true rest := by
  conv_lhs => rw [stringEnd.eq_def]
  dsimp only
  rw [if_pos ⟨rfl, rfl⟩]

theorem stringEnd_plain (hslash : ¬ (c = '\\' ∧ escapes)) (hquote : c ≠ quoteChar)
    (rest : Text) : stringEnd escapes (c :: rest) = stringEnd escapes rest := by
  conv_lhs => rw [stringEnd.eq_def]
  dsimp only
  rw [if_neg hslash, if_neg hquote]

theorem stringEnd_doubled (hrest : Stops rest) (text : Text) :
    stringEnd false (doubled text ++ quoteChar :: rest) = some rest := by
  induction text with
  | nil => exact stringEnd_close hrest.head?_ne_quote
  | cons c text ih =>
    by_cases hc : c = quoteChar
    · subst hc
      exact ih
    · have hstep : doubled (c :: text) = c :: doubled text := by simp [doubled, hc]
      rw [hstep, cons_append, stringEnd_plain (by simp) hc]
      exact ih

theorem stringEnd_backslashed (hrest : Stops rest) (text : Text) :
    stringEnd true (backslashed text ++ quoteChar :: rest) = some rest := by
  induction text with
  | nil => exact stringEnd_close hrest.head?_ne_quote
  | cons c text ih =>
    by_cases hc : c = '\\' ∨ c = quoteChar
    · have hstep : backslashed (c :: text) = '\\' :: c :: backslashed text := by
        simp [backslashed, hc]
      rw [hstep, cons_append, cons_append, stringEnd_escape]
      exact ih
    · have hstep : backslashed (c :: text) = c :: backslashed text := by simp [backslashed, hc]
      rw [not_or] at hc
      rw [hstep, cons_append, stringEnd_plain (fun h => hc.1 h.1) hc.2]
      exact ih

theorem yields_of_stringEnd {body : Text}
    (h : ∀ rest, Stops rest →
      stringEnd r.backslashEscapes (body ++ quoteChar :: rest) = some rest) :
    Yields r (quoted body) [.string] := by
  intro rest us hrest hus
  have hnext : nextToken r (quoteChar :: (body ++ quoteChar :: rest)) = some (.string, rest) := by
    rw [nextToken, if_pos rfl, h rest hrest]
    rfl
  have htext : quoted body ++ rest = quoteChar :: (body ++ quoteChar :: rest) := by
    simp [quoted]
  rw [htext]
  exact .token (by decide) hnext hus

theorem yields_doubled (hr : r.backslashEscapes = false) (text : Text) :
    Yields r (quoted (doubled text)) [.string] :=
  yields_of_stringEnd fun _ hrest => hr ▸ stringEnd_doubled hrest text

theorem yields_backslashed (hr : r.backslashEscapes = true) (text : Text) :
    Yields r (quoted (backslashed text)) [.string] :=
  yields_of_stringEnd fun _ hrest => hr ▸ stringEnd_backslashed hrest text

/-! ## Words, numbers and symbols -/

/-- A word, which starts with no space and announces no escapes. -/
def isWord : Text → Bool
  | [] => false
  | c :: run =>
    isWordStart c && !isWhitespace c && run.all isWordChar && !([['E'], ['e']].contains (c :: run))

/-- No number and no string starts like a word. -/
theorem startsNumber_of_isWordStart (hc : isWordStart c) (rest : Text) :
    c ≠ quoteChar ∧ startsNumber c rest = false := by
  have hdot : c ≠ '.' := by
    rintro rfl
    exact absurd hc (by decide)
  have hdigit : isAsciiDigit c = false := by
    simp only [isWordStart, Bool.or_eq_true, beq_iff_eq, decide_eq_true_eq,
      isAsciiAlphabetic_iff] at hc
    rw [Bool.eq_false_iff, ne_eq, isAsciiDigit_iff]
    rcases hc with (hc | rfl) | hc
    · omega
    · decide
    · omega
  refine ⟨?_, by simp [startsNumber, hdot, hdigit]⟩
  rintro rfl
  exact absurd hc (by decide)

/-- A word in front of anything that no word goes on with. -/
theorem lexes_word {word : Text} (hword : isWord word)
    (hstop : ∀ d, rest.head? = some d → isWordChar d = false) (hus : Lexes r rest us) :
    Lexes r (word ++ rest) (.word word :: us) := by
  cases word with
  | nil => cases hword
  | cons c run =>
    simp only [isWord, Bool.and_eq_true, Bool.not_eq_true', contains_eq_mem,
      decide_eq_false_iff_not] at hword
    obtain ⟨⟨⟨hc, hspace⟩, hrun⟩, hplain⟩ := hword
    obtain ⟨htake, hdrop⟩ := takeWhile_append_of_stop (all_eq_true.mp hrun) hstop
    obtain ⟨hquote, hnumber⟩ := startsNumber_of_isWordStart hc (run ++ rest)
    have htoken : wordToken r (c :: run) rest = some (.word (c :: run), rest) := by
      unfold wordToken
      split
      · exact if_neg fun h => hplain h.2.2
      · rfl
    refine .token hspace ?_ hus
    change nextToken r (c :: (run ++ rest)) = _
    rw [nextToken, if_neg hquote, if_neg (by rw [hnumber]; exact Bool.false_ne_true), if_pos hc,
      htake, hdrop, htoken]

theorem isNumeralChar_of_isNumberChar (hc : isNumberChar c) : isNumeralChar c := by
  simp only [isNumberChar, Bool.or_eq_true] at hc
  rcases hc with hc | hc <;> simp [isNumeralChar, isWordChar, isTagChar, hc]

theorem exponent_eq_nil {run : Text} (h : ∀ c ∈ run, isNumberChar c) (rest : Text) :
    exponent run rest = [] := by
  unfold exponent
  split
  next sign digit rest =>
    refine if_neg fun hlast => ?_
    simp only [mem_cons, not_mem_nil, or_false] at hlast
    rcases hlast.1 with hlast | hlast <;>
      exact absurd (h _ (mem_of_getLast? hlast)) (by decide)
  next => rfl

/-- A number in front of anything that stops. -/
theorem yields_number (hc : isAsciiDigit c) (hrun : ∀ d ∈ run, isNumberChar d) :
    Yields r (c :: run) [.number (c :: run)] := by
  intro rest us hrest hus
  have hall : ∀ d ∈ c :: run, isNumberChar d :=
    forall_mem_cons.mpr ⟨by simp [isNumberChar, hc], hrun⟩
  have hstop : ∀ d, rest.head? = some d → isNumeralChar d = false := by
    intro d hd
    obtain ⟨hword, hnumber, -⟩ := hrest d hd
    simp only [isNumberChar, Bool.or_eq_false_iff] at hnumber
    simp [isNumeralChar, hword, hnumber.2]
  obtain ⟨htake, hdrop⟩ := takeWhile_append_of_stop
    (fun d hd => isNumeralChar_of_isNumberChar (hall d hd)) hstop
  have hnumeral : numeral (c :: (run ++ rest)) = c :: run := by
    rw [← cons_append, numeral, htake, hdrop, exponent_eq_nil hall, append_nil]
  have hquote : c ≠ quoteChar := by
    rintro rfl
    exact absurd hc (by decide)
  have hspace : isWhitespace c = false := by
    rw [isAsciiDigit_iff] at hc
    rw [Bool.eq_false_iff, ne_eq, isWhitespace_iff]
    omega
  refine .token hspace ?_ hus
  change nextToken r (c :: (run ++ rest)) = _
  have hstarts : startsNumber c (run ++ rest) = true := by simp [startsNumber, hc]
  rw [nextToken, if_neg hquote, if_pos hstarts, hnumeral, ← cons_append, drop_left]

/-- A symbol that opens no comment, in front of anything. -/
theorem lexes_symbol (hc : c ∈ ['(', ')', '[', ']', '\x7b', '\x7d', ',', ':'])
    (hus : Lexes r rest us) : Lexes r (c :: rest) (.symbol c :: us) := by
  have hnext : isWhitespace c = false ∧ nextToken r (c :: rest) = some (.symbol c, rest) := by
    simp only [mem_cons, not_mem_nil, or_false] at hc
    obtain rfl | rfl | rfl | rfl | rfl | rfl | rfl | rfl := hc <;> exact ⟨rfl, rfl⟩
  exact .token hnext.1 hnext.2 hus

/-! ## Separators behind a text -/

/-- A comma, a closing parenthesis or a space stands here. -/
def Separates (rest : Text) : Prop := ∃ c behind, rest = c :: behind ∧ (c = ',' ∨ c = ')' ∨ c = ' ')

theorem Separates.stops (h : Separates rest) : Stops rest := by
  obtain ⟨_, behind, rfl, rfl | rfl | rfl⟩ := h <;> exact fun c hc => by cases hc; decide

theorem stringEnd_append (h : stringEnd escapes text = some behind) (hrest : Stops rest) :
    stringEnd escapes (text ++ rest) = some (behind ++ rest) := by
  fun_induction stringEnd escapes text with
  | case1 | case2 => cases h
  | case3 c hc d text ih =>
    obtain ⟨rfl, rfl⟩ := hc
    rw [cons_append, cons_append, stringEnd_escape]
    exact ih h
  | case4 text _ ih =>
    exact ih h
  | case5 d text hd _ =>
    cases h
    exact stringEnd_close fun hquote => hd (Option.some.inj hquote)
  | case6 =>
    cases h
    exact stringEnd_close hrest.head?_ne_quote
  | case7 c text hslash hquote ih =>
    rw [cons_append, stringEnd_plain hslash hquote]
    exact ih h

theorem exponent_append (h : Separates rest) (run text : Text) :
    exponent run (text ++ rest) = exponent run text := by
  match text with
  | [] =>
    obtain ⟨_, behind, rfl, rfl | rfl | rfl⟩ := h <;> cases behind <;> simp [exponent]
  | [sign] =>
    obtain ⟨_, behind, rfl, rfl | rfl | rfl⟩ := h <;>
      exact if_neg fun h => absurd h.2.2 (by decide)
  | sign :: digit :: text =>
    have hstop : ∀ c, rest.head? = some c → isNumeralChar c = false := by
      obtain ⟨_, behind, rfl, rfl | rfl | rfl⟩ := h <;> exact fun c hc => by cases hc; decide
    simp only [cons_append, exponent, (takeWhile_append_stop hstop text).1]

theorem length_exponent_le (run text : Text) : (exponent run text).length ≤ text.length := by
  unfold exponent
  split
  next sign digit rest =>
    have htake : (rest.takeWhile isNumeralChar).length ≤ rest.length :=
      (takeWhile_sublist isNumeralChar).length_le
    split_ifs <;> simp only [length_cons, length_nil] <;> omega
  next => exact Nat.zero_le _

theorem numeral_append (h : Separates rest) (text : Text) :
    numeral (text ++ rest) = numeral text ∧
      (text ++ rest).drop (numeral text).length = text.drop (numeral text).length ++ rest := by
  have hstop : ∀ c, rest.head? = some c → isNumeralChar c = false := by
    obtain ⟨_, behind, rfl, rfl | rfl | rfl⟩ := h <;> exact fun c hc => by cases hc; decide
  obtain ⟨htake, hdrop⟩ := takeWhile_append_stop hstop text
  refine ⟨by rw [numeral, htake, hdrop, exponent_append h, numeral], ?_⟩
  have hexponent := length_exponent_le (text.takeWhile isNumeralChar) (text.dropWhile isNumeralChar)
  have hsplit := congrArg List.length (takeWhile_append_dropWhile (p := isNumeralChar) (l := text))
  rw [length_append] at hsplit
  refine drop_append_of_le_length ?_
  rw [numeral, length_append]
  omega

theorem wordToken_append {word : Text} (h : wordToken r word text = some (t, behind))
    (hrest : Separates rest) : wordToken r word (text ++ rest) = some (t, behind ++ rest) := by
  cases text with
  | nil =>
    cases h
    obtain ⟨_, behind, rfl, rfl | rfl | rfl⟩ := hrest <;> simp only [nil_append, wordToken] <;>
      exact if_neg fun h => absurd h.1 (by decide)
  | cons c text =>
    simp only [wordToken, cons_append] at h ⊢
    split_ifs at h ⊢
    · obtain ⟨behind', hend, heq⟩ := Option.map_eq_some_iff.mp h
      cases heq
      rw [stringEnd_append hend hrest.stops]
      rfl
    · cases h; rfl

theorem dollarEnd_append (h : dollarEnd text = some (t, behind)) (hrest : Separates rest) :
    dollarEnd (text ++ rest) = some (t, behind ++ rest) := by
  have hstop : ∀ c, rest.head? = some c → isTagChar c = false := by
    obtain ⟨_, behind, rfl, rfl | rfl | rfl⟩ := hrest <;> exact fun c hc => by cases hc; decide
  obtain ⟨htake, hdrop⟩ := takeWhile_append_stop hstop text
  unfold dollarEnd at h ⊢
  rw [htake, hdrop]
  cases htail : text.dropWhile isTagChar with
  | nil =>
    rw [htail] at h
    cases h
    obtain ⟨_, behind, rfl, rfl | rfl | rfl⟩ := hrest <;> rfl
  | cons c tail =>
    rw [htail] at h
    by_cases hc : c = '$'
    · subst hc
      obtain ⟨behind', hend, heq⟩ := Option.map_eq_some_iff.mp h
      cases heq
      exact Option.map_eq_some_iff.mpr ⟨_, afterFirst_append hend rest, rfl⟩
    · rw [cons_append]
      split at h
      next heq => exact absurd (cons.inj heq).1 hc
      split
      next heq => exact absurd (cons.inj heq).1 hc
      cases h
      rfl

/-- The token at the start of a text is the same in front of a separator. -/
theorem nextToken_append (h : nextToken r (c :: text) = some (t, behind)) (hrest : Separates rest) :
    nextToken r (c :: (text ++ rest)) = some (t, behind ++ rest) := by
  have hhead {d : Char} (hd : d ≠ ',' ∧ d ≠ ')' ∧ d ≠ ' ') :
      (text ++ rest).head? = some d ↔ text.head? = some d := by
    obtain ⟨e, tail, rfl, he⟩ := hrest
    cases text with
    | nil =>
      refine iff_of_false (fun h => ?_) (by simp)
      cases h
      rcases he with rfl | rfl | rfl <;> simp at hd
    | cons e text => exact .rfl
  have hnumber : startsNumber c (text ++ rest) = startsNumber c text := by
    obtain ⟨e, tail, rfl, rfl | rfl | rfl⟩ := hrest <;> cases text <;> rfl
  simp only [nextToken, hnumber, hhead (d := '-') (by decide), hhead (d := '*') (by decide)] at h ⊢
  split_ifs at h ⊢ with hquote hstarts hword hdollar hopens
  · obtain ⟨behind', hend, heq⟩ := Option.map_eq_some_iff.mp h
    cases heq
    rw [stringEnd_append hend hrest.stops]
    rfl
  · cases h
    obtain ⟨hnumeral, hdrop⟩ := numeral_append hrest (c :: text)
    rw [← cons_append, hnumeral, hdrop]
  · obtain ⟨htake, hdrop⟩ := takeWhile_append_stop (fun d hd => (hrest.stops d hd).1) text
    rw [htake, hdrop]
    exact wordToken_append h hrest
  · exact dollarEnd_append h hrest
  · cases h; rfl
  · cases h; rfl

/-- **A text is read the same in front of a separator.** -/
theorem Lexes.append (h : Lexes r text ts) (hrest : Separates rest) (hus : Lexes r rest us) :
    Lexes r (text ++ rest) (ts ++ us) := by
  induction h with
  | nil => exact hus
  | space hspace _ ih => exact .space hspace ih
  | token hspace hnext _ ih => exact .token hspace (nextToken_append hnext hrest) ih

/-! ## Literals -/

/-- Words that are literals. -/
def constants : List Text := ["NULL", "TRUE", "FALSE", "NAN", "INF"].map String.toList

/-- Words that type the string behind them. -/
def stringTypes : List Text := ["X", "DATE", "TIME", "TIMESTAMP"].map String.toList

/-- Functions of a string that are written for a literal. -/
def stringFunctions : List Text := ["UNHEX"].map String.toList

def isOneOf (words : List Text) (word : Text) : Bool := words.contains (asciiUppercase word)

/-- The tokens of a literal, or of a cast or a collection of literals. -/
inductive IsLiteral (r : LiteralRules) : List Token → Prop
  | number (text : Text) : r.IsNumeral text → IsLiteral r [.number text]
  | constant (word : Text) : isOneOf constants word → IsLiteral r [.word word]
  | signed (sign : Char) (ts : List Token) : sign = '-' ∨ sign = '+' → ts.length = 1 →
      IsLiteral r ts → IsLiteral r (.symbol sign :: ts)
  | string : IsLiteral r [.string]
  | typed (word : Text) : isOneOf stringTypes word → IsLiteral r [.word word, .string]
  | call (word : Text) : isOneOf stringFunctions word →
      IsLiteral r [.word word, .symbol '(', .string, .symbol ')']
  | cast (ts : List Token) (word : Text) : IsLiteral r ts →
      IsLiteral r (ts ++ [.symbol ':', .symbol ':', .word word])
  | array (label : List Token) (items : List (List Token)) :
      (label = [] ∨ label = [.word "ARRAY".toList]) → (∀ item ∈ items, IsLiteral r item) →
      IsLiteral r (label ++ .symbol '[' :: [.symbol ','].intercalate items ++ [.symbol ']'])
  | struct (items : List (List Token)) : (∀ item ∈ items, IsLiteral r item) →
      IsLiteral r (.symbol '{' ::
        [.symbol ','].intercalate (items.map fun item => .string :: .symbol ':' :: item) ++
          [.symbol '}'])
  | further (ts : List Token) : r.Further ts → IsLiteral r ts

/-- **A literal has no top-level separator.** -/
theorem IsLiteral.enclosed (h : IsLiteral r ts) : Enclosed ts := by
  have hword : ∀ text depth, deepen depth (.word text) = some depth := fun _ _ => by
    simp [deepen, opens, closes]
  have hstring : ∀ depth, deepen depth .string = some depth := fun _ => by
    simp [deepen, opens, closes]
  have hcolon : ∀ depth, deepen depth (.symbol ':') = some depth := fun _ => by
    simp [deepen, opens, closes]
  induction h with
  | number text _ => exact .cons (fun _ => by simp [deepen, opens, closes]) .nil
  | constant word _ => exact .cons (hword word) .nil
  | signed sign ts hsign _ _ ih =>
    refine .cons (fun _ => ?_) ih
    obtain rfl | rfl := hsign <;> simp [deepen, opens, closes]
  | string => exact .cons hstring .nil
  | typed word _ => exact .cons (hword word) (.cons hstring .nil)
  | call word _ =>
    refine .cons (hword word) ?_
    have hone : ∀ item ∈ [[Token.string]], Enclosed item := by
      intro item hitem
      rw [mem_singleton.mp hitem]
      exact .cons hstring .nil
    exact .bracketed hone rfl rfl rfl
  | cast ts word _ ih => exact ih.append (.cons hcolon (.cons hcolon (.cons (hword word) .nil)))
  | array label items hlabel _ ih =>
    have hbody : Enclosed (.symbol '[' :: [.symbol ','].intercalate items ++ [.symbol ']']) :=
      .bracketed ih rfl rfl rfl
    obtain rfl | rfl := hlabel
    · exact hbody
    · exact .cons (hword _) hbody
  | struct items _ ih =>
    refine .bracketed ?_ rfl rfl rfl
    intro item hitem
    obtain ⟨value, hvalue, rfl⟩ := mem_map.mp hitem
    exact .cons hstring (.cons hcolon (ih value hvalue))
  | further ts h => exact r.enclosed_of_further ts h

end LiteralRules

end Dbflux.Lib
