import Dbflux.Lib.Json

/-!
# JSON texts

A reader and a writer of JSON texts: the grammar of values with white space
between tokens, the escapes of strings and the pairs of surrogates among them, a
later member of an object in the place of an earlier one with the same key. A
number keeps its text.

Results:
* `readsBack`: what is written is read back, whatever follows it.
* `JsonCodec.plain`: the two are a codec.
-/

namespace Dbflux.Lib

open List

namespace JsonText

/-! ## Strings -/

/-- A character inside a string. -/
def escapeChar (c : Char) : Text :=
  if c = '"' then ['\\', '"']
  else if c = '\\' then ['\\', '\\']
  else if c.toNat < 32 then 
    ['\\', 'u', '0', '0', (c.toNat / 16).digitChar, (c.toNat % 16).digitChar]
  else [c]

def printString (text : Text) : Text := '"' :: text.flatMap escapeChar ++ ['"']

/-- Four hexadecimal digits. -/
def hexCode (a b c d : Char) : Option ℕ := do
  return 4096 * (← hexValue a) + 256 * (← hexValue b) + 16 * (← hexValue c) + (← hexValue d)

/-- The character an escape of one letter stands for. -/
def simpleEscape (c : Char) : Option Char :=
  if c = '"' ∨ c = '\\' ∨ c = '/' then some c
  else if c = 'b' then some (Char.ofNat 8)
  else if c = 'f' then some (Char.ofNat 12)
  else if c = 'n' then some '\n'
  else if c = 'r' then some '\r'
  else if c = 't' then some '\t'
  else none

/-- A character of a string, or a code unit written `\uXXXX`. -/
inductive Piece
  | char (c : Char)
  | unit (code : ℕ)

/-- The pieces of a string up to its closing quote, and what follows. -/
def parsePieces : Text → Option (List Piece × Text)
  | '"' :: rest => some ([], rest)
  | '\\' :: 'u' :: a :: b :: c :: d :: rest => do
    let code ← hexCode a b c d
    let (pieces, rest) ← parsePieces rest
    return (.unit code :: pieces, rest)
  | '\\' :: c :: rest => do
    let character ← simpleEscape c
    let (pieces, rest) ← parsePieces rest
    return (.char character :: pieces, rest)
  | c :: rest =>
    if c.toNat < 32 then none
    else (parsePieces rest).map fun (pieces, rest) => (.char c :: pieces, rest)
  | [] => none

/-- The text of some pieces: a high and a low surrogate are one character, and
neither stands alone. -/
def joinPieces : List Piece → Option Text
  | [] => some []
  | .char c :: rest => (joinPieces rest).map (c :: ·)
  | .unit high :: .unit low :: rest =>
    if 0xD800 ≤ high ∧ high < 0xDC00 then
      if 0xDC00 ≤ low ∧ low < 0xE000 then
        (joinPieces rest).map (Char.ofNat (0x10000 + (high - 0xD800) * 1024 + (low - 0xDC00)) :: ·)
      else none
    else if 0xDC00 ≤ high ∧ high < 0xE000 then none
    else (joinPieces (.unit low :: rest)).map (Char.ofNat high :: ·)
  | .unit code :: rest =>
    if 0xD800 ≤ code ∧ code < 0xE000 then none
    else (joinPieces rest).map (Char.ofNat code :: ·)

def parseString (text : Text) : Option (Text × Text) := do
  let (pieces, rest) ← parsePieces text
  return (← joinPieces pieces, rest)

/-- How a character is written. -/
def pieceOf (c : Char) : Piece :=
  if c ≠ '"' ∧ c ≠ '\\' ∧ c.toNat < 32 then .unit c.toNat else .char c

theorem hexCode_control (n : ℕ) (h : n < 32) :
    hexCode '0' '0' (n / 16).digitChar (n % 16).digitChar = some n := by
  revert n
  decide

theorem parsePieces_escapeChar (c : Char) (tail : Text) : parsePieces (escapeChar c ++ tail) =
      (parsePieces tail).map fun (pieces, rest) => (pieceOf c :: pieces, rest) := by
  unfold escapeChar
  split_ifs with hquote hbackslash hcontrol
  · subst hquote
    cases h : parsePieces tail <;> simp [parsePieces, simpleEscape, pieceOf, h]
  · subst hbackslash
    cases h : parsePieces tail <;> simp [parsePieces, simpleEscape, pieceOf, h]
  · cases h : parsePieces tail <;>
      simp [parsePieces, pieceOf, h, hexCode_control c.toNat hcontrol, hquote, hbackslash, hcontrol]
  · rw [singleton_append, parsePieces]
    · simp [hcontrol, pieceOf]
    · exact hquote
    · intro _ _ _ _ _ heq
      exact absurd heq hbackslash
    · intro _ _ heq
      exact absurd heq hbackslash

theorem parsePieces_flatMap (text tail : Text) :
    parsePieces (text.flatMap escapeChar ++ '"' :: tail) = some (text.map pieceOf, tail) := by
  induction text with
  | nil => simp [parsePieces]
  | cons c rest ih =>
    rw [flatMap_cons, append_assoc, parsePieces_escapeChar, ih]
    rfl

theorem joinPieces_map (text : Text) : joinPieces (text.map pieceOf) = some text := by
  induction text with
  | nil => rfl
  | cons c rest ih =>
    rw [map_cons]
    by_cases hunit : c ≠ '"' ∧ c ≠ '\\' ∧ c.toNat < 32
    · have hpiece : pieceOf c = .unit c.toNat := if_pos hunit
      have hcode : ¬ (0xD800 ≤ c.toNat ∧ c.toNat < 0xE000) := by omega
      rw [hpiece]
      revert ih
      match rest.map pieceOf with
      | [] | .char d :: more =>
        intro ih
        rw [joinPieces, if_neg hcode, ih]
        · simp [Char.ofNat_toNat]
        · simp
      | .unit low :: more =>
        intro ih
        rw [joinPieces, if_neg (by omega), if_neg (by omega), ih]
        simp [Char.ofNat_toNat]
    · have hpiece : pieceOf c = .char c := if_neg hunit
      rw [hpiece, joinPieces, ih]
      rfl

/-- A written string is read back. -/
theorem parseString_printString (text tail : Text) :
    parseString (text.flatMap escapeChar ++ '"' :: tail) = some (text, tail) := by
  rw [parseString, parsePieces_flatMap]
  simp [joinPieces_map]

/-! ## Values -/

def isSpace (c : Char) : Bool := c == ' ' || c == '\t' || c == '\n' || c == '\r'

def skipSpace (text : Text) : Text := text.dropWhile isSpace

def isNumberChar (c : Char) : Bool :=
  isAsciiDigit c || c == '-' || c == '+' || c == '.' || c == 'e' || c == 'E'

/-- Digits, at least one. -/
def someDigits (text : Text) : Bool := text != [] && text.all isAsciiDigit

/-- A mantissa's integer part: without a leading zero. -/
def isInteger (text : Text) : Bool :=
  someDigits text && (text.head? != some '0' || text.length == 1)

/-- A JSON number. -/
def isNumber (text : Text) : Bool :=
  let unsigned := if text.head? = some '-' then text.tail else text
  let mantissa := unsigned.takeWhile fun c => !(c == 'e' || c == 'E')
  let exponent := (unsigned.drop mantissa.length).tail
  let whole := mantissa.takeWhile (· != '.')
  let fraction := (mantissa.drop whole.length).tail
  let digits := if exponent.head? = some '-' ∨ exponent.head? = some '+' then exponent.tail
    else exponent
  isInteger whole && (whole.length == mantissa.length || someDigits fraction) &&
    (mantissa.length == unsigned.length || someDigits digits) && text.all isNumberChar

/-- Put a member into a map: in the place of the member with its key, or last. -/
def insertMember (members : List (Text × Json)) (member : Text × Json) : List (Text × Json) :=
  if member.1 ∈ members.map Prod.fst then
    members.map fun old => if old.1 = member.1 then member else old
  else members ++ [member]

mutual

def printJson : Json → Text
  | .null => ['n', 'u', 'l', 'l']
  | .bool true => ['t', 'r', 'u', 'e']
  | .bool false => ['f', 'a', 'l', 's', 'e']
  | .number text => text
  | .string text => printString text
  | .array [] => ['[', ']']
  | .array (item :: rest) => '[' :: printJson item ++ printItems rest ++ [']']
  | .object [] => ['{', '}']
  | .object ((key, value) :: rest) =>
    '{' :: printString key ++ ':' :: printJson value ++ printMembers rest ++ ['}']

/-- The items behind the first. -/
def printItems : List Json → Text
  | [] => []
  | item :: rest => ',' :: printJson item ++ printItems rest

/-- The members behind the first. -/
def printMembers : List (Text × Json) → Text
  | [] => []
  | (key, value) :: rest =>
    ',' :: printString key ++ ':' :: printJson value ++ printMembers rest

end

mutual

/-- A value at the start of a text and what follows it, with a bound on the depth
of the recursion. -/
def parseValue : ℕ → Text → Option (Json × Text)
  | 0, _ => none
  | fuel + 1, text =>
    match skipSpace text with
    | 'n' :: 'u' :: 'l' :: 'l' :: rest => some (.null, rest)
    | 't' :: 'r' :: 'u' :: 'e' :: rest => some (.bool true, rest)
    | 'f' :: 'a' :: 'l' :: 's' :: 'e' :: rest => some (.bool false, rest)
    | '"' :: rest => (parseString rest).map fun (text, rest) => (.string text, rest)
    | '[' :: rest =>
      match skipSpace rest with
      | ']' :: rest => some (.array [], rest)
      | _ => (parseItems fuel rest).map fun (items, rest) => (.array items, rest)
    | '{' :: rest =>
      match skipSpace rest with
      | '}' :: rest => some (.object [], rest)
      | _ => (parseMembers fuel rest).map fun (members, rest) =>
        (.object (members.foldl insertMember []), rest)
    | text =>
      let number := text.takeWhile isNumberChar
      if isNumber number then some (.number number, text.drop number.length) else none

/-- The items of an array up to its closing bracket. -/
def parseItems : ℕ → Text → Option (List Json × Text)
  | 0, _ => none
  | fuel + 1, text => do
    let (item, rest) ← parseValue fuel text
    match skipSpace rest with
    | ']' :: rest => return ([item], rest)
    | ',' :: rest =>
      let (items, rest) ← parseItems fuel rest
      return (item :: items, rest)
    | _ => none

/-- The members of an object up to its closing brace. -/
def parseMembers : ℕ → Text → Option (List (Text × Json) × Text)
  | 0, _ => none
  | fuel + 1, text =>
    match skipSpace text with
    | '"' :: rest => do
      let (key, rest) ← parseString rest
      match skipSpace rest with
      | ':' :: rest =>
        let (value, rest) ← parseValue fuel rest
        match skipSpace rest with
        | '}' :: rest => return ([(key, value)], rest)
        | ',' :: rest =>
          let (members, rest) ← parseMembers fuel rest
          return ((key, value) :: members, rest)
        | _ => none
      | _ => none
    | _ => none

end

/-- A whole text. -/
def parseJson (text : Text) : Option Json :=
  match parseValue (text.length + 1) text with
  | some (value, rest) => if skipSpace rest = [] then some value else none
  | none => none

/-! ## What is written is read back -/

abbrev WellFormed (value : Json) : Prop := value.WellFormed fun text => isNumber text = true

/-- What stands behind a value does not continue a number. -/
def Ends (tail : Text) : Prop := ∀ c rest, tail = c :: rest → isNumberChar c = false

theorem skipSpace_of_head {c : Char} (rest : Text) (h : isSpace c = false) :
    skipSpace (c :: rest) = c :: rest := by
  rw [skipSpace, dropWhile_cons_of_neg (by simp [h])]

variable {text : Text}

theorem isNumber_start (h : isNumber text = true) :
    ∃ c rest, text = c :: rest ∧ (isAsciiDigit c = true ∨ c = '-') := by
  match text with
  | [] => exact absurd h (by decide)
  | c :: rest =>
    refine ⟨c, rest, rfl, ?_⟩
    by_cases hminus : c = '-'
    · exact .inr hminus
    · left
      simp only [isNumber, head?_cons, Option.some.injEq, if_neg hminus, Bool.and_eq_true] at h
      have hwhole := h.1.1.1
      simp only [isInteger, someDigits, Bool.and_eq_true] at hwhole
      by_cases he : c = 'e' ∨ c = 'E'
      · have hstop : .takeWhile (fun c => !(c == 'e' || c == 'E')) (c :: rest) = [] := by
          simpa [or_iff_not_imp_left] using he
        rw [hstop] at hwhole
        simp at hwhole
      · rw [takeWhile_cons_of_pos (by simpa using he)] at hwhole
        by_cases hdot : c = '.'
        · subst hdot
          simp at hwhole
        · rw [takeWhile_cons_of_pos (by simpa using hdot)] at hwhole
          exact (all_eq_true.1 hwhole.1.2) c (mem_cons_self ..)

/-- A written value starts with a character of its own. -/
theorem printJson_start {value : Json} (h : WellFormed value) :
    ∃ c rest, printJson value = c :: rest ∧ isSpace c = false ∧ c ≠ ']' ∧ c ≠ '}' := by
  match value with
  | .null | .bool true | .bool false | .string _ | .array [] | .array (_ :: _) | .object []
  | .object ((_, _) :: _) => exact ⟨_, _, rfl, by decide, by decide, by decide⟩
  | .number text =>
    obtain ⟨c, rest, rfl, hc⟩ := isNumber_start h
    refine ⟨c, rest, rfl, ?_⟩
    obtain hdigit | rfl := hc
    · refine ⟨?_, ?_, ?_⟩
      · simp only [isSpace, Bool.or_eq_false_iff, beq_eq_false_iff_ne]
        refine ⟨⟨⟨?_, ?_⟩, ?_⟩, ?_⟩ <;> rintro rfl <;> revert hdigit <;> decide
      all_goals rintro rfl; revert hdigit; decide
    · decide

theorem takeWhile_number {tail : Text} (h : isNumber text = true) (htail : Ends tail) :
    (text ++ tail).takeWhile isNumberChar = text := by
  simp only [isNumber, Bool.and_eq_true] at h
  rw [takeWhile_append_of_pos (all_eq_true.1 h.2)]
  match tail with
  | [] => simp
  | c :: rest => simp [htail c rest rfl]

variable {members : List (Text × Json)}

theorem foldl_insertMember (done : List (Text × Json))
    (h : ((done ++ members).map Prod.fst).Nodup) :
    members.foldl insertMember done = done ++ members := by
  induction members generalizing done with
  | nil => simp
  | cons member rest ih =>
    have hnew : member.1 ∉ done.map Prod.fst := by
      simp only [map_append, map_cons, nodup_append] at h
      intro hmem
      exact h.2.2 _ hmem _ (mem_cons_self ..) rfl
    rw [foldl_cons, insertMember, if_neg hnew, ih]
    · simp
    · simpa using h

theorem ends_printItems (rest : List Json) (tail : Text) : Ends (printItems rest ++ ']' :: tail) := by
  intro c more heq
  match rest with
  | [] | _ :: _ =>
    cases heq
    decide

theorem ends_printMembers (rest : List (Text × Json)) (tail : Text) :
    Ends (printMembers rest ++ '}' :: tail) := by
  intro c more heq
  match rest with
  | [] | (_, _) :: _ =>
    cases heq
    decide

/-- Within a depth of recursion, what is written is read back. -/
structure ReadsBack (fuel : ℕ) : Prop where
  value : ∀ (value : Json) (tail : Text), WellFormed value → (printJson value).length ≤ fuel →
    Ends tail → parseValue fuel (printJson value ++ tail) = some (value, tail)
  items : ∀ (item : Json) (rest : List Json) (tail : Text), WellFormed item →
    Json.WellFormedItems (fun text => isNumber text = true) rest →
    (printJson item).length + (printItems rest).length + 1 ≤ fuel →
    parseItems fuel (printJson item ++ printItems rest ++ ']' :: tail) = some (item :: rest, tail)
  members : ∀ (key : Text) (value : Json) (rest : List (Text × Json)) (tail : Text),
    WellFormed value → Json.WellFormedMembers (fun text => isNumber text = true) rest →
    (printJson value).length + (printMembers rest).length + 1 ≤ fuel →
    parseMembers fuel
        (printString key ++ ':' :: printJson value ++ printMembers rest ++ '}' :: tail) =
      some ((key, value) :: rest, tail)

variable {fuel : ℕ}

theorem ReadsBack.parseValue_succ (ih : ReadsBack fuel) (value : Json) (tail : Text)
    (hvalue : WellFormed value) (hfuel : (printJson value).length ≤ fuel + 1) (htail : Ends tail) :
    parseValue (fuel + 1) (printJson value ++ tail) = some (value, tail) := by
  obtain ⟨c, more, hstart, hspace, -, -⟩ := printJson_start hvalue
  have hskip : skipSpace (printJson value ++ tail) = printJson value ++ tail := by
    rw [hstart, cons_append, skipSpace_of_head _ hspace]
  rw [parseValue, hskip]
  match value with
  | .null | .bool true | .bool false | .array [] | .object [] => rfl
  | .string text => simp [printJson, printString, parseString_printString]
  | .number text =>
    have hnumber : isNumber text = true := hvalue
    have hread := takeWhile_number hnumber htail
    obtain ⟨d, rest, rfl, hd⟩ := isNumber_start hnumber
    rw [printJson, cons_append]
    split
    -- a number starts with a digit or a sign
    case h_7 =>
      rw [cons_append] at hread
      simp only [hread, hnumber, if_true]
      simp
    all_goals
      rename_i heq
      rw [(List.cons.inj heq).1] at hd
      exact absurd hd (by decide)
  | .array (item :: rest) =>
    obtain ⟨d, text, hd, hdspace, hdclose, -⟩ := printJson_start hvalue.1
    have hitems := ih.items item rest tail hvalue.1 hvalue.2 (by
      simp only [printJson, length_append, length_cons, length_nil] at hfuel
      omega)
    simp only [printJson, cons_append, append_assoc, nil_append] at hitems ⊢
    rw [hd, cons_append, skipSpace_of_head _ hdspace, ← cons_append, ← hd, hitems]
    split
    · rename_i heq
      rw [hd] at heq
      cases heq
      exact absurd rfl hdclose
    · rfl
  | .object ((key, value) :: rest) =>
    have hmembers := ih.members key value rest tail hvalue.2.1 hvalue.2.2 (by
      simp only [printJson, length_append, length_cons, length_nil] at hfuel
      omega)
    simp only [printJson, printString, cons_append, append_assoc, nil_append] at hmembers ⊢
    have hmap : ((key, value) :: rest).foldl insertMember [] = (key, value) :: rest :=
      foldl_insertMember [] hvalue.1
    rw [skipSpace_of_head _ (by decide), hmembers]
    exact congrArg (fun members => some (Json.object members, tail)) hmap

theorem ReadsBack.parseItems_succ (ih : ReadsBack fuel) (item : Json) (rest : List Json)
    (tail : Text) (hitem : WellFormed item)
    (hrest : Json.WellFormedItems (fun text => isNumber text = true) rest)
    (hfuel : (printJson item).length + (printItems rest).length + 1 ≤ fuel + 1) :
    parseItems (fuel + 1) (printJson item ++ printItems rest ++ ']' :: tail) =
      some (item :: rest, tail) := by
  have hread := ih.value item (printItems rest ++ ']' :: tail) hitem (by omega)
    (ends_printItems rest tail)
  rw [append_assoc, parseItems, hread]
  match rest with
  | [] => rfl
  | next :: others =>
    have hitems := ih.items next others tail hrest.1 hrest.2 (by
      obtain ⟨c, more, hstart, -⟩ := printJson_start hitem
      simp only [printItems, hstart, length_append, length_cons] at hfuel
      omega)
    simp only [printItems, cons_append, Option.bind_eq_bind, Option.bind_some]
    rw [skipSpace_of_head _ (by decide)]
    simp only [hitems]
    rfl

theorem ReadsBack.parseMembers_succ (ih : ReadsBack fuel) (key : Text) (value : Json)
    (rest : List (Text × Json)) (tail : Text) (hvalue : WellFormed value)
    (hrest : Json.WellFormedMembers (fun text => isNumber text = true) rest)
    (hfuel : (printJson value).length + (printMembers rest).length + 1 ≤ fuel + 1) :
    parseMembers (fuel + 1)
        (printString key ++ ':' :: printJson value ++ printMembers rest ++ '}' :: tail) =
      some ((key, value) :: rest, tail) := by
  have hread := ih.value value (printMembers rest ++ '}' :: tail) hvalue (by omega)
    (ends_printMembers rest tail)
  rw [parseMembers]
  simp only [printString, cons_append, append_assoc, nil_append]
  rw [skipSpace_of_head _ (by decide)]
  simp only [parseString_printString, Option.bind_eq_bind, Option.bind_some]
  rw [skipSpace_of_head _ (by decide)]
  simp only [hread, Option.bind_some]
  match rest with
  | [] => rfl
  | (nextKey, nextValue) :: others =>
    have hmembers := ih.members nextKey nextValue others tail hrest.1 hrest.2 (by
      simp only [printMembers, length_append, length_cons] at hfuel
      omega)
    simp only [printMembers, cons_append, append_assoc] at hmembers ⊢
    rw [skipSpace_of_head _ (by decide)]
    simp only [hmembers]
    rfl

/-- **Round trip.** What is written is read back, whatever follows it. -/
theorem readsBack (fuel : ℕ) : ReadsBack fuel := by
  induction fuel with
  | zero =>
    refine ⟨?_, ?_, ?_⟩
    · intro value tail hvalue hfuel
      obtain ⟨c, more, hstart, -⟩ := printJson_start hvalue
      simp [hstart] at hfuel
    · intro item rest tail _ _ hfuel
      omega
    · intro key value rest tail _ _ hfuel
      omega
  | succ fuel ih => exact ⟨ih.parseValue_succ, ih.parseItems_succ, ih.parseMembers_succ⟩

theorem parseJson_print (value : Json) (h : WellFormed value) :
    parseJson (printJson value) = some value := by
  have hread := (readsBack ((printJson value).length + 1)).value value [] h (by omega)
    (by intro _ _ heq; cases heq)
  rw [append_nil] at hread
  rw [parseJson, hread]
  rfl

/-! ## What is read is well formed -/

theorem wellFormedMembers_iff (members : List (Text × Json)) :
    Json.WellFormedMembers (fun text => isNumber text = true) members ↔
      ∀ member ∈ members, WellFormed member.2 := by
  induction members with
  | nil => simp [Json.WellFormedMembers]
  | cons member rest ih =>
    rw [Json.WellFormedMembers, ih, forall_mem_cons]

theorem wellFormed_insertMember {member : Text × Json} (hmember : WellFormed member.2)
    (h : (members.map Prod.fst).Nodup ∧ ∀ old ∈ members, WellFormed old.2) :
    ((insertMember members member).map Prod.fst).Nodup ∧
      ∀ old ∈ insertMember members member, WellFormed old.2 := by
  unfold insertMember
  split_ifs with hmem
  · have hkeys : (members.map fun old => if old.1 = member.1 then member else old).map Prod.fst =
        members.map Prod.fst := by
      rw [map_map]
      apply map_congr_left
      intro old _
      by_cases hkey : old.1 = member.1 <;> simp [hkey]
    refine ⟨hkeys ▸ h.1, ?_⟩
    intro old hold
    obtain ⟨before, hbefore, rfl⟩ := mem_map.1 hold
    by_cases hkey : before.1 = member.1
    · rwa [if_pos hkey]
    · rw [if_neg hkey]
      exact h.2 before hbefore
  · constructor
    · rw [map_append, nodup_append]
      refine ⟨h.1, nodup_singleton _, ?_⟩
      intro key hkey other hother
      simp only [map_cons, map_nil, mem_singleton] at hother
      rintro rfl
      exact hmem (hother ▸ hkey)
    · intro old hold
      obtain hold | hold := mem_append.1 hold
      · exact h.2 old hold
      · rw [mem_singleton.1 hold]
        exact hmember

theorem wellFormed_parse (fuel : ℕ) :
    (∀ text value rest, parseValue fuel text = some (value, rest) → WellFormed value) ∧
    (∀ text items rest, parseItems fuel text = some (items, rest) →
      Json.WellFormedItems (fun text => isNumber text = true) items) ∧
    (∀ text members rest, parseMembers fuel text = some (members, rest) →
      ∀ member ∈ members, WellFormed member.2) := by
  induction fuel with
  | zero => refine ⟨?_, ?_, ?_⟩ <;> intro _ _ _ h <;> simp [parseValue, parseItems, parseMembers] at h
  | succ fuel ih =>
    obtain ⟨ihValue, ihItems, ihMembers⟩ := ih
    refine ⟨?_, ?_, ?_⟩
    · intro text value rest h
      rw [parseValue] at h
      split at h
      · cases h; trivial
      · cases h; trivial
      · cases h; trivial
      · obtain ⟨_, _, heq⟩ := Option.map_eq_some_iff.1 h
        cases heq
        trivial
      · split at h
        · cases h; trivial
        · obtain ⟨⟨items, _⟩, hitems, heq⟩ := Option.map_eq_some_iff.1 h
          cases heq
          exact ihItems _ _ _ hitems
      · split at h
        · cases h
          exact ⟨nodup_nil, trivial⟩
        · obtain ⟨⟨members, _⟩, hmembers, heq⟩ := Option.map_eq_some_iff.1 h
          cases heq
          have hfold := foldlRecOn members insertMember
            (motive := fun done => (done.map Prod.fst).Nodup ∧ ∀ old ∈ done, WellFormed old.2)
            (b := []) (by simp) fun done hdone member hmember =>
              wellFormed_insertMember (ihMembers _ _ _ hmembers member hmember) hdone
          exact ⟨hfold.1, (wellFormedMembers_iff _).2 hfold.2⟩
      · dsimp only at h
        split_ifs at h with hnumber
        cases h
        exact hnumber
    · intro text items rest h
      obtain ⟨⟨item, more⟩, hitem, h⟩ := Option.bind_eq_some_iff.1 h
      dsimp only at h
      split at h
      · cases h
        exact ⟨ihValue _ _ _ hitem, trivial⟩
      · obtain ⟨⟨others, _⟩, hothers, heq⟩ := Option.bind_eq_some_iff.1 h
        cases heq
        exact ⟨ihValue _ _ _ hitem, ihItems _ _ _ hothers⟩
      · cases h
    · intro text members rest h
      rw [parseMembers] at h
      split at h
      · obtain ⟨⟨key, more⟩, -, h⟩ := Option.bind_eq_some_iff.1 h
        dsimp only at h
        split at h
        · obtain ⟨⟨value, more⟩, hvalue, h⟩ := Option.bind_eq_some_iff.1 h
          split at h
          · cases h
            simpa using ihValue _ _ _ hvalue
          · obtain ⟨⟨others, _⟩, hothers, heq⟩ := Option.bind_eq_some_iff.1 h
            cases heq
            rw [forall_mem_cons]
            exact ⟨ihValue _ _ _ hvalue, ihMembers _ _ _ hothers⟩
          · cases h
        · cases h
      · cases h

theorem wellFormed_parseJson (text : Text) (value : Json) (h : parseJson text = some value) :
    WellFormed value := by
  unfold parseJson at h
  split at h
  · rename_i read rest hread
    split_ifs at h
    cases h
    exact (wellFormed_parse _).1 _ _ _ hread
  · cases h

end JsonText

/-- The codec of this module. -/
def JsonCodec.plain : JsonCodec where
  IsNumber text := JsonText.isNumber text = true
  parse := JsonText.parseJson
  print := JsonText.printJson
  wellFormed_of_parse := JsonText.wellFormed_parseJson
  print_inj := fun v w hv hw h => by
    have hread := JsonText.parseJson_print v hv
    rw [h, JsonText.parseJson_print w hw] at hread
    exact (Option.some.inj hread).symm
  parse_nil := rfl

theorem JsonCodec.plain_parse_print (value : Json) (h : value.WellFormed plain.IsNumber) :
    plain.parse (plain.print value) = some value := JsonText.parseJson_print value h

end Dbflux.Lib
