import Mathlib

/-!
# Characters and texts

Texts are lists of characters. `isWhitespace` is `char::is_whitespace` of the
Rust standard library (the Unicode property `White_Space`), and the trimming
functions are those of `str`. The larger Unicode tables (`char::is_alphabetic`,
`char::is_numeric`, `char::to_uppercase`) are a parameter of which only the
ASCII part is fixed.
-/

namespace Dbflux.Lib

abbrev Text := List Char

instance : LawfulBEq Text := inferInstance

/-- The code points with the Unicode property `White_Space`. -/
def isWhitespace (c : Char) : Bool :=
  let n := c.toNat
  (9 ≤ n && n ≤ 13) || n == 0x20 || n == 0x85 || n == 0xA0 || n == 0x1680 ||
    (0x2000 ≤ n && n ≤ 0x200A) || n == 0x2028 || n == 0x2029 || n == 0x202F || n == 0x205F ||
    n == 0x3000

/-- `str::trim_start`. -/
def trimStart (t : Text) : Text := t.dropWhile isWhitespace

/-- `str::trim_end`. -/
def trimEnd (t : Text) : Text := t.rdropWhile isWhitespace

/-- `str::trim`. -/
def trim (t : Text) : Text := trimEnd (trimStart t)

/-- The text behind the first occurrence of `pattern`, if there is one
(`str::find` and the slice after it). -/
def afterFirst (pattern : Text) : Text → Option Text
  | [] => if pattern = [] then some [] else none
  | c :: rest =>
    if pattern.isPrefixOf (c :: rest) then some ((c :: rest).drop pattern.length)
    else afterFirst pattern rest

/-- A text split at the first `c`. -/
theorem split_at_first {c d : Char} {text rest : Text}
    (h : text.drop (text.takeWhile (· ≠ c)).length = d :: rest) :
    d = c ∧ text = text.takeWhile (· ≠ c) ++ c :: rest := by
  induction text with
  | nil => cases h
  | cons a tail ih =>
    by_cases ha : a = c
    · subst ha
      simp_all
    · simp only [ha, ne_eq, not_false_eq_true, decide_true, List.takeWhile_cons_of_pos,
        List.length_cons, List.drop_succ_cons] at h ⊢
      obtain ⟨hd, htail⟩ := ih h
      exact ⟨hd, congrArg (a :: ·) htail⟩

theorem isSome_afterFirst_iff (pattern text : Text) :
    (afterFirst pattern text).isSome ↔ pattern <:+: text := by
  induction text with
  | nil => by_cases h : pattern = [] <;> simp [afterFirst, h]
  | cons c rest ih =>
    rw [afterFirst, List.infix_cons_iff, ← ih, ← List.isPrefixOf_iff_prefix]
    split <;> simp_all

theorem mem_of_lookup {V : Type*} {fields : List (Text × V)} {name : Text} {value : V}
    (h : fields.lookup name = some value) : (name, value) ∈ fields := by
  obtain ⟨before, after, rfl, -⟩ := List.lookup_eq_some_iff.mp h
  simp

theorem not_mem_of_mem_splitOn {c : Char} {text part : Text} (h : part ∈ text.splitOn c) :
    c ∉ part := by
  induction text generalizing part with
  | nil =>
    rw [List.splitOn_nil, List.mem_singleton] at h
    exact h ▸ List.not_mem_nil
  | cons d rest ih =>
    rw [List.splitOn_cons_eq_if_modifyHead] at h
    obtain ⟨first, others, hparts⟩ := List.exists_cons_of_ne_nil (List.splitOn_ne_nil c rest)
    rw [hparts] at h ih
    split_ifs at h with hd
    · obtain rfl | hmem := List.mem_cons.mp h
      · exact List.not_mem_nil
      · exact ih hmem
    · obtain rfl | hmem := List.mem_cons.mp h
      · rw [List.mem_cons, not_or]
        exact ⟨fun heq => hd (heq ▸ beq_self_eq_true _), ih List.mem_cons_self⟩
      · exact ih (List.mem_cons_of_mem _ hmem)

/-- Where the test fails behind a text, what it passes is within the text. -/
theorem takeWhile_append_stop {test : Char → Bool} {rest : Text}
    (hstop : ∀ c, rest.head? = some c → test c = false) (text : Text) :
    (text ++ rest).takeWhile test = text.takeWhile test ∧
      (text ++ rest).dropWhile test = text.dropWhile test ++ rest := by
  induction text with
  | nil =>
    cases rest with
    | nil => exact ⟨rfl, rfl⟩
    | cons c rest => simp [hstop c rfl]
  | cons c text ih => by_cases hc : test c <;> simp [hc, ih.1, ih.2]

theorem takeWhile_append_of_stop {test : Char → Bool} {run rest : Text} (hrun : ∀ c ∈ run, test c)
    (hstop : ∀ c, rest.head? = some c → test c = false) :
    (run ++ rest).takeWhile test = run ∧ (run ++ rest).dropWhile test = rest := by
  rw [(takeWhile_append_stop hstop run).1, (takeWhile_append_stop hstop run).2,
    List.takeWhile_eq_self_iff.mpr hrun, List.dropWhile_eq_nil_iff.mpr hrun]
  exact ⟨rfl, rfl⟩

/-- The text around the first occurrence. -/
theorem append_of_afterFirst {pattern text rest : Text} (h : afterFirst pattern text = some rest) :
    ∃ before, before ++ pattern ++ rest = text := by
  induction text with
  | nil =>
    unfold afterFirst at h
    split_ifs at h with hempty
    cases h
    exact ⟨[], by rw [hempty]; rfl⟩
  | cons c tail ih =>
    unfold afterFirst at h
    split_ifs at h with hstarts
    · cases h
      exact ⟨[], List.prefix_iff_eq_append.mp (List.isPrefixOf_iff_prefix.mp hstarts)⟩
    · obtain ⟨before, hbefore⟩ := ih h
      exact ⟨c :: before, congrArg (c :: ·) hbefore⟩

/-- The first occurrence stays the first one in a longer text. -/
theorem afterFirst_append {pattern text behind : Text} (h : afterFirst pattern text = some behind)
    (rest : Text) : afterFirst pattern (text ++ rest) = some (behind ++ rest) := by
  induction text with
  | nil =>
    unfold afterFirst at h
    split_ifs at h with hempty
    cases h
    subst hempty
    cases rest <;> rfl
  | cons c tail ih =>
    unfold afterFirst at h
    split_ifs at h with hstarts
    · cases h
      have hleads := List.isPrefixOf_iff_prefix.mp hstarts
      have hlonger := List.isPrefixOf_iff_prefix.mpr (hleads.trans (List.prefix_append _ rest))
      rw [← List.drop_append_of_le_length hleads.length_le]
      exact if_pos hlonger
    · -- the occurrence in the tail is no longer than it, so none starts here
      obtain ⟨before, hbefore⟩ := append_of_afterFirst h
      have hlength := congrArg List.length hbefore
      simp only [List.length_append] at hlength
      refine (if_neg fun hstarts' => hstarts ?_).trans (ih h)
      refine List.isPrefixOf_iff_prefix.mpr (List.prefix_of_prefix_length_le
        (List.isPrefixOf_iff_prefix.mp hstarts') (List.prefix_append (c :: tail) rest) ?_)
      rw [List.length_cons]
      omega

/-- `str::to_ascii_uppercase`. -/
def asciiUppercase (text : Text) : Text := text.map Char.toUpper

/-- `str::eq_ignore_ascii_case` with a keyword of the source. -/
def isKeyword (word : Text) (expected : String) : Bool :=
  asciiUppercase word == asciiUppercase expected.toList

/-- `char::is_ascii_alphabetic`. -/
def isAsciiAlphabetic (c : Char) : Bool :=
  ('a' ≤ c && c ≤ 'z') || ('A' ≤ c && c ≤ 'Z')

/-- `char::is_ascii_digit`. -/
def isAsciiDigit (c : Char) : Bool := '0' ≤ c && c ≤ '9'

/-- `char::to_digit(16)`. -/
def hexValue (c : Char) : Option ℕ :=
  if isAsciiDigit c then some (c.toNat - 48)
  else if 'a' ≤ c ∧ c ≤ 'f' then some (c.toNat - 87)
  else if 'A' ≤ c ∧ c ≤ 'F' then some (c.toNat - 55)
  else none

/-- `char::is_ascii_hexdigit`. -/
def isAsciiHexdigit (c : Char) : Bool :=
  isAsciiDigit c || ('a' ≤ c && c ≤ 'f') || ('A' ≤ c && c ≤ 'F')

theorem char_le_iff (c d : Char) : c ≤ d ↔ c.toNat ≤ d.toNat := UInt32.le_iff_toNat_le

theorem isAsciiAlphabetic_iff (c : Char) : isAsciiAlphabetic c ↔
    (97 ≤ c.toNat ∧ c.toNat ≤ 122) ∨ (65 ≤ c.toNat ∧ c.toNat ≤ 90) := by
  simp only [isAsciiAlphabetic, Bool.or_eq_true, Bool.and_eq_true, decide_eq_true_eq, char_le_iff]
  rfl

theorem isAsciiDigit_iff (c : Char) : isAsciiDigit c ↔ 48 ≤ c.toNat ∧ c.toNat ≤ 57 := by
  simp only [isAsciiDigit, Bool.and_eq_true, decide_eq_true_eq, char_le_iff]
  rfl

theorem isWhitespace_iff (c : Char) : isWhitespace c ↔
    (9 ≤ c.toNat ∧ c.toNat ≤ 13) ∨ c.toNat = 0x20 ∨ c.toNat = 0x85 ∨ c.toNat = 0xA0 ∨
      c.toNat = 0x1680 ∨ (0x2000 ≤ c.toNat ∧ c.toNat ≤ 0x200A) ∨ c.toNat = 0x2028 ∨
      c.toNat = 0x2029 ∨ c.toNat = 0x202F ∨ c.toNat = 0x205F ∨ c.toNat = 0x3000 := by
  simp [isWhitespace, or_assoc]

/-- The Unicode tables behind `char::is_alphabetic`, `char::is_numeric` and
`char::to_uppercase`. Nothing is assumed of them outside ASCII but that
white space is neither a letter nor a number. -/
structure UnicodeTable where
  isAlphabetic : Char → Bool
  isNumeric : Char → Bool
  toUppercase : Char → Text
  isAlphabetic_ascii : ∀ c, c.toNat < 128 → isAlphabetic c = isAsciiAlphabetic c
  isNumeric_ascii : ∀ c, c.toNat < 128 → isNumeric c = isAsciiDigit c
  toUppercase_ascii : ∀ c, c.toNat < 128 → toUppercase c = [c.toUpper]
  isAlphabetic_whitespace : ∀ c, isWhitespace c → isAlphabetic c = false
  isNumeric_whitespace : ∀ c, isWhitespace c → isNumeric c = false

/-- `char::is_alphanumeric`. -/
def UnicodeTable.isAlphanumeric (table : UnicodeTable) (c : Char) : Bool :=
  table.isAlphabetic c || table.isNumeric c

/-- The table that knows ASCII only. -/
def UnicodeTable.ascii : UnicodeTable where
  isAlphabetic := isAsciiAlphabetic
  isNumeric := isAsciiDigit
  toUppercase := fun c => [c.toUpper]
  isAlphabetic_ascii := fun _ _ => rfl
  isNumeric_ascii := fun _ _ => rfl
  toUppercase_ascii := fun _ _ => rfl
  isAlphabetic_whitespace := by
    intro c hspace
    rw [← Bool.not_eq_true, isAsciiAlphabetic_iff]
    have := (isWhitespace_iff c).mp hspace
    omega
  isNumeric_whitespace := by
    intro c hspace
    rw [← Bool.not_eq_true, isAsciiDigit_iff]
    have := (isWhitespace_iff c).mp hspace
    omega

end Dbflux.Lib
