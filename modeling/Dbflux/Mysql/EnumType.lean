import Dbflux.Lib.Lines
import Dbflux.Lib.Literal

/-!
# Enum and set types of MySQL

`parse_mysql_enum_or_set` (`dbflux_driver_mysql/src/driver.rs`, lines 3914–3942) reads
the values of a column type. It cuts at every comma, also at one inside a value, and
takes two backslashes for one.

Results:
* `parseMysqlEnumOrSet_iff`: the values come back exactly if none has a comma or two
  backslashes in a row.
* `comma_panics`: the value `,` leaves a lone quote, which is sliced.
-/

namespace Dbflux.Mysql

open Lib LiteralRules List

/-- `str::replace` of two characters `c` by one. -/
def replacePairs (c : Char) : Text → Text
  | a :: b :: rest =>
    if a = c ∧ b = c then c :: replacePairs c rest else a :: replacePairs c (b :: rest)
  | text => text

/-- One piece between commas (lines 3926–3937). A quote alone is sliced from 1 to 0,
which panics: `none`. -/
def parsePiece (piece : Text) : Option Text :=
  let trimmed := trim piece
  if [quoteChar, '"'].any fun quote => trimmed.head? = some quote ∧ trimmed.getLast? = some quote then
    if trimmed.length = 1 then none
    else some (replacePairs '\\' (replacePairs quoteChar trimmed.tail.dropLast))
  else some trimmed

/-- `parse_mysql_enum_or_set`; the outer `none` is a panic. Only the ASCII capitals have
one of these letters as their lower case. -/
def parseMysqlEnumOrSet (columnType : Text) : Option (Option (List Text)) :=
  let lower := columnType.map Char.toLower
  let values (prefixLength : ℕ) :=
    (((columnType.drop prefixLength).dropLast.splitOn ',').mapM parsePiece).map some
  if "enum(".toList <+: lower ∧ lower.getLast? = some ')' then values 5
  else if "set(".toList <+: lower ∧ lower.getLast? = some ')' then values 4
  else some none

/-- The column type that MySQL reports: `enum` or `set`, and each value in quotes with
its own quotes doubled. -/
def columnType (isEnum : Bool) (values : List Text) : Text :=
  (if isEnum then "enum(" else "set(").toList ++
    intercalate [','] (values.map fun value => quoted (doubled value)) ++ [')']

/-! ## Pairs of characters -/

theorem length_replacePairs_le (c : Char) (text : Text) :
    (replacePairs c text).length ≤ text.length := by
  induction text using twoStepInduction with
  | nil | singleton => exact le_rfl
  | cons_cons a b rest ihRest ih =>
    have hbehind := ih b
    rw [replacePairs]
    split_ifs <;> simp only [length_cons] at hbehind ⊢ <;> omega

theorem replacePairs_eq_self_iff (c : Char) (text : Text) :
    replacePairs c text = text ↔ ¬ [c, c] <:+: text := by
  induction text using twoStepInduction with
  | nil | singleton => exact iff_of_true rfl fun hpair => by simpa using hpair.length_le
  | cons_cons a b rest _ ih =>
    rw [replacePairs]
    split_ifs with h
    · obtain ⟨rfl, rfl⟩ := h
      refine iff_of_false (fun heq => ?_) (not_not.mpr ⟨[], rest, rfl⟩)
      have hlength := congrArg length heq
      have hle := length_replacePairs_le b rest
      simp only [length_cons] at hlength
      omega
    · rw [infix_cons_iff, cons_prefix_cons, cons_prefix_cons, cons_inj_right, ih b]
      simp only [ nil_prefix, and_true, not_or, iff_and_self]
      rintro - ⟨rfl, rfl⟩
      exact h ⟨rfl, rfl⟩

variable (value : Text)

theorem replacePairs_doubled : replacePairs quoteChar (doubled value) = value := by
  induction value with
  | nil => rfl
  | cons c rest ih =>
    by_cases hc : c = quoteChar
    · simpa [doubled, hc, replacePairs] using ih
    · have hstep : doubled (c :: rest) = c :: doubled rest := by simp [doubled, hc]
      rw [hstep]
      cases h : doubled rest with
      | nil => rw [h] at ih; rw [← ih]; rfl
      | cons b more => rw [replacePairs, if_neg fun hpair => hc hpair.1, ← h, ih]

/-! ## Values without commas -/

theorem parsePiece_quoted :
    parsePiece (quoted (doubled value)) = some (replacePairs '\\' value) := by
  have hlast : (quoted (doubled value)).getLast? = some quoteChar := getLast?_concat ..
  have htrim : trim (quoted (doubled value)) = quoted (doubled value) :=
    trim_eq_self (by rintro c ⟨⟩; decide) (by rw [hlast]; rintro c ⟨⟩; decide)
  simp only [parsePiece, htrim, hlast]
  simp [quoted, replacePairs_doubled]

theorem count_quoted : (quoted (doubled value)).count ',' = value.count ',' := by
  have hdoubled : (doubled value).count ',' = value.count ',' := by
    induction value with
    | nil => rfl
    | cons c rest ih =>
      rw [doubled, flatMap_cons, count_append, ← doubled, ih, count_cons, Nat.add_comm]
      split <;> simp_all [count_cons, quoteChar]
  simp [quoted, hdoubled, quoteChar]

/-! ## Commas -/

theorem length_splitOn (text : Text) : (text.splitOn ',').length = text.count ',' + 1 := by
  induction text with
  | nil => rfl
  | cons c rest ih =>
    rw [splitOn_cons_eq_if_modifyHead, count_cons]
    split <;> simp [ih]

theorem count_intercalate {texts : List Text} (h : texts ≠ []) :
    (intercalate [','] texts).count ',' + 1 = (texts.map (count ',')).sum + texts.length := by
  induction texts with
  | nil => exact absurd rfl h
  | cons text rest ih =>
    cases rest with
    | nil => simp [intercalate]
    | cons next more =>
      have hrest := ih (cons_ne_nil _ _)
      rw [show intercalate [','] (text :: next :: more) =
        text ++ ',' :: intercalate [','] (next :: more) by simp [intercalate, intersperse]]
      simp only [count_append, count_cons_self, map_cons, sum_cons, length_cons] at hrest ⊢
      omega

theorem length_of_mapM {f : Text → Option Text} {pieces values : List Text}
    (h : pieces.mapM f = some values) : values.length = pieces.length := by
  induction pieces generalizing values with
  | nil => cases h; rfl
  | cons piece rest ih =>
    rw [mapM_cons] at h
    obtain ⟨value, -, h⟩ := Option.bind_eq_some_iff.mp h
    obtain ⟨others, hothers, h⟩ := Option.bind_eq_some_iff.mp h
    cases h
    rw [length_cons, length_cons, ih hothers]

/-- **Enum and set types.** For every non-empty list of values, the column type that MySQL
reports for it is parsed to that list exactly if no value has a comma or two
backslashes in a row. -/
theorem parseMysqlEnumOrSet_iff (isEnum : Bool) {values : List Text} (hvalues : values ≠ []) :
    parseMysqlEnumOrSet (columnType isEnum values) = some (some values) ↔
      ∀ value ∈ values, ',' ∉ value ∧ ¬ ['\\', '\\'] <:+: value := by
  set pieces := values.map fun value => quoted (doubled value) with hpieces
  have hne : pieces ≠ [] := by simpa [hpieces] using hvalues
  have hparse : parseMysqlEnumOrSet (columnType isEnum values) =
      (((intercalate [','] pieces).splitOn ',').mapM parsePiece).map some := by
    cases isEnum <;> simp [parseMysqlEnumOrSet, columnType, ← hpieces, getLast?_cons]
  have hcount : (pieces.map (count ',')).sum = (values.map (count ',')).sum := by
    rw [hpieces, map_map]
    exact congrArg sum (map_congr_left fun value _ => count_quoted value)
  -- Without commas the pieces are the quoted values.
  have hpiecewise : (∀ value ∈ values, ',' ∉ value) →
      ((intercalate [','] pieces).splitOn ',').mapM parsePiece =
        some (values.map (replacePairs '\\')) := by
    intro hcommas
    rw [splitOn_intercalate ',' ?_ hne, hpieces]
    · clear hparse hne hcount hcommas hpieces hvalues
      induction values with
      | nil => rfl
      | cons value rest ih => simp [mapM_cons, parsePiece_quoted, ih]
    · simp only [hpieces, forall_mem_map, ← count_eq_zero, count_quoted]
      exact fun value hvalue => count_eq_zero.mpr (hcommas value hvalue)
  have hself : values.map (replacePairs '\\') = values ↔
      ∀ value ∈ values, ¬ ['\\', '\\'] <:+: value := by
    simpa [replacePairs_eq_self_iff] using
      map_inj_left (l := values) (f := replacePairs '\\') (g := id)
  rw [hparse]
  constructor
  · intro h
    obtain ⟨_, h, heq⟩ := Option.map_eq_some_iff.mp h
    cases heq
    have hcommas : ∀ value ∈ values, ',' ∉ value := by
      have hlength := length_of_mapM h
      rw [length_splitOn, count_intercalate hne, hcount, hpieces, length_map] at hlength
      intro value hvalue
      rw [← count_eq_zero]
      exact sum_eq_zero_iff.mp (by omega) _ (mem_map_of_mem hvalue)
    rw [hpiecewise hcommas, Option.some.injEq, hself] at h
    exact fun value hvalue => ⟨hcommas value hvalue, h value hvalue⟩
  · intro h
    rw [hpiecewise fun value hvalue => (h value hvalue).1,
      hself.mpr fun value hvalue => (h value hvalue).2, Option.map_some]

/-- Quotes and parentheses come back. -/
theorem quotes_come_back : parseMysqlEnumOrSet (columnType true ["it's".toList, "(b)".toList]) =
      some (some ["it's".toList, "(b)".toList]) :=
  (parseMysqlEnumOrSet_iff true (by decide)).mpr (by decide)

/-- The column type `enum(',')`. -/
theorem comma_panics : parseMysqlEnumOrSet (columnType true [[',']]) = none := by decide

end Dbflux.Mysql
