import Dbflux.Sqlite.Complete

/-!
# Unbounded and row-limited requests

An unbounded and a row-limited request for the same text should give SQLite
the same statements and get the same result sets. They are cut by different
splitters, and they tell a statement that gives rows by different rules.

Results:
* `requests_agree_iff`: exactly the texts on which the two requests agree on
  every database.
* `second_insert_is_not_run`: a script that the row-limited request runs, and
  the unbounded one fails at or runs the first statement of.
-/

namespace Dbflux.Sqlite

open Lib Sql List

variable {unicode : UnicodeTable} {lexer : Lexer} {returnsRows : Text → Bool} {D C V : Type}

/-- Two requests that give SQLite the same statements and return the same
result sets, or both fail at the same statement. -/
def Agree (o o' : Outcome D C V) : Prop :=
  o.log = o'.log ∧ ((∃ results, o.result = .ok results ∧ o'.result = .ok results) ∨
      (∃ error error', o.result = .error error ∧ o'.result = .error error'))

/-- The texts an unbounded request prepares, in order. -/
def unboundedPieces (unicode : UnicodeTable) (sql : Text) : List Text :=
  let statements := splitStatements unicode sql
  if statements.length ≤ 1 then [sql] else statements

/-- The texts a row-limited request prepares, in order. -/
def boundedPieces (lexer : Lexer) (sql : Text) : List Text :=
  let statements := splitLoop lexer [] (sql.dropWhile (· = byteOrderMark))
  if statements.length > 1 then statements else [sql]

/-- `prepare` does not refuse the piece, and its keyword tells whether its statement
gives rows. -/
def Told (unicode : UnicodeTable) (lexer : Lexer) (returnsRows : Text → Bool)
    (piece : Text) : Prop :=
  lexer.refusal piece = none ∧
    startsWithQueryKeyword unicode piece = returnsRows (lexer.first piece)

/-- The splitters cut the text into pieces that begin with the same statements, and
those of the unbounded request are single statements whose keyword tells which of
them give rows. -/
def CutAlike (unicode : UnicodeTable) (lexer : Lexer) (returnsRows : Text → Bool)
    (sql : Text) : Prop :=
  (unboundedPieces unicode sql).map lexer.first = (boundedPieces lexer sql).map lexer.first ∧
    ∀ piece ∈ unboundedPieces unicode sql, Told unicode lexer returnsRows piece

section Requests

variable (engine : Engine returnsRows D C V)

/-- The rows the statements give, one after another, up to the first that
fails. -/
def rowsProduced (db : D) : List Text → ℕ
  | [] => 0
  | statement :: rest =>
    match engine.prepareError db statement with
    | some _ => 0
    | none =>
      let execution := engine.run db statement
      execution.rows.length +
        match execution.error with
        | some _ => 0
        | none => rowsProduced execution.after rest

end Requests

section

variable {engine : Engine returnsRows D C V} {db : D} {sql : Text}

theorem executeRequest_none : executeRequest unicode lexer engine none db sql =
      runStatements unicode lexer engine none db (unboundedPieces unicode sql) := by
  simp only [executeRequest, executeSql, unboundedPieces, Option.isSome_none, Bool.false_eq_true,
    false_or]
  split_ifs <;> rfl

variable {limit : ℕ}

theorem executeRequest_some (hnul : '\x00' ∉ sql) :
    executeRequest unicode lexer engine (some limit) db sql =
      runStatements unicode lexer engine (some limit) db (boundedPieces lexer sql) := by
  have hsplit : splitBoundedSql lexer sql =
      .ok (splitLoop lexer [] (sql.dropWhile (· = byteOrderMark))) := by
    refine if_neg fun h => hnul ?_
    exact (dropWhile_suffix _).subset (contains_iff_mem.mp h)
  simp only [executeRequest, hsplit, executeSql, boundedPieces, Option.isSome_some, true_or,
    if_true]
  split_ifs <;> rfl

/-- Whether a statement gives rows decides its path in a row-limited request, and its
keyword in an unbounded one. -/
theorem executeOneStatement_of_first {limit : Option ℕ} {piece : Text}
    (hrefusal : lexer.refusal piece = none) :
    executeOneStatement unicode lexer engine limit db piece =
      match engine.prepareError db (lexer.first piece) with
      | some error => (.error error, db)
      | none =>
        if (if limit.isSome then returnsRows (lexer.first piece)
            else startsWithQueryKeyword unicode piece) then
          queryRows engine limit db (lexer.first piece)
        else executeStatement engine db (lexer.first piece) := by
  have hcolumns : (!(engine.columns db (lexer.first piece)).isEmpty) =
      returnsRows (lexer.first piece) := by
    have h := engine.columns_eq_nil db (lexer.first piece)
    cases hrows : returnsRows (lexer.first piece) with
    | false => simp [h.mpr hrows]
    | true => simpa [List.isEmpty_iff, hrows] using h
  cases hprepare : engine.prepareError db (lexer.first piece) <;>
    simp only [executeOneStatement, hcolumns, hrefusal, hprepare, Option.or_none]

/-- A statement that ran without a limit gave the rows its result set holds. -/
theorem rowsProduced_of_ok {piece : Text} {rest : List Text} {result : ResultSet C V} {after : D}
    (h : executeOneStatement unicode lexer engine none db piece = (.ok result, after))
    (htold : Told unicode lexer returnsRows piece) :
    rowsProduced engine db (lexer.first piece :: rest) =
      result.rows.length + rowsProduced engine after rest := by
  rw [executeOneStatement_of_first htold.1, htold.2] at h
  conv_lhs => rw [rowsProduced]
  cases hprepare : engine.prepareError db (lexer.first piece) with
  | some error => simp [hprepare] at h
  | none =>
    simp only [hprepare, Option.isSome_none, Bool.false_eq_true, if_false] at h ⊢
    by_cases hrows : returnsRows (lexer.first piece) = true
    · rw [if_pos hrows] at h
      unfold queryRows at h
      cases herror : (engine.run db (lexer.first piece)).error with
      | some error => simp [herror] at h
      | none =>
        simp only [herror, Prod.mk.injEq, Except.ok.injEq] at h ⊢
        obtain ⟨rfl, rfl⟩ := h
        rfl
    · rw [if_neg hrows] at h
      have hnone := engine.rows_eq_nil db (lexer.first piece) (by simpa using hrows)
      unfold executeStatement at h
      simp only [hnone] at h ⊢
      cases herror : (engine.run db (lexer.first piece)).error with
      | some error => simp [herror] at h
      | none =>
        simp only [herror, Prod.mk.injEq, Except.ok.injEq] at h ⊢
        obtain ⟨rfl, rfl⟩ := h
        rfl

/-- On a statement both requests begin their piece with, and whose rows the
limit leaves room for, they do the same. -/
theorem executeOneStatement_eq {piece piece' : Text}
    (hfirst : lexer.first piece = lexer.first piece')
    (htold : Told unicode lexer returnsRows piece) (hrefusal : lexer.refusal piece' = none)
    (hfits : engine.prepareError db (lexer.first piece) = none →
      (engine.run db (lexer.first piece)).rows.length ≤ limit) :
    executeOneStatement unicode lexer engine none db piece =
      executeOneStatement unicode lexer engine (some limit) db piece' := by
  rw [executeOneStatement_of_first htold.1, executeOneStatement_of_first hrefusal, ← hfirst]
  simp only [Option.isSome_none, Option.isSome_some, Bool.false_eq_true, if_false, if_true,
    htold.2]
  cases hprepare : engine.prepareError db (lexer.first piece) with
  | some error => rfl
  | none =>
    have htake := take_of_length_le (hfits hprepare)
    by_cases hrows : returnsRows (lexer.first piece) = true
    · rw [if_pos hrows, if_pos hrows]
      simp only [queryRows, Option.elim_none, Option.elim_some, htake]
      rfl
    · rw [if_neg hrows, if_neg hrows]

/-- **Pieces that begin with the same statements are run alike.** -/
theorem agree_runStatements {pieces pieces' : List Text}
    (hfirst : pieces.map lexer.first = pieces'.map lexer.first)
    (htold : ∀ piece ∈ pieces, Told unicode lexer returnsRows piece)
    (hrefusal : ∀ piece ∈ pieces', lexer.refusal piece = none)
    (hfits : rowsProduced engine db (pieces'.map lexer.first) ≤ limit) :
    Agree (runStatements unicode lexer engine none db pieces)
      (runStatements unicode lexer engine (some limit) db pieces') := by
  induction pieces generalizing pieces' db limit with
  | nil =>
    have hnil : pieces' = [] := map_eq_nil_iff.mp hfirst.symm
    subst hnil
    exact ⟨rfl, .inl ⟨[], rfl, rfl⟩⟩
  | cons piece pieces ih =>
    match pieces', hfirst, hrefusal, hfits with
    | piece' :: pieces', hfirst, hrefusal, hfits =>
      rw [map_cons, map_cons, List.cons.injEq] at hfirst
      rw [map_cons, ← hfirst.1] at hfits
      have hhead := htold piece mem_cons_self
      have heq : executeOneStatement unicode lexer engine none db piece =
          executeOneStatement unicode lexer engine (some limit) db piece' :=
        executeOneStatement_eq hfirst.1 hhead (hrefusal piece' mem_cons_self) fun hprepare => by
          simp only [rowsProduced, hprepare] at hfits
          omega
      unfold runStatements
      rw [← heq, ← hfirst.1]
      cases hresult : executeOneStatement unicode lexer engine none db piece with
      | mk result after =>
        cases result with
        | error error => exact ⟨rfl, .inr ⟨error, error, rfl, rfl⟩⟩
        | ok result =>
          have hrows : rowsProduced engine db (lexer.first piece :: pieces'.map lexer.first) =
              result.rows.length + rowsProduced engine after (pieces'.map lexer.first) :=
            rowsProduced_of_ok hresult hhead
          have hrest := ih hfirst.2 (fun p hp => htold p (mem_cons_of_mem _ hp))
            (fun p hp => hrefusal p (mem_cons_of_mem _ hp))
            (show rowsProduced engine after (pieces'.map lexer.first) ≤
              limit - result.rows.length by omega)
          obtain ⟨hlog, hcases⟩ := hrest
          refine ⟨congrArg (_ :: ·) hlog, ?_⟩
          rcases hcases with ⟨results, h, h'⟩ | ⟨error, error', h, h'⟩
          · refine .inl ⟨result :: results, ?_, ?_⟩
            · exact congrArg (Except.map _) h
            · exact congrArg (Except.map _) h'
          · refine .inr ⟨error, error', ?_, ?_⟩
            · exact congrArg (Except.map _) h
            · exact congrArg (Except.map _) h'

end

/-! ## Only then -/

/-- A database on which every statement runs; those that give rows give one. -/
def recorder (returnsRows : Text → Bool) : Engine returnsRows Unit Unit Unit where
  prepareError := fun _ _ => none
  columns := fun _ statement => if returnsRows statement then [()] else []
  run := fun _ statement => ⟨if returnsRows statement then [()] else [], none, 0, (), ()⟩
  columns_eq_nil := by
    intro _ statement
    cases returnsRows statement <;> simp
  rows_eq_nil := by
    intro _ statement h
    simp [h]

/-- A row-limited request runs all its pieces there. -/
theorem recorder_bounded (pieces : List Text) (limit : ℕ)
    (hrefusal : ∀ piece ∈ pieces, lexer.refusal piece = none) :
    ∃ results, runStatements unicode lexer (recorder returnsRows) (some limit) () pieces =
        ⟨pieces.map lexer.first, .ok results, ()⟩ ∧
      results.map (fun r => r.affectedRows.isNone) =
        pieces.map fun piece => returnsRows (lexer.first piece) := by
  induction pieces generalizing limit with
  | nil => exact ⟨[], rfl, rfl⟩
  | cons piece pieces ih =>
    have hone : ∃ result, executeOneStatement unicode lexer (recorder returnsRows) (some limit) ()
        piece = (.ok result, ()) ∧
        result.affectedRows.isNone = returnsRows (lexer.first piece) := by
      rw [executeOneStatement_of_first (hrefusal piece mem_cons_self)]
      cases hrows : returnsRows (lexer.first piece) with
      | false => simp [recorder, executeStatement, hrows]
      | true => simp [recorder, queryRows, hrows]
    obtain ⟨result, hresult, haffected⟩ := hone
    obtain ⟨results, hrest, hmap⟩ := ih (limit - result.rows.length) fun p hp =>
      hrefusal p (mem_cons_of_mem _ hp)
    refine ⟨result :: results, ?_, ?_⟩
    · unfold runStatements
      simp only [hresult, Option.map_some, hrest]
      rfl
    · rw [map_cons, map_cons, hmap, haffected]

/-- An unbounded request that gets through there was refused no piece and classified
every piece by its keyword. -/
theorem recorder_unbounded {pieces : List Text} {results : List (ResultSet Unit Unit)}
    (h : (runStatements unicode lexer (recorder returnsRows) none () pieces).result = .ok results) :
    (runStatements unicode lexer (recorder returnsRows) none () pieces).log =
        pieces.map lexer.first ∧ (∀ piece ∈ pieces, lexer.refusal piece = none) ∧
      results.map (fun r => r.affectedRows.isNone) = pieces.map (startsWithQueryKeyword unicode) := by
  induction pieces generalizing results with
  | nil =>
    cases h
    exact ⟨rfl, by simp, rfl⟩
  | cons piece pieces ih =>
    have hone (hrefusal : lexer.refusal piece = none) :
        (executeOneStatement unicode lexer (recorder returnsRows) none () piece).1 =
        if startsWithQueryKeyword unicode piece then
          .ok ⟨if returnsRows (lexer.first piece) then [()] else [],
            if returnsRows (lexer.first piece) then [()] else [], none, false⟩
        else if returnsRows (lexer.first piece) then
          .error "Execute returned results - did you mean to call query?".toList
        else .ok ⟨[], [], some 0, false⟩ := by
      rw [executeOneStatement_of_first hrefusal]
      cases hrows : returnsRows (lexer.first piece) <;>
        cases hquery : startsWithQueryKeyword unicode piece <;>
        simp [recorder, queryRows, executeStatement, hrows]
    have hrefused {error : Text} (hrefusal : lexer.refusal piece = some error) :
        executeOneStatement unicode lexer (recorder returnsRows) none () piece =
          (.error error, ()) := by
      simp [executeOneStatement, hrefusal, recorder]
    unfold runStatements at h ⊢
    cases hrefusal : lexer.refusal piece with
    | some error =>
      rw [hrefused hrefusal] at h
      cases h
    | none =>
      have hone := hone hrefusal
      cases hresult : executeOneStatement unicode lexer (recorder returnsRows) none () piece with
      | mk result after =>
        rw [hresult] at hone h
        cases result with
        | error error => cases h
        | ok result =>
          cases hmore : (runStatements unicode lexer (recorder returnsRows) none () pieces).result with
          | error error =>
            simp only [Option.map_none, hmore] at h
            cases h
          | ok rest =>
            simp only [Option.map_none, hmore] at h
            cases h
            obtain ⟨hlog, hnone, hmap⟩ := ih hmore
            have hpiece : result.affectedRows.isNone = startsWithQueryKeyword unicode piece := by
              split_ifs at hone with hkeyword hrows <;> cases hone <;> simp [hkeyword]
            refine ⟨by simp [hlog], forall_mem_cons.mpr ⟨hrefusal, hnone⟩, ?_⟩
            rw [map_cons, map_cons, hmap, hpiece]

/-- **When the two requests agree.** For a text without NUL, an unbounded
request and one whose limit covers all rows give SQLite the same statements
in the same order and return the same result sets or fail at the same
statement, on every database, exactly when both splitters cut the text into
pieces that begin with the same statements and each piece of the unbounded request
is one statement whose leading keyword tells whether it gives rows. That the pieces
of the row-limited request are single statements is what `sqlite3_complete` is for. -/
theorem requests_agree_iff {sql : Text} (hnul : '\x00' ∉ sql)
    (hsingle : ∀ piece ∈ boundedPieces lexer sql, lexer.refusal piece = none) :
    (∀ (D C V : Type) (engine : Engine returnsRows D C V) (db : D) (limit : ℕ),
      rowsProduced engine db ((boundedPieces lexer sql).map lexer.first) ≤ limit →
      Agree (executeRequest unicode lexer engine none db sql)
        (executeRequest unicode lexer engine (some limit) db sql)) ↔
    CutAlike unicode lexer returnsRows sql := by
  constructor
  · intro hagree
    obtain ⟨hlog, hcases⟩ := hagree Unit Unit Unit (recorder returnsRows) () _ (le_refl _)
    rw [executeRequest_none, executeRequest_some hnul] at hlog hcases
    obtain ⟨results, hbounded, hmap⟩ := @recorder_bounded unicode lexer returnsRows
      (boundedPieces lexer sql)
      (rowsProduced (recorder returnsRows) () ((boundedPieces lexer sql).map lexer.first)) hsingle
    rw [hbounded] at hlog hcases
    rcases hcases with ⟨results', hok, hok'⟩ | ⟨error, error', -, herror⟩
    · cases hok'
      obtain ⟨hlog', hnone, hmap'⟩ := recorder_unbounded hok
      have hfirst := hlog'.symm.trans hlog
      refine ⟨hfirst, ?_⟩
      have hmaps : (unboundedPieces unicode sql).map (startsWithQueryKeyword unicode) =
          (unboundedPieces unicode sql).map fun piece => returnsRows (lexer.first piece) := by
        have hrows := congrArg (List.map returnsRows) hfirst.symm
        rw [map_map, map_map] at hrows
        rw [← hmap', hmap]
        exact hrows
      exact fun piece hpiece => ⟨hnone piece hpiece, map_inj_left.mp hmaps piece hpiece⟩
    · cases herror
  · rintro ⟨hfirst, htold⟩ D C V engine db limit hfits
    rw [executeRequest_none, executeRequest_some hnul]
    exact agree_runStatements hfirst htold hsingle hfits

/-- A query and a deletion, cut alike. -/
theorem select_then_delete_agree : '\x00' ∉ "SELECT 1; DELETE FROM t;".toList ∧
    ∀ (D C V : Type) (engine : Engine (fun text => "SELECT".toList.isPrefixOf text) D C V)
      (db : D) (limit : ℕ),
      rowsProduced engine db ["SELECT 1".toList, "DELETE FROM t".toList] ≤ limit →
      Agree (executeRequest .ascii sqlite engine none db "SELECT 1; DELETE FROM t;".toList)
        (executeRequest .ascii sqlite engine (some limit) db "SELECT 1; DELETE FROM t;".toList) := by
  have hnul : '\x00' ∉ "SELECT 1; DELETE FROM t;".toList := by decide +kernel
  have hcut : CutAlike .ascii sqlite (fun text => "SELECT".toList.isPrefixOf text)
      "SELECT 1; DELETE FROM t;".toList :=
    ⟨by decide +kernel, by unfold Told; decide +kernel⟩
  refine ⟨hnul, ?_⟩
  exact (requests_agree_iff hnul (by decide +kernel)).mpr hcut

/-- `INSERT INTO t VALUES ('\'); INSERT INTO t VALUES ('x')`. -/
def backslashScript : Text := "INSERT INTO t VALUES ('\\'); INSERT INTO t VALUES ('x')".toList

/-- `prepare` as the driver's comments describe it: it ignores what stands behind the
first statement. -/
def ignoring (lexer : Lexer) : Lexer := { lexer with refusal := fun _ => none }

/-- What a request for the script does. -/
def scriptOutcome (lexer : Lexer) (limit : Option ℕ) : Outcome Unit Unit Unit :=
  executeRequest .ascii lexer (recorder fun _ => false) limit () backslashScript

/-- A backslash in front of a closing quote. SQLite reads two statements, and the
row-limited request runs them. The generic splitter takes the quote for an escaped
one and sees a single statement: `prepare` refuses it, and the unbounded request
fails and runs nothing. A `prepare` that ignores the second statement has it report
success after the first. -/
theorem second_insert_is_not_run : '\x00' ∉ backslashScript ∧
    (scriptOutcome sqlite (some 10)).log =
      ["INSERT INTO t VALUES ('\\')".toList, "INSERT INTO t VALUES ('x')".toList] ∧
    (scriptOutcome sqlite (some 10)).result.isOk ∧
    (scriptOutcome sqlite none).result.isOk = false ∧
    ¬ Agree (scriptOutcome sqlite none) (scriptOutcome sqlite (some 10)) ∧
    (scriptOutcome (ignoring sqlite) none).log = ["INSERT INTO t VALUES ('\\')".toList] ∧
    (scriptOutcome (ignoring sqlite) none).result.isOk ∧
    ¬ Agree (scriptOutcome (ignoring sqlite) none) (scriptOutcome (ignoring sqlite) (some 10)) := by
  refine ⟨by decide +kernel, by decide +kernel, by decide +kernel, by decide +kernel,
    fun hagree => ?_, by decide +kernel, by decide +kernel, fun hagree => ?_⟩
  · exact absurd hagree.1 (by decide +kernel)
  · exact absurd hagree.1 (by decide +kernel)

end Dbflux.Sqlite
