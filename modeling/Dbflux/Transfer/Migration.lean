import Dbflux.Lib.Ensures
import Dbflux.Schema.DependencyOrder
import Dbflux.Transfer.Folder

/-!
# Migration

`run_migration` (`dbflux_transfer/src/migration.rs`) brings the plans into an
order, given by hand or found from the foreign keys, and runs one transfer per
plan. Only the lengths of the order and of the plans are compared, and each table
of the order stands for the first plan with that source table.

Results:
* `loads_every_plan_iff`: the loading loop runs over every plan exactly once, and
  without a manual order over referenced tables first, exactly if plans that share
  a source table are the same plan and a manual order has every source table as
  often as the plans.
* `order_with_repeated_table`, a manual order that drops a plan.
-/

namespace Dbflux.Transfer

open Lib Schema List

/-! ## Model -/

/-- `MigrationTablePlan` (lines 27–40). -/
structure MigrationTablePlan where
  sourceTable : TableRef
  sourceColumns : List TransferColumn
  targetSchema : Option Text
  targetTable : Text
  mappingMode : TableMappingMode
  columnOverrides : Option (List ColumnMappingOverride)
  estimatedTotal : Option ℕ
  deriving DecidableEq, Repr

/-- `MigrationOptions` (lines 42–58). -/
structure MigrationOptions where
  segmentSize : ℕ
  sourceDatabase : Text
  targetDatabase : Text
  destructiveConfirmed : Bool
  disableReferentialIntegrity : Bool
  manualOrder : Option (List TableRef)
  deriving DecidableEq, Repr

/-- `Connection::schema_foreign_keys`. -/
abbrev ForeignKeys := Text → Option Text → Except Text (List SchemaForeignKeyInfo)

/-- `TableRef::qualified_name` (`table_browser.rs`, lines 206–211). -/
def qualifiedName (table : TableRef) : Text :=
  match table.schema with
  | some schema => schema ++ '.' :: table.name
  | none => table.name

/-- The order of `Option<String>`. -/
def optionLe : Option Text → Option Text → Bool
  | none, _ => true
  | some _, none => false
  | some a, some b => a ≤ b

/-- `Vec::dedup`. -/
def dedupAdjacent {α : Type} [DecidableEq α] : List α → List α
  | [] => []
  | [a] => [a]
  | a :: b :: rest => if a = b then dedupAdjacent (b :: rest) else a :: dedupAdjacent (b :: rest)

/-- The schemas of the plans (lines 305–310). -/
def schemasOf (plans : List MigrationTablePlan) : List (Option Text) :=
  dedupAdjacent ((plans.map (·.sourceTable.schema)).insertionSort fun a b => optionLe a b = true)

/-- The loop over the schemas (lines 312–318). -/
def fetchSchemas (foreignKeys : ForeignKeys) (database : Text) :
    List (Option Text) → Except TransferError (List SchemaForeignKeyInfo)
  | [] => .ok []
  | schema :: schemas =>
    match foreignKeys database schema with
    | .error e => .error (.source e)
    | .ok batch => (fetchSchemas foreignKeys database schemas).map (batch ++ ·)

/-- `fetch_all_foreign_keys` (lines 300–321). -/
def fetchAllForeignKeys (foreignKeys : ForeignKeys) (database : Text)
    (plans : List MigrationTablePlan) : Except TransferError (List SchemaForeignKeyInfo) :=
  fetchSchemas foreignKeys database (schemasOf plans)

/-- `ResolvedOrder` (lines 234–240). -/
inductive ResolvedOrder where
  | ordered (plans : List MigrationTablePlan)
  | cyclic (orderedPrefix cycle : List TableRef)
  deriving DecidableEq, Repr

/-- The plans of the tables of an order (lines 278–291). -/
def plansOf (plans : List MigrationTablePlan) :
    List TableRef → Except TransferError (List MigrationTablePlan)
  | [] => .ok []
  | table :: order =>
    match plans.find? (·.sourceTable = table) with
    | none =>
      .error (.source ("manual order references unplanned table '".toList ++ qualifiedName table ++
        "'".toList))
    | some plan => (plansOf plans order).map (plan :: ·)

/-- The check of the lengths, and the plans of the order (lines
269–292). -/
def resolveOrder (plans : List MigrationTablePlan) (order : List TableRef) :
    Except TransferError ResolvedOrder :=
  if order.length ≠ plans.length then
    .error (.source "resolved table order does not match every planned table".toList)
  else (plansOf plans order).map .ordered

/-- `resolve_plan_order` (lines 245–294). -/
def resolvePlanOrder (foreignKeys : ForeignKeys) (plans : List MigrationTablePlan)
    (options : MigrationOptions) : Except TransferError ResolvedOrder :=
  match options.manualOrder with
  | some order => resolveOrder plans order
  | none =>
    match fetchAllForeignKeys foreignKeys options.sourceDatabase plans with
    | .error e => .error e
    | .ok fks =>
      match topologicalOrder (plans.map (·.sourceTable)) fks with
      | .ordered order => resolveOrder plans order
      | .cyclic orderedPrefix cycle => .ok (.cyclic orderedPrefix cycle)

/-- `MigratedTable` (lines 60–65). -/
structure MigratedTable where
  sourceTable : Text
  targetTable : Text
  status : TableTransferStatus
  deriving DecidableEq, Repr

/-- `MigrationRunOutcome` (lines 73–77), with the plans the loading
loop runs over and those it has loaded. -/
structure MigrationRunOutcome where
  tables : List MigratedTable
  warnings : List Text
  cancelled : Bool
  sequence : List MigrationTablePlan
  loaded : List MigrationTablePlan
  deriving DecidableEq, Repr

/-- `MigrationOutcome` (lines 82–91). -/
inductive MigrationOutcome where
  | completed (outcome : MigrationRunOutcome)
  | cyclicOrderRequired (orderedPrefix cycle : List TableRef)
  deriving DecidableEq, Repr

section

variable {V τ : Type}

/-- The target of a migration: a target whose referential integrity may be
switched off. -/
structure MigrationTarget (V τ : Type) extends Target V τ where
  supportsDisableFkChecks : Bool
  setReferentialIntegrity : Bool → τ → Except Text Unit × τ

variable (null : V) (source : Connection V) (foreignKeys : ForeignKeys)
  (target : MigrationTarget V τ) (options : MigrationOptions) (fuel : ℕ)

/-- The plan of an import into the same target: the columns of the target and the
column map are found in the same way (lines 341–350 and
375–414). -/
def MigrationTablePlan.toImport (plan : MigrationTablePlan) : ImportTablePlan :=
  ⟨plan.sourceTable.name, plan.targetSchema, plan.targetTable, plan.mappingMode,
    plan.columnOverrides⟩

/-- `migrate_one_table` (lines 324–367). -/
def migrateOneTable (plan : MigrationTablePlan) (state : τ) (token : CancelToken) :
    Option (Except TransferError TransferReport × τ × CancelToken) :=
  match resolveTargetColumns target.toTarget
      ⟨options.segmentSize, options.targetDatabase, options.destructiveConfirmed⟩ plan.toImport
      plan.sourceColumns state with
  | .error e => some (.error e, state, token)
  | .ok columns =>
    (runTransfer tableSource ((plan.toImport.columnMap plan.sourceColumns columns).toColumnMap null)
      (target.sink plan.targetSchema plan.targetTable plan.mappingMode columns) fuel
      (.new source plan.sourceTable.schema plan.sourceTable.name plan.sourceColumns
        options.segmentSize plan.estimatedTotal) state token).map fun run =>
      (run.result, run.sink, run.token)

/-- What the loading loop leaves behind. -/
structure Migrated (τ : Type) where
  tables : List MigratedTable
  warnings : List Text
  loaded : List MigrationTablePlan
  state : τ
  token : CancelToken

/-- A plan with its status. -/
def MigrationTablePlan.migrated (plan : MigrationTablePlan) (status : TableTransferStatus) :
    MigratedTable :=
  ⟨plan.sourceTable.name, plan.targetTable, status⟩

/-- The loading loop of `run_migration` (lines 162–215). -/
def migrateLoop : List MigrationTablePlan → τ → CancelToken → Option (Migrated τ)
  | [], state, token => some ⟨[], [], [], state, token⟩
  | plan :: plans, state, token =>
    if token.isCancelled then
      some ⟨(plan :: plans).map (·.migrated .notStarted), [], [], state, token.read⟩
    else
      match migrateOneTable null source target options fuel plan state token.read with
      | none => none
      | some (.error e, state, token) =>
        some ⟨plan.migrated (.failed e.display) :: plans.map (·.migrated .notStarted), [], [plan],
          state, token⟩
      | some (.ok report, state, token) =>
        let table := plan.migrated (plan.toImport.status report)
        match report.outcome with
        | .cancelled =>
          some ⟨table :: plans.map (·.migrated .notStarted), report.warnings, [plan], state, token⟩
        | .completed =>
          (migrateLoop plans state token).map fun rest =>
            { rest with
              tables := table :: rest.tables
              warnings := report.warnings ++ rest.warnings
              loaded := plan :: rest.loaded }

/-- `ReferentialIntegrityGuard::enable` (lines 434–456): whether the
guard is active. -/
def enableGuard (state : τ) : Except TransferError Bool × τ :=
  if !options.disableReferentialIntegrity || !target.supportsDisableFkChecks then (.ok false, state)
  else
    match target.setReferentialIntegrity false state with
    | (.error e, state) => (.error (.sink e), state)
    | (.ok (), state) => (.ok true, state)

/-- What the guard leaves when it is dropped: a failure to restore, if any. -/
def dropGuard (active : Bool) (state : τ) : Option Text × τ :=
  if active then
    match target.setReferentialIntegrity true state with
    | (.error e, state) => (some e, state)
    | (.ok (), state) => (none, state)
  else (none, state)

/-- The warning of a guard that could not restore (lines 217–225). -/
def restoreWarnings (failure : Option Text) : List Text :=
  match failure with
  | some failure => ["referential integrity could not be restored on the target after ".toList ++
      "migration: ".toList ++ failure]
  | none => []

/-- The loop of `run_migration` behind a resolved order (lines
139–232). -/
def loadPlans (sequence : List MigrationTablePlan) (state : τ) (token : CancelToken) :
    Option (Except TransferError MigrationOutcome × τ × CancelToken) :=
  match enableGuard target options state with
  | (.error e, state) => some (.error e, state, token)
  | (.ok active, state) =>
    (migrateLoop null source target options fuel sequence state token).map fun migrated =>
      let (failure, state) := dropGuard target active migrated.state
      (.ok (.completed
        { tables := migrated.tables
          warnings := migrated.warnings ++ restoreWarnings failure
          cancelled := migrated.token.isCancelled
          sequence := sequence
          loaded := migrated.loaded }), state, migrated.token.read)

/-- `run_migration` (lines 102–232). -/
def runMigration (plans : List MigrationTablePlan) (state : τ) (token : CancelToken) :
    Option (Except TransferError MigrationOutcome × τ × CancelToken) :=
  if plans.any (·.toImport.isDestructive) && !options.destructiveConfirmed then
    some (.error (.sink ("migration includes a Recreate or Truncate table and was not ".toList ++
      "confirmed".toList)), state, token)
  else
    match resolvePlanOrder foreignKeys plans options with
    | .error e => some (.error e, state, token)
    | .ok (.cyclic orderedPrefix cycle) =>
      some (.ok (.cyclicOrderRequired orderedPrefix cycle), state, token)
    | .ok (.ordered sequence) => loadPlans null source target options fuel sequence state token

end

/-! ## The foreign keys that are fetched -/

theorem mem_dedupAdjacent {α : Type} [DecidableEq α] {a : α} {l : List α} :
    a ∈ dedupAdjacent l ↔ a ∈ l := by
  fun_induction dedupAdjacent l with
  | case1 => rfl
  | case2 => rfl
  | case3 b rest ih => rw [ih]; simp
  | case4 b c rest hne ih => rw [mem_cons, mem_cons, ih]

variable {plans sequence : List MigrationTablePlan} {order : List TableRef}
  {plan : MigrationTablePlan}

theorem mem_schemasOf (hplan : plan ∈ plans) : plan.sourceTable.schema ∈ schemasOf plans := by
  rw [schemasOf, mem_dedupAdjacent, (perm_insertionSort _ _).mem_iff]
  exact mem_map_of_mem hplan

theorem mem_fetchSchemas {foreignKeys : ForeignKeys} {database : Text}
    {schemas : List (Option Text)} {fks batch : List SchemaForeignKeyInfo} {schema : Option Text}
    (h : fetchSchemas foreignKeys database schemas = .ok fks) (hschema : schema ∈ schemas)
    (hbatch : foreignKeys database schema = .ok batch) : ∀ fk ∈ batch, fk ∈ fks := by
  induction schemas generalizing fks with
  | nil => cases hschema
  | cons head schemas ih =>
    rw [fetchSchemas] at h
    split at h
    · cases h
    next first hfirst =>
    obtain ⟨rest, hrest, rfl⟩ := map_eq_ok.mp h
    intro fk hfk
    rcases mem_cons.mp hschema with rfl | hschema
    · obtain rfl : first = batch := Except.ok.inj (hfirst.symm.trans hbatch)
      exact mem_append_left rest hfk
    · exact mem_append_right first (ih hrest hschema fk hfk)

/-! ## The plans of an order -/

/-- Plans that share a source table are the same plan. -/
def SharedSourcesAgree (plans : List MigrationTablePlan) : Prop :=
  ∀ a ∈ plans, ∀ b ∈ plans, a.sourceTable = b.sourceTable → a = b

instance (plans : List MigrationTablePlan) : Decidable (SharedSourcesAgree plans) :=
  inferInstanceAs (Decidable (∀ a ∈ plans, ∀ b ∈ plans, a.sourceTable = b.sourceTable → a = b))

theorem plansOf_ok (h : plansOf plans order = .ok sequence) : order = sequence.map (·.sourceTable) ∧
      sequence = order.filterMap fun table => plans.find? (·.sourceTable = table) := by
  induction order generalizing sequence with
  | nil =>
    cases h
    exact ⟨rfl, rfl⟩
  | cons table order ih =>
    rw [plansOf] at h
    split at h
    · cases h
    next plan hplan =>
    obtain ⟨rest, hrest, rfl⟩ := map_eq_ok.mp h
    obtain ⟨horder, hsequence⟩ := ih hrest
    have htable : plan.sourceTable = table := by simpa using find?_some hplan
    refine ⟨?_, ?_⟩
    · rw [map_cons, htable, ← horder]
    · simp only [filterMap_cons, hplan]
      exact congrArg (plan :: ·) hsequence

/-- The plans of an order are all plans exactly if the order has all source tables
and the source tables determine the plans. -/
theorem plansOf_perm_iff (h : plansOf plans order = .ok sequence) :
    sequence.Perm plans ↔ SharedSourcesAgree plans ∧ order.Perm (plans.map (·.sourceTable)) := by
  obtain ⟨horder, hsequence⟩ := plansOf_ok h
  constructor
  · intro hperm
    refine ⟨?_, horder ▸ hperm.map _⟩
    -- A plan that is loaded is the first one with its source table.
    have hfirst (plan : MigrationTablePlan) (hplan : plan ∈ plans) :
        plans.find? (·.sourceTable = plan.sourceTable) = some plan := by
      have hloaded := hperm.mem_iff.mpr hplan
      rw [hsequence, mem_filterMap] at hloaded
      obtain ⟨table, -, hfind⟩ := hloaded
      have hsource : plan.sourceTable = table := by simpa using find?_some hfind
      rw [hsource, hfind]
    intro a ha b hb hsource
    have hsame := hfirst a ha
    rw [hsource, hfirst b hb] at hsame
    exact (Option.some.inj hsame).symm
  · rintro ⟨hagree, hperm⟩
    have hall : (plans.map (·.sourceTable)).filterMap
        (fun table => plans.find? (·.sourceTable = table)) = plans := by
      rw [filterMap_map]
      refine (filterMap_congr fun plan hplan => ?_).trans filterMap_some
      have hsome : (plans.find? (·.sourceTable = plan.sourceTable)).isSome := by
        rw [find?_isSome]
        exact ⟨plan, hplan, by simp⟩
      obtain ⟨first, hfirst⟩ := Option.isSome_iff_exists.mp hsome
      have hsource : first.sourceTable = plan.sourceTable := by simpa using find?_some hfirst
      rw [Function.comp_apply, hfirst,
        hagree first (mem_of_find?_eq_some hfirst) plan hplan hsource]
    rw [hsequence]
    exact (hperm.filterMap _).trans (.of_eq hall)

/-! ## The order of the plans -/

/-- A foreign key of the child's schema says that the child references the
parent. -/
def References (foreignKeys : ForeignKeys) (database : Text) (child parent : TableRef) : Prop :=
  ∃ batch, foreignKeys database child.schema = .ok batch ∧
    ∃ fk ∈ batch, fk.tableName = child.name ∧ fk.referencedTable = parent.name

/-- Both are in the sequence, and the first is never behind the second. -/
def LoadedBefore (sequence : List MigrationTablePlan) (first second : MigrationTablePlan) : Prop :=
  first ∈ sequence ∧ second ∈ sequence ∧ sequence.Pairwise fun a b => ¬ (a = second ∧ b = first)

/-- Every plan whose source table is referenced by another planned table is loaded
before it. -/
def ParentsFirst (foreignKeys : ForeignKeys) (database : Text)
    (plans sequence : List MigrationTablePlan) : Prop :=
  ∀ child ∈ plans, ∀ parent ∈ plans,
    References foreignKeys database child.sourceTable parent.sourceTable →
    parent.sourceTable ≠ child.sourceTable → LoadedBefore sequence parent child

theorem resolveOrder_ok (h : resolveOrder plans order = .ok (.ordered sequence)) :
    plansOf plans order = .ok sequence := by
  unfold resolveOrder at h
  split at h
  · cases h
  · obtain ⟨_, hplans, ⟨⟩⟩ := map_eq_ok.mp h
    exact hplans

/-- What a resolved order is. -/
theorem resolvePlanOrder_iff {foreignKeys : ForeignKeys} {options : MigrationOptions}
    (h : resolvePlanOrder foreignKeys plans options = .ok (.ordered sequence)) :
    (sequence.Perm plans ∧ (options.manualOrder = none →
      ParentsFirst foreignKeys options.sourceDatabase plans sequence)) ↔
    SharedSourcesAgree plans ∧ ∀ order, options.manualOrder = some order →
      order.Perm (plans.map (·.sourceTable)) := by
  unfold resolvePlanOrder at h
  cases hmanual : options.manualOrder with
  | some order =>
    rw [hmanual] at h
    rw [plansOf_perm_iff (resolveOrder_ok h)]
    simp
  | none =>
    rw [hmanual] at h
    dsimp only at h
    split at h
    · cases h
    next fks hfks =>
    split at h
    next order horder =>
      have hplans := resolveOrder_ok h
      have hperm := topologicalOrder_perm horder
      have hpairwise := topologicalOrder_pairwise horder
      rw [(plansOf_ok hplans).1, pairwise_map] at hpairwise
      have hparents (hall : sequence.Perm plans) :
          ParentsFirst foreignKeys options.sourceDatabase plans sequence := by
        rintro child hchild parent hparent ⟨batch, hbatch, fk, hfk, hname⟩ -
        refine ⟨hall.mem_iff.mpr hparent, hall.mem_iff.mpr hchild, hpairwise.imp ?_⟩
        rintro a b hnot ⟨rfl, rfl⟩
        exact hnot fk (mem_fetchSchemas hfks (mem_schemasOf hchild) hbatch fk hfk) hname
      rw [plansOf_perm_iff hplans]
      constructor
      · rintro ⟨⟨hagree, -⟩, -⟩
        exact ⟨hagree, by simp⟩
      · rintro ⟨hagree, -⟩
        exact ⟨⟨hagree, hperm⟩, fun _ => hparents ((plansOf_perm_iff hplans).mpr ⟨hagree, hperm⟩)⟩
    next => cases h

/-! ## Runs -/

section

variable {V τ : Type} {null : V} {source : Connection V} {foreignKeys : ForeignKeys}
  {target : MigrationTarget V τ} {options : MigrationOptions} {fuel : ℕ}

/-- The plan was loaded or skipped to its end. -/
def MigratedTable.IsDone (table : MigratedTable) : Prop :=
  (∃ rows, table.status = .completed rows) ∨ table.status = .skipped

/-- The loop loads the plans of the sequence in their order, and all of them if
none is left over. -/
theorem migrateLoop_loaded {sequence : List MigrationTablePlan} {state : τ} {token : CancelToken}
    {migrated : Migrated τ}
    (h : migrateLoop null source target options fuel sequence state token = some migrated) :
    migrated.loaded <+: sequence ∧
      ((∀ table ∈ migrated.tables, table.IsDone) → migrated.loaded = sequence) := by
  induction sequence generalizing state token migrated with
  | nil =>
    cases h
    exact ⟨prefix_rfl, fun _ => rfl⟩
  | cons plan plans ih =>
    -- Plans that are left over are not done.
    have hleft (hdone : ∀ table ∈ plans.map (·.migrated .notStarted), table.IsDone) :
        plans = [] := by
      cases plans with
      | nil => rfl
      | cons next plans =>
        have hnext := hdone _ mem_cons_self
        simp [MigratedTable.IsDone, MigrationTablePlan.migrated] at hnext
    have hone : [plan] <+: plan :: plans := ⟨plans, rfl⟩
    rw [migrateLoop] at h
    split at h
    · cases h
      refine ⟨List.nil_prefix, fun hdone => ?_⟩
      have hplan := hdone _ mem_cons_self
      simp [MigratedTable.IsDone, MigrationTablePlan.migrated] at hplan
    split at h
    · cases h
    · cases h
      refine ⟨hone, fun hdone => ?_⟩
      rw [hleft fun table htable => hdone table (mem_cons_of_mem _ htable)]
    · dsimp only at h
      split at h
      · cases h
        refine ⟨hone, fun hdone => ?_⟩
        rw [hleft fun table htable => hdone table (mem_cons_of_mem _ htable)]
      · obtain ⟨rest, hrest, rfl⟩ := Option.map_eq_some_iff.mp h
        obtain ⟨hfront, hall⟩ : rest.loaded <+: plans ∧
            ((∀ table ∈ rest.tables, table.IsDone) → rest.loaded = plans) := ih hrest
        refine ⟨cons_prefix_cons.mpr ⟨rfl, hfront⟩, fun hdone => ?_⟩
        rw [hall fun table htable => hdone table (mem_cons_of_mem _ htable)]

/-- **Every plan once.** If a migration reaches its loading loop, it loads the plans
of its sequence in their order, all of them if none is left over; and the
sequence is a permutation of the plans, with referenced tables first if there
is no manual order, exactly if plans that share a source table are the same
plan and a manual order is a permutation of the source tables. -/
theorem loads_every_plan_iff {plans : List MigrationTablePlan} {state state' : τ}
    {token token' : CancelToken} {outcome : MigrationRunOutcome}
    (h : runMigration null source foreignKeys target options fuel plans state token =
      some (.ok (.completed outcome), state', token')) :
    outcome.loaded <+: outcome.sequence ∧
    ((∀ table ∈ outcome.tables, table.IsDone) → outcome.loaded = outcome.sequence) ∧
    ((outcome.sequence.Perm plans ∧ (options.manualOrder = none →
        ParentsFirst foreignKeys options.sourceDatabase plans outcome.sequence)) ↔
      SharedSourcesAgree plans ∧ ∀ order, options.manualOrder = some order →
        order.Perm (plans.map (·.sourceTable))) := by
  unfold runMigration at h
  split at h
  · simp at h
  split at h
  · simp at h
  · simp at h
  next sequence hresolved =>
  unfold loadPlans at h
  split at h
  · simp at h
  obtain ⟨migrated, hloop, h⟩ := Option.map_eq_some_iff.mp h
  obtain ⟨rfl, -⟩ := h
  obtain ⟨hfront, hall⟩ := migrateLoop_loaded hloop
  exact ⟨hfront, hall, resolvePlanOrder_iff hresolved⟩

end

/-! ## Runs on fixed plans -/

/-- A plan of a table that creates it again in the target. -/
def createPlan (name targetTable : String) : MigrationTablePlan :=
  ⟨⟨none, name.toList⟩, [], none, targetTable.toList, .create, none, none⟩

/-- A target that accepts every row and cannot switch off foreign keys. -/
def acceptingMigrationTarget : MigrationTarget ℕ Unit :=
  { acceptingTarget with
    supportsDisableFkChecks := false
    setReferentialIntegrity := fun _ state => (.ok (), state) }

/-- The table `a` references the table `b`. -/
def aReferencesB : ForeignKeys := fun _ _ => .ok [⟨['a'], ['b']⟩]

/-- Options with this manual order. -/
def orderedBy (manualOrder : Option (List TableRef)) : MigrationOptions :=
  ⟨10, [], [], false, false, manualOrder⟩

/-- Without a manual order, the referenced table is loaded first. -/
theorem referenced_table_first :
    ∃ outcome token, runMigration 0 (fun _ => .ok []) aReferencesB acceptingMigrationTarget
        (orderedBy none) 1 [createPlan "a" "a", createPlan "b" "b"] () ⟨none, 0⟩ =
          some (.ok (.completed outcome), (), token) ∧
      outcome.loaded = [createPlan "b" "b", createPlan "a" "a"] ∧
      outcome.sequence.Perm [createPlan "a" "a", createPlan "b" "b"] ∧
      ParentsFirst aReferencesB [] [createPlan "a" "a", createPlan "b" "b"] outcome.sequence := by
  obtain ⟨outcome, token, hrun, hloaded⟩ :
      ∃ outcome token, runMigration 0 (fun _ => .ok []) aReferencesB acceptingMigrationTarget
          (orderedBy none) 1 [createPlan "a" "a", createPlan "b" "b"] () ⟨none, 0⟩ =
            some (.ok (.completed outcome), (), token) ∧
        outcome.loaded = [createPlan "b" "b", createPlan "a" "a"] := ⟨_, _, rfl, rfl⟩
  obtain ⟨-, -, hall⟩ := loads_every_plan_iff hrun
  obtain ⟨hperm, hparents⟩ := hall.mpr ⟨by decide, by simp [orderedBy]⟩
  exact ⟨outcome, token, hrun, hloaded, hperm, hparents rfl⟩

/-- A manual order that has the table `a` twice loads its plan twice and drops the
other one. Two plans with the same source table load the first one twice, also
without a manual order. -/
theorem order_with_repeated_table :
    (∃ outcome token, runMigration 0 (fun _ => .ok []) aReferencesB acceptingMigrationTarget
        (orderedBy (some [⟨none, ['a']⟩, ⟨none, ['a']⟩])) 1
        [createPlan "a" "a", createPlan "b" "b"] () ⟨none, 0⟩ =
          some (.ok (.completed outcome), (), token) ∧
      outcome.loaded = [createPlan "a" "a", createPlan "a" "a"]) ∧
    (∃ outcome token, runMigration 0 (fun _ => .ok []) aReferencesB acceptingMigrationTarget
        (orderedBy none) 1 [createPlan "a" "x", createPlan "a" "y"] () ⟨none, 0⟩ =
          some (.ok (.completed outcome), (), token) ∧
      outcome.loaded = [createPlan "a" "x", createPlan "a" "x"]) :=
  ⟨⟨_, _, rfl, rfl⟩, _, _, rfl, rfl⟩

end Dbflux.Transfer
