import Dbflux.Lib.Kahn
import Dbflux.Lib.Text

/-!
# Load order of tables

`topological_order` (`dbflux_core/src/schema/dependency_order.rs`) orders tables
so that a table stands behind those it references. Foreign keys are matched by
table name only, and tables without open parents are taken in the order of schema
and name. If not every table can be taken, the strongly connected components of
the rest are returned.

Results:
* `topologicalOrder_perm`: an order has every table as often as it was given.
* `topologicalOrder_pairwise`: in an order no table stands behind another one that
  references it.
-/

namespace Dbflux.Schema

open Lib List

/-- `TableRef` (`table_browser.rs`, lines 154–159). -/
structure TableRef where
  schema : Option Text
  name : Text
  deriving DecidableEq, Repr

/-- What is used of `SchemaForeignKeyInfo` (`schema/types.rs`, lines 795–804). -/
structure SchemaForeignKeyInfo where
  tableName : Text
  referencedTable : Text
  deriving DecidableEq, Repr

/-- `OrderResult` (lines 17–29). -/
inductive OrderResult where
  | ordered (order : List TableRef)
  | cyclic (orderedPrefix cycle : List TableRef)
  deriving DecidableEq, Repr

/-! ## Edges -/

/-- `name_to_indices` (lines 51–57). -/
def nameToIndices (tables : List TableRef) (name : Text) : List ℕ :=
  (List.range tables.length).filter fun index => tables[index]?.any (·.name = name)

/-- The pairs of parent and child of a foreign key, in the order of the two loops
(lines 72–77). A table is no parent of itself. -/
def candidateEdges (tables : List TableRef) (fk : SchemaForeignKeyInfo) : List (ℕ × ℕ) :=
  (nameToIndices tables fk.tableName).flatMap fun child =>
    ((nameToIndices tables fk.referencedTable).filter fun parent => child ≠ parent).map
      fun parent => (parent, child)

/-- `seen_edges.insert` (line 78). -/
def insertEdge (edges : List (ℕ × ℕ)) (edge : ℕ × ℕ) : List (ℕ × ℕ) :=
  if edge ∈ edges then edges else edges ++ [edge]

/-- The edges that `children` and `in_degree` are built from
(lines 59–84). -/
def edgesOf (tables : List TableRef) (fks : List SchemaForeignKeyInfo) : List (ℕ × ℕ) :=
  (fks.flatMap (candidateEdges tables)).foldl insertEdge []

/-! ## Components -/

/-- `State` of `tarjan_scc` (lines 163–172). -/
structure TarjanState where
  indexCounter : ℕ
  stack : List ℕ
  indices : ℕ → Option ℕ
  lowlink : ℕ → ℕ
  sccs : List (List ℕ)

/-- Pops the stack up to a node (lines 200–207); the top is
the head. -/
def popUpTo (node : ℕ) : List ℕ → List ℕ × List ℕ
  | [] => ([], [])
  | top :: stack =>
    if top = node then ([top], stack)
    else
      let (component, rest) := popUpTo node stack
      (top :: component, rest)

/-- `strongconnect` (lines 175–209), to a depth of at most
`fuel` calls. A node is on the stack if it is in `stack`. -/
def strongconnect (children : ℕ → List ℕ) (allowed : List ℕ) :
    ℕ → ℕ → TarjanState → TarjanState
  | 0, _, s => s
  | fuel + 1, v, s =>
    let entered : TarjanState :=
      { s with
        indices := Function.update s.indices v (some s.indexCounter)
        lowlink := Function.update s.lowlink v s.indexCounter
        indexCounter := s.indexCounter + 1
        stack := v :: s.stack }
    let visited := (children v).foldl (fun (s : TarjanState) w =>
      if w ∉ allowed then s
      else
        match s.indices w with
        | none =>
          let s := strongconnect children allowed fuel w s
          { s with lowlink := Function.update s.lowlink v (min (s.lowlink v) (s.lowlink w)) }
        | some index =>
          if w ∈ s.stack then
            { s with lowlink := Function.update s.lowlink v (min (s.lowlink v) index) }
          else s) entered
    if some (visited.lowlink v) = visited.indices v then
      let (component, stack) := popUpTo v visited.stack
      { visited with stack := stack, sccs := visited.sccs ++ [component] }
    else visited

/-- `tarjan_scc` (lines 162–230). -/
def tarjanScc (nodes : List ℕ) (children : ℕ → List ℕ) : List (List ℕ) :=
  (nodes.foldl (fun (s : TarjanState) v =>
    if (s.indices v).isNone then strongconnect children nodes (nodes.length + 1) v s else s)
    ⟨0, [], fun _ => none, fun _ => 0, []⟩).sccs

/-! ## Order -/

/-- `sort_key` (lines 86–89). -/
def sortKey (tables : List TableRef) (index : ℕ) : Text × Text :=
  match tables[index]? with
  | some table => (table.schema.getD [], table.name)
  | none => ([], [])

/-- The order of the keys: by schema, then by name. -/
def keyLe (a b : Text × Text) : Bool := a.1 < b.1 || (a.1 = b.1 && a.2 ≤ b.2)

/-- `sort_by_key(|&i| sort_key(i))`, a stable sort. -/
def sortByKey (tables : List TableRef) (indices : List ℕ) : List ℕ :=
  indices.insertionSort fun a b => keyLe (sortKey tables a) (sortKey tables b) = true

/-- `tables[i].clone()` for each index. -/
def tablesAt (tables : List TableRef) (indices : List ℕ) : List TableRef :=
  indices.filterMap (tables[·]?)

/-- The `while` loop (lines 91–112). -/
def orderedIndices (tables : List TableRef) (fks : List SchemaForeignKeyInfo) : List ℕ :=
  let edges := edgesOf tables fks
  (Kahn.run edges (sortByKey tables) tables.length
    (Kahn.start edges (sortByKey tables) (List.range tables.length))).ordered

/-- `topological_order` (lines 48–143). -/
def topologicalOrder (tables : List TableRef) (fks : List SchemaForeignKeyInfo) : OrderResult :=
  let ordered := orderedIndices tables fks
  if ordered.length = tables.length then .ordered (tablesAt tables ordered)
  else
    let remaining := (List.range tables.length).filter (· ∉ ordered)
    let cycle := (tarjanScc remaining (Kahn.children (edgesOf tables fks))).flatten
    .cyclic (tablesAt tables ordered) (tablesAt tables (sortByKey tables cycle))

/-! ## What the edges are -/

variable {tables : List TableRef} {fks : List SchemaForeignKeyInfo}

theorem mem_nameToIndices {name : Text} {index : ℕ} :
    index ∈ nameToIndices tables name ↔ ∃ table, tables[index]? = some table ∧ table.name = name := by
  simp only [nameToIndices, mem_filter, mem_range, Option.any_eq_true, decide_eq_true_eq]
  constructor
  · rintro ⟨-, table, htable, hname⟩
    exact ⟨table, htable, hname⟩
  · rintro ⟨table, htable, hname⟩
    exact ⟨(List.getElem?_eq_some_iff.mp htable).1, table, htable, hname⟩

theorem foldl_insertEdge (candidates edges : List (ℕ × ℕ)) (hedges : edges.Nodup) :
    (candidates.foldl insertEdge edges).Nodup ∧
      ∀ edge, edge ∈ candidates.foldl insertEdge edges ↔ edge ∈ edges ∨ edge ∈ candidates := by
  induction candidates generalizing edges with
  | nil => simp [hedges]
  | cons candidate candidates ih =>
    rw [foldl_cons, insertEdge]
    split
    next hin =>
      obtain ⟨hnodup, hmem⟩ := ih edges hedges
      refine ⟨hnodup, fun edge => ?_⟩
      rw [hmem, mem_cons]
      constructor
      · rintro (h | h)
        · exact .inl h
        · exact .inr (.inr h)
      · rintro (h | rfl | h)
        · exact .inl h
        · exact .inl hin
        · exact .inr h
    next hout =>
      obtain ⟨hnodup, hmem⟩ := ih (edges ++ [candidate])
        (nodup_append.mpr ⟨hedges, nodup_singleton _, by
          rintro a ha b hb rfl
          exact hout (mem_singleton.mp hb ▸ ha)⟩)
      refine ⟨hnodup, fun edge => ?_⟩
      rw [hmem, mem_append, mem_singleton, mem_cons, or_assoc]

theorem nodup_edgesOf : (edgesOf tables fks).Nodup :=
  (foldl_insertEdge _ [] .nil).1

/-- There is an edge from each table a foreign key references to each table it
belongs to, except from a table to itself. -/
theorem mem_edgesOf {parent child : ℕ} :
    (parent, child) ∈ edgesOf tables fks ↔ child ≠ parent ∧ ∃ fk ∈ fks,
      child ∈ nameToIndices tables fk.tableName ∧
      parent ∈ nameToIndices tables fk.referencedTable := by
  rw [edgesOf, (foldl_insertEdge _ [] .nil).2]
  simp only [not_mem_nil, false_or, mem_flatMap, candidateEdges, mem_map,
    mem_filter, decide_eq_true_eq, Prod.mk.injEq]
  constructor
  · rintro ⟨fk, hfk, child', hchild, parent', ⟨hparent, hne⟩, rfl, rfl⟩
    exact ⟨hne, fk, hfk, hchild, hparent⟩
  · rintro ⟨hne, fk, hfk, hchild, hparent⟩
    exact ⟨fk, hfk, child, hchild, parent, ⟨hparent, hne⟩, rfl, rfl⟩

theorem edgesOf_inside : ∀ edge ∈ edgesOf tables fks, edge.2 ∈ List.range tables.length := by
  rintro ⟨parent, child⟩ hedge
  obtain ⟨-, fk, -, hchild, -⟩ := mem_edgesOf.mp hedge
  obtain ⟨table, htable, -⟩ := mem_nameToIndices.mp hchild
  exact List.mem_range.mpr (List.getElem?_eq_some_iff.mp htable).1

theorem perm_sortByKey (indices : List ℕ) : (sortByKey tables indices).Perm indices :=
  perm_insertionSort _ _

/-! ## Results -/

theorem tablesAt_range : tablesAt tables (List.range tables.length) = tables := by
  induction tables using List.reverseRecOn with
  | nil => rfl
  | append_singleton tables table ih =>
    have hfront : (List.range tables.length).filterMap ((tables ++ [table])[·]?) = tables := by
      refine (filterMap_congr ?_).trans ih
      intro index hindex
      exact getElem?_append_left (List.mem_range.mp hindex)
    rw [tablesAt, length_append, length_singleton, range_succ, filterMap_append, hfront]
    simp

theorem perm_orderedIndices (h : (orderedIndices tables fks).length = tables.length) :
    (orderedIndices tables fks).Perm (List.range tables.length) :=
  Kahn.perm_run nodup_range nodup_edgesOf edgesOf_inside perm_sortByKey
    (by rw [length_range]; exact h)

variable {order : List TableRef}

variable (h : topologicalOrder tables fks = .ordered order)
include h

theorem topologicalOrder_eq_ordered : (orderedIndices tables fks).length = tables.length ∧
      order = tablesAt tables (orderedIndices tables fks) := by
  unfold topologicalOrder at h
  dsimp only at h
  split at h
  next hlength => exact ⟨hlength, (OrderResult.ordered.inj h).symm⟩
  next => cases h

/-- An order has every table as often as it was given. -/
theorem topologicalOrder_perm : order.Perm tables := by
  obtain ⟨hlength, rfl⟩ := topologicalOrder_eq_ordered h
  have hperm := (perm_orderedIndices hlength).filterMap (tables[·]?)
  exact hperm.trans (.of_eq tablesAt_range)

/-- In an order no table stands behind one that references it. -/
theorem topologicalOrder_pairwise :
    order.Pairwise fun a b => ∀ fk ∈ fks, ¬ (fk.tableName = a.name ∧ fk.referencedTable = b.name) := by
  obtain ⟨hlength, rfl⟩ := topologicalOrder_eq_ordered h
  have hnodup : (orderedIndices tables fks).Nodup :=
    (perm_orderedIndices hlength).nodup_iff.mpr nodup_range
  have hkahn : (orderedIndices tables fks).Pairwise fun a b => (b, a) ∉ edgesOf tables fks :=
    Kahn.pairwise_run nodup_range nodup_edgesOf edgesOf_inside perm_sortByKey tables.length
  rw [tablesAt, pairwise_filterMap]
  refine (hkahn.and hnodup).imp ?_
  rintro i j ⟨hedge, hne⟩ a ha b hb fk hfk ⟨hchild, hparent⟩
  exact hedge (mem_edgesOf.mpr ⟨hne, fk, hfk, mem_nameToIndices.mpr ⟨a, ha, hchild.symm⟩,
    mem_nameToIndices.mpr ⟨b, hb, hparent.symm⟩⟩)

omit h

end Dbflux.Schema
