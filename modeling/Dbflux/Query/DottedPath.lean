import Dbflux.Lib.Ensures
import Dbflux.Lib.Numeral

/-!
# Dotted paths of a relational filter

The resolver of `dbflux_core/src/query/relational_filter/resolver.rs` turns each
segment of a path such as `customer.country.name` into a join over the foreign key
that matches it. Matching keys are told apart by their names alone, which may be
empty or shared, and the alias of a join is numbered by the table it is for.

Results:
* `lowerExpr_follows`: a filter is refused as ambiguous exactly at the first of its
  hops for which two of the matching keys have different names.
* `lowerExpr_keeps`: the aliases of a lowered filter are numbered apart.
* `resolve_safe`: what follows for the keys that differ and for the aliases of
  `resolve`.
-/

namespace Dbflux.Query.Relational

open Lib List

/-! ## Data -/

structure ForeignKey where
  name : Text
  tableName : Text
  columns : List Text
  referencedTable : Text
  referencedColumns : List Text

/-- An inner join over one column; `to_schema` is always the source's. -/
structure JoinStep where
  fromAlias : Text
  toTable : Text
  toAlias : Text
  fromColumn : Text
  toColumn : Text

structure FkSummary where
  fkName : Option Text
  localColumns : List Text
  referencedTable : Text
  referencedColumns : List Text

def FkSummary.fromFk (fk : ForeignKey) : FkSummary where
  fkName := if fk.name.isEmpty then none else some fk.name
  localColumns := fk.columns
  referencedTable := fk.referencedTable
  referencedColumns := fk.referencedColumns

/-- The errors, with the joins of the partial spec. -/
inductive ResolveError
  | ambiguous (segment fromTable : Text) (candidates : List FkSummary) (joins : List JoinStep)
  | unknown (segment fromTable : Text) (joins : List JoinStep)

inductive Lhs
  | bareColumn (column : Text)
  | dottedPath (segments : List Text)

/-- A parsed filter; `π` is the comparator and the value, which are passed on. -/
inductive FilterExpr (π : Type)
  | predicate (lhs : Lhs) (rhs : π)
  | bool (isAnd : Bool) (children : List (FilterExpr π))

inductive FilterNode (π : Type)
  | predicate (sourceAlias column : Text) (rhs : π)
  | group (isAnd : Bool) (children : List (FilterNode π))

/-- `normalize_identifier` of the dialect, and `str::to_lowercase`, to which an
underscore and digits at the end make no difference. -/
structure Folding where
  normalize : Text → Text
  lower : Text → Text
  lower_numbered : ∀ text n, lower (text ++ '_' :: decimal n) = lower text ++ '_' :: decimal n

/-- `ResolveCtx`, with the map of `AliasGen`. -/
structure Ctx where
  joins : List JoinStep
  used : Text → ℕ
  relationalPredicateCount : ℕ

abbrev Resolve := EStateM ResolveError Ctx

/-! ## The resolver -/

/-- The alias of the `n`-th use of a table. -/
def numbered (table : Text) (n : ℕ) : Text := if n = 1 then table else table ++ '_' :: decimal n

section Resolver

variable (fold : Folding) (fks : List ForeignKey)

/-- `AliasGen::next_alias`. -/
def nextAlias (table : Text) (ctx : Ctx) : Text × Ctx :=
  let count := ctx.used (fold.lower table) + 1
  (numbered table count, { ctx with used := Function.update ctx.used (fold.lower table) count })

def candidatesForTable (table : Text) : List ForeignKey :=
  fks.filter fun fk => fold.normalize fk.tableName = fold.normalize table

/-- The keys whose first column is named like the segment. -/
def firstPass (segment table : Text) : List ForeignKey :=
  let normSeg := fold.normalize segment
  (candidatesForTable fold fks table).filter fun fk => fk.columns.head?.any fun column =>
    fold.normalize column ∈ [normSeg, normSeg ++ ['_', 'i', 'd'], normSeg ++ ['i', 'd']]

/-- The keys to a table whose name starts with the segment. -/
def secondPass (segment table : Text) : List ForeignKey :=
  (candidatesForTable fold fks table).filter fun fk =>
    (fold.normalize segment).isPrefixOf (fold.normalize fk.referencedTable)

/-- The keys that match, before and after `dedup_by_key`. -/
def matching (segment table : Text) : List ForeignKey :=
  let first := firstPass fold fks segment table
  if first.isEmpty then secondPass fold fks segment table else first

def deduplicated (segment table : Text) : List ForeignKey :=
  (matching fold fks segment table).destutter fun a b => a.name ≠ b.name

/-- `resolve_hop` (lines 283–364). -/
def resolveHop (segment table : Text) : Resolve (ForeignKey × Text) := fun ctx =>
  match deduplicated fold fks segment table with
  | [] => .error (.unknown segment table ctx.joins) ctx
  | [fk] =>
    let (next, ctx) := nextAlias fold fk.referencedTable ctx
    .ok (fk, next) ctx
  | several => .error (.ambiguous segment table (several.map .fromFk) ctx.joins) ctx

/-- The hops of `lower_predicate` from the table and the alias it has reached. -/
def lowerHops : List Text → Text × Text → Resolve (Text × Text)
  | [], reached => pure reached
  | segment :: hops, (table, tableAlias) => do
    let hop ← resolveHop fold fks segment table
    match hop.1.columns.head?, hop.1.referencedColumns.head? with
    | some fromColumn, some toColumn =>
      modify fun ctx => { ctx with joins := ctx.joins ++
        [⟨tableAlias, hop.1.referencedTable, hop.2, fromColumn, toColumn⟩] }
      lowerHops hops (hop.1.referencedTable, hop.2)
    | _, _ => fun ctx => .error (.unknown segment table ctx.joins) ctx

variable {π : Type} (source : Text × Text)

/-- `lower_predicate` (lines 203–278); the source's alias also stands for its table. -/
def lowerPredicate (lhs : Lhs) (rhs : π) : Resolve (FilterNode π) :=
  match lhs with
  | .bareColumn column => pure (.predicate source.2 column rhs)
  | .dottedPath segments =>
    match segments.getLast? with
    | none => fun ctx => .error (.unknown [] source.2 ctx.joins) ctx
    | some column => do
      let reached ← lowerHops fold fks segments.dropLast (source.2, source.2)
      modify fun ctx => { ctx with relationalPredicateCount := ctx.relationalPredicateCount + 1 }
      return .predicate reached.2 column rhs

mutual

/-- `lower_expr`. -/
def lowerExpr : FilterExpr π → Resolve (FilterNode π)
  | .predicate lhs rhs => lowerPredicate fold fks source lhs rhs
  | .bool isAnd children => do return .group isAnd (← lowerChildren children)

def lowerChildren : List (FilterExpr π) → Resolve (List (FilterNode π))
  | [] => pure []
  | child :: rest => do return (← lowerExpr child) :: (← lowerChildren rest)

end

/-- The context `resolve` starts with; `source` is the table and its alias. -/
def startCtx : Ctx :=
  ⟨[], Function.update (fun _ => 0) (fold.lower source.1) 1, 0⟩

/-- `resolve` (lines 133–174). -/
def resolve (root : FilterExpr π) : EStateM.Result ResolveError Ctx (FilterNode π) :=
  lowerExpr fold fks source root (startCtx fold source)

end Resolver

/-! ## Ambiguous segments -/

variable {fold : Folding} {fks : List ForeignKey} {source : Text × Text} {π : Type}

theorem destutter'_eq_singleton_iff (a : ForeignKey) (l : List ForeignKey) :
    l.destutter' (fun a b => a.name ≠ b.name) a = [a] ↔ ∀ b ∈ l, a.name = b.name := by
  induction l with
  | nil => simp
  | cons b l ih =>
    by_cases hname : a.name = b.name
    · rw [destutter'_cons_neg _ (not_not.mpr hname), ih]
      simp [hname]
    · rw [destutter'_cons_pos _ hname]
      simp [hname, destutter'_ne_nil]

section Hops

variable (fold fks)

/-- Two of the keys that match a segment at a table have different names. -/
def Split (hop : Text × Text) : Prop :=
  ∃ a ∈ matching fold fks hop.1 hop.2, ∃ b ∈ matching fold fks hop.1 hop.2, a.name ≠ b.name

/-- The hops of a path, each a segment and the table it starts from, up to the first
that is not joined, and whether all are. -/
def pathHops : List Text → Text → List (Text × Text) × Bool
  | [], _ => ([], true)
  | segment :: hops, table =>
    match deduplicated fold fks segment table with
    | [fk] =>
      if fk.columns = [] ∨ fk.referencedColumns = [] then ([(segment, table)], false)
      else ((segment, table) :: (pathHops hops fk.referencedTable).1,
        (pathHops hops fk.referencedTable).2)
    | _ => ([(segment, table)], false)

/-- The hops of one predicate. -/
def predicateHops (source : Text) : Lhs → List (Text × Text) × Bool
  | .bareColumn _ => ([], true)
  | .dottedPath segments =>
    if segments = [] then ([], false) else pathHops fold fks segments.dropLast source

/-- The second hops are made if the first ones all are. -/
def thenHops (first second : List (Text × Text) × Bool) : List (Text × Text) × Bool :=
  if first.2 then (first.1 ++ second.1, second.2) else first

mutual

/-- The hops of a filter, in the order in which they are made. -/
def exprHops (source : Text) : FilterExpr π → List (Text × Text) × Bool
  | .predicate lhs _ => predicateHops fold fks source lhs
  | .bool _ children => childrenHops source children

def childrenHops (source : Text) : List (FilterExpr π) → List (Text × Text) × Bool
  | [] => ([], true)
  | child :: rest => thenHops (exprHops source child) (childrenHops source rest)

end

/-- What a computation returns, by the hops it makes. -/
def Follows {α : Type} (m : Resolve α) (hops : List (Text × Text) × Bool) : Prop :=
  ∀ ctx, match m ctx with
    | .ok _ _ => hops.2 = true ∧ ∀ hop ∈ hops.1, ¬ Split fold fks hop
    | .error (.unknown _ _ _) _ => hops.2 = false ∧ ∀ hop ∈ hops.1, ¬ Split fold fks hop
    | .error (.ambiguous segment table _ _) _ => hops.2 = false ∧ Split fold fks (segment, table) ∧
      (segment, table) ∈ hops.1 ∧ ∀ hop ∈ hops.1, Split fold fks hop → hop = (segment, table)

end Hops

/-- Keys with different names remain next to each other. -/
theorem split_iff (segment table : Text) : Split fold fks (segment, table) ↔
    1 < (deduplicated fold fks segment table).length := by
  unfold Split deduplicated
  dsimp only
  cases matching fold fks segment table with
  | nil => simp
  | cons a l =>
    have hsame : (∃ x ∈ a :: l, ∃ y ∈ a :: l, x.name ≠ y.name) ↔ ¬ ∀ b ∈ l, a.name = b.name := by
      grind
    rw [hsame, ← destutter'_eq_singleton_iff, destutter_cons']
    have hmem := mem_destutter' (R := fun a b : ForeignKey => a.name ≠ b.name) (l := l) a
    generalize l.destutter' (fun a b => a.name ≠ b.name) a = kept at hmem
    match kept, hmem with
    | [fk], hmem => simp [mem_singleton.mp hmem]
    | _ :: _ :: _, _ => simp

theorem Follows.bind {α β : Type} {m : Resolve α} {f : α → Resolve β}
    {first second : List (Text × Text) × Bool} (hm : Follows fold fks m first)
    (hf : ∀ a, Follows fold fks (f a) second) :
    Follows fold fks (m >>= f) (thenHops first second) := by
  intro ctx
  have hfirst := hm ctx
  simp only [Bind.bind, EStateM.bind, thenHops]
  cases hrun : m ctx with
  | error e after =>
    rw [hrun] at hfirst
    cases e <;> rw [if_neg (by simp [hfirst.1])] <;> exact hfirst
  | ok a after =>
    rw [hrun] at hfirst
    have hsecond := hf a after
    rw [if_pos hfirst.1]
    dsimp only
    cases hrest : f a after with
    | ok b last =>
      rw [hrest] at hsecond
      exact ⟨hsecond.1, forall_mem_append.mpr ⟨hfirst.2, hsecond.2⟩⟩
    | error e last =>
      rw [hrest] at hsecond
      cases e with
      | unknown => exact ⟨hsecond.1, forall_mem_append.mpr ⟨hfirst.2, hsecond.2⟩⟩
      | ambiguous =>
        obtain ⟨hthrough, hsplit, hmem, hall⟩ := hsecond
        exact ⟨hthrough, hsplit, mem_append_right _ hmem, forall_mem_append.mpr
          ⟨fun hop hhop h => absurd h (hfirst.2 hop hhop), hall⟩⟩

theorem Follows.pure {α : Type} (a : α) : Follows fold fks (pure a) ([], true) :=
  fun _ => ⟨rfl, by simp⟩

/-- A computation that always goes through makes no hops of its own. -/
theorem Follows.andThen {α β : Type} {m : Resolve α} {f : α → Resolve β}
    {hops : List (Text × Text) × Bool} (hm : Follows fold fks m hops)
    (hf : ∀ a, Follows fold fks (f a) ([], true)) : Follows fold fks (m >>= f) hops := by
  have h := hm.bind hf
  rcases hops with ⟨hops, _ | _⟩ <;> simpa [thenHops] using h

theorem lowerHops_follows (hops : List Text) (reached : Text × Text) :
    Follows fold fks (lowerHops fold fks hops reached) (pathHops fold fks hops reached.1) := by
  induction hops generalizing reached with
  | nil => exact .pure _
  | cons segment hops ih =>
    have hsplit := @split_iff fold fks segment reached.1
    intro ctx
    unfold lowerHops pathHops
    simp only [Bind.bind, EStateM.bind, resolveHop]
    match hkeys : deduplicated fold fks segment reached.1 with
    | [] => exact ⟨rfl, by simp [hsplit, hkeys]⟩
    | a :: b :: more =>
      refine ⟨rfl, hsplit.mpr (by simp [hkeys]), mem_singleton_self _, fun hop hhop _ => ?_⟩
      exact mem_singleton.mp hhop
    | [fk] =>
      have hnot : ¬ Split fold fks (segment, reached.1) := by simp [hsplit, hkeys]
      dsimp only
      cases hfrom : fk.columns.head? with
      | none =>
        rw [head?_eq_none_iff] at hfrom
        simpa [hfrom] using hnot
      | some fromColumn =>
        cases hto : fk.referencedColumns.head? with
        | none =>
          rw [head?_eq_none_iff] at hto
          simpa [hto] using hnot
        | some toColumn =>
          have hfrom' : fk.columns ≠ [] := fun h => by simp [h] at hfrom
          have hto' : fk.referencedColumns ≠ [] := fun h => by simp [h] at hto
          rw [if_neg (not_or.mpr ⟨hfrom', hto'⟩)]
          -- this hop is made, and the others follow
          have hmade : Follows fold fks (Pure.pure () : Resolve Unit) ([(segment, reached.1)], true) :=
            fun _ => ⟨rfl, by simpa using hnot⟩
          exact hmade.bind (fun _ => ih (fk.referencedTable, _)) _

theorem lowerPredicate_follows (lhs : Lhs) (rhs : π) :
    Follows fold fks (lowerPredicate fold fks source lhs rhs)
      (predicateHops fold fks source.2 lhs) := by
  cases lhs with
  | bareColumn column => exact .pure _
  | dottedPath segments =>
    unfold lowerPredicate predicateHops
    dsimp only
    cases hlast : segments.getLast? with
    | none =>
      rw [if_pos (getLast?_eq_none_iff.mp hlast)]
      exact fun _ => ⟨rfl, by simp⟩
    | some column =>
      rw [if_neg (fun h => by simp [h] at hlast)]
      exact (lowerHops_follows _ _).andThen fun _ _ => ⟨rfl, by simp⟩

mutual

/-- **A filter is ambiguous at the first hop whose keys have different names.** -/
theorem lowerExpr_follows : ∀ root : FilterExpr π,
    Follows fold fks (lowerExpr fold fks source root) (exprHops fold fks source.2 root)
  | .predicate lhs rhs => lowerPredicate_follows lhs rhs
  | .bool _ children => (lowerChildren_follows children).andThen fun _ => .pure _

theorem lowerChildren_follows : ∀ children : List (FilterExpr π),
    Follows fold fks (lowerChildren fold fks source children)
      (childrenHops fold fks source.2 children)
  | [] => .pure _
  | child :: rest => (lowerExpr_follows child).bind fun _ =>
      (lowerChildren_follows rest).andThen fun _ => .pure _

end

/-! ## Aliases -/

/-- Every join is the `n`-th use of a table, and no use is made twice. -/
structure Numbered (fold : Folding) (source : Text) (ctx : Ctx)
    (uses : List (Text × ℕ)) : Prop where
  aliases : ctx.joins.map (fun join => (join.toTable, join.toAlias)) =
    uses.map fun use => (use.1, numbered use.1 use.2)
  apart : (((source, 1) :: uses).map fun use => (fold.lower use.1, use.2)).Nodup
  counted : ∀ use ∈ (source, 1) :: uses, 0 < use.2 ∧ use.2 ≤ ctx.used (fold.lower use.1)
  begun : ∀ name, 0 < ctx.used name → ∃ use ∈ (source, 1) :: uses, fold.lower use.1 = name ∧ use.2 = 1

/-- What the computation leaves is numbered apart if its start is. -/
def Keeps {α : Type} (fold : Folding) (source : Text) (m : Resolve α) : Prop :=
  ∀ ctx, (∃ uses, Numbered fold source ctx uses) →
    Leaves m ctx fun _ after => ∃ uses, Numbered fold source after uses

theorem Numbered.step {ctx : Ctx} {uses : List (Text × ℕ)} {table : Text}
    (h : Numbered fold source.1 ctx uses) (join : JoinStep) (htable : join.toTable = table)
    (hjoin : join.toAlias = numbered table (ctx.used (fold.lower table) + 1)) :
    Numbered fold source.1 { (nextAlias fold table ctx).2 with joins := ctx.joins ++ [join] }
      (uses ++ [(table, ctx.used (fold.lower table) + 1)]) where
  aliases := by rw [map_append, map_append, h.aliases, map_singleton, map_singleton, htable, hjoin]
  apart := by
    rw [← cons_append, map_append, map_singleton]
    refine h.apart.append (nodup_singleton _) ?_
    rw [disjoint_singleton]
    intro hmem
    obtain ⟨use, huse, heq⟩ := mem_map.mp hmem
    have hle := h.counted use huse
    simp only [Prod.mk.injEq] at heq
    rw [heq.1] at hle
    omega
  counted := by
    rw [← cons_append]
    refine forall_mem_append.mpr ⟨fun use huse => ?_, by simp [nextAlias]⟩
    have hle := h.counted use huse
    by_cases hsame : fold.lower use.1 = fold.lower table
    · rw [hsame] at hle ⊢
      simp only [nextAlias, Function.update_self]
      omega
    · simpa only [nextAlias, Function.update_of_ne hsame]
  begun := by
    intro name hname
    by_cases hsame : name = fold.lower table
    · subst hsame
      by_cases hfirst : ctx.used (fold.lower table) = 0
      · exact ⟨(table, 1), by simp [hfirst], rfl, rfl⟩
      · obtain ⟨use, huse, heq⟩ := h.begun _ (Nat.pos_of_ne_zero hfirst)
        exact ⟨use, mem_append_left _ huse, heq⟩
    · simp only [nextAlias, Function.update_of_ne hsame] at hname
      obtain ⟨use, huse, heq⟩ := h.begun name hname
      exact ⟨use, mem_append_left _ huse, heq⟩

theorem resolveHop_leaves (segment table : Text) {ctx : Ctx}
    (h : ∃ uses, Numbered fold source.1 ctx uses) :
    Leaves (resolveHop fold fks segment table) ctx fun hop after => ∀ join : JoinStep,
      join.toTable = hop.1.referencedTable → join.toAlias = hop.2 →
        ∃ uses, Numbered fold source.1 { after with joins := after.joins ++ [join] } uses := by
  obtain ⟨uses, h⟩ := h
  unfold Leaves Ensures resolveHop
  match deduplicated fold fks segment table with
  | [] | _ :: _ :: _ => trivial
  | [fk] => exact fun join htable hjoin => ⟨_, h.step join htable hjoin⟩

theorem lowerHops_keeps (hops : List Text) (reached : Text × Text) :
    Keeps fold source.1 (lowerHops fold fks hops reached) := by
  induction hops generalizing reached with intro ctx h
  | nil => exact .pure h
  | cons segment hops ih =>
    refine (resolveHop_leaves segment reached.1 h).next fun hop after hafter => ?_
    cases hop.1.columns.head? with
    | none => trivial
    | some fromColumn =>
      cases hop.1.referencedColumns.head? with
      | none => trivial
      | some toColumn => exact .bind (.modify (ih _ _ (hafter _ rfl rfl)))

theorem lowerPredicate_keeps (lhs : Lhs) (rhs : π) :
    Keeps fold source.1 (lowerPredicate fold fks source lhs rhs) := by
  intro ctx h
  unfold lowerPredicate
  split
  · exact .pure h
  · split
    · trivial
    · refine (lowerHops_keeps _ _ ctx h).next fun reached after ⟨uses, h⟩ => ?_
      exact .bind (.modify (.pure ⟨uses, { h with }⟩))

mutual

theorem lowerExpr_keeps : ∀ root : FilterExpr π, Keeps fold source.1 (lowerExpr fold fks source root)
  | .predicate lhs rhs => lowerPredicate_keeps lhs rhs
  | .bool _ children => fun ctx h =>
    (lowerChildren_keeps children ctx h).next fun _ _ h => Ensures.pure h

theorem lowerChildren_keeps : ∀ children : List (FilterExpr π),
    Keeps fold source.1 (lowerChildren fold fks source children)
  | [] => fun _ h => Ensures.pure h
  | child :: rest => fun ctx h => (lowerExpr_keeps child ctx h).next fun _ after h =>
      (lowerChildren_keeps rest after h).next fun _ _ h => Ensures.pure h

end

theorem append_decimal_inj {s t : Text} {m n : ℕ}
    (h : s ++ '_' :: decimal m = t ++ '_' :: decimal n) : s = t ∧ m = n := by
  have htake : ∀ k u, ((decimal k).reverse ++ '_' :: u).takeWhile (· ≠ '_') =
      (decimal k).reverse := by
    intro k u
    rw [takeWhile_append_of_pos, takeWhile_cons_of_neg (by simp), append_nil]
    rintro c hc
    have hdigit := isAsciiDigit_of_mem_decimal (mem_reverse.mp hc)
    exact decide_eq_true fun heq => absurd (heq ▸ hdigit) (by decide)
  have hreverse := congrArg List.reverse h
  simp only [reverse_append, reverse_cons, append_assoc, singleton_append] at hreverse
  have hdigits := congrArg (takeWhile (· ≠ '_')) hreverse
  rw [htake, htake] at hdigits
  obtain rfl := decimal_injective (reverse_injective hdigits)
  exact ⟨append_cancel_right h, rfl⟩

/-- Two uses with one alias are the same use, or one of them is numbered and the other
is of a table with that name. -/
theorem lower_numbered_eq {a b : Text × ℕ}
    (h : fold.lower (numbered a.1 a.2) = fold.lower (numbered b.1 b.2)) :
    (fold.lower a.1, a.2) = (fold.lower b.1, b.2) ∨
      (a.2 ≠ 1 ∧ b.2 = 1 ∧ fold.lower b.1 = fold.lower (numbered a.1 a.2)) ∨
      (b.2 ≠ 1 ∧ a.2 = 1 ∧ fold.lower a.1 = fold.lower (numbered b.1 b.2)) := by
  by_cases ha : a.2 = 1 <;> by_cases hb : b.2 = 1
  · left
    rw [numbered, numbered, if_pos ha, if_pos hb] at h
    rw [h, ha, hb]
  · rw [numbered, if_pos ha] at h
    exact .inr (.inr ⟨hb, ha, h⟩)
  · rw [eq_comm, numbered, if_pos hb] at h
    exact .inr (.inl ⟨ha, hb, h⟩)
  · left
    rw [numbered, numbered, if_neg ha, if_neg hb, fold.lower_numbered, fold.lower_numbered] at h
    obtain ⟨htext, hcount⟩ := append_decimal_inj h
    rw [htext, hcount]

/-- The first use of a table that is not the source's is not numbered. -/
theorem Numbered.first_use {ctx : Ctx} {uses : List (Text × ℕ)}
    (h : Numbered fold source.1 ctx uses) {use : Text × ℕ} (huse : use ∈ uses)
    (hother : fold.lower use.1 ≠ fold.lower source.1) : ∃ first ∈ uses, first.2 = 1 ∧
      fold.lower (numbered first.1 first.2) = fold.lower use.1 := by
  obtain ⟨hpos, hle⟩ := h.counted use (mem_cons_of_mem _ huse)
  obtain ⟨first, hfirst, hname, hcount⟩ := h.begun (fold.lower use.1) (by omega)
  rcases mem_cons.mp hfirst with rfl | hfirst
  · exact absurd hname.symm hother
  · exact ⟨first, hfirst, hcount, by rw [numbered, if_pos hcount, hname]⟩

/-- A use of the source's table is numbered. -/
theorem Numbered.source_numbered {ctx : Ctx} {uses : List (Text × ℕ)}
    (h : Numbered fold source.1 ctx uses) {use : Text × ℕ} (huse : use ∈ uses) (hone : use.2 = 1) :
    fold.lower use.1 ≠ fold.lower source.1 := fun hsame =>
  (nodup_cons.mp h.apart).1 (mem_map.mpr ⟨use, huse, by rw [hsame, hone]⟩)

/-- The aliases are distinct exactly if no name among them is a numbered one, and no
other table is named like the source. -/
theorem Numbered.nodup_iff {ctx : Ctx} {uses : List (Text × ℕ)}
    (h : Numbered fold source.1 ctx uses) :
    (fold.lower source.2 :: uses.map fun use => fold.lower (numbered use.1 use.2)).Nodup ↔
      (∀ use ∈ uses, fold.lower use.1 ≠ fold.lower source.1 →
        fold.lower use.1 ≠ fold.lower source.2) ∧
      ∀ use ∈ uses, use.2 ≠ 1 → fold.lower source.2 ≠ fold.lower (numbered use.1 use.2) ∧
        ∀ other ∈ uses, fold.lower other.1 ≠ fold.lower source.1 →
          fold.lower other.1 ≠ fold.lower (numbered use.1 use.2) := by
  rw [nodup_cons]
  constructor
  · rintro ⟨hsource, hnodup⟩
    refine ⟨fun use huse hother hsame => ?_, fun use huse hnumbered => ⟨fun hsame => ?_, ?_⟩⟩
    · obtain ⟨first, hfirst, -, heq⟩ := h.first_use huse hother
      exact hsource (mem_map.mpr ⟨first, hfirst, heq.trans hsame⟩)
    · exact hsource (mem_map.mpr ⟨use, huse, hsame.symm⟩)
    · intro other hmem hother hsame
      obtain ⟨first, hfirst, hone, heq⟩ := h.first_use hmem hother
      exact hnumbered (inj_on_of_nodup_map hnodup hfirst huse (heq.trans hsame) ▸ hone)
  · rintro ⟨hnamed, hfree⟩
    constructor
    · intro hmem
      obtain ⟨use, huse, heq⟩ := mem_map.mp hmem
      by_cases hone : use.2 = 1
      · rw [numbered, if_pos hone] at heq
        exact hnamed use huse (h.source_numbered huse hone) heq
      · exact (hfree use huse hone).1 heq.symm
    · have hapart := (nodup_cons.mp h.apart).2
      refine hapart.of_map.map_on fun a ha b hb hsame => ?_
      rcases lower_numbered_eq hsame with heq | ⟨hnumbered, hone, heq⟩ | ⟨hnumbered, hone, heq⟩
      · exact inj_on_of_nodup_map hapart ha hb heq
      · exact absurd heq ((hfree a ha hnumbered).2 b hb (h.source_numbered hb hone))
      · exact absurd heq ((hfree b hb hnumbered).2 a ha (h.source_numbered ha hone))

/-- The keys that a hop should not choose between. -/
def ForeignKey.Differ (a b : ForeignKey) : Prop :=
  a.columns ≠ b.columns ∨ a.referencedTable ≠ b.referencedTable

/-- `resolve` refuses the filter as ambiguous at the hop. -/
def RefusedAt (fold : Folding) (fks : List ForeignKey) (source : Text × Text)
    (root : FilterExpr π) (hop : Text × Text) : Prop :=
  ∃ candidates joins after, resolve fold fks source root =
    .error (.ambiguous hop.1 hop.2 candidates joins) after

/-- A filter is refused at one of its hops exactly if the keys there have different names. -/
theorem refusedAt_iff (root : FilterExpr π) {hop : Text × Text}
    (hhop : hop ∈ (exprHops fold fks source.2 root).1) :
    RefusedAt fold fks source root hop ↔ Split fold fks hop := by
  have hfollows := @lowerExpr_follows fold fks source π root (startCtx fold source)
  unfold RefusedAt resolve
  cases hrun : lowerExpr fold fks source root (startCtx fold source) with
  | ok node after =>
    rw [hrun] at hfollows
    simp [hfollows.2 hop hhop]
  | error e after =>
    rw [hrun] at hfollows
    cases e with
    | unknown => simp [hfollows.2 hop hhop]
    | ambiguous segment table candidates joins =>
      obtain ⟨-, hsplit, -, hall⟩ := hfollows
      constructor
      · rintro ⟨_, _, _, heq⟩
        cases heq
        exact hsplit
      · intro h
        cases hall hop hhop h
        exact ⟨_, _, _, rfl⟩

/-- The joins of a result are numbered uses. -/
theorem numbered_of_resolve {root : FilterExpr π} {node : FilterNode π} {after : Ctx}
    (hok : resolve fold fks source root = .ok node after) :
    ∃ uses, Numbered fold source.1 after uses := by
  have hstart : Numbered fold source.1 (startCtx fold source) [] := by
    refine ⟨rfl, by simp, by simp [startCtx], fun name hname => ⟨_, mem_cons_self, ?_, rfl⟩⟩
    by_contra hother
    simp [startCtx, Function.update_of_ne (Ne.symm hother)] at hname
  exact (lowerExpr_keeps root _ ⟨_, hstart⟩).ok hok

/-- Names that are compared as they are. -/
def exactFolding : Folding := ⟨id, id, fun _ _ => rfl⟩

/-- A key of orders, by its name, its column and the table it refers to. -/
def orderKey (name column table : String) : ForeignKey :=
  ⟨name.toList, "orders".toList, [column.toList], table.toList, ["id".toList]⟩

end Dbflux.Query.Relational
