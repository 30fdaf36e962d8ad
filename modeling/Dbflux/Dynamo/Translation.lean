import Dbflux.Dynamo.Filter

/-!
# The meaning of a filter and of its translation

What a filter asks of an item: every operator of every field holds. The translation of a
filter into an expression of the service binds a name for each attribute and a value for each
operand, and the expression has the value of the filter on every item.

Results:
* `translateFilterObject_sound`: the expression of a filter means the filter.
* `evaluateFilterObject_eq`: the client's evaluation of a filter is its meaning where the
  client's comparisons are those of the service.
-/

namespace Dbflux.Dynamo

open Dbflux.Lib BoolToken List

/-! ## What a filter asks for -/

/-- The operators that an object names, with their operands. -/
def testsOf (members : Members) : List (Comparator × Json) :=
  members.filterMap fun member => (comparatorOf member.1).map (·, member.2)

/-- The operators of a field with their operands; a plain value is to be equal. -/
def fieldTests (value : Json) : List (Comparator × Json) :=
  match operatorsOf value with
  | some members => testsOf members
  | none => [(.eq, value)]

/-- An operator holds for the attribute of an item. -/
def Service.holds (service : Service) (item : Item) (field : Text) (test : Comparator × Json) :
    Bool :=
  service.compare test.1 (item field) (jsonValueToAttributeValue test.2)

def Service.matchesField (service : Service) (item : Item) (field : Text) (value : Json) : Bool :=
  (fieldTests value).all (service.holds item field)

mutual

/-- Every operator of every field holds. -/
def Service.matchesMembers (service : Service) (item : Item) : Members → Bool
  | [] => true
  | (field, value) :: rest =>
    (match connectiveOf field with
      | some connective => service.matchesLogical item connective value
      | none => service.matchesField item field value) && service.matchesMembers item rest

def Service.matchesLogical (service : Service) (item : Item) (connective : Connective) :
    Json → Bool
  | .array items => service.matchesClauses item connective items
  | _ => false

def Service.matchesClauses (service : Service) (item : Item) (connective : Connective) :
    List Json → Bool
  | [] => connective == .and
  | clause :: rest =>
    match connective with
    | .and => service.matchesFilter item clause && service.matchesClauses item connective rest
    | .or => service.matchesFilter item clause || service.matchesClauses item connective rest

def Service.matchesFilter (service : Service) (item : Item) : Json → Bool
  | .object members => service.matchesMembers item members
  | _ => false

end

/-- A field of a filter: a top-level attribute, with a plain value or known operators. -/
structure IsField (field : Text) (value : Json) : Prop where
  name : startsWithDollar field = false
  topLevel : '.' ∉ field
  operators : ∀ members, operatorsOf value = some members → ∀ member ∈ members,
    ∃ comparator, comparatorOf member.1 = some comparator ∧
      (comparator = .beginsWith → Json.isString member.2 = true)

mutual

/-- A filter built from `$and`, `$or`, plain values and the operators. -/
def IsFilterMembers : Members → Prop
  | [] => True
  | (field, value) :: rest =>
    (match connectiveOf field with
      | some _ => IsLogical value
      | none => IsField field value) ∧ IsFilterMembers rest

def IsLogical : Json → Prop
  | .array items => items ≠ [] ∧ AreFilters items
  | _ => False

def AreFilters : List Json → Prop
  | [] => True
  | clause :: rest => IsFilter clause ∧ AreFilters rest

def IsFilter : Json → Prop
  | .object members => IsFilterMembers members
  | _ => False

end

mutual

/-- The fields of a filter with their values, at every depth. -/
def leavesOfMembers : Members → List (Text × Json)
  | [] => []
  | (field, value) :: rest =>
    (match connectiveOf field with
      | some _ => leavesOfLogical value
      | none => [(field, value)]) ++ leavesOfMembers rest

def leavesOfLogical : Json → List (Text × Json)
  | .array items => leavesOfClauses items
  | _ => []

def leavesOfClauses : List Json → List (Text × Json)
  | [] => []
  | clause :: rest => leavesOf clause ++ leavesOfClauses rest

def leavesOf : Json → List (Text × Json)
  | .object members => leavesOfMembers members
  | _ => []

end

mutual

/-- A clause without fields, or a field without a name, somewhere in the fields of a
filter. -/
def MembersGap : Members → Prop
  | [] => False
  | (field, value) :: rest =>
    (match connectiveOf field with
      | some _ => LogicalGap value
      | none => trim field = []) ∨ MembersGap rest

def LogicalGap : Json → Prop
  | .array items => ClausesGap items
  | _ => False

def ClausesGap : List Json → Prop
  | [] => False
  | clause :: rest => FilterGap clause ∨ ClausesGap rest

def FilterGap : Json → Prop
  | .object members => members = [] ∨ MembersGap members
  | _ => False

end

/-- The attributes among some fields. -/
abbrev attributes (leaves : List (Text × Json)) : List Text := leaves.map Prod.fst

/-! ## Bindings -/

/-- What is bound stays bound. -/
def Bindings.Includes (bindings : Bindings) (part : Bindings) : Prop :=
  (∀ token text, part.names.lookup token = some text → bindings.names.lookup token = some text) ∧
    ∀ token value, part.values.lookup token = some value → bindings.values.lookup token = some value

theorem Bindings.Includes.refl (bindings : Bindings) : bindings.Includes bindings :=
  ⟨fun _ _ h => h, fun _ _ h => h⟩

theorem Bindings.Includes.trans {a b c : Bindings} (h : a.Includes b) (h' : b.Includes c) :
    a.Includes c :=
  ⟨fun token text hc => h.1 token text (h'.1 token text hc),
    fun token value hc => h.2 token value (h'.2 token value hc)⟩

/-- The names and values of a translation's state are its own, and a segment's name stands
for the segment. -/
structure Consistent (st : TranslationState) : Prop where
  segments : ∀ segment token, st.nameTokenBySegment.lookup segment = some token →
    st.bindings.names.lookup token = some segment
  names : ∀ index, st.nextNameToken ≤ index → st.bindings.names.lookup (.n index) = none
  values : ∀ index, st.nextValueToken ≤ index → st.bindings.values.lookup (.v index) = none
  bound : ∀ text, (∃ token, st.nameTokenBySegment.lookup text = some token) ↔
    text ∈ st.bindings.names.map Prod.snd
  ownNames : ∀ token text, st.bindings.names.lookup token = some text → ∃ index, token = .n index
  ownValues : ∀ token value, st.bindings.values.lookup token = some value →
    ∃ index, token = .v index

/-- A translation from `st` to `st'` of something that names `fields`, with result `a`. -/
structure Translates {α : Type} (st st' : TranslationState) (fields : List Text)
    (Means : Bindings → α → Prop) (a : α) : Prop where
  consistent : Consistent st'
  grows : st'.bindings.Includes st.bindings
  fields : ∀ text, text ∈ st'.bindings.names.map Prod.snd ↔
    text ∈ st.bindings.names.map Prod.snd ∨ text ∈ fields
  means : ∀ bindings : Bindings, bindings.Includes st'.bindings → Means bindings a

/-- A translation succeeds, or there is a gap and it is given up for the client to
filter. -/
def Sound {α : Type} (Gap : Prop) (P : α → Prop) : Except TranslationError α → Prop
  | .ok a => P a
  | .error (.unsupported _) => Gap
  | .error (.invalid _) => False

theorem Sound.bind {α β : Type} {Gap : Prop} {P : α → Prop} {Q : β → Prop}
    {m : Except TranslationError α} {f : α → Except TranslationError β} (h : Sound Gap P m)
    (hf : ∀ a, P a → Sound Gap Q (f a)) : Sound Gap Q (m >>= f) := by
  cases m with
  | ok a => exact hf a h
  | error error => cases error <;> exact h

theorem Sound.imp {α : Type} {Gap Gap' : Prop} {P : α → Prop} {m : Except TranslationError α}
    (h : Sound Gap P m) (hgap : Gap → Gap') : Sound Gap' P m := by
  cases m with
  | ok a => exact h
  | error error =>
    cases error with
    | unsupported reason => exact hgap h
    | invalid reason => exact h

namespace Translates

variable {α β : Type} {st st' st'' : TranslationState} {fields fields' : List Text}
  {Means : Bindings → α → Prop} {Means' : Bindings → β → Prop} {a : α} {b : β}

/-- One translation after another, and what both results mean together. -/
theorem trans (h : Translates st st' fields Means a) (h' : Translates st' st'' fields' Means' b)
    {γ : Type} {Both : Bindings → γ → Prop} {c : γ}
    (hboth : ∀ bindings, Means bindings a → Means' bindings b → Both bindings c) :
    Translates st st'' (fields ++ fields') Both c where
  consistent := h'.consistent
  grows := h'.grows.trans h.grows
  fields text := by
    rw [h'.fields, h.fields, mem_append, or_assoc]
  means bindings hincludes :=
    hboth bindings (h.means bindings (hincludes.trans h'.grows)) (h'.means bindings hincludes)

theorem mono (h : Translates st st' fields Means a)
    (hmeans : ∀ bindings, Means bindings a → Means' bindings b) :
    Translates st st' fields Means' b where
  consistent := h.consistent
  grows := h.grows
  fields := h.fields
  means bindings hincludes := hmeans bindings (h.means bindings hincludes)

theorem refl (h : Consistent st) (hmeans : ∀ bindings, Means bindings a) :
    Translates st st [] Means a where
  consistent := h
  grows := .refl _
  fields text := by simp
  means bindings _ := hmeans bindings

end Translates

section Tables

variable {κ β : Type} [BEq κ] [LawfulBEq κ] [DecidableEq κ] (table : List (κ × β))

theorem lookup_concat (key other : κ) (value : β) : (table ++ [(key, value)]).lookup other =
    (table.lookup other).or (if other = key then some value else none) := by
  rw [lookup_append]
  by_cases heq : other = key
  · simp [heq]
  · simp [List.lookup, heq, beq_false_of_ne heq]

/-- A table of numbered tokens with the next one at its end. -/
theorem lookup_concat_fresh {token : ℕ → κ} (htoken : Function.Injective token) {next : ℕ}
    (hfresh : ∀ index, next ≤ index → table.lookup (token index) = none)
    (hown : ∀ key value, table.lookup key = some value → ∃ index, key = token index) (value : β) :
    (table ++ [(token next, value)]).lookup (token next) = some value ∧
    (∀ key old, table.lookup key = some old →
      (table ++ [(token next, value)]).lookup key = some old) ∧
    (∀ index, next + 1 ≤ index → (table ++ [(token next, value)]).lookup (token index) = none) ∧
    ∀ key other, (table ++ [(token next, value)]).lookup key = some other →
      ∃ index, key = token index := by
  simp only [lookup_concat]
  refine ⟨by simp [hfresh next le_rfl], fun key old hold => by rw [hold, Option.some_or],
    fun index hindex => ?_, fun key other hother => ?_⟩
  · rw [hfresh index (by omega), Option.none_or, if_neg fun heq => by have := htoken heq; omega]
  · obtain hold | ⟨-, hlast⟩ := Option.or_eq_some_iff.mp hother
    · exact hown key other hold
    · exact ⟨next, (Option.ite_none_right_eq_some.mp hlast).1⟩

end Tables

/-- A segment gets the name it has, or a new one. -/
theorem bindSegment_translates {st : TranslationState} (h : Consistent st) (segment : Text) :
    Translates st (bindSegment st segment).2 [segment]
      (fun bindings token => bindings.names.lookup token = some segment)
      (bindSegment st segment).1 := by
  unfold bindSegment
  split
  next token hlookup =>
    refine ⟨h, .refl _, fun text => ?_, fun bindings hincludes => ?_⟩
    · rw [mem_singleton, ← h.bound]
      exact ⟨.inl, fun hor => hor.elim id fun heq => heq ▸ ⟨token, hlookup⟩⟩
    · exact hincludes.1 token segment (h.segments segment token hlookup)
  next hnone =>
    obtain ⟨hnew, hgrows, hnames, hown⟩ :=
      lookup_concat_fresh st.bindings.names (fun _ _ => NameToken.n.inj) h.names h.ownNames segment
    refine ⟨⟨fun other token hother => ?_, hnames, h.values, fun text => ?_, hown, h.ownValues⟩,
      ⟨hgrows, fun _ _ hvalue => hvalue⟩, fun text => by simp, fun bindings hincludes =>
      hincludes.1 _ _ hnew⟩
    · dsimp only at hother
      rw [lookup_concat] at hother
      obtain hold | ⟨-, hlast⟩ := Option.or_eq_some_iff.mp hother
      · exact hgrows _ _ (h.segments other token hold)
      · obtain ⟨rfl, heq⟩ := Option.ite_none_right_eq_some.mp hlast
        exact Option.some.inj heq ▸ hnew
    · rw [map_append, mem_append, ← h.bound]
      simp only [lookup_concat, map_cons, map_nil, mem_singleton]
      constructor
      · rintro ⟨token, htoken⟩
        obtain hold | ⟨-, hlast⟩ := Option.or_eq_some_iff.mp htoken
        · exact .inl ⟨token, hold⟩
        · exact Or.inr (Option.ite_none_right_eq_some.mp hlast).1
      · rintro (⟨token, htoken⟩ | rfl)
        · exact ⟨token, by rw [htoken, Option.some_or]⟩
        · exact ⟨_, by rw [hnone, Option.none_or, if_pos rfl]⟩

theorem bindAttributeValue_translates {st : TranslationState} (h : Consistent st) (value : Json) :
    Translates st (bindAttributeValue value st).2 [] (fun bindings token =>
        bindings.values.lookup token = some (jsonValueToAttributeValue value))
      (bindAttributeValue value st).1 := by
  obtain ⟨hnew, hgrows, hvalues, hown⟩ := lookup_concat_fresh st.bindings.values
    (fun _ _ => ValueToken.v.inj) h.values h.ownValues (jsonValueToAttributeValue value)
  exact ⟨⟨h.segments, h.names, hvalues, h.bound, h.ownNames, hown⟩, ⟨fun _ _ hname => hname, hgrows⟩,
    fun text => by simp [bindAttributeValue], fun bindings hincludes => hincludes.2 _ _ hnew⟩

/-! ## Fields -/

/-- The expression has the value on every item. -/
def Means (service : Service) (value : Item → Bool) (bindings : Bindings) (e : Expression) :
    Prop :=
  ∀ item, Denotes (service.condition bindings item) .product e (value item)

/-- The expressions have the values on every item. -/
def MeansAll (service : Service) (values : Item → List Bool) (bindings : Bindings)
    (es : List Expression) : Prop :=
  ∀ item, List.Forall₂ (Denotes (service.condition bindings item) .product) es (values item)

variable {bindings : Bindings} {name : NameToken} {field : Text} {comparator : Comparator}
  (service : Service)

theorem means_condition {value : ValueToken} {operand : Json}
    (hname : bindings.names.lookup name = some field)
    (hvalue : bindings.values.lookup value = some (jsonValueToAttributeValue operand)) :
    Means service (fun item => service.holds item field (comparator, operand)) bindings
      [.atom ⟨[name], comparator, value⟩] := by
  intro item
  refine .factor (.atom ?_)
  cases hitem : item field <;>
    simp [Service.condition, hname, hvalue, Service.attributeAt, Service.holds, hitem]

variable {values : Item → List Bool}

/-- Expressions joined by `AND`. -/
theorem MeansAll.intercalate_and {service : Service} {es : List Expression}
    (h : MeansAll service values bindings es) (hne : es ≠ []) :
    Means service (fun item => (values item).all id) bindings (List.intercalate [.and] es) :=
  fun item => (Denotes.intercalate hne (h item)).1

section Fields

variable {st : TranslationState} {field : Text} {value : Json}

/-- One operator of a field. -/
theorem translateFieldOperator_sound (hst : Consistent st)
    (hname : st.bindings.names.lookup name = some field) {operator : Text}
    (hoperator : comparatorOf operator = some comparator)
    (hstring : comparator = .beginsWith → Json.isString value = true) :
    Sound False (fun r => Translates st r.2 []
      (Means service fun item => service.holds item field (comparator, value)) r.1)
      (translateFieldOperator [name] operator value st) := by
  unfold translateFieldOperator
  rw [hoperator]
  dsimp only
  rw [if_neg fun h => by rw [hstring h.1] at h; cases h.2]
  have hvalue := bindAttributeValue_translates hst value
  refine ⟨hvalue.consistent, hvalue.grows, hvalue.fields, fun bindings hincludes => ?_⟩
  exact means_condition service ((hincludes.trans hvalue.grows).1 name field hname)
    (hvalue.means bindings hincludes)

theorem testsOf_cons {operator : Text} (h : comparatorOf operator = some comparator)
    (value : Json) (rest : Members) :
    testsOf ((operator, value) :: rest) = (comparator, value) :: testsOf rest := by
  simp [testsOf, h]

variable {members : Members}

theorem translateFieldOperators_sound (hst : Consistent st)
    (hname : st.bindings.names.lookup name = some field)
    (hmembers : ∀ member ∈ members, ∃ comparator, comparatorOf member.1 = some comparator ∧
      (comparator = .beginsWith → Json.isString member.2 = true)) :
    Sound False (fun r => (members ≠ [] → r.1 ≠ []) ∧ Translates st r.2 []
      (MeansAll service fun item => (testsOf members).map (service.holds item field)) r.1)
      (translateFieldOperators [name] members st) := by
  induction members generalizing st with
  | nil => exact ⟨fun h => absurd rfl h, .refl hst fun _ _ => .nil⟩
  | cons member rest ih =>
    obtain ⟨comparator, hoperator, hstring⟩ := hmembers _ mem_cons_self
    refine (translateFieldOperator_sound service hst hname hoperator hstring).bind ?_
    rintro ⟨clause, st'⟩ hclause
    refine (ih hclause.consistent (hclause.grows.1 _ _ hname)
      fun other hother => hmembers other (mem_cons_of_mem _ hother)).bind ?_
    rintro ⟨clauses, st''⟩ ⟨-, hclauses⟩
    refine ⟨fun _ => cons_ne_nil _ _, hclause.trans hclauses fun bindings hone hmore item => ?_⟩
    rw [testsOf_cons hoperator]
    exact .cons (hone item) (hmore item)

theorem operatorsOf_ne_nil (h : operatorsOf value = some members) : members ≠ [] := by
  rintro rfl
  cases value with
  | object members =>
    simp only [operatorsOf, Option.ite_none_right_eq_some] at h
    obtain ⟨hany, heq⟩ := h
    rw [Option.some.inj heq] at hany
    cases hany
  | _ => cases h

/-- The name of a top-level attribute. -/
theorem bindAttributePath_sound (hst : Consistent st) (hfield : '.' ∉ field) :
    Sound (trim field = []) (fun r => ∃ name, r.1 = [name] ∧ Translates st r.2 [field]
      (fun bindings name => bindings.names.lookup name = some field) name)
      (bindAttributePath field st) := by
  have hsingle : field.splitOn '.' = [field] := by
    refine splitOnP_eq_singleton fun c hc => ?_
    exact beq_eq_false_iff_ne.mpr fun heq => hfield (heq ▸ hc)
  rw [bindAttributePath, hsingle]
  unfold bindSegments
  split_ifs with hblank
  · exact hblank
  · exact ⟨_, rfl, bindSegment_translates hst field⟩

/-- A field. -/
theorem translateFieldFilter_sound (hst : Consistent st) (hfield : IsField field value) :
    Sound (trim field = []) (fun r => Translates st r.2 [field]
      (Means service fun item => service.matchesField item field value) r.1)
      (translateFieldFilter field value st) := by
  refine (bindAttributePath_sound hst hfield.topLevel).bind ?_
  rintro ⟨path, st'⟩ ⟨name, rfl, hname⟩
  have hlookup := hname.means _ (.refl _)
  cases hoperators : operatorsOf value with
  | some members =>
    refine ((translateFieldOperators_sound service hname.consistent hlookup
      (hfield.operators members hoperators)).imp False.elim).bind ?_
    rintro ⟨es, st''⟩ ⟨hne, hes⟩
    refine hname.trans hes fun bindings _ hall item => ?_
    have hand := hall.intercalate_and (hne (operatorsOf_ne_nil hoperators)) item
    simp only [Service.matchesField, fieldTests, hoperators]
    simpa [all_map] using hand
  | none =>
    have hvalue := bindAttributeValue_translates hname.consistent value
    refine hname.trans hvalue fun bindings hname hvalue item => ?_
    simp only [Service.matchesField, fieldTests, hoperators, all_cons, all_nil, Bool.and_true]
    exact means_condition service hname hvalue item

end Fields

/-! ## Whole filters -/

/-- The value of clauses under a connective. -/
def Connective.combine : Connective → List Bool → Bool
  | .and, values => values.all id
  | .or, values => values.any id

theorem Service.matchesClauses_eq (item : Item) (connective : Connective)
    (clauses : List Json) : service.matchesClauses item connective clauses =
      connective.combine (clauses.map (service.matchesFilter item)) := by
  induction clauses with
  | nil => cases connective <;> rfl
  | cons clause rest ih =>
    cases connective with
    | and | or => simp [Service.matchesClauses, ih, Connective.combine]

theorem Service.matchesMembers_eq (item : Item) (members : Members) :
    service.matchesMembers item members =
      (members.map fun member => service.matchesMembers item [member]).all id := by
  induction members with
  | nil => rfl
  | cons member rest ih =>
    rw [Service.matchesMembers, ih, List.map_cons, Service.matchesMembers,
      Service.matchesMembers, Bool.and_true]
    rfl

/-- One clause of a connective stays as it is, more stand in parentheses. -/
theorem means_joinClauses {service : Service} {es : List Expression}
    (h : MeansAll service values bindings es) (hne : es ≠ []) (connective : Connective) :
    Means service (fun item => connective.combine (values item)) bindings
      (joinClauses connective es) := by
  intro item
  have hitem := h item
  dsimp only
  unfold joinClauses
  split
  next clause =>
    obtain ⟨value, rest, hclause, hnil, hvalues⟩ := forall₂_cons_left_iff.mp hitem
    cases hnil
    rw [hvalues]
    cases connective <;> simpa [Connective.combine] using hclause
  next =>
    refine .factor (.group ?_)
    cases connective with
    | and => exact .product (Denotes.intercalate hne hitem).1
    | or => exact (Denotes.intercalate hne hitem).2

mutual

theorem translateFilterObject_sound {st : TranslationState} (hst : Consistent st) :
    (filter : Json) → IsFilter filter →
    Sound (FilterGap filter) (fun r => Translates st r.2 (attributes (leavesOf filter))
      (Means service fun item => service.matchesFilter item filter) r.1)
      (translateFilterObject filter st)
  | .object members, h => by
    rw [translateFilterObject]
    rw [FilterGap]
    split_ifs with hempty
    · exact .inl (isEmpty_iff.mp hempty)
    · refine ((translateMembers_sound hst members h).imp .inr).bind ?_
      rintro ⟨es, st'⟩ ⟨hne, hes⟩
      refine hes.mono fun bindings hall item => ?_
      dsimp only
      rw [Service.matchesFilter, Service.matchesMembers_eq]
      exact hall.intercalate_and (hne fun hnil => hempty (isEmpty_iff.mpr hnil)) item
  | .null, h | .bool _, h | .number _, h | .string _, h | .array _, h => h.elim

theorem translateMembers_sound {st : TranslationState} (hst : Consistent st) :
    (members : Members) → IsFilterMembers members →
    Sound (MembersGap members) (fun r => (members ≠ [] → r.1 ≠ []) ∧
      Translates st r.2 (attributes (leavesOfMembers members)) (MeansAll service fun item =>
        members.map fun member => service.matchesMembers item [member]) r.1)
      (translateMembers members st)
  | [], _ => ⟨fun h => absurd rfl h, .refl hst fun _ _ => .nil⟩
  | (field, value) :: rest, h => by
    rw [IsFilterMembers] at h
    rw [translateMembers, leavesOfMembers, attributes, map_append, MembersGap]
    have hfirst : Sound (match connectiveOf field with
        | some _ => LogicalGap value
        | none => trim field = [])
      (fun r => Translates st r.2
        (attributes (match connectiveOf field with
          | some _ => leavesOfLogical value
          | none => [(field, value)]))
        (Means service fun item => service.matchesMembers item [(field, value)]) r.1)
        (match connectiveOf field with
          | some connective => translateLogicalFilter connective value st
          | none => translateField field value st) := by
      cases hconnective : connectiveOf field with simp only [hconnective] at h
      | some connective =>
        simpa [Service.matchesMembers, hconnective] using
          translateLogicalFilter_sound connective hst value h.1
      | none =>
        have hfield := translateFieldFilter_sound service hst h.1
        simpa [Service.matchesMembers, hconnective, translateField, h.1.name] using hfield
    refine (hfirst.imp .inl).bind ?_
    rintro ⟨clause, st'⟩ hclause
    refine ((translateMembers_sound hclause.consistent rest h.2).imp .inr).bind ?_
    rintro ⟨clauses, st''⟩ ⟨-, hclauses⟩
    refine ⟨fun _ => cons_ne_nil _ _, hclause.trans hclauses fun bindings hone hmore item => ?_⟩
    exact .cons (hone item) (hmore item)

theorem translateLogicalFilter_sound (connective : Connective)
    {st : TranslationState} (hst : Consistent st) : (value : Json) → IsLogical value →
    Sound (LogicalGap value) (fun r => Translates st r.2 (attributes (leavesOfLogical value))
      (Means service fun item => service.matchesLogical item connective value) r.1)
      (translateLogicalFilter connective value st)
  | .array items, h => by
    rw [translateLogicalFilter, if_neg fun hempty => h.1 (isEmpty_iff.mp hempty), LogicalGap]
    refine (translateClauses_sound hst items h.2).bind ?_
    rintro ⟨es, st'⟩ ⟨hne, hes⟩
    refine hes.mono fun bindings hall item => ?_
    dsimp only
    rw [Service.matchesLogical, Service.matchesClauses_eq]
    exact means_joinClauses hall (hne h.1) connective item
  | .null, h | .bool _, h | .number _, h | .string _, h | .object _, h => h.elim

theorem translateClauses_sound {st : TranslationState} (hst : Consistent st) :
    (clauses : List Json) → AreFilters clauses →
    Sound (ClausesGap clauses) (fun r => (clauses ≠ [] → r.1 ≠ []) ∧
      Translates st r.2 (attributes (leavesOfClauses clauses))
        (MeansAll service fun item => clauses.map (service.matchesFilter item)) r.1)
      (translateClauses clauses st)
  | [], _ => ⟨fun h => absurd rfl h, .refl hst fun _ _ => .nil⟩
  | clause :: rest, h => by
    rw [translateClauses, leavesOfClauses, attributes, map_append, ClausesGap]
    refine ((translateFilterObject_sound hst clause h.1).imp .inl).bind ?_
    rintro ⟨e, st'⟩ he
    refine ((translateClauses_sound he.consistent rest h.2).imp .inr).bind ?_
    rintro ⟨es, st''⟩ ⟨-, hes⟩
    refine ⟨fun _ => cons_ne_nil _ _, he.trans hes fun bindings hone hmore item => ?_⟩
    exact .cons (hone item) (hmore item)

end

/-! ## The client -/

/-- The client finds of the attribute what the service finds. -/
structure ClientAgrees (service : Service) (numbers : Numbers) (item : Item) (field : Text)
    (test : Comparator × Json) : Prop where
  missing : item field = none → service.holds item field test = false
  present : ∀ actual, item field = some actual → ∃ json,
    attributeValueToJson numbers actual = .ok json ∧
      evaluateOperator numbers json test.1 test.2 = .ok (service.holds item field test)

/-- The client agrees on every operator of every field. -/
def ClientAgreesOn (service : Service) (numbers : Numbers) (item : Item)
    (leaves : List (Text × Json)) : Prop :=
  ∀ leaf ∈ leaves, ∀ test ∈ fieldTests leaf.2, ClientAgrees service numbers item leaf.1 test

section Client

variable {service : Service} {numbers : Numbers} {item : Item}

theorem evaluateFilterOperators_eq {actual : AttributeValue} {json : Json}
    (hactual : item field = some actual) (hjson : attributeValueToJson numbers actual = .ok json)
    (hmembers : ∀ member ∈ members, ∃ comparator, comparatorOf member.1 = some comparator)
    (hagrees : ∀ test ∈ testsOf members, ClientAgrees service numbers item field test) :
    evaluateFilterOperators numbers json members =
      .ok ((testsOf members).all (service.holds item field)) := by
  induction members with
  | nil => rfl
  | cons member rest ih =>
    obtain ⟨operator, value⟩ := member
    obtain ⟨comparator, hoperator⟩ := hmembers _ mem_cons_self
    rw [testsOf_cons hoperator] at hagrees ⊢
    obtain ⟨json', hjson', hfirst⟩ := (hagrees _ mem_cons_self).present actual hactual
    rw [hjson] at hjson'
    cases hjson'
    have hrest := ih (fun other hother => hmembers other (mem_cons_of_mem _ hother))
      fun test htest => hagrees test (mem_cons_of_mem _ htest)
    rw [evaluateFilterOperators, hoperator]
    dsimp only at hfirst ⊢
    rw [hfirst, all_cons]
    cases service.holds item field (comparator, value) with
    | true => exact hrest
    | false => rfl

theorem fieldTests_ne_nil (h : IsField field value) : fieldTests value ≠ [] := by
  unfold fieldTests
  cases hoperators : operatorsOf value with
  | none => exact cons_ne_nil _ _
  | some members =>
    obtain ⟨⟨operator, operand⟩, rest, rfl⟩ :=
      exists_cons_of_ne_nil (operatorsOf_ne_nil hoperators)
    obtain ⟨comparator, hcomparator, -⟩ := h.operators _ hoperators _ mem_cons_self
    change testsOf ((operator, operand) :: rest) ≠ []
    rw [testsOf_cons hcomparator]
    exact cons_ne_nil _ _

theorem evaluateField_eq (hfield : IsField field value)
    (hagrees : ∀ test ∈ fieldTests value, ClientAgrees service numbers item field test) :
    evaluateField numbers item field value = .ok (service.matchesField item field value) := by
  unfold evaluateField
  rw [if_neg (by rw [hfield.name]; exact Bool.false_ne_true)]
  obtain ⟨test, rest, htests⟩ := exists_cons_of_ne_nil (fieldTests_ne_nil hfield)
  have htest := hagrees test (htests ▸ mem_cons_self)
  cases hactual : item field with
  | none => rw [Service.matchesField, htests, all_cons, htest.missing hactual, Bool.false_and]
  | some actual =>
    obtain ⟨json, hjson, -⟩ := htest.present actual hactual
    unfold Service.matchesField
    unfold fieldTests at hagrees ⊢
    dsimp only
    rw [hjson]
    cases hoperators : operatorsOf value with simp only [hoperators] at hagrees
    | some members =>
      refine evaluateFilterOperators_eq hactual hjson (fun member hmember => ?_) hagrees
      obtain ⟨comparator, hcomparator, -⟩ := hfield.operators members hoperators member hmember
      exact ⟨comparator, hcomparator⟩
    | none =>
      obtain ⟨json', hjson', hequal⟩ :=
        (hagrees (.eq, value) mem_cons_self).present actual hactual
      rw [hjson] at hjson'
      cases hjson'
      simpa [evaluateOperator] using hequal

mutual

/-- **The client's filter.** -/
theorem evaluateFilterObject_eq : (members : Members) → IsFilterMembers members →
    ClientAgreesOn service numbers item (leavesOfMembers members) →
    evaluateFilterObject numbers item members = .ok (service.matchesMembers item members)
  | [], _, _ => rfl
  | (field, value) :: rest, h, hagrees => by
    rw [IsFilterMembers] at h
    rw [leavesOfMembers] at hagrees
    have hrest := evaluateFilterObject_eq rest h.2 fun leaf hleaf =>
      hagrees leaf (mem_append_right _ hleaf)
    rw [evaluateFilterObject, Service.matchesMembers]
    cases hconnective : connectiveOf field with simp only [hconnective] at h hagrees ⊢
    | some connective =>
      rw [evaluateLogical_eq connective value h.1 fun leaf hleaf =>
        hagrees leaf (mem_append_left _ hleaf)]
      cases service.matchesLogical item connective value with
      | true => exact hrest
      | false => rfl
    | none =>
      rw [evaluateField_eq h.1 fun test htest =>
        hagrees (field, value) (mem_append_left _ mem_cons_self) test htest]
      cases service.matchesField item field value with
      | true => exact hrest
      | false => rfl

theorem evaluateLogical_eq (connective : Connective) : (value : Json) → IsLogical value →
    ClientAgreesOn service numbers item (leavesOfLogical value) →
    evaluateLogical numbers item connective value =
      .ok (service.matchesLogical item connective value)
  | .array items, h, hagrees => by
    rw [evaluateLogical, Service.matchesLogical]
    exact evaluateClauses_eq connective items h.2 hagrees
  | .null, h, _ | .bool _, h, _ | .number _, h, _ | .string _, h, _ | .object _, h, _ => h.elim

theorem evaluateClauses_eq (connective : Connective) : (clauses : List Json) →
    AreFilters clauses → ClientAgreesOn service numbers item (leavesOfClauses clauses) →
    evaluateClauses numbers item connective clauses =
      .ok (service.matchesClauses item connective clauses)
  | [], _, _ => by cases connective <;> rfl
  | clause :: rest, h, hagrees => by
    have hfirst := evaluateClause_eq connective clause h.1 fun leaf hleaf =>
      hagrees leaf (mem_append_left _ hleaf)
    have hrest := evaluateClauses_eq connective rest h.2 fun leaf hleaf =>
      hagrees leaf (mem_append_right _ hleaf)
    rw [evaluateClauses, hfirst]
    cases connective with rw [Service.matchesClauses]
    | and =>
      cases service.matchesFilter item clause with
      | true => exact hrest
      | false => rfl
    | or =>
      cases service.matchesFilter item clause with
      | true => rfl
      | false => exact hrest

theorem evaluateClause_eq (connective : Connective) : (clause : Json) → IsFilter clause →
    ClientAgreesOn service numbers item (leavesOf clause) →
    evaluateClause numbers item connective clause = .ok (service.matchesFilter item clause)
  | .object members, h, hagrees => by
    rw [evaluateClause, Service.matchesFilter]
    exact evaluateFilterObject_eq members h hagrees
  | .null, h, _ | .bool _, h, _ | .number _, h, _ | .string _, h, _ | .array _, h, _ => h.elim

end

end Client

theorem consistent_initial : Consistent .initial where
  segments _ _ h := by cases h
  names _ _ := rfl
  values _ _ := rfl
  bound text := by simp [TranslationState.initial]
  ownNames _ _ h := by cases h
  ownValues _ _ h := by cases h

end Dbflux.Dynamo
