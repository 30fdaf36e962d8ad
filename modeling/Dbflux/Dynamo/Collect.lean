import Dbflux.Dynamo.Translation

/-!
# The keys an operation on many items collects

`decide_read_strategy` makes a query when the filter gives the partition key a value to be
equal to. The key condition takes that operator, and one operator of the sort key, and both
fields are then left out of what remains of the filter, with whatever other operators they
have.

Results:
* `collectPages_eq`: the keys of the items that meet the plan are collected, each once.
* `translated_of_no_gap`: without empty clauses and blank names the service filters.
* `collected_exactly_iff`: these are the keys of the items that match the filter if and only if
  the service accepts the query and the operators that were left out hold anyway.
* `lost_upper_bound`: the upper bound of a range of the sort key is left out.
-/

namespace Dbflux.Dynamo

open Dbflux.Lib BoolToken List

/-! ## What the plan asks for -/

/-- The fields the key condition takes. -/
def consumedFields (schema : KeySchema) (members : Members) : List Text :=
  match partitionKeyPart schema members with
  | some partition => partition.1 :: ((sortKeyPart schema members).map (·.1)).toList
  | none => []

/-- The operators of the key condition. -/
def keyTests (schema : KeySchema) (members : Members) : List (Text × Comparator × Json) :=
  match partitionKeyPart schema members with
  | some partition =>
    (partition.1, .eq, partition.2) :: ((sortKeyPart schema members).map fun sort =>
      (sort.1, sort.2.1, sort.2.2.2)).toList
  | none => []

/-- What remains of the filter. -/
def remaining (schema : KeySchema) (members : Members) : Members :=
  members.filter fun member => !(consumedFields schema members).contains member.1

def Service.meetsKey (service : Service) (schema : KeySchema) (members : Members) (item : Item) :
    Bool :=
  (keyTests schema members).all fun test => service.holds item test.1 test.2

/-- The item meets the key condition and what remains of the filter. -/
def Service.planned (service : Service) (schema : KeySchema) (members : Members) (item : Item) :
    Bool :=
  service.meetsKey schema members item && service.matchesMembers item (remaining schema members)

/-- What remains of the filter can be translated. -/
def Translated (schema : KeySchema) (members : Members) : Prop :=
  ∃ r, translateFilterObject (.object (remaining schema members)) .initial = .ok r

/-- A query with a filter expression that names a key attribute. -/
def FiltersKey (schema : KeySchema) (members : Members) : Prop :=
  (partitionKeyPart schema members).isSome ∧ Translated schema members ∧
    ∃ name ∈ attributes (leavesOfMembers (remaining schema members)),
      some name = schema.partitionKey ∨ some name = schema.sortKey

section KeyConditions

variable {service : Service} {schema : KeySchema} {members : Members}

variable {value operand : Json}

variable {comparator : Comparator}

/-- The tokens for a value of the sort key. -/
def ValueToken.ofSortKey : ValueToken → Bool
  | .pk | .v _ => false
  | _ => true

/-- An operator that an object names is one of the field's. -/
theorem mem_fieldTests_of_getMember {operator : String}
    (hcomparator : comparatorOf operator.toList = some comparator)
    (hdollar : startsWithDollar operator.toList = true)
    (h : getMember operator members = some operand) :
    (comparator, operand) ∈ fieldTests (.object members) := by
  have hmem := mem_of_lookup h
  have hany : (members.any fun member => startsWithDollar member.1) = true :=
    any_eq_true.mpr ⟨_, hmem, hdollar⟩
  rw [fieldTests, operatorsOf, if_pos hany]
  exact mem_filterMap.mpr ⟨_, hmem, by rw [hcomparator]; rfl⟩

/-- The operator the partition key's condition takes is one of the field's. -/
theorem extractEqFilterValue_some (h : extractEqFilterValue value = some operand) :
    (.eq, operand) ∈ fieldTests value := by
  cases value with
  | object members => exact mem_fieldTests_of_getMember (by decide) (by decide) h
  | _ =>
    cases h
    exact mem_singleton_self _

/-- The operator the sort key's condition takes is one of the field's, and its value has a
token of its own. -/
theorem buildSortKeyCondition_some {token : ValueToken}
    (h : buildSortKeyCondition value = some (comparator, token, operand)) :
    (comparator, operand) ∈ fieldTests value ∧ token.ofSortKey = true := by
  have hplain : ∀ plain, some (.eq, .sk, plain) = some (comparator, token, operand) →
      (comparator, operand) ∈ [(.eq, plain)] ∧ token.ofSortKey = true := by
    intro plain heq
    cases heq
    exact ⟨mem_singleton_self _, rfl⟩
  cases value with
  | object members =>
    obtain ⟨⟨operator, c, t⟩, hentry, hmember⟩ := exists_of_findSome?_eq_some h
    obtain ⟨found, hfound, heq⟩ := Option.map_eq_some_iff.mp hmember
    cases heq
    have hall := all_eq_true.mp (show (sortKeyOperators.all fun entry =>
      decide (comparatorOf entry.1.toList = some entry.2.1) &&
        startsWithDollar entry.1.toList && entry.2.2.ofSortKey) = true by decide) _ hentry
    simp only [Bool.and_eq_true, decide_eq_true_eq] at hall
    exact ⟨mem_fieldTests_of_getMember hall.1.1 hall.1.2 hfound, hall.2⟩
  | _ => exact hplain _ h

theorem ne_sortKeyPart_token {sort : Text × Comparator × ValueToken × Json} {token : ValueToken}
    (h : sortKeyPart schema members = some sort) (htoken : token.ofSortKey = false) :
    token ≠ sort.2.2.1 := by
  rintro rfl
  obtain ⟨sortKey, -, h⟩ := Option.bind_eq_some_iff.mp h
  obtain ⟨value, -, h⟩ := Option.bind_eq_some_iff.mp h
  obtain ⟨built, hbuilt, h⟩ := Option.bind_eq_some_iff.mp h
  cases h
  exact absurd ((buildSortKeyCondition_some hbuilt).2.symm.trans htoken) (by decide)

/-- The value of a key condition on an item, whatever the filter binds. -/
theorem evaluate_keyCondition (service : Service) (item : Item) {partition : Text × Json}
    (hpartition : partitionKeyPart schema members = some partition) (filter : Bindings) :
    let key := keyCondition partition (sortKeyPart schema members)
    evaluate (service.condition (key.bindings.append filter) item) key.expression =
      some (service.meetsKey schema members item) := by
  intro key
  refine evaluate_of_denotes (.product ?_)
  have hpk : Means service (fun item => service.holds item partition.1 (.eq, partition.2))
      (key.bindings.append filter) [.atom ⟨[.pk], .eq, .pk⟩] := by
    refine means_condition service ?_ ?_
    all_goals cases hsort : sortKeyPart schema members <;> simp only [key, hsort] <;> rfl
  unfold Service.meetsKey keyTests
  rw [hpartition]
  cases hsort : sortKeyPart schema members with
  | none => simpa [key, hsort, keyCondition] using hpk item
  | some sort =>
    obtain ⟨sortKey, comparator, token, operand⟩ := sort
    have htoken : token ≠ .pk := (ne_sortKeyPart_token hsort rfl).symm
    have hsk : Means service (fun item => service.holds item sortKey (comparator, operand))
        (key.bindings.append filter) [.atom ⟨[.sk], comparator, token⟩] := by
      refine means_condition service ?_ ?_
      · simp only [key, hsort]
        rfl
      · simp [key, hsort, keyCondition, Bindings.append, List.lookup, beq_false_of_ne htoken]
    have hboth := (hpk item).append_and (hsk item)
    simpa [key, hsort, keyCondition] using hboth

end KeyConditions

/-! ## The answers to the plan -/

section Plan

variable {service : Service} {schema : KeySchema} {members : Members}

theorem isFilterMembers_iff : IsFilterMembers members ↔
    ∀ member ∈ members, IsFilterMembers [member] := by
  induction members with
  | nil => simp [IsFilterMembers]
  | cons member rest ih =>
    rw [IsFilterMembers, ih, forall_mem_cons, IsFilterMembers, IsFilterMembers, and_true]

theorem matchesMembers_iff (service : Service) (item : Item) :
    service.matchesMembers item members = true ↔
      ∀ member ∈ members, service.matchesMembers item [member] = true := by
  rw [Service.matchesMembers_eq, all_map, all_eq_true]
  rfl

theorem isFilterMembers_remaining (h : IsFilterMembers members) :
    IsFilterMembers (remaining schema members) :=
  isFilterMembers_iff.mpr fun member hmember =>
    isFilterMembers_iff.mp h member (mem_filter.mp hmember).1

/-- A filter without empty clauses and blank names is translated. -/
theorem translated_of_no_gap (service : Service) {rest : Members} (h : IsFilterMembers rest)
    (hne : rest ≠ []) (hgap : ¬ MembersGap rest) :
    ∃ r, translateFilterObject (.object rest) .initial = .ok r := by
  have hsound := translateFilterObject_sound service consistent_initial (.object rest) h
  cases hresult : translateFilterObject (.object rest) .initial with rw [hresult] at hsound
  | ok r => exact ⟨r, rfl⟩
  | error error =>
    cases error with
    | unsupported reason => exact absurd hsound (not_or.mpr ⟨hne, hgap⟩)
    | invalid reason => exact hsound.elim

/-- How what remains of a filter is carried out. -/
inductive Execution (service : Service) (rest : Members) :
    Option Expression × Bindings × Option Members → Prop
  | nothing (h : rest = []) : Execution service rest (none, ⟨[], []⟩, none)
  | server (e : Expression) (st : TranslationState)
      (hok : translateFilterObject (.object rest) .initial = .ok (e, st))
      (h : Translates .initial st (attributes (leavesOfMembers rest))
        (Means service fun item => service.matchesMembers item rest) e) :
      Execution service rest (some e, st.bindings, none)
  | client (hne : rest ≠ []) (h : ∀ r, translateFilterObject (.object rest) .initial ≠ .ok r) :
      Execution service rest (none, ⟨[], []⟩, some rest)

/-- A filter is carried out by the service or by the client. -/
theorem execution_of_resolve (service : Service) {rest : Members} (h : IsFilterMembers rest)
    (operation : String) :
    ∃ r, resolveFilterExecution (if rest.isEmpty then none else some rest) .clientSide operation =
      .ok r ∧ Execution service rest r := by
  split_ifs with hempty
  · exact ⟨_, rfl, .nothing (isEmpty_iff.mp hempty)⟩
  · have hsound := translateFilterObject_sound service consistent_initial (.object rest) h
    unfold resolveFilterExecution
    dsimp only
    cases hresult : translateFilterObject (.object rest) .initial with rw [hresult] at hsound
    | ok r =>
      exact ⟨_, rfl, .server r.1 r.2 hresult hsound⟩
    | error error =>
      cases error with
      | unsupported reason =>
        refine ⟨_, rfl, .client (fun hnil => hempty (isEmpty_iff.mpr hnil)) fun r hr => ?_⟩
        rw [hresult] at hr
        cases hr
      | invalid reason => exact hsound.elim

/-- The key condition of the plan. -/
def plannedKey (schema : KeySchema) (members : Members) : Option KeyCondition :=
  (partitionKeyPart schema members).map fun partition =>
    keyCondition partition (sortKeyPart schema members)

abbrev plan (schema : KeySchema) (members : Members)
    (r : Option Expression × Bindings × Option Members) : ReadStrategy :=
  ⟨plannedKey schema members, r.1, r.2.1, r.2.2⟩

/-- The plan, and how what remains of the filter is carried out. -/
theorem decideReadStrategy_ok (service : Service) (schema : KeySchema)
    (h : IsFilterMembers members) :
    ∃ r, Execution service (remaining schema members) r ∧
      decideReadStrategy schema members .clientSide = .ok (plan schema members r) := by
  have hremaining : IsFilterMembers (remaining schema members) := isFilterMembers_remaining h
  have hresidual : residualFilter members (consumedFields schema members) =
      if (remaining schema members).isEmpty then none else some (remaining schema members) := rfl
  unfold consumedFields at hresidual
  unfold decideReadStrategy plan plannedKey
  cases hpartition : partitionKeyPart schema members with simp only [hpartition] at hresidual ⊢
  | some partition =>
    obtain ⟨r, hr, hexecution⟩ := execution_of_resolve service hremaining "query"
    refine ⟨r, hexecution, ?_⟩
    rw [hresidual, hr]
    rfl
  | none =>
    obtain ⟨r, hr, hexecution⟩ := execution_of_resolve service hremaining "scan"
    refine ⟨r, hexecution, ?_⟩
    rw [hresidual, hr]
    rfl

/-- The key condition binds none of the tokens of a filter. -/
theorem lookup_keyCondition (schema : KeySchema) (members : Members) (partition : Text × Json)
    (index : ℕ) :
    (keyCondition partition (sortKeyPart schema members)).bindings.names.lookup (.n index) = none ∧
      (keyCondition partition (sortKeyPart schema members)).bindings.values.lookup (.v index) =
        none := by
  cases hsort : sortKeyPart schema members with
  | none => exact ⟨rfl, rfl⟩
  | some sort =>
    obtain ⟨sortKey, comparator, token, operand⟩ := sort
    have htoken : .v index ≠ token := ne_sortKeyPart_token hsort rfl
    have hpk : ValueToken.v index ≠ .pk := fun heq => by cases heq
    exact ⟨rfl, by simp [keyCondition, List.lookup, beq_false_of_ne htoken, beq_false_of_ne hpk]⟩

/-- The bindings of a filter stand beside those of a key condition. -/
theorem includes_append (schema : KeySchema) (members : Members) (partition : Text × Json)
    {st : TranslationState} (hst : Consistent st) :
    ((keyCondition partition (sortKeyPart schema members)).bindings.append st.bindings).Includes
      st.bindings := by
  refine ⟨fun token text h => ?_, fun token value h => ?_⟩
  · obtain ⟨index, rfl⟩ := hst.ownNames token text h
    rw [Bindings.append, lookup_append, (lookup_keyCondition schema members partition index).1,
      Option.none_or, h]
  · obtain ⟨index, rfl⟩ := hst.ownValues token value h
    rw [Bindings.append, lookup_append, (lookup_keyCondition schema members partition index).2,
      Option.none_or, h]

/-- The part of the plan the service carries out. -/
def Service.answers (service : Service) (schema : KeySchema) (members : Members)
    (clientFilter : Option Members) (item : Item) : Bool :=
  if clientFilter.isSome then service.meetsKey schema members item
  else service.planned schema members item

/-- The service's answer for an item. -/
theorem meets_eq {r : Option Expression × Bindings × Option Members}
    (h : Execution service (remaining schema members) r) (item : Item) :
    service.meets (plan schema members r) item =
      some (service.answers schema members r.2.2 item) := by
  have hkey : partitionKeyPart schema members = none →
      service.meetsKey schema members item = true := by
    intro hnone
    rw [Service.meetsKey, keyTests, hnone]
    rfl
  unfold Service.meets plan plannedKey
  cases hpartition : partitionKeyPart schema members with
  | none =>
    cases h with
    | nothing hnil =>
      simp [Service.answers, Service.planned, hkey hpartition, hnil, Service.matchesMembers]
    | client => simp [Service.answers, hkey hpartition]
    | server e st hok hst =>
      have hfilter := evaluate_of_denotes (.product (hst.means _ (.refl _) item))
      simp [Service.answers, Service.planned, hkey hpartition, hfilter]
  | some partition =>
    cases h with
    | nothing hnil =>
      have := evaluate_keyCondition service item hpartition ⟨[], []⟩
      simp [Service.answers, Service.planned, hnil, Service.matchesMembers, this]
    | client =>
      have := evaluate_keyCondition service item hpartition ⟨[], []⟩
      simp [Service.answers, this]
    | server e st hok hst =>
      have := evaluate_keyCondition service item hpartition st.bindings
      have hfilter := evaluate_of_denotes (.product
        (hst.means _ (includes_append schema members partition hst.consistent) item))
      simp [Service.answers, Service.planned, this, hfilter]

end Plan

/-! ## Pages -/

section Pages

variable {service : Service} {numbers : Numbers} {schema : KeySchema} {members : Members}

theorem page_eq {strategy : ReadStrategy} {answer : Item → Bool} (part : List Item)
    (hmeets : ∀ item, service.meets strategy item = some (answer item)) :
    service.page schema strategy part =
      if refused schema strategy then
        queryFailed "Filter Expression can only contain non-primary key attributes"
      else .ok (part.filter answer) := by
  have hanswers : (part.mapM fun item => (service.meets strategy item).map fun b => (b, item)) =
      some (part.map fun item => (answer item, item)) := by
    induction part with
    | nil => rfl
    | cons item rest ih =>
      rw [mapM_cons, ih, hmeets]
      rfl
  have hfilter : ((part.map fun item => (answer item, item)).filterMap fun pair =>
      if pair.1 then some pair.2 else none) = part.filter answer := by
    rw [filterMap_map, ← filterMap_eq_filter]
    rfl
  unfold Service.page
  split_ifs with hrefused
  · rfl
  · rw [hanswers]
    exact congrArg Except.ok hfilter

variable (items : List Item)

theorem applyItemFilter_none : applyItemFilter numbers none items = .ok items := by
  induction items with
  | nil => rfl
  | cons item rest ih =>
    rw [applyItemFilter, ih]
    rfl

theorem applyItemFilter_some {filter : Members} {keeps : Item → Bool}
    (hkeeps : ∀ item ∈ items, evaluateFilterObject numbers item filter = .ok (keeps item)) :
    applyItemFilter numbers (some filter) items = .ok (items.filter keeps) := by
  induction items with
  | nil => rfl
  | cons item rest ih =>
    have hrest := ih fun other hother => hkeeps other (mem_cons_of_mem _ hother)
    unfold applyItemFilter
    dsimp only
    rw [hkeeps item mem_cons_self, hrest, filter_cons]
    cases keeps item <;> rfl

variable {key : Item → KeyMap} {r : Option Expression × Bindings × Option Members}

theorem mapM_key_eq (hkey : ∀ item ∈ items, extractKeyMapFromItem schema item = .ok (key item)) :
    items.mapM (extractKeyMapFromItem schema) = .ok (items.map key) := by
  induction items with
  | nil => rfl
  | cons item rest ih =>
    rw [mapM_cons, hkey item mem_cons_self,
      ih fun other hother => hkey other (mem_cons_of_mem _ hother)]
    rfl

/-- The client agrees with the service on what remains of the filter, if there is an empty
clause or a blank name in it: without them it is the service that filters. -/
def ClientFilters (service : Service) (numbers : Numbers) (schema : KeySchema) (members : Members)
    (table : List Item) : Prop :=
  MembersGap (remaining schema members) → ∀ item ∈ table,
    ClientAgreesOn service numbers item (leavesOfMembers (remaining schema members))

variable (hfilter : IsFilterMembers members)
include hfilter

variable (h : Execution service (remaining schema members) r)
include h

section

variable (haccepted : refused schema (plan schema members r) = false)
include haccepted

/-- The items of one page that are kept. -/
theorem page_filtered (part : List Item)
    (hclient : ClientFilters service numbers schema members part) :
    (service.page schema (plan schema members r) part >>= applyItemFilter numbers r.2.2) =
      .ok (part.filter (service.planned schema members)) := by
  rw [page_eq part (meets_eq h), haccepted]
  cases h with
  | nothing | server => exact applyItemFilter_none _
  | client hne hnot =>
    have hagrees := hclient <| by
      by_contra hgap
      obtain ⟨r, hr⟩ := translated_of_no_gap service (isFilterMembers_remaining hfilter) hne hgap
      exact hnot r hr
    have hkeeps : ∀ item ∈ part.filter (service.answers schema members (remaining schema members)),
        evaluateFilterObject numbers item (remaining schema members) =
          .ok (service.matchesMembers item (remaining schema members)) := fun item hitem =>
      evaluateFilterObject_eq _ (isFilterMembers_remaining hfilter)
        (hagrees item (mem_filter.mp hitem).1)
    refine (applyItemFilter_some _ hkeeps).trans (congrArg Except.ok ?_)
    rw [filter_filter]
    exact filter_congr fun item _ => Bool.and_comm _ _

/-- The keys of one page. -/
theorem page_keys (part : List Item) (hclient : ClientFilters service numbers schema members part)
    (hkey : ∀ item ∈ part, extractKeyMapFromItem schema item = .ok (key item)) :
    (do
      let items ← service.page schema (plan schema members r) part
      let filtered ← applyItemFilter numbers r.2.2 items
      filtered.mapM (extractKeyMapFromItem schema)) =
      .ok ((part.filter (service.planned schema members)).map key) := by
  rw [← bind_assoc, page_filtered hfilter h haccepted part hclient]
  exact mapM_key_eq _ fun item hitem => hkey item (mem_filter.mp hitem).1

/-- **The page loop.** The keys of the items that meet the plan are collected. -/
theorem collectPages_eq (first : List Item) (others : List (List Item))
    (hclient : ClientFilters service numbers schema members (first :: others).flatten)
    (hkey : ∀ item ∈ (first :: others).flatten, extractKeyMapFromItem schema item = .ok (key item)) :
    collectPages service numbers schema (plan schema members r) first others =
      .ok (((first :: others).flatten.filter (service.planned schema members)).map key) := by
  induction others generalizing first with
  | nil =>
    rw [flatten_cons, flatten_nil, append_nil] at hclient hkey ⊢
    rw [collectPages, ← page_keys hfilter h haccepted first hclient hkey]
    simp
  | cons next others ih =>
    have hpage := page_keys hfilter h haccepted first
      (fun hgap item hitem => hclient hgap item (mem_append_left _ hitem))
      (fun item hitem => hkey item (mem_append_left _ hitem))
    have hrest := ih next (fun hgap item hitem => hclient hgap item (mem_append_right _ hitem))
      (fun item hitem => hkey item (mem_append_right _ hitem))
    rw [flatten_cons, filter_append, map_append, collectPages]
    simp only [← bind_assoc] at hpage ⊢
    rw [hpage]
    rw [hrest]
    rfl

end

omit hfilter

/-- The service refuses the query if and only if the filter names a key attribute. -/
theorem refused_iff : refused schema (plan schema members r) = true ↔
      FiltersKey schema members := by
  unfold refused FiltersKey plan plannedKey
  cases h with
  | nothing hnil => simp [hnil, leavesOfMembers]
  | client _ hnot =>
    have hnot : ¬ Translated schema members := fun ⟨r, hr⟩ => hnot r hr
    simp [hnot]
  | server e st hok hst =>
    have htranslated : Translated schema members := ⟨_, hok⟩
    have hnames : ∀ name, name ∈ st.bindings.names.map Prod.snd ↔
        name ∈ attributes (leavesOfMembers (remaining schema members)) := fun name =>
      (hst.fields name).trans (or_iff_right (by simp [TranslationState.initial]))
    simp only [Option.isSome_map, Option.isSome_some, Bool.and_true, Bool.and_eq_true,
      any_eq_true, decide_eq_true_eq, htranslated, true_and]
    refine and_congr_right fun _ => ?_
    simp only [← hnames, mem_map]
    constructor
    · rintro ⟨entry, hentry, hkey⟩
      exact ⟨_, ⟨entry, hentry, rfl⟩, hkey⟩
    · rintro ⟨_, ⟨entry, hentry, rfl⟩, hkey⟩
      exact ⟨entry, hentry, hkey⟩

omit h

end Pages

/-! ## What is collected -/

/-- What the filter says about the fields the key condition takes. -/
def consumed (schema : KeySchema) (members : Members) : Members :=
  members.filter fun member => (consumedFields schema members).contains member.1

/-- An operator of a field the key condition takes that it does not take itself. -/
def Dropped (schema : KeySchema) (members : Members) (test : Text × Comparator × Json) : Prop :=
  (∃ value, (test.1, value) ∈ consumed schema members ∧ test.2 ∈ fieldTests value) ∧
    test ∉ keyTests schema members

/-- The items of a table have keys, and no two have the same. -/
structure IsTable (schema : KeySchema) (key : Item → KeyMap) (table : List Item) : Prop where
  keys : ∀ item ∈ table, extractKeyMapFromItem schema item = .ok (key item)
  unique : (table.map key).Nodup

section Collected

variable (service : Service) {schema : KeySchema} {members : Members}

theorem matchesMembers_split (schema : KeySchema) (members : Members) (item : Item) :
    service.matchesMembers item members = (service.matchesMembers item (consumed schema members) &&
        service.matchesMembers item (remaining schema members)) := by
  rw [Bool.eq_iff_iff, Bool.and_eq_true, matchesMembers_iff, matchesMembers_iff service item,
    matchesMembers_iff service item, consumed, remaining]
  constructor
  · intro h
    exact ⟨fun member hmember => h member (mem_filter.mp hmember).1,
      fun member hmember => h member (mem_filter.mp hmember).1⟩
  · rintro ⟨hconsumed, hremaining⟩ member hmember
    cases htaken : (consumedFields schema members).contains member.1 with
    | true => exact hconsumed member (mem_filter.mpr ⟨hmember, htaken⟩)
    | false => exact hremaining member (mem_filter.mpr ⟨hmember, by rw [htaken]; rfl⟩)

/-- The operators of the key condition are operators of the fields it takes. -/
theorem consumed_of_mem_keyTests {test : Text × Comparator × Json}
    (h : test ∈ keyTests schema members) :
    ∃ value, (test.1, value) ∈ consumed schema members ∧ test.2 ∈ fieldTests value := by
  unfold keyTests at h
  unfold consumed consumedFields
  cases hpartition : partitionKeyPart schema members with rw [hpartition] at h
  | none => cases h
  | some partition =>
    rcases mem_cons.mp h with rfl | hsort
    · obtain ⟨partitionKey, -, hpart⟩ := Option.bind_eq_some_iff.mp hpartition
      obtain ⟨value, hvalue, hpart⟩ := Option.bind_eq_some_iff.mp hpart
      obtain ⟨operand, hoperand, hpart⟩ := Option.bind_eq_some_iff.mp hpart
      cases hpart
      exact ⟨value, mem_filter.mpr ⟨mem_of_lookup hvalue, by simp⟩,
        extractEqFilterValue_some hoperand⟩
    · cases hpart : sortKeyPart schema members with rw [hpart] at hsort
      | none => cases hsort
      | some sort =>
        cases mem_singleton.mp hsort
        obtain ⟨sortKey, -, hpart⟩ := Option.bind_eq_some_iff.mp hpart
        obtain ⟨value, hvalue, hpart⟩ := Option.bind_eq_some_iff.mp hpart
        obtain ⟨built, hbuilt, hpart⟩ := Option.bind_eq_some_iff.mp hpart
        cases hpart
        exact ⟨value, mem_filter.mpr ⟨mem_of_lookup hvalue, by simp⟩,
          (buildSortKeyCondition_some hbuilt).1⟩

/-- Every field the key condition takes is a key attribute. -/
theorem isKey_of_consumed {member : Text × Json} (h : member ∈ consumed schema members) :
    schema.partitionKey = some member.1 ∨ schema.sortKey = some member.1 := by
  have htaken := (mem_filter.mp h).2
  unfold consumedFields at htaken
  cases hpartition : partitionKeyPart schema members with rw [hpartition] at htaken
  | none => cases htaken
  | some partition =>
    rcases mem_cons.mp (contains_iff_mem.mp htaken) with heq | hsort
    · obtain ⟨partitionKey, hkey, hpart⟩ := Option.bind_eq_some_iff.mp hpartition
      obtain ⟨value, -, hpart⟩ := Option.bind_eq_some_iff.mp hpart
      obtain ⟨operand, -, hpart⟩ := Option.bind_eq_some_iff.mp hpart
      cases hpart
      exact .inl (heq ▸ hkey)
    · cases hpart : sortKeyPart schema members with rw [hpart] at hsort
      | none => cases hsort
      | some sort =>
        obtain ⟨sortKey, hkey, hpart⟩ := Option.bind_eq_some_iff.mp hpart
        obtain ⟨value, -, hpart⟩ := Option.bind_eq_some_iff.mp hpart
        obtain ⟨built, -, hpart⟩ := Option.bind_eq_some_iff.mp hpart
        cases hpart
        exact .inr (mem_singleton.mp hsort ▸ hkey)

/-- The key condition says what the filter says of the fields it takes if and only if the
operators it drops hold of the items that meet it. -/
theorem meetsKey_iff_dropped (hnames : ∀ name, schema.partitionKey = some name ∨
      schema.sortKey = some name → connectiveOf name = none) (item : Item) :
    (service.meetsKey schema members item = true ↔
      service.matchesMembers item (consumed schema members) = true) ↔
    (service.meetsKey schema members item = true → ∀ test, Dropped schema members test →
      service.holds item test.1 test.2 = true) := by
  have hkey : service.meetsKey schema members item = true ↔
      ∀ test ∈ keyTests schema members, service.holds item test.1 test.2 = true := all_eq_true
  have hmatches : service.matchesMembers item (consumed schema members) = true ↔
      ∀ member ∈ consumed schema members, ∀ test ∈ fieldTests member.2,
        service.holds item member.1 test = true := by
    rw [matchesMembers_iff]
    refine forall₂_congr fun member hmember => ?_
    have hnone := hnames member.1 (isKey_of_consumed hmember)
    simp [Service.matchesMembers, hnone, Service.matchesField]
  rw [hkey, hmatches]
  constructor
  · rintro hsame hmeets test ⟨⟨value, hvalue, htest⟩, -⟩
    exact hsame.mp hmeets _ hvalue _ htest
  · intro hdropped
    constructor
    · intro hmeets member hmember test htest
      by_cases htaken : (member.1, test) ∈ keyTests schema members
      · exact hmeets _ htaken
      · exact hdropped hmeets (member.1, test) ⟨⟨member.2, hmember, htest⟩, htaken⟩
    · intro hall test htest
      obtain ⟨value, hvalue, hmem⟩ := consumed_of_mem_keyTests htest
      exact hall _ hvalue _ hmem

variable (numbers : Numbers)

/-- **What is collected.** The keys of the items that meet the key condition and match what
remains of the filter, unless the service refuses the request. -/
theorem collectMatchingKeyMaps_eq (schema : KeySchema) (members : Members) {key : Item → KeyMap}
    (first : List Item) (others : List (List Item)) (hfilter : IsFilterMembers members)
    (htable : IsTable schema key (first :: others).flatten)
    (hclient : ClientFilters service numbers schema members (first :: others).flatten) :
    (FiltersKey schema members → ∃ error,
      collectMatchingKeyMaps service numbers schema members first others = .error error) ∧
    (¬ FiltersKey schema members →
      collectMatchingKeyMaps service numbers schema members first others =
        .ok (((first :: others).flatten.filter (service.planned schema members)).map key)) := by
  obtain ⟨r, hexecution, hstrategy⟩ := decideReadStrategy_ok service schema hfilter
  unfold collectMatchingKeyMaps
  rw [hstrategy]
  constructor
  · intro hkey
    have hrefused := (refused_iff hexecution).mpr hkey
    refine ⟨.queryFailed "Filter Expression can only contain non-primary key attributes".toList, ?_⟩
    change collectPages service numbers schema _ first others = _
    rw [collectPages, page_eq first (meets_eq hexecution), if_pos hrefused]
    rfl
  · intro hkey
    have haccepted := Bool.eq_false_iff.mpr ((refused_iff hexecution).not.mpr hkey)
    exact collectPages_eq hfilter hexecution haccepted first others hclient htable.keys

/-- **Exactly the matching items.** The keys collected are those of the items that match the
filter, each once, if and only if the filter does not make the service refuse the query and
the key condition says, of the items that match the rest of the filter, what the filter says
of the fields it takes: the operators it drops hold of the items that meet it. -/
theorem collected_exactly_iff (schema : KeySchema) (members : Members) (key : Item → KeyMap)
    (first : List Item) (others : List (List Item)) (hfilter : IsFilterMembers members)
    (htable : IsTable schema key (first :: others).flatten)
    (hclient : ClientFilters service numbers schema members (first :: others).flatten) :
    ((∃ keys, collectMatchingKeyMaps service numbers schema members first others = .ok keys ∧
      keys.Nodup ∧ ∀ k, k ∈ keys ↔ ∃ item ∈ (first :: others).flatten,
        service.matchesMembers item members = true ∧ key item = k) ↔
    ¬ FiltersKey schema members ∧ ∀ item ∈ (first :: others).flatten,
      service.matchesMembers item (remaining schema members) = true →
        (service.meetsKey schema members item = true ↔
          service.matchesMembers item (consumed schema members) = true)) ∧
    -- no key attribute is called `$and` or `$or`
    ((∀ name, schema.partitionKey = some name ∨ schema.sortKey = some name →
        connectiveOf name = none) → ∀ item,
      ((service.meetsKey schema members item = true ↔
          service.matchesMembers item (consumed schema members) = true) ↔
        (service.meetsKey schema members item = true → ∀ test, Dropped schema members test →
          service.holds item test.1 test.2 = true))) := by
  refine ⟨?_, fun hnames => meetsKey_iff_dropped service hnames⟩
  obtain ⟨hrefused, haccepted⟩ :=
    collectMatchingKeyMaps_eq service numbers schema members first others hfilter htable hclient
  generalize (first :: others).flatten = table at *
  have hinjective : ∀ a ∈ table, ∀ b ∈ table, key a = key b → a = b := fun a ha b hb =>
    inj_on_of_nodup_map htable.unique ha hb
  constructor
  · rintro ⟨keys, hkeys, -, hmem⟩
    have hnot : ¬ FiltersKey schema members := fun hkey => by
      obtain ⟨error, herror⟩ := hrefused hkey
      rw [herror] at hkeys
      cases hkeys
    refine ⟨hnot, fun item hitem hrest => ?_⟩
    rw [haccepted hnot] at hkeys
    cases hkeys
    have hsplit := matchesMembers_split service schema members item
    have hboth : service.planned schema members item = true ↔
        service.matchesMembers item members = true := by
      constructor
      · intro hplanned
        obtain ⟨other, hother, hmatches, hkey⟩ := (hmem (key item)).mp
          (mem_map_of_mem (mem_filter.mpr ⟨hitem, hplanned⟩))
        rwa [hinjective _ hother _ hitem hkey] at hmatches
      · intro hmatches
        obtain ⟨other, hother, hkey⟩ := mem_map.mp
          ((hmem (key item)).mpr ⟨item, hitem, hmatches, rfl⟩)
        rw [mem_filter] at hother
        rw [← hinjective _ hother.1 _ hitem hkey]
        exact hother.2
    rwa [Service.planned, hsplit, hrest, Bool.and_true, Bool.and_true] at hboth
  · rintro ⟨hnot, hsame⟩
    refine ⟨_, haccepted hnot, (List.filter_sublist.map key).nodup htable.unique, fun k => ?_⟩
    have hboth : ∀ item ∈ table, service.planned schema members item =
        service.matchesMembers item members := by
      intro item hitem
      rw [Service.planned, matchesMembers_split service schema members item]
      cases hrest : service.matchesMembers item (remaining schema members) with
      | false => simp
      | true => rw [Bool.and_true, Bool.and_true, Bool.eq_iff_iff.mpr (hsame item hitem hrest)]
    rw [filter_congr hboth]
    simp [and_assoc]

end Collected

/-! ## A lost bound -/

/-- The order of strings, and of natural numbers. -/
def plainOrder : AttributeValue → AttributeValue → Option Ordering
  | .s a, .s b => some (List.compareLex compare a b)
  | .n a, .n b => some (compare (Nat.ofDigits 10 (a.map fun c => c.toNat - 48).reverse)
      (Nat.ofDigits 10 (b.map fun c => c.toNat - 48).reverse))
  | _, _ => none

/-- A service for items of strings and natural numbers. -/
def plainService : Service where
  nested _ _ := none
  stored := id
  compare comparator actual value :=
    let order := actual.bind fun actual => plainOrder actual value
    match comparator, actual, value with
    | .eq, _, _ => order == some .eq
    | .ne, _, _ => order != some .eq
    | .gt, _, _ => order == some .gt
    | .gte, _, _ => order == some .gt || order == some .eq
    | .lt, _, _ => order == some .lt
    | .lte, _, _ => order == some .lt || order == some .eq
    | .beginsWith, some (.s text), .s start => start.isPrefixOf text
    | .beginsWith, _, _ => false

/-- The client of these examples compares no numbers. -/
def noNumbers : Numbers := ⟨.ok, fun _ _ => none⟩

/-- An item with a partition and a sort key. -/
def keyedItem (pk sk : String) : Item := fun name =>
  if name = "pk".toList then some (.s pk.toList)
  else if name = "sk".toList then some (.n sk.toList)
  else none

def keyedSchema : KeySchema := ⟨some "pk".toList, some "sk".toList⟩

/-- The filter `{"pk": "a", "sk": {"$gt": 1}}`, with further operators for the sort key. -/
def aboveOne (others : Members) : Members :=
  [("pk".toList, .string "a".toList),
    ("sk".toList, .object (("$gt".toList, .number "1".toList) :: others))]

/-- With one operator for each part of the key, the keys above 1 are collected. -/
theorem collected_exactly_aboveOne :
    ∃ keys, collectMatchingKeyMaps plainService noNumbers keyedSchema (aboveOne [])
      [keyedItem "a" "1"] [[keyedItem "a" "9"]] = .ok keys ∧ keys.Nodup ∧
      ∀ k, k ∈ keys ↔ ∃ item ∈ [[keyedItem "a" "1"], [keyedItem "a" "9"]].flatten,
        plainService.matchesMembers item (aboveOne []) = true ∧
          [("pk".toList, (item "pk".toList).getD (.null true)),
            ("sk".toList, (item "sk".toList).getD (.null true))] = k := by
  refine (collected_exactly_iff plainService noNumbers keyedSchema (aboveOne [])
    (fun item => [("pk".toList, (item "pk".toList).getD (.null true)),
      ("sk".toList, (item "sk".toList).getD (.null true))]) _ _ ?_ ?_ ?_).1.mpr ⟨?_, ?_⟩
  · have hpk : IsField "pk".toList (.string "a".toList) :=
      ⟨by decide, by decide, fun members hmembers => by cases hmembers⟩
    have hsk : IsField "sk".toList (.object [("$gt".toList, .number "1".toList)]) := by
      refine ⟨by decide, by decide, fun members hmembers member hmember => ?_⟩
      cases hmembers
      cases mem_singleton.mp hmember
      exact ⟨.gt, by decide, fun heq => by cases heq⟩
    exact ⟨hpk, hsk, trivial⟩
  · refine ⟨fun item hitem => ?_, ?_⟩
    · rcases mem_pair.mp hitem with rfl | rfl <;> rfl
    · simp [keyedItem]
  · exact fun _ _ _ leaf hleaf => absurd hleaf not_mem_nil
  · rintro ⟨-, -, name, hname, -⟩
    exact absurd hname not_mem_nil
  · intro item hitem _
    rcases mem_pair.mp hitem with rfl | rfl <;> decide +kernel

/-- **The upper bound of a range is lost.** The item with the sort key 9 is collected for a
filter on the sort keys between 1 and 5. -/
theorem lost_upper_bound : plainService.matchesMembers (keyedItem "a" "9")
      (aboveOne [("$lt".toList, .number "5".toList)]) = false ∧
    collectMatchingKeyMaps plainService noNumbers keyedSchema
      (aboveOne [("$lt".toList, .number "5".toList)]) [keyedItem "a" "9"] [] =
        .ok [[("pk".toList, .s "a".toList), ("sk".toList, .n "9".toList)]] :=
  ⟨by decide +kernel, rfl⟩

end Dbflux.Dynamo
