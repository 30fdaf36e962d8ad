import Dbflux.Delimited.WriterSave

/-!
# Output records and how they read back

What the writer puts one after another is a list of pieces, each of which reads
as one record. A piece has to be kept apart from the one in front of it (a
line feed must not join a carriage return) and from the one behind it (it needs
a terminator).

Results:
* `Pieces.rawRecords`: pieces that are terminated, the last one apart, are read
  back one by one.
* `ownOut_of_body`, `ownOut_copied`: rendered, extended and copied records are
  pieces.
-/

namespace Dbflux.Delimited

open Lib List

variable {layout : Layout} {encoding : Encoding}

/-! ## Terminators -/

/-- The bytes are a line break. -/
def IsTerminator (layout : Layout) (bytes : Bytes) : Prop :=
  ∃ term ∈ terminators, term ≠ [] ∧ bytes = term.flatMap layout.width.unitBytes

theorem isTerminator_lineFeed (layout : Layout) :
    IsTerminator layout (layout.width.unitBytes lineFeed) :=
  ⟨[lineFeed], by simp [terminators], by simp, by simp⟩

variable {term : List ℕ} {p written : Bytes} {ps : List Bytes}

theorem terminators_lt (layout : Layout) (h : term ∈ terminators) :
    ∀ u ∈ term, u < layout.width.bound := by
  have hbound : 256 ≤ layout.width.bound := by cases layout.width <;> decide
  intro u hu
  have hsmall : u = lineFeed ∨ u = carriageReturn := by
    simp only [terminators, mem_cons, not_mem_nil, or_false] at h
    rcases h with rfl | rfl | rfl | rfl <;> simp_all [or_comm]
  rcases hsmall with rfl | rfl <;> exact Nat.lt_of_lt_of_le (by decide) hbound

theorem lineFeed_lt_bound (layout : Layout) : lineFeed < layout.width.bound := by
  have hmem : [lineFeed] ∈ terminators := by simp [terminators]
  exact terminators_lt layout hmem lineFeed (by simp)

theorem terminatorOf_cases (bytes : Bytes) :
    terminatorOf layout bytes = [] ∨ IsTerminator layout (terminatorOf layout bytes) := by
  by_cases hwhole : layout.width.size ∣ bytes.length
  · have hlength := length_of_whole hwhole
    have hhalf := (layout.width.half_eq_nil_iff bytes).mpr hwhole
    have hdrop : ∀ n, n ≤ (layout.width.units bytes).length →
        bytes.drop (bytes.length - layout.width.size * n) =
          ((layout.width.units bytes).drop ((layout.width.units bytes).length - n)).flatMap
            layout.width.unitBytes := by
      intro n hn
      rw [hlength, ← Nat.mul_sub, (layout.width.split_eq_flatMap (Nat.sub_le _ _)).2, hhalf, append_nil]
    unfold terminatorOf
    rw [terminatorLength_eq hwhole]
    -- the last one or two units
    rcases eq_nil_or_concat (layout.width.units bytes) with hnil | ⟨init, u, hunits⟩
    · left
      rw [hnil]
      simp
    · rw [concat_eq_append] at hunits
      rw [hunits] at hdrop ⊢
      rw [reverse_append, reverse_singleton, singleton_append,
        getElem?_cons_zero, getElem?_cons_succ]
      split_ifs with hpair hsingle
      · right
        obtain ⟨hu, hv⟩ := hpair
        cases hu
        rcases eq_nil_or_concat init with rfl | ⟨start, v, rfl⟩
        · cases hv
        · rw [concat_eq_append, reverse_append] at hv
          cases hv
          refine ⟨[carriageReturn, lineFeed], by simp [terminators], by simp, ?_⟩
          rw [Nat.mul_comm 2, hdrop 2 (by simp), concat_eq_append, append_assoc]
          congr 1
          exact drop_left' (by simp)
      · right
        refine ⟨[u], ?_, by simp, ?_⟩
        · rcases hsingle with hu | hu <;> obtain rfl := Option.some.inj hu <;> simp [terminators]
        · have := hdrop 1 (by simp)
          rw [Nat.mul_one] at this
          rw [this]
          congr 1
          exact drop_left' (by simp)
      · left
        rw [Nat.sub_zero, drop_length]
  · left
    exact terminatorOf_of_not_whole fun hmod => hwhole (Nat.dvd_of_mod_eq_zero hmod)

theorem flatMap_unitBytes_ne_nil (layout : Layout) (hmem : term ∈ terminators) (hne : term ≠ []) :
    term.flatMap layout.width.unitBytes ≠ [] := by
  intro hnil
  have hlength := layout.width.flatMap_unitBytes_length (terminators_lt layout hmem)
  rw [hnil, length_nil] at hlength
  have hpos := Nat.mul_pos layout.width.size_pos (length_pos_iff.mpr hne)
  omega

theorem IsTerminator.ne_nil {bytes : Bytes} (h : IsTerminator layout bytes) : bytes ≠ [] := by
  obtain ⟨term, hmem, hne, rfl⟩ := h
  exact flatMap_unitBytes_ne_nil layout hmem hne

/-- A record that ends with a line break of its own. -/
def Terminated (layout : Layout) (p : Bytes) : Prop :=
  ∃ body term, Shaped layout p body term ∧ term ≠ []

theorem Shaped.terminated {body : List ℕ} (h : Shaped layout p body term)
    (hterm : Delimited.terminatorOf layout p ≠ []) : Terminated layout p := by
  refine ⟨body, term, h, ?_⟩
  rintro rfl
  rw [h.terminatorOf] at hterm
  exact hterm rfl

/-! ## Pieces -/

/-- After the bytes `written`, `p` reads as one record with these fields. -/
structure Piece (layout : Layout) (encoding : Encoding) (written p : Bytes) (fields : List Text) :
    Prop where
  whole : layout.width.size ∣ p.length
  joins : (∃ u rest, layout.width.units p = u :: rest ∧ u ≠ lineFeed) ∨
    endsWithReturn layout written = false
  single : EndsBefore layout p []
  fields : (decodeFields p layout encoding).1 = fields

/-- Pieces one after another. -/
inductive Pieces (layout : Layout) (encoding : Encoding) :
    Bytes → List Bytes → List (List Text) → Prop
  | nil (written : Bytes) : Pieces layout encoding written [] []
  | cons {written p : Bytes} {ps : List Bytes} {fields : List Text} {rest : List (List Text)} :
      Piece layout encoding written p fields → Pieces layout encoding (written ++ p) ps rest →
      Pieces layout encoding written (p :: ps) (fields :: rest)

theorem Pieces.append {qs : List Bytes} {fields rest : List (List Text)}
    (h : Pieces layout encoding written ps fields)
    (h' : Pieces layout encoding (written ++ ps.flatten) qs rest) :
    Pieces layout encoding written (ps ++ qs) (fields ++ rest) := by
  induction h with
  | nil written => simpa using h'
  | cons hpiece _ ih =>
    refine .cons hpiece (ih ?_)
    rwa [flatten_cons, ← append_assoc] at h'

theorem Pieces.fields_eq {fields : List (List Text)} (h : Pieces layout encoding written ps fields) :
    ps.map (fun p => (decodeFields p layout encoding).1) = fields := by
  induction h with
  | nil => rfl
  | cons hpiece _ ih => rw [map_cons, hpiece.fields, ih]

/-- A terminated record ends where the next piece starts. -/
theorem Terminated.follows {q : Bytes} {fields : List Text} (h : Terminated layout p)
    (hw : layout.width.size ∣ written.length) (hq : Piece layout encoding (written ++ p) q fields) :
    Follows layout p q := by
  obtain ⟨body, term, hshape, hterm⟩ := h
  refine hshape.settled hterm fun hreturn => ?_
  rcases hq.joins with hjoins | hno
  · exact hjoins
  · have hlast : (layout.width.units p).getLast? = some carriageReturn := by
      rw [hshape.units, hreturn, getLast?_append]
      rfl
    have hne : p ≠ [] := by
      rintro rfl
      rw [layout.width.units_nil] at hlast
      cases hlast
    rw [endsWithReturn, unitAt_last hne hshape.whole, hlast, length_append,
      Nat.mod_eq_zero_of_dvd (Nat.dvd_add hw hshape.whole)] at hno
    simp at hno

/-- **Pieces are read back one by one.** -/
theorem Pieces.rawRecords {fields : List (List Text)} (h : Pieces layout encoding written ps fields)
    (hw : layout.width.size ∣ written.length) (hterm : ∀ p ∈ ps.dropLast, Terminated layout p) :
    Delimited.rawRecords layout ps.flatten = ps := by
  refine rawRecords_of_chain ?_ ?_
  · induction h with
    | nil => exact .nil
    | @cons written p ps fields rest hpiece hrest ih =>
      cases hrest with
      | nil => exact .singleton p
      | @cons q qs _ _ _ hq hqs =>
        refine isChain_cons_cons.mpr ⟨(hterm p mem_cons_self).follows hw hq, ?_⟩
        refine ih ?_ fun r hr => hterm r (mem_cons_of_mem _ hr)
        rw [length_append]
        exact Nat.dvd_add hw hpiece.whole
  · clear hterm hw
    induction h with
    | nil =>
      intro p hp
      cases hp
    | @cons written p ps fields rest hpiece hrest ih =>
      intro q hq
      cases ps with
      | nil =>
        cases hq
        exact hpiece.single
      | cons r rs => exact ih q (by rwa [getLast?_cons_cons] at hq)

/-! ## Bodies with a terminator -/

section Body

variable {written b raw own : Bytes} {encoded : List Bytes}

variable {bytes x : Bytes} {body term : List ℕ}

variable (h : RendersRecord layout b encoded)
include h

/-- A body and a terminator are a shaped record. -/
theorem RendersRecord.shaped_of_mem (hmem : term ∈ terminators) :
    Shaped layout (b ++ term.flatMap layout.width.unitBytes) (layout.width.units b) term := by
  have hlt := terminators_lt layout hmem
  have hunits : layout.width.units (term.flatMap layout.width.unitBytes) = term := by
    simpa [layout.width.units_nil] using layout.width.units_flatMap hlt []
  refine ⟨?_, ?_, h.isOpen, hmem⟩
  · rw [length_append, layout.width.flatMap_unitBytes_length hlt]
    exact Nat.dvd_add h.whole (Nat.dvd_mul_right _ _)
  · rw [layout.width.units_append _ h.whole, hunits]

theorem RendersRecord.shaped (hbytes : bytes = [] ∨ IsTerminator layout bytes) :
    ∃ term, Shaped layout (b ++ bytes) (layout.width.units b) term ∧ (bytes ≠ [] → term ≠ []) := by
  rcases hbytes with rfl | ⟨term, hmem, hne, rfl⟩
  · -- no line break at all is the empty terminator
    have hmem : [] ∈ terminators := by simp [terminators]
    exact ⟨[], h.shaped_of_mem hmem, fun hne => absurd rfl hne⟩
  · exact ⟨term, h.shaped_of_mem hmem, fun _ => hne⟩

/-- The texts of encoded fields. -/
def decoded (encoding : Encoding) (encoded : List Bytes) : List Text :=
  encoded.map fun bytes => (encoding.decode bytes).1

omit h in
theorem Shaped.fields {p : Bytes} (h : Shaped layout p body term) :
    (decodeFields p layout encoding).1 = decoded encoding (bodyFields layout body) := by
  show ((Delimited.splitFields p layout).map encoding.decode).map Prod.fst = _
  rw [h.splitFields, map_map]
  rfl

/-- A body that is not empty, with or without a terminator. -/
theorem RendersRecord.piece (hne : b ≠ [])
    (hbytes : bytes = [] ∨ IsTerminator layout bytes) (written : Bytes) :
    Piece layout encoding written (b ++ bytes) (decoded encoding encoded) := by
  obtain ⟨term, hshape, -⟩ := h.shaped hbytes
  obtain ⟨state, hadv, -⟩ := h.isOpen
  refine ⟨hshape.whole, .inl ?_, hshape.single fun hnil => hne (append_eq_nil_iff.mp hnil).1, ?_⟩
  · cases hunits : layout.width.units b with
    | nil =>
      have hlength := length_of_whole h.whole
      rw [hunits, length_nil, Nat.mul_zero] at hlength
      exact absurd (length_eq_zero_iff.mp hlength) hne
    | cons u us =>
      rw [hunits] at hadv
      refine ⟨u, us ++ term, ?_, ?_⟩
      · rw [hshape.units, hunits]
        rfl
      · rintro rfl
        simpa [step, Step.Continues] using (advance_cons.mp hadv).1
  · rw [hshape.fields, h.fields]

theorem RendersRecord.terminated (hbytes : IsTerminator layout bytes) : Terminated layout
    (b ++ bytes) := by
  obtain ⟨term, hshape, hterm⟩ := h.shaped (.inr hbytes)
  exact ⟨_, term, hshape, hterm hbytes.ne_nil⟩

omit h

/-- The output record of the source record `raw` itself: it has a terminator if
`raw` has one, and can be given one if not. -/
structure OwnOut (layout : Layout) (encoding : Encoding) (written raw own : Bytes)
    (fields : List Text) : Prop where
  piece : Piece layout encoding written own fields
  terminated : terminatorOf layout raw ≠ [] → Terminated layout own
  extended : terminatorOf layout raw = [] → ∀ bytes, IsTerminator layout bytes →
    Piece layout encoding written (own ++ bytes) fields ∧ Terminated layout (own ++ bytes)

/-- A body in front of the terminator of the source record. -/
theorem ownOut_of_body (encoding : Encoding) (h : RendersRecord layout b encoded) (hne : b ≠ [])
    (written raw : Bytes) :
    OwnOut layout encoding written raw (b ++ terminatorOf layout raw) (decoded encoding encoded) := by
  refine ⟨h.piece hne (terminatorOf_cases raw) written, fun hterm => ?_, fun hterm bytes hbytes => ?_⟩
  · exact h.terminated ((terminatorOf_cases raw).resolve_left hterm)
  · rw [hterm, append_nil]
    exact ⟨h.piece hne (.inr hbytes) written, h.terminated hbytes⟩

/-- The body of a source record. -/
theorem Shaped.rendersRecord (h : Shaped layout raw body term) :
    RendersRecord layout (Delimited.contentOf layout raw) (bodyFields layout body) := by
  have hlt : ∀ u ∈ body, u < layout.width.bound := fun u hu =>
    layout.width.mem_units_lt (by rw [h.units]; exact mem_append_left _ hu)
  have hunits : layout.width.units (Delimited.contentOf layout raw) = body := by
    rw [h.contentOf]
    simpa [layout.width.units_nil] using layout.width.units_flatMap hlt []
  refine ⟨?_, by rw [hunits]; exact h.isOpen, by rw [hunits]⟩
  rw [h.contentOf, layout.width.flatMap_unitBytes_length hlt]
  exact Nat.dvd_mul_right _ _

theorem contentOf_append_terminatorOf (layout : Layout) (raw : Bytes) :
    contentOf layout raw ++ terminatorOf layout raw = raw := take_append_drop _ _

/-! ## Copied records -/

/-- A record that starts with a line feed is an empty line. -/
theorem eq_lineFeed_of_head (h : EndsBefore layout raw x)
    (hfeed : (layout.width.units raw).head? = some lineFeed) :
    raw = layout.width.unitBytes lineFeed := by
  obtain ⟨rest, hrest⟩ := head?_eq_some_iff.mp hfeed
  obtain ⟨more, hmore⟩ := layout.width.units_prefix raw x
  have hends := h
  unfold EndsBefore recordLength at hends
  have hstep : step layout .fieldStart lineFeed = (.fieldStart, .recordEnd) :=
    step_lineFeed trivial
  rw [← hmore, hrest, cons_append, recordLengthFrom, hstep] at hends
  have hlength : raw.length = layout.width.size * 1 := by
    have := Option.some.inj hends
    omega
  have hone : 1 ≤ (layout.width.units raw).length := by rw [hrest]; simp
  have htake := (layout.width.split_eq_flatMap hone).1
  rw [← hlength, take_length, hrest] at htake
  simpa using htake

/-- A copied record, whatever follows it in the source. -/
theorem piece_copied (encoding : Encoding) (h : EndsBefore layout raw x)
    (hwhole : layout.width.size ∣ raw.length) (hown : copied layout written raw = some own) :
    Piece layout encoding written own (decodeFields raw layout encoding).1 ∧
    (Terminated layout raw → Terminated layout own) ∧
    (terminatorOf layout raw = [] → own = raw) := by
  unfold copied at hown
  split_ifs at hown with hseam
  · -- the empty line becomes an empty quoted field
    obtain ⟨quote, hquote, rfl⟩ := Option.map_eq_some_iff.mp hown
    have hraw := eq_lineFeed_of_head h hseam.2
    have hlf : IsTerminator layout (layout.width.unitBytes lineFeed) := isTerminator_lineFeed layout
    have hempty : RendersRecord layout
        (layout.width.unitBytes quote ++ layout.width.unitBytes quote) [[]] := by
      have hnil : layout.width.size ∣ ([] : Bytes).length := Nat.dvd_zero _
      have hfield := (rendersField_quoted hquote hnil).record
      simpa [Renderer.quoted] using hfield
    have hne : layout.width.unitBytes quote ++ layout.width.unitBytes quote ≠ [] := by
      have := layout.width.unitBytes_length (quote_lt_bound hquote)
      have := layout.width.size_pos
      intro hnil
      have := congrArg List.length (append_eq_nil_iff.mp hnil).1
      rw [length_nil] at this
      omega
    have hrawShape : Shaped layout raw [] [lineFeed] := by
      refine ⟨hwhole, ?_, ⟨.fieldStart, rfl, trivial⟩, by simp [terminators]⟩
      rw [hraw, layout.width.units_unitBytes (lineFeed_lt_bound layout)]
      rfl
    refine ⟨?_, fun _ => ?_, fun hterm => ?_⟩
    · rw [hrawShape.fields, hraw]
      exact hempty.piece hne (.inr hlf) written
    · rw [hraw]
      exact hempty.terminated hlf
    · rw [hrawShape.terminatorOf] at hterm
      exact absurd hterm (flatMap_unitBytes_ne_nil layout hrawShape.term (by simp))
  · cases hown
    refine ⟨⟨hwhole, ?_, h.nil, rfl⟩, id, fun _ => rfl⟩
    by_cases hreturn : endsWithReturn layout written = true
    · left
      cases hunits : layout.width.units raw with
      | nil =>
        have hlength := length_of_whole hwhole
        rw [hunits, length_nil, Nat.mul_zero] at hlength
        exact absurd (length_eq_zero_iff.mp hlength) h.ne_nil
      | cons u us =>
        refine ⟨u, us, rfl, ?_⟩
        rintro rfl
        exact hseam ⟨hreturn, by rw [hunits]; rfl⟩
    · exact Or.inr (Bool.eq_false_iff.mpr hreturn)

/-- A copied record that does not end inside quotes. -/
theorem ownOut_copied (h : EndsBefore layout raw x) (hshape : Shaped layout raw body term)
    (hown : copied layout written raw = some own) :
    OwnOut layout encoding written raw own (decodeFields raw layout encoding).1 := by
  obtain ⟨hpiece, hterminated, hsame⟩ := piece_copied encoding h hshape.whole hown
  refine ⟨hpiece, fun hterm => hterminated (hshape.terminated hterm), fun hterm bytes hbytes => ?_⟩
  have hcontent : contentOf layout raw = raw := by
    have := contentOf_append_terminatorOf layout raw
    rwa [hterm, append_nil] at this
  have hbody := hshape.rendersRecord
  rw [hcontent] at hbody
  rw [hsame hterm, hshape.fields]
  exact ⟨hbody.piece h.ne_nil (.inr hbytes) written, hbody.terminated hbytes⟩

end Body

end Dbflux.Delimited
