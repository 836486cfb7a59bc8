/-
MarkovLogic/Proofs/Grounding/Preparation.lean

Why a clause can or cannot be grounded.

A clause of a model is refused for two reasons only: a predicate that is computed
and has no rule, or else a variable that stands in no argument of a declared
predicate (`Preparation`).  Other reasons are ruled out before.  A clause with a
weight that is not a number does not get into a knowledge base that is put together
by declarations (`KnowledgeBase.Declared`), a predicate that is neither declared nor
computed does not pass the check of the model, and for every predicate whose atoms
are numbered there is evidence.

A clause that is not refused is grounded without fallbacks
(`Template.NothingMissing`): every variable has its digit, all combinations of
digits that are taken in are in range, and under each of them every literal finds
the same as without fallbacks.

Main statement: `Declarations.preparation_of_build`.
-/
import MarkovLogic.Proofs.Computed
import MarkovLogic.Proofs.Evidence.Faithful
import MarkovLogic.Proofs.Grounding.Instances
import MarkovLogic.Proofs.Grounding.Slots

namespace MarkovLogic

open Grounding

variable {α : Type} [Scalar α]

/-! ### Knowledge bases put together by declarations -/

/-- The knowledge bases that declarations lead to.  The computed predicates may be
exchanged at any time. -/
inductive KnowledgeBase.Declared : KnowledgeBase α → Prop
  | empty : Declared .empty
  | predicate {kb : KnowledgeBase α} (h : Declared kb) (symbol : String) (types : List String) :
      Declared (kb.declarePredicate symbol types)
  | constants {kb : KnowledgeBase α} (h : Declared kb) (typeName : String)
      (names : List String) : Declared (kb.declareConstants typeName names)
  | computed {kb : KnowledgeBase α} (h : Declared kb) (computed : Computed) :
      Declared { kb with computed }
  | clause {kb kb' : KnowledgeBase α} (h : Declared kb) {c : Clause α}
      (hc : kb.addClause c = .ok kb') : Declared kb'

/-- The weights of their clauses are numbers. -/
theorem KnowledgeBase.Declared.isNaN_weight {kb : KnowledgeBase α} (h : kb.Declared) :
    ∀ c ∈ kb.clauses, Scalar.isNaN c.weight = false := by
  induction h with
  | empty => simp [KnowledgeBase.empty]
  | predicate _ _ _ ih => exact ih
  | constants _ _ _ ih => exact ih
  | computed _ _ ih => exact ih
  | @clause kb kb' _ c hc ih =>
    rw [addClause] at hc
    split at hc
    · cases hc
    · rename_i hnan
      cases hc
      intro c' hc'
      rcases Array.mem_push.1 hc' with hold | rfl
      · exact ih c' hold
      · exact Bool.eq_false_iff.2 hnan

namespace Model

variable {m : Model α}

/-- The predicate is not declared, and computed without a rule. -/
def LacksRule (m : Model α) (l : Literal) : Prop :=
  m.kb.schema.contains l.atom.signature = false ∧
    m.kb.computed.rule? l.atom.signature = some none

/-- The variable stands in an argument of a declared predicate. -/
def IsTyped (m : Model α) (c : Clause α) (v : String) : Prop :=
  ∃ l ∈ c.literals, m.kb.schema.contains l.atom.signature = true ∧ Term.var v ∈ l.atom.terms

end Model

namespace Grounding

variable {m : Model α} {index : Nat} {c : Clause α} {t : Template α}

/-! ### Sources -/

section Sources

variable {schema : List (Signature × List Domain)} {l : Literal} {r : Resolved}

omit [Scalar α]

/-- A predicate that is declared or computed has a source unless it lacks a rule. -/
theorem resolve_eq_error_iff (h : m.Built schema)
    (hl : m.kb.computed.contains l.atom.signature = true ∨
      m.kb.schema.contains l.atom.signature = true) {e : GroundingError} :
    resolve m l = .error e ↔ m.LacksRule l ∧ e = .unsupported l.atom.signature := by
  rw [Model.LacksRule, resolve]
  rcases hevidence : m.evidenceOf? l.atom.signature with _ | evidence
  · have hundeclared : m.kb.schema.contains l.atom.signature = false := by
      rw [Bool.eq_false_iff, Ne, h.contains_schema_iff, hevidence]
      simp
    rw [hundeclared] at hl
    have hcomputed := hl.resolve_right Bool.false_ne_true
    rw [Computed.contains, Std.HashMap.contains_eq_isSome_getElem?] at hcomputed
    obtain ⟨rule, hrule⟩ := Option.isSome_iff_exists.1 hcomputed
    have hfound : m.kb.computed.rule? l.atom.signature = some rule := hrule
    rcases rule with _ | rule <;> simp [hundeclared, hfound, eq_comm]
  · have hdeclared := h.contains_schema_iff.2 ⟨evidence, hevidence⟩
    simp [hdeclared]

theorem exists_resolve_iff (h : m.Built schema)
    (hl : m.kb.computed.contains l.atom.signature = true ∨
      m.kb.schema.contains l.atom.signature = true) :
    (∃ r, resolve m l = .ok r) ↔ ¬ m.LacksRule l := by
  have herror := fun e => resolve_eq_error_iff h hl (e := e)
  rcases hr : resolve m l with e | r
  · have hlacks := ((herror e).1 hr).1
    simp [hlacks]
  · refine iff_of_true ⟨r, rfl⟩ fun hlacks => ?_
    rw [(herror _).2 ⟨hlacks, rfl⟩] at hr
    cases hr

/-- An argument that is looked up has a domain. -/
theorem typed_of_resolve (h : m.Built schema) (hr : resolve m l = .ok r) : r.Typed := by
  intro e he
  obtain ⟨rfl, ⟨e', he', hevidence⟩ | ⟨rule, hrule, -⟩⟩ := resolve_eq_ok hr
  · obtain rfl : e' = e := Source.stored.inj (he'.symm.trans he)
    obtain ⟨hmem, hsig⟩ := h.evidenceOf?_eq_some_iff.1 hevidence
    rw [h.length_domains _ (h.entry_mem hmem), hsig]
    rfl
  · rw [he] at hrule
    cases hrule

/-- The variables that take a domain from a literal are those in the arguments of a
declared predicate. -/
theorem exists_typedTerms_iff (h : m.Built schema) (hr : resolve m l = .ok r) {v : String} :
    (∃ domain, (Term.var v, domain) ∈ r.typedTerms) ↔
      m.kb.schema.contains l.atom.signature = true ∧ Term.var v ∈ l.atom.terms := by
  have htyped := typed_of_resolve h hr
  obtain ⟨rfl, ⟨e, he, hevidence⟩ | ⟨rule, hrule, hnone, -⟩⟩ := resolve_eq_ok hr
  · have hdeclared := h.contains_schema_iff.2 ⟨e, hevidence⟩
    rw [Resolved.typedTerms, he]
    constructor
    · rintro ⟨domain, hzip⟩
      exact ⟨hdeclared, (List.of_mem_zip hzip).1⟩
    · rintro ⟨-, hv⟩
      rw [← List.map_fst_zip (htyped e he).le, List.mem_map] at hv
      obtain ⟨⟨t, domain⟩, hzip, rfl⟩ := hv
      exact ⟨domain, hzip⟩
  · have hundeclared : m.kb.schema.contains r.literal.atom.signature = false := by
      rw [Bool.eq_false_iff, Ne, h.contains_schema_iff, hnone]
      simp
    simp [Resolved.typedTerms, hrule, hundeclared]

/-- There is evidence about exactly the predicates whose atoms are numbered. -/
theorem find?_eq_map_evidenceOf? (h : m.Built schema) (s : Signature) :
    m.base.find? s = (m.evidenceOf? s).map Evidence.block := by
  rcases he : m.evidenceOf? s with _ | e
  · rw [Option.map_none, Option.eq_none_iff_forall_ne_some]
    intro block hblock
    obtain ⟨hmem, hsig⟩ := (Herbrand.Base.find?_eq_some_iff h.base h.nodup).1 hblock
    rw [← h.blocks, List.mem_map] at hmem
    obtain ⟨e, hmem, rfl⟩ := hmem
    rw [h.evidenceOf?_eq_some_iff.2 ⟨hmem, hsig⟩] at he
    cases he
  · exact h.find?_of_evidenceOf? he

end Sources

/-! ### Reasons -/

/-- A clause is refused for its weight, a literal or a variable. -/
theorem exists_of_make_eq_error {e : GroundingError} (h : Template.make m index c = .error e) :
    (Scalar.isNaN c.weight = true) ∨ (∃ l ∈ c.literals, resolve m l = .error e) ∨
      (∀ l ∈ c.literals, ∃ r, resolve m l = .ok r) ∧ ∃ v ∈ c.vars,
        (∀ l ∈ c.literals, ∀ r, resolve m l = .ok r →
          ¬ ∃ domain, (Term.var v, domain) ∈ r.typedTerms) ∧ e = .untyped v index := by
  rcases hnan : Scalar.isNaN c.weight with _ | _
  swap
  · exact .inl rfl
  refine .inr ?_
  -- sources are looked for before digits, so a literal is blamed before a variable
  rcases hresolve : c.literals.mapM (resolve m) with e' | resolved
  · obtain rfl : e' = e := by
      simpa [Template.make, hnan, hresolve, bind, Except.bind] using h
    exact .inl (exists_of_mapM_eq_error hresolve)
  · refine .inr ⟨exists_mapM_eq_ok_iff.1 ⟨_, hresolve⟩, ?_⟩
    have hresolved := mapM_eq_ok_iff.1 hresolve
    have hdigits : digitsOf index (ordered resolved) = .error e := by
      rcases hd : digitsOf index (ordered resolved) with e' | digits
      · rw [ordered] at hd
        simpa [Template.make, hnan, hresolve, hd, bind, Except.bind] using h
      · rw [ordered] at hd
        simp [Template.make, hnan, hresolve, hd, bind, Except.bind, pure, Except.pure] at h
    obtain ⟨v, hv, hdigit⟩ := exists_of_mapM_eq_error hdigits
    have hvars : v ∈ c.vars := by
      obtain ⟨l, hl, hterm⟩ := (mem_variablesOf_iff hresolved).1 (List.mem_reverse.1 hv)
      rw [Clause.vars, List.mem_eraseDups, List.mem_flatMap]
      exact ⟨l, hl, Atom.mem_vars_iff.2 hterm⟩
    refine ⟨v, hvars, fun l hl r hr hdomain => ?_, ?_⟩
    · obtain ⟨r', hr', hlr'⟩ := exists_mem_of_forall₂ hresolved.flip hl
      obtain rfl : r = r' := Except.ok.inj (hr.symm.trans hlr')
      have hordered : r ∈ ordered resolved := List.mem_mergeSort.2 hr'
      obtain ⟨domain, hdomain⟩ := exists_domainOf?_iff.2 ⟨r, hordered, hdomain⟩
      rw [hdomain] at hdigit
      cases hdigit
    · split at hdigit
      · cases hdigit
      · exact (Except.error.inj hdigit).symm

/-- A clause of a weight that is a number, over predicates that are declared or
computed. -/
structure Admitted (m : Model α) (c : Clause α) : Prop where
  weight : Scalar.isNaN c.weight = false
  source : ∀ l ∈ c.literals, m.kb.computed.contains l.atom.signature = true ∨
    m.kb.schema.contains l.atom.signature = true

namespace Admitted

variable {schema : List (Signature × List Domain)}

theorem forall_exists_resolve_iff (ha : Admitted m c) (h : m.Built schema) :
    (∀ l ∈ c.literals, ∃ r, resolve m l = .ok r) ↔ ∀ l ∈ c.literals, ¬ m.LacksRule l :=
  forall₂_congr fun l hl => exists_resolve_iff h (ha.source l hl)

/-- It is prepared unless a literal lacks a rule or a variable a domain. -/
theorem exists_make_iff (ha : Admitted m c) (h : m.Built schema) :
    (∃ t, Template.make m index c = .ok t) ↔
      (∀ l ∈ c.literals, ¬ m.LacksRule l) ∧ ∀ v ∈ c.vars, m.IsTyped c v := by
  rw [Grounding.exists_make_iff, ha.forall_exists_resolve_iff h]
  constructor
  · rintro ⟨-, hrules, hvars⟩
    refine ⟨hrules, fun v hv => ?_⟩
    obtain ⟨l, hl, r, hr, hdomain⟩ := hvars v hv
    exact ⟨l, hl, (exists_typedTerms_iff h hr).1 hdomain⟩
  · rintro ⟨hrules, hvars⟩
    refine ⟨ha.weight, hrules, fun v hv => ?_⟩
    obtain ⟨l, hl, hv⟩ := hvars v hv
    obtain ⟨r, hr⟩ := (ha.forall_exists_resolve_iff h).2 hrules l hl
    exact ⟨l, hl, r, hr, (exists_typedTerms_iff h hr).2 hv⟩

/-- The reason for which it is refused is that of a literal, or if there is none that
of a variable. -/
theorem reason (ha : Admitted m c) (h : m.Built schema) {e : GroundingError}
    (he : Template.make m index c = .error e) :
    (∃ l ∈ c.literals, m.LacksRule l ∧ e = .unsupported l.atom.signature) ∨
      (∀ l ∈ c.literals, ¬ m.LacksRule l) ∧
        ∃ v ∈ c.vars, ¬ m.IsTyped c v ∧ e = .untyped v index := by
  rcases exists_of_make_eq_error he with hweight | ⟨l, hl, herror⟩ | ⟨hall, v, hv, hno, he⟩
  · rw [ha.weight] at hweight
    cases hweight
  · exact .inl ⟨l, hl, (resolve_eq_error_iff h (ha.source l hl)).1 herror⟩
  · refine .inr ⟨(ha.forall_exists_resolve_iff h).1 hall, v, hv, ?_, he⟩
    rintro ⟨l, hl, hvar⟩
    obtain ⟨r, hr⟩ := hall l hl
    exact hno l hl r hr ((exists_typedTerms_iff h hr).2 hvar)

/-- A clause that is not prepared is refused for a reason. -/
theorem exists_reason (ha : Admitted m c) (h : m.Built schema)
    (hno : ¬ ((∀ l ∈ c.literals, ¬ m.LacksRule l) ∧ ∀ v ∈ c.vars, m.IsTyped c v)) :
    ∃ e, Template.make m index c = .error e := by
  rcases hmake : Template.make m index c with e | t
  · exact ⟨e, rfl⟩
  · exact absurd ((ha.exists_make_iff h).1 ⟨t, hmake⟩) hno

theorem unsupported_iff (ha : Admitted m c) (h : m.Built schema) :
    (∃ s, Template.make m index c = .error (.unsupported s)) ↔
      ∃ l ∈ c.literals, m.LacksRule l := by
  constructor
  · rintro ⟨s, hs⟩
    obtain ⟨l, hl, hlacks, -⟩ | ⟨-, v, -, -, hv⟩ := ha.reason h hs
    · exact ⟨l, hl, hlacks⟩
    · cases hv
  · rintro ⟨l, hl, hlacks⟩
    obtain ⟨e, he⟩ : ∃ e, Template.make m index c = .error e :=
      ha.exists_reason h fun hmake => hmake.1 l hl hlacks
    obtain ⟨l', -, -, rfl⟩ | ⟨hrules, -⟩ := ha.reason h he
    · exact ⟨_, he⟩
    · exact absurd hlacks (hrules l hl)

theorem untyped_iff (ha : Admitted m c) (h : m.Built schema) :
    (∃ v i, Template.make m index c = .error (.untyped v i)) ↔
      (∀ l ∈ c.literals, ¬ m.LacksRule l) ∧ ∃ v ∈ c.vars, ¬ m.IsTyped c v := by
  constructor
  · rintro ⟨v, i, hv⟩
    obtain ⟨l, -, -, hl⟩ | ⟨hrules, v', hv', hno, -⟩ := ha.reason h hv
    · cases hl
    · exact ⟨hrules, v', hv', hno⟩
  · rintro ⟨hrules, v, hv, hno⟩
    obtain ⟨e, he⟩ : ∃ e, Template.make m index c = .error e :=
      ha.exists_reason h fun hmake => hno (hmake.2 v hv)
    obtain ⟨l, hl, hlacks, -⟩ | ⟨-, v', -, -, rfl⟩ := ha.reason h he
    · exact absurd hlacks (hrules l hl)
    · exact ⟨v', index, he⟩

end Admitted

/-! ### Digits that are taken in -/

omit [Scalar α] in
/-- All combinations that a walk takes in are in range. -/
theorem inRange_of_mem_visited {rs : List Nat} (fuel n : Nat) {ds : List Nat}
    (hds : ds ∈ Harvest.visited Odometer.skipPast t fuel (Odometer.at_ rs n)) :
    List.Forall₂ (· < ·) ds rs := by
  induction fuel generalizing n with
  | zero => cases hds
  | succ fuel ih =>
    by_cases hn : n < rs.prod
    · rw [Harvest.visited_succ hn] at hds
      rcases List.mem_cons.1 hds with rfl | hrest
      · exact Odometer.digitsAt_inRange hn
      · split at hrest
        · rw [Odometer.skipPast_at] at hrest
          exact ih _ hrest
        · exact ih _ hrest
    · rw [Harvest.visited_of_le (Nat.not_lt.1 hn)] at hds
      cases hds

/-- The combinations of digits that grounding takes in. -/
def Template.taken (t : Template α) : List (List Nat) :=
  Harvest.visited Odometer.skipPast t (Odometer.start t.radices).size (Odometer.start t.radices)

omit [Scalar α] in
theorem inRange_of_mem_taken {ds : List Nat} (hds : ds ∈ t.taken) : InRange t.digits ds := by
  rw [Template.taken, Odometer.start_eq_at] at hds
  exact inRange_of_mem_visited _ _ hds

/-- Nothing is missing while a prepared clause is grounded. -/
structure Template.NothingMissing (m : Model α) (c : Clause α) (t : Template α) : Prop where
  /-- Grounding takes in one combination of digits after the other. -/
  takes : ∀ options interest, harvest t options interest =
    if t.weight == 0 then .empty else t.taken.foldl (Harvest.visit t options interest) .empty
  /-- Each digit stands for a constant of its domain. -/
  inRange : ∀ ds ∈ t.taken, InRange t.digits ds
  /-- Every variable has its digit. -/
  digit : ∀ v ∈ c.vars, ∃ d, t.digits[positionOf t.digits v]? = some d ∧ d.name = v
  /-- Nothing is asked but the literals of the clause. -/
  probes : ∀ p ∈ t.probes, ∃ l ∈ c.literals, ∃ r, resolve m l = .ok r ∧ p = probe t.digits r
  /-- Every literal is asked, and finds the same without fallbacks. -/
  literals : ∀ l ∈ c.literals, ∃ r, resolve m l = .ok r ∧ probe t.digits r ∈ t.probes ∧
    r.NeedsNoFallback t.digits t.taken

theorem nothingMissing_of_make {schema : List (Signature × List Domain)} (h : m.Built schema)
    (hmake : Template.make m index c = .ok t) : t.NothingMissing m c := by
  obtain ⟨-, -, -, resolved, hresolved, hdigits, hprobes⟩ := exists_resolved hmake
  have hdigit (v : String) (hv : ∃ l ∈ c.literals, Term.var v ∈ l.atom.terms) :
      ∃ d, t.digits[positionOf t.digits v]? = some d ∧ d.name = v := by
    obtain ⟨d, hd, hname, -⟩ := exists_digit hdigits ((mem_variablesOf_iff hresolved).2 hv)
    exact ⟨d, hd, hname⟩
  refine ⟨fun options interest => ?_, fun _ hds => inRange_of_mem_taken hds,
    fun v hv => hdigit v ?_, fun p hp => ?_, fun l hl => ?_⟩
  · rw [harvest]
    split
    · rfl
    · exact Harvest.walk_eq_foldl _ _ _ _ _ _ _
  · rw [Clause.vars, List.mem_eraseDups, List.mem_flatMap] at hv
    obtain ⟨l, hl, hv⟩ := hv
    exact ⟨l, hl, Atom.mem_vars_iff.1 hv⟩
  · obtain ⟨r, hr, rfl⟩ := List.mem_map.1 (hprobes.mem_iff.1 hp)
    obtain ⟨l, hl, hlr⟩ := exists_mem_of_forall₂ hresolved hr
    exact ⟨l, hl, r, hlr, rfl⟩
  · -- the digits were made for the variables of these very literals
    obtain ⟨r, hr, hlr⟩ := exists_mem_of_forall₂ hresolved.flip hl
    refine ⟨r, hlr, hprobes.mem_iff.2 (List.mem_map_of_mem hr), ?_⟩
    refine Resolved.needsNoFallback (typed_of_resolve h hlr) (fun v hv => ?_)
      fun _ hds => inRange_of_mem_taken hds
    rw [(resolve_eq_ok hlr).1] at hv
    obtain ⟨d, hd, -⟩ := hdigit v ⟨l, hl, hv⟩
    exact ⟨d, hd⟩

end Grounding

/-! ### The main theorem -/

/-- What comes of preparing a clause. -/
structure Model.Preparation (m : Model α) (index : Nat) (c : Clause α) : Prop where
  unsupported_iff : (∃ s, Template.make m index c = .error (.unsupported s)) ↔
    ∃ l ∈ c.literals, m.LacksRule l
  untyped_iff : (∃ v i, Template.make m index c = .error (.untyped v i)) ↔
    (∀ l ∈ c.literals, ¬ m.LacksRule l) ∧ ∃ v ∈ c.vars, ¬ m.IsTyped c v
  ok_iff : (∃ t, Template.make m index c = .ok t) ↔
    (∀ l ∈ c.literals, ¬ m.LacksRule l) ∧ ∀ v ∈ c.vars, m.IsTyped c v
  /-- The reason names the predicate or the variable that it is about. -/
  reason : ∀ e, Template.make m index c = .error e →
    (∃ l ∈ c.literals, m.LacksRule l ∧ e = .unsupported l.atom.signature) ∨
      ∃ v ∈ c.vars, ¬ m.IsTyped c v ∧ e = .untyped v index
  /-- There is evidence about each predicate whose atoms are numbered, and about no
  other. -/
  evidence : ∀ s, m.base.find? s = (m.evidenceOf? s).map Evidence.block
  nothingMissing : ∀ t, Template.make m index c = .ok t → t.NothingMissing m c

namespace Declarations

variable {d : Declarations α} {m : Model α}

/-- The declarations and their check admit the clauses. -/
theorem admitted_of_build (hkb : d.kb.Declared) (hbuild : d.build = .ok m) {index : Nat}
    {c : Clause α} (hc : m.clauses[index]? = some c) : Admitted m c := by
  obtain ⟨hsame, -⟩ := build_eq_ok hbuild
  obtain ⟨_, hpasses⟩ := passes_of_build hbuild
  have hmem : c ∈ d.kb.clauses := by
    rw [Model.clauses, hsame] at hc
    exact Array.mem_of_getElem? hc
  refine ⟨hkb.isNaN_weight c hmem, ?_⟩
  rw [hsame]
  exact (check_eq_ok_iff.1 hpasses.checked).clauses c hmem

/-- **The clauses of a model are refused for two reasons only, and grounded without
fallbacks if they are not.** -/
theorem preparation_of_build (hkb : d.kb.Declared) (hbuild : d.build = .ok m) {index : Nat}
    {c : Clause α} (hc : m.clauses[index]? = some c) : m.Preparation index c := by
  obtain ⟨schema, h⟩ := built_of_build hbuild
  have ha := admitted_of_build hkb hbuild hc
  exact ⟨ha.unsupported_iff h, ha.untyped_iff h, ha.exists_make_iff h,
    fun e he => (ha.reason h he).imp_right And.right,
    find?_eq_map_evidenceOf? h, fun t ht => nothingMissing_of_make h ht⟩

/-! ### Neighbours -/

/-- A clause over a predicate without a rule, whose third variable has no domain
either. -/
def nearClause : Clause (Extended ℚ) :=
  ⟨.finite 1, [⟨false, "Knows", [.var "x", .var "y"]⟩, ⟨true, "near", [.var "y", .var "z"]⟩]⟩

/-- A clause in which only the third variable is at fault. -/
def equalsClause : Clause (Extended ℚ) :=
  ⟨.finite 1, [⟨false, "Knows", [.var "x", .var "y"]⟩, ⟨true, "equals", [.var "y", .var "z"]⟩]⟩

/-- A clause without faults. -/
def selfClause : Clause (Extended ℚ) :=
  ⟨.finite 1, [⟨false, "Knows", [.var "x", .var "y"]⟩, ⟨true, "equals", [.var "y", .var "x"]⟩]⟩

def neighboursComputed : Computed :=
  (Computed.empty.register "equals" 2 (Computed.binary fun a b => a == b)).declare ⟨"near", 2⟩

/-- Two persons who may know each other. -/
def neighboursKb : KnowledgeBase (Extended ℚ) :=
  { ((KnowledgeBase.empty : KnowledgeBase (Extended ℚ)).declarePredicate "Knows"
      ["person", "person"]).declareConstants "person" ["Anna", "Bob"] with
    computed := neighboursComputed
    clauses := #[nearClause, equalsClause, selfClause] }

def neighbours : Declarations (Extended ℚ) :=
  { ofKnowledgeBase neighboursKb with
    query := Std.TreeSet.ofList [⟨"Knows", 2⟩] compare }

theorem declared_neighboursKb : neighboursKb.Declared :=
  .clause (.clause (.clause (.computed (.constants (.predicate .empty "Knows"
    ["person", "person"]) "person" ["Anna", "Bob"]) neighboursComputed)
    (c := nearClause) rfl) (c := equalsClause) rfl) (c := selfClause) rfl

def residents : Domain :=
  ["Anna", "Bob"].foldl Domain.insert Domain.empty

theorem rule?_neighbours : neighboursComputed.rule? ⟨"near", 2⟩ = some none ∧
    neighboursComputed.rule? ⟨"equals", 2⟩ = some (some (Computed.binary fun a b => a == b)) := by
  simp [neighboursComputed, Computed.rule?_declare, Computed.rule?_register]

theorem checked_neighbours : neighbours.Checked where
  query s hs := by
    have hquery : neighbours.query.toList = [⟨"Knows", 2⟩] := rfl
    rw [← Std.TreeSet.mem_toList, hquery, List.mem_singleton] at hs
    exact hs ▸ rfl
  closedWorld := nofun
  openWorld := nofun
  separate := nofun
  groundAtoms := nofun
  clauses := by
    obtain ⟨hnear, hequals⟩ := rule?_neighbours
    have hknows : neighbours.kb.schema.contains ⟨"Knows", 2⟩ = true := rfl
    have hnear : neighbours.kb.computed.contains ⟨"near", 2⟩ = true :=
      (Computed.contains_eq_isSome_rule? _ _).trans (Option.isSome_of_eq_some hnear)
    have hequals : neighbours.kb.computed.contains ⟨"equals", 2⟩ = true :=
      (Computed.contains_eq_isSome_rule? _ _).trans (Option.isSome_of_eq_some hequals)
    intro c hc
    have hc : c ∈ [nearClause, equalsClause, selfClause] := Array.mem_toList_iff.2 hc
    simp only [List.mem_cons, List.not_mem_nil, or_false] at hc
    rcases hc with rfl | rfl | rfl <;>
      simp only [nearClause, equalsClause, selfClause, List.forall_mem_cons]
    · exact ⟨.inr hknows, .inl hnear, List.forall_mem_nil _⟩
    · exact ⟨.inr hknows, .inl hequals, List.forall_mem_nil _⟩
    · exact ⟨.inr hknows, .inl hequals, List.forall_mem_nil _⟩

theorem exists_build_neighbours : ∃ m, neighbours.build = .ok m := by
  have hresidents : residents.size = 2 := by
    simp [residents, Domain.size_eq_length, Domain.toList_insert]
  obtain ⟨domains, hdomains, hperson⟩ : ∃ domains, neighbours.domains = .ok domains ∧
      domains["person"]? = some residents := ⟨_, rfl, rfl⟩
  have hdeclared : neighbours.kb.schema.toList = [(⟨"Knows", 2⟩, ["person", "person"])] := rfl
  have htyped : typedSchema neighbours.kb domains =
      .ok [(⟨"Knows", 2⟩, [residents, residents])] := by
    simp [typedSchema, hdeclared, argumentDomains, hperson, bind, Except.bind, pure, Except.pure]
  have hknows : neighbours.query.contains ⟨"Knows", 2⟩ = true := rfl
  obtain ⟨base, hbase⟩ : ∃ base, Herbrand.Base.build [(⟨"Knows", 2⟩, [residents, residents])]
      neighbours.query.contains = .ok base := by
    simp [Herbrand.Base.build, Herbrand.Base.layOut, Herbrand.Block.make,
      Herbrand.Block.checkedSize, Herbrand.Block.stop, Herbrand.Block.size, Herbrand.Block.sizes,
      Herbrand.volume, Herbrand.Block.maxId, Herbrand.Block.maxProduct, hresidents, hknows, bind,
      Except.bind, pure, Except.pure]
  exact ⟨_, Passes.build_eq ⟨check_eq_ok_iff.2 checked_neighbours, hdomains, htyped, hbase⟩⟩

/-- Of the three clauses the first two are refused, for one reason each. -/
theorem preparation_neighbours : neighboursKb.Declared ∧ ∃ m, neighbours.build = .ok m ∧
    m.clauses[0]? = some nearClause ∧ m.clauses[1]? = some equalsClause ∧
    m.clauses[2]? = some selfClause ∧
    (∃ s, Template.make m 0 nearClause = .error (.unsupported s)) ∧
    (∃ v i, Template.make m 1 equalsClause = .error (.untyped v i)) ∧
    ∃ t, Template.make m 2 selfClause = .ok t ∧ t.NothingMissing m selfClause := by
  obtain ⟨m, hbuild⟩ := exists_build_neighbours
  obtain ⟨hsame, -⟩ := build_eq_ok hbuild
  have hclauses : m.clauses = #[nearClause, equalsClause, selfClause] := by
    rw [Model.clauses, hsame]
    rfl
  have hnear : m.clauses[0]? = some nearClause := by rw [hclauses]; rfl
  have hequals : m.clauses[1]? = some equalsClause := by rw [hclauses]; rfl
  have hself : m.clauses[2]? = some selfClause := by rw [hclauses]; rfl
  have hschema (s : Signature) : m.kb.schema.contains s = neighboursKb.schema.contains s := by
    rw [hsame]
    rfl
  have hrule (s : Signature) : m.kb.computed.rule? s = neighboursComputed.rule? s := by
    rw [hsame]
    rfl
  -- what the three clauses say of their predicates
  have hknows : m.kb.schema.contains ⟨"Knows", 2⟩ = true := (hschema _).trans rfl
  have hequality : m.kb.schema.contains ⟨"equals", 2⟩ = false := (hschema _).trans rfl
  have hdeclared (args : List Term) (hargs : args.length = 2) (positive : Bool) :
      ¬ m.LacksRule ⟨positive, "Knows", args⟩ := by
    simp [Model.LacksRule, Atom.signature, hargs, hknows]
  have hruled (args : List Term) (hargs : args.length = 2) (positive : Bool) :
      ¬ m.LacksRule ⟨positive, "equals", args⟩ := by
    simp [Model.LacksRule, Atom.signature, hargs, hrule, rule?_neighbours.2]
  refine ⟨declared_neighboursKb, m, hbuild, hnear, hequals, hself, ?_, ?_, ?_⟩
  · refine (preparation_of_build (d := neighbours) declared_neighboursKb hbuild
      hnear).unsupported_iff.2 ⟨_, List.mem_cons_of_mem _ List.mem_cons_self, ?_, ?_⟩
    · exact (hschema _).trans rfl
    · exact (hrule _).trans rule?_neighbours.1
  · refine (preparation_of_build (d := neighbours) declared_neighboursKb hbuild
      hequals).untyped_iff.2 ⟨?_, "z", by decide, ?_⟩
    · simp only [equalsClause, List.forall_mem_cons]
      exact ⟨hdeclared _ rfl _, hruled _ rfl _, List.forall_mem_nil _⟩
    · simp [Model.IsTyped, equalsClause, Atom.signature, hequality,
        -Std.TreeMap.contains_iff_mem]
  · have hprepared := preparation_of_build (d := neighbours) declared_neighboursKb hbuild hself
    obtain ⟨t, ht⟩ : ∃ t, Template.make m 2 selfClause = .ok t := by
      refine hprepared.ok_iff.2 ⟨?_, fun v hv => ⟨_, List.mem_cons_self, hknows, ?_⟩⟩
      · simp only [selfClause, List.forall_mem_cons]
        exact ⟨hdeclared _ rfl _, hruled _ rfl _, List.forall_mem_nil _⟩
      · have hvars : selfClause.vars = ["x", "y"] := by decide
        simpa [hvars] using hv
    exact ⟨t, ht, hprepared.nothingMissing t ht⟩

end Declarations

end MarkovLogic
