/-
MarkovLogic/Proofs/Grounding/Reference.lean

The ground theory of a model.

This is what grounding should find, said without templates, odometers and
rounds.  A substitution replaces the variables of a clause by constants of the
model (`substitutions`).  Under it an atom is looked up in the evidence, or
computed by a rule if its predicate is not declared; it is absent if one of
its arguments is not in its domain (`Model.finding`).  What remains of the
clause are its unknown literals, unless an atom is absent, a literal is
satisfied, no literal is unknown, or an unknown literal stands beside its own
negation (`Model.remainder`).  The ground theory has every remainder of every
clause of nonzero weight, once for each substitution (`Model.groundTheory`).
-/
import MarkovLogic.Grounding.Harvest
import MarkovLogic.Proofs.Clique.Theory
import MarkovLogic.Proofs.Traverse

namespace MarkovLogic

open Grounding

/-! ### Substitutions -/

/-- The name that a term stands for under a substitution. -/
def Term.under (σ : String → String) : Term → String
  | .var v => σ v
  | .constant c => c

/-- All substitutions of names for variables; a name that is no variable stays
blank. -/
def substitutions (names : List String) : List String → List (String → String)
  | [] => [fun _ => ""]
  | v :: vs => (substitutions names vs).flatMap fun σ => names.map fun c => Function.update σ v c

/-- The substitutions are all functions from the variables to the names. -/
theorem mem_substitutions_iff {names vs : List String} (hvs : vs.Nodup) {σ : String → String} :
    σ ∈ substitutions names vs ↔ (∀ v ∈ vs, σ v ∈ names) ∧ ∀ v, v ∉ vs → σ v = "" := by
  induction vs generalizing σ with
  | nil => simp [substitutions, funext_iff]
  | cons v vs ih =>
    obtain ⟨hv, hvs⟩ := List.nodup_cons.1 hvs
    simp only [substitutions, List.mem_flatMap, List.mem_map, ih hvs]
    constructor
    · rintro ⟨τ, ⟨hin, hout⟩, c, hc, rfl⟩
      constructor
      · intro w hw
        by_cases hwv : w = v
        · rwa [hwv, Function.update_self]
        · rw [Function.update_of_ne hwv]
          exact hin w ((List.mem_cons.1 hw).resolve_left hwv)
      · intro w hw
        rw [List.mem_cons, not_or] at hw
        rw [Function.update_of_ne hw.1]
        exact hout w hw.2
    · rintro ⟨hin, hout⟩
      refine ⟨Function.update σ v "", ⟨fun w hw => ?_, fun w hw => ?_⟩, σ v,
        hin v List.mem_cons_self, ?_⟩
      · have hwv : w ≠ v := fun h => hv (h ▸ hw)
        rw [Function.update_of_ne hwv]
        exact hin w (List.mem_cons_of_mem v hw)
      · by_cases hwv : w = v
        · rw [hwv, Function.update_self]
        · rw [Function.update_of_ne hwv]
          exact hout w fun h => hw ((List.mem_cons.1 h).resolve_left hwv)
      · rw [Function.update_idem, Function.update_eq_self]

/-- No substitution occurs twice. -/
theorem nodup_substitutions {names vs : List String} (hnames : names.Nodup) (hvs : vs.Nodup) :
    (substitutions names vs).Nodup := by
  induction vs with
  | nil => exact List.nodup_singleton _
  | cons v vs ih =>
    obtain ⟨hv, hvs⟩ := List.nodup_cons.1 hvs
    rw [substitutions, List.nodup_flatMap]
    constructor
    · intro σ _
      exact hnames.map (Function.update_injective σ v)
    · refine (ih hvs).imp_of_mem fun {σ τ} hσ hτ hne ρ hρσ hρτ => hne ?_
      obtain ⟨c, -, rfl⟩ := List.mem_map.1 hρσ
      obtain ⟨c', -, heq⟩ := List.mem_map.1 hρτ
      have hblank : ∀ ρ ∈ substitutions names vs, ρ v = "" := fun ρ hρ =>
        ((mem_substitutions_iff hvs).1 hρ).2 v hv
      funext w
      by_cases hwv : w = v
      · rw [hwv, hblank σ hσ, hblank τ hτ]
      · have hw := congrFun heq w
        rw [Function.update_of_ne hwv, Function.update_of_ne hwv] at hw
        exact hw.symm

/-! ### Groundings -/

namespace Model

variable {α : Type}

/-- All constants of the model. -/
def constants (m : Model α) : List String :=
  (m.domains.toList.flatMap fun p => p.2.toList).eraseDups

/-- The number is that of an unknown atom. -/
def IsUnknownAtom (m : Model α) (id : Nat) : Prop :=
  (m.base.owner? id).isSome ∧ m.truth id = .unknown

/-- What an atom turns out to be under a substitution. -/
def finding (m : Model α) (σ : String → String) (a : Atom) : Finding :=
  let names := a.terms.map (Term.under σ)
  if m.kb.schema.contains a.signature then
    match m.base.encode? a.signature names with
    | none => .absent
    | some id =>
      match (m.truth id).toBool? with
      | some value => .known value
      | none => .unknown id
  else
    match m.kb.computed.rule? a.signature with
    | some (some rule) => .known (rule names)
    | _ => .absent

/-- The signed number of a literal whose atom is unknown. -/
def unknownLiteral? (m : Model α) (σ : String → String) (l : Literal) : Option Int :=
  match m.finding σ l.atom with
  | .unknown id => some (if l.positive then id else -id)
  | _ => none

/-- Whether a literal settles its clause: its atom is absent, or it is
satisfied. -/
def settles (m : Model α) (σ : String → String) (l : Literal) : Bool :=
  m.finding σ l.atom = .absent || m.finding σ l.atom = .known l.positive

/-- What remains of a clause under a substitution, if anything: the set of its
unknown literals. -/
def remainder (m : Model α) (literals : List Literal) (σ : String → String) :
    Option (List Int) :=
  let unknown := literalSet (literals.filterMap (m.unknownLiteral? σ))
  if literals.any (m.settles σ) || unknown.isEmpty ||
      unknown.any fun l => unknown.contains (-l) then
    none
  else some unknown

/-- What remains of a clause under all substitutions. -/
def clauseTheory (m : Model α) (c : Clause α) : List (GroundClause α) :=
  (substitutions m.constants c.vars).filterMap fun σ =>
    (m.remainder c.literals σ).map fun literals => ⟨c.weight, literals⟩

/-- What remains of all clauses that weigh something. -/
def groundTheory [Scalar α] (m : Model α) : List (GroundClause α) :=
  (m.clauses.toList.filter fun c => !(c.weight == 0)).flatMap m.clauseTheory

end Model

/-- Whether a set of literals touches an atom of interest. -/
def touches (interest : Nat → Bool) (literals : List Int) : Bool :=
  literals.any fun l => interest l.natAbs

/-- The ground clauses that touch an atom of interest. -/
def touching {α : Type} (interest : Nat → Bool) (T : List (GroundClause α)) :
    List (GroundClause α) :=
  T.filter fun g => touches interest g.literals

end MarkovLogic
