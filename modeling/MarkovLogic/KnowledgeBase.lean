/-
MarkovLogic/KnowledgeBase.lean

Knowledge bases: the predicates and the types of their arguments, the
constants of each type, the computed predicates, and the weighted clauses.

A knowledge base is built up by declarations.  The only thing checked here is
that a clause has a weight at all; whether its predicates are declared is
checked when evidence and queries are added to it (see `Model`).
-/
import MarkovLogic.Computed
import MarkovLogic.Domain
import MarkovLogic.Formula.Printer
import MarkovLogic.Formula.Similarity
import MarkovLogic.Herbrand.Base

namespace MarkovLogic

/-- What a predicate was named for, when it turns out not to be declared. -/
inductive Role where
  | query
  | closedWorld
  | openWorld
  | evidence
  | clause
deriving Repr, DecidableEq

/-- Why declarations do not make a model. -/
inductive KnowledgeError where
  /-- The predicate is not declared. -/
  | unknownSignature (role : Role) (signature : Signature)
  /-- The predicate is in a closed world, and also queried or in an open one. -/
  | conflictingAssumption (signature : Signature)
  /-- The type of an argument has no constants declared. -/
  | unknownType (typeName : String) (signature : Signature)
  /-- The constant is not one of its type. -/
  | unknownConstant (constant typeName : String)
  /-- The symbol is declared with another number of arguments. -/
  | arityMismatch (declared : Signature) (actual : Nat)
  /-- The weight of the clause is not a number. -/
  | nanWeight (clause : List Literal)
  /-- The ground atoms cannot be numbered. -/
  | numbering (error : Herbrand.NumberingError)
deriving Repr, DecidableEq

/-- Declared predicates, constants and clauses. -/
structure KnowledgeBase (α : Type) where
  /-- The types of the arguments of each predicate. -/
  schema : Std.TreeMap Signature (List String) compare
  /-- The declared constants of each type. -/
  constants : Std.TreeMap String Domain compare
  computed : Computed
  clauses : Array (Clause α)
  /-- A predicate has as many types as arguments. -/
  length_types : ∀ (s : Signature) (types : List String),
    schema[s]? = some types → types.length = s.arity

namespace KnowledgeBase

variable {α : Type}

/-- Nothing declared but the standard computed predicates. -/
def empty : KnowledgeBase α :=
  ⟨∅, ∅, .standard, #[], by simp⟩

instance : Inhabited (KnowledgeBase α) := ⟨empty⟩

/-- Declares a predicate by the types of its arguments. -/
def declarePredicate (kb : KnowledgeBase α) (symbol : String) (types : List String) :
    KnowledgeBase α :=
  { kb with
    schema := kb.schema.insert ⟨symbol, types.length⟩ types
    length_types := by
      intro s types' h
      rw [Std.TreeMap.getElem?_insert] at h
      split at h
      · rename_i heq
        cases Std.LawfulEqCmp.eq_of_compare heq
        cases h
        rfl
      · exact kb.length_types s types' h }

/-- Adds constants to a type. -/
def declareConstants (kb : KnowledgeBase α) (typeName : String) (constants : List String) :
    KnowledgeBase α :=
  let known := kb.constants.getD typeName .empty
  { kb with constants := kb.constants.insert typeName (constants.foldl Domain.insert known) }

/-- Declares a predicate as computed. -/
def declareComputed (kb : KnowledgeBase α) (signature : Signature) : KnowledgeBase α :=
  { kb with computed := kb.computed.declare signature }

/-- Appends a clause.  A clause that is similar to an earlier one counts on
its own. -/
def addClause [Scalar α] (kb : KnowledgeBase α) (clause : Clause α) :
    Except KnowledgeError (KnowledgeBase α) :=
  if Scalar.isNaN clause.weight then .error (.nanWeight clause.literals)
  else .ok { kb with clauses := kb.clauses.push clause }

/-- Checks that a predicate is declared. -/
def checkSignature (kb : KnowledgeBase α) (role : Role) (signature : Signature) :
    Except KnowledgeError Unit :=
  if kb.schema.contains signature then .ok ()
  else
    match kb.schema.keys.find? fun s => s.symbol == signature.symbol with
    | some declared => .error (.arityMismatch declared signature.arity)
    | none => .error (.unknownSignature role signature)

end KnowledgeBase

end MarkovLogic
