/-
MarkovLogic/Problem.lean

Problem files.

A problem file is a document with the constants of the types, the predicates,
further computed predicates, the weighted clauses, the evidence, and what is
asked.  Formulas stand in it as texts.  A weight is a number or a text; the
texts `inf`, `+inf` and `hard` demand the clause, and `-inf` forbids it.

`Problem.ofDocument?` reads the shape of the file and `Problem.toModel` its
meaning: it parses the formulas in the order in which they stand and assembles
the model.
-/
import MarkovLogic.Document.Json
import MarkovLogic.Formula.Reader
import MarkovLogic.Model

namespace MarkovLogic

/-- A weight as it is written. -/
inductive WeightText where
  | number (value : Float)
  | text (value : String)
deriving Repr, Inhabited

/-- A predicate and the types of its arguments. -/
structure PredicateEntry where
  name : String
  args : List String
deriving Repr, DecidableEq, Inhabited

/-- A clause as it is written. -/
structure ClauseEntry where
  weight : WeightText
  literals : List String
deriving Repr, Inhabited

/-- A problem as it is written. -/
structure Problem where
  types : Std.TreeMap String (List String) compare
  predicates : List PredicateEntry
  computed : List String
  clauses : List ClauseEntry
  evidence : List String
  query : List String
  closedWorld : List String
  openWorld : List String
  annotation : List String

/-- Why a problem file does not describe a model. -/
inductive ProblemError where
  /-- The file cannot be read. -/
  | unreadable (path : String)
  /-- The file has not the shape of a problem. -/
  | malformedFile (path : String)
  /-- The weight of a clause is no number. -/
  | invalidWeight (text : String)
  /-- A formula is malformed. -/
  | malformedAtom (text : String)
  /-- The problem contradicts its own declarations. -/
  | knowledge (error : KnowledgeError)
deriving Repr, DecidableEq

namespace WeightText

/-- The weight that is meant. -/
def value : WeightText → Except ProblemError Float
  | number x => .ok x
  | text s =>
    let cs := Text.trim s.toList
    match String.ofList cs with
    | "inf" => .ok (1.0 / 0.0)
    | "+inf" => .ok (1.0 / 0.0)
    | "hard" => .ok (1.0 / 0.0)
    | "-inf" => .ok (-1.0 / 0.0)
    | other =>
      match Decimal.readFloat? cs with
      | some x => .ok x
      | none => .error (.invalidWeight other)

/-- Takes a weight from a document. -/
def ofDocument? : Document → Option WeightText
  | .text s => some (text s)
  | d => d.asFloat?.map number

end WeightText

namespace Problem

open Document (orDefault required)

/-- Takes a predicate from a document. -/
def predicateOfDocument? (d : Document) : Option PredicateEntry := do
  match ← d.fields? Document.Json.manner ["name", "args"] with
  | [name, args] =>
    return ⟨← required Document.asText? name, ← orDefault [] Document.asTexts? args⟩
  | _ => none

/-- Takes a clause from a document. -/
def clauseOfDocument? (d : Document) : Option ClauseEntry := do
  match ← d.fields? Document.Json.manner ["weight", "literals"] with
  | [weight, literals] =>
    return ⟨← required WeightText.ofDocument? weight, ← required Document.asTexts? literals⟩
  | _ => none

/-- Takes the constants of the types from a document; of two entries for one
type the last counts. -/
def typesOfDocument? : Document → Option (Std.TreeMap String (List String) compare)
  | .record fields => do
    let entries ← fields.mapM fun (name, d) => do return (name, ← d.asTexts?)
    return entries.foldl (fun types (name, constants) => types.insert name constants) ∅
  | _ => none

/-- Takes a list of entries from a document. -/
def entriesOfDocument? {β : Type} (read : Document → Option β) (d : Document) :
    Option (List β) := do
  (← d.asList?).mapM read

/-- The fields of a problem file in their declared order. -/
def fieldNames : List String :=
  ["types", "predicates", "dynamic", "clauses", "evidence", "query", "cwa", "owa", "annotation"]

/-- Takes a problem from a document. -/
def ofDocument? (d : Document) : Option Problem := do
  match ← d.fields? Document.Json.manner fieldNames with
  | [types, predicates, computed, clauses, evidence, query, closedWorld, openWorld, annotation] =>
    return {
      types := ← orDefault ∅ typesOfDocument? types
      predicates := ← orDefault [] (entriesOfDocument? predicateOfDocument?) predicates
      computed := ← orDefault [] Document.asTexts? computed
      clauses := ← orDefault [] (entriesOfDocument? clauseOfDocument?) clauses
      evidence := ← orDefault [] Document.asTexts? evidence
      query := ← orDefault [] Document.asTexts? query
      closedWorld := ← orDefault [] Document.asTexts? closedWorld
      openWorld := ← orDefault [] Document.asTexts? openWorld
      annotation := ← orDefault [] Document.asTexts? annotation }
  | _ => none

/-- Reads a problem from the text of the file at `path`. -/
def parse (path text : String) : Except ProblemError Problem :=
  match (Document.Json.read? text).bind ofDocument? with
  | some p => .ok p
  | none => .error (.malformedFile path)

/-! ### From the file to the model -/

/-- Reads a literal. -/
def literal (text : String) : Except ProblemError Literal :=
  match Literal.read? text with
  | some l => .ok l
  | none => .error (.malformedAtom text)

/-- Reads a signature. -/
def signature (text : String) : Except ProblemError Signature :=
  match Signature.read? text with
  | some s => .ok s
  | none => .error (.malformedAtom text)

/-- Reads a set of signatures. -/
def signatures (texts : List String) : Except ProblemError SignatureSet := do
  return Std.TreeSet.ofList (← texts.mapM signature) compare

/-- Reads ground atoms with their values. -/
def facts (texts : List String) : Except ProblemError (List (Atom × Bool)) :=
  texts.mapM fun text => do
    let l ← literal text
    return (l.atom, l.positive)

/-- Reads a clause. -/
def clause (entry : ClauseEntry) : Except ProblemError (Clause Float) := do
  let literals ← entry.literals.mapM literal
  return ⟨← entry.weight.value, literals⟩

/-- The knowledge base that the problem describes. -/
def knowledgeBase (p : Problem) : Except ProblemError (KnowledgeBase Float) := do
  let kb := p.types.toList.foldl (fun kb (name, cs) => kb.declareConstants name cs) .empty
  let kb := p.predicates.foldl (fun kb entry => kb.declarePredicate entry.name entry.args) kb
  let kb := (← p.computed.mapM signature).foldl (fun kb s => kb.declareComputed s) kb
  p.clauses.foldlM (fun kb entry => do
    (kb.addClause (← clause entry)).mapError .knowledge) kb

/-- The model that the problem describes. -/
def toModel (p : Problem) : Except ProblemError (Model Float) := do
  let kb ← p.knowledgeBase
  let query ← signatures p.query
  let closedWorld ← signatures p.closedWorld
  let openWorld ← signatures p.openWorld
  let facts ← facts p.evidence
  let annotations ← Problem.facts p.annotation
  (Declarations.build { kb, query, closedWorld, openWorld, facts, annotations }).mapError .knowledge

end Problem

end MarkovLogic
