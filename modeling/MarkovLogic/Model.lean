/-
MarkovLogic/Model.lean

Models: a knowledge base with evidence, and the question asked of it.

To the declarations of a knowledge base are added the predicates that are
asked about, those in a closed and those in an open world, facts about ground
atoms, and optionally annotations: the values that the atoms should have.
`Declarations.build` checks all of it against the schema, extends the types by
the constants that facts mention, numbers the ground atoms and files the
facts.  The result is what grounding reads.

A predicate that is asked about or in an open world has unknown atoms; every
other predicate is in a closed world.
-/
import MarkovLogic.Evidence
import MarkovLogic.KnowledgeBase

namespace MarkovLogic

/-- A set of predicates. -/
abbrev SignatureSet := Std.TreeSet Signature compare

/-- Everything that is declared about a problem. -/
structure Declarations (α : Type) where
  kb : KnowledgeBase α
  query : SignatureSet
  closedWorld : SignatureSet
  openWorld : SignatureSet
  /-- Ground atoms with the value that is observed, the last one counting. -/
  facts : List (Atom × Bool)
  /-- Ground atoms with the value that they should have. -/
  annotations : List (Atom × Bool)

/-- A checked problem with its ground atoms numbered. -/
structure Model (α : Type) where
  kb : KnowledgeBase α
  /-- The constants of each type, declared or mentioned by facts. -/
  domains : Std.TreeMap String Domain compare
  base : Herbrand.Base
  /-- The evidence about each predicate, in the order of their numbers. -/
  evidence : List Evidence
  query : SignatureSet
  /-- The values that the atoms should have, if any are given. -/
  annotation : Option (List Evidence)

namespace Declarations

variable {α : Type}

/-- Nothing asked and nothing observed. -/
def ofKnowledgeBase (kb : KnowledgeBase α) : Declarations α :=
  ⟨kb, ∅, ∅, ∅, [], []⟩

/-- Facts and annotations together. -/
def groundAtoms (d : Declarations α) : List Atom :=
  (d.facts ++ d.annotations).map Prod.fst

/-- Checks that every predicate is declared and that no assumption conflicts
with another. -/
def check (d : Declarations α) : Except KnowledgeError Unit := do
  d.query.toList.forM (d.kb.checkSignature .query)
  d.closedWorld.toList.forM (d.kb.checkSignature .closedWorld)
  d.openWorld.toList.forM (d.kb.checkSignature .openWorld)
  match d.closedWorld.toList.find? fun s => d.openWorld.contains s || d.query.contains s with
  | some s => throw (.conflictingAssumption s)
  | none => pure ()
  d.groundAtoms.forM fun a => d.kb.checkSignature .evidence a.signature
  d.kb.clauses.toList.forM fun c => c.literals.forM fun l =>
    if d.kb.computed.contains l.atom.signature then pure ()
    else d.kb.checkSignature .clause l.atom.signature

/-- Adds the constant of one argument to its type. -/
def mentionTerm (domains : Std.TreeMap String Domain compare) :
    Term × String → Except KnowledgeError (Std.TreeMap String Domain compare)
  | (.constant c, typeName) =>
    .ok (domains.insert typeName ((domains.getD typeName .empty).insert c))
  | (.var v, typeName) => .error (.unknownConstant v typeName)

/-- Adds the constants of an atom to their types. -/
def mention (kb : KnowledgeBase α) (domains : Std.TreeMap String Domain compare) (atom : Atom) :
    Except KnowledgeError (Std.TreeMap String Domain compare) :=
  (atom.terms.zip (kb.schema.getD atom.signature [])).foldlM mentionTerm domains

/-- The constants of each type: the declared ones and those that facts and
annotations mention. -/
def domains (d : Declarations α) : Except KnowledgeError (Std.TreeMap String Domain compare) :=
  d.groundAtoms.foldlM (mention d.kb) d.kb.constants

/-- The argument domains of a predicate. -/
def argumentDomains (domains : Std.TreeMap String Domain compare) (signature : Signature)
    (types : List String) : Except KnowledgeError (List Domain) :=
  types.mapM fun typeName =>
    match domains[typeName]? with
    | some domain => .ok domain
    | none => .error (.unknownType typeName signature)

/-- The number of the ground atom that a fact is about. -/
def factId (kb : KnowledgeBase α) (base : Herbrand.Base) (atom : Atom) :
    Except KnowledgeError Nat :=
  match base.encode? atom.signature (atom.terms.map Term.name) with
  | some id => .ok id
  | none =>
    let typeName := ((kb.schema.getD atom.signature []).head?).getD ""
    .error (.unknownConstant atom.text typeName)

/-- Files statements about ground atoms under their predicates. -/
def fileFacts (kb : KnowledgeBase α) (base : Herbrand.Base) (evidence : List Evidence)
    (facts : List (Atom × Bool)) : Except KnowledgeError (List Evidence) :=
  facts.foldlM (fun evidence (atom, value) => do
    let id ← factId kb base atom
    return evidence.map fun e =>
      if e.signature = atom.signature then e.set id value else e) evidence

/-- The assumption about a predicate. -/
def assumption (d : Declarations α) (signature : Signature) : WorldAssumption :=
  if d.query.contains signature || d.openWorld.contains signature then .open else .closed

/-- Checks the declarations and puts the model together. -/
def build (d : Declarations α) : Except KnowledgeError (Model α) := do
  d.check
  let domains ← d.domains
  let schema ← d.kb.schema.toList.mapM fun (signature, types) => do
    return (signature, ← argumentDomains domains signature types)
  let base ← (Herbrand.Base.build schema d.query.contains).mapError .numbering
  let unstated := base.blocks.map fun b => Evidence.empty b (d.assumption b.signature)
  let evidence ← fileFacts d.kb base unstated d.facts
  let annotation ← if d.annotations.isEmpty then pure none else
    let unannotated := base.blocks.map fun b => Evidence.empty b .closed
    some <$> fileFacts d.kb base unannotated d.annotations
  return { kb := d.kb, domains, base, evidence, query := d.query, annotation }

end Declarations

namespace Model

variable {α : Type}

/-- The clauses. -/
def clauses (m : Model α) : Array (Clause α) :=
  m.kb.clauses

/-- The evidence about a predicate. -/
def evidenceOf? (m : Model α) (signature : Signature) : Option Evidence :=
  m.evidence.find? fun e => e.signature == signature

/-- What is known about a ground atom; nothing, if the number is no atom's. -/
def truth (m : Model α) (id : Nat) : Truth :=
  match m.base.owner? id with
  | none => .unknown
  | some block =>
    match m.evidenceOf? block.signature with
    | none => .unknown
    | some e => e.get id

/-- The value that a ground atom should have, if annotations are given. -/
def annotated? (m : Model α) (id : Nat) : Option Bool := do
  let annotation ← m.annotation
  let block ← m.base.owner? id
  let e ← annotation.find? fun e => e.signature == block.signature
  return e.get id == .holds

/-- The ground atoms that are asked about and not known, by their numbers. -/
def unknownQueryAtoms (m : Model α) : List Nat :=
  m.query.toList.flatMap fun signature =>
    match m.evidenceOf? signature with
    | none => []
    | some e => e.unknownIds

end Model

end MarkovLogic
