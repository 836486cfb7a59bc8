/-
MarkovLogic/Relaxation.lean

The linear relaxation of a network.

Each atom that occurs in a constraint becomes a variable between zero and one.
With `t(l)` for the variable of a positive literal, and one minus it for a
negative one, a constraint becomes the following.

    hard                      row: the sum of the t(l) is at least 1
    soft unit of weight w     objective: w times t(l)
    soft, 0 < w               objective: w times aux,
                              row: the sum of the t(l) is at least aux
    soft, w < 0               objective: |w| times aux,
                              rows: aux is at most 1 - t(l), for each literal

At points with coordinates zero and one the objective is, up to a constant,
the negative of the cost.  To the objective can be added the number of atoms
that differ from given values, the loss.
-/
import MarkovLogic.Linear.Program
import MarkovLogic.Network

namespace MarkovLogic

/-- The relaxation of a network. -/
structure Relaxation (α : Type) where
  program : Linear.Program α
  /-- The variable of each atom, if it has one. -/
  atomVars : Array (Option Nat)
  /-- The atoms in the order of their variables. -/
  discovery : Array Nat

namespace Relaxation

variable {α : Type} [Scalar α]

/-- No constraints yet. -/
def blank (net : Network α) : Relaxation α :=
  ⟨.empty, net.nodes.map fun _ => none, #[]⟩

/-- The variable of an atom, a new one if it has none yet. -/
def varOf (net : Network α) (r : Relaxation α) (atom : Nat) : Nat × Relaxation α :=
  match r.atomVars.getD atom none with
  | some v => (v, r)
  | none =>
    let v := r.program.vars.size
    let id := (net.nodes.getD atom default).id
    (v, { program := r.program.addVariable ("atom:" ++ toString id) (some 1)
          atomVars := r.atomVars.setIfInBounds atom (some v)
          discovery := r.discovery.push atom })

/-- The terms of the literals: the variable of a positive literal counts once,
that of a negative one minus once. -/
def terms (net : Network α) : List NetLiteral → Relaxation α → List (Nat × α) × Relaxation α
  | [], r => ([], r)
  | l :: ls, r =>
    let (v, r) := r.varOf net l.atom
    let (ts, r) := terms net ls r
    ((v, if l.positive then 1 else -1) :: ts, r)

/-- The number of negative literals: what the sum of the `t(l)` is above the
sum of the terms. -/
def negatives (c : Constraint α) : α :=
  Scalar.sum ((c.lits.filter fun l => !l.positive).map fun _ => 1)

/-- Adds the auxiliary variable of the constraint with the given index. -/
def addAux (r : Relaxation α) (index : Nat) (weight : α) : Nat × Relaxation α :=
  let aux := r.program.vars.size
  let program := r.program.addVariable ("clause:" ++ toString index) (some 1)
  (aux, { r with program := program.addObjective aux weight })

/-- Adds a constraint. -/
def addConstraint (net : Network α) (r : Relaxation α) (entry : Constraint α × Nat) :
    Relaxation α :=
  let (c, index) := entry
  let (ts, r) := terms net c.lits r
  match c.strength, ts with
  | .hard, _ =>
    { r with program := r.program.addRow ⟨ts, .atLeast, 1 - negatives c⟩ }
  | .soft w, [(v, coef)] =>
    let program := r.program.addObjective v (w * coef)
    { r with program := if coef < 0 then program.addOffset w else program }
  | .soft w, _ =>
    if 0 < w then
      let (aux, r) := r.addAux index w
      { r with program := r.program.addRow ⟨ts ++ [(aux, -1)], .atLeast, -negatives c⟩ }
    else
      let (aux, r) := r.addAux index (-w)
      { r with program := ts.foldl (fun p (v, coef) =>
          p.addRow ⟨[(aux, 1), (v, coef)], .atMost, if coef < 0 then 0 else 1⟩) r.program }

/-- Adds the loss against the given values. -/
def addLoss (net : Network α) (gold : Nat → Bool) (r : Relaxation α) : Relaxation α :=
  let program := r.atomVars.toList.zipIdx.foldl (fun p (var, atom) =>
    match var with
    | none => p
    | some v =>
      if gold (net.nodes.getD atom default).id then (p.addOffset 1).addObjective v (-1)
      else p.addObjective v 1) r.program
  { r with program }

/-- The relaxation of a network, with the loss against `gold` if it is given. -/
def ofNetwork (net : Network α) (gold : Option (Nat → Bool)) : Relaxation α :=
  let r := net.constraints.toList.zipIdx.foldl (addConstraint net) (blank net)
  match gold with
  | none => r
  | some gold => r.addLoss net gold

end Relaxation

end MarkovLogic
