/-
MarkovLogic/Proofs/Formula/Renaming.lean

Renaming the variables of formulas.

A renaming is any function on names; it acts on the variables and leaves symbols,
constants and signs alone.  What it makes of a formula depends on its values at the
variables of the formula only (`Literal.rename_congr`), and those values are the
variables of the result (`Literal.mem_vars_rename`).

Two clauses are variants under a renaming when it is one to one on the variables of
the first and turns its literals into those of the second, in some order.  Being
variants is an equivalence (`IsVariant.refl`, `IsVariant.symm`, `IsVariant.trans`);
going back takes an inverse on the variables of the first clause, which are all
that the second has to offer.
-/
import Mathlib.Data.Set.Function
import Mathlib.Data.List.Perm.Basic
import MarkovLogic.Formula

namespace MarkovLogic

/-! ### Variables -/

/-- The variables of an atom are those among its terms. -/
theorem Atom.mem_vars_iff {a : Atom} {v : String} : v ∈ a.vars ↔ Term.var v ∈ a.terms := by
  rw [Atom.vars, List.mem_eraseDups, List.mem_filterMap]
  constructor
  · rintro ⟨t, ht, hv⟩
    cases t with
    | var n => cases hv; exact ht
    | constant n => cases hv
  · intro h
    exact ⟨_, h, rfl⟩

/-- The variables of a clause are those of its literals. -/
theorem Clause.mem_vars_iff {α : Type} {c : Clause α} {v : String} :
    v ∈ c.vars ↔ ∃ l ∈ c.literals, v ∈ l.atom.vars := by
  rw [Clause.vars, List.mem_eraseDups, List.mem_flatMap]

/-! ### Renamed formulas -/

/-- Renames the term if it is a variable. -/
def Term.rename (f : String → String) : Term → Term
  | .var x => .var (f x)
  | .constant c => .constant c

/-- Renames the variables of an atom. -/
def Atom.rename (f : String → String) (a : Atom) : Atom :=
  ⟨a.symbol, a.terms.map (Term.rename f)⟩

/-- Renames the variables of a literal. -/
def Literal.rename (f : String → String) (l : Literal) : Literal :=
  ⟨l.positive, l.atom.rename f⟩

variable {f g : String → String}

theorem Literal.rename_id (l : Literal) : l.rename id = l := by
  have hterms : l.atom.terms.map (Term.rename id) = l.atom.terms := by
    rw [List.map_congr_left (g := id) fun t _ => by cases t <;> rfl, List.map_id]
  rw [Literal.rename, Atom.rename, hterms]

theorem Literal.rename_rename (l : Literal) : (l.rename f).rename g = l.rename (g ∘ f) := by
  have hterms : (l.atom.terms.map (Term.rename f)).map (Term.rename g) =
      l.atom.terms.map (Term.rename (g ∘ f)) := by
    rw [List.map_map]
    exact List.map_congr_left fun t _ => by cases t <;> rfl
  simp only [Literal.rename, Atom.rename, hterms]

/-- Only the values at the variables of the literal count. -/
theorem Literal.rename_congr {l : Literal} (h : ∀ x ∈ l.atom.vars, f x = g x) :
    l.rename f = l.rename g := by
  have hterms : l.atom.terms.map (Term.rename f) = l.atom.terms.map (Term.rename g) := by
    refine List.map_congr_left fun t ht => ?_
    cases t with
    | var x => exact congrArg Term.var (h x (Atom.mem_vars_iff.2 ht))
    | constant c => rfl
  rw [Literal.rename, Literal.rename, Atom.rename, Atom.rename, hterms]

/-- The variables of a renamed literal are the values at its variables. -/
theorem Literal.mem_vars_rename {l : Literal} {y : String} :
    y ∈ (l.rename f).atom.vars ↔ ∃ x ∈ l.atom.vars, f x = y := by
  simp only [Atom.mem_vars_iff, Literal.rename, Atom.rename, List.mem_map]
  constructor
  · rintro ⟨t, ht, heq⟩
    cases t with
    | var x => exact ⟨x, ht, Term.var.inj heq⟩
    | constant c => cases heq
  · rintro ⟨x, hx, rfl⟩
    exact ⟨.var x, hx, rfl⟩

/-! ### Variants -/

namespace Clause

variable {α : Type} {a b c : Clause α}

/-- The renaming is one to one on the variables of `a` and turns its literals into
those of `b`, up to their order. -/
structure IsVariant (f : String → String) (a b : Clause α) : Prop where
  injOn : Set.InjOn f {x | x ∈ a.vars}
  perm : (a.literals.map (Literal.rename f)).Perm b.literals

/-- The variables of a variant are the values at the variables of the clause. -/
theorem IsVariant.mem_vars_iff (h : IsVariant f a b) {y : String} :
    y ∈ b.vars ↔ ∃ x ∈ a.vars, f x = y := by
  constructor
  · intro hy
    obtain ⟨m, hm, hy⟩ := Clause.mem_vars_iff.1 hy
    obtain ⟨l, hl, rfl⟩ := List.mem_map.1 (h.perm.mem_iff.2 hm)
    obtain ⟨x, hx, rfl⟩ := Literal.mem_vars_rename.1 hy
    exact ⟨x, Clause.mem_vars_iff.2 ⟨l, hl, hx⟩, rfl⟩
  · rintro ⟨x, hx, rfl⟩
    obtain ⟨l, hl, hx⟩ := Clause.mem_vars_iff.1 hx
    exact Clause.mem_vars_iff.2 ⟨l.rename f, h.perm.mem_iff.1 (List.mem_map_of_mem hl),
      Literal.mem_vars_rename.2 ⟨x, hx, rfl⟩⟩

theorem IsVariant.refl (a : Clause α) : IsVariant id a a where
  injOn := Set.injOn_id _
  perm := by
    rw [List.map_congr_left fun l _ => Literal.rename_id l, List.map_id']

theorem IsVariant.symm (h : IsVariant f a b) :
    IsVariant (Function.invFunOn f {x | x ∈ a.vars}) b a := by
  let back := Function.invFunOn f {x | x ∈ a.vars}
  have hback : Set.LeftInvOn back f {x | x ∈ a.vars} := h.injOn.leftInvOn_invFunOn
  refine ⟨?_, ?_⟩
  · -- every variable of `b` is a value, and the inverse leads to where it comes from
    intro y hy y' hy' heq
    obtain ⟨x, hx, rfl⟩ := h.mem_vars_iff.1 hy
    obtain ⟨x', hx', rfl⟩ := h.mem_vars_iff.1 hy'
    exact congrArg f ((hback hx).symm.trans (heq.trans (hback hx')))
  · have hliteral : ∀ l ∈ a.literals, (l.rename f).rename back = l := by
      intro l hl
      calc (l.rename f).rename back
          = l.rename (back ∘ f) := l.rename_rename
        _ = l.rename id := Literal.rename_congr fun x hx =>
            hback (Clause.mem_vars_iff.2 ⟨l, hl, hx⟩)
        _ = l := l.rename_id
    have hlist : (a.literals.map (Literal.rename f)).map (Literal.rename back) = a.literals := by
      rw [List.map_map]
      exact (List.map_congr_left hliteral).trans (List.map_id' _)
    exact (h.perm.symm.map _).trans (.of_eq hlist)

theorem IsVariant.trans (hab : IsVariant f a b) (hbc : IsVariant g b c) :
    IsVariant (g ∘ f) a c where
  injOn := hbc.injOn.comp hab.injOn fun x hx => hab.mem_vars_iff.2 ⟨x, hx, rfl⟩
  perm := by
    have hlist : a.literals.map (Literal.rename (g ∘ f)) =
        (a.literals.map (Literal.rename f)).map (Literal.rename g) := by
      rw [List.map_map]
      exact List.map_congr_left fun l _ => l.rename_rename.symm
    rw [hlist]
    exact (hab.perm.map _).trans hbc.perm

end Clause

end MarkovLogic
