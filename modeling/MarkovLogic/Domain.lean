/-
MarkovLogic/Domain.lean

Domains: the constants of a type, in the order in which they were declared.

A domain is a list of distinct names that can be searched in both directions:
the name at a position and the position of a name.  That the two directions
agree is part of the type.  Adding a name that is there already changes
nothing, so positions never move.
-/
import Std.Data.HashMap

namespace MarkovLogic

/-- The constants of a type: distinct names with their positions. -/
structure Domain where
  /-- The names in the order of their positions. -/
  names : Array String
  /-- The position of each name. -/
  position : Std.HashMap String Nat
  /-- Looking up a name and looking up a position are inverse to each other. -/
  position_iff : ∀ (c : String) (i : Nat), position[c]? = some i ↔ names[i]? = some c

namespace Domain

/-- The domain without constants. -/
def empty : Domain :=
  ⟨#[], ∅, by simp⟩

instance : Inhabited Domain := ⟨empty⟩

/-- The number of constants. -/
def size (d : Domain) : Nat :=
  d.names.size

/-- The position of a constant. -/
def find? (d : Domain) (c : String) : Option Nat :=
  d.position[c]?

/-- The constant at a position. -/
def name? (d : Domain) (i : Nat) : Option String :=
  d.names[i]?

/-- The constants in order. -/
def toList (d : Domain) : List String :=
  d.names.toList

/-- Adds a constant at the end, unless it is there already. -/
def insert (d : Domain) (c : String) : Domain :=
  match h : d.position[c]? with
  | some _ => d
  | none =>
    -- the size is read before the array grows, so that the array is not copied
    let place := d.names.size
    { names := d.names.push c
      position := d.position.insert c place
      position_iff := by
        have hc := d.position_iff
        intro c' i
        by_cases hcc : c = c' <;> by_cases hi : i = d.names.size <;>
          grind }

/-- The domain of a list of constants. -/
def ofList (cs : List String) : Domain :=
  cs.foldl insert empty

/-! ### The two directions of the search -/

/-- A constant stands where it is found. -/
theorem name?_eq_some_iff {d : Domain} {c : String} {i : Nat} :
    d.name? i = some c ↔ d.find? c = some i :=
  (d.position_iff c i).symm

/-- Positions are below the size. -/
theorem lt_size_of_find? {d : Domain} {c : String} {i : Nat} (h : d.find? c = some i) :
    i < d.size := by
  have := name?_eq_some_iff.2 h
  exact (Array.getElem?_eq_some_iff.1 this).1

end Domain

end MarkovLogic
