/-
MarkovLogic/Proofs/Evidence/Filing.lean

Filing statements about ground atoms.

Statements are taken one after the other.  Each is filed with the evidence about
its predicate under the number of its atom, and overwrites what was stated about
this atom before.  When every atom has a number this cannot fail, and the
evidence about each predicate comes out as if it alone had been given all the
statements (`fileFacts_eq`); what it knows about an atom is then the last
statement about the atom, or the assumption if there is none (`get_file`).
-/
import MarkovLogic.Proofs.Declarations

namespace MarkovLogic

open Herbrand

/-! ### One statement -/

namespace Evidence

theorem facts_set (e : Evidence) (id : Nat) (value : Bool) :
    (e.set id value).facts = e.facts.insert id value := rfl

@[simp] theorem assumption_set (e : Evidence) (id : Nat) (value : Bool) :
    (e.set id value).assumption = e.assumption := rfl

@[simp] theorem block_set (e : Evidence) (id : Nat) (value : Bool) :
    (e.set id value).block = e.block := rfl

/-- The last statement about an atom wins; other atoms are not affected. -/
theorem get_set (e : Evidence) (id : Nat) (value : Bool) (id' : Nat) :
    (e.set id value).get id' = if id = id' then .ofBool value else e.get id' := by
  rw [get, facts_set, Std.HashMap.getElem?_insert, assumption_set]
  by_cases h : id = id'
  · simp [h]
  · simp only [beq_iff_eq, h, if_false]
    rfl

/-- Without statements the assumption decides. -/
theorem get_empty (block : Block) (assumption : WorldAssumption) (id : Nat) :
    (empty block assumption).get id = assumption.default := by
  simp [empty, get]

/-- The unknown atoms of a predicate are those whose truth value is unknown. -/
theorem mem_unknownIds_iff {e : Evidence} {id : Nat} :
    id ∈ e.unknownIds ↔ e.block.contains id ∧ e.get id = .unknown := by
  have hget : e.get id = .unknown ↔ e.assumption = .open ∧ e.facts.contains id = false := by
    rw [Evidence.get, ← Std.HashMap.isSome_getElem?_eq_contains]
    rcases e.facts[id]? with _ | _ | _ <;> cases e.assumption <;>
      simp [WorldAssumption.default, Truth.ofBool]
  rw [hget, Evidence.unknownIds]
  split
  · rename_i hopen
    rw [List.mem_filter, List.mem_range'_1, Block.contains_iff]
    simp [hopen]
  · simp [*]

/-- They are listed in increasing order. -/
theorem pairwise_unknownIds (e : Evidence) : e.unknownIds.Pairwise (· < ·) := by
  rw [unknownIds]
  split
  · exact List.Pairwise.filter _ List.pairwise_lt_range'
  · exact .nil

end Evidence

/-! ### The last statement -/

/-- The value in the last of the statements about an atom that passes a test. -/
def lastValue? (p : Atom → Bool) (statements : List (Atom × Bool)) : Option Bool :=
  (statements.reverse.find? fun s => p s.1).map Prod.snd

@[simp] theorem lastValue?_nil (p : Atom → Bool) : lastValue? p [] = none := rfl

theorem lastValue?_concat (p : Atom → Bool) (statements : List (Atom × Bool)) (s : Atom × Bool) :
    lastValue? p (statements ++ [s]) = if p s.1 then some s.2 else lastValue? p statements := by
  rw [lastValue?, List.reverse_concat, List.find?_cons]
  cases p s.1 <;> rfl

/-- Tests that agree on the atoms of all statements have the same last value. -/
theorem lastValue?_congr {p q : Atom → Bool} {statements : List (Atom × Bool)}
    (h : ∀ s ∈ statements, p s.1 = q s.1) : lastValue? p statements = lastValue? q statements := by
  rw [lastValue?, lastValue?, List.find?_congr fun s hs => h s (List.mem_reverse.1 hs)]

/-! ### All statements -/

namespace Declarations

variable {α : Type}

/-- The number of an atom. -/
def numberOf (base : Base) (a : Atom) : Nat :=
  (base.encode? a.signature (a.terms.map Term.name)).getD 0

/-- The evidence about one predicate, given all statements. -/
def file (base : Base) (statements : List (Atom × Bool)) (e : Evidence) : Evidence :=
  statements.foldl (fun e s =>
    if e.signature = s.1.signature then e.set (numberOf base s.1) s.2 else e) e

theorem file_concat (base : Base) (statements : List (Atom × Bool)) (s : Atom × Bool)
    (e : Evidence) : file base (statements ++ [s]) e =
      if (file base statements e).signature = s.1.signature then
        (file base statements e).set (numberOf base s.1) s.2
      else file base statements e := by
  rw [file, List.foldl_append]
  rfl

@[simp] theorem block_file (base : Base) (statements : List (Atom × Bool)) (e : Evidence) :
    (file base statements e).block = e.block := by
  induction statements using List.reverseRecOn with
  | nil => rfl
  | append_singleton statements s ih =>
    rw [file_concat]
    split
    · rw [Evidence.block_set, ih]
    · exact ih

/-- What is known about an atom after filing is the last statement about it. -/
theorem get_file (base : Base) (statements : List (Atom × Bool)) (e : Evidence) (id : Nat) :
    (file base statements e).get id =
      (lastValue? (fun a => e.signature == a.signature && numberOf base a == id) statements).elim
        (e.get id) Truth.ofBool := by
  induction statements using List.reverseRecOn with
  | nil => rfl
  | append_singleton statements s ih =>
    have hsignature : (file base statements e).signature = e.signature := by
      rw [Evidence.signature, block_file]
      rfl
    rw [file_concat, lastValue?_concat, hsignature]
    by_cases hs : e.signature = s.1.signature
    · by_cases hid : numberOf base s.1 = id
      · simp [hs, hid, Evidence.get_set]
      · simp [hs, hid, Evidence.get_set, ih]
    · simp [hs, ih]

/-- If every atom has a number, filing succeeds, and each predicate has the statements
about it. -/
theorem fileFacts_eq (kb : KnowledgeBase α) {base : Base} {statements : List (Atom × Bool)}
    (h : ∀ s ∈ statements, (base.encode? s.1.signature (s.1.terms.map Term.name)).isSome)
    (evidence : List Evidence) :
    fileFacts kb base evidence statements = .ok (evidence.map (file base statements)) := by
  induction statements generalizing evidence with
  | nil => exact congrArg Except.ok (List.map_id _).symm
  | cons s statements ih =>
    rw [List.forall_mem_cons] at h
    obtain ⟨atom, value⟩ := s
    obtain ⟨id, hid⟩ := Option.isSome_iff_exists.1 h.1
    have hfact : factId kb base atom = .ok (numberOf base atom) := by
      simp only [factId, numberOf, hid, Option.getD_some]
    have hrest := ih h.2 (evidence.map fun e =>
      if e.signature = atom.signature then e.set (numberOf base atom) value else e)
    rw [List.map_map] at hrest
    rw [fileFacts, List.foldlM_cons]
    dsimp only
    rw [hfact]
    exact hrest

/-- The evidence about all predicates, given all statements. -/
def filed (base : Base) (statements : List (Atom × Bool))
    (assumption : Signature → WorldAssumption) : List Evidence :=
  base.blocks.map fun b => file base statements (.empty b (assumption b.signature))

theorem fileFacts_empty (kb : KnowledgeBase α) {base : Base} {statements : List (Atom × Bool)}
    (h : ∀ s ∈ statements, (base.encode? s.1.signature (s.1.terms.map Term.name)).isSome)
    (assumption : Signature → WorldAssumption) :
    fileFacts kb base (base.blocks.map fun b => .empty b (assumption b.signature)) statements =
      .ok (filed base statements assumption) := by
  rw [fileFacts_eq kb h, List.map_map]
  rfl

end Declarations

end MarkovLogic
