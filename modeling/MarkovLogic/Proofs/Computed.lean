/-
MarkovLogic/Proofs/Computed.lean

Looking up computed predicates.

Registering a predicate gives it a rule, declaring it does so only if it is not
known yet, and either leaves all other predicates as they are.  So each of the
standard predicates, which have different symbols, has the rule that it is listed
with (`rule?_standard`).
-/
import MarkovLogic.Computed
import Mathlib.Data.List.Nodup

namespace MarkovLogic.Computed

theorem contains_eq_isSome_rule? (c : Computed) (s : Signature) :
    c.contains s = (c.rule? s).isSome :=
  Std.HashMap.contains_eq_isSome_getElem?

@[simp]
theorem rule?_empty (s : Signature) : empty.rule? s = none := by
  simp [rule?, empty]

theorem rule?_register (c : Computed) (symbol : String) (arity : Nat) (rule : Rule)
    (s : Signature) : (c.register symbol arity rule).rule? s =
      if ⟨symbol, arity⟩ = s then some (some rule) else c.rule? s := by
  simp [rule?, register, Std.HashMap.getElem?_insert]

theorem rule?_declare (c : Computed) (signature s : Signature) :
    (c.declare signature).rule? s =
      if signature = s ∧ c.rule? signature = none then some none else c.rule? s := by
  have hnew : signature ∉ c.rules ↔ c.rule? signature = none := by
    rw [rule?, ← Option.not_isSome_iff_eq_none, ← Std.HashMap.contains_eq_isSome_getElem?,
      Std.HashMap.mem_iff_contains]
  rw [rule?, declare, Std.HashMap.getElem?_insertIfNew]
  simp only [hnew, beq_iff_eq]
  rfl

/-- Other predicates keep their rules. -/
theorem rule?_foldl_register_of_ne (rules : List (String × Rule)) (c : Computed) {symbol : String}
    (h : ∀ p ∈ rules, p.1 ≠ symbol) :
    (rules.foldl (fun c (symbol, rule) => c.register symbol 2 rule) c).rule? ⟨symbol, 2⟩ =
      c.rule? ⟨symbol, 2⟩ := by
  induction rules generalizing c with
  | nil => rfl
  | cons p rules ih =>
    rw [List.forall_mem_cons] at h
    rw [List.foldl_cons, ih _ h.2, rule?_register, if_neg]
    simpa using h.1

/-- Rules that are registered under different symbols are all found. -/
theorem rule?_foldl_register {rules : List (String × Rule)} (hrules : (rules.map Prod.fst).Nodup)
    (c : Computed) {symbol : String} {rule : Rule} (h : (symbol, rule) ∈ rules) :
    (rules.foldl (fun c (symbol, rule) => c.register symbol 2 rule) c).rule? ⟨symbol, 2⟩ =
      some (some rule) := by
  induction rules generalizing c with
  | nil => cases h
  | cons p rules ih =>
    rw [List.map_cons, List.nodup_cons] at hrules
    rw [List.foldl_cons]
    rcases List.mem_cons.1 h with rfl | h
    · rw [rule?_foldl_register_of_ne rules, rule?_register, if_pos rfl]
      rintro p hp rfl
      exact hrules.1 (List.mem_map.2 ⟨p, hp, rfl⟩)
    · exact ih hrules.2 _ h

/-- The standard predicates have the rules that they are listed with. -/
theorem rule?_standard {symbol : String} {rule : Rule} (h : (symbol, rule) ∈ standardRules) :
    standard.rule? ⟨symbol, 2⟩ = some (some rule) :=
  rule?_foldl_register (by decide) empty h

end MarkovLogic.Computed
