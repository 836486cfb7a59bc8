/-
MarkovLogic/Proofs/Network/Assembly.lean

What an assembled network looks like.

Assembly enters the cliques one literal after the other.  Two things stay true
all the time.  The index of the atoms is the inverse of the numbering of the
nodes (`Indexed`), and a node lists a constraint exactly as often as the
constraint has the literal (`entered`, `litsAt`).  The first makes the literals
of a constraint name the atoms they were made from; the second is what a
search relies on when it visits the occurrences of an atom only.

Main statements: `wired_assemble` collects this for assembled networks, and
`embodies_assemble` says that the constraints are the cliques of nonzero weight
with at least one literal, in their order.
-/
import Mathlib
import MarkovLogic.Network
import MarkovLogic.Proofs.Traverse

namespace MarkovLogic

namespace Network

variable {α : Type} [Scalar α]

/-! ### Index and nodes -/

/-- The index finds a place exactly if the node there has the number. -/
def Indexed (net : Network α) : Prop :=
  ∀ id place : Nat, net.index[id]? = some place ↔ (net.nodes[place]?).map Node.id = some id

/-- The literals of a constraint name the atoms of the given numbers. -/
def Names (net : Network α) (literals : List Int) (lits : List NetLiteral) : Prop :=
  List.Forall₂ (fun x l => net.index[x.natAbs]? = some l.atom ∧ l.positive = decide (0 < x))
    literals lits

/-- The constraints that are entered under a literal. -/
def entered (net : Network α) (l : NetLiteral) : List Nat :=
  let node := net.nodes.getD l.atom default
  if l.positive then node.positive.toList else node.negative.toList

/-- The literals of the constraint with the given index. -/
def litsAt (net : Network α) (i : Nat) : List NetLiteral :=
  (net.constraints[i]?.map Constraint.lits).getD []

/-- The second network finds every atom where the first one does. -/
def Keeps (net net' : Network α) : Prop :=
  ∀ id place : Nat, net.index[id]? = some place → net'.index[id]? = some place

omit [Scalar α] in
theorem Keeps.trans {a b c : Network α} (hab : Keeps a b) (hbc : Keeps b c) : Keeps a c :=
  fun id place h => hbc id place (hab id place h)

omit [Scalar α] in
theorem Names.keeps {net net' : Network α} (hk : Keeps net net') {literals : List Int}
    {lits : List NetLiteral} (h : net.Names literals lits) : net'.Names literals lits :=
  h.imp fun _ _ ⟨hindex, hsign⟩ => ⟨hk _ _ hindex, hsign⟩

omit [Scalar α] in
/-- A place in the index is the place of a node. -/
theorem Indexed.lt_size {net : Network α} (h : net.Indexed) {id place : Nat}
    (hp : net.index[id]? = some place) : place < net.nodes.size := by
  have hnode := (h id place).mp hp
  by_contra hge
  rw [Array.getElem?_eq_none (by omega)] at hnode
  simp at hnode

/-! ### Interning an atom -/

omit [Scalar α] in
theorem constraints_intern (net : Network α) (id : Nat) :
    (net.intern id).2.constraints = net.constraints := by
  unfold intern
  split <;> rfl

omit [Scalar α] in
theorem keeps_intern (net : Network α) (id : Nat) : Keeps net (net.intern id).2 := by
  intro x place h
  rcases hid : net.index[id]? with _ | p
  · have hne : id ≠ x := by
      rintro rfl
      rw [hid] at h
      cases h
    simp [intern, hid, Std.HashMap.getElem?_insert, hne, h]
  · simp [intern, hid, h]

omit [Scalar α] in
theorem index_intern (net : Network α) (id : Nat) :
    (net.intern id).2.index[id]? = some (net.intern id).1 := by
  rcases hid : net.index[id]? with _ | p
  · simp [intern, hid]
  · simp [intern, hid]

omit [Scalar α] in
theorem indexed_intern {net : Network α} (h : net.Indexed) (id : Nat) :
    (net.intern id).2.Indexed := by
  rcases hid : net.index[id]? with _ | p
  · intro x place
    have hfresh : ∀ q : Nat, (net.nodes[q]?).map Node.id ≠ some id := by
      intro q hq
      rw [(h id q).mpr hq] at hid
      cases hid
    simp only [intern, hid, Std.HashMap.getElem?_insert, Array.getElem?_push, beq_iff_eq]
    by_cases hx : id = x
    · subst hx
      by_cases hp : place = net.nodes.size
      · simp [hp]
      · simp [hp, hfresh, Ne.symm hp]
    · by_cases hp : place = net.nodes.size
      · have hout : net.index[x]? ≠ some place := fun hin =>
          absurd (h.lt_size hin) (by omega)
        simp only [hx, hp, ↓reduceIte, Option.map_some, Option.some.injEq, iff_false]
        rwa [hp] at hout
      · simpa [hx, hp] using h x place
  · simpa [intern, hid] using h

omit [Scalar α] in
/-- A new node has no occurrences, just as a missing one. -/
theorem entered_intern (net : Network α) (id : Nat) (l : NetLiteral) :
    (net.intern id).2.entered l = net.entered l := by
  rcases hid : net.index[id]? with _ | p
  · simp only [intern, hid, entered, Array.getD_eq_getD_getElem?, Array.getElem?_push]
    by_cases hl : l.atom = net.nodes.size
    · rw [if_pos hl, hl, Array.getElem?_eq_none (Nat.le_refl _)]
      rfl
    · rw [if_neg hl]
  · simp [intern, hid]

omit [Scalar α] in
theorem litsAt_intern (net : Network α) (id i : Nat) :
    (net.intern id).2.litsAt i = net.litsAt i := by
  rw [litsAt, litsAt, constraints_intern]

/-! ### Entering the literals of a constraint -/

omit [Scalar α] in
theorem constraints_addLiteral (k : Nat) (net : Network α) (x : Int) :
    (addLiteral k net x).2.constraints = net.constraints :=
  constraints_intern net x.natAbs

omit [Scalar α] in
theorem keeps_addLiteral (k : Nat) (net : Network α) (x : Int) :
    Keeps net (addLiteral k net x).2 :=
  keeps_intern net x.natAbs

omit [Scalar α] in
theorem index_addLiteral (k : Nat) (net : Network α) (x : Int) :
    (addLiteral k net x).2.index[x.natAbs]? = some (addLiteral k net x).1.atom :=
  index_intern net x.natAbs

omit [Scalar α] in
theorem indexed_addLiteral (k : Nat) {net : Network α} (h : net.Indexed) (x : Int) :
    (addLiteral k net x).2.Indexed := by
  intro id place
  have hi := indexed_intern h x.natAbs id place
  simp only [addLiteral, Array.getElem?_modify]
  split
  · rw [Option.map_map]
    have hid : (Node.id ∘ fun n : Node => if decide (0 < x) = true then
        ({ n with positive := n.positive.push k } : Node)
        else { n with negative := n.negative.push k }) = Node.id := by
      funext n
      simp only [Function.comp_apply]
      split <;> rfl
    rw [hid]
    exact hi
  · exact hi

omit [Scalar α] in
/-- Entering a literal adds the constraint at the end of the list of that
literal and changes no other list. -/
theorem entered_addLiteral (k : Nat) {net : Network α} (h : net.Indexed) (x : Int)
    (l : NetLiteral) :
    (addLiteral k net x).2.entered l =
      net.entered l ++ if (addLiteral k net x).1 = l then [k] else [] := by
  have hbound := (indexed_intern h x.natAbs).lt_size (index_intern net x.natAbs)
  have hsame := entered_intern net x.natAbs l
  obtain ⟨place, positive⟩ := l
  rw [← hsame]
  simp only [addLiteral, entered, Array.getD_eq_getD_getElem?, Array.getElem?_modify,
    NetLiteral.mk.injEq]
  by_cases hp : (net.intern x.natAbs).1 = place
  · subst hp
    rw [if_pos rfl, Array.getElem?_eq_getElem hbound]
    cases hx : decide (0 < x) <;> cases positive <;> simp
  · rw [if_neg hp]
    simp [hp]

omit [Scalar α] in
theorem constraints_addLiterals (k : Nat) (xs : List Int) (net : Network α) :
    (addLiterals k xs net).2.constraints = net.constraints := by
  induction xs generalizing net with
  | nil => rfl
  | cons x xs ih =>
    calc (addLiterals k (x :: xs) net).2.constraints
        = (addLiterals k xs (addLiteral k net x).2).2.constraints := rfl
      _ = net.constraints := by rw [ih, constraints_addLiteral]

omit [Scalar α] in
theorem keeps_addLiterals (k : Nat) (xs : List Int) (net : Network α) :
    Keeps net (addLiterals k xs net).2 := by
  induction xs generalizing net with
  | nil => exact fun _ _ h => h
  | cons x xs ih => exact (keeps_addLiteral k net x).trans (ih _)

omit [Scalar α] in
theorem indexed_addLiterals (k : Nat) (xs : List Int) {net : Network α} (h : net.Indexed) :
    (addLiterals k xs net).2.Indexed := by
  induction xs generalizing net with
  | nil => exact h
  | cons x xs ih => exact ih (indexed_addLiteral k h x)

omit [Scalar α] in
theorem names_addLiterals (k : Nat) (xs : List Int) (net : Network α) :
    (addLiterals k xs net).2.Names xs (addLiterals k xs net).1 := by
  induction xs generalizing net with
  | nil => exact List.Forall₂.nil
  | cons x xs ih =>
    refine List.Forall₂.cons ⟨?_, rfl⟩ (ih (addLiteral k net x).2)
    exact keeps_addLiterals k xs _ _ _ (index_addLiteral k net x)

omit [Scalar α] in
theorem count_entered_addLiterals (k : Nat) (xs : List Int) {net : Network α} (h : net.Indexed)
    (l : NetLiteral) (i : Nat) :
    ((addLiterals k xs net).2.entered l).count i =
      (net.entered l).count i + if k = i then (addLiterals k xs net).1.count l else 0 := by
  induction xs generalizing net with
  | nil => simp [addLiterals]
  | cons x xs ih =>
    have hstep := entered_addLiteral k h x l
    calc ((addLiterals k (x :: xs) net).2.entered l).count i
        = ((addLiterals k xs (addLiteral k net x).2).2.entered l).count i := rfl
      _ = ((addLiteral k net x).2.entered l).count i +
            (if k = i then (addLiterals k xs (addLiteral k net x).2).1.count l else 0) :=
          ih (indexed_addLiteral k h x)
      _ = (net.entered l).count i +
            (if k = i then ((addLiteral k net x).1 ::
              (addLiterals k xs (addLiteral k net x).2).1).count l else 0) := by
          rw [hstep, List.count_append, List.count_cons]
          rcases eq_or_ne k i with rfl | hk
          · by_cases hl : (addLiteral k net x).1 = l
            · simp only [hl, ↓reduceIte, List.count_singleton_self, beq_self_eq_true]
              omega
            · simp [hl]
          · by_cases hl : (addLiteral k net x).1 = l <;> simp [hk, hl]

/-! ### Entering cliques -/

/-- What holds of a network at all times of its assembly. -/
structure Wired (net : Network α) : Prop where
  /-- Index and nodes are inverse to each other. -/
  indexed : net.Indexed
  /-- The literals of each constraint name the atoms of its signed numbers. -/
  names : ∀ c ∈ net.constraints, net.Names c.literals c.lits
  /-- A constraint is entered under a literal as often as it has the literal. -/
  count_entered : ∀ l i, (net.entered l).count i = (net.litsAt i).count l

omit [Scalar α] in
/-- The literals of a constraint are over atoms of the network. -/
theorem Wired.atom_lt {net : Network α} (h : net.Wired) {c : Constraint α}
    (hc : c ∈ net.constraints) {l : NetLiteral} (hl : l ∈ c.lits) : l.atom < net.nodes.size := by
  obtain ⟨x, -, hindex, -⟩ := exists_mem_of_forall₂ (h.names c hc) hl
  exact h.indexed.lt_size hindex

theorem wired_blank (range : Option (Nat × Nat)) : Wired (blank range : Network α) where
  indexed := by
    intro id place
    simp [blank]
  names := by
    intro c hc
    simp [blank] at hc
  count_entered := by
    intro l i
    have hnone : (blank range : Network α).entered l = [] := by
      unfold entered
      split <;> rfl
    rw [hnone]
    rfl

omit [Scalar α] in
theorem Wired.intern {net : Network α} (h : net.Wired) (id : Nat) : (net.intern id).2.Wired where
  indexed := indexed_intern h.indexed id
  names := by
    intro c hc
    rw [constraints_intern] at hc
    exact (h.names c hc).keeps (keeps_intern net id)
  count_entered := by
    intro l i
    rw [entered_intern, litsAt_intern, h.count_entered]

/-- Whether a clique becomes a constraint: its weight is not zero, and it has
a literal. -/
def isKept (entry : UInt64 × Clique α) : Bool :=
  !(entry.2.weight == 0 || entry.2.literals.isEmpty)

/-- The constraint that a clique becomes. -/
def constraintOf (entry : UInt64 × Clique α) (lits : List NetLiteral) : Constraint α :=
  ⟨entry.1, strengthOf entry.2.weight, entry.2.literals, lits, entry.2.dependencies⟩

theorem addClique_of_isKept {net : Network α} {entry : UInt64 × Clique α}
    (h : isKept entry = true) :
    net.addClique entry =
      let entered := addLiterals net.constraints.size entry.2.literals net
      { entered.2 with
        constraints := entered.2.constraints.push (constraintOf entry entered.1)
        maxLiterals := max entered.2.maxLiterals entered.1.length } := by
  rw [isKept, Bool.not_eq_true'] at h
  simp only [addClique, h, Bool.false_eq_true, ↓reduceIte]
  rfl

theorem addClique_of_not_isKept {net : Network α} {entry : UInt64 × Clique α}
    (h : isKept entry = false) : net.addClique entry = net := by
  rw [isKept, Bool.not_eq_false'] at h
  simp only [addClique, h, ↓reduceIte]

theorem Wired.addClique {net : Network α} (h : net.Wired) (entry : UInt64 × Clique α) :
    (net.addClique entry).Wired := by
  rcases hkept : isKept entry with _ | _
  · rwa [addClique_of_not_isKept hkept]
  have hsame := constraints_addLiterals net.constraints.size entry.2.literals net
  have hkeeps := keeps_addLiterals net.constraints.size entry.2.literals net
  rw [addClique_of_isKept hkept]
  refine ⟨indexed_addLiterals _ _ h.indexed, ?_, ?_⟩
  · intro c hc
    rcases Array.mem_push.mp hc with hc | rfl
    · rw [hsame] at hc
      exact (h.names c hc).keeps hkeeps
    · exact names_addLiterals _ _ _
  · intro l i
    have hcount := count_entered_addLiterals net.constraints.size entry.2.literals h.indexed l i
    refine hcount.trans ?_
    rw [h.count_entered]
    simp only [litsAt, hsame, Array.getElem?_push]
    rcases eq_or_ne net.constraints.size i with rfl | hi
    · simp [constraintOf]
    · simp [hi, Ne.symm hi]

/-! ### Assembled networks -/

/-- A clique and the constraint that it became. -/
def Embodies (entry : UInt64 × Clique α) (c : Constraint α) : Prop :=
  c = constraintOf entry c.lits

theorem embodies_foldl (cliques : List (UInt64 × Clique α)) (net : Network α) :
    ∃ new, (cliques.foldl addClique net).constraints.toList = net.constraints.toList ++ new ∧
      List.Forall₂ Embodies (cliques.filter isKept) new := by
  induction cliques generalizing net with
  | nil => exact ⟨[], (List.append_nil _).symm, List.Forall₂.nil⟩
  | cons entry cliques ih =>
    obtain ⟨new, hnew, hall⟩ := ih (net.addClique entry)
    rcases hkept : isKept entry with _ | _
    · rw [addClique_of_not_isKept hkept] at hnew
      refine ⟨new, ?_, ?_⟩
      · rw [List.foldl_cons, addClique_of_not_isKept hkept, hnew]
      · rwa [List.filter_cons_of_neg (by simp [hkept])]
    · rw [addClique_of_isKept hkept] at hnew
      simp only [Array.toList_push, constraints_addLiterals] at hnew
      have hhead : Embodies entry (constraintOf entry
          (addLiterals net.constraints.size entry.2.literals net).1) := rfl
      refine ⟨_, ?_, List.filter_cons_of_pos hkept ▸ List.Forall₂.cons hhead hall⟩
      rw [List.foldl_cons, addClique_of_isKept hkept]
      simp only [constraints_addLiterals]
      rw [hnew, List.append_assoc]
      rfl

omit [Scalar α] in
theorem constraints_foldl_intern (extra : List Nat) (net : Network α) :
    (extra.foldl (fun net id => (net.intern id).2) net).constraints = net.constraints := by
  induction extra generalizing net with
  | nil => rfl
  | cons id extra ih => rw [List.foldl_cons, ih, constraints_intern]

/-- The constraints of an assembled network are the cliques of nonzero weight
with at least one literal, in their order. -/
theorem embodies_assemble (cliques : List (UInt64 × Clique α)) (extra : List Nat)
    (range : Option (Nat × Nat)) :
    List.Forall₂ Embodies (cliques.filter isKept)
      (assemble cliques extra range).constraints.toList := by
  obtain ⟨new, hnew, hall⟩ := embodies_foldl cliques (blank range)
  have hsame : (assemble cliques extra range).constraints.toList = new := by
    simp only [assemble, constraints_foldl_intern, hnew]
    rfl
  rwa [hsame]

/-- Each constraint of an assembled network comes from one of the cliques. -/
theorem exists_embodies {cliques : List (UInt64 × Clique α)} {extra : List Nat}
    {range : Option (Nat × Nat)} {c : Constraint α}
    (hc : c ∈ (assemble cliques extra range).constraints) :
    ∃ entry ∈ cliques, isKept entry = true ∧ Embodies entry c := by
  obtain ⟨entry, hentry, hcomes⟩ := exists_mem_of_forall₂ (embodies_assemble cliques extra range)
    (Array.mem_toList_iff.mpr hc)
  obtain ⟨hmem, hkept⟩ := List.mem_filter.mp hentry
  exact ⟨entry, hmem, hkept, hcomes⟩

/-- Each clique of nonzero weight with a literal has become a constraint. -/
theorem exists_embodied {cliques : List (UInt64 × Clique α)} {entry : UInt64 × Clique α}
    (hentry : entry ∈ cliques) (hkept : isKept entry = true) (extra : List Nat)
    (range : Option (Nat × Nat)) :
    ∃ c ∈ (assemble cliques extra range).constraints, Embodies entry c := by
  obtain ⟨c, hc, hcomes⟩ := exists_mem_of_forall₂ (embodies_assemble cliques extra range).flip
    (List.mem_filter.2 ⟨hentry, hkept⟩)
  exact ⟨c, Array.mem_toList_iff.1 hc, hcomes⟩

/-- The constraints have the keys and the literals of these cliques. -/
theorem map_constraints_assemble {β : Type} (f : UInt64 → List Int → β)
    (cliques : List (UInt64 × Clique α)) (extra : List Nat) (range : Option (Nat × Nat)) :
    ((assemble cliques extra range).constraints.toList.map fun c => f c.key c.literals) =
      (cliques.filter isKept).map fun entry => f entry.1 entry.2.literals := by
  refine (map_eq_of_forall₂ ((embodies_assemble cliques extra range).imp ?_)).symm
  intro entry c hc
  rw [show c = constraintOf entry c.lits from hc]
  rfl

/-- Assembly enters the atoms that it is handed. -/
theorem exists_find?_assemble (cliques : List (UInt64 × Clique α)) {extra : List Nat}
    (range : Option (Nat × Nat)) {id : Nat} (hid : id ∈ extra) :
    ∃ place, (assemble cliques extra range).find? id = some place := by
  have hfold (net : Network α) :
      ∃ place, (extra.foldl (fun net id => (net.intern id).2) net).index[id]? = some place := by
    induction extra generalizing net with
    | nil => simp at hid
    | cons x extra ih =>
      rcases List.mem_cons.1 hid with rfl | hid
      · -- it is entered first, and the others do not move it
        have hkeeps : Keeps (net.intern id).2
            (extra.foldl (fun net id => (net.intern id).2) (net.intern id).2) :=
          List.foldlRecOn (motive := Keeps (net.intern id).2) _ _ (fun _ _ h => h)
            fun _ h x _ => h.trans (keeps_intern _ x)
        exact ⟨_, hkeeps _ _ (index_intern net id)⟩
      · exact ih hid _
  exact hfold _

theorem wired_assemble (cliques : List (UInt64 × Clique α)) (extra : List Nat)
    (range : Option (Nat × Nat)) : (assemble cliques extra range).Wired := by
  have hcliques : (cliques.foldl addClique (blank range)).Wired :=
    List.foldlRecOn cliques addClique (wired_blank range) fun _ h entry _ => h.addClique entry
  have hextra := List.foldlRecOn extra (fun net id => (net.intern id).2) hcliques
    fun _ h id _ => h.intern id
  exact ⟨hextra.indexed, hextra.names, hextra.count_entered⟩

theorem hardWeight_assemble (cliques : List (UInt64 × Clique α)) (extra : List Nat)
    (range : Option (Nat × Nat)) :
    (assemble cliques extra range).hardWeight =
      softTotal (assemble cliques extra range).constraints.toList + 1 :=
  rfl

end Network

end MarkovLogic
