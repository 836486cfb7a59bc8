/-
MarkovLogic/Proofs/Network/Adjacency.lean

The occurrence lists of an assembled network are its occurrence relation.

Assembly numbers the atoms and fills their lists while it goes through the cliques.
Three things follow the network along: which atoms it knows (`Knows`), that each
list only ever grows at its end and by the constraint at hand (`exists_entered_eq`),
and the length of its longest constraint.  The second makes the lists increase
weakly; they increase strictly when no constraint has a literal twice.

Together with the numbering (`Wired`) this gives `Represents`: the network holds the
cliques and atoms that it was made from and nothing else, and one can go from a
constraint to its atoms and from an atom to its constraints.

Main statement: `represents_assemble`.
-/
import MarkovLogic.Proofs.Extended
import MarkovLogic.Proofs.Network.Assembly

namespace MarkovLogic

namespace Network

variable {α : Type}

/-! ### Known atoms -/

/-- Whether an atom has a place in the network. -/
def Knows (net : Network α) (id : Nat) : Prop :=
  ∃ place, net.index[id]? = some place

/-- The known atoms are those of the nodes. -/
theorem Indexed.knows_iff {net : Network α} (h : net.Indexed) {id : Nat} :
    net.Knows id ↔ id ∈ net.nodes.toList.map Node.id := by
  simp only [Knows, h id, List.mem_map, Array.mem_toList_iff, Array.mem_iff_getElem?,
    Option.map_eq_some_iff]
  constructor
  · rintro ⟨place, node, hnode, hid⟩
    exact ⟨node, ⟨place, hnode⟩, hid⟩
  · rintro ⟨node, ⟨place, hnode⟩, hid⟩
    exact ⟨place, node, hnode, hid⟩

/-- No two nodes are of one atom. -/
theorem Indexed.nodup_ids {net : Network α} (h : net.Indexed) :
    (net.nodes.toList.map Node.id).Nodup := by
  rw [List.nodup_iff_getElem?_ne_getElem?]
  intro i j hij hj heq
  rw [List.length_map, Array.length_toList] at hj
  simp only [List.getElem?_map, Array.getElem?_toList] at heq
  have hid : (net.nodes[j]?).map Node.id = some net.nodes[j].id := by
    rw [Array.getElem?_eq_getElem hj, Option.map_some]
  -- both places are the one that the index gives for the atom
  have hboth := ((h _ i).2 (heq.trans hid)).symm.trans ((h _ j).2 hid)
  exact absurd (Option.some.inj hboth) hij.ne

theorem knows_intern_iff (net : Network α) (x id : Nat) :
    (net.intern x).2.Knows id ↔ net.Knows id ∨ id = x := by
  constructor
  · rintro ⟨place, hplace⟩
    rcases hx : net.index[x]? with - | p
    · rw [intern, hx] at hplace
      dsimp only at hplace
      rw [Std.HashMap.getElem?_insert] at hplace
      split at hplace
      · rename_i heq
        exact .inr (beq_iff_eq.1 heq).symm
      · exact .inl ⟨place, hplace⟩
    · rw [intern, hx] at hplace
      exact .inl ⟨place, hplace⟩
  · rintro (⟨place, hplace⟩ | rfl)
    · exact ⟨place, keeps_intern net x id place hplace⟩
    · exact ⟨_, index_intern net id⟩

theorem knows_addLiterals_iff (k : Nat) (xs : List Int) (net : Network α) (id : Nat) :
    (addLiterals k xs net).2.Knows id ↔ net.Knows id ∨ id ∈ xs.map Int.natAbs := by
  induction xs generalizing net with
  | nil => simp [addLiterals]
  | cons x xs ih =>
    have hhead : (addLiteral k net x).2.Knows id ↔ net.Knows id ∨ id = x.natAbs :=
      knows_intern_iff net x.natAbs id
    rw [List.map_cons, List.mem_cons, ← or_assoc, ← hhead]
    exact ih _

theorem knows_foldl_intern_iff (extra : List Nat) (net : Network α) (id : Nat) :
    (extra.foldl (fun net id => (net.intern id).2) net).Knows id ↔ net.Knows id ∨ id ∈ extra := by
  induction extra generalizing net with
  | nil => simp
  | cons x extra ih => rw [List.foldl_cons, ih, knows_intern_iff, List.mem_cons, or_assoc]

/-! ### Lists that grow at the end -/

/-- Entering the literals of a constraint adds nothing but the constraint to a list,
and at its end. -/
theorem exists_entered_eq (k : Nat) (xs : List Int) {net : Network α} (h : net.Indexed)
    (l : NetLiteral) :
    ∃ n, (addLiterals k xs net).2.entered l = net.entered l ++ List.replicate n k := by
  induction xs generalizing net with
  | nil => exact ⟨0, by simp [addLiterals]⟩
  | cons x xs ih =>
    obtain ⟨n, hn⟩ := ih (indexed_addLiteral k h x)
    have hstep := entered_addLiteral k h x l
    have hcons : (addLiterals k (x :: xs) net).2.entered l =
        (addLiterals k xs (addLiteral k net x).2).2.entered l := rfl
    rw [hcons, hn, hstep]
    split
    · exact ⟨n + 1, by rw [List.append_assoc, List.replicate_succ, List.singleton_append]⟩
    · exact ⟨n, by rw [List.append_nil]⟩

/-- The constraints that are entered under a literal are those that have it. -/
theorem Wired.mem_entered_iff {net : Network α} (h : net.Wired) {l : NetLiteral} {i : Nat} :
    i ∈ net.entered l ↔ ∃ c, net.constraints[i]? = some c ∧ l ∈ c.lits := by
  rw [← List.count_pos_iff, h.count_entered, List.count_pos_iff, litsAt]
  cases net.constraints[i]? <;> simp

theorem Wired.lt_size_of_mem_entered {net : Network α} (h : net.Wired) {l : NetLiteral} {i : Nat}
    (hi : i ∈ net.entered l) : i < net.constraints.size := by
  obtain ⟨c, hc, -⟩ := h.mem_entered_iff.1 hi
  exact (Array.getElem?_eq_some_iff.1 hc).1

/-! ### From a literal to its atom and back -/

/-- The signed atom number of a literal over the nodes. -/
def signedId (net : Network α) (l : NetLiteral) : Int :=
  let id : Int := (net.nodes.getD l.atom default).id
  if l.positive then id else -id

/-- The literals of a constraint, written as signed numbers again, are those that it
was made from. -/
theorem Wired.map_signedId {net : Network α} (h : net.Wired) {c : Constraint α}
    (hc : c ∈ net.constraints) (hzero : (0 : Int) ∉ c.literals) :
    c.lits.map net.signedId = c.literals := by
  have hnames := (List.forall₂_and_left (p := fun x => x ≠ 0) _ _).2
    ⟨fun x hx hx0 => hzero (hx0 ▸ hx), h.names c hc⟩
  rw [← List.map_id c.literals]
  refine (map_eq_of_forall₂ (hnames.imp ?_)).symm
  rintro x l ⟨hx, hindex, hsign⟩
  obtain ⟨node, hnode, hid⟩ := Option.map_eq_some_iff.1 ((h.indexed _ _).1 hindex)
  simp only [signedId, hsign, Array.getD_eq_getD_getElem?, hnode, Option.getD_some, hid,
    decide_eq_true_eq, id_eq]
  split <;> omega

/-- A literal over a node stands in a constraint exactly if the signed number of the
atom does. -/
theorem Wired.mem_lits_iff {net : Network α} (h : net.Wired) {c : Constraint α}
    (hc : c ∈ net.constraints) (hzero : (0 : Int) ∉ c.literals) {place : Nat} {node : Node}
    (hnode : net.nodes[place]? = some node) (b : Bool) :
    (⟨place, b⟩ : NetLiteral) ∈ c.lits ↔
      (if b then (node.id : Int) else -node.id) ∈ c.literals := by
  have hsigned : net.signedId ⟨place, b⟩ = if b then (node.id : Int) else -node.id := by
    simp only [signedId, Array.getD_eq_getD_getElem?, hnode, Option.getD_some]
  rw [← hsigned, ← h.map_signedId hc hzero]
  constructor
  · exact List.mem_map_of_mem
  · intro hmem
    obtain ⟨⟨place', b'⟩, hl, heq⟩ := List.mem_map.1 hmem
    obtain ⟨x, hx, hindex, hsign⟩ := exists_mem_of_forall₂ (h.names c hc) hl
    obtain ⟨node', hnode', hid⟩ := Option.map_eq_some_iff.1 ((h.indexed _ _).1 hindex)
    have hpos : x ≠ 0 := fun hx0 => hzero (hx0 ▸ hx)
    dsimp only at hnode' hsign
    -- equal signed numbers that are not zero have the same sign and the same atom
    rw [hsigned] at heq
    simp only [signedId, Array.getD_eq_getD_getElem?, hnode', Option.getD_some] at heq
    obtain ⟨rfl, hids⟩ : b' = b ∧ node'.id = node.id := by
      cases b <;> cases b' <;> simp at heq ⊢ <;> omega
    have hplace : place' = place := by
      have hfirst := (h.indexed node.id place').2 (by rw [hnode', Option.map_some, hids])
      have hsecond := (h.indexed node.id place).2 (by rw [hnode, Option.map_some])
      exact Option.some.inj (hfirst.symm.trans hsecond)
    rwa [hplace] at hl

/-- A constraint without a repeated literal has no literal over a node twice. -/
theorem Wired.nodup_lits {net : Network α} (h : net.Wired) {c : Constraint α}
    (hc : c ∈ net.constraints) (hzero : (0 : Int) ∉ c.literals) (hnodup : c.literals.Nodup) :
    c.lits.Nodup :=
  List.Nodup.of_map net.signedId ((h.map_signedId hc hzero).symm ▸ hnodup)

/-! ### The lists of a node -/

/-- The lists of the nodes increase, not necessarily strictly. -/
def Ascending (net : Network α) : Prop :=
  ∀ l, (net.entered l).Pairwise (· ≤ ·)

/-- The list of a node under one sign. -/
theorem Wired.entered_spec {net : Network α} (h : net.Wired) (hasc : net.Ascending)
    (hzero : ∀ c ∈ net.constraints, (0 : Int) ∉ c.literals)
    (hnodup : ∀ c ∈ net.constraints, c.literals.Nodup) {place : Nat} {node : Node}
    (hnode : net.nodes[place]? = some node) (b : Bool) :
    (net.entered ⟨place, b⟩).Pairwise (· < ·) ∧ ∀ i, i ∈ net.entered ⟨place, b⟩ ↔
      ∃ c, net.constraints[i]? = some c ∧
        (if b then (node.id : Int) else -node.id) ∈ c.literals := by
  have hmem {i : Nat} {c : Constraint α} (hc : net.constraints[i]? = some c) :
      c ∈ net.constraints := Array.mem_of_getElem? hc
  constructor
  · -- a constraint is entered as often as it has the literal, which is once at most
    have honce : (net.entered ⟨place, b⟩).Nodup := by
      rw [List.nodup_iff_count_le_one]
      intro i
      rw [h.count_entered, litsAt]
      rcases hc : net.constraints[i]? with - | c
      · simp
      · exact List.nodup_iff_count_le_one.1
          (h.nodup_lits (hmem hc) (hzero c (hmem hc)) (hnodup c (hmem hc))) _
    exact (List.Pairwise.and (hasc _) honce).imp fun h => lt_of_le_of_ne h.1 h.2
  · intro i
    rw [h.mem_entered_iff]
    refine exists_congr fun c => and_congr_right fun hc => ?_
    exact h.mem_lits_iff (hmem hc) (hzero c (hmem hc)) hnode b

theorem entered_eq {net : Network α} {place : Nat} {node : Node}
    (hnode : net.nodes[place]? = some node) (b : Bool) :
    net.entered ⟨place, b⟩ = if b then node.positive.toList else node.negative.toList := by
  simp only [entered, Array.getD_eq_getD_getElem?, hnode, Option.getD_some]

/-! ### The longest constraint -/

/-- The length of the longest constraint. -/
def longest (net : Network α) : Nat :=
  (net.constraints.toList.map fun c => c.literals.length).foldl max 0

theorem maxLiterals_intern (net : Network α) (id : Nat) :
    (net.intern id).2.maxLiterals = net.maxLiterals := by
  rw [intern]
  split <;> rfl

theorem maxLiterals_addLiterals (k : Nat) (xs : List Int) (net : Network α) :
    (addLiterals k xs net).2.maxLiterals = net.maxLiterals := by
  induction xs generalizing net with
  | nil => rfl
  | cons x xs ih =>
    calc (addLiterals k (x :: xs) net).2.maxLiterals
        = (addLiterals k xs (addLiteral k net x).2).2.maxLiterals := rfl
      _ = (addLiteral k net x).2.maxLiterals := ih _
      _ = net.maxLiterals := maxLiterals_intern net x.natAbs

/-! ### Entering cliques -/

section Assembly

variable [Scalar α]

theorem knows_addClique_iff (net : Network α) (entry : UInt64 × Clique α) (id : Nat) :
    (net.addClique entry).Knows id ↔
      net.Knows id ∨ isKept entry = true ∧ id ∈ entry.2.literals.map Int.natAbs := by
  rcases hkept : isKept entry with _ | _
  · simp [addClique_of_not_isKept hkept]
  · rw [addClique_of_isKept hkept, and_iff_right rfl]
    exact knows_addLiterals_iff _ _ _ _

theorem knows_foldl_addClique_iff (cliques : List (UInt64 × Clique α)) (net : Network α)
    (id : Nat) :
    (cliques.foldl addClique net).Knows id ↔
      net.Knows id ∨ ∃ entry ∈ cliques, isKept entry = true ∧
        id ∈ entry.2.literals.map Int.natAbs := by
  induction cliques generalizing net with
  | nil => simp
  | cons entry cliques ih =>
    rw [List.foldl_cons, ih, knows_addClique_iff, List.exists_mem_cons_iff, or_assoc]

/-- The constraint that comes next is above all that are entered. -/
theorem ascending_addClique {net : Network α} (hw : net.Wired) (h : net.Ascending)
    (entry : UInt64 × Clique α) : (net.addClique entry).Ascending := by
  intro l
  rcases hkept : isKept entry with _ | _
  · rw [addClique_of_not_isKept hkept]
    exact h l
  · obtain ⟨n, hn⟩ := exists_entered_eq net.constraints.size entry.2.literals hw.indexed l
    have hsame : (net.addClique entry).entered l =
        (addLiterals net.constraints.size entry.2.literals net).2.entered l := by
      rw [addClique_of_isKept hkept]
      rfl
    rw [hsame, hn, List.pairwise_append]
    refine ⟨h l, List.pairwise_replicate.2 (.inr (le_refl _)), fun i hi k hk => ?_⟩
    rw [(List.mem_replicate.1 hk).2]
    exact (hw.lt_size_of_mem_entered hi).le

theorem maxLiterals_addClique {net : Network α} (h : net.maxLiterals = net.longest)
    (entry : UInt64 × Clique α) :
    (net.addClique entry).maxLiterals = (net.addClique entry).longest := by
  rcases hkept : isKept entry with _ | _
  · rwa [addClique_of_not_isKept hkept]
  · have hlength := (names_addLiterals net.constraints.size entry.2.literals net).length_eq
    rw [addClique_of_isKept hkept]
    simp only [longest, constraints_addLiterals, Array.toList_push, List.map_append,
      List.foldl_append, List.map_cons, List.map_nil, List.foldl_cons, List.foldl_nil,
      maxLiterals_addLiterals]
    rw [h, ← hlength]
    rfl

/-! ### The assembled network -/

/-- A network that holds some cliques and further atoms and nothing else, and in which
one can go from a constraint to its atoms and from an atom to its constraints. -/
structure Represents (net : Network α) (cliques : List (UInt64 × Clique α)) (extra : List Nat) :
    Prop where
  /-- The constraints are the cliques of nonzero weight with a literal, in their order. -/
  constraints : List.Forall₂ Embodies (cliques.filter isKept) net.constraints.toList
  /-- No two nodes are of one atom. -/
  nodup_ids : (net.nodes.toList.map Node.id).Nodup
  /-- The index is the inverse of the numbering. -/
  find?_eq_some_iff : ∀ id place, net.find? id = some place ↔
    (net.nodes[place]?).map Node.id = some id
  /-- The nodes are of the atoms in the constraints and of the further ones. -/
  mem_ids_iff : ∀ id, id ∈ net.nodes.toList.map Node.id ↔
    (∃ c ∈ net.constraints, id ∈ c.literals.map Int.natAbs) ∨ id ∈ extra
  /-- Each literal over the nodes names the atom and the sign of its signed number. -/
  lits : ∀ c ∈ net.constraints, List.Forall₂
    (fun x l => (net.nodes[l.atom]?).map Node.id = some x.natAbs ∧ l.positive = decide (0 < x))
    c.literals c.lits
  /-- A node lists the constraints with its atom as a positive literal, each once and in
  increasing order. -/
  positive : ∀ (place : Nat) (node : Node), net.nodes[place]? = some node →
    node.positive.toList.Pairwise (· < ·) ∧
      ∀ i, i ∈ node.positive ↔ ∃ c, net.constraints[i]? = some c ∧ (node.id : Int) ∈ c.literals
  /-- And it lists those with its atom as a negative literal in the same way. -/
  negative : ∀ (place : Nat) (node : Node), net.nodes[place]? = some node →
    node.negative.toList.Pairwise (· < ·) ∧
      ∀ i, i ∈ node.negative ↔ ∃ c, net.constraints[i]? = some c ∧ -(node.id : Int) ∈ c.literals
  /-- The length of the longest constraint, zero if there is none. -/
  maxLiterals : net.maxLiterals = net.longest

theorem ascending_assemble (cliques : List (UInt64 × Clique α)) (extra : List Nat)
    (range : Option (Nat × Nat)) : (assemble cliques extra range).Ascending := by
  have hcliques : (cliques.foldl addClique (blank range)).Wired ∧
      (cliques.foldl addClique (blank range)).Ascending := by
    refine List.foldlRecOn (motive := fun net => net.Wired ∧ net.Ascending) cliques addClique
      ⟨wired_blank range, fun l => ?_⟩ fun net h entry _ =>
        ⟨h.1.addClique entry, ascending_addClique h.1 h.2 entry⟩
    have hnone : (blank range : Network α).entered l = [] := by
      rw [entered]
      split <;> rfl
    rw [hnone]
    exact List.Pairwise.nil
  refine List.foldlRecOn (motive := Ascending) extra _ hcliques.2 fun net h id _ l => ?_
  rw [entered_intern]
  exact h l

theorem maxLiterals_assemble (cliques : List (UInt64 × Clique α)) (extra : List Nat)
    (range : Option (Nat × Nat)) :
    (assemble cliques extra range).maxLiterals = (assemble cliques extra range).longest := by
  have hcliques : (cliques.foldl addClique (blank range)).maxLiterals =
      (cliques.foldl addClique (blank range)).longest :=
    List.foldlRecOn (motive := fun net : Network α => net.maxLiterals = net.longest) cliques
      addClique rfl fun _ h entry _ => maxLiterals_addClique h entry
  refine List.foldlRecOn (motive := fun net : Network α => net.maxLiterals = net.longest) extra _
    hcliques fun net h id _ => ?_
  rw [maxLiterals_intern, h, longest, longest, constraints_intern]

theorem knows_assemble_iff (cliques : List (UInt64 × Clique α)) (extra : List Nat)
    (range : Option (Nat × Nat)) (id : Nat) :
    (assemble cliques extra range).Knows id ↔
      (∃ c ∈ (assemble cliques extra range).constraints, id ∈ c.literals.map Int.natAbs) ∨
        id ∈ extra := by
  have hblank : ¬ (blank range : Network α).Knows id := by
    rintro ⟨place, hplace⟩
    simp [blank] at hplace
  have hknows : (assemble cliques extra range).Knows id ↔
      (∃ entry ∈ cliques, isKept entry = true ∧ id ∈ entry.2.literals.map Int.natAbs) ∨
        id ∈ extra := by
    refine (knows_foldl_intern_iff extra _ id).trans ?_
    rw [knows_foldl_addClique_iff, or_iff_right hblank]
  rw [hknows]
  refine or_congr_left ⟨?_, ?_⟩
  · rintro ⟨entry, hentry, hkept, hid⟩
    obtain ⟨c, hc, hcomes⟩ := exists_embodied hentry hkept extra range
    rw [show c = constraintOf entry c.lits from hcomes] at hc
    exact ⟨_, hc, hid⟩
  · rintro ⟨c, hc, hid⟩
    obtain ⟨entry, hentry, hkept, hcomes⟩ := exists_embodies hc
    rw [show c = constraintOf entry c.lits from hcomes] at hid
    exact ⟨entry, hentry, hkept, hid⟩

/-- **An assembled network is exactly what it was made from.**  Assemble cliques, none
of which has a literal twice or the literal zero, and further atoms.  The constraints
are the cliques of nonzero weight with a literal, in their order; the nodes are of the
atoms in the constraints and of the further ones, each once; index and numbering are
inverse to each other; the literals over the nodes name the atoms and signs of the
signed numbers; a node lists exactly the constraints where its atom occurs with the
sign, each once and in increasing order; and the recorded length is that of the
longest constraint. -/
theorem represents_assemble (cliques : List (UInt64 × Clique α)) (extra : List Nat)
    (range : Option (Nat × Nat))
    (hnodup : ∀ entry ∈ cliques, entry.2.literals.Nodup)
    (hzero : ∀ entry ∈ cliques, (0 : Int) ∉ entry.2.literals) :
    (assemble cliques extra range).Represents cliques extra := by
  have hw : (assemble cliques extra range).Wired := wired_assemble cliques extra range
  have hasc : (assemble cliques extra range).Ascending := ascending_assemble cliques extra range
  have hliterals {P : List Int → Prop} (hP : ∀ entry ∈ cliques, P entry.2.literals) :
      ∀ c ∈ (assemble cliques extra range).constraints, P c.literals := by
    intro c hc
    obtain ⟨entry, hentry, -, hcomes⟩ := exists_embodies hc
    rw [show c = constraintOf entry c.lits from hcomes]
    exact hP entry hentry
  have hspec (place : Nat) (node : Node)
      (hnode : (assemble cliques extra range).nodes[place]? = some node) (b : Bool) :=
    hw.entered_spec hasc (hliterals (P := ((0 : Int) ∉ ·)) hzero)
      (hliterals (P := List.Nodup) hnodup) hnode b
  exact {
    constraints := embodies_assemble cliques extra range
    nodup_ids := hw.indexed.nodup_ids
    find?_eq_some_iff := hw.indexed
    mem_ids_iff := fun id => by rw [← hw.indexed.knows_iff, knows_assemble_iff]
    lits := fun c hc => (hw.names c hc).imp fun _ _ ⟨hindex, hsign⟩ =>
      ⟨(hw.indexed _ _).1 hindex, hsign⟩
    positive := fun place node hnode => by
      simpa [entered_eq hnode] using hspec place node hnode true
    negative := fun place node hnode => by
      simpa [entered_eq hnode] using hspec place node hnode false
    maxLiterals := maxLiterals_assemble cliques extra range }

/-- Three cliques, of which the second has lost its weight, and an atom that none of
them mentions. -/
def lapsedCliques : List (UInt64 × Clique (Extended ℚ)) := [
  (1, ⟨[-7, 3], .finite 2, [(0, 1)]⟩),
  (2, ⟨[-3], .finite 0, [(0, 1), (1, 1)]⟩),
  (3, ⟨[-3, 3, 7], .posInf, [(2, 1)]⟩)]

theorem represents_assemble_lapsedCliques :
    (∀ entry ∈ lapsedCliques, entry.2.literals.Nodup) ∧
      (∀ entry ∈ lapsedCliques, (0 : Int) ∉ entry.2.literals) ∧
      (assemble lapsedCliques [3, 9] none).Represents lapsedCliques [3, 9] := by
  have hnodup : ∀ entry ∈ lapsedCliques, entry.2.literals.Nodup := by decide
  have hzero : ∀ entry ∈ lapsedCliques, (0 : Int) ∉ entry.2.literals := by decide
  exact ⟨hnodup, hzero, represents_assemble lapsedCliques [3, 9] none hnodup hzero⟩

end Assembly

end Network

end MarkovLogic
