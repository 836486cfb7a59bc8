/-
MarkovLogic/Proofs/Formula/Similarity.lean

Similarity is equality up to a renaming of variables and the order of literals.

A match is carried along as the list of the pairs that it has made so far, and the
pairs are one to one.  Each part of the search adds the pairs that its formulas force
and no others.  So among all one-to-one lists of pairs, those that go on from the
result are those that go on from the start and match the formulas (`Forces`).  In
this form the parts compose, from a pair of variables up to a pair of literals,
and a failure says that no list at all would have done.

That is why trying the partners of the first literal one after the other misses
nothing: whichever list of pairs matches all literals, it goes on from the result of
the right partner (`pairsOff_iff`).  Such a list and a renaming that is one to one on
the variables of the clause are two descriptions of one thing.

Main statements: `isSimilar_iff_exists_isVariant`, `similarity_is_renaming`.
-/
import MarkovLogic.Formula.Similarity
import MarkovLogic.Proofs.Formula.Renaming
import MarkovLogic.Proofs.Traverse

namespace MarkovLogic

namespace Renaming

/-! ### Lists of pairs -/

/-- No name has two partners. -/
def OneToOne (r : Renaming) : Prop :=
  ∀ p ∈ r, ∀ q ∈ r, p.1 = q.1 ↔ p.2 = q.2

/-- The terms match under the pairs: variables are paired, and constants agree. -/
def MatchesTerm (r : Renaming) : Term → Term → Prop
  | .var x, .var y => (x, y) ∈ r
  | .constant c, .constant d => c = d
  | _, _ => False

/-- The atoms match under the pairs. -/
def MatchesAtom (r : Renaming) (a b : Atom) : Prop :=
  a.symbol = b.symbol ∧ List.Forall₂ r.MatchesTerm a.terms b.terms

/-- The literals match under the pairs. -/
def MatchesLiteral (r : Renaming) (l m : Literal) : Prop :=
  l.positive = m.positive ∧ r.MatchesAtom l.atom m.atom

/-- What one part of a match has to do when it starts with the pairs `r`: its result
is one to one, and the one-to-one lists that go on from it are those that go on from
`r` and satisfy `P`.  Without a result there are none. -/
structure Forces (r : Renaming) (result : Option Renaming) (P : Renaming → Prop) : Prop where
  oneToOne : ∀ r' ∈ result, r'.OneToOne
  subset_iff : ∀ g : Renaming, g.OneToOne → ((∃ r' ∈ result, r' ⊆ g) ↔ r ⊆ g ∧ P g)

variable {r : Renaming} {P Q : Renaming → Prop}

/-- A refusal: no list that goes on from `r` would do. -/
theorem Forces.none (h : ∀ g : Renaming, g.OneToOne → r ⊆ g → ¬ P g) : Forces r none P where
  oneToOne := by simp
  subset_iff g hg := by simpa using h g hg

/-- A result. -/
theorem Forces.some {r' : Renaming} (hr' : r'.OneToOne) (h : ∀ g, r' ⊆ g ↔ r ⊆ g ∧ P g) :
    Forces r (some r') P where
  oneToOne := by simpa
  subset_iff g _ := by simpa using h g

theorem Forces.congr {result : Option Renaming} (h : Forces r result P) (hPQ : ∀ g, P g ↔ Q g) :
    Forces r result Q where
  oneToOne := h.oneToOne
  subset_iff g hg := by rw [h.subset_iff g hg, hPQ g]

/-- One part after another. -/
theorem Forces.bind {result : Option Renaming} {next : Renaming → Option Renaming}
    (h : Forces r result P) (hnext : ∀ r' : Renaming, r'.OneToOne → Forces r' (next r') Q) :
    Forces r (result.bind next) fun g => P g ∧ Q g where
  oneToOne := by
    intro r'' hr''
    obtain ⟨r', hr', hr''⟩ := Option.bind_eq_some_iff.1 hr''
    exact (hnext r' (h.oneToOne r' hr')).oneToOne r'' hr''
  subset_iff g hg := by
    rw [← and_assoc, ← h.subset_iff g hg]
    constructor
    · rintro ⟨r'', hr'', hsub⟩
      obtain ⟨r', hr', hr''⟩ := Option.bind_eq_some_iff.1 hr''
      obtain ⟨hsub, hQ⟩ := ((hnext r' (h.oneToOne r' hr')).subset_iff g hg).1 ⟨r'', hr'', hsub⟩
      exact ⟨⟨r', hr', hsub⟩, hQ⟩
    · rintro ⟨⟨r', hr', hsub⟩, hQ⟩
      obtain ⟨r'', hr'', hsub⟩ :=
        ((hnext r' (h.oneToOne r' hr')).subset_iff g hg).2 ⟨hsub, hQ⟩
      exact ⟨r'', Option.bind_eq_some_iff.2 ⟨r', hr', hr''⟩, hsub⟩

/-! ### Matching two formulas -/

/-- A new pair is added, a known one is kept, and a pair that contradicts another is
refused. -/
theorem forces_bind? (hr : r.OneToOne) (x y : String) :
    Forces r (r.bind? x y) fun g => (x, y) ∈ g := by
  rw [bind?]
  cases hfind : r.find? fun p => p.1 == x || p.2 == y with
  | none =>
    have hfree : ∀ p ∈ r, p.1 ≠ x ∧ p.2 ≠ y := by simpa using hfind
    refine .some ?_ fun g => by rw [List.cons_subset, and_comm]
    intro p hp q hq
    rcases List.mem_cons.1 hp with rfl | hp <;> rcases List.mem_cons.1 hq with rfl | hq
    · simp
    · simp [(hfree q hq).1.symm, (hfree q hq).2.symm]
    · simp [hfree p hp]
    · exact hr p hp q hq
  | some p =>
    have hp : p ∈ r := List.mem_of_find?_eq_some hfind
    have hone : p.1 = x ∨ p.2 = y := by simpa using List.find?_some hfind
    dsimp only
    split
    · rename_i heq
      exact .some hr fun g => ⟨fun hsub => ⟨hsub, heq ▸ hsub hp⟩, And.left⟩
    · -- the pair found has one of the names and another partner for it
      rename_i hne
      refine .none fun g hg hsub hxy => hne (Prod.ext_iff.2 ?_)
      have hboth := hg p (hsub hp) (x, y) hxy
      exact hone.elim (fun h => ⟨h, hboth.1 h⟩) fun h => ⟨hboth.2 h, h⟩

theorem forces_matchTerm? (hr : r.OneToOne) (t u : Term) :
    Forces r (r.matchTerm? t u) fun g => g.MatchesTerm t u := by
  cases t with
  | var x =>
    cases u with
    | var y => exact forces_bind? hr x y
    | constant d => exact .none fun _ _ _ => id
  | constant c =>
    cases u with
    | var y => exact .none fun _ _ _ => id
    | constant d =>
      rw [matchTerm?]
      split
      · rename_i heq
        exact .some hr fun _ => (and_iff_left heq).symm
      · rename_i hne
        exact .none fun _ _ _ => hne

theorem forces_matchTerms? (hr : r.OneToOne) (ts us : List Term) :
    Forces r (r.matchTerms? ts us) fun g => List.Forall₂ g.MatchesTerm ts us := by
  induction ts generalizing r us with
  | nil =>
    cases us with
    | nil => exact .some hr fun _ => (and_iff_left .nil).symm
    | cons u us => exact .none fun _ _ _ h => nomatch h
  | cons t ts ih =>
    cases us with
    | nil => exact .none fun _ _ _ h => nomatch h
    | cons u us =>
      rw [matchTerms?]
      exact ((forces_matchTerm? hr t u).bind fun r' hr' => ih hr' us).congr fun _ =>
        List.forall₂_cons.symm

theorem forces_matchAtom? (hr : r.OneToOne) (a b : Atom) :
    Forces r (r.matchAtom? a b) fun g => g.MatchesAtom a b := by
  rw [matchAtom?]
  split
  · rename_i heq
    exact (forces_matchTerms? hr a.terms b.terms).congr fun _ => (and_iff_right heq).symm
  · rename_i hne
    exact .none fun _ _ _ h => hne h.1

theorem forces_matchLiteral? (hr : r.OneToOne) (l m : Literal) :
    Forces r (r.matchLiteral? l m) fun g => g.MatchesLiteral l m := by
  rw [matchLiteral?]
  split
  · rename_i heq
    exact (forces_matchAtom? hr l.atom m.atom).congr fun _ => (and_iff_right heq).symm
  · rename_i hne
    exact .none fun _ _ _ h => hne h.1

end Renaming

/-! ### Pairing off literals -/

theorem mem_picks_iff {β : Type} {x : β} {xs others : List β} :
    (x, others) ∈ picks xs ↔ ∃ before after, xs = before ++ x :: after ∧
      others = before ++ after := by
  induction xs generalizing others with
  | nil => simp [picks]
  | cons y ys ih =>
    rw [picks, List.mem_cons, List.mem_map]
    constructor
    · rintro (heq | ⟨⟨z, zs⟩, hz, heq⟩)
      · cases heq
        exact ⟨[], _, rfl, rfl⟩
      · cases heq
        obtain ⟨before, after, rfl, rfl⟩ := ih.1 hz
        exact ⟨y :: before, after, rfl, rfl⟩
    · rintro ⟨_ | ⟨z, before⟩, after, hxs, rfl⟩
      · cases hxs
        exact .inl rfl
      · cases hxs
        exact .inr ⟨(x, before ++ after), ih.2 ⟨before, after, rfl, rfl⟩, rfl⟩

/-- What is picked and what is left over are the whole list. -/
theorem perm_of_mem_picks {β : Type} {x : β} {xs others : List β} (h : (x, others) ∈ picks xs) :
    (x :: others).Perm xs := by
  obtain ⟨before, after, rfl, rfl⟩ := mem_picks_iff.1 h
  exact List.perm_middle.symm

/-- Every element can be picked. -/
theorem exists_mem_picks {β : Type} {x : β} {xs : List β} (h : x ∈ xs) :
    ∃ others, (x, others) ∈ picks xs := by
  obtain ⟨before, after, hxs⟩ := List.append_of_mem h
  exact ⟨before ++ after, mem_picks_iff.2 ⟨before, after, hxs, rfl⟩⟩

/-- The search succeeds exactly if a one-to-one list of pairs goes on from `r` and
matches the literals with partners among `bs`. -/
theorem pairsOff_iff {r : Renaming} (hr : r.OneToOne) {as bs : List Literal} :
    pairsOff r as bs = true ↔ ∃ g : Renaming, g.OneToOne ∧ r ⊆ g ∧
      ∃ partners others, (partners ++ others).Perm bs ∧
        List.Forall₂ g.MatchesLiteral as partners := by
  induction as generalizing r bs with
  | nil =>
    refine ⟨fun _ => ⟨r, hr, List.Subset.refl r, [], bs, List.Perm.refl _, .nil⟩, fun _ => ?_⟩
    rw [pairsOff]
  | cons a as ih =>
    rw [pairsOff, List.any_eq_true]
    constructor
    · rintro ⟨⟨b, rest⟩, hpick, hsearch⟩
      dsimp only at hsearch
      have hforces := Renaming.forces_matchLiteral? hr a b
      rcases hmatch : r.matchLiteral? a b with - | r'
      · rw [hmatch] at hsearch
        cases hsearch
      · rw [hmatch] at hsearch hforces
        obtain ⟨g, hg, hsub, partners, others, hperm, hall⟩ :=
          (ih (hforces.oneToOne r' rfl)).1 hsearch
        obtain ⟨hrg, hab⟩ := (hforces.subset_iff g hg).1 ⟨r', rfl, hsub⟩
        exact ⟨g, hg, hrg, b :: partners, others,
          (hperm.cons b).trans (perm_of_mem_picks hpick), .cons hab hall⟩
    · rintro ⟨g, hg, hsub, _, others, hperm, hall⟩
      obtain ⟨b, partners, hab, hrest, rfl⟩ := List.forall₂_cons_left_iff.1 hall
      obtain ⟨rest, hpick⟩ := exists_mem_picks (hperm.subset List.mem_cons_self)
      -- with this partner the search can still reach the list `g`
      obtain ⟨r', hmatch, hsub'⟩ :=
        ((Renaming.forces_matchLiteral? hr a b).subset_iff g hg).2 ⟨hsub, hab⟩
      have hr' := (Renaming.forces_matchLiteral? hr a b).oneToOne r' hmatch
      refine ⟨(b, rest), hpick, ?_⟩
      dsimp only
      rw [show r.matchLiteral? a b = some r' from hmatch]
      exact (ih hr').2 ⟨g, hg, hsub', partners, others,
        (hperm.trans (perm_of_mem_picks hpick).symm).cons_inv, hrest⟩

/-! ### Pairs and renamings -/

namespace Renaming

/-- The partner of a name; a name without one keeps its own. -/
def partner (r : Renaming) (x : String) : String :=
  ((r.find? fun p => p.1 == x).map Prod.snd).getD x

theorem OneToOne.partner_eq {r : Renaming} (h : r.OneToOne) {x y : String} (hxy : (x, y) ∈ r) :
    r.partner x = y := by
  rw [partner]
  cases hfind : r.find? fun p => p.1 == x with
  | none => simpa using List.find?_eq_none.1 hfind (x, y) hxy
  | some p =>
    have hx : p.1 = x := by simpa using List.find?_some hfind
    exact (h p (List.mem_of_find?_eq_some hfind) (x, y) hxy).1 hx

/-- The list of pairs that a renaming makes of some names. -/
def ofNames (f : String → String) (names : List String) : Renaming :=
  names.map fun x => (x, f x)

theorem oneToOne_ofNames {f : String → String} {names : List String}
    (h : Set.InjOn f {x | x ∈ names}) : (ofNames f names).OneToOne := by
  intro p hp q hq
  obtain ⟨x, hx, rfl⟩ := List.mem_map.1 hp
  obtain ⟨y, hy, rfl⟩ := List.mem_map.1 hq
  exact ⟨congrArg f, fun heq => h hx hy heq⟩

theorem partner_ofNames {f : String → String} {names : List String}
    (h : Set.InjOn f {x | x ∈ names}) {x : String} (hx : x ∈ names) :
    (ofNames f names).partner x = f x :=
  (oneToOne_ofNames h).partner_eq (List.mem_map_of_mem hx)

/-- Lists that match when each element passes a test and is mapped to its partner. -/
theorem forall₂_iff_map_eq {β γ : Type} {R : β → γ → Prop} {p : β → Prop} {f : β → γ}
    (h : ∀ x y, R x y ↔ p x ∧ f x = y) {xs : List β} {ys : List γ} :
    List.Forall₂ R xs ys ↔ (∀ x ∈ xs, p x) ∧ xs.map f = ys := by
  rw [funext₂ fun x y => propext (h x y), List.forall₂_and_left, ← List.forall₂_eq_eq_eq,
    List.forall₂_map_left_iff]

/-- Literals match under one-to-one pairs exactly if all variables of the first have
partners and these turn it into the second. -/
theorem OneToOne.matchesLiteral_iff {r : Renaming} (h : r.OneToOne) {l m : Literal} :
    r.MatchesLiteral l m ↔ (∀ x ∈ l.atom.vars, (x, r.partner x) ∈ r) ∧
      l.rename r.partner = m := by
  have hterm (t u : Term) : r.MatchesTerm t u ↔
      (∀ x, t = .var x → (x, r.partner x) ∈ r) ∧ t.rename r.partner = u := by
    cases t with
    | var x =>
      cases u with
      | var y =>
        simp only [MatchesTerm, Term.var.injEq, forall_eq', Term.rename]
        constructor
        · intro hxy
          rw [h.partner_eq hxy]
          exact ⟨hxy, rfl⟩
        · rintro ⟨hx, rfl⟩
          exact hx
      | constant d => simp [MatchesTerm, Term.rename]
    | constant c => cases u <;> simp [MatchesTerm, Term.rename]
  have hterms : List.Forall₂ r.MatchesTerm l.atom.terms m.atom.terms ↔
      (∀ x ∈ l.atom.vars, (x, r.partner x) ∈ r) ∧
        l.atom.terms.map (Term.rename r.partner) = m.atom.terms := by
    simp only [forall₂_iff_map_eq hterm, Atom.mem_vars_iff]
    refine and_congr_left fun _ => ⟨fun hall x hx => hall _ hx x rfl, ?_⟩
    rintro hall _ ht x rfl
    exact hall x ht
  rcases l with ⟨sign, symbol, terms⟩
  rcases m with ⟨sign', symbol', terms'⟩
  simp only [MatchesLiteral, MatchesAtom, hterms, Literal.rename, Atom.rename, Literal.mk.injEq,
    Atom.mk.injEq]
  tauto

theorem OneToOne.forall₂_matchesLiteral_iff {r : Renaming} (h : r.OneToOne)
    {ls ms : List Literal} : List.Forall₂ r.MatchesLiteral ls ms ↔
      (∀ l ∈ ls, ∀ x ∈ l.atom.vars, (x, r.partner x) ∈ r) ∧
        ls.map (Literal.rename r.partner) = ms :=
  forall₂_iff_map_eq (R := r.MatchesLiteral) fun _ _ => h.matchesLiteral_iff

end Renaming

/-! ### Similarity -/

namespace Clause

variable {α : Type} {a b : Clause α}

/-- Clauses are similar exactly if one is a variant of the other. -/
theorem isSimilar_iff_exists_isVariant : a.isSimilar b = true ↔ ∃ f, a.IsVariant f b := by
  have hempty : Renaming.OneToOne [] := by simp [Renaming.OneToOne]
  rw [isSimilar, Bool.and_eq_true, beq_iff_eq, pairsOff_iff hempty]
  constructor
  · rintro ⟨hlength, g, hg, -, partners, others, hperm, hall⟩
    -- all literals of the second clause are partners
    obtain rfl : others = [] := by
      have hpartners := hall.length_eq
      have htotal := hperm.length_eq
      rw [List.length_append] at htotal
      exact List.eq_nil_of_length_eq_zero (by omega)
    rw [List.append_nil] at hperm
    obtain ⟨hpairs, rfl⟩ := hg.forall₂_matchesLiteral_iff.1 hall
    have hpair : ∀ x ∈ a.vars, (x, g.partner x) ∈ g := by
      intro x hx
      obtain ⟨l, hl, hx⟩ := mem_vars_iff.1 hx
      exact hpairs l hl x hx
    exact ⟨g.partner, fun x hx y hy heq => (hg _ (hpair x hx) _ (hpair y hy)).2 heq, hperm⟩
  · rintro ⟨f, hf⟩
    let g := Renaming.ofNames f a.vars
    have hg : g.OneToOne := Renaming.oneToOne_ofNames hf.injOn
    have hpartner : ∀ x ∈ a.vars, g.partner x = f x := fun x hx =>
      Renaming.partner_ofNames hf.injOn hx
    have hall : List.Forall₂ g.MatchesLiteral a.literals (a.literals.map (Literal.rename f)) := by
      refine hg.forall₂_matchesLiteral_iff.2
        ⟨fun l hl x hx => ?_, List.map_congr_left fun l hl => ?_⟩
      · have hx := mem_vars_iff.2 ⟨l, hl, hx⟩
        rw [hpartner x hx]
        exact List.mem_map_of_mem hx
      · exact Literal.rename_congr fun x hx => hpartner x (mem_vars_iff.2 ⟨l, hl, hx⟩)
    exact ⟨by simpa using hf.perm.length_eq, g, hg, List.nil_subset _, _, [],
      by simpa using hf.perm, hall⟩

/-- The names of a variant are values, so the renaming leads from the variables of the
one clause to those of the other. -/
theorem IsVariant.mapsTo {f : String → String} (h : a.IsVariant f b) :
    Set.MapsTo f {x | x ∈ a.vars} {y | y ∈ b.vars} :=
  fun x hx => h.mem_vars_iff.2 ⟨x, hx, rfl⟩

/-- Being similar is an equivalence. -/
theorem equivalence_isSimilar : Equivalence fun a b : Clause α => a.isSimilar b = true where
  refl a := isSimilar_iff_exists_isVariant.2 ⟨id, .refl a⟩
  symm h := by
    obtain ⟨f, hf⟩ := isSimilar_iff_exists_isVariant.1 h
    exact isSimilar_iff_exists_isVariant.2 ⟨_, hf.symm⟩
  trans hab hbc := by
    obtain ⟨f, hf⟩ := isSimilar_iff_exists_isVariant.1 hab
    obtain ⟨g, hg⟩ := isSimilar_iff_exists_isVariant.1 hbc
    exact isSimilar_iff_exists_isVariant.2 ⟨g ∘ f, hf.trans hg⟩

/-- Atoms are similar like the clauses that consist of them under one sign. -/
theorem isSimilar_singleton (v w : α) (sign : Bool) (a b : Atom) :
    (⟨v, [⟨sign, a⟩]⟩ : Clause α).isSimilar ⟨w, [⟨sign, b⟩]⟩ = a.isSimilar b := by
  simp only [isSimilar, Atom.isSimilar, List.length_singleton, beq_self_eq_true, Bool.true_and,
    pairsOff, picks, List.map_nil, List.any_cons, List.any_nil, Bool.or_false,
    Renaming.matchLiteral?, if_true]
  cases Renaming.matchAtom? [] a b <;> rfl

/-- **Similarity is equality up to a renaming of variables and the order of literals.**
Two clauses are similar if and only if they have the same number of literals, and the
literals of the second can be put into an order in which they are those of the first
under a renaming of its variables to variables of the second, one to one: the same
signs, symbols and constants.  So similarity is an equivalence; weights do not count;
and similarity of atoms is that of clauses of one literal, whatever its sign. -/
theorem similarity_is_renaming {α : Type} :
    (∀ a b : Clause α, a.isSimilar b = true ↔ a.literals.length = b.literals.length ∧
      ∃ (partners : List Literal) (f : String → String), partners.Perm b.literals ∧
        Set.InjOn f {x | x ∈ a.vars} ∧ Set.MapsTo f {x | x ∈ a.vars} {y | y ∈ b.vars} ∧
        List.Forall₂ (fun l m => l.rename f = m) a.literals partners) ∧
    (Equivalence fun a b : Clause α => a.isSimilar b = true) ∧
    (∀ (a b : Clause α) (v w : α),
      Clause.isSimilar { a with weight := v } { b with weight := w } = a.isSimilar b) ∧
    ∀ (v w : α) (sign : Bool) (a b : Atom),
      (⟨v, [⟨sign, a⟩]⟩ : Clause α).isSimilar ⟨w, [⟨sign, b⟩]⟩ = a.isSimilar b := by
  refine ⟨fun a b => ?_, equivalence_isSimilar, fun _ _ _ _ => rfl, isSimilar_singleton⟩
  rw [isSimilar_iff_exists_isVariant]
  constructor
  · rintro ⟨f, hf⟩
    refine ⟨by simpa using hf.perm.length_eq, _, f, hf.perm, hf.injOn, hf.mapsTo, ?_⟩
    rw [← List.forall₂_map_left_iff, List.forall₂_eq_eq_eq]
  · rintro ⟨-, partners, f, hperm, hinj, -, hall⟩
    rw [← List.forall₂_map_left_iff, List.forall₂_eq_eq_eq] at hall
    exact ⟨f, hinj, hall ▸ hperm⟩

/-- A first choice that leads nowhere is taken back: `P(x)` fits `P(u)` as well as
`P(v)`, but only the second leaves a partner for `Q(x)`. -/
example :
    (⟨(), [⟨true, ⟨"P", [.var "x"]⟩⟩, ⟨true, ⟨"P", [.var "y"]⟩⟩,
      ⟨true, ⟨"Q", [.var "x"]⟩⟩]⟩ : Clause Unit).isSimilar
    ⟨(), [⟨true, ⟨"P", [.var "u"]⟩⟩, ⟨true, ⟨"P", [.var "v"]⟩⟩, ⟨true, ⟨"Q", [.var "v"]⟩⟩]⟩ =
      true := by
  decide

end Clause

end MarkovLogic
