/-
MarkovLogic/Proofs/Grounding/Correspondence.lean

Digits and substitutions.

The digits of an odometer stand for a substitution: each variable for the name
at the position that its digit gives (`substitutionOf`).  Under digits that are
in range a prepared literal finds out about its atom what the reference finds
under the substitution (`find_probe`).  Different digits stand for different
substitutions, and a substitution that no digits stand for leaves nothing of
the clause, for it gives some variable a constant that is not in its domain
(`remainders_perm`).
-/
import MarkovLogic.Proofs.Grounding.Probes
import MarkovLogic.Proofs.Grounding.Reference
import MarkovLogic.Proofs.Model
import MarkovLogic.Proofs.Odometer

namespace MarkovLogic.Grounding

variable {α : Type} {m : Model α}

/-! ### Sources -/

/-- The source of a declared predicate is its evidence, that of any other its
rule. -/
theorem resolve_eq_ok {l : Literal} {r : Resolved} (h : resolve m l = .ok r) :
    r.literal = l ∧
      ((∃ e, r.source = .stored e ∧ m.evidenceOf? l.atom.signature = some e) ∨
        ∃ rule, r.source = .computed rule ∧ m.evidenceOf? l.atom.signature = none ∧
          m.kb.computed.rule? l.atom.signature = some (some rule)) := by
  unfold resolve at h
  dsimp only at h
  split at h
  · rename_i e he
    cases h
    exact ⟨rfl, .inl ⟨e, rfl, he⟩⟩
  · rename_i he
    split at h
    · rename_i rule hrule
      cases h
      exact ⟨rfl, .inr ⟨rule, rfl, he, hrule⟩⟩
    · cases h

/-! ### Digits -/

/-- Each variable has a digit with its domain. -/
theorem digitsOf_eq_ok {clause : Nat} {rs : List Resolved} {digits : List Digit}
    (h : digitsOf clause rs = .ok digits) :
    List.Forall₂ (fun name d => d.name = name ∧ domainOf? rs name = some d.domain)
      (variablesOf rs).reverse digits := by
  refine (mapM_eq_ok_iff.1 h).imp fun name d hd => ?_
  split at hd
  · rename_i domain hdomain
    cases hd
    exact ⟨rfl, hdomain⟩
  · cases hd

/-- The names of the digits are the variables. -/
theorem map_name_digits {clause : Nat} {rs : List Resolved} {digits : List Digit}
    (h : digitsOf clause rs = .ok digits) :
    digits.map Digit.name = (variablesOf rs).reverse := by
  have hnames := map_eq_of_forall₂ (f := id) (g := Digit.name)
    ((digitsOf_eq_ok h).imp fun _ _ hd => hd.1.symm)
  rw [← hnames, List.map_id]

/-- The digit at the position of a variable is its digit. -/
theorem exists_digit {clause : Nat} {rs : List Resolved} {digits : List Digit}
    (h : digitsOf clause rs = .ok digits) {v : String} (hv : v ∈ variablesOf rs) :
    ∃ d, digits[positionOf digits v]? = some d ∧ d.name = v ∧ domainOf? rs v = some d.domain := by
  obtain ⟨d, hd, hname⟩ : ∃ d ∈ digits, d.name = v := by
    rw [← List.mem_reverse, ← map_name_digits h] at hv
    exact List.mem_map.1 hv
  have hlt : positionOf digits v < digits.length :=
    List.findIdx_lt_length_of_exists ⟨d, hd, by simpa using hname⟩
  have hat := List.getElem?_eq_getElem hlt
  have hfound : (digits[positionOf digits v].name == v) = true := List.findIdx_getElem (w := hlt)
  obtain ⟨name, -, hsame, hdomain⟩ :=
    exists_mem_of_forall₂ (digitsOf_eq_ok h) (List.getElem_mem hlt)
  obtain rfl : name = v := hsame.symm.trans (eq_of_beq hfound)
  exact ⟨_, hat, hsame, hdomain⟩

/-- The substitution that digits stand for. -/
def substitutionOf (digits : List Digit) (ds : List Nat) (v : String) : String :=
  (digits[positionOf digits v]?.bind fun d =>
    ds[positionOf digits v]?.bind fun i => d.domain.name? i).getD ""

/-- The digits are below the sizes of their domains. -/
def InRange (digits : List Digit) (ds : List Nat) : Prop :=
  List.Forall₂ (· < ·) ds (digits.map fun d => d.domain.size)

/-- A digit in range stands for a name. -/
theorem InRange.exists_name {digits : List Digit} {ds : List Nat} (h : InRange digits ds)
    {v : String} {d : Digit} (hd : digits[positionOf digits v]? = some d) :
    ∃ i, ds[positionOf digits v]? = some i ∧
      d.domain.name? i = some (substitutionOf digits ds v) := by
  obtain ⟨hlt, hget⟩ := List.getElem?_eq_some_iff.1 hd
  have hlength : ds.length = digits.length := by
    rw [h.length_eq, List.length_map]
  have hi : positionOf digits v < ds.length := by omega
  refine ⟨ds[positionOf digits v], List.getElem?_eq_getElem hi, ?_⟩
  have hrange : ds[positionOf digits v] < d.domain.size := by
    have := h.get hi (by rw [List.length_map]; exact hlt)
    simpa [hget] using this
  obtain ⟨c, hc⟩ := Option.isSome_iff_exists.1 (Domain.name?_isSome_iff.2 hrange)
  rw [substitutionOf, hd, Option.bind_some, List.getElem?_eq_getElem hi, Option.bind_some, hc,
    Option.getD_some]

/-! ### Findings -/

/-- The variables of an atom have digits. -/
def Covers (digits : List Digit) (a : Atom) : Prop :=
  ∀ v, Term.var v ∈ a.terms → ∃ d, digits[positionOf digits v]? = some d

/-- The position of an argument is that of the name it stands for. -/
theorem index?_indexSlot {digits : List Digit} {ds : List Nat} (hds : InRange digits ds) {t : Term}
    (ht : ∀ v, t = .var v → ∃ d, digits[positionOf digits v]? = some d) (domain : Domain) :
    (indexSlot digits t domain).index? ds = domain.find? (t.under (substitutionOf digits ds)) := by
  cases t with
  | constant c => rfl
  | var v =>
    obtain ⟨d, hd⟩ := ht v rfl
    obtain ⟨i, hi, hname⟩ := hds.exists_name hd
    rw [Domain.name?] at hname
    simp [indexSlot, hd, IndexSlot.index?, hi, hname, Term.under]

/-- The name of an argument is the one it stands for. -/
theorem name?_nameSlot {digits : List Digit} {ds : List Nat} (hds : InRange digits ds) {t : Term}
    (ht : ∀ v, t = .var v → ∃ d, digits[positionOf digits v]? = some d) :
    (nameSlot digits t).name? ds = some (t.under (substitutionOf digits ds)) := by
  cases t with
  | constant c => rfl
  | var v =>
    obtain ⟨d, hd⟩ := ht v rfl
    obtain ⟨i, hi, hname⟩ := hds.exists_name hd
    simp [nameSlot, hd, NameSlot.name?, hi, hname, Term.under]

/-- Slots find the positions of the names that the arguments stand for. -/
theorem mapM_indexSlot {digits : List Digit} {ds : List Nat} (hds : InRange digits ds) {a : Atom}
    (ha : Covers digits a) (domains : List Domain) :
    ((a.terms.zip domains).map fun (t, d) => indexSlot digits t d).mapM (IndexSlot.index? ds) =
      Herbrand.positions? domains (a.terms.map (Term.under (substitutionOf digits ds))) := by
  have hzip : domains.zip (a.terms.map (Term.under (substitutionOf digits ds))) =
      (a.terms.zip domains).map fun (t, d) => (d, t.under (substitutionOf digits ds)) := by
    rw [← List.zip_swap, List.zip_map_left, List.map_map]
    rfl
  rw [Herbrand.positions?, hzip, List.mapM_map, List.mapM_map]
  refine mapM_congr ?_
  rintro ⟨t, d⟩ htd
  have ht : t ∈ a.terms := (List.of_mem_zip htd).1
  exact index?_indexSlot hds (fun v hv => ha v (hv ▸ ht)) d

theorem mapM_nameSlot {digits : List Digit} {ds : List Nat} (hds : InRange digits ds) {a : Atom}
    (ha : Covers digits a) :
    (a.terms.map (nameSlot digits)).mapM (NameSlot.name? ds) =
      some (a.terms.map (Term.under (substitutionOf digits ds))) := by
  rw [List.mapM_map, mapM_eq_some_iff, List.forall₂_map_right_iff, List.forall₂_same]
  intro t ht
  exact name?_nameSlot hds fun v hv => ha v (hv ▸ ht)

/-- **A prepared literal finds what the reference finds.** -/
theorem find_probe {schema : List (Signature × List Domain)} (h : m.Built schema) {l : Literal}
    {r : Resolved} (hr : resolve m l = .ok r) {digits : List Digit} (hl : Covers digits l.atom)
    {ds : List Nat} (hds : InRange digits ds) :
    (probe digits r).test.find ds = m.finding (substitutionOf digits ds) l.atom := by
  obtain ⟨literal, source⟩ := r
  obtain ⟨rfl, ⟨e, rfl, he⟩ | ⟨rule, rfl, hnone, hrule⟩⟩ := resolve_eq_ok hr
  · -- a declared predicate: its block gives the number that the base gives
    obtain ⟨hmem, hsig⟩ := h.evidenceOf?_eq_some_iff.1 he
    have hlength : (literal.atom.terms.map (Term.under (substitutionOf digits ds))).length =
        e.block.domains.length := by
      rw [h.length_domains _ (h.entry_mem hmem), hsig, List.length_map]
      rfl
    have hencode : m.base.encode? literal.atom.signature
        (literal.atom.terms.map (Term.under (substitutionOf digits ds))) =
        (Herbrand.positions? e.block.domains
          (literal.atom.terms.map (Term.under (substitutionOf digits ds)))).bind
            e.block.encodeIndices? := by
      rw [Herbrand.Base.encode?_eq, h.find?_of_evidenceOf? he, Option.bind_some,
        Herbrand.Block.encode?_of_find? hlength]
    simp only [probe, Test.find, Resolved.typedTerms, Model.finding,
      h.contains_schema_iff.2 ⟨e, he⟩, if_true, hencode, mapM_indexSlot hds hl]
    rcases hid : (Herbrand.positions? e.block.domains
        (literal.atom.terms.map (Term.under (substitutionOf digits ds)))).bind
          e.block.encodeIndices? with _ | id
    · rfl
    · obtain ⟨indices, -, hindices⟩ := Option.bind_eq_some_iff.1 hid
      have htruth := h.truth_eq hmem (Herbrand.Block.contains_of_encodeIndices? hindices)
      cases hget : (e.get id).toBool? <;> simp only [htruth, hget]
  · -- a rule is asked only about a predicate that is not declared
    have hundeclared : m.kb.schema.contains literal.atom.signature = false := by
      rw [Bool.eq_false_iff]
      intro hdeclared
      obtain ⟨e, he⟩ := h.contains_schema_iff.1 hdeclared
      rw [hnone] at he
      cases he
    simp only [probe, Test.find, Model.finding, hundeclared, Bool.false_eq_true, if_false, hrule,
      mapM_nameSlot hds hl]

/-! ### Verdicts -/

/-- Whether a prepared literal settles its clause. -/
def Probe.settles (ds : List Nat) (p : Probe) : Bool :=
  p.test.find ds = .absent || p.test.find ds = .known p.positive

/-- The literal of a prepared literal whose atom is unknown. -/
def Probe.unknownLiteral? (ds : List Nat) (p : Probe) : Option Int :=
  match p.test.find ds with
  | .unknown id => some (signedLiteral p.positive id)
  | _ => none

/-- What a verdict leaves of a clause, if anything. -/
def Verdict.remainder? : Verdict → Option (List Int)
  | .pending literals =>
    if Harvest.isTautology (literalSet literals) then none else some (literalSet literals)
  | _ => none

/-- What judging a clause under digits leaves of it. -/
def Template.remainder? (t : Template α) (ds : List Nat) : Option (List Int) :=
  (judge ds t.probes []).remainder?

/-- A clause that is left undecided has unknown literals. -/
theorem ne_nil_of_judge {ds : List Nat} {ps : List Probe} {left literals : List Int}
    (h : judge ds ps left = .pending literals) : literals ≠ [] := by
  induction ps generalizing left with
  | nil =>
    rw [judge] at h
    split at h
    · cases h
    · rename_i hleft
      obtain rfl := Verdict.pending.inj h
      exact fun hnil => hleft (hnil ▸ rfl)
  | cons p ps ih =>
    rw [judge] at h
    split at h
    · cases h
    · split at h
      · cases h
      · exact ih h
    · exact ih h

/-- What is left of a clause has literals. -/
theorem Template.ne_nil_of_remainder? {α : Type} {t : Template α} {ds : List Nat} {rest : List Int}
    (h : t.remainder? ds = some rest) : rest ≠ [] := by
  rw [Template.remainder?] at h
  rcases hjudge : judge ds t.probes [] with _ | _ | _ | literals <;> rw [hjudge] at h
  · cases h
  · cases h
  · cases h
  · rw [Verdict.remainder?] at h
    split at h
    · cases h
    · obtain rfl := Option.some.inj h
      obtain ⟨l, hl⟩ := List.exists_mem_of_ne_nil literals (ne_nil_of_judge hjudge)
      exact List.ne_nil_of_mem (mem_literalSet.2 hl)

/-- Without a literal that settles it, the clause is left with its unknown
literals. -/
theorem judge_of_not_settles {ds : List Nat} {ps : List Probe} (left : List Int)
    (h : ps.any (Probe.settles ds) = false) :
    judge ds ps left =
      if (left ++ ps.filterMap (Probe.unknownLiteral? ds)).isEmpty then .falsified
      else .pending (left ++ ps.filterMap (Probe.unknownLiteral? ds)) := by
  induction ps generalizing left with
  | nil => simp [judge]
  | cons p ps ih =>
    rw [List.any_cons, Bool.or_eq_false_iff] at h
    obtain ⟨hp, hps⟩ := h
    rw [judge, List.filterMap_cons, Probe.unknownLiteral?]
    rcases hf : p.test.find ds with _ | value | id
    · simp [Probe.settles, hf] at hp
    · have hvalue : value ≠ p.positive := by
        rintro rfl
        simp [Probe.settles, hf] at hp
      simp only [hvalue, if_false]
      exact ih left hps
    · have hstep := ih (left ++ [signedLiteral p.positive id]) hps
      rw [List.append_assoc, List.singleton_append] at hstep
      exact hstep

/-- A literal that settles it leaves nothing of the clause. -/
theorem remainder?_judge_of_settles {ds : List Nat} {ps : List Probe} (left : List Int)
    (h : ps.any (Probe.settles ds) = true) : (judge ds ps left).remainder? = none := by
  induction ps generalizing left with
  | nil => simp at h
  | cons p ps ih =>
    rw [List.any_cons, Bool.or_eq_true] at h
    rw [judge]
    rcases hf : p.test.find ds with _ | value | id
    · rfl
    · by_cases hvalue : value = p.positive
      · simp only [hvalue, if_true]
        rfl
      · simp only [hvalue, if_false]
        refine ih left (h.resolve_left fun hp => hvalue ?_)
        simpa [Probe.settles, hf] using hp
    · refine ih _ (h.resolve_left fun hp => ?_)
      simp [Probe.settles, hf] at hp

/-- A set of nonzero literals is a tautology if it has a literal and its
negation. -/
theorem isTautology_eq {literals : List Int} (h : (0 : Int) ∉ literals) :
    Harvest.isTautology literals = literals.any fun l => literals.contains (-l) := by
  rw [Bool.eq_iff_iff, Harvest.isTautology, List.any_eq_true, List.any_eq_true]
  constructor
  · rintro ⟨l, hl, hboth⟩
    exact ⟨l, hl, (Bool.and_eq_true _ _ ▸ hboth).2⟩
  · rintro ⟨l, hl, hneg⟩
    rw [List.contains_iff_mem] at hneg
    have hne : l ≠ 0 := fun hz => h (hz ▸ hl)
    by_cases hpos : 0 < l
    · exact ⟨l, hl, by simp [hpos, hneg]⟩
    · exact ⟨-l, hneg, by simp [hl]; omega⟩

/-! ### Prepared clauses -/

/-- An unknown atom has a number of its predicate. -/
theorem owner?_of_finding {schema : List (Signature × List Domain)} (h : m.Built schema)
    {σ : String → String} {a : Atom} {id : Nat} (hid : m.finding σ a = .unknown id) :
    (∃ block, m.base.owner? id = some block ∧ block.signature = a.signature) ∧
      m.truth id = .unknown := by
  unfold Model.finding at hid
  dsimp only at hid
  split at hid
  · split at hid
    · cases hid
    · rename_i number hnumber
      split at hid
      · cases hid
      · rename_i htruth
        cases hid
        obtain ⟨block, howner, hsig, -⟩ :=
          (Herbrand.Base.encode?_eq_some_iff h.base h.nodup).1 hnumber
        refine ⟨⟨block, howner, hsig⟩, ?_⟩
        cases ht : m.truth id with
        | unknown => rfl
        | holds => simp [ht, Truth.toBool?] at htruth
        | fails => simp [ht, Truth.toBool?] at htruth
  · split at hid <;> cases hid

theorem bounds_of_finding {schema : List (Signature × List Domain)} (h : m.Built schema)
    {σ : String → String} {a : Atom} {id : Nat} (hid : m.finding σ a = .unknown id) :
    1 ≤ id ∧ id ≤ m.base.atomCount := by
  obtain ⟨⟨block, howner, -⟩, -⟩ := owner?_of_finding h hid
  exact (Herbrand.Base.owner?_isSome_iff h.base).1 (Option.isSome_of_eq_some howner)

variable [Scalar α] {index : Nat} {c : Clause α} {t : Template α}

/-- A prepared clause has the literals of the clause, each with its source, and
asks them in another order. -/
theorem exists_resolved (hmake : Template.make m index c = .ok t) :
    t.clause = index ∧ t.weight = c.weight ∧ Scalar.isNaN c.weight = false ∧
      ∃ resolved, List.Forall₂ (fun l r => resolve m l = .ok r) c.literals resolved ∧
        digitsOf index (ordered resolved) = .ok t.digits ∧
        t.probes.Perm (resolved.map (probe t.digits)) := by
  obtain ⟨resolved, digits, hnan, hresolved, hdigits, rfl⟩ := Template.make_eq_ok hmake
  refine ⟨rfl, rfl, hnan, resolved, mapM_eq_ok_iff.1 hresolved, hdigits, ?_⟩
  exact (List.mergeSort_perm _ _).trans ((List.mergeSort_perm _ _).map _)

omit [Scalar α] in
/-- The variables that run are those of the clause. -/
theorem mem_variablesOf_iff {literals : List Literal} {resolved : List Resolved}
    (hresolved : List.Forall₂ (fun l r => resolve m l = .ok r) literals resolved) {v : String} :
    v ∈ variablesOf (ordered resolved) ↔ ∃ l ∈ literals, Term.var v ∈ l.atom.terms := by
  have hliterals : literals = resolved.map Resolved.literal := by
    have hmap := map_eq_of_forall₂ (f := id) (g := Resolved.literal)
      (hresolved.imp fun l r hr => (resolve_eq_ok hr).1.symm)
    rwa [List.map_id] at hmap
  simp only [variablesOf, List.mem_eraseDups, List.mem_flatMap, ordered, List.mem_mergeSort,
    Atom.mem_vars_iff, hliterals, List.mem_map, exists_exists_and_eq_and]

omit [Scalar α] in
/-- The literals of a clause settle it, or are unknown, as their prepared
literals do. -/
theorem settles_probe {schema : List (Signature × List Domain)} (h : m.Built schema)
    (hsize : m.base.atomCount ≤ Herbrand.Block.maxId) {l : Literal} {r : Resolved}
    (hr : resolve m l = .ok r) {digits : List Digit} (hl : Covers digits l.atom) {ds : List Nat}
    (hds : InRange digits ds) :
    m.settles (substitutionOf digits ds) l = (probe digits r).settles ds ∧
      m.unknownLiteral? (substitutionOf digits ds) l = (probe digits r).unknownLiteral? ds := by
  have hfind := find_probe h hr hl hds
  have hpositive : (probe digits r).positive = l.positive := by
    rw [← (resolve_eq_ok hr).1]
    rfl
  constructor
  · rw [Model.settles, Probe.settles, hfind, hpositive]
  · rw [Model.unknownLiteral?, Probe.unknownLiteral?, hfind, hpositive]
    rcases hf : m.finding (substitutionOf digits ds) l.atom with _ | _ | id
    · rfl
    · rfl
    · -- numbers of atoms have at most 31 bits, so they are literals as they stand
      have hid : id ≤ Herbrand.Block.maxId := (bounds_of_finding h hf).2.trans hsize
      have hopposite : oppositeLiteral (id : Int) = -id :=
        oppositeLiteral_of_le (by rwa [Int.natAbs_natCast])
      simp only [signedLiteral, literalOf_of_le hid, hopposite]

omit [Scalar α] in
/-- An unknown literal has the number of an unknown atom. -/
theorem finding_of_mem_unknown {schema : List (Signature × List Domain)} (h : m.Built schema)
    {literals : List Literal} {σ : String → String} {x : Int}
    (hx : x ∈ literals.filterMap (m.unknownLiteral? σ)) :
    x ≠ 0 ∧ ∃ l ∈ literals, m.finding σ l.atom = .unknown x.natAbs := by
  obtain ⟨l, hl, hsome⟩ := List.mem_filterMap.1 hx
  unfold Model.unknownLiteral? at hsome
  split at hsome
  · rename_i id hid
    have hpos := (bounds_of_finding h hid).1
    have hsign : x = if l.positive = true then (id : Int) else -id := (Option.some.inj hsome).symm
    have habs : x.natAbs = id := by
      rw [hsign]
      split <;> simp
    exact ⟨by omega, l, hl, habs ▸ hid⟩
  · cases hsome

omit [Scalar α] in
/-- If something remains of a clause, no literal settles it, and the unknown
literals remain. -/
theorem remainder_eq_some {literals : List Literal} {σ : String → String} {rest : List Int}
    (h : m.remainder literals σ = some rest) :
    (∀ l ∈ literals, m.settles σ l = false) ∧
      rest = literalSet (literals.filterMap (m.unknownLiteral? σ)) ∧ rest ≠ [] := by
  unfold Model.remainder at h
  dsimp only at h
  split at h
  · cases h
  · rename_i hopen
    rw [Option.some.inj h] at hopen
    simp only [Bool.or_eq_true, not_or, List.any_eq_true, not_exists, not_and,
      Bool.not_eq_true] at hopen
    exact ⟨hopen.1.1, (Option.some.inj h).symm, List.isEmpty_eq_false_iff.1 hopen.1.2⟩

omit [Scalar α] in
/-- What remains of a clause are numbers of unknown atoms of its predicates,
with signs. -/
theorem unknown_of_remainder {schema : List (Signature × List Domain)} (h : m.Built schema)
    {literals : List Literal} {σ : String → String} {rest : List Int}
    (hrest : m.remainder literals σ = some rest) {x : Int} (hx : x ∈ rest) :
    x ≠ 0 ∧ m.truth x.natAbs = .unknown ∧ ∃ l ∈ literals, ∃ block,
      m.base.owner? x.natAbs = some block ∧ block.signature = l.atom.signature := by
  have hmem : x ∈ literals.filterMap (m.unknownLiteral? σ) := by
    rwa [(remainder_eq_some hrest).2.1, mem_literalSet] at hx
  obtain ⟨hne, l, hl, hid⟩ := finding_of_mem_unknown h hmem
  obtain ⟨howner, htruth⟩ := owner?_of_finding h hid
  exact ⟨hne, htruth, l, hl, howner⟩

/-- The ground theory is about unknown atoms. -/
theorem isUnknownAtom_of_mem {schema : List (Signature × List Domain)} (h : m.Built schema)
    {g : GroundClause α} (hg : g ∈ m.groundTheory) {x : Int} (hx : x ∈ g.literals) :
    m.IsUnknownAtom x.natAbs := by
  obtain ⟨c, -, hg⟩ := List.mem_flatMap.1 hg
  obtain ⟨σ, -, hsome⟩ := List.mem_filterMap.1 hg
  obtain ⟨rest, hrest, rfl⟩ := Option.map_eq_some_iff.1 hsome
  obtain ⟨-, htruth, -, -, block, howner, -⟩ := unknown_of_remainder h hrest hx
  exact ⟨Option.isSome_of_eq_some howner, htruth⟩

/-- The prepared literals settle the clause exactly if its literals do, and they
leave the same unknown literals. -/
theorem probes_agree {schema : List (Signature × List Domain)} (h : m.Built schema)
    (hsize : m.base.atomCount ≤ Herbrand.Block.maxId) (hmake : Template.make m index c = .ok t)
    {ds : List Nat} (hds : InRange t.digits ds) :
    c.literals.any (m.settles (substitutionOf t.digits ds)) = t.probes.any (Probe.settles ds) ∧
      literalSet (c.literals.filterMap (m.unknownLiteral? (substitutionOf t.digits ds))) =
        literalSet (t.probes.filterMap (Probe.unknownLiteral? ds)) := by
  obtain ⟨-, -, -, resolved, hresolved, hdigits, hprobes⟩ := exists_resolved hmake
  have hcovers : ∀ l ∈ c.literals, Covers t.digits l.atom := by
    intro l hl v hv
    obtain ⟨d, hd, -⟩ := exists_digit hdigits ((mem_variablesOf_iff hresolved).2 ⟨l, hl, hv⟩)
    exact ⟨d, hd⟩
  have hsame := ((List.forall₂_and_left _ _).2 ⟨hcovers, hresolved⟩).imp
    fun l r hlr => settles_probe h hsize hlr.2 hlr.1 hds
  -- the literals are asked in another order, which neither `any` nor a set can tell
  constructor
  · have hmap := congrArg (List.any · id) (map_eq_of_forall₂ (hsame.imp fun _ _ hlr => hlr.1))
    rw [List.any_map, List.any_map] at hmap
    refine hmap.trans ?_
    rw [hprobes.any_eq, List.any_map]
    rfl
  · have hmap := congrArg (List.filterMap id)
      (map_eq_of_forall₂ (hsame.imp fun _ _ hlr => hlr.2))
    rw [List.filterMap_map, List.filterMap_map] at hmap
    refine literalSet_congr fun x => ?_
    have hperm := (hprobes.filterMap (Probe.unknownLiteral? ds)).mem_iff (a := x)
    rw [List.filterMap_map] at hperm
    rw [hperm]
    exact iff_of_eq (congrArg (x ∈ ·) hmap)

/-- What remains of a clause under a substitution is what judging it leaves. -/
theorem remainder_eq {schema : List (Signature × List Domain)} (h : m.Built schema)
    (hsize : m.base.atomCount ≤ Herbrand.Block.maxId) (hmake : Template.make m index c = .ok t)
    {ds : List Nat} (hds : InRange t.digits ds) :
    m.remainder c.literals (substitutionOf t.digits ds) = t.remainder? ds := by
  obtain ⟨hsettles, hunknown⟩ := probes_agree h hsize hmake hds
  have hzero : (0 : Int) ∉ literalSet (t.probes.filterMap (Probe.unknownLiteral? ds)) := by
    rw [← hunknown, mem_literalSet]
    exact fun hmem => (finding_of_mem_unknown h hmem).1 rfl
  simp only [Model.remainder, Template.remainder?, hsettles, hunknown]
  rcases hany : t.probes.any (Probe.settles ds) with _ | _
  · rw [judge_of_not_settles [] hany, List.nil_append, ← isTautology_eq hzero]
    generalize t.probes.filterMap (Probe.unknownLiteral? ds) = unknown
    rcases unknown with _ | ⟨x, unknown⟩
    · rfl
    · have hne : (literalSet (x :: unknown)).isEmpty = false := by
        rw [List.isEmpty_eq_false_iff]
        exact List.ne_nil_of_mem (mem_literalSet.2 List.mem_cons_self)
      rw [hne]
      rfl
  · rw [remainder?_judge_of_settles [] hany]
    rfl

theorem exists_remainder {schema : List (Signature × List Domain)} (h : m.Built schema)
    (hsize : m.base.atomCount ≤ Herbrand.Block.maxId) (hmake : Template.make m index c = .ok t)
    {rest : List Int} (hrest : rest ∈ (Odometer.combinations t.radices).filterMap t.remainder?) :
    ∃ σ, m.remainder c.literals σ = some rest := by
  obtain ⟨ds, hds, hsome⟩ := List.mem_filterMap.1 hrest
  exact ⟨_, (remainder_eq h hsize hmake (Odometer.mem_combinations_iff.1 hds)).trans hsome⟩

/-! ### All substitutions -/

omit [Scalar α] in
/-- The domain of a variable is that of an argument where it stands. -/
theorem exists_argument {schema : List (Signature × List Domain)} (h : m.Built schema)
    {literals : List Literal} {resolved : List Resolved}
    (hresolved : List.Forall₂ (fun l r => resolve m l = .ok r) literals resolved) {v : String}
    {domain : Domain} (hdomain : domainOf? (ordered resolved) v = some domain) :
    ∃ l ∈ literals, ∃ e ∈ m.evidence, e.block.signature = l.atom.signature ∧
      (Term.var v, domain) ∈ l.atom.terms.zip e.block.domains := by
  obtain ⟨⟨t, d⟩, htd, hfound⟩ := List.exists_of_findSome?_eq_some hdomain
  obtain ⟨rfl, rfl⟩ : t = .var v ∧ d = domain := by
    dsimp only at hfound
    split at hfound
    · rename_i ht
      exact ⟨ht, Option.some.inj hfound⟩
    · cases hfound
  obtain ⟨r, hr, htyped⟩ := List.mem_flatMap.1 htd
  obtain ⟨l, hl, hlr⟩ := exists_mem_of_forall₂ hresolved (List.mem_mergeSort.1 hr)
  obtain ⟨literal, source⟩ := r
  obtain ⟨rfl, ⟨e, rfl, he⟩ | ⟨rule, rfl, -, -⟩⟩ := resolve_eq_ok hlr
  · obtain ⟨hmem, hsig⟩ := h.evidenceOf?_eq_some_iff.1 he
    exact ⟨literal, hl, e, hmem, hsig, htyped⟩
  · simp [Resolved.typedTerms] at htyped

omit [Scalar α] in
/-- The domains of the variables are among those of the model. -/
theorem mem_constants {schema : List (Signature × List Domain)} (h : m.Built schema)
    {e : Evidence} (he : e ∈ m.evidence) {domain : Domain} (hdomain : domain ∈ e.block.domains)
    {c : String} (hc : c ∈ domain.toList) : c ∈ m.constants := by
  obtain ⟨typeName, htype⟩ := h.mem_domains _ (h.entry_mem he) domain hdomain
  rw [Model.constants, List.mem_eraseDups, List.mem_flatMap]
  exact ⟨(typeName, domain), Std.TreeMap.mem_toList_iff_getElem?_eq_some.2 htype, hc⟩

omit [Scalar α] in
/-- If something remains of a clause, its arguments are in their domains. -/
theorem mem_domain_of_remainder {schema : List (Signature × List Domain)} (h : m.Built schema)
    {literals : List Literal} {σ : String → String} {rest : List Int}
    (hrest : m.remainder literals σ = some rest) {l : Literal} (hl : l ∈ literals) {e : Evidence}
    (he : e ∈ m.evidence) (hsig : e.block.signature = l.atom.signature) {t : Term} {domain : Domain}
    (ht : (t, domain) ∈ l.atom.terms.zip e.block.domains) : t.under σ ∈ domain.toList := by
  have hevidence := h.evidenceOf?_eq_some_iff.2 ⟨he, hsig⟩
  -- the literal does not settle the clause, so its atom has a number
  have hsettles := (remainder_eq_some hrest).1 l hl
  have hnumber : (m.base.encode? l.atom.signature (l.atom.terms.map (Term.under σ))).isSome := by
    rcases hid : m.base.encode? l.atom.signature (l.atom.terms.map (Term.under σ)) with _ | id
    · have habsent : m.finding σ l.atom = .absent := by
        simp only [Model.finding, h.contains_schema_iff.2 ⟨e, hevidence⟩, if_true, hid]
      simp [Model.settles, habsent] at hsettles
    · rfl
  rw [Herbrand.Base.encode?_eq, h.find?_of_evidenceOf? hevidence, Option.bind_some,
    Herbrand.Block.encode?_isSome_iff, Herbrand.InDomains, List.forall₂_map_left_iff] at hnumber
  exact (List.forall₂_iff_zip.1 hnumber).2 ht

/-- A digit stands at the position of its name. -/
theorem positionOf_name {digits : List Digit} (hnames : (digits.map Digit.name).Nodup) {k : Nat}
    {d : Digit} (hd : digits[k]? = some d) : positionOf digits d.name = k := by
  obtain ⟨hk, rfl⟩ := List.getElem?_eq_some_iff.1 hd
  rw [positionOf, List.findIdx_eq hk]
  refine ⟨beq_self_eq_true _, fun j hj => ?_⟩
  rw [beq_eq_false_iff_ne]
  rw [List.Nodup, List.pairwise_map, List.pairwise_iff_getElem] at hnames
  exact hnames j k (by omega) hk hj

theorem getElem?_positionOf {digits : List Digit} (hnames : (digits.map Digit.name).Nodup)
    {d : Digit} (hd : d ∈ digits) : digits[positionOf digits d.name]? = some d := by
  obtain ⟨k, hk⟩ := List.mem_iff_getElem?.1 hd
  rwa [positionOf_name hnames hk]

/-- Digits that stand for the same substitution are the same. -/
theorem InRange.substitutionOf_inj {digits : List Digit} (hnames : (digits.map Digit.name).Nodup)
    {ds ds' : List Nat} (hds : InRange digits ds) (hds' : InRange digits ds')
    (heq : substitutionOf digits ds = substitutionOf digits ds') : ds = ds' := by
  have hlength : ∀ {ds}, InRange digits ds → ds.length = digits.length := fun h => by
    rw [h.length_eq, List.length_map]
  refine List.ext_getElem? fun k => ?_
  by_cases hk : k < digits.length
  · obtain ⟨d, hd⟩ : ∃ d, digits[k]? = some d := ⟨_, List.getElem?_eq_getElem hk⟩
    have hposition := positionOf_name hnames hd
    rw [← hposition] at hd ⊢
    obtain ⟨i, hi, hname⟩ := hds.exists_name hd
    obtain ⟨i', hi', hname'⟩ := hds'.exists_name hd
    rw [Domain.name?_eq_some_iff] at hname hname'
    rw [heq, hname'] at hname
    rw [hi, hi', hname]
  · rw [List.getElem?_eq_none (by rw [hlength hds]; omega),
      List.getElem?_eq_none (by rw [hlength hds']; omega)]

/-- A name without a digit stays blank. -/
theorem substitutionOf_of_notMem {digits : List Digit} (ds : List Nat) {v : String}
    (hv : v ∉ digits.map Digit.name) : substitutionOf digits ds v = "" := by
  have hposition : positionOf digits v = digits.length := by
    refine List.findIdx_eq_length_of_false fun d hd => ?_
    rw [beq_eq_false_iff_ne]
    exact fun hname => hv (List.mem_map.2 ⟨d, hd, hname⟩)
  rw [substitutionOf, hposition, List.getElem?_eq_none (Nat.le_refl _)]
  rfl

/-- A substitution whose names are in the domains of the digits is one that
digits stand for. -/
theorem exists_substitutionOf_eq {digits : List Digit} (hnames : (digits.map Digit.name).Nodup)
    {σ : String → String} (hin : ∀ d ∈ digits, σ d.name ∈ d.domain.toList)
    (hout : ∀ v, v ∉ digits.map Digit.name → σ v = "") :
    ∃ ds, InRange digits ds ∧ substitutionOf digits ds = σ := by
  have hfind : ∀ d ∈ digits, ∃ i, d.domain.find? (σ d.name) = some i := fun d hd =>
    Option.isSome_iff_exists.1 (Domain.find?_isSome_iff.2 (hin d hd))
  have hrange : InRange digits (digits.map fun d => (d.domain.find? (σ d.name)).getD 0) := by
    rw [InRange, List.forall₂_map_left_iff, List.forall₂_map_right_iff, List.forall₂_same]
    intro d hd
    obtain ⟨i, hi⟩ := hfind d hd
    rw [hi]
    exact Domain.lt_size_of_find? hi
  refine ⟨_, hrange, funext fun v => ?_⟩
  -- a digit finds its name again, and no digit means a blank
  by_cases hv : v ∈ digits.map Digit.name
  · obtain ⟨d, hd, rfl⟩ := List.mem_map.1 hv
    have hat := getElem?_positionOf hnames hd
    obtain ⟨i, hi⟩ := hfind d hd
    obtain ⟨i', hi', hname⟩ := hrange.exists_name hat
    obtain rfl : i = i' := by
      rw [List.getElem?_map, hat, Option.map_some, hi] at hi'
      exact Option.some.inj hi'
    rw [Domain.name?_eq_some_iff.2 hi] at hname
    exact (Option.some.inj hname).symm
  · rw [substitutionOf_of_notMem _ hv, hout v hv]

/-- Elements of which nothing is left may be left out. -/
theorem filterMap_perm_of_subset {β γ : Type} {f : β → Option γ} {xs ys : List β} (hxs : xs.Nodup)
    (hys : ys.Nodup) (hsub : ∀ x ∈ xs, x ∈ ys) (hnone : ∀ y ∈ ys, (f y).isSome → y ∈ xs) :
    (ys.filterMap f).Perm (xs.filterMap f) := by
  have hdrop : ∀ zs : List β, zs.filterMap f = (zs.filter fun z => (f z).isSome).filterMap f := by
    intro zs
    rw [List.filterMap_filter]
    refine List.filterMap_congr fun z _ => ?_
    cases f z <;> rfl
  rw [hdrop xs, hdrop ys]
  refine List.Perm.filterMap f ?_
  rw [List.perm_ext_iff_of_nodup (hys.filter _) (hxs.filter _)]
  intro z
  rw [List.mem_filter, List.mem_filter]
  exact ⟨fun ⟨hz, hf⟩ => ⟨hnone z hz hf, hf⟩, fun ⟨hz, hf⟩ => ⟨hsub z hz, hf⟩⟩

/-- The digits are the variables of the clause, each with the domain of an
argument where it stands. -/
structure Typing (m : Model α) (c : Clause α) (digits : List Digit) : Prop where
  nodup : (digits.map Digit.name).Nodup
  mem_vars_iff : ∀ v, v ∈ c.vars ↔ v ∈ digits.map Digit.name
  argument : ∀ d ∈ digits, ∃ l ∈ c.literals, ∃ e ∈ m.evidence,
    e.block.signature = l.atom.signature ∧
      (Term.var d.name, d.domain) ∈ l.atom.terms.zip e.block.domains

theorem typing_of_make {schema : List (Signature × List Domain)} (h : m.Built schema)
    (hmake : Template.make m index c = .ok t) : Typing m c t.digits := by
  obtain ⟨-, -, -, resolved, hresolved, hdigits, -⟩ := exists_resolved hmake
  refine ⟨?_, fun v => ?_, fun d hd => ?_⟩
  · rw [map_name_digits hdigits, List.nodup_reverse]
    exact nodup_eraseDups _
  · rw [map_name_digits hdigits, List.mem_reverse, mem_variablesOf_iff hresolved, Clause.vars,
      List.mem_eraseDups, List.mem_flatMap]
    simp only [Atom.mem_vars_iff]
  · obtain ⟨name, -, rfl, hdomain⟩ := exists_mem_of_forall₂ (digitsOf_eq_ok hdigits) hd
    exact exists_argument h hresolved hdomain

omit [Scalar α] in
/-- Digits in range stand for one of the substitutions. -/
theorem Typing.mem_substitutions {schema : List (Signature × List Domain)} (h : m.Built schema)
    {digits : List Digit} (hty : Typing m c digits) {ds : List Nat} (hds : InRange digits ds) :
    substitutionOf digits ds ∈ substitutions m.constants c.vars := by
  refine (mem_substitutions_iff (nodup_eraseDups _)).2 ⟨fun v hv => ?_, fun v hv => ?_⟩
  · obtain ⟨d, hd, rfl⟩ := List.mem_map.1 ((hty.mem_vars_iff v).1 hv)
    obtain ⟨l, -, e, he, -, hzip⟩ := hty.argument d hd
    obtain ⟨i, -, hname⟩ := hds.exists_name (getElem?_positionOf hty.nodup hd)
    refine mem_constants h he (List.of_mem_zip hzip).2 (Domain.find?_isSome_iff.1 ?_)
    exact Option.isSome_of_eq_some (Domain.name?_eq_some_iff.1 hname)
  · exact substitutionOf_of_notMem ds fun hin => hv ((hty.mem_vars_iff v).2 hin)

omit [Scalar α] in
/-- A substitution that leaves something of the clause is one that digits stand
for. -/
theorem Typing.exists_of_remainder {schema : List (Signature × List Domain)} (h : m.Built schema)
    {digits : List Digit} (hty : Typing m c digits) {σ : String → String}
    (hσ : σ ∈ substitutions m.constants c.vars) {rest : List Int}
    (hrest : m.remainder c.literals σ = some rest) :
    ∃ ds, InRange digits ds ∧ substitutionOf digits ds = σ := by
  obtain ⟨-, hout⟩ := (mem_substitutions_iff (nodup_eraseDups _)).1 hσ
  refine exists_substitutionOf_eq hty.nodup (fun d hd => ?_) fun v hv => ?_
  · obtain ⟨l, hl, e, he, hsig, hzip⟩ := hty.argument d hd
    exact mem_domain_of_remainder h hrest hl he hsig hzip
  · exact hout v fun hin => hv ((hty.mem_vars_iff v).1 hin)

/-- **What remains of a clause under all substitutions is what judging it under
all combinations of digits leaves.** -/
theorem remainders_perm {schema : List (Signature × List Domain)} (h : m.Built schema)
    (hsize : m.base.atomCount ≤ Herbrand.Block.maxId) (hmake : Template.make m index c = .ok t) :
    ((substitutions m.constants c.vars).filterMap (m.remainder c.literals)).Perm
      ((Odometer.combinations t.radices).filterMap t.remainder?) := by
  have hty := typing_of_make h hmake
  have hrange : ∀ ds, ds ∈ Odometer.combinations t.radices ↔ InRange t.digits ds := fun ds =>
    Odometer.mem_combinations_iff
  have hjudge : (Odometer.combinations t.radices).filterMap t.remainder? =
      ((Odometer.combinations t.radices).map (substitutionOf t.digits)).filterMap
        (m.remainder c.literals) := by
    rw [List.filterMap_map]
    exact List.filterMap_congr fun ds hds => (remainder_eq h hsize hmake ((hrange ds).1 hds)).symm
  rw [hjudge]
  -- substitutions outside the domains of the digits leave nothing
  refine filterMap_perm_of_subset ?_ (nodup_substitutions (nodup_eraseDups _) (nodup_eraseDups _))
    ?_ ?_
  · refine List.Nodup.map_on ?_ (Odometer.nodup_combinations _)
    intro ds hds ds' hds' heq
    exact ((hrange ds).1 hds).substitutionOf_inj hty.nodup ((hrange ds').1 hds') heq
  · intro σ hσ
    obtain ⟨ds, hds, rfl⟩ := List.mem_map.1 hσ
    exact hty.mem_substitutions h ((hrange ds).1 hds)
  · intro σ hσ hsome
    obtain ⟨rest, hrest⟩ := Option.isSome_iff_exists.1 hsome
    obtain ⟨ds, hds, rfl⟩ := hty.exists_of_remainder h hσ hrest
    exact List.mem_map_of_mem ((hrange ds).2 hds)

end MarkovLogic.Grounding
