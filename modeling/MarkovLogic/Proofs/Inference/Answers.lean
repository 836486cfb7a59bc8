/-
MarkovLogic/Proofs/Inference/Answers.lean

Every atom that is asked about is answered once.

The numbers of the atoms that are asked about are an interval, and each of them
decodes.  So the answers go through these atoms in the order of their numbers
and leave none out.  If the evidence does not decide an atom, it was handed to
the assembly of the network in any case, whether a ground clause has it or not;
so the network finds it, and the assignment, which has a value for each atom of
the network, has one for it.

A look-up by symbol and arguments finds the right answer, although predicates
may share their symbol: the number of the arguments tells them apart.

Main statement: `run_accounts`.
-/
import MarkovLogic.Inference
import MarkovLogic.Proofs.Grounding.Closure
import MarkovLogic.Proofs.Relaxation.Decided

namespace MarkovLogic

open Herbrand

/-! ### Values for all atoms of the network -/

variable {α : Type} [Scalar α] {ρ : Type} [RandomSource ρ]

/-- Local search assigns every atom. -/
theorem LocalSearch.size_run (ρ : Type) [RandomSource ρ] (net : Network α)
    (settings : LocalSearch.Settings α) :
    (LocalSearch.run ρ net settings).assignment.size = net.nodes.size := by
  have hchain : ∀ chain, (runChain ρ net settings chain).assignment.size = net.nodes.size :=
    fun _ => (State.sized_of_reachable
      (reachable_search (reachable_begin .refl settings _) settings _)).values
  refine List.foldlRecOn (motive := fun m : MapState α => m.assignment.size = net.nodes.size)
    _ _ (hchain 0) fun m hm chain _ => ?_
  rw [cheaper]
  split
  · exact hchain chain
  · exact hm

namespace Inference

/-- Whatever the method, a result has a value for every atom of the network. -/
theorem size_assign {solver : Nat → Linear.Solver α} {config : InferenceConfig α}
    {gold : Option (Nat → Bool)} {net : Network α} {result : MapState α}
    (h : assign ρ solver config gold net = .ok result) :
    result.assignment.size = net.nodes.size := by
  rw [assign] at h
  split at h
  · cases h
    exact LocalSearch.size_run ρ net config.search
  · rcases hinfer : Relaxation.infer ρ (solver config.relaxation.maxPivots) net config.relaxation
        config.search gold with error | inferred
    · rw [hinfer] at h
      cases h
    · rw [hinfer] at h
      cases h
      exact Relaxation.size_infer hinfer

/-! ### One answer -/

variable {m : Model α} {schema : List (Signature × List Domain)} {net : Network α}
  {result : MapState α}

/-- The number of an atom that is asked about decodes, and this is the answer
about it. -/
theorem exists_answer? (h : m.Built schema) (net : Network α) (result : MapState α) {id : Nat}
    (hid : m.base.isQueryAtom id = true) :
    ∃ a, answer? m net result id = some a ∧ a.id = id ∧ m.query.contains a.signature = true ∧
      m.base.encode? a.signature a.args = some id ∧
      a.value = (m.truth id).toBool?.getD ((result.value? net id).getD false) ∧
      a.observed = (m.truth id).isKnown := by
  obtain ⟨block, howner, hquery⟩ := (Base.isQueryAtom_iff h.base).1 hid
  have hcontains := ((Base.owner?_eq_some_iff h.base).1 howner).2
  obtain ⟨args, hargs⟩ := Option.isSome_iff_exists.1 (Block.decode?_isSome_iff.2 hcontains)
  have hencode := (Base.encode?_eq_some_iff h.base h.nodup).2 ⟨block, howner, rfl, hargs⟩
  refine ⟨⟨id, block.signature, args, _, _⟩, ?_, rfl, hquery, hencode, rfl, rfl⟩
  rw [answer?, Base.decode_of_owner? howner hargs]
  cases m.truth id <;> rfl

theorem id_of_answer? {id : Nat} {a : Answer} (h : answer? m net result id = some a) :
    a.id = id := by
  rw [answer?] at h
  split at h
  · cases h
  · split at h <;> cases h <;> rfl

/-! ### All answers -/

/-- The answers are those about the numbers in the range of the query. -/
theorem mem_answers_iff {a : Answer} :
    a ∈ answers m net result ↔
      m.base.isQueryAtom a.id = true ∧ answer? m net result a.id = some a := by
  rw [answers, Base.isQueryAtom]
  rcases m.base.queryRange with _ | ⟨first, last⟩
  · simp
  · rw [List.mem_filterMap, Bool.and_eq_true, decide_eq_true_iff, decide_eq_true_iff]
    constructor
    · rintro ⟨id, hid, ha⟩
      obtain rfl := id_of_answer? ha
      have hbounds := List.mem_range'_1.1 hid
      exact ⟨by omega, ha⟩
    · rintro ⟨hid, ha⟩
      exact ⟨a.id, List.mem_range'_1.2 (by omega), ha⟩

/-- What an answer says. -/
theorem of_mem_answers (h : m.Built schema) {a : Answer} (ha : a ∈ answers m net result) :
    m.query.contains a.signature = true ∧ m.base.encode? a.signature a.args = some a.id ∧
      a.value = (m.truth a.id).toBool?.getD ((result.value? net a.id).getD false) ∧
      a.observed = (m.truth a.id).isKnown := by
  obtain ⟨hquery, ha⟩ := mem_answers_iff.1 ha
  obtain ⟨b, hb, -, hanswer⟩ := exists_answer? h net result hquery
  rw [hb] at ha
  cases ha
  exact hanswer

/-- There is an answer about every atom that is asked about. -/
theorem exists_mem_answers (h : m.Built schema) {signature : Signature} {args : List String}
    {id : Nat} (hquery : m.query.contains signature = true)
    (hencode : m.base.encode? signature args = some id) :
    ∃ a ∈ answers m net result, a.signature = signature ∧ a.args = args := by
  have hdecode := Base.decode_of_encode? h.base h.nodup hencode
  obtain ⟨block, howner, rfl, -⟩ := (Base.encode?_eq_some_iff h.base h.nodup).1 hencode
  have hasked := (Base.isQueryAtom_iff h.base).2 ⟨block, howner, hquery⟩
  obtain ⟨a, ha, rfl, -, hencode', -, -⟩ :=
    exists_answer? h net result hasked
  -- both atoms have the number, so they are the same
  have hsame := hdecode.symm.trans (Base.decode_of_encode? h.base h.nodup hencode')
  obtain ⟨hsignature, hargs⟩ := Prod.mk.inj (Except.ok.inj hsame)
  exact ⟨a, mem_answers_iff.2 ⟨hasked, ha⟩, hsignature.symm, hargs.symm⟩

/-- No two answers are about the same atom. -/
theorem eq_of_mem_answers (h : m.Built schema) {a b : Answer} (ha : a ∈ answers m net result)
    (hb : b ∈ answers m net result) (hsignature : a.signature = b.signature)
    (hargs : a.args = b.args) : a = b := by
  have hid : a.id = b.id := by
    have hencode := (of_mem_answers h ha).2.1
    rw [hsignature, hargs, (of_mem_answers h hb).2.1] at hencode
    exact (Option.some.inj hencode).symm
  have hanswer := (mem_answers_iff.1 ha).2
  rw [hid, (mem_answers_iff.1 hb).2] at hanswer
  exact (Option.some.inj hanswer).symm

/-- The answers come in the order of their numbers. -/
theorem pairwise_answers : (answers m net result).Pairwise fun a b => a.id < b.id := by
  rw [answers]
  split
  · exact List.Pairwise.nil
  · refine List.Pairwise.filterMap _ ?_ List.pairwise_lt_range'
    intro id id' hlt a ha b hb
    rwa [id_of_answer? ha, id_of_answer? hb]

/-- What the evidence decides has the value of the evidence. -/
theorem truth_of_observed (h : m.Built schema) {a : Answer} (ha : a ∈ answers m net result)
    (hobserved : a.observed = true) : m.truth a.id = .ofBool a.value := by
  obtain ⟨-, -, hvalue, hknown⟩ := of_mem_answers h ha
  rw [hobserved] at hknown
  rw [hvalue]
  cases htruth : m.truth a.id <;> simp_all [Truth.ofBool, Truth.toBool?, Truth.isKnown]

/-- An atom that the evidence does not decide is one that a run assigns a value. -/
theorem mem_unknownQueryAtoms_of_inferred (h : m.Built schema) {a : Answer}
    (ha : a ∈ answers m net result) (hinferred : a.observed = false) :
    m.truth a.id = .unknown ∧ a.id ∈ m.unknownQueryAtoms := by
  obtain ⟨-, -, -, hknown⟩ := of_mem_answers h ha
  have htruth : m.truth a.id = .unknown := by
    rwa [hinferred, Truth.isKnown, eq_comm, bne_eq_false_iff_eq] at hknown
  have hasked := (mem_answers_iff.1 ha).1
  obtain ⟨block, howner, -⟩ := (Base.isQueryAtom_iff h.base).1 hasked
  exact ⟨htruth,
    h.mem_unknownQueryAtoms_iff.2 ⟨⟨Option.isSome_of_eq_some howner, htruth⟩, hasked⟩⟩

/-! ### The answers of a run -/

/-- The answers of a run account for every atom that is asked about. -/
structure Accounts (m : Model α) (o : Outcome α) : Prop where
  /-- The answers come in the order of their numbers. -/
  increasing : (o.answers.map Answer.id).Pairwise (· < ·)
  /-- Each answer is about an atom that is asked about, under its number. -/
  sound : ∀ a ∈ o.answers, m.query.contains a.signature = true ∧
    m.HasAtom a.signature a.args ∧ m.base.encode? a.signature a.args = some a.id ∧
    m.base.decode a.id = .ok (a.signature, a.args)
  /-- Each atom that is asked about has an answer. -/
  complete : ∀ signature args, m.query.contains signature = true → m.HasAtom signature args →
    ∃ a ∈ o.answers, a.signature = signature ∧ a.args = args
  /-- An answer is marked as observed if the evidence decides the atom. -/
  observed_iff : ∀ a ∈ o.answers, a.observed = true ↔ m.truth a.id ≠ .unknown
  /-- What is observed is what the evidence says. -/
  observed : ∀ a ∈ o.answers, a.observed = true → m.truth a.id = .ofBool a.value
  /-- What is not observed is the value that the assignment has for the atom. -/
  inferred : ∀ a ∈ o.answers, a.observed = false → ∃ place, o.network.find? a.id = some place ∧
    (o.network.nodes[place]?).map Node.id = some a.id ∧
    o.result.assignment[place]? = some a.value
  /-- The look-up finds a value for exactly the atoms that are asked about. -/
  value_isSome_iff : ∀ symbol args, (o.value? symbol args).isSome ↔
    m.query.contains ⟨symbol, args.length⟩ = true ∧ m.HasAtom ⟨symbol, args.length⟩ args
  /-- The look-up finds the value of the answer. -/
  value_eq_some_iff : ∀ symbol args value, o.value? symbol args = some value ↔
    ∃ a ∈ o.answers, a.signature = ⟨symbol, args.length⟩ ∧ a.args = args ∧ a.value = value

omit [Scalar α] in
/-- The look-up finds the value of the answer, if the answers are about different
atoms and each has as many arguments as its predicate. -/
theorem value?_eq_some_iff {o : Outcome α}
    (harity : ∀ a ∈ o.answers, a.args.length = a.signature.arity)
    (hunique : ∀ a ∈ o.answers, ∀ b ∈ o.answers, a.signature = b.signature → a.args = b.args →
      a = b) (symbol : String) (args : List String) (value : Bool) :
    o.value? symbol args = some value ↔ ∃ a ∈ o.answers,
      a.signature = ⟨symbol, args.length⟩ ∧ a.args = args ∧ a.value = value := by
  -- symbol and arguments determine the predicate, since each has its arity
  have hmatch : ∀ a ∈ o.answers, (a.signature.symbol == symbol && a.args == args) = true ↔
      a.signature = ⟨symbol, args.length⟩ ∧ a.args = args := by
    intro a ha
    rw [Bool.and_eq_true, beq_iff_eq, beq_iff_eq]
    refine and_congr_left fun hargs => ?_
    have hlength := harity a ha
    rw [hargs] at hlength
    constructor
    · rintro rfl
      rw [hlength]
    · intro hsignature
      rw [hsignature]
  have hfound : ∀ a ∈ o.answers, ∀ b ∈ o.answers,
      (a.signature.symbol == symbol && a.args == args) = true →
      (b.signature.symbol == symbol && b.args == args) = true → a = b := by
    intro a ha b hb hsame hsame'
    obtain ⟨hsignature, hargs⟩ := (hmatch a ha).1 hsame
    obtain ⟨hsignature', hargs'⟩ := (hmatch b hb).1 hsame'
    exact hunique a ha b hb (hsignature.trans hsignature'.symm) (hargs.trans hargs'.symm)
  rw [Outcome.value?, Option.map_eq_some_iff]
  simp only [find?_eq_some_iff_of_unique hfound]
  constructor
  · rintro ⟨a, ⟨ha, hsame⟩, rfl⟩
    obtain ⟨hsignature, hargs⟩ := (hmatch a ha).1 hsame
    exact ⟨a, ha, hsignature, hargs, rfl⟩
  · rintro ⟨a, ha, hsignature, hargs, rfl⟩
    exact ⟨a, ⟨ha, (hmatch a ha).2 ⟨hsignature, hargs⟩⟩, rfl⟩

/-- What a run is made of. -/
theorem run_eq_ok {solver : Nat → Linear.Solver α} {config : Config α} {o : Outcome α}
    (h : run ρ solver config m = .ok o) :
    Grounding.run m (groundingSettings config.grounding) = .ok (o.network, o.grounding) ∧
      assign ρ solver config.inference (goldOf m) o.network = .ok o.result ∧
      o.answers = answers m o.network o.result := by
  obtain ⟨⟨network, grounding⟩, hground, h⟩ := bind_eq_ok_iff.1 h
  obtain ⟨result, hassign, h⟩ := bind_eq_ok_iff.1 h
  cases h
  refine ⟨?_, hassign, rfl⟩
  rw [ground] at hground
  rcases hrun : Grounding.run m (groundingSettings config.grounding) with error | grounded
  · rw [hrun] at hground
    cases hground
  · rw [hrun] at hground
    cases hground
    rfl

/-- **A run answers every atom that is asked about exactly once.**  Take a model
that was built, any configuration and any solver.  If the run succeeds, by either
method, its answers are in the order of their numbers, one for each ground atom of
each predicate that is asked about.  What the evidence decides is marked so and has
the value of the evidence; every other atom has a place in the network and the
value that the assignment has there.  The look-up by symbol and arguments finds
exactly these values. -/
theorem run_accounts (ρ : Type) [RandomSource ρ] (solver : Nat → Linear.Solver α)
    (config : Config α) (d : Declarations α) (m : Model α) (hbuild : d.build = .ok m)
    (o : Outcome α) (hrun : run ρ solver config m = .ok o) : Accounts m o := by
  obtain ⟨schema, h⟩ := Declarations.built_of_build hbuild
  obtain ⟨hground, hassign, hanswers⟩ := run_eq_ok hrun
  obtain ⟨ts, e, -, -, -, hnet, -⟩ := Grounding.run_eq_ok hground
  have hsize := size_assign hassign
  have hindexed : o.network.Indexed := by
    rw [hnet]
    exact (Network.wired_assemble _ _ _).indexed
  have hsound : ∀ a ∈ o.answers, m.query.contains a.signature = true ∧
      m.HasAtom a.signature a.args ∧ m.base.encode? a.signature a.args = some a.id ∧
      m.base.decode a.id = .ok (a.signature, a.args) := by
    intro a ha
    obtain ⟨hquery, hencode, -, -⟩ := of_mem_answers h (hanswers ▸ ha)
    exact ⟨hquery, (Model.encode?_isSome_iff hbuild).1 (Option.isSome_of_eq_some hencode), hencode,
      Base.decode_of_encode? h.base h.nodup hencode⟩
  have hcomplete : ∀ signature args, m.query.contains signature = true →
      m.HasAtom signature args → ∃ a ∈ o.answers, a.signature = signature ∧ a.args = args := by
    intro signature args hquery hatom
    obtain ⟨id, hid⟩ := Option.isSome_iff_exists.1 ((Model.encode?_isSome_iff hbuild).2 hatom)
    rw [hanswers]
    exact exists_mem_answers h hquery hid
  have hvalue := value?_eq_some_iff (fun a ha => (hsound a ha).2.1.length_eq)
    fun a ha b hb => eq_of_mem_answers h (hanswers ▸ ha) (hanswers ▸ hb)
  refine ⟨?_, hsound, hcomplete, ?_, ?_, ?_, ?_, hvalue⟩
  · rw [hanswers, List.pairwise_map]
    exact pairwise_answers
  · intro a ha
    rw [(of_mem_answers h (hanswers ▸ ha)).2.2.2, Truth.isKnown, bne_iff_ne]
  · intro a ha hobserved
    exact truth_of_observed h (hanswers ▸ ha) hobserved
  · intro a ha hinferred
    obtain ⟨-, -, hvalue, -⟩ := of_mem_answers h (hanswers ▸ ha)
    obtain ⟨htruth, hextra⟩ := mem_unknownQueryAtoms_of_inferred h (hanswers ▸ ha) hinferred
    -- the atom was handed to the assembly, so it has a place in the network
    obtain ⟨place, hplace⟩ := Network.exists_find?_assemble e.register.cliques
      m.base.queryRange hextra
    rw [← hnet] at hplace
    have hlt : place < o.result.assignment.size := hsize ▸ hindexed.lt_size hplace
    refine ⟨place, hplace, (hindexed a.id place).1 hplace, ?_⟩
    rw [hvalue, htruth, MapState.value?, hplace, Array.getElem?_eq_getElem hlt]
    simp [Truth.toBool?, Array.getD, hlt]
  · intro symbol args
    rw [Option.isSome_iff_exists]
    simp only [hvalue]
    constructor
    · rintro ⟨_, a, ha, hsignature, rfl, rfl⟩
      rw [← hsignature]
      exact ⟨(hsound a ha).1, (hsound a ha).2.1⟩
    · rintro ⟨hquery, hatom⟩
      obtain ⟨a, ha, hsignature, hargs⟩ := hcomplete _ _ hquery hatom
      exact ⟨a.value, a, ha, hsignature, hargs, rfl⟩

open Grounding in
theorem run_accounts_chain :
    chainDeclarations.build = .ok chainModel ∧
      ∃ o, run ChaCha (Linear.simplex ⟨0, 0, 0⟩) Config.default chainModel = .ok o ∧
        Accounts chainModel o ∧ (o.value? "A" []).isSome ∧ ¬(o.value? "B" []).isSome := by
  have hrun : ∃ o, run ChaCha (Linear.simplex ⟨0, 0, 0⟩) Config.default chainModel = .ok o := by
    rw [run, ground, Grounding.run, templates_chain]
    exact ⟨_, rfl⟩
  obtain ⟨o, ho⟩ := hrun
  have haccounts : Accounts chainModel o :=
    run_accounts ChaCha _ Config.default chainDeclarations chainModel build_chain o ho
  refine ⟨build_chain, o, ho, haccounts, ?_, ?_⟩
  · rw [haccounts.value_isSome_iff]
    exact ⟨rfl, [], rfl, .nil⟩
  · rw [haccounts.value_isSome_iff]
    rintro ⟨hquery, -⟩
    cases hquery

end Inference

end MarkovLogic
