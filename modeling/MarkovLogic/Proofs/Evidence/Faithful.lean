/-
MarkovLogic/Proofs/Evidence/Faithful.lean

A model says what was declared.

Once the checks are passed and the ground atoms are numbered, building a model
succeeds (`Passes.build_eq`): every fact and every annotation is about an atom
that has a number.  The model then answers by the numbers of atoms what was
declared by their names.  The truth of an atom is the last fact about it, or
else the assumption about its predicate; the value that it should have is the
last annotation about it, or else that it fails; and the unknown atoms asked
about are listed in increasing order, for the predicates asked about are
numbered first and in the order in which they are listed.

Main statement: `build_reflects`.
-/
import MarkovLogic.Proofs.Evidence.Filing

namespace MarkovLogic

open Herbrand

variable {α : Type}

/-! ### Building succeeds -/

namespace Declarations

variable {d : Declarations α} {domains : Std.TreeMap String Domain compare}
  {schema : List (Signature × List Domain)} {base : Base}

/-- The annotations, filed if there are any. -/
def filedAnnotations (d : Declarations α) (base : Base) : Option (List Evidence) :=
  if d.annotations.isEmpty then none else some (filed base d.annotations fun _ => .closed)

/-- The model with all statements filed. -/
def assembled (d : Declarations α) (domains : Std.TreeMap String Domain compare) (base : Base) :
    Model α :=
  { kb := d.kb, domains, base, evidence := filed base d.facts d.assumption, query := d.query
    annotation := d.filedAnnotations base }

/-- **Behind the checks and the numbering nothing can fail.** -/
theorem Passes.build_eq (h : d.Passes domains schema base) :
    d.build = .ok (d.assembled domains base) := by
  have hfacts := fileFacts_empty d.kb (fun s hs => h.encode?_isSome (a := s.1)
    (List.mem_map_of_mem (List.mem_append_left _ hs))) d.assumption
  have hannotations := fileFacts_empty d.kb (fun s hs => h.encode?_isSome (a := s.1)
    (List.mem_map_of_mem (List.mem_append_right d.facts hs))) fun _ => .closed
  have hchecked : d.check = pure () := h.checked
  have hmentioned : d.domains = pure domains := h.mentioned
  have htyped : typedSchema d.kb domains = pure schema := h.typed
  rw [build, hchecked, pure_bind, hmentioned, pure_bind]
  change (typedSchema d.kb domains >>= _) = _
  rw [htyped, pure_bind, h.numbered]
  change (fileFacts d.kb base _ d.facts >>= _) = _
  rw [hfacts, assembled, filedAnnotations]
  change (ite _ _ _) = _
  split
  · rfl
  · rw [hannotations]
    rfl

end Declarations

/-! ### Numbers and names -/

/-- Decoding gives exactly the atom that has the number. -/
theorem Herbrand.Base.decode_eq_ok_iff {schema : List (Signature × List Domain)}
    {isQuery : Signature → Bool} {b : Base} (h : Base.build schema isQuery = .ok b)
    (hschema : (schema.map Prod.fst).Nodup) {id : Nat} {signature : Signature}
    {args : List String} :
    b.decode id = .ok (signature, args) ↔ b.encode? signature args = some id := by
  refine ⟨fun hid => ?_, decode_of_encode? h hschema⟩
  rcases howner : b.owner? id with _ | block
  · rw [decode_of_owner?_eq_none howner] at hid
    cases hid
  · obtain ⟨hlow, hhigh⟩ := (owner?_isSome_iff h).1 (Option.isSome_of_eq_some howner)
    obtain ⟨signature', args', hid', hencode⟩ := exists_encode?_eq h hschema hlow hhigh
    obtain ⟨rfl, rfl⟩ := Prod.mk.inj (Except.ok.inj (hid'.symm.trans hid))
    exact hencode

/-- Whether an atom is the given predicate applied to the given constants. -/
def isAbout (signature : Signature) (args : List String) (a : Atom) : Bool :=
  a.signature == signature && a.terms.map Term.name == args

namespace Declarations.Passes

variable {d : Declarations α} {domains : Std.TreeMap String Domain compare}
  {schema : List (Signature × List Domain)} {base : Base}

/-- Statements are filed with the atom that they are about. -/
theorem numberOf_eq_iff (h : d.Passes domains schema base) {id : Nat} {signature : Signature}
    {args : List String} (hid : base.decode id = .ok (signature, args)) {a : Atom}
    (ha : a ∈ d.groundAtoms) :
    (signature == a.signature && numberOf base a == id) = isAbout signature args a := by
  obtain ⟨k, hk⟩ := Option.isSome_iff_exists.1 (h.encode?_isSome ha)
  have hnumber : numberOf base a = k := by rw [numberOf, hk, Option.getD_some]
  have hdecode := (Base.decode_eq_ok_iff h.numbered h.nodup).2 hk
  rw [Bool.eq_iff_iff, isAbout]
  simp only [Bool.and_eq_true, beq_iff_eq, hnumber]
  constructor
  · rintro ⟨hsignature, rfl⟩
    obtain ⟨-, hargs⟩ := Prod.mk.inj (Except.ok.inj (hid.symm.trans hdecode))
    exact ⟨hsignature.symm, hargs.symm⟩
  · rintro ⟨hsignature, hargs⟩
    have hencode := (Base.decode_eq_ok_iff h.numbered h.nodup).1 hid
    rw [← hsignature, ← hargs, hk] at hencode
    exact ⟨hsignature.symm, Option.some.inj hencode⟩

/-- Among what is filed, the evidence about a predicate is that of its block. -/
theorem find?_filed (h : d.Passes domains schema base) {block : Block}
    (hblock : block ∈ base.blocks) (statements : List (Atom × Bool))
    (assumption : Signature → WorldAssumption) :
    ((filed base statements assumption).find? fun e => e.signature == block.signature) =
      some (file base statements (.empty block (assumption block.signature))) := by
  have hsame : ((fun e : Evidence => e.signature == block.signature) ∘ fun b =>
      file base statements (.empty b (assumption b.signature))) =
      fun b => b.signature == block.signature := by
    funext b
    simp [Evidence.signature, Evidence.empty]
  have hfind := (Base.find?_eq_some_iff h.numbered h.nodup).2 ⟨hblock, rfl⟩
  rw [Base.find?] at hfind
  rw [filed, List.find?_map, hsame, hfind, Option.map_some]

/-- What is known about an atom after filing some of the statements. -/
theorem get_filed (h : d.Passes domains schema base) {block : Block} {id : Nat}
    {args : List String} (hid : base.decode id = .ok (block.signature, args))
    {statements : List (Atom × Bool)} (hstatements : ∀ s ∈ statements, s.1 ∈ d.groundAtoms)
    (assumption : WorldAssumption) :
    (file base statements (.empty block assumption)).get id =
      (lastValue? (isAbout block.signature args) statements).elim assumption.default
        Truth.ofBool := by
  rw [get_file, Evidence.get_empty]
  congr 1
  exact lastValue?_congr fun s hs => h.numberOf_eq_iff hid (hstatements s hs)

end Declarations.Passes

/-! ### The unknown atoms asked about -/

/-- The blocks of consecutive numbers lie in increasing order. -/
theorem Herbrand.Consecutive.pairwise {start next : Nat} {bs : List Block}
    (h : Consecutive start bs next) : bs.Pairwise fun a b => a.stop ≤ b.start := by
  induction bs generalizing start with
  | nil => exact .nil
  | cons b bs ih => exact .cons (fun c hc => (h.2.bounds hc).1) (ih h.2)

namespace Declarations.Passes

variable {d : Declarations α} {domains : Std.TreeMap String Domain compare}
  {schema : List (Signature × List Domain)} {base : Base}

/-- The predicates asked about are listed in the order of their blocks. -/
theorem query_toList (h : d.Passes domains schema base) {queried others : List Block}
    {queryEnd : Nat} (hl : Base.Layout schema d.query.contains base queried others queryEnd) :
    d.query.toList = queried.map Block.signature := by
  have hqueried : queried.map Block.signature = d.kb.schema.keys.filter d.query.contains := by
    rw [← h.map_fst, List.filter_map]
    have hentries := congrArg (List.map Prod.fst) hl.queried_entries
    rw [List.map_map] at hentries
    exact hentries
  have hirrefl : Std.Irrefl fun a b : Signature => compare a b = .lt :=
    ⟨fun a ha => by simp [Std.ReflCmp.compare_self] at ha⟩
  have hantisymm : Std.Antisymm fun a b : Signature => compare a b = .lt :=
    ⟨fun a b hab hba => by simp [Std.OrientedCmp.eq_swap (a := b), hab] at hba⟩
  rw [hqueried]
  refine List.Pairwise.eq_of_mem_iff Std.TreeSet.ordered_toList
    (Std.TreeMap.ordered_keys.filter _) fun s => ?_
  rw [List.mem_filter, Std.TreeSet.mem_toList, Std.TreeMap.mem_keys, Std.TreeSet.mem_iff_contains]
  exact ⟨fun hs => ⟨Std.TreeMap.mem_iff_contains.2 ((check_eq_ok_iff.1 h.checked).query s hs), hs⟩,
    fun hs => hs.2⟩

/-- The evidence about the predicate of a block. -/
theorem evidenceOf?_assembled (h : d.Passes domains schema base) {block : Block}
    (hblock : block ∈ base.blocks) : (d.assembled domains base).evidenceOf? block.signature =
      some (file base d.facts (.empty block (d.assumption block.signature))) :=
  h.find?_filed hblock d.facts d.assumption

/-- The truth of an atom is what the evidence about its predicate says. -/
theorem truth_assembled (h : d.Passes domains schema base) {block : Block} {id : Nat}
    (howner : base.owner? id = some block) : (d.assembled domains base).truth id =
      (file base d.facts (.empty block (d.assumption block.signature))).get id := by
  have hblock := ((Base.owner?_eq_some_iff h.numbered).1 howner).1
  have hfound : (d.assembled domains base).base.owner? id = some block := howner
  simp only [Model.truth, hfound, h.evidenceOf?_assembled hblock]

/-- The unknown atoms asked about are those of the queried blocks, block by block. -/
theorem unknownQueryAtoms_assembled (h : d.Passes domains schema base)
    {queried others : List Block} {queryEnd : Nat}
    (hl : Base.Layout schema d.query.contains base queried others queryEnd) :
    (d.assembled domains base).unknownQueryAtoms = queried.flatMap fun b =>
      (file base d.facts (.empty b (d.assumption b.signature))).unknownIds := by
  have hquery : (d.assembled domains base).query.toList = queried.map Block.signature :=
    h.query_toList hl
  rw [Model.unknownQueryAtoms, hquery, List.flatMap_map]
  refine List.flatMap_congr fun b hb => ?_
  have hblock : b ∈ base.blocks := by
    rw [hl.blocks_eq]
    exact List.mem_append_left _ hb
  rw [h.evidenceOf?_assembled hblock]

/-- They are listed in increasing order. -/
theorem pairwise_unknownQueryAtoms (h : d.Passes domains schema base) :
    (d.assembled domains base).unknownQueryAtoms.Pairwise (· < ·) := by
  obtain ⟨queried, others, queryEnd, hl⟩ := Base.layout_of_build h.numbered
  rw [h.unknownQueryAtoms_assembled hl, List.pairwise_flatMap]
  refine ⟨fun b _ => Evidence.pairwise_unknownIds _, ?_⟩
  refine hl.queried_consecutive.pairwise.imp fun {a b} hab x hx y hy => ?_
  have hx := Block.contains_iff.1 (Evidence.mem_unknownIds_iff.1 hx).1
  have hy := Block.contains_iff.1 (Evidence.mem_unknownIds_iff.1 hy).1
  rw [block_file] at hx hy
  exact Nat.lt_of_lt_of_le hx.2 (Nat.le_trans hab hy.1)

/-- An atom is listed if its predicate is asked about and it is not known. -/
theorem mem_unknownQueryAtoms_iff (h : d.Passes domains schema base) {block : Block} {id : Nat}
    (howner : base.owner? id = some block) :
    id ∈ (d.assembled domains base).unknownQueryAtoms ↔
      d.query.contains block.signature = true ∧ (d.assembled domains base).truth id = .unknown := by
  obtain ⟨queried, others, queryEnd, hl⟩ := Base.layout_of_build h.numbered
  obtain ⟨hblock, hid⟩ := (Base.owner?_eq_some_iff h.numbered).1 howner
  rw [h.unknownQueryAtoms_assembled hl, h.truth_assembled howner, List.mem_flatMap,
    ← hl.mem_queried_iff hblock]
  simp only [Evidence.mem_unknownIds_iff, block_file]
  constructor
  · rintro ⟨b, hb, hid', hunknown⟩
    have hmem : b ∈ base.blocks := hl.blocks_eq ▸ List.mem_append_left _ hb
    obtain rfl :=
      (Base.consecutive_of_build h.numbered).contains_unique b hmem block hblock hid' hid
    exact ⟨hb, hunknown⟩
  · rintro ⟨hb, hunknown⟩
    exact ⟨block, hb, hid, hunknown⟩

end Declarations.Passes

/-! ### The main theorem -/

/-- What the model answers about an atom, given by its number, is what was declared
about the atom of this name. -/
structure Model.AnswersFor (m : Model α) (d : Declarations α) (id : Nat) (signature : Signature)
    (args : List String) : Prop where
  decode : m.base.decode id = .ok (signature, args)
  /-- The last fact counts; otherwise the atom is unknown if its predicate is asked
  about or in an open world, and fails if not. -/
  truth : m.truth id = (lastValue? (isAbout signature args) d.facts).elim
    (if d.query.contains signature || d.openWorld.contains signature then .unknown else .fails)
    Truth.ofBool
  /-- If there are annotations, the atom should hold if the last one about it says so. -/
  annotated : m.annotated? id = if d.annotations = [] then none
    else some (lastValue? (isAbout signature args) d.annotations == some true)
  /-- The atom is listed if it is asked about and unknown. -/
  listed : id ∈ m.unknownQueryAtoms ↔ d.query.contains signature = true ∧ m.truth id = .unknown

/-- The model answers by numbers what was declared by names. -/
structure Model.Reflects (m : Model α) (d : Declarations α) : Prop where
  /-- Facts and annotations are about atoms of the model. -/
  numbered : ∀ a ∈ d.groundAtoms, ∃ id, 1 ≤ id ∧ id ≤ m.base.atomCount ∧
    m.base.encode? a.signature (a.terms.map Term.name) = some id
  answers : ∀ id, 1 ≤ id → id ≤ m.base.atomCount →
    ∃ signature args, m.AnswersFor d id signature args
  listed_le : ∀ id ∈ m.unknownQueryAtoms, 1 ≤ id ∧ id ≤ m.base.atomCount
  increasing : m.unknownQueryAtoms.Pairwise (· < ·)

namespace Declarations.Passes

variable {d : Declarations α} {domains : Std.TreeMap String Domain compare}
  {schema : List (Signature × List Domain)} {base : Base}

theorem annotated?_assembled (h : d.Passes domains schema base) {block : Block} {id : Nat}
    {args : List String} (howner : base.owner? id = some block)
    (hid : base.decode id = .ok (block.signature, args)) :
    (d.assembled domains base).annotated? id = if d.annotations = [] then none
      else some (lastValue? (isAbout block.signature args) d.annotations == some true) := by
  have hblock := ((Base.owner?_eq_some_iff h.numbered).1 howner).1
  have hfound : (d.assembled domains base).base.owner? id = some block := howner
  have hnotes : Model.annotation (d.assembled domains base) = d.filedAnnotations base := rfl
  by_cases hempty : d.annotations = []
  · simp [Model.annotated?, hnotes, filedAnnotations, hempty]
  · have hground : ∀ s ∈ d.annotations, s.1 ∈ d.groundAtoms := fun s hs =>
      List.mem_map_of_mem (List.mem_append_right d.facts hs)
    have hget := h.get_filed hid hground .closed
    simp only [Model.annotated?, hnotes, filedAnnotations, List.isEmpty_iff, hempty, if_false,
      Option.bind_eq_bind, Option.bind_some, hfound, h.find?_filed hblock, hget, Option.pure_def]
    rcases lastValue? (isAbout block.signature args) d.annotations with _ | _ | _ <;> rfl

theorem answersFor (h : d.Passes domains schema base) {block : Block} {id : Nat}
    {args : List String} (howner : base.owner? id = some block)
    (hid : base.decode id = .ok (block.signature, args)) :
    (d.assembled domains base).AnswersFor d id block.signature args where
  decode := hid
  truth := by
    rw [h.truth_assembled howner, h.get_filed hid fun s hs =>
      List.mem_map_of_mem (List.mem_append_left _ hs)]
    congr 1
    rw [assumption]
    split <;> rfl
  annotated := h.annotated?_assembled howner hid
  listed := h.mem_unknownQueryAtoms_iff howner

theorem reflects (h : d.Passes domains schema base) :
    (d.assembled domains base).Reflects d where
  numbered a ha := by
    obtain ⟨id, hid⟩ := Option.isSome_iff_exists.1 (h.encode?_isSome ha)
    obtain ⟨hlow, hhigh⟩ := Base.encode?_mem_Icc h.numbered h.nodup hid
    exact ⟨id, hlow, hhigh, hid⟩
  answers id hlow hhigh := by
    obtain ⟨block, howner⟩ :=
      Option.isSome_iff_exists.1 ((Base.owner?_isSome_iff h.numbered).2 ⟨hlow, hhigh⟩)
    have hcontains := ((Base.owner?_eq_some_iff h.numbered).1 howner).2
    obtain ⟨args, hargs⟩ := Option.isSome_iff_exists.1 (Block.decode?_isSome_iff.2 hcontains)
    exact ⟨block.signature, args, h.answersFor howner (Base.decode_of_owner? howner hargs)⟩
  listed_le id hid := by
    obtain ⟨schema', hbuilt⟩ := built_of_build h.build_eq
    obtain ⟨block, howner, -⟩ := hbuilt.owner?_of_mem_unknownQueryAtoms hid
    exact (Base.owner?_isSome_iff h.numbered).1 (Option.isSome_of_eq_some howner)
  increasing := h.pairwise_unknownQueryAtoms

end Declarations.Passes

namespace Declarations

/-- Every model that was built has passed the stages. -/
theorem passes_of_build {d : Declarations α} {m : Model α} (h : d.build = .ok m) :
    ∃ schema, d.Passes m.domains schema m.base := by
  have hstages := h
  unfold build at hstages
  obtain ⟨_, hchecked, hstages⟩ := bind_eq_ok_iff.1 hstages
  obtain ⟨domains, hmentioned, hstages⟩ := bind_eq_ok_iff.1 hstages
  obtain ⟨schema, htyped, hstages⟩ := bind_eq_ok_iff.1 hstages
  obtain ⟨base, hbase, -⟩ := bind_eq_ok_iff.1 hstages
  have hpasses : d.Passes domains schema base :=
    ⟨hchecked, hmentioned, htyped, mapError_eq_ok_iff.1 hbase⟩
  obtain rfl : m = d.assembled domains base := Except.ok.inj (h.symm.trans hpasses.build_eq)
  exact ⟨schema, hpasses⟩

/-- **Declarations that pass the checks and can be numbered make a model, and the model
answers what was declared.**  Only such declarations make a model. -/
theorem build_reflects (d : Declarations α) :
    (∀ domains schema base, d.Passes domains schema base →
      ∃ m, d.build = .ok m ∧ m.domains = domains ∧ m.base = base ∧ m.Reflects d) ∧
    ∀ m, d.build = .ok m → ∃ schema, d.Passes m.domains schema m.base ∧ m.Reflects d := by
  refine ⟨fun domains schema base h => ⟨_, h.build_eq, rfl, rfl, h.reflects⟩, fun m hm => ?_⟩
  obtain ⟨schema, h⟩ := passes_of_build hm
  have hsame : m = d.assembled m.domains m.base := Except.ok.inj (hm.symm.trans h.build_eq)
  exact ⟨schema, h, hsame ▸ h.reflects⟩

/-! ### Visitors -/

/-- One person is declared, who may smoke and have friends. -/
def visitorsKb : KnowledgeBase Float :=
  { ((KnowledgeBase.empty : KnowledgeBase Float).declarePredicate "Friends" ["person", "person"]
      |>.declarePredicate "Smokes" ["person"]).declareConstants "person" ["Anna"] with
    computed := .empty }

/-- The facts and the annotation bring in two more; the facts about one of them
contradict each other. -/
def visitors : Declarations Float :=
  { Declarations.ofKnowledgeBase visitorsKb with
    query := Std.TreeSet.ofList [⟨"Smokes", 1⟩] compare
    facts := [(⟨"Smokes", [.constant "Bob"]⟩, true),
      (⟨"Friends", [.constant "Anna", .constant "Bob"]⟩, true),
      (⟨"Smokes", [.constant "Bob"]⟩, false)]
    annotations := [(⟨"Smokes", [.constant "Carl"]⟩, true)] }

def guests : Domain :=
  ["Anna", "Bob", "Anna", "Bob", "Bob", "Carl"].foldl Domain.insert Domain.empty

/-- The three persons make three atoms asked about and nine others. -/
theorem exists_passes_visitors : ∃ domains schema base,
    visitors.Passes domains schema base ∧ base.atomCount = 12 := by
  have hguests : guests.size = 3 := by
    simp [guests, Domain.size_eq_length, Domain.toList_insert]
  obtain ⟨domains, hdomains, hperson⟩ : ∃ domains, visitors.domains = .ok domains ∧
      domains["person"]? = some guests := ⟨_, rfl, rfl⟩
  have hdeclared : visitors.kb.schema.toList =
      [(⟨"Friends", 2⟩, ["person", "person"]), (⟨"Smokes", 1⟩, ["person"])] := rfl
  have htyped : typedSchema visitors.kb domains =
      .ok [(⟨"Friends", 2⟩, [guests, guests]), (⟨"Smokes", 1⟩, [guests])] := by
    simp [typedSchema, hdeclared, argumentDomains, hperson, bind, Except.bind, pure, Except.pure]
  have hfriends : visitors.query.contains ⟨"Friends", 2⟩ = false := rfl
  have hsmokes : visitors.query.contains ⟨"Smokes", 1⟩ = true := rfl
  obtain ⟨base, hbase, hcount⟩ : ∃ base,
      Base.build [(⟨"Friends", 2⟩, [guests, guests]), (⟨"Smokes", 1⟩, [guests])]
        visitors.query.contains = .ok base ∧ base.atomCount = 12 := by
    simp [Base.build, Base.layOut, Block.make, Block.checkedSize, Block.stop, Block.size,
      Block.sizes, volume, Block.maxId, Block.maxProduct, Base.atomCount, hguests, hfriends,
      hsmokes, bind, Except.bind, pure, Except.pure]
  exact ⟨domains, _, base, ⟨rfl, hdomains, htyped, hbase⟩, hcount⟩

/-- The model of the visitors answers what was declared about each of its atoms. -/
theorem build_reflects_visitors : ∃ domains schema base, visitors.Passes domains schema base ∧
    ∃ m, visitors.build = .ok m ∧ m.domains = domains ∧ m.base = base ∧
      m.base.atomCount = 12 ∧ m.Reflects visitors := by
  obtain ⟨domains, schema, base, h, hcount⟩ := exists_passes_visitors
  obtain ⟨m, hm, hdomains, hbase, hreflects⟩ := (build_reflects visitors).1 domains schema base h
  exact ⟨domains, schema, base, h, m, hm, hdomains, hbase, hbase ▸ hcount, hreflects⟩

end Declarations

end MarkovLogic
