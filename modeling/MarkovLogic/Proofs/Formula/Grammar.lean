/-
MarkovLogic/Proofs/Formula/Grammar.lean

The grammar of literals and signatures, and how their written forms are read.

The grammar says without the reader which texts are literals and of what.  A literal
is an atom, between blanks and with `!` and blanks in front if it is negated; an atom
is a name, alone or followed by a list of terms in parentheses; a list of terms is
blank or consists of terms between blanks, separated by commas.  Since a name holds
neither a blank nor a parenthesis, and a term neither of these nor a comma, each part
ends where the reader cuts, whatever other symbols stand in it.

The reader accepts exactly the grammar (`Literal.ofChars?_eq_some_iff`).  The written
form of a literal is in the grammar if its name and its terms are, and the names and
terms of whatever was read are; so reading and writing go back and forth.

Main statement: `reading_is_grammar`.
-/
import MarkovLogic.Formula.Printer
import MarkovLogic.Problem
import MarkovLogic.Proofs.Text.Cutting
import MarkovLogic.Proofs.Traverse

namespace MarkovLogic

open Text

/-! ### Terms -/

/-- A text that a term can have. -/
def IsTermText (cs : List Char) : Prop :=
  cs ≠ [] ∧ ∀ c ∈ cs, isBlank c = false ∧ c ≠ '(' ∧ c ≠ ')'

/-- The term of a text: a variable if the first character is lowercase, else a
constant. -/
inductive Term.Written : List Char → Term → Prop
  | var {c cs} : IsTermText (c :: cs) → isLowercase c = true →
      Written (c :: cs) (.var (String.ofList (c :: cs)))
  | constant {c cs} : IsTermText (c :: cs) → isLowercase c = false →
      Written (c :: cs) (.constant (String.ofList (c :: cs)))

/-- A term between blanks. -/
def Term.WrittenBetweenBlanks (cs : List Char) (t : Term) : Prop :=
  ∃ lead core trail, AllBlank lead ∧ AllBlank trail ∧ cs = lead ++ core ++ trail ∧
    Term.Written core t

/-- The list of terms of a text: blank, or separated by commas. -/
inductive Term.ListWritten : List Char → List Term → Prop
  | blank {cs} : AllBlank cs → ListWritten cs []
  | terms {pieces ts} : pieces ≠ [] → (∀ piece ∈ pieces, ',' ∉ piece) →
      List.Forall₂ Term.WrittenBetweenBlanks pieces ts → ListWritten ([','].intercalate pieces) ts

theorem Term.Written.isTermText {cs : List Char} {t : Term} (h : Term.Written cs t) :
    IsTermText cs := by
  cases h <;> assumption

theorem Term.Written.toList_name {cs : List Char} {t : Term} (h : Term.Written cs t) :
    t.name.toList = cs := by
  cases h <;> exact String.toList_ofList

theorem Term.ofChars?_eq_some_iff {cs : List Char} {t : Term} :
    Term.ofChars? cs = some t ↔ Term.Written cs t := by
  cases cs with
  | nil => exact ⟨nofun, nofun⟩
  | cons c cs =>
    have htext : ((c :: cs).any fun d => isBlank d || d == '(' || d == ')') = false ↔
        IsTermText (c :: cs) := by
      simp [IsTermText, and_assoc]
    rw [Term.ofChars?]
    constructor
    · intro h
      split at h
      · cases h
      · rename_i hany
        have hc := htext.1 (Bool.eq_false_iff.2 hany)
        split at h
        · rename_i hlower
          cases h
          exact .var hc hlower
        · rename_i hupper
          cases h
          exact .constant hc (Bool.eq_false_iff.2 hupper)
    · intro h
      rw [htext.2 h.isTermText, if_neg Bool.false_ne_true]
      cases h with
      | var _ hlower => rw [if_pos hlower]
      | constant _ hupper => rw [hupper, if_neg Bool.false_ne_true]

/-- A term text has no blanks and is trimmed. -/
theorem IsTermText.isTrimmed {cs : List Char} (h : IsTermText cs) : IsTrimmed cs :=
  isTrimmed_of_forall fun c hc => (h.2 c hc).1

theorem Term.ofChars?_trim_eq_some_iff {cs : List Char} {t : Term} :
    Term.ofChars? (trim cs) = some t ↔ Term.WrittenBetweenBlanks cs t := by
  rw [Term.ofChars?_eq_some_iff]
  constructor
  · intro h
    obtain ⟨lead, trail, hlead, htrail, heq⟩ := exists_trim_eq cs
    exact ⟨lead, trim cs, trail, hlead, htrail, heq, h⟩
  · rintro ⟨lead, core, trail, hlead, htrail, rfl, h⟩
    rwa [trim_append hlead h.isTermText.isTrimmed htrail]

/-- A text with a term in it is not blank. -/
theorem Term.WrittenBetweenBlanks.not_allBlank {cs : List Char} {t : Term}
    (h : Term.WrittenBetweenBlanks cs t) : ¬ AllBlank cs := by
  intro hblank
  rw [← Term.ofChars?_trim_eq_some_iff, trim_eq_nil_iff.2 hblank] at h
  cases h

theorem Term.listOfChars?_eq_some_iff {cs : List Char} {ts : List Term} :
    Term.listOfChars? cs = some ts ↔ Term.ListWritten cs ts := by
  have hempty : (trim cs).isEmpty = true ↔ AllBlank cs := by
    rw [List.isEmpty_iff, trim_eq_nil_iff]
  rw [Term.listOfChars?]
  constructor
  · intro h
    split at h
    · rename_i hblank
      cases h
      exact .blank (hempty.1 hblank)
    · obtain ⟨hne, hcomma, hcs⟩ := splitOn_eq_iff.1 (rfl : splitOn ',' cs = splitOn ',' cs)
      rw [hcs]
      exact .terms hne hcomma
        ((mapM_eq_some_iff.1 h).imp fun _ _ => Term.ofChars?_trim_eq_some_iff.1)
  · intro h
    cases h with
    | blank hblank => rw [if_pos (hempty.2 hblank)]
    | @terms pieces _ hne hcomma hall =>
      have hnot : ¬ AllBlank ([','].intercalate pieces) := by
        -- the first piece holds a term
        intro hblank
        cases hall with
        | nil => exact hne rfl
        | @cons piece _ pieces _ hterm =>
          refine hterm.not_allBlank fun c hc => hblank c ?_
          cases pieces with
          | nil => simpa using hc
          | cons =>
            rw [List.intercalate_cons_cons, List.append_assoc]
            exact List.mem_append_left _ hc
      rw [if_neg fun h => hnot (hempty.1 h), splitOn_eq_iff.2 ⟨hne, hcomma, rfl⟩, mapM_eq_some_iff]
      exact hall.imp fun _ _ => Term.ofChars?_trim_eq_some_iff.2

/-! ### Atoms -/

/-- A name of a predicate. -/
def IsName (cs : List Char) : Prop :=
  cs ≠ [] ∧ ∀ c ∈ cs, isBlank c = false ∧ c ≠ '(' ∧ c ≠ ')' ∧ c ≠ ','

/-- The atom of a text: a name, alone or with blanks and a list of terms behind it. -/
inductive Atom.Written : List Char → Atom → Prop
  | bare {name} : IsName name → Written name ⟨String.ofList name, []⟩
  | applied {name gap inner ts} : IsName name → AllBlank gap → Term.ListWritten inner ts →
      Written (name ++ gap ++ '(' :: (inner ++ [')'])) ⟨String.ofList name, ts⟩

theorem IsName.isTrimmed {cs : List Char} (h : IsName cs) : IsTrimmed cs :=
  isTrimmed_of_forall fun c hc => (h.2 c hc).1

theorem isPredicateName_iff {cs : List Char} (hparen : '(' ∉ cs) :
    isPredicateName cs = true ↔ IsName cs := by
  have hne : ∀ c ∈ cs, c ≠ '(' := fun c hc heq => hparen (heq ▸ hc)
  simp only [isPredicateName, IsName, Bool.and_eq_true, Bool.not_eq_true',
    List.isEmpty_eq_false_iff, List.all_eq_true, Bool.or_eq_false_iff, beq_eq_false_iff_ne]
  refine and_congr_right fun _ => forall₂_congr fun c hc => ?_
  have hc := hne c hc
  tauto

theorem IsName.notMem_paren {cs : List Char} (h : IsName cs) : '(' ∉ cs :=
  fun hmem => (h.2 _ hmem).2.1 rfl

/-- An atom text begins with its name. -/
theorem Atom.Written.head_eq {cs : List Char} {a : Atom} (h : Atom.Written cs a) :
    IsName a.symbol.toList ∧ cs.head? = a.symbol.toList.head? := by
  cases h with
  | bare hname => exact ⟨by simpa using hname, by simp⟩
  | @applied name gap inner ts hname _ _ =>
    obtain ⟨c, name, rfl⟩ := List.exists_cons_of_ne_nil hname.1
    exact ⟨by simpa using hname, by simp⟩

/-- It is trimmed. -/
theorem Atom.Written.isTrimmed {cs : List Char} {a : Atom} (h : Atom.Written cs a) :
    IsTrimmed cs where
  head := by
    rw [h.head_eq.2]
    exact h.head_eq.1.isTrimmed.head
  last := by
    cases h with
    | bare hname => exact hname.isTrimmed.last
    | @applied name gap inner ts _ _ _ =>
      have hlast : (name ++ gap ++ '(' :: (inner ++ [')'])).getLast? = some ')' := by
        rw [← List.cons_append, ← List.append_assoc, List.getLast?_concat]
      rw [hlast]
      rintro _ ⟨⟩
      decide

/-- Reading a text with a parenthesis in it. -/
theorem Atom.ofChars?_eq_some_iff_of_cut {cs name rest : List Char}
    (hcut : cutFirst '(' cs = some (name, rest)) {a : Atom} :
    Atom.ofChars? cs = some a ↔ ∃ inner ts, rest = inner ++ [')'] ∧ Term.ListWritten inner ts ∧
      isPredicateName (trim name) = true ∧ a = ⟨String.ofList (trim name), ts⟩ := by
  simp only [Atom.ofChars?, hcut, Option.bind_eq_bind, Option.bind_some,
    Option.bind_eq_some_iff, dropSuffixChar_eq_some_iff, Term.listOfChars?_eq_some_iff,
    Option.ite_none_right_eq_some, Option.some.injEq]
  constructor
  · rintro ⟨inner, hrest, ts, hts, hname, ha⟩
    exact ⟨inner, ts, hrest, hts, hname, ha.symm⟩
  · rintro ⟨inner, ts, hrest, hts, hname, ha⟩
    exact ⟨inner, hrest, ts, hts, hname, ha.symm⟩

/-- A trimmed text is read as an atom exactly if it is written as one. -/
theorem Atom.ofChars?_eq_some_iff {cs : List Char} (htrimmed : IsTrimmed cs) {a : Atom} :
    Atom.ofChars? cs = some a ↔ Atom.Written cs a := by
  rcases hcut : cutFirst '(' cs with - | ⟨before, rest⟩
  · have hparen := cutFirst_eq_none_iff.1 hcut
    have hread : Atom.ofChars? cs = some a ↔ IsName cs ∧ a = ⟨String.ofList cs, []⟩ := by
      simp only [Atom.ofChars?, hcut, Option.bind_eq_bind, Option.bind_some, htrimmed.trim_eq,
        Option.ite_none_right_eq_some, Option.some.injEq, isPredicateName_iff hparen]
      exact and_congr_right fun _ => eq_comm
    rw [hread]
    constructor
    · rintro ⟨hname, rfl⟩
      exact .bare hname
    · rintro (⟨hname⟩ | _)
      · exact ⟨hname, rfl⟩
      · exact absurd (by simp) hparen
  · obtain ⟨hcs, hbefore⟩ := cutFirst_eq_some_iff.1 hcut
    rw [Atom.ofChars?_eq_some_iff_of_cut hcut]
    constructor
    · rintro ⟨inner, ts, rfl, hts, hname, rfl⟩
      obtain ⟨lead, gap, hlead, hgap, heq⟩ := exists_trim_eq before
      have hname := (isPredicateName_iff fun hmem => hbefore (by
        rw [heq]
        exact List.mem_append_left _ (List.mem_append_right _ hmem))).1 hname
      -- the text does not begin with a blank, so nothing stands before the name
      obtain rfl : lead = [] := by
        rcases lead with - | ⟨c, lead⟩
        · rfl
        · have hc : isBlank c = false := htrimmed.head c (by rw [hcs, heq]; rfl)
          exact absurd List.mem_cons_self (hlead.notMem hc)
      rw [List.nil_append] at heq
      have happlied := Atom.Written.applied hname hgap hts
      rwa [← heq, ← hcs] at happlied
    · intro h
      cases h with
      | bare hname => exact absurd (by simp [hcs]) hname.notMem_paren
      | @applied name gap inner ts hname hgap hts =>
        -- the first parenthesis is the one behind the name
        have hfirst : '(' ∉ name ++ gap := fun hmem =>
          (List.mem_append.1 hmem).elim hname.notMem_paren (hgap.notMem (by decide))
        have hsame := hcut.symm.trans (cutFirst_eq_some_iff.2 ⟨rfl, hfirst⟩)
        cases hsame
        have htrim : trim (name ++ gap) = name := by
          simpa using trim_append allBlank_nil hname.isTrimmed hgap
        exact ⟨inner, ts, rfl, hts, by
          rw [htrim, isPredicateName_iff hname.notMem_paren]
          exact hname, by rw [htrim]⟩

/-! ### Literals -/

/-- The literal of a text: an atom between blanks, with `!` and blanks in front of it if
it is negated.  A `!` in front is always a negation, so the name of an atom that is not
negated does not begin with one. -/
inductive Literal.Written : List Char → Literal → Prop
  | positive {lead cs trail a} : AllBlank lead → AllBlank trail → Atom.Written cs a →
      cs.head? ≠ some '!' → Written (lead ++ cs ++ trail) ⟨true, a⟩
  | negative {lead gap cs trail a} : AllBlank lead → AllBlank gap → AllBlank trail →
      Atom.Written cs a → Written (lead ++ '!' :: (gap ++ cs) ++ trail) ⟨false, a⟩

/-- What stands behind the sign of a trimmed text is trimmed, but for blanks in front. -/
theorem isTrimmed_trimStart_of_cons {c : Char} {rest : List Char} (h : IsTrimmed (c :: rest)) :
    IsTrimmed (trimStart rest) where
  head := head_trimStart rest
  last := by
    intro d hd
    obtain ⟨lead, -, heq⟩ := exists_trimStart_eq rest
    refine h.last d ?_
    rw [heq, ← List.cons_append]
    exact List.mem_getLast?_append_of_mem_getLast? hd

theorem Atom.Written.ne_nil {cs : List Char} {a : Atom} (h : Atom.Written cs a) : cs ≠ [] := by
  cases h with
  | bare hname => exact hname.1
  | applied => simp

/-- A negated atom is trimmed. -/
theorem Atom.Written.isTrimmed_negated {cs : List Char} {a : Atom} (h : Atom.Written cs a)
    (gap : List Char) : IsTrimmed ('!' :: (gap ++ cs)) where
  head := by
    rintro _ ⟨⟩
    decide
  last := by
    have hlast : ('!' :: (gap ++ cs)).getLast? = cs.getLast? := by
      rw [← List.cons_append, List.getLast?_append_of_ne_nil _ h.ne_nil]
    rw [hlast]
    exact h.isTrimmed.last

/-- **Literals are read by their grammar.** -/
theorem Literal.ofChars?_eq_some_iff {cs : List Char} {l : Literal} :
    Literal.ofChars? cs = some l ↔ Literal.Written cs l := by
  constructor
  · intro h
    obtain ⟨lead, trail, hlead, htrail, heq⟩ := exists_trim_eq cs
    have htrimmed := isTrimmed_trim cs
    rw [Literal.ofChars?] at h
    split at h
    · rename_i rest hrest
      obtain ⟨a, ha, rfl⟩ := Option.map_eq_some_iff.1 h
      rw [hrest] at heq htrimmed
      obtain ⟨gap, hgap, hgapped⟩ := exists_trimStart_eq rest
      rw [Atom.ofChars?_eq_some_iff (isTrimmed_trimStart_of_cons htrimmed)] at ha
      rw [heq, hgapped]
      exact .negative hlead hgap htrail ha
    · rename_i hsign
      obtain ⟨a, ha, rfl⟩ := Option.map_eq_some_iff.1 h
      rw [Atom.ofChars?_eq_some_iff htrimmed] at ha
      rw [heq]
      refine .positive hlead htrail ha fun hhead => ?_
      obtain ⟨rest, hrest⟩ := List.head?_eq_some_iff.1 hhead
      exact hsign rest hrest
  · intro h
    cases h with
    | @positive lead body trail a hlead htrail ha hsign =>
      rw [Literal.ofChars?, trim_append hlead ha.isTrimmed htrail]
      split
      · exact absurd rfl hsign
      · rw [(Atom.ofChars?_eq_some_iff ha.isTrimmed).2 ha]
        rfl
    | @negative lead gap body trail a hlead hgap htrail ha =>
      rw [Literal.ofChars?, trim_append hlead (ha.isTrimmed_negated gap) htrail]
      show (Atom.ofChars? (trimStart (gap ++ body))).map _ = _
      rw [trimStart_append hgap, trimStart_eq_self ha.isTrimmed.head,
        (Atom.ofChars?_eq_some_iff ha.isTrimmed).2 ha]
      rfl

/-! ### Written literals -/

/-- The terms that were read have texts that can be written, and no commas in them. -/
theorem Term.ListWritten.written_of_mem {cs : List Char} {ts : List Term}
    (h : Term.ListWritten cs ts) {t : Term} (ht : t ∈ ts) :
    Term.Written t.name.toList t ∧ ',' ∉ t.name.toList := by
  cases h with
  | blank => cases ht
  | terms _ hcomma hall =>
    obtain ⟨piece, hpiece, lead, core, trail, -, -, rfl, hcore⟩ := exists_mem_of_forall₂ hall ht
    rw [hcore.toList_name]
    exact ⟨hcore, fun hmem => hcomma _ hpiece
      (List.mem_append_left _ (List.mem_append_right _ hmem))⟩

/-- Such terms, joined by commas, are a list of terms. -/
theorem Term.listWritten_join {ts : List Term}
    (h : ∀ t ∈ ts, Term.Written t.name.toList t ∧ ',' ∉ t.name.toList) :
    Term.ListWritten ([','].intercalate (ts.map fun t => t.name.toList)) ts := by
  rcases ts.eq_nil_or_concat with rfl | ⟨_, _, rfl⟩
  · exact .blank allBlank_nil
  · refine .terms (by simp) (List.forall_mem_map.2 fun t ht => (h t ht).2) ?_
    rw [List.forall₂_map_left_iff, List.forall₂_same]
    exact fun t ht => ⟨[], _, [], allBlank_nil, allBlank_nil, by simp, (h t ht).1⟩

theorem Atom.toList_text (a : Atom) : a.text.toList =
    a.symbol.toList ++ [] ++
      '(' :: ([','].intercalate (a.terms.map fun t => t.name.toList) ++ [')']) := by
  simp [Atom.text, Text.join, String.toList_intercalate, Function.comp_def]

/-- An atom that was read is written as its text. -/
theorem Atom.Written.text {cs : List Char} {a : Atom} (h : Atom.Written cs a) :
    Atom.Written a.text.toList a := by
  have hterms : ∀ t ∈ a.terms, Term.Written t.name.toList t ∧ ',' ∉ t.name.toList := by
    cases h with
    | bare => simp
    | applied _ _ hts => exact fun t => hts.written_of_mem
  have happlied := Atom.Written.applied h.head_eq.1 allBlank_nil (Term.listWritten_join hterms)
  rwa [String.ofList_toList, ← Atom.toList_text] at happlied

/-- A literal that was read is written as its text. -/
theorem Literal.Written.text {cs : List Char} {l : Literal} (h : Literal.Written cs l) :
    Literal.Written l.text.toList l := by
  cases h with
  | @positive lead body trail a _ _ ha hsign =>
    have hhead : a.text.toList.head? ≠ some '!' := by
      rwa [ha.text.head_eq.2, ← ha.head_eq.2]
    simpa [Literal.text] using Literal.Written.positive allBlank_nil allBlank_nil ha.text hhead
  | @negative lead gap body trail a _ _ _ ha =>
    simpa [Literal.text] using
      Literal.Written.negative allBlank_nil allBlank_nil allBlank_nil ha.text

/-! ### Signatures -/

/-- The decimal digits of a number below `2 ^ 64`, perhaps with a plus sign. -/
def IsArityText (cs : List Char) (n : Nat) : Prop :=
  ∃ sign digits, cs = sign ++ digits ∧ (sign = [] ∨ sign = ['+']) ∧ digits ≠ [] ∧
    (∀ d ∈ digits, d.isDigit = true) ∧ Decimal.digitsValue digits = n ∧ n < Nat.pow 2 64

/-- The signature of a text: a name, which may hold anything between its ends, and an
arity behind the last slash, with blanks around both. -/
inductive Signature.Written : List Char → Signature → Prop
  | mk {lead name gap gap' arity trail n} : AllBlank lead → name ≠ [] → IsTrimmed name →
      AllBlank gap → AllBlank gap' → IsArityText arity n → AllBlank trail →
      Written (lead ++ (name ++ gap ++ '/' :: (gap' ++ arity)) ++ trail) ⟨String.ofList name, n⟩

theorem Decimal.readDigits?_eq_some_iff {ds : List Char} {n : Nat} :
    Decimal.readDigits? ds = some n ↔
      ds ≠ [] ∧ (∀ d ∈ ds, d.isDigit = true) ∧ Decimal.digitsValue ds = n := by
  simp only [Decimal.readDigits?, Option.ite_none_right_eq_some, Option.some.injEq,
    List.all_eq_true, and_assoc]

theorem Decimal.readNat?_eq_some_iff {cs : List Char} {n : Nat} :
    Decimal.readNat? cs = some n ↔ IsArityText cs n := by
  constructor
  · intro h
    obtain ⟨hread, hlt⟩ := Option.filter_eq_some_iff.1 h
    split at hread
    · obtain ⟨hne, hdigits, hvalue⟩ := Decimal.readDigits?_eq_some_iff.1 hread
      exact ⟨['+'], _, rfl, .inr rfl, hne, hdigits, hvalue, of_decide_eq_true hlt⟩
    · obtain ⟨hne, hdigits, hvalue⟩ := Decimal.readDigits?_eq_some_iff.1 hread
      exact ⟨[], _, rfl, .inl rfl, hne, hdigits, hvalue, of_decide_eq_true hlt⟩
  · rintro ⟨sign, digits, rfl, hsign, hne, hdigits, hvalue, hlt⟩
    have hread := Decimal.readDigits?_eq_some_iff.2 ⟨hne, hdigits, hvalue⟩
    refine Option.filter_eq_some_iff.2 ⟨?_, decide_eq_true hlt⟩
    rcases hsign with rfl | rfl
    · rw [List.nil_append]
      split
      · -- a digit is no sign
        exact absurd (hdigits '+' List.mem_cons_self) (by decide)
      · exact hread
    · exact hread

theorem isBlank_of_isDigit {c : Char} (h : c.isDigit = true) : isBlank c = false := by
  have hrange : 48 ≤ c.toNat ∧ c.toNat ≤ 57 := by
    simpa [Char.isDigit, UInt32.le_iff_toNat_le] using h
  rw [← Bool.not_eq_true, isBlank]
  simp only [Bool.or_eq_true, Bool.and_eq_true, decide_eq_true_eq, beq_iff_eq]
  omega

theorem IsArityText.forall_mem {cs : List Char} {n : Nat} (h : IsArityText cs n) :
    ∀ c ∈ cs, isBlank c = false ∧ c ≠ '/' := by
  obtain ⟨sign, digits, rfl, hsign, -, hdigits, -⟩ := h
  intro c hc
  rcases List.mem_append.1 hc with hc | hc
  · rcases hsign with rfl | rfl
    · cases hc
    · rw [List.mem_singleton.1 hc]
      decide
  · refine ⟨isBlank_of_isDigit (hdigits c hc), ?_⟩
    rintro rfl
    exact absurd (hdigits _ hc) (by decide)

theorem IsArityText.ne_nil {cs : List Char} {n : Nat} (h : IsArityText cs n) : cs ≠ [] := by
  obtain ⟨sign, digits, rfl, -, hne, -⟩ := h
  exact List.append_ne_nil_of_right_ne_nil sign hne

/-- The digits of a number are read as the number. -/
theorem isArityText_toDigits {n : Nat} (h : n < Nat.pow 2 64) : IsArityText (Nat.toDigits 10 n) n :=
  ⟨[], _, rfl, .inl rfl, Nat.toDigits_ne_nil, fun _ => Nat.isDigit_of_mem_toDigits (by decide)
    (le_refl 10), Nat.ofDigitChars_toDigits (by decide) (le_refl 10), h⟩

/-- Name, slash and arity are trimmed when they stand together. -/
theorem isTrimmed_signature {name gap gap' arity : List Char} {n : Nat} (hne : name ≠ [])
    (hname : IsTrimmed name) (harity : IsArityText arity n) :
    IsTrimmed (name ++ gap ++ '/' :: (gap' ++ arity)) where
  head := by
    rw [List.append_assoc, List.head?_append_of_ne_nil _ hne]
    exact hname.head
  last := by
    have hlast : (name ++ gap ++ '/' :: (gap' ++ arity)).getLast? = arity.getLast? := by
      rw [← List.cons_append, ← List.append_assoc, List.getLast?_append_of_ne_nil _ harity.ne_nil]
    rw [hlast]
    exact (isTrimmed_of_forall fun c hc => (harity.forall_mem c hc).1).last

/-- **Signatures are read by their grammar.** -/
theorem Signature.ofChars?_eq_some_iff {cs : List Char} {s : Signature} :
    Signature.ofChars? cs = some s ↔ Signature.Written cs s := by
  have hread : Signature.ofChars? cs = some s ↔ ∃ before after n,
      trim cs = before ++ '/' :: after ∧ '/' ∉ after ∧ IsArityText (trim after) n ∧
      trim before ≠ [] ∧ s = ⟨String.ofList (trim before), n⟩ := by
    simp only [Signature.ofChars?, Option.bind_eq_bind, Option.bind_eq_some_iff, Prod.exists,
      cutLast_eq_some_iff, Decimal.readNat?_eq_some_iff, Option.ite_none_left_eq_some,
      List.isEmpty_iff, Option.some.injEq, and_assoc, eq_comm (b := s)]
    simp only [exists_and_left]
  rw [hread]
  constructor
  · rintro ⟨before, after, n, htrim, hslash, harity, hne, rfl⟩
    obtain ⟨lead, trail, hlead, htrail, heq⟩ := exists_trim_eq cs
    obtain ⟨lead', gap, hlead', hgap, hbefore⟩ := exists_trim_eq before
    obtain ⟨gap', trail', hgap', htrail', hafter⟩ := exists_trim_eq after
    have hfront : AllBlank (lead ++ lead') := List.forall_mem_append.2 ⟨hlead, hlead'⟩
    have hback : AllBlank (trail' ++ trail) := List.forall_mem_append.2 ⟨htrail', htrail⟩
    have hcs : cs = lead ++ lead' ++ (trim before ++ gap ++ '/' :: (gap' ++ trim after)) ++
        (trail' ++ trail) := by
      calc cs = lead ++ (before ++ '/' :: after) ++ trail := by rw [heq, htrim]
        _ = lead ++ (lead' ++ trim before ++ gap ++ '/' :: (gap' ++ trim after ++ trail')) ++
            trail := by rw [← hbefore, ← hafter]
        _ = _ := by simp
    rw [hcs]
    exact .mk hfront hne (isTrimmed_trim before) hgap hgap' harity hback
  · rintro ⟨hlead, hne, hname, hgap, hgap', harity, htrail⟩
    rename_i lead name gap gap' arity trail n
    have harity' : IsTrimmed arity := isTrimmed_of_forall fun c hc => (harity.forall_mem c hc).1
    have hbefore : trim (name ++ gap) = name := by
      simpa using trim_append allBlank_nil hname hgap
    have hafter : trim (gap' ++ arity) = arity := by
      simpa using trim_append hgap' harity' allBlank_nil
    refine ⟨name ++ gap, gap' ++ arity, n, trim_append hlead
      (isTrimmed_signature hne hname harity) htrail, ?_, ?_, ?_, ?_⟩
    · intro hmem
      exact (List.mem_append.1 hmem).elim (hgap'.notMem (by decide))
        fun h => (harity.forall_mem _ h).2 rfl
    · rwa [hafter]
    · rwa [hbefore]
    · rw [hbefore]

/-- A signature that was read is written as its text. -/
theorem Signature.Written.text {cs : List Char} {s : Signature} (h : Signature.Written cs s) :
    Signature.Written s.text.toList s := by
  obtain ⟨-, hne, hname, -, -, ⟨_, _, -, -, -, -, -, hlt⟩, -⟩ := h
  simpa [Signature.text] using Signature.Written.mk allBlank_nil hne hname allBlank_nil
    allBlank_nil (isArityText_toDigits hlt) allBlank_nil

/-! ### Reading and writing -/

theorem Problem.literal_eq_ok_iff {text : String} {l : Literal} :
    Problem.literal text = .ok l ↔ Literal.Written text.toList l := by
  rw [← Literal.ofChars?_eq_some_iff]
  unfold Problem.literal Literal.read?
  split <;> simp_all

theorem Problem.literal_eq_error {text : String}
    (h : ∀ l, ¬ Literal.Written text.toList l) :
    Problem.literal text = .error (.malformedAtom text) := by
  have hnone : Literal.read? text = none :=
    Option.eq_none_iff_forall_ne_some.2 fun l hl => h l (Literal.ofChars?_eq_some_iff.1 hl)
  rw [Problem.literal, hnone]

theorem Problem.signature_eq_ok_iff {text : String} {s : Signature} :
    Problem.signature text = .ok s ↔ Signature.Written text.toList s := by
  rw [← Signature.ofChars?_eq_some_iff]
  unfold Problem.signature Signature.read?
  split <;> simp_all

theorem Problem.signature_eq_error {text : String}
    (h : ∀ s, ¬ Signature.Written text.toList s) :
    Problem.signature text = .error (.malformedAtom text) := by
  have hnone : Signature.read? text = none :=
    Option.eq_none_iff_forall_ne_some.2 fun s hs => h s (Signature.ofChars?_eq_some_iff.1 hs)
  rw [Problem.signature, hnone]

/-- **Reading is the grammar, and it undoes writing.**  A text is read as a literal
exactly if the grammar has it as this literal, and every other text is rejected under
its own name; the same goes for signatures.  Whatever was read is read back from its
written form. -/
theorem reading_is_grammar (text : String) :
    (∀ l, Problem.literal text = .ok l ↔ Literal.Written text.toList l) ∧
    ((∀ l, ¬ Literal.Written text.toList l) →
      Problem.literal text = .error (.malformedAtom text)) ∧
    (∀ l, Problem.literal text = .ok l → Problem.literal l.text = .ok l) ∧
    (∀ s, Problem.signature text = .ok s ↔ Signature.Written text.toList s) ∧
    ((∀ s, ¬ Signature.Written text.toList s) →
      Problem.signature text = .error (.malformedAtom text)) ∧
    (∀ s, Problem.signature text = .ok s → Problem.signature s.text = .ok s) :=
  ⟨fun _ => Problem.literal_eq_ok_iff, Problem.literal_eq_error,
    fun _ h => Problem.literal_eq_ok_iff.2 (Problem.literal_eq_ok_iff.1 h).text,
    fun _ => Problem.signature_eq_ok_iff, Problem.signature_eq_error,
    fun _ h => Problem.signature_eq_ok_iff.2 (Problem.signature_eq_ok_iff.1 h).text⟩

/-- A negated atom whose name begins with `!` and holds a slash, with blanks wherever
they may stand, and a signature whose name holds a slash, both read back from their
written forms; and a text that is neither, for something stands behind its list. -/
theorem reading_is_grammar_slashed :
    (Literal.Written " ! !A/b ( x ,Bob) ".toList ⟨false, ⟨"!A/b", [.var "x", .constant "Bob"]⟩⟩ ∧
      Problem.literal (Literal.text ⟨false, ⟨"!A/b", [.var "x", .constant "Bob"]⟩⟩) =
        .ok ⟨false, ⟨"!A/b", [.var "x", .constant "Bob"]⟩⟩) ∧
    (Signature.Written "a/b/+007".toList ⟨"a/b", 7⟩ ∧
      Problem.signature (Signature.text ⟨"a/b", 7⟩) = .ok ⟨"a/b", 7⟩) ∧
    ((∀ l, ¬ Literal.Written "P(a)b".toList l) ∧ (∀ s, ¬ Signature.Written "P(a)b".toList s) ∧
      Problem.literal "P(a)b" = .error (.malformedAtom "P(a)b") ∧
      Problem.signature "P(a)b" = .error (.malformedAtom "P(a)b")) := by
  obtain ⟨hliteral, -, hreread, -⟩ := reading_is_grammar " ! !A/b ( x ,Bob) "
  obtain ⟨-, -, -, hsignature, -, hreread'⟩ := reading_is_grammar "a/b/+007"
  obtain ⟨hliteral', hrejected, -, hsignature', hrejected', -⟩ := reading_is_grammar "P(a)b"
  have hnone : Literal.read? "P(a)b" = none := rfl
  have hnone' : Signature.read? "P(a)b" = none := rfl
  have hno : ∀ l, ¬ Literal.Written "P(a)b".toList l := by
    intro l h
    rw [← hliteral', Problem.literal, hnone] at h
    cases h
  have hno' : ∀ s, ¬ Signature.Written "P(a)b".toList s := by
    intro s h
    rw [← hsignature', Problem.signature, hnone'] at h
    cases h
  exact ⟨⟨(hliteral _).1 rfl, hreread _ rfl⟩, ⟨(hsignature _).1 rfl, hreread' _ rfl⟩,
    hno, hno', hrejected hno, hrejected' hno'⟩

end MarkovLogic
