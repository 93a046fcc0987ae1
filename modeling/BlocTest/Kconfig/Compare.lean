import BlocTest.Kconfig.Helpers.Joins
/-!
# Asking for the value of an expression

`expr_trans_compare` turns the question whether an expression is, or is not,
`y` or `n` into an expression. It takes a negation for that of a question with
two answers, so that an `m` under a negation may be answered either way.
-/

namespace BlocTest

namespace Kconfig

variable {tab : SymbolTable} {cfg : Config tab} {e e' : Expr} {sym : SymPtr}

/-- A symbol whose value is its tristate value. -/
def SymbolTable.HasTristate (tab : SymbolTable) (sym : SymPtr) : Prop :=
  tab.IsLogic sym ∨ ∃ a : Tristate, sym = a.symbol

/-- The symbols that are operands have tristate values. -/
def Expr.Logic (tab : SymbolTable) : Expr → Prop
  | symbol sym => tab.HasTristate sym
  | not e => e.Logic tab
  | two _ l r => l.Logic tab ∧ r.Logic tab
  | comp _ _ _ => True

/-- Nothing that is negated has the value `m`. -/
def Expr.Crisp (cfg : Config tab) : Expr → Prop
  | symbol _ => True
  | not e => e.calcValue cfg ≠ .mod ∧ e.Crisp cfg
  | two _ l r => l.Crisp cfg ∧ r.Crisp cfg
  | comp _ _ _ => True

/-- The question asked of a value. -/
def CompareType.holds : CompareType → Tristate → Tristate → Bool
  | equal, b, a => a = b
  | unequal, b, a => a ≠ b

/-- The answer as a tristate. -/
def answer (type : CompareType) (b a : Tristate) : Tristate :=
  if type.holds b a then .yes else .no

/-- A static symbol has the value it is the symbol of. -/
theorem symGetTristateValue_symbol (a : Tristate) : cfg.symGetTristateValue a.symbol = a := by
  cases a <;> rfl

/-- Comparing a symbol with `y`, `m` or `n` answers the question. -/
theorem calcValue_compareType (h : tab.HasTristate sym) (type : CompareType) (b : Tristate) :
    (Expr.comp type.relation sym b.symbol).calcValue cfg =
      answer type b (cfg.symGetTristateValue sym) := by
  have hcompare : compareSymbols cfg sym b.symbol = .eq ↔ cfg.symGetTristateValue sym = b := by
    obtain h | ⟨a, rfl⟩ := h
    · exact compareSymbols_static h b
    · have htexts : compareSymbols cfg a.symbol b.symbol = strcmp a.text b.text := by
        cases a <;> cases b <;> rfl
      rw [symGetTristateValue_symbol, htexts, strcmp_eq_iff]
      exact Tristate.text_injective.eq_iff
  rw [calcValue_comp, answer]
  by_cases hval : cfg.symGetTristateValue sym = b <;> cases type <;>
    simp [CompareType.relation, Relation.holds, CompareType.holds, hcompare, hval]

/-! ## Two sides and a negation -/

/-- An answer that is right of a value that is not `m`. -/
def Answers (type : CompareType) (b v v' : Tristate) : Prop :=
  v' = answer type b v ∨ (v = .mod ∧ (v' = .yes ∨ v' = .no))

/-- Two right answers to whether a side is `y`, put together by the operation
itself. -/
theorem answers_two_yes (t : Junction) {v w v' w' : Tristate} (hv : Answers .equal .yes v v')
    (hw : Answers .equal .yes w w') : Answers .equal .yes (t.apply v w) (t.apply v' w') := by
  unfold Answers at *
  revert hv hw
  cases t <;> cases v <;> cases w <;> cases v' <;> cases w' <;> decide

/-- Two right answers to whether a side is `n`, put together by the other
operation. -/
theorem answers_two_no (t : Junction) {v w v' w' : Tristate} (hv : Answers .equal .no v v')
    (hw : Answers .equal .no w w') : Answers .equal .no (t.apply v w) (t.dual.apply v' w') := by
  unfold Answers at *
  revert hv hw
  cases t <;> cases v <;> cases w <;> cases v' <;> cases w' <;> decide

/-- A right answer to the opposite question about what is negated. Here an `m`
that is negated gets whichever answer came out. -/
theorem answers_flip {type : CompareType} {b v v' : Tristate} (hb : b ≠ .mod)
    (h : Answers type.flip b v v') : Answers type b (exprNot v) v' := by
  unfold Answers at *
  revert h
  cases type <;> cases b <;> cases v <;> cases v' <;> first | decide | contradiction

/-- The negation of a right answer is right of the opposite question. -/
theorem answers_not {b v v' : Tristate} (h : Answers .equal b v v') :
    Answers .unequal b v (exprNot v') := by
  unfold Answers at *
  revert h
  cases b <;> cases v <;> cases v' <;> decide

/-- The negation put in front of the answer when the question was `E_UNEQUAL`.
-/
theorem answers_apply {type : CompareType} {b v : Tristate}
    (h : Answers .equal b v (e.calcValue cfg)) :
    Answers type b v ((type.apply e).calcValue cfg) := by
  cases type with
  | equal => exact h
  | unequal =>
      rw [CompareType.apply, calcValue_not]
      exact answers_not h

/-- The answers are right of every value, where nothing negated is `m`. -/
theorem answer_two_yes (t : Junction) (v w : Tristate) :
    t.apply (answer .equal .yes v) (answer .equal .yes w) = answer .equal .yes (t.apply v w) := by
  cases t <;> cases v <;> cases w <;> rfl

/-- The answers of the two sides to whether they are `n`, put together by the
other operation, are that of the whole. -/
theorem answer_two_no (t : Junction) (v w : Tristate) :
    t.dual.apply (answer .equal .no v) (answer .equal .no w) = answer .equal .no (t.apply v w) := by
  cases t <;> cases v <;> cases w <;> rfl

/-- Of what is negated the opposite question is asked, which has the answer of
the negation except where that is `m`. -/
theorem answer_flip {type : CompareType} {b v : Tristate} (hb : b ≠ .mod) (hv : v ≠ .mod) :
    answer type.flip b v = answer type b (exprNot v) := by
  cases type <;> cases b <;> cases v <;> first | rfl | contradiction

/-- The negation put in front turns the answer `E_EQUAL` has into that of the
question asked. -/
theorem answer_apply {type : CompareType} {b v : Tristate}
    (h : e.calcValue cfg = answer .equal b v) :
    (type.apply e).calcValue cfg = answer type b v := by
  cases type with
  | equal => exact h
  | unequal =>
      rw [CompareType.apply, calcValue_not, h]
      cases b <;> cases v <;> rfl

/-! ## The expression that asks -/

/-- What is owed of the expression that asks whether `e` is, or is not, `b`. -/
structure Asks (tab : SymbolTable) (type : CompareType) (b : Tristate) (e e' : Expr) : Prop where
  answers : ∀ cfg : Config tab, Answers type b (e.calcValue cfg) (e'.calcValue cfg)
  precise : ∀ cfg : Config tab, e.Crisp cfg → e'.calcValue cfg = answer type b (e.calcValue cfg)

/-- An expression that is the answer in every configuration owes nothing more.
-/
theorem Asks.of_eq {type : CompareType} {b : Tristate}
    (h : ∀ cfg : Config tab, e'.calcValue cfg = answer type b (e.calcValue cfg)) :
    Asks tab type b e e' where
  answers cfg := .inl (h cfg)
  precise cfg _ := h cfg

/-- Whether an `&&` or an `||` is `y` is asked of its two sides. -/
theorem Asks.two_yes {type : CompareType} {t : Junction} {l r l' r' : Expr}
    (hl : Asks tab .equal .yes l l') (hr : Asks tab .equal .yes r r') :
    Asks tab type .yes (.two t l r) (type.apply (.two t l' r')) where
  answers cfg := by
    refine answers_apply ?_
    rw [calcValue_two, calcValue_two]
    exact answers_two_yes t (hl.answers cfg) (hr.answers cfg)
  precise cfg h := by
    refine answer_apply ?_
    rw [calcValue_two, calcValue_two, hl.precise cfg h.1, hr.precise cfg h.2, answer_two_yes]

/-- Whether an `&&` or an `||` is `n` is asked of its two sides, with the
other operation between them. -/
theorem Asks.two_no {type : CompareType} {t : Junction} {l r l' r' : Expr}
    (hl : Asks tab .equal .no l l') (hr : Asks tab .equal .no r r') :
    Asks tab type .no (.two t l r) (type.apply (.two t.dual l' r')) where
  answers cfg := by
    refine answers_apply ?_
    rw [calcValue_two, calcValue_two]
    exact answers_two_no t (hl.answers cfg) (hr.answers cfg)
  precise cfg h := by
    refine answer_apply ?_
    rw [calcValue_two, calcValue_two, hl.precise cfg h.1, hr.precise cfg h.2, answer_two_no]

/-- Of a negation the opposite question is asked of what it negates. -/
theorem Asks.not {type : CompareType} {b : Tristate} (hb : b ≠ .mod)
    (h : Asks tab type.flip b e e') : Asks tab type b (.not e) e' where
  answers cfg := by
    rw [calcValue_not]
    exact answers_flip hb (h.answers cfg)
  precise cfg hcrisp := by
    rw [calcValue_not, h.precise cfg hcrisp.2, answer_flip hb hcrisp.1]

/-- A comparison is `y` or `n`, so it is its own answer to the question
whether it is `y`, and the others are that or its negation. -/
theorem asks_comp {type : CompareType} {b : Tristate} (hb : b ≠ .mod) (rel : Relation)
    (l r : SymPtr) : ∃ e', exprTransCompareSome type b.symbol (.comp rel l r) = some e' ∧
      Asks tab type b (.comp rel l r) e' := by
  have hvalue : ∀ cfg : Config tab, (Expr.comp rel l r).calcValue cfg = .yes ∨
      (Expr.comp rel l r).calcValue cfg = .no := by
    intro cfg
    rw [calcValue_comp]
    cases rel.holds (compareSymbols cfg l r)
    · exact .inr rfl
    · exact .inl rfl
  cases b with
  | mod => exact absurd rfl hb
  | yes =>
      cases type <;> refine ⟨_, rfl, .of_eq fun cfg => ?_⟩ <;> obtain h | h := hvalue cfg <;>
        simp only [calcValue_not, h] <;> rfl
  | no =>
      cases type <;> refine ⟨_, rfl, .of_eq fun cfg => ?_⟩ <;> obtain h | h := hvalue cfg <;>
        simp only [calcValue_not, h] <;> rfl

/-- **The expression that asks**, by the structure of the one it asks about.
-/
theorem exists_asks {b : Tristate} (hb : b ≠ .mod) (type : CompareType) (h : e.Logic tab) :
    ∃ e', exprTransCompareSome type b.symbol e = some e' ∧ Asks tab type b e e' := by
  induction e generalizing type with
  | symbol sym => exact ⟨_, rfl, .of_eq fun cfg => calcValue_compareType h type b⟩
  | comp rel l r => exact asks_comp hb rel l r
  | not e ih =>
      obtain ⟨e', he', hasks⟩ := ih type.flip h
      exact ⟨e', he', hasks.not hb⟩
  | two t l r ihl ihr =>
      obtain ⟨l', hl', hl⟩ := ihl .equal h.1
      obtain ⟨r', hr', hr⟩ := ihr .equal h.2
      rw [exprTransCompareSome, hl', hr']
      cases b with
      | mod => exact absurd rfl hb
      | yes => exact ⟨_, rfl, hl.two_yes hr⟩
      | no => exact ⟨_, rfl, hl.two_no hr⟩

/-- **`expr_trans_compare` asks the right question.** The expression it makes
is `y` or `n`, and it is the answer in every configuration in which the
expression asked about is not `m`, or none of what it negates is. -/
theorem exprTransCompare_asks (tab : SymbolTable) (type : CompareType) (b : Tristate)
    (hb : b ≠ .mod) (e : Option Expr) (he : ∀ e₀, e = some e₀ → e₀.Logic tab) :
    ∃ e', exprTransCompare type b.symbol e = some e' ∧ ∀ cfg : Config tab,
      e'.calcValue cfg ≠ .mod ∧
      ((exprCalcValue cfg e = .mod → ∀ e₀, e = some e₀ → e₀.Crisp cfg) →
        e'.calcValue cfg = answer type b (exprCalcValue cfg e)) := by
  have hanswer : ∀ v, answer type b v ≠ .mod := by
    intro v
    unfold answer
    split <;> decide
  cases e with
  | none =>
      refine ⟨_, rfl, fun cfg => ?_⟩
      have hvalue : (type.apply (.symbol b.symbol)).calcValue cfg = answer type b .yes := by
        refine answer_apply ?_
        rw [calcValue_symbol, symGetTristateValue_symbol]
        cases b
        · rfl
        · exact absurd rfl hb
        · rfl
      exact ⟨hvalue ▸ hanswer .yes, fun _ => hvalue⟩
  | some e =>
      obtain ⟨e', he', hasks⟩ := exists_asks hb type (he e rfl)
      refine ⟨e', he', fun cfg => ⟨?_, fun hcrisp => ?_⟩⟩
      · obtain h | ⟨-, h | h⟩ := hasks.answers cfg
        · rw [h]
          exact hanswer _
        · rw [h]
          decide
        · rw [h]
          decide
      · by_cases hmod : e.calcValue cfg = .mod
        · exact hasks.precise cfg (hcrisp hmod e rfl)
        · obtain h | ⟨h, -⟩ := hasks.answers cfg
          · exact h
          · exact absurd h hmod

/-- A negated tristate asked whether it is not `n`. -/
theorem exprTransCompare_asks_not : ∃ e',
    exprTransCompare .unequal .no (some (.not (.symbol (.entry 0)))) = some e' ∧
      ∀ cfg : Config tristates, e'.calcValue cfg ≠ .mod ∧
        ((exprNot (cfg.tri 0) = .mod → cfg.tri 0 ≠ .mod) →
          e'.calcValue cfg = answer .unequal .no (exprNot (cfg.tri 0))) := by
  obtain ⟨e', he', h⟩ := exprTransCompare_asks tristates .unequal .no (by decide)
    (some (.not (.symbol (.entry 0)))) (by rintro _ ⟨⟩; exact .inl (.inr rfl))
  refine ⟨e', he', fun cfg => ⟨(h cfg).1, fun hmod => (h cfg).2 ?_⟩⟩
  rintro hm _ ⟨⟩
  exact ⟨hmod hm, trivial⟩

end Kconfig

end BlocTest
