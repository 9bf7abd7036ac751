import Formula.Expr.Basic
import Formula.Proofs.Expr.Inside
import Formula.Proofs.Reduction.Reduces

/-!
Where no rule applies. The shape of an expression says, operation by operation, which
operands may stand where; it speaks of literals, signs and chains, and not of rules. The
table leaves exactly the expressions of this shape alone. A rule often asks for less than
the shape says, since an earlier rule has taken the rest: a difference of two literals
may stand in a sum as far as regrouping goes, but it is folded before.
-/

namespace Formula

namespace Expr

def isNegation : Expr → Bool
  | .neg _ => true
  | _ => false

def isOperation (op : BinaryOp) : Expr → Bool
  | .binary own _ _ => own == op
  | _ => false

def isLiteralFraction : Expr → Bool
  | .div numerator _ => numerator.isLiteral
  | _ => false

def startsWithVariable (op : BinaryOp) : Expr → Bool
  | .binary own lhs _ => own == op && lhs.isVariable
  | _ => false

def areTidyOperands : BinaryOp → Expr → Expr → Bool
  | .add, a, b =>
      !a.isLiteral && !a.isNegation && !b.isNegation && !b.isZero && !b.isNegative
  | .sub, a, b => !a.isZero && !b.isZero && !b.isNegative
  | .mul, a, b =>
      !a.isLiteral && !a.isNegation && !b.isNegation &&
        !a.isLiteralFraction && !b.isLiteralFraction && !b.isZero && !b.isOne
  | .div, a, b => !a.isNegation && !b.isNegation && !a.isZero && !b.isOne
  | .pow, a, b => !a.isZero && !a.isOne && !b.isZero && !b.isOne

/-- The shape of a node: literals have been folded and stand on the right, signs have
moved out, and no operand is neutral. -/
def isTidy : Expr → Bool
  | .literal _ | .var _ => true
  | .neg a => !a.isLiteral && !a.isNegation
  | .call _ a => !a.isLiteral
  | .binary op a b => !(a.isLiteral && b.isLiteral) && areTidyOperands op a b

/-- The shape of a node of a chain: it does not go on from a difference, a difference
does not go on from a sum, and a chain that starts with a variable goes on with one. -/
def isGrouped : Expr → Bool
  | .add a b => !a.isOperation .sub && (!a.startsWithVariable .add || b.isVariable)
  | .sub a _ => !a.isOperation .sub && !a.isOperation .add
  | .mul a b => !a.startsWithVariable .mul || b.isVariable
  | _ => true

/-- Every node has the shape that simplification aims at; chains have one only where
they are regrouped. -/
def IsCanonical (regroup : Bool) (e : Expr) : Prop :=
  ∀ s ∈ e.subexpressions, s.isTidy = true ∧ (regroup = true → s.isGrouped = true)

instance (regroup : Bool) (e : Expr) : Decidable (e.IsCanonical regroup) :=
  inferInstanceAs (Decidable (∀ s ∈ e.subexpressions, _))

theorem self_mem_subexpressions (e : Expr) : e ∈ e.subexpressions := by
  cases e <;> simp [subexpressions]

/-- An operand of a subexpression is a subexpression. -/
theorem child_mem_subexpressions {e s c : Expr} (member : s ∈ e.subexpressions)
    (child : c ∈ s.children) : c ∈ e.subexpressions := by
  induction e with
  | literal value =>
      rw [List.mem_singleton.mp member] at child
      cases child
  | var name =>
      rw [List.mem_singleton.mp member] at child
      cases child
  | neg operand ih =>
      rw [subexpressions, List.mem_append, List.mem_singleton] at member ⊢
      rcases member with member | rfl
      · exact .inl (ih member)
      · rw [List.mem_singleton.mp child]
        exact .inl operand.self_mem_subexpressions
  | call func operand ih =>
      rw [subexpressions, List.mem_append, List.mem_singleton] at member ⊢
      rcases member with member | rfl
      · exact .inl (ih member)
      · rw [List.mem_singleton.mp child]
        exact .inl operand.self_mem_subexpressions
  | binary op lhs rhs ihl ihr =>
      rw [subexpressions, List.mem_append, List.mem_append, List.mem_singleton] at member ⊢
      rcases member with (member | member) | rfl
      · exact .inl (.inl (ihl member))
      · exact .inl (.inr (ihr member))
      · simp only [children, List.mem_cons, List.not_mem_nil, or_false] at child
        rcases child with rfl | rfl
        · exact .inl (.inl c.self_mem_subexpressions)
        · exact .inl (.inr c.self_mem_subexpressions)

theorem mem_subexpressions_trans {e s t : Expr} (inner : s ∈ t.subexpressions)
    (outer : t ∈ e.subexpressions) : s ∈ e.subexpressions := by
  induction t with
  | literal value => rwa [List.mem_singleton.mp inner]
  | var name => rwa [List.mem_singleton.mp inner]
  | neg operand ih =>
      rw [subexpressions, List.mem_append, List.mem_singleton] at inner
      rcases inner with inner | rfl
      · exact ih inner (child_mem_subexpressions outer (by simp [children]))
      · exact outer
  | call func operand ih =>
      rw [subexpressions, List.mem_append, List.mem_singleton] at inner
      rcases inner with inner | rfl
      · exact ih inner (child_mem_subexpressions outer (by simp [children]))
      · exact outer
  | binary op lhs rhs ihl ihr =>
      rw [subexpressions, List.mem_append, List.mem_append, List.mem_singleton] at inner
      rcases inner with (inner | inner) | rfl
      · exact ihl inner (child_mem_subexpressions outer (by simp [children]))
      · exact ihr inner (child_mem_subexpressions outer (by simp [children]))
      · exact outer

end Expr

namespace Reduction

open Formula.Expr

/-!
One lemma for each rule says when it leaves an operation of its own kind alone.
-/

section Rules

variable (op : BinaryOp) (func : Func) (a b c : Expr)

theorem foldConstants_eq_none_iff :
    foldConstants (.binary op a b) = none ↔ (a.isLiteral && b.isLiteral) = false := by
  cases a with
  | literal v => cases b <;> simp [foldConstants, isLiteral, number?]
  | _ => simp [foldConstants, isLiteral, number?]

theorem foldFunction_eq_none_iff : foldFunction (.call func a) = none ↔ a.isLiteral = false := by
  cases a <;> simp [foldFunction, isLiteral, number?]

theorem negateNumber_eq_none_iff : negateNumber (.neg a) = none ↔ a.isLiteral = false := by
  cases a <;> simp [negateNumber, isLiteral, number?]

theorem doubleNegation_eq_none_iff : doubleNegation (.neg a) = none ↔ a.isNegation = false := by
  cases a <;> simp [doubleNegation, isNegation]

theorem moveLiteralRight_eq_none_iff :
    moveLiteralRight op (.binary op a b) = none ↔ a.isLiteral = false ∨ b.isLiteral = true := by
  cases ha : a.isLiteral <;> cases hb : b.isLiteral <;> simp [moveLiteralRight, ha, hb]

theorem addZero_eq_none_iff :
    addZero (.add a b) = none ↔ a.isZero = false ∧ b.isZero = false := by
  cases ha : a.isZero <;> cases hb : b.isZero <;> simp [addZero, ha, hb]

theorem addNegative_eq_none_iff :
    addNegative (.add a b) = none ↔ b.isNegative = false ∧ b.isNegation = false := by
  cases b <;> simp [addNegative, isNegative, isNegation, number?]

theorem addNegativeFirst_eq_none_iff :
    addNegativeFirst (.add a b) = none ↔ a.isNegation = false := by
  cases a <;> simp [addNegativeFirst, isNegation]

theorem subtractZero_eq_none_iff : subtractZero (.sub a b) = none ↔ b.isZero = false := by
  simp [subtractZero]

theorem subtractFromZero_eq_none_iff : subtractFromZero (.sub a b) = none ↔ a.isZero = false := by
  simp [subtractFromZero]

theorem subtractNegative_eq_none_iff :
    subtractNegative (.sub a b) = none ↔ b.isNegative = false := by
  cases b <;> simp [subtractNegative, isNegative, number?]

theorem multiplyOne_eq_none_iff :
    multiplyOne (.mul a b) = none ↔ a.isOne = false ∧ b.isOne = false := by
  cases ha : a.isOne <;> cases hb : b.isOne <;> simp [multiplyOne, ha, hb]

theorem multiplyZero_eq_none_iff :
    multiplyZero (.mul a b) = none ↔ a.isZero = false ∧ b.isZero = false := by
  simp [multiplyZero]

theorem multiplyNegative_eq_none_iff :
    multiplyNegative (.mul a b) = none ↔ a.isNegation = false ∧ b.isNegation = false := by
  cases a with
  | neg a => simp [multiplyNegative, isNegation]
  | _ => cases b <;> simp [multiplyNegative, isNegation]

theorem literalFraction?_eq_none_iff : literalFraction? a = none ↔ a.isLiteralFraction = false := by
  cases a with
  | binary op numerator d =>
      cases op with
      | div => cases numerator <;> simp [literalFraction?, isLiteralFraction, isLiteral, number?]
      | _ => simp [literalFraction?, isLiteralFraction]
  | _ => simp [literalFraction?, isLiteralFraction]

theorem extractNumerator_eq_none_iff :
    extractNumerator (.mul a b) = none ↔
      a.isLiteralFraction = false ∧ b.isLiteralFraction = false := by
  rw [← literalFraction?_eq_none_iff, ← literalFraction?_eq_none_iff]
  cases ha : literalFraction? a <;> cases hb : literalFraction? b <;>
    simp [extractNumerator, ha, hb]

theorem divideZero_eq_none_iff : divideZero (.div a b) = none ↔ a.isZero = false := by
  simp [divideZero]

theorem divideOne_eq_none_iff : divideOne (.div a b) = none ↔ b.isOne = false := by
  simp [divideOne]

theorem divideNegative_eq_none_iff :
    divideNegative (.div a b) = none ↔ a.isNegation = false ∧ b.isNegation = false := by
  cases a with
  | neg a => simp [divideNegative, isNegation]
  | _ => cases b <;> simp [divideNegative, isNegation]

theorem powerZeroLeft_eq_none_iff : powerZeroLeft (.pow a b) = none ↔ a.isZero = false := by
  simp [powerZeroLeft]

theorem powerOneLeft_eq_none_iff : powerOneLeft (.pow a b) = none ↔ a.isOne = false := by
  simp [powerOneLeft]

theorem powerZero_eq_none_iff : powerZero (.pow a b) = none ↔ b.isZero = false := by
  simp [powerZero]

theorem powerOne_eq_none_iff : powerOne (.pow a b) = none ↔ b.isOne = false := by
  simp [powerOne]

theorem regroupVariable_add_eq_none_iff :
    regroupVariable (.add a b) = none ↔
      a.startsWithVariable .add = false ∨ b.isVariable = true := by
  cases a with
  | binary op x y =>
      cases op with
      | add => cases x <;> simp [regroupVariable, startsWithVariable, isVariable]
      | _ => simp [regroupVariable, startsWithVariable]
  | _ => simp [regroupVariable, startsWithVariable]

theorem regroupVariable_mul_eq_none_iff :
    regroupVariable (.mul a b) = none ↔
      a.startsWithVariable .mul = false ∨ b.isVariable = true := by
  cases a with
  | binary op x y =>
      cases op with
      | mul => cases x <;> simp [regroupVariable, startsWithVariable, isVariable]
      | _ => simp [regroupVariable, startsWithVariable]
  | _ => simp [regroupVariable, startsWithVariable]

theorem regroupDifferenceMinus_eq_none_iff :
    regroupDifferenceMinus (.sub a b) = none ↔ a.isOperation .sub = false := by
  cases a with
  | binary op x y => cases op <;> simp [regroupDifferenceMinus, Expr.isOperation]
  | _ => simp [regroupDifferenceMinus, Expr.isOperation]

/-- Two literals are exempt from regrouping, but they are not tidy either. -/
theorem regroupDifferencePlus_eq_none_iff (tidy : a.isTidy = true) :
    regroupDifferencePlus (.add a b) = none ↔ a.isOperation .sub = false := by
  cases a with
  | binary op x y =>
      cases op with
      | sub =>
          simp only [isTidy, Bool.and_eq_true, Bool.not_eq_true'] at tidy
          simp [regroupDifferencePlus, Expr.isOperation, ← Bool.and_eq_true, tidy.1]
      | _ => simp [regroupDifferencePlus, Expr.isOperation]
  | _ => simp [regroupDifferencePlus, Expr.isOperation]

theorem regroupSumMinus_eq_none_iff (tidy : a.isTidy = true) :
    regroupSumMinus (.sub a b) = none ↔ a.isOperation .add = false := by
  cases a with
  | binary op x y =>
      cases op with
      | add =>
          simp only [isTidy, Bool.and_eq_true, Bool.not_eq_true'] at tidy
          simp [regroupSumMinus, Expr.isOperation, ← Bool.and_eq_true, tidy.1]
      | _ => simp [regroupSumMinus, Expr.isOperation]
  | _ => simp [regroupSumMinus, Expr.isOperation]

end Rules

/-- A literal on the left is folded or moves to the right. -/
theorem isLiteral_eq_false_of_inert {a b : Expr}
    (hconstants : (a.isLiteral && b.isLiteral) = false)
    (hmoved : a.isLiteral = false ∨ b.isLiteral = true) : a.isLiteral = false := by
  rcases hmoved with hleft | hright
  · exact hleft
  · rwa [hright, Bool.and_true] at hconstants

/-- What no rule on literals, signs and neutral operands applies to is tidy. -/
theorem isTidy_of_inert {e : Expr} (h : ∀ rule ∈ Rule.basic, rule.reduce e = none) :
    e.isTidy = true := by
  simp only [Rule.basic, List.forall_mem_cons] at h
  obtain ⟨hconstants, hfunction, hnumber, hdouble, hterm, haddZero, haddNegative,
    haddNegativeFirst, hsubtractZero, hfromZero, hsubtractNegative, hfactor, hmultiplyOne,
    hmultiplyZero, hmultiplyNegative, hnumerator, hdivideZero, hdivideOne, hdivideNegative,
    hzeroLeft, honeLeft, hpowerZero, hpowerOne, -⟩ := h
  cases e with
  | literal value => rfl
  | var name => rfl
  | neg a =>
      rw [negateNumber_eq_none_iff] at hnumber
      rw [doubleNegation_eq_none_iff] at hdouble
      simp [isTidy, hnumber, hdouble]
  | call func a =>
      rw [foldFunction_eq_none_iff] at hfunction
      simp [isTidy, hfunction]
  | binary op a b =>
      rw [foldConstants_eq_none_iff] at hconstants
      cases op with
      | add =>
          rw [moveTermRight, moveLiteralRight_eq_none_iff] at hterm
          rw [addZero_eq_none_iff] at haddZero
          rw [addNegative_eq_none_iff] at haddNegative
          rw [addNegativeFirst_eq_none_iff] at haddNegativeFirst
          have hleft := isLiteral_eq_false_of_inert hconstants hterm
          simp [isTidy, areTidyOperands, hleft, haddZero, haddNegative, haddNegativeFirst]
      | sub =>
          rw [subtractZero_eq_none_iff] at hsubtractZero
          rw [subtractFromZero_eq_none_iff] at hfromZero
          rw [subtractNegative_eq_none_iff] at hsubtractNegative
          simp [isTidy, areTidyOperands, hconstants, hsubtractZero, hfromZero, hsubtractNegative]
      | mul =>
          rw [moveFactorRight, moveLiteralRight_eq_none_iff] at hfactor
          rw [multiplyOne_eq_none_iff] at hmultiplyOne
          rw [multiplyZero_eq_none_iff] at hmultiplyZero
          rw [multiplyNegative_eq_none_iff] at hmultiplyNegative
          rw [extractNumerator_eq_none_iff] at hnumerator
          have hleft := isLiteral_eq_false_of_inert hconstants hfactor
          simp [isTidy, areTidyOperands, hleft, hmultiplyOne, hmultiplyZero, hmultiplyNegative,
            hnumerator]
      | div =>
          rw [divideZero_eq_none_iff] at hdivideZero
          rw [divideOne_eq_none_iff] at hdivideOne
          rw [divideNegative_eq_none_iff] at hdivideNegative
          simp [isTidy, areTidyOperands, hconstants, hdivideZero, hdivideOne, hdivideNegative]
      | pow =>
          rw [powerZeroLeft_eq_none_iff] at hzeroLeft
          rw [powerOneLeft_eq_none_iff] at honeLeft
          rw [powerZero_eq_none_iff] at hpowerZero
          rw [powerOne_eq_none_iff] at hpowerOne
          simp [isTidy, areTidyOperands, hconstants, hzeroLeft, honeLeft, hpowerZero, hpowerOne]

theorem isGrouped_of_inert {e : Expr} (h : ∀ rule ∈ Rule.regrouping, rule.reduce e = none)
    (tidy : ∀ c ∈ e.children, c.isTidy = true) : e.isGrouped = true := by
  simp only [Rule.regrouping, List.forall_mem_cons] at h
  obtain ⟨hvariable, hdifferencePlus, hdifferenceMinus, hsumMinus, -⟩ := h
  cases e with
  | binary op a b =>
      have ha : a.isTidy = true := tidy a List.mem_cons_self
      cases op with
      | add =>
          rw [regroupVariable_add_eq_none_iff] at hvariable
          rw [regroupDifferencePlus_eq_none_iff a b ha] at hdifferencePlus
          rcases hvariable with hvariable | hvariable <;>
            simp [isGrouped, hvariable, hdifferencePlus]
      | sub =>
          rw [regroupDifferenceMinus_eq_none_iff] at hdifferenceMinus
          rw [regroupSumMinus_eq_none_iff a b ha] at hsumMinus
          simp [isGrouped, hdifferenceMinus, hsumMinus]
      | mul =>
          rw [regroupVariable_mul_eq_none_iff] at hvariable
          rcases hvariable with hvariable | hvariable <;> simp [isGrouped, hvariable]
      | _ => rfl
  | _ => rfl

/-- Whatever is reduced is not tidy, or else a chain in it is regrouped. -/
theorem shape_of_reduces {step : Step} {e r : Expr} (h : Reduces step e r) :
    e.isTidy = false ∨ step ∈ Rule.regrouping.map (·.step) ∧ e.isGrouped = false := by
  cases h <;> simp_all [isTidy, areTidyOperands, isGrouped, isLiteral, number?, isNegation,
    isNegative, isZero, isOne, isNumber, isLiteralFraction, startsWithVariable, isVariable,
    Expr.isOperation, Rule.regrouping]

theorem step_of_mem_basic : ∀ rule ∈ Rule.basic, rule.step ∉ Rule.regrouping.map (·.step) := by
  decide

end Reduction

namespace Rule

theorem fireFirst?_eq_none_iff {rules : List Rule} {e : Expr} :
    fireFirst? rules e = none ↔ ∀ rule ∈ rules, rule.reduce e = none := by
  simp only [fireFirst?, List.findSome?_eq_none_iff, fire?, Option.map_eq_none_iff]

/-- No rule applies to what has the shape of a node. -/
theorem fireFirst?_eq_none_of_shape {regroup : Bool} {e : Expr} (tidy : e.isTidy = true)
    (grouped : regroup = true → e.isGrouped = true) : fireFirst? (table regroup) e = none := by
  rw [fireFirst?_eq_none_iff]
  intro rule member
  rw [Option.eq_none_iff_forall_ne_some]
  intro r hreduce
  -- A rule that applied would be a reduction of something out of shape.
  rcases Reduction.shape_of_reduces (Reduction.reduces_of_mem member hreduce) with
    huntidy | ⟨hstep, hungrouped⟩
  · rw [tidy] at huntidy
    cases huntidy
  · cases regroup with
    | true =>
        rw [grouped rfl] at hungrouped
        cases hungrouped
    | false => exact Reduction.step_of_mem_basic rule member hstep

end Rule

end Formula
