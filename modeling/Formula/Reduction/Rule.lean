import Formula.Reduction.Folding
import Formula.Reduction.Literals
import Formula.Reduction.Neutral
import Formula.Reduction.Regrouping
import Formula.Reduction.Signs

/-!
The table of rules. They are tried in the order of the table, and the first one that
applies to an expression reduces it. Each rule looks at the root of the expression and
a little below.
-/

namespace Formula

/-- What a reduction is reported as. Moving a literal is one step, in a sum or a product. -/
inductive Step where
  | foldConstants
  | foldFunction
  | negateNumber
  | doubleNegation
  | moveLiteralRight
  | addZero
  | addNegative
  | addNegativeFirst
  | subtractZero
  | subtractFromZero
  | subtractNegative
  | multiplyOne
  | multiplyZero
  | multiplyNegative
  | extractNumerator
  | divideZero
  | divideOne
  | divideNegative
  | powerZeroLeft
  | powerOneLeft
  | powerZero
  | powerOne
  | regroupVariable
  | regroupDifferencePlus
  | regroupDifferenceMinus
  | regroupSumMinus
deriving DecidableEq

def Step.name : Step → String
  | .foldConstants => "FoldConstants"
  | .foldFunction => "FoldFunction"
  | .negateNumber => "NegateNumber"
  | .doubleNegation => "DoubleNegation"
  | .moveLiteralRight => "MoveLiteralRight"
  | .addZero => "AddZero"
  | .addNegative => "AddNegative"
  | .addNegativeFirst => "AddNegativeFirst"
  | .subtractZero => "SubtractZero"
  | .subtractFromZero => "SubtractFromZero"
  | .subtractNegative => "SubtractNegative"
  | .multiplyOne => "MultiplyOne"
  | .multiplyZero => "MultiplyZero"
  | .multiplyNegative => "MultiplyNegative"
  | .extractNumerator => "ExtractNumerator"
  | .divideZero => "DivideZero"
  | .divideOne => "DivideOne"
  | .divideNegative => "DivideNegative"
  | .powerZeroLeft => "PowerZeroLeft"
  | .powerOneLeft => "PowerOneLeft"
  | .powerZero => "PowerZero"
  | .powerOne => "PowerOne"
  | .regroupVariable => "RegroupVariable"
  | .regroupDifferencePlus => "RegroupDifferencePlus"
  | .regroupDifferenceMinus => "RegroupDifferenceMinus"
  | .regroupSumMinus => "RegroupSumMinus"

/-- What a group of rules is about. -/
inductive RuleFamily where
  | fold
  | negate
  | add
  | subtract
  | multiply
  | divide
  | power
  | regroup
deriving DecidableEq

structure Rule where
  family : RuleFamily
  step : Step
  reduce : Expr → Option Expr

namespace Rule

open Reduction

/-- The rules that always apply. Those on literals come first, so a rule further down
never sees an operation on literals alone. -/
def basic : List Rule := [
  ⟨.fold, .foldConstants, foldConstants⟩,
  ⟨.fold, .foldFunction, foldFunction⟩,
  ⟨.negate, .negateNumber, negateNumber⟩,
  ⟨.negate, .doubleNegation, doubleNegation⟩,
  ⟨.add, .moveLiteralRight, moveTermRight⟩,
  ⟨.add, .addZero, addZero⟩,
  ⟨.add, .addNegative, addNegative⟩,
  ⟨.add, .addNegativeFirst, addNegativeFirst⟩,
  ⟨.subtract, .subtractZero, subtractZero⟩,
  ⟨.subtract, .subtractFromZero, subtractFromZero⟩,
  ⟨.subtract, .subtractNegative, subtractNegative⟩,
  ⟨.multiply, .moveLiteralRight, moveFactorRight⟩,
  ⟨.multiply, .multiplyOne, multiplyOne⟩,
  ⟨.multiply, .multiplyZero, multiplyZero⟩,
  ⟨.multiply, .multiplyNegative, multiplyNegative⟩,
  ⟨.multiply, .extractNumerator, extractNumerator⟩,
  ⟨.divide, .divideZero, divideZero⟩,
  ⟨.divide, .divideOne, divideOne⟩,
  ⟨.divide, .divideNegative, divideNegative⟩,
  ⟨.power, .powerZeroLeft, powerZeroLeft⟩,
  ⟨.power, .powerOneLeft, powerOneLeft⟩,
  ⟨.power, .powerZero, powerZero⟩,
  ⟨.power, .powerOne, powerOne⟩]

def regrouping : List Rule := [
  ⟨.regroup, .regroupVariable, regroupVariable⟩,
  ⟨.regroup, .regroupDifferencePlus, regroupDifferencePlus⟩,
  ⟨.regroup, .regroupDifferenceMinus, regroupDifferenceMinus⟩,
  ⟨.regroup, .regroupSumMinus, regroupSumMinus⟩]

def table (regroup : Bool) : List Rule := if regroup then basic ++ regrouping else basic

def ofFamily (family : RuleFamily) : List Rule :=
  (table true).filter fun rule => rule.family == family

def fire? (rule : Rule) (e : Expr) : Option (Step × Expr) :=
  (rule.reduce e).map fun reduct => (rule.step, reduct)

/-- What the first rule of a list that applies makes of an expression. -/
def fireFirst? (rules : List Rule) (e : Expr) : Option (Step × Expr) :=
  rules.findSome? fun rule => rule.fire? e

/-- Tries one rule, and records its step if it applies. -/
def attempt (rule : Rule) (e : Expr) : StateM (List Step) (Option Expr) := do
  match rule.reduce e with
  | none => return none
  | some reduct =>
      modify (· ++ [rule.step])
      return some reduct

/-- Tries rules in order until one applies. All of them share the log. -/
def attemptAll (rules : List Rule) (e : Expr) : StateM (List Step) (Option Expr) :=
  match rules with
  | [] => return none
  | rule :: later => do
      match ← rule.attempt e with
      | some reduct => return some reduct
      | none => attemptAll later e

end Rule

end Formula
