import Formula.Expr.Size
import Formula.Reduction.Rule

/-!
Simplification. The root of an expression is reduced while a rule applies to it; then
its operands are simplified, and if that took a step the whole is taken up again. What
is left is an expression to which no rule applies anywhere. A run knows how many steps
it may still take, and stays within them.
-/

namespace Formula

structure SimplifyOptions where
  maxDepth : Nat
  maxSteps : Nat
  regroup : Bool

def SimplifyOptions.standard : SimplifyOptions := ⟨512, 100000, false⟩

inductive SimplifyError where
  | recursionLimitExceeded (limit : Nat)
  | stepLimitExceeded (limit : Nat)
deriving DecidableEq

namespace SimplifyError

def name : SimplifyError → String
  | .recursionLimitExceeded _ => "RecursionLimitExceeded"
  | .stepLimitExceeded _ => "StepLimitExceeded"

def limit : SimplifyError → Nat
  | .recursionLimitExceeded limit | .stepLimitExceeded limit => limit

def message : SimplifyError → String
  | .recursionLimitExceeded limit =>
      "expression is nested deeper than " ++ toString limit ++ " levels"
  | .stepLimitExceeded limit =>
      "simplification did not finish within " ++ toString limit ++ " steps"

end SimplifyError

/-- What comes of a run that may take a number of steps. A run that is stopped for its
steps reports the one that was too many. -/
inductive Run (allowed : Nat) where
  | done (steps : List Step) (within : steps.length ≤ allowed) (result : Expr)
  | stopped (steps : List Step) (error : SimplifyError)

namespace Run

variable {allowed : Nat}

def steps : Run allowed → List Step
  | .done steps _ _ | .stopped steps _ => steps

def result : Run allowed → Except SimplifyError Expr
  | .done _ _ result => .ok result
  | .stopped _ error => .error error

def map (f : Expr → Expr) : Run allowed → Run allowed
  | .done steps within result => .done steps within (f result)
  | .stopped steps error => .stopped steps error

/-- Continues a run with the steps that it left. -/
def bind (first : Run allowed)
    (next : (steps : List Step) → steps.length ≤ allowed → Expr → Run (allowed - steps.length)) :
    Run allowed :=
  match first with
  | .stopped steps error => .stopped steps error
  | .done steps within result =>
      match next steps within result with
      | .stopped more error => .stopped (steps ++ more) error
      | .done more fits result =>
          .done (steps ++ more) (by simp only [List.length_append]; omega) result

/-- A step before a run that has the rest of what is allowed. -/
def cons (step : Step) (h : 0 < allowed) : Run (allowed - 1) → Run allowed
  | .done steps within result => .done (step :: steps) (by simp only [List.length_cons]; omega) result
  | .stopped steps error => .stopped (step :: steps) error

end Run

namespace SimplifyOptions

/-- A bound on the calls that may still be nested: going deeper uses up depth, and
everything else uses up steps. -/
def callsLeft (options : SimplifyOptions) (depth allowed : Nat) : Nat :=
  allowed * (options.maxDepth + 1) + (options.maxDepth + 1 - depth)

variable (options : SimplifyOptions)

theorem callsLeft_mono (depth : Nat) {fewer allowed : Nat} (h : fewer ≤ allowed) :
    options.callsLeft depth fewer ≤ options.callsLeft depth allowed := by
  have := Nat.mul_le_mul_right (options.maxDepth + 1) h
  simp only [callsLeft]
  omega

theorem callsLeft_fewer (depth : Nat) {fewer allowed : Nat} (h : fewer < allowed) :
    options.callsLeft depth fewer < options.callsLeft depth allowed := by
  have := Nat.mul_le_mul_right (options.maxDepth + 1) (Nat.succ_le_of_lt h)
  rw [Nat.succ_mul] at this
  simp only [callsLeft]
  omega

theorem callsLeft_deeper {depth : Nat} (allowed : Nat) (h : depth ≤ options.maxDepth) :
    options.callsLeft (depth + 1) allowed < options.callsLeft depth allowed := by
  simp only [callsLeft]
  omega

end SimplifyOptions

mutual

/-- Simplifies an expression that stands at a depth of the whole; the whole has depth 1. -/
def simplifyAt (options : SimplifyOptions) (depth allowed : Nat) (e : Expr) : Run allowed :=
  if options.maxDepth < depth then .stopped [] (.recursionLimitExceeded options.maxDepth)
  else
    match Rule.fireFirst? (Rule.table options.regroup) e with
    | some (step, reduct) =>
        if h : 0 < allowed then
          (simplifyAt options depth (allowed - 1) reduct).cons step h
        else .stopped [step] (.stepLimitExceeded options.maxSteps)
    | none =>
        (simplifyOperands options (depth + 1) allowed e).bind fun steps _ rebuilt =>
          if steps = [] then .done [] (Nat.zero_le _) e
          else simplifyAt options depth (allowed - steps.length) rebuilt
termination_by 2 * options.callsLeft depth allowed
decreasing_by
  · have := options.callsLeft_fewer depth (Nat.sub_lt h Nat.one_pos)
    omega
  · have := options.callsLeft_deeper allowed (Nat.le_of_not_lt ‹_›)
    omega
  · have := List.length_pos_iff.mpr ‹¬steps = []›
    have := options.callsLeft_fewer depth (show allowed - steps.length < allowed by omega)
    omega

/-- Simplifies the operands of an expression, which stand at the given depth, from left
to right. -/
def simplifyOperands (options : SimplifyOptions) (depth allowed : Nat) (e : Expr) : Run allowed :=
  match e with
  | .literal value => .done [] (Nat.zero_le _) (.literal value)
  | .var name => .done [] (Nat.zero_le _) (.var name)
  | .neg operand => (simplifyAt options depth allowed operand).map .neg
  | .call func operand => (simplifyAt options depth allowed operand).map (.call func)
  | .binary op lhs rhs =>
      (simplifyAt options depth allowed lhs).bind fun steps _ lhs =>
        (simplifyAt options depth (allowed - steps.length) rhs).map (.binary op lhs)
termination_by 2 * options.callsLeft depth allowed + 1
decreasing_by
  · omega
  · omega
  · omega
  · have := options.callsLeft_mono depth (Nat.sub_le allowed steps.length)
    omega

end

def simplify (options : SimplifyOptions) (e : Expr) : Run options.maxSteps :=
  simplifyAt options 1 options.maxSteps e

end Formula
