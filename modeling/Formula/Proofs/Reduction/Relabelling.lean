import Formula.Proofs.Expr.Leaves
import Formula.Proofs.Reduction.Shape

/-!
Rules and the labels of leaves. A rule sees which leaves are literals and which are
variables, and of a literal whether it is zero, one or below zero; it never sees more, and
it never compares two leaves. So other labels with the same marks go through every rule
that does not compute with literals. Folding does compute, so there the literals have to
stay, and only names may change.
-/

namespace Formula

namespace Reduction

open Formula.Expr

section Folding

variable (name : Char → Char) (e : Expr)

theorem foldConstants_mapLeaves :
    foldConstants (e.mapLeaves id name) = (foldConstants e).map (mapLeaves id name) := by
  cases e with
  | binary op a b => cases a <;> cases b <;> rfl
  | _ => rfl

theorem foldFunction_mapLeaves :
    foldFunction (e.mapLeaves id name) = (foldFunction e).map (mapLeaves id name) := by
  cases e with
  | call func a => cases a <;> rfl
  | _ => rfl

end Folding

/-!
One lemma for each other rule. The first ones look at no literal's value.
-/

section Shapes

variable {value : Float → Float} {name : Char → Char} (e : Expr)

theorem doubleNegation_mapLeaves :
    doubleNegation (e.mapLeaves value name) = (doubleNegation e).map (mapLeaves value name) := by
  cases e with
  | neg a => cases a <;> rfl
  | _ => rfl

theorem moveLiteralRight_mapLeaves (op : BinaryOp) :
    moveLiteralRight op (e.mapLeaves value name) =
      (moveLiteralRight op e).map (mapLeaves value name) := by
  cases e with
  | binary own a b => simp [moveLiteralRight, mapLeaves, apply_ite (Option.map _)]
  | _ => rfl

theorem addNegativeFirst_mapLeaves :
    addNegativeFirst (e.mapLeaves value name) =
      (addNegativeFirst e).map (mapLeaves value name) := by
  cases e with
  | binary op a b => cases op <;> cases a <;> rfl
  | _ => rfl

theorem multiplyNegative_mapLeaves :
    multiplyNegative (e.mapLeaves value name) =
      (multiplyNegative e).map (mapLeaves value name) := by
  cases e with
  | binary op a b => cases op <;> cases a <;> cases b <;> rfl
  | _ => rfl

theorem divideNegative_mapLeaves :
    divideNegative (e.mapLeaves value name) = (divideNegative e).map (mapLeaves value name) := by
  cases e with
  | binary op a b => cases op <;> cases a <;> cases b <;> rfl
  | _ => rfl

theorem literalFraction?_mapLeaves :
    literalFraction? (e.mapLeaves value name) =
      (literalFraction? e).map fun fraction => (value fraction.1, fraction.2.mapLeaves value name) := by
  cases e with
  | binary op a b => cases op <;> cases a <;> rfl
  | _ => rfl

theorem extractNumerator_mapLeaves :
    extractNumerator (e.mapLeaves value name) =
      (extractNumerator e).map (mapLeaves value name) := by
  cases e with
  | binary op a b =>
      cases op with
      | mul =>
          simp only [extractNumerator, mapLeaves, literalFraction?_mapLeaves]
          cases literalFraction? a <;> cases literalFraction? b <;>
            simp [apply_ite (mapLeaves value name), mapLeaves]
      | _ => rfl
  | _ => rfl

theorem regroupVariable_mapLeaves :
    regroupVariable (e.mapLeaves value name) = (regroupVariable e).map (mapLeaves value name) := by
  cases e with
  | binary op a b =>
      cases op with
      | add =>
          cases a with
          | binary own x y =>
              cases own <;> simp [regroupVariable, mapLeaves, apply_ite (Option.map _)]
          | _ => rfl
      | mul =>
          cases a with
          | binary own x y =>
              cases own <;> simp [regroupVariable, mapLeaves, apply_ite (Option.map _)]
          | _ => rfl
      | _ => rfl
  | _ => rfl

theorem regroupDifferencePlus_mapLeaves :
    regroupDifferencePlus (e.mapLeaves value name) =
      (regroupDifferencePlus e).map (mapLeaves value name) := by
  cases e with
  | binary op a b =>
      cases op with
      | add =>
          cases a with
          | binary own x y =>
              cases own <;> simp [regroupDifferencePlus, mapLeaves, apply_ite (Option.map _)]
          | _ => rfl
      | _ => rfl
  | _ => rfl

theorem regroupDifferenceMinus_mapLeaves :
    regroupDifferenceMinus (e.mapLeaves value name) =
      (regroupDifferenceMinus e).map (mapLeaves value name) := by
  cases e with
  | binary op a b =>
      cases op with
      | sub =>
          cases a with
          | binary own x y => cases own <;> rfl
          | _ => rfl
      | _ => rfl
  | _ => rfl

theorem regroupSumMinus_mapLeaves :
    regroupSumMinus (e.mapLeaves value name) = (regroupSumMinus e).map (mapLeaves value name) := by
  cases e with
  | binary op a b =>
      cases op with
      | sub =>
          cases a with
          | binary own x y =>
              cases own <;> simp [regroupSumMinus, mapLeaves, apply_ite (Option.map _)]
          | _ => rfl
      | _ => rfl
  | _ => rfl

end Shapes

section Marks

variable {value : Float → Float} {name : Char → Char} (e : Expr)
  (keeps : Number.KeepsMarks value)
include keeps

theorem negateNumber_mapLeaves :
    negateNumber (e.mapLeaves value name) = (negateNumber e).map (mapLeaves value name) := by
  cases e with
  | neg a =>
      cases a with
      | literal v =>
          simp only [mapLeaves, negateNumber, keeps.beq_zero, Option.map_some]
          cases hzero : v == 0 with
          | true => simp [keeps.map_zero]
          | false => simp [keeps.map_neg v hzero]
      | _ => rfl
  | _ => rfl

theorem addNegative_mapLeaves :
    addNegative (e.mapLeaves value name) = (addNegative e).map (mapLeaves value name) := by
  cases e with
  | binary op a b =>
      cases op with
      | add =>
          cases b with
          | literal v =>
              simp only [mapLeaves, addNegative, keeps.lt_zero]
              split
              · rename_i hnegative
                simp [mapLeaves, keeps.map_neg v (Number.beq_zero_eq_false hnegative)]
              · rfl
          | _ => rfl
      | _ => rfl
  | _ => rfl

theorem subtractNegative_mapLeaves :
    subtractNegative (e.mapLeaves value name) =
      (subtractNegative e).map (mapLeaves value name) := by
  cases e with
  | binary op a b =>
      cases op with
      | sub =>
          cases b with
          | literal v =>
              simp only [mapLeaves, subtractNegative, keeps.lt_zero]
              split
              · rename_i hnegative
                simp [mapLeaves, keeps.map_neg v (Number.beq_zero_eq_false hnegative)]
              · rfl
          | _ => rfl
      | _ => rfl
  | _ => rfl

theorem addZero_mapLeaves :
    addZero (e.mapLeaves value name) = (addZero e).map (mapLeaves value name) := by
  cases e with
  | binary op a b =>
      cases op <;> simp [addZero, mapLeaves, isZero_mapLeaves _ keeps, apply_ite (Option.map _)]
  | _ => rfl

theorem subtractZero_mapLeaves :
    subtractZero (e.mapLeaves value name) = (subtractZero e).map (mapLeaves value name) := by
  cases e with
  | binary op a b =>
      cases op <;>
        simp [subtractZero, mapLeaves, isZero_mapLeaves _ keeps, apply_ite (Option.map _)]
  | _ => rfl

theorem subtractFromZero_mapLeaves :
    subtractFromZero (e.mapLeaves value name) =
      (subtractFromZero e).map (mapLeaves value name) := by
  cases e with
  | binary op a b =>
      cases op <;>
        simp [subtractFromZero, mapLeaves, isZero_mapLeaves _ keeps, apply_ite (Option.map _)]
  | _ => rfl

theorem multiplyOne_mapLeaves :
    multiplyOne (e.mapLeaves value name) = (multiplyOne e).map (mapLeaves value name) := by
  cases e with
  | binary op a b =>
      cases op <;>
        simp [multiplyOne, mapLeaves, isOne_mapLeaves _ keeps, apply_ite (Option.map _)]
  | _ => rfl

theorem multiplyZero_mapLeaves :
    multiplyZero (e.mapLeaves value name) = (multiplyZero e).map (mapLeaves value name) := by
  cases e with
  | binary op a b =>
      cases op <;>
        simp [multiplyZero, mapLeaves, isZero_mapLeaves _ keeps, keeps.map_zero,
          apply_ite (Option.map _)]
  | _ => rfl

theorem divideZero_mapLeaves :
    divideZero (e.mapLeaves value name) = (divideZero e).map (mapLeaves value name) := by
  cases e with
  | binary op a b =>
      cases op <;>
        simp [divideZero, mapLeaves, isZero_mapLeaves _ keeps, keeps.map_zero,
          apply_ite (Option.map _)]
  | _ => rfl

theorem divideOne_mapLeaves :
    divideOne (e.mapLeaves value name) = (divideOne e).map (mapLeaves value name) := by
  cases e with
  | binary op a b =>
      cases op <;> simp [divideOne, mapLeaves, isOne_mapLeaves _ keeps, apply_ite (Option.map _)]
  | _ => rfl

theorem powerZeroLeft_mapLeaves :
    powerZeroLeft (e.mapLeaves value name) = (powerZeroLeft e).map (mapLeaves value name) := by
  cases e with
  | binary op a b =>
      cases op <;>
        simp [powerZeroLeft, mapLeaves, isZero_mapLeaves _ keeps, keeps.map_zero,
          apply_ite (Option.map _)]
  | _ => rfl

theorem powerOneLeft_mapLeaves :
    powerOneLeft (e.mapLeaves value name) = (powerOneLeft e).map (mapLeaves value name) := by
  cases e with
  | binary op a b =>
      cases op <;>
        simp [powerOneLeft, mapLeaves, isOne_mapLeaves _ keeps, keeps.map_one,
          apply_ite (Option.map _)]
  | _ => rfl

theorem powerZero_mapLeaves :
    powerZero (e.mapLeaves value name) = (powerZero e).map (mapLeaves value name) := by
  cases e with
  | binary op a b =>
      cases op <;>
        simp [powerZero, mapLeaves, isZero_mapLeaves _ keeps, keeps.map_one,
          apply_ite (Option.map _)]
  | _ => rfl

theorem powerOne_mapLeaves :
    powerOne (e.mapLeaves value name) = (powerOne e).map (mapLeaves value name) := by
  cases e with
  | binary op a b =>
      cases op <;> simp [powerOne, mapLeaves, isOne_mapLeaves _ keeps, apply_ite (Option.map _)]
  | _ => rfl

end Marks

end Reduction

def Step.isFolding : Step → Bool
  | .foldConstants | .foldFunction => true
  | _ => false

namespace Rule

open Formula.Expr Reduction

section Table

variable {value : Float → Float} {name : Char → Char}

theorem reduce_of_isFolding : ∀ rule ∈ table true, rule.step.isFolding = true →
    rule.reduce = foldConstants ∨ rule.reduce = foldFunction := by
  simp [table, basic, regrouping, Step.isFolding]

/-- Other labels with the same marks go through every rule but folding. -/
theorem reduce_mapLeaves (keeps : Number.KeepsMarks value) : ∀ rule ∈ table true,
    rule.step.isFolding = false → ∀ e : Expr,
      rule.reduce (e.mapLeaves value name) = (rule.reduce e).map (mapLeaves value name) := by
  simp only [table, ↓reduceIte, basic, regrouping, List.cons_append, List.nil_append,
    List.forall_mem_cons, List.not_mem_nil, false_implies, implies_true, and_true]
  exact ⟨fun h => absurd h (by decide), fun h => absurd h (by decide),
    fun _ e => negateNumber_mapLeaves e keeps,
    fun _ => doubleNegation_mapLeaves, fun _ e => moveLiteralRight_mapLeaves e .add,
    fun _ e => addZero_mapLeaves e keeps, fun _ e => addNegative_mapLeaves e keeps,
    fun _ => addNegativeFirst_mapLeaves, fun _ e => subtractZero_mapLeaves e keeps,
    fun _ e => subtractFromZero_mapLeaves e keeps, fun _ e => subtractNegative_mapLeaves e keeps,
    fun _ e => moveLiteralRight_mapLeaves e .mul, fun _ e => multiplyOne_mapLeaves e keeps,
    fun _ e => multiplyZero_mapLeaves e keeps, fun _ => multiplyNegative_mapLeaves,
    fun _ => extractNumerator_mapLeaves, fun _ e => divideZero_mapLeaves e keeps,
    fun _ e => divideOne_mapLeaves e keeps, fun _ => divideNegative_mapLeaves,
    fun _ e => powerZeroLeft_mapLeaves e keeps, fun _ e => powerOneLeft_mapLeaves e keeps,
    fun _ e => powerZero_mapLeaves e keeps, fun _ e => powerOne_mapLeaves e keeps,
    fun _ => regroupVariable_mapLeaves, fun _ => regroupDifferencePlus_mapLeaves,
    fun _ => regroupDifferenceMinus_mapLeaves, fun _ => regroupSumMinus_mapLeaves⟩

variable {rule : Rule} (member : rule ∈ table true) (e : Expr)
include member

/-- Other names go through every rule. -/
theorem reduce_mapLeaves_id :
    rule.reduce (e.mapLeaves id name) = (rule.reduce e).map (mapLeaves id name) := by
  cases hfolding : rule.step.isFolding with
  | false => exact reduce_mapLeaves Number.keepsMarks_id rule member hfolding e
  | true =>
      rcases reduce_of_isFolding rule member hfolding with hreduce | hreduce
      · rw [hreduce, foldConstants_mapLeaves]
      · rw [hreduce, foldFunction_mapLeaves]

end Table

/-- What goes through each rule of a list goes through the first one that applies. -/
theorem fireFirst?_map {f : Expr → Expr} {e : Expr} {rules : List Rule}
    (h : ∀ rule ∈ rules, rule.reduce (f e) = (rule.reduce e).map f) :
    fireFirst? rules (f e) = (fireFirst? rules e).map fun fired => (fired.1, f fired.2) := by
  induction rules with
  | nil => rfl
  | cons rule rest ih =>
      rw [List.forall_mem_cons] at h
      have hrest := ih h.2
      simp only [fireFirst?, List.findSome?_cons, fire?, h.1] at hrest ⊢
      cases rule.reduce e with
      | none => exact hrest
      | some reduct => rfl

end Rule

end Formula
