import Formula.Proofs.Expr.Leaves
import Formula.Proofs.Simplify.Termination

/-!
What it means that nothing changed. A run that takes a step ends below where it began, in
the order in which every reduction goes down. That order is made of counts of nodes and of
literals below zero, and the sign of a zero enters none of them; so what is lower is never
the same, and a run gives back the same expression only if it did nothing.
-/

namespace Formula

namespace Expr

/-!
The quantities of the order depend on the shape and on the marks of the leaves.
-/

section Quantities

variable {value : Float → Float} {name : Char → Char} (e : Expr)

theorem negatives_mapLeaves (keeps : Number.KeepsMarks value) :
    (e.mapLeaves value name).negatives = e.negatives := by
  induction e with
  | literal v => simp only [mapLeaves, negatives, keeps.lt_zero]
  | var x => rfl
  | neg operand ih => exact ih
  | call func operand ih => exact ih
  | binary op lhs rhs ihl ihr => simp only [mapLeaves, negatives, ihl, ihr]

theorem spread_mapLeaves : (e.mapLeaves value name).spread = e.spread := by
  induction e with
  | literal v => rfl
  | var x => rfl
  | neg operand ih => simp only [mapLeaves, spread, ih]
  | call func operand ih => exact ih
  | binary op lhs rhs ihl ihr => cases op <;> simp only [mapLeaves, spread, ihl, ihr]

theorem numerators_mapLeaves : (e.mapLeaves value name).numerators = e.numerators := by
  induction e with
  | literal v => rfl
  | var x => rfl
  | neg operand ih => exact ih
  | call func operand ih => exact ih
  | binary op lhs rhs ihl ihr =>
      cases op <;> simp only [mapLeaves, numerators, isLiteral_mapLeaves, ihl, ihr]

theorem subtracted_mapLeaves : (e.mapLeaves value name).subtracted = e.subtracted := by
  induction e with
  | literal v => rfl
  | var x => rfl
  | neg operand ih => exact ih
  | call func operand ih => exact ih
  | binary op lhs rhs ihl ihr =>
      cases op <;> simp only [mapLeaves, subtracted, size_mapLeaves, ihl, ihr]

theorem trailing_mapLeaves : (e.mapLeaves value name).trailing = e.trailing := by
  induction e with
  | literal v => rfl
  | var x => rfl
  | neg operand ih => exact ih
  | call func operand ih => exact ih
  | binary op lhs rhs ihl ihr =>
      cases op <;> simp only [mapLeaves, trailing, size_mapLeaves, ihl, ihr]

theorem drift_mapLeaves : (e.mapLeaves value name).drift = e.drift := by
  induction e with
  | literal v => rfl
  | var x => rfl
  | neg operand ih => simp only [mapLeaves, drift, ih]
  | call func operand ih => simp only [mapLeaves, drift, ih]
  | binary op lhs rhs ihl ihr => cases op <;> simp only [mapLeaves, drift, ihl, ihr]

end Quantities

/-- The order is one of expressions with plain zeros. -/
theorem lower_plain_iff (r e : Expr) : Lower r.plain e.plain ↔ Lower r e := by
  have hnegatives := fun e => @negatives_mapLeaves _ id e Number.keepsMarks_plainZero
  simp only [Lower, plain, size_mapLeaves, hnegatives, spread_mapLeaves, numerators_mapLeaves,
    subtracted_mapLeaves, trailing_mapLeaves, drift_mapLeaves]

theorem not_lower_self (e : Expr) : ¬ Lower e e := by
  unfold Lower
  omega

theorem Lower.same_eq_false {r e : Expr} (h : Lower r e) : r.same e = false := by
  rw [Bool.eq_false_iff, ne_eq, same_iff]
  intro hplain
  rw [← lower_plain_iff, hplain] at h
  exact not_lower_self e.plain h

end Expr

/-- That nothing changed means that nothing was done. A run comes to the same expression
exactly if it took no step, where the zeros are one number and what is no number is the
same as itself. And no rule, alone or in a list of rules, makes of an expression one that
is the same. -/
theorem simplify_unchanged_iff (options : SimplifyOptions) :
    (∀ e r, (simplify options e).result = .ok r →
      ((simplify options e).steps = [] ↔ r.same e = true)) ∧
    (∀ rule ∈ Rule.table true, ∀ e r, rule.reduce e = some r → r.same e = false) ∧
    ∀ rules ⊆ Rule.table true, ∀ e step r,
      Rule.fireFirst? rules e = some (step, r) → r.same e = false := by
  have hrule : ∀ rule ∈ Rule.table true, ∀ e r, rule.reduce e = some r → r.same e = false := by
    intro rule member e r hreduce
    exact (Expr.lower_of_reduces (Reduction.reduces_of_mem member hreduce)).same_eq_false
  refine ⟨?_, hrule, ?_⟩
  · intro e r h
    obtain ⟨log, reach, hlog, hsteps, -, -⟩ :=
      (simplify_yields_iff options e r _).mp ((Run.yields_iff _ _ _).mpr ⟨rfl, h⟩)
    rw [← hsteps, List.map_eq_nil_iff]
    rcases hlog.unchanged_or_lower with ⟨rfl, rfl⟩ | ⟨htaken, hlower⟩
    · exact iff_of_true rfl r.same_refl
    · exact iff_of_false htaken (by rw [hlower.same_eq_false]; exact Bool.false_ne_true)
  · intro rules hrules e step r hfire
    obtain ⟨rule, member, hfired⟩ := List.exists_of_findSome?_eq_some hfire
    obtain ⟨reduct, hreduce, hpair⟩ := Option.map_eq_some_iff.mp hfired
    cases hpair
    exact hrule rule (hrules member) e r hreduce

/-- `x - 0` comes to another expression, so it took a step; `x / y` comes to itself, so it
took none. -/
theorem simplify_unchanged_iff_two_runs :
    (simplify ⟨8, 8, false⟩ (.sub (.var 'x') (.literal 0))).steps ≠ [] ∧
      (simplify ⟨8, 8, false⟩ (.div (.var 'x') (.var 'y'))).steps = [] := by
  have hdifference : (simplify ⟨8, 8, false⟩ (.sub (.var 'x') (.literal 0))).result =
      .ok (.var 'x') := by
    decide +kernel
  have hquotient : (simplify ⟨8, 8, false⟩ (.div (.var 'x') (.var 'y'))).result =
      .ok (.div (.var 'x') (.var 'y')) := by
    decide +kernel
  have hiff := (simplify_unchanged_iff ⟨8, 8, false⟩).1
  refine ⟨fun hnone => ?_, (hiff _ _ hquotient).mpr rfl⟩
  cases (hiff _ _ hdifference).mp hnone

end Formula
