import Formula.Proofs.Reduction.Relabelling
import Formula.Simplify

/-!
What counts as the same expression, and the rules. To be the same is to have one canonical
form, in which no zero has a sign and whatever is no number is one fixed literal. The
rules agree on expressions that are the same: the same one applies to both, and what they
become is the same again. Only folding may tell them apart, because the arithmetic of
numbers sees the sign of a zero.
-/

namespace Formula

def Number.canonical (value : Float) : Float :=
  if value = -0 then 0 else if value.isNaN then Number.nan else value

/-- There is one literal only that is no number, so nothing but a zero changes. -/
theorem Number.canonical_eq_plainZero : Number.canonical = Number.plainZero := by
  funext value
  have hzero := Number.beq_zero_iff value
  have hnan : Number.nan = Float.nan := by decide +kernel
  rw [Number.canonical, Number.plainZero, Float.isNaN_eq_decide_eq_nan]
  grind

namespace Expr

def canonical (e : Expr) : Expr := e.mapLeaves Number.canonical id

theorem same_iff_canonical (a b : Expr) : a.same b = true ↔ a.canonical = b.canonical := by
  rw [same_iff, plain, plain, canonical, canonical, Number.canonical_eq_plainZero]

theorem same_equivalence : Equivalence fun a b : Expr => a.same b = true where
  refl := same_refl
  symm {a b} h := (same_iff b a).mpr ((same_iff a b).mp h).symm
  trans {a b c} hab hbc :=
    (same_iff a c).mpr (((same_iff a b).mp hab).trans ((same_iff b c).mp hbc))

end Expr

namespace Reduction

open Formula.Expr

/-!
Folding asks only where the literals are. What it puts in their place is left open here.
-/

theorem foldConstants_plain (e : Expr) :
    (foldConstants e.plain).map (fun _ => ()) = (foldConstants e).map fun _ => () := by
  cases e with
  | binary op a b => cases a <;> cases b <;> rfl
  | _ => rfl

theorem foldFunction_plain (e : Expr) :
    (foldFunction e.plain).map (fun _ => ()) = (foldFunction e).map fun _ => () := by
  cases e with
  | call func a => cases a <;> rfl
  | _ => rfl

end Reduction

namespace Rule

open Formula.Expr Reduction

/-- Two reductions agree: they are the same step, and unless the step computes they give
the same expression. -/
def Agree (a b : Step × Expr) : Prop :=
  a.1 = b.1 ∧ (a.1.isFolding = false → a.2.same b.2 = true)

theorem agree_of_map {β : Type} {f : Expr → β} {step : Step} {x y : Option Expr}
    (h : x.map f = y.map f)
    (same : ∀ r r', f r = f r' → step.isFolding = false → r.same r' = true) :
    Option.Rel Agree (x.map fun r => (step, r)) (y.map fun r => (step, r)) := by
  cases x with
  | none =>
      rw [Option.map_none, eq_comm, Option.map_eq_none_iff] at h
      rw [h]
      exact .none
  | some r =>
      rw [Option.map_some, eq_comm, Option.map_eq_some_iff] at h
      obtain ⟨r', rfl, hr⟩ := h
      exact .some ⟨rfl, same r r' hr.symm⟩

variable {a b : Expr}

theorem agree_of_same {rule : Rule} (member : rule ∈ table true) (h : a.same b = true) :
    Option.Rel Agree (rule.fire? a) (rule.fire? b) := by
  have hplain : a.plain = b.plain := (same_iff a b).mp h
  cases hfolding : rule.step.isFolding with
  | true =>
      have hfires : (rule.reduce a).map (fun _ => ()) = (rule.reduce b).map fun _ => () := by
        rcases reduce_of_isFolding rule member hfolding with hreduce | hreduce
        · rw [hreduce, ← foldConstants_plain a, hplain, foldConstants_plain b]
        · rw [hreduce, ← foldFunction_plain a, hplain, foldFunction_plain b]
      apply agree_of_map hfires
      intro r r' _ other
      rw [hfolding] at other
      cases other
  | false =>
      have hmap (e : Expr) : rule.reduce e.plain = (rule.reduce e).map plain :=
        reduce_mapLeaves Number.keepsMarks_plainZero rule member hfolding e
      have hreducts : (rule.reduce a).map plain = (rule.reduce b).map plain := by
        rw [← hmap, ← hmap, hplain]
      exact agree_of_map hreducts fun r r' hr _ => (same_iff r r').mpr hr

/-- The first rule of a list that applies to one of them is the first for the other. -/
theorem agree_fireFirst? {rules : List Rule} (members : rules ⊆ table true)
    (h : a.same b = true) : Option.Rel Agree (fireFirst? rules a) (fireFirst? rules b) := by
  induction rules with
  | nil => exact .none
  | cons rule rest ih =>
      rw [List.cons_subset] at members
      have hfirst := agree_of_same members.1 h
      have hrest := ih members.2
      simp only [fireFirst?, List.findSome?_cons] at hrest ⊢
      generalize rule.fire? a = x at hfirst
      generalize rule.fire? b = y at hfirst
      cases hfirst with
      | none => exact hrest
      | some hagree => exact .some hagree

theorem table_subset (regroup : Bool) : table regroup ⊆ table true := by
  cases regroup with
  | true => exact List.Subset.refl _
  | false => exact List.subset_append_left _ _

end Rule

/-- To be the same is an equivalence, namely to have one canonical form, and the rules
respect it. If two expressions are the same then a rule applies to one if and only if it
applies to the other, the first rule of a table that applies is one and the same for both,
and what it makes of them is again the same unless it folds literals. -/
theorem rules_respect_same :
    (Equivalence fun a b : Expr => a.same b = true) ∧
    (∀ a b : Expr, a.same b = true ↔ a.canonical = b.canonical) ∧
    ∀ a b : Expr, a.same b = true →
      (∀ rule ∈ Rule.table true, Option.Rel Rule.Agree (rule.fire? a) (rule.fire? b)) ∧
      ∀ options : SimplifyOptions,
        Option.Rel Rule.Agree (Rule.fireFirst? (Rule.table options.regroup) a)
          (Rule.fireFirst? (Rule.table options.regroup) b) := by
  refine ⟨Expr.same_equivalence, Expr.same_iff_canonical, fun a b h => ⟨?_, ?_⟩⟩
  · intro rule member
    exact Rule.agree_of_same member h
  · intro options
    exact Rule.agree_fireFirst? (Rule.table_subset options.regroup) h

/-- `x + 0` and `x + (-0)` lose the zero by the same step. -/
theorem rules_respect_same_zero :
    (Expr.add (.var 'x') (.literal 0)).same (.add (.var 'x') (.literal (-0))) = true ∧
      Option.Rel Rule.Agree
        (Rule.fireFirst? (Rule.table SimplifyOptions.standard.regroup)
          (.add (.var 'x') (.literal 0)))
        (Rule.fireFirst? (Rule.table SimplifyOptions.standard.regroup)
          (.add (.var 'x') (.literal (-0)))) := by
  have hsame : (Expr.add (.var 'x') (.literal 0)).same (.add (.var 'x') (.literal (-0))) = true := by
    decide +kernel
  exact ⟨hsame, (rules_respect_same.2.2 _ _ hsame).2 SimplifyOptions.standard⟩

/-- Folding tells the zeros apart: `1 / 0` and `1 / (-0)` are the same and become the two
infinities. -/
example :
    (Expr.div (.literal 1) (.literal 0)).same (.div (.literal 1) (.literal (-0))) = true ∧
      (Reduction.foldConstants (.div (.literal 1) (.literal 0))).map (·.isNegative) = some false ∧
      (Reduction.foldConstants (.div (.literal 1) (.literal (-0)))).map (·.isNegative) =
        some true := by
  decide +kernel

end Formula
