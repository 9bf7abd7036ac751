import Formula.Proofs.Simplify.Limits
import Formula.Proofs.Simplify.Trace

/-!
Simplification never makes an expression larger, with regrouping or without. Every rule
uses each of its operands at most once, and puts no more nodes around them than there
were. What holds of the rules holds wherever in an expression they are applied, and so
from step to step of any run, whether it comes to a result or is stopped.
-/

namespace Formula

namespace Expr

def occurrences (name : Char) : Expr → Nat
  | .literal _ => 0
  | .var own => if own = name then 1 else 0
  | .neg operand | .call _ operand => operand.occurrences name
  | .binary _ lhs rhs => lhs.occurrences name + rhs.occurrences name

structure NoLarger (r e : Expr) : Prop where
  nodes : r.nodeCount ≤ e.nodeCount
  occurrences : ∀ name, r.occurrences name ≤ e.occurrences name

theorem noLarger_iff {r e : Expr} :
    r.NoLarger e ↔ r.size ≤ e.size ∧ ∀ name, r.occurrences name ≤ e.occurrences name := by
  rw [← nodeCount_eq_size, ← nodeCount_eq_size]
  exact ⟨fun h => ⟨h.nodes, h.occurrences⟩, fun h => ⟨h.1, h.2⟩⟩

namespace NoLarger

variable {r e : Expr}

theorem refl (e : Expr) : e.NoLarger e := ⟨Nat.le_refl _, fun _ => Nat.le_refl _⟩

theorem trans {a b c : Expr} (hab : a.NoLarger b) (hbc : b.NoLarger c) : a.NoLarger c where
  nodes := Nat.le_trans hab.nodes hbc.nodes
  occurrences name := Nat.le_trans (hab.occurrences name) (hbc.occurrences name)

theorem neg (h : r.NoLarger e) : (Expr.neg r).NoLarger (.neg e) := by
  obtain ⟨hsize, hvariables⟩ := noLarger_iff.mp h
  exact noLarger_iff.mpr ⟨Nat.succ_le_succ hsize, hvariables⟩

theorem call (func : Func) (h : r.NoLarger e) :
    (Expr.call func r).NoLarger (.call func e) := by
  obtain ⟨hsize, hvariables⟩ := noLarger_iff.mp h
  exact noLarger_iff.mpr ⟨Nat.succ_le_succ hsize, hvariables⟩

theorem left (op : BinaryOp) (rhs : Expr) (h : r.NoLarger e) :
    (Expr.binary op r rhs).NoLarger (.binary op e rhs) := by
  obtain ⟨hsize, hvariables⟩ := noLarger_iff.mp h
  apply noLarger_iff.mpr
  constructor
  · simp only [size]
    omega
  · intro name
    exact Nat.add_le_add_right (hvariables name) _

theorem right (op : BinaryOp) (lhs : Expr) (h : r.NoLarger e) :
    (Expr.binary op lhs r).NoLarger (.binary op lhs e) := by
  obtain ⟨hsize, hvariables⟩ := noLarger_iff.mp h
  apply noLarger_iff.mpr
  constructor
  · simp only [size]
    omega
  · intro name
    exact Nat.add_le_add_left (hvariables name) _

end NoLarger

/-- Whatever form a reduction takes, what it leaves out is at least what it puts in. -/
theorem noLarger_of_reduces {step : Step} {e r : Expr} (h : Reduction.Reduces step e r) :
    r.NoLarger e := by
  apply noLarger_iff.mpr
  constructor
  · cases h <;> simp only [size] <;> omega
  · intro name
    cases h <;> simp only [occurrences] <;> omega

theorem noLarger_of_inside {R : Expr → Expr → Prop} (hR : ∀ {e r : Expr}, R e r → r.NoLarger e)
    {e r : Expr} (h : Inside R e r) : r.NoLarger e := by
  induction h with
  | here h => exact hR h
  | neg _ ih => exact ih.neg
  | call func _ ih => exact ih.call func
  | left op rhs _ ih => exact ih.left op rhs
  | right op lhs _ ih => exact ih.right op lhs

end Expr

open Formula.Expr (NoLarger)

theorem noLarger_of_rewrites {regroup : Bool} {e r : Expr} (h : Rewrites regroup e r) :
    r.NoLarger e := by
  apply Expr.noLarger_of_inside _ h
  rintro redex reduct ⟨rule, member, hreduce⟩
  exact Expr.noLarger_of_reduces (Reduction.reduces_of_mem member hreduce)

/-- What is recorded for a place is what some rule of the table did there. -/
theorem Records.exists_rule {regroup : Bool} {step : Step} {redex reduct : Expr}
    (h : Records regroup step redex reduct) :
    ∃ rule ∈ Rule.table regroup, rule.reduce redex = some reduct := by
  rcases Rule.attemptAll_cases (Rule.table regroup) redex [] with
    ⟨-, hrun⟩ | ⟨before, rule, after, own, htable, -, hreduce, hrun⟩
  · cases hrun.symm.trans h
  · cases hrun.symm.trans h
    refine ⟨rule, ?_, hreduce⟩
    rw [htable]
    exact List.mem_append_right before List.mem_cons_self

theorem noLarger_of_records {regroup : Bool} {step : Step} {e r : Expr}
    (h : Expr.Inside (Records regroup step) e r) : r.NoLarger e := by
  apply Expr.noLarger_of_inside _ h
  intro redex reduct hrecords
  obtain ⟨rule, member, hreduce⟩ := hrecords.exists_rule
  exact Expr.noLarger_of_reduces (Reduction.reduces_of_mem member hreduce)

theorem Trace.noLarger {regroup : Bool} {e r : Expr} {steps : List Step}
    (h : Trace regroup e steps r) : r.NoLarger e := by
  induction h with
  | done e => exact .refl e
  | step first rest ih => exact ih.trans (noLarger_of_records first)

/-- Every run, also one that is stopped, takes the first steps of a derivation, and all of
them if it comes to a result. -/
theorem exists_simplifies_of_run (options : SimplifyOptions) (e : Expr) :
    ∃ log reach r, Simplifies options.regroup .whole e log reach r ∧
      (simplify options e).steps <+: log.map (·.step) ∧
      ∀ r', (simplify options e).result = .ok r' →
        r' = r ∧ (simplify options e).steps = log.map (·.step) := by
  obtain ⟨log, reach, r, hlog, -⟩ := exists_simplifies options.regroup e
  refine ⟨log, reach, r, hlog, ?_, ?_⟩
  · have hwidened := @widened_simplify options
      ⟨max options.maxDepth reach, max options.maxSteps log.length, options.regroup⟩
      ⟨rfl, Nat.le_max_left _ _⟩ (Nat.le_max_left _ _) e
    have hyields := (simplify_yields_iff
      ⟨max options.maxDepth reach, max options.maxSteps log.length, options.regroup⟩ e r _).mpr
        ⟨log, reach, hlog, rfl, Nat.le_max_right _ _, Nat.le_max_right _ _⟩
    rw [← ((Run.yields_iff _ _ _).mp hyields).1]
    exact hwidened.prefix_steps
  · intro r' hresult
    obtain ⟨own, _, hown, hsteps, -, -⟩ :=
      (simplify_yields_iff options e r' _).mp ((Run.yields_iff _ _ _).mpr ⟨rfl, hresult⟩)
    obtain ⟨rfl, -, rfl⟩ := hown.unique hlog
    exact ⟨rfl, hsteps.symm⟩

/-- No rule makes an expression larger, on its own or applied anywhere in an expression.
So from the expression that a run begins with to the one with which it ends or is stopped,
no step makes the whole larger, and a result is no larger than what it is the result of. -/
theorem simplify_never_grows (options : SimplifyOptions) (e : Expr) :
    (∀ rule ∈ Rule.table true, ∀ r, rule.reduce e = some r → r.NoLarger e) ∧
      (∀ r, Rewrites options.regroup e r → r.NoLarger e) ∧
      (∃ tree : Nat → Expr, tree 0 = e ∧
        (∀ i (hi : i < (simplify options e).steps.length),
          Expr.Inside (Records options.regroup (simplify options e).steps[i])
            (tree i) (tree (i + 1)) ∧ (tree (i + 1)).NoLarger (tree i)) ∧
        ∀ r, (simplify options e).result = .ok r →
          tree (simplify options e).steps.length = r) ∧
      ∀ r, (simplify options e).result = .ok r → r.NoLarger e := by
  obtain ⟨log, reach, r, hlog, hprefix, hdone⟩ := exists_simplifies_of_run options e
  refine ⟨?_, fun r => noLarger_of_rewrites, ?_, ?_⟩
  · intro rule member r hreduce
    exact Expr.noLarger_of_reduces (Reduction.reduces_of_mem member hreduce)
  · obtain ⟨tree, hstart, hend, hinside⟩ := (Trace.of_simplifies hlog).exists_trees
    refine ⟨tree, hstart, ?_, ?_⟩
    · intro i hi
      have hstep := hinside i (Nat.lt_of_lt_of_le hi hprefix.length_le)
      rw [← hprefix.getElem hi] at hstep
      exact ⟨hstep, noLarger_of_records hstep⟩
    · intro r' hresult
      obtain ⟨rfl, hsteps⟩ := hdone r' hresult
      rw [hsteps]
      exact hend
  · intro r' hresult
    obtain ⟨rfl, -⟩ := hdone r' hresult
    exact (Trace.of_simplifies hlog).noLarger

end Formula
