import Formula.Proofs.Expr.Walk
import Formula.Proofs.Reduction.Descent
import Formula.Proofs.Simplify.Derivation

/-!
Simplification ends on its own. Every derivation goes down in the order in which the
rules go down, so every expression has a derivation, and with regrouping as well as
without a run comes to a result as soon as its limits are large enough.
-/

namespace Formula

open Formula.Expr (Lower)

namespace Simplifies

variable {regroup : Bool} {scope : Scope} {e r : Expr} {log : List Contraction} {reach : Nat}

/-- A derivation without rule applications leaves the expression as it is; any other goes
down. -/
theorem unchanged_or_lower (h : Simplifies regroup scope e log reach r) :
    log = [] ∧ r = e ∨ log ≠ [] ∧ Lower r e := by
  induction h with
  | contract fires rest ih =>
      have hfirst := Expr.lower_of_reduces (Reduction.reduces_of_fireFirst? fires)
      refine .inr ⟨List.cons_ne_nil _ _, ?_⟩
      rcases ih with ⟨-, rfl⟩ | ⟨-, hlower⟩
      · exact hfirst
      · exact hlower.trans hfirst
  | settle inert below ih => exact .inl ⟨rfl, rfl⟩
  | resume inert below changed rest ihb ihr =>
      have hbelow := (ihb.resolve_left fun h => changed h.1).2
      refine .inr ⟨List.append_ne_nil_of_left_ne_nil changed _, ?_⟩
      rcases ihr with ⟨-, rfl⟩ | ⟨-, hlower⟩
      · exact hbelow
      · exact hlower.trans hbelow
  | literal value => exact .inl ⟨rfl, rfl⟩
  | var name => exact .inl ⟨rfl, rfl⟩
  | neg operand ih =>
      rcases ih with ⟨rfl, rfl⟩ | ⟨hlog, hlower⟩
      · exact .inl ⟨rfl, rfl⟩
      · exact .inr ⟨hlog, hlower.neg⟩
  | call func operand ih =>
      rcases ih with ⟨rfl, rfl⟩ | ⟨hlog, hlower⟩
      · exact .inl ⟨rfl, rfl⟩
      · exact .inr ⟨hlog, hlower.call func⟩
  | @binary a a' b b' log more reach further op lhs rhs ihl ihr =>
      rcases ihl with ⟨rfl, rfl⟩ | ⟨hlog, hleft⟩
      · rcases ihr with ⟨rfl, rfl⟩ | ⟨hmore, hright⟩
        · exact .inl ⟨rfl, rfl⟩
        · exact .inr ⟨hmore, hright.right op _⟩
      · refine .inr ⟨List.append_ne_nil_of_left_ne_nil hlog _, ?_⟩
        rcases ihr with ⟨-, rfl⟩ | ⟨-, hright⟩
        · exact hleft.left op _
        · exact (hright.right op a').trans (hleft.left op b)

theorem size_le (h : Simplifies regroup scope e log reach r) : r.size ≤ e.size := by
  rcases h.unchanged_or_lower with ⟨-, rfl⟩ | ⟨-, -, hlower⟩
  · exact Nat.le_refl _
  · omega

end Simplifies

/-- Once its operands are simplified, what is left to do for an expression is to settle
or to take it up again, and then it is lower. -/
theorem exists_simplifies_of_operands {regroup : Bool} {e rebuilt : Expr}
    {log : List Contraction} {reach : Nat}
    (inert : Rule.fireFirst? (Rule.table regroup) e = none)
    (below : Simplifies regroup .operands e log reach rebuilt) (shallow : reach < e.size)
    (again : ∀ e', Lower e' e → ∃ more further r,
      Simplifies regroup .whole e' more further r ∧ further ≤ e'.size) :
    ∃ more further r, Simplifies regroup .whole e more further r ∧ further ≤ e.size := by
  rcases below.unchanged_or_lower with ⟨rfl, rfl⟩ | ⟨changed, hlower⟩
  · exact ⟨[], reach + 1, rebuilt, .settle inert below, shallow⟩
  · obtain ⟨more, further, r, hrest, hfurther⟩ := again rebuilt hlower
    have hsize := below.size_le
    exact ⟨_, _, r, .resume inert below changed hrest, by omega⟩

/-- Every expression has a derivation, and it looks at no more levels than the expression
has nodes. -/
theorem exists_simplifies (regroup : Bool) (e : Expr) :
    ∃ log reach r, Simplifies regroup .whole e log reach r ∧ reach ≤ e.size := by
  induction e using Expr.wellFounded_lower.induction with
  | _ e again =>
    cases hfire : Rule.fireFirst? (Rule.table regroup) e with
    | some fired =>
        obtain ⟨step, reduct⟩ := fired
        have hlower := Expr.lower_of_reduces (Reduction.reduces_of_fireFirst? hfire)
        obtain ⟨log, reach, r, hrest, hreach⟩ := again reduct hlower
        have hsize : reduct.size ≤ e.size := by
          obtain ⟨-, hlower⟩ := hlower
          omega
        exact ⟨_, reach, r, .contract hfire hrest, by omega⟩
    | none =>
        cases e with
        | literal value =>
            exact exists_simplifies_of_operands hfire (.literal value) Nat.one_pos again
        | var name => exact exists_simplifies_of_operands hfire (.var name) Nat.one_pos again
        | neg operand =>
            have hsize : operand.size < (Expr.neg operand).size := Nat.lt_succ_self _
            obtain ⟨log, reach, r, hoperand, hreach⟩ := again operand (.of_size_lt hsize)
            exact exists_simplifies_of_operands hfire (.neg hoperand) (by omega) again
        | call func operand =>
            have hsize : operand.size < (Expr.call func operand).size := Nat.lt_succ_self _
            obtain ⟨log, reach, r, hoperand, hreach⟩ := again operand (.of_size_lt hsize)
            exact exists_simplifies_of_operands hfire (.call func hoperand) (by omega) again
        | binary op lhs rhs =>
            have hleft : lhs.size < (Expr.binary op lhs rhs).size := by
              simp only [Expr.size]
              omega
            have hright : rhs.size < (Expr.binary op lhs rhs).size := by
              simp only [Expr.size]
              omega
            obtain ⟨log, reach, r, hl, hreach⟩ := again lhs (.of_size_lt hleft)
            obtain ⟨more, further, r', hr, hfurther⟩ := again rhs (.of_size_lt hright)
            exact exists_simplifies_of_operands hfire (.binary op hl hr) (by omega) again

def Rewrites (regroup : Bool) : Expr → Expr → Prop :=
  Expr.Inside fun redex reduct => ∃ rule ∈ Rule.table regroup, rule.reduce redex = some reduct

theorem lower_of_rewrites {regroup : Bool} {e r : Expr} (h : Rewrites regroup e r) :
    Lower r e := by
  apply Expr.lower_of_inside _ h
  rintro redex reduct ⟨rule, member, hreduce⟩
  exact Expr.lower_of_reduces (Reduction.reduces_of_mem member hreduce)

/-- No chain of rewritings goes on forever. -/
theorem no_rewriting_forever {regroup : Bool} {chain : Nat → Expr}
    (h : ∀ n, Rewrites regroup (chain n) (chain (n + 1))) : False := by
  have hfalse (e : Expr) : ∀ n, chain n = e → False := by
    induction e using Expr.wellFounded_lower.induction with
    | _ e ih =>
        rintro n rfl
        exact ih (chain (n + 1)) (lower_of_rewrites (h n)) (n + 1) rfl
  exact hfalse (chain 0) 0 rfl

/-- No expression is rewritten forever, in whatever order the rules are applied and
wherever. In particular, a run comes to a result if it may take as many steps as one that
is stopped by nothing, and may go as deep as the expression has nodes; the result does
not depend on the limits. -/
theorem simplify_terminates (regroup : Bool) (e : Expr) :
    (¬ ∃ chain : Nat → Expr, chain 0 = e ∧ ∀ n, Rewrites regroup (chain n) (chain (n + 1))) ∧
      ∃ enough r, ∀ maxSteps maxDepth, enough ≤ maxSteps → e.nodeCount ≤ maxDepth →
        (simplify ⟨maxDepth, maxSteps, regroup⟩ e).result = .ok r := by
  constructor
  · rintro ⟨chain, -, hchain⟩
    exact no_rewriting_forever hchain
  · obtain ⟨log, reach, r, hlog, hreach⟩ := exists_simplifies regroup e
    refine ⟨log.length, r, ?_⟩
    intro maxSteps maxDepth fits shallow
    rw [Expr.nodeCount_eq_size] at shallow
    have hyields := (simplify_yields_iff ⟨maxDepth, maxSteps, regroup⟩ e r _).mpr
      ⟨log, reach, hlog, rfl, fits, Nat.le_trans hreach shallow⟩
    exact ((Run.yields_iff _ _ _).mp hyields).2

end Formula
