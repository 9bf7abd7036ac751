import Formula.Proofs.Reduction.Shape
import Formula.Proofs.Simplify.Derivation

/-!
The steps of a run, taken one at a time. A derivation simplifies the operands apart from
the whole and puts the whole together again afterwards; its trace is a chain of whole
expressions, each of which becomes the next by the replacement of one subexpression, in
the order in which the steps were recorded. What a replacement records is read off a log
that all rules share: they are tried in the order of the table, and only the one that
applies writes into it.
-/

namespace Formula

namespace Rule

/-- What is found without a log is what is recorded with one. -/
theorem attemptAll_run (rules : List Rule) (e : Expr) (log : List Step) :
    (attemptAll rules e).run log =
      match fireFirst? rules e with
      | none => (none, log)
      | some (step, reduct) => (some reduct, log ++ [step]) := by
  induction rules with
  | nil => rfl
  | cons rule later ih =>
      rw [attemptAll, attempt, fireFirst?, List.findSome?_cons, fire?]
      cases rule.reduce e with
      | some reduct => rfl
      | none => exact ih

/-- Either no rule applies, and nothing is recorded, or the first rule that applies gives
the result, and its step is all that is recorded. -/
theorem attemptAll_cases (rules : List Rule) (e : Expr) (log : List Step) :
    ((∀ rule ∈ rules, rule.reduce e = none) ∧ (attemptAll rules e).run log = (none, log)) ∨
      ∃ before rule after reduct, rules = before ++ rule :: after ∧
        (∀ earlier ∈ before, earlier.reduce e = none) ∧ rule.reduce e = some reduct ∧
        (attemptAll rules e).run log = (some reduct, log ++ [rule.step]) := by
  rw [attemptAll_run]
  cases hfire : fireFirst? rules e with
  | none =>
      exact .inl ⟨fireFirst?_eq_none_iff.mp hfire, rfl⟩
  | some fired =>
      obtain ⟨before, rule, after, hrules, hrule, hbefore⟩ := List.findSome?_eq_some_iff.mp hfire
      obtain ⟨reduct, hreduce, rfl⟩ := Option.map_eq_some_iff.mp hrule
      refine .inr ⟨before, rule, after, reduct, hrules, ?_, hreduce, rfl⟩
      intro earlier member
      exact Option.map_eq_none_iff.mp (hbefore earlier member)

end Rule

def Records (regroup : Bool) (step : Step) (redex reduct : Expr) : Prop :=
  (Rule.attemptAll (Rule.table regroup) redex).run [] = (some reduct, [step])

theorem records_of_fireFirst? {regroup : Bool} {step : Step} {redex reduct : Expr}
    (h : Rule.fireFirst? (Rule.table regroup) redex = some (step, reduct)) :
    Records regroup step redex reduct := by
  rw [Records, Rule.attemptAll_run, h]
  rfl

/-- `Trace regroup e steps r`: the steps lead from `e` to `r`, and each replaces exactly
one subexpression of the whole that it finds. -/
inductive Trace (regroup : Bool) : Expr → List Step → Expr → Prop
  | done (e : Expr) : Trace regroup e [] e
  | step {e next r : Expr} {step : Step} {steps : List Step}
      (first : Expr.Inside (Records regroup step) e next) (rest : Trace regroup next steps r) :
      Trace regroup e (step :: steps) r

namespace Trace

variable {regroup : Bool} {e middle r : Expr} {steps more : List Step}

theorem append (h : Trace regroup e steps middle) (h' : Trace regroup middle more r) :
    Trace regroup e (steps ++ more) r := by
  induction h with
  | done e => exact h'
  | step first rest ih => exact .step first (ih h')

/-- What happens to an operand happens to the whole that it stands in. -/
theorem lift (whole : Expr → Expr)
    (inside : ∀ {R : Expr → Expr → Prop} {a b : Expr},
      Expr.Inside R a b → Expr.Inside R (whole a) (whole b))
    (h : Trace regroup e steps r) : Trace regroup (whole e) steps (whole r) := by
  induction h with
  | done e => exact .done (whole e)
  | step first rest ih => exact .step (inside first) ih

/-- The steps of a derivation, whether of a whole expression or of its operands. -/
theorem of_simplifies {scope : Scope} {log : List Contraction} {reach : Nat}
    (h : Simplifies regroup scope e log reach r) :
    Trace regroup e (log.map (·.step)) r := by
  induction h with
  | contract fires rest ih => exact .step (.here (records_of_fireFirst? fires)) ih
  | settle inert below ih => exact .done _
  | resume inert below changed rest ihb ihr =>
      rw [List.map_append]
      exact ihb.append ihr
  | literal value => exact .done _
  | var name => exact .done _
  | neg operand ih => exact ih.lift .neg .neg
  | call func operand ih => exact ih.lift (.call func) (.call func)
  | @binary a a' b b' log more reach further op lhs rhs ihl ihr =>
      rw [List.map_append]
      -- The left operand changes beside the right one as it was, the right one beside the
      -- left one as it has become.
      have hleft := ihl.lift (.binary op · b) (.left op b)
      have hright := ihr.lift (.binary op a') (.right op a')
      exact hleft.append hright

/-- The trees of a trace, from the first to the last. -/
theorem exists_trees (h : Trace regroup e steps r) :
    ∃ tree : Nat → Expr, tree 0 = e ∧ tree steps.length = r ∧
      ∀ i (hi : i < steps.length),
        Expr.Inside (Records regroup steps[i]) (tree i) (tree (i + 1)) := by
  induction h with
  | done e => exact ⟨fun _ => e, rfl, rfl, fun i hi => absurd hi (Nat.not_lt_zero i)⟩
  | @step e next r step steps first rest ih =>
      obtain ⟨tree, hstart, hend, hsteps⟩ := ih
      refine ⟨fun i => i.casesOn e tree, rfl, hend, ?_⟩
      intro i hi
      cases i with
      | zero =>
          change Expr.Inside (Records regroup step) e (tree 0)
          rwa [hstart]
      | succ i => exact hsteps i (Nat.lt_of_succ_lt_succ hi)

end Trace

/-- The steps of a run that comes to a result are a derivation of the result: there are
trees from the expression to the result, one more than there are steps, and each becomes
the next by the replacement of one subexpression, for which the rules record just the step
of that place. And whatever has been recorded before, the rules record one step if they
make something of an expression and none if they do not, and both come from the first rule
of the table that applies. -/
theorem simplify_steps_derive (options : SimplifyOptions) :
    (∀ e r, (simplify options e).result = .ok r →
      ∃ tree : Nat → Expr, tree 0 = e ∧ tree (simplify options e).steps.length = r ∧
        ∀ i (hi : i < (simplify options e).steps.length),
          Expr.Inside (Records options.regroup (simplify options e).steps[i])
            (tree i) (tree (i + 1))) ∧
      ∀ (e : Expr) (log : List Step),
        ((∀ rule ∈ Rule.table options.regroup, rule.reduce e = none) ∧
          (Rule.attemptAll (Rule.table options.regroup) e).run log = (none, log)) ∨
        ∃ before rule after reduct,
          Rule.table options.regroup = before ++ rule :: after ∧
          (∀ earlier ∈ before, earlier.reduce e = none) ∧ rule.reduce e = some reduct ∧
          (Rule.attemptAll (Rule.table options.regroup) e).run log =
            (some reduct, log ++ [rule.step]) := by
  constructor
  · intro e r h
    obtain ⟨log, reach, hlog, hsteps, -, -⟩ :=
      (simplify_yields_iff options e r _).mp ((Run.yields_iff _ _ _).mpr ⟨rfl, h⟩)
    rw [← hsteps]
    exact (Trace.of_simplifies hlog).exists_trees
  · intro e log
    exact Rule.attemptAll_cases _ e log

/-- `(x + 0) * (1 * y)` becomes `x * y` by one step on the left and two on the right. -/
theorem simplify_steps_derive_product :
    (simplify ⟨2, 3, false⟩ (.mul (.add (.var 'x') (.literal 0)) (.mul (.literal 1) (.var 'y')))).result =
        .ok (.mul (.var 'x') (.var 'y')) ∧
      ∃ tree : Nat → Expr,
        tree 0 = .mul (.add (.var 'x') (.literal 0)) (.mul (.literal 1) (.var 'y')) ∧
        tree 3 = .mul (.var 'x') (.var 'y') ∧
        Expr.Inside (Records false .addZero) (tree 0) (tree 1) ∧
        Expr.Inside (Records false .moveLiteralRight) (tree 1) (tree 2) ∧
        Expr.Inside (Records false .multiplyOne) (tree 2) (tree 3) := by
  have hleft : Simplifies false .whole (.add (.var 'x') (.literal 0))
      [⟨.addZero, .add (.var 'x') (.literal 0), .var 'x'⟩] 1 (.var 'x') :=
    .contract (by decide +kernel) (.settle rfl (.var 'x'))
  have hright : Simplifies false .whole (.mul (.literal 1) (.var 'y'))
      [⟨.moveLiteralRight, .mul (.literal 1) (.var 'y'), .mul (.var 'y') (.literal 1)⟩,
        ⟨.multiplyOne, .mul (.var 'y') (.literal 1), .var 'y'⟩] 1 (.var 'y') :=
    .contract (by decide +kernel) (.contract (by decide +kernel) (.settle rfl (.var 'y')))
  have hproduct : Simplifies false .whole (.mul (.var 'x') (.var 'y')) [] 2 _ :=
    .settle rfl (.binary .mul (.settle rfl (.var 'x')) (.settle rfl (.var 'y')))
  have hlog := Simplifies.resume rfl (.binary .mul hleft hright) (List.cons_ne_nil _ _) hproduct
  have hyields := (simplify_yields_iff ⟨2, 3, false⟩ _ _ _).mpr
    ⟨_, 2, hlog, rfl, Nat.le_refl 3, Nat.le_refl 2⟩
  obtain ⟨hsteps, hresult⟩ := (Run.yields_iff _ _ _).mp hyields
  obtain ⟨tree, hstart, hend, hinside⟩ := (simplify_steps_derive _).1 _ _ hresult
  simp only [hsteps] at hend hinside
  exact ⟨hresult, tree, hstart, hend, hinside 0 (by decide), hinside 1 (by decide),
    hinside 2 (by decide)⟩

end Formula
