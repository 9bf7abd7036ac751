import Formula.Proofs.Reduction.Relabelling
import Formula.Proofs.Simplify.Limits

/-!
Simplification and the names of variables. No rule sees a name, so other names go through
every rule; and a run does nothing with an expression but to try the rules and to take it
apart, so they go through whole runs, with their steps and their limits. The names need
not stay different from each other.
-/

namespace Formula

def Expr.rename (f : Char → Char) (e : Expr) : Expr := e.mapLeaves id f

namespace Run

variable {allowed : Nat}

theorem result_map (f : Expr → Expr) (run : Run allowed) :
    (run.map f).result = run.result.map f := by
  cases run <;> rfl

theorem map_map (f g : Expr → Expr) (run : Run allowed) :
    (run.map f).map g = run.map fun e => g (f e) := by
  cases run <;> rfl

theorem map_cons (f : Expr → Expr) (step : Step) (h : 0 < allowed) (run : Run (allowed - 1)) :
    (run.cons step h).map f = (run.map f).cons step h := by
  cases run <;> rfl

/-- What goes through the continuation of a run goes through the continued run. -/
theorem map_bind {f : Expr → Expr} {first : Run allowed}
    {next next' : (steps : List Step) → steps.length ≤ allowed → Expr → Run (allowed - steps.length)}
    (h : ∀ steps within e, next' steps within (f e) = (next steps within e).map f) :
    (first.map f).bind next' = (first.bind next).map f := by
  cases first with
  | stopped steps error => rfl
  | done steps within result =>
      simp only [map, bind, h]
      cases next steps within result <;> rfl

end Run

theorem Rule.reduce_rename {rule : Rule} (member : rule ∈ Rule.table true) (f : Char → Char)
    (e : Expr) : rule.reduce (e.rename f) = (rule.reduce e).map (Expr.rename f) :=
  Rule.reduce_mapLeaves_id member e

section Rename

variable (f : Char → Char) (options : SimplifyOptions)

theorem fireFirst?_rename (regroup : Bool) (e : Expr) :
    Rule.fireFirst? (Rule.table regroup) (e.rename f) =
      (Rule.fireFirst? (Rule.table regroup) e).map fun fired => (fired.1, fired.2.rename f) := by
  apply Rule.fireFirst?_map
  intro rule member
  exact Rule.reduce_rename (Reduction.mem_table_true member) f e

mutual

theorem simplifyAt_rename (depth allowed : Nat) (e : Expr) :
    simplifyAt options depth allowed (e.rename f) =
      (simplifyAt options depth allowed e).map (Expr.rename f) := by
  rw [simplifyAt, simplifyAt, fireFirst?_rename]
  split
  · rfl
  · rename_i hdepth
    cases Rule.fireFirst? (Rule.table options.regroup) e with
    | some fired =>
        obtain ⟨step, reduct⟩ := fired
        simp only [Option.map_some]
        split
        · rename_i hallowed
          have hfewer := options.callsLeft_fewer depth (Nat.sub_lt hallowed Nat.one_pos)
          rw [simplifyAt_rename depth (allowed - 1) reduct, Run.map_cons]
        · rfl
    | none =>
        have hdeeper := options.callsLeft_deeper allowed (Nat.le_of_not_lt hdepth)
        simp only [Option.map_none]
        rw [simplifyOperands_rename (depth + 1) allowed e]
        apply Run.map_bind
        intro steps within rebuilt
        split
        · rfl
        · rename_i hsome
          have htaken := List.length_pos_iff.mpr hsome
          have hfewer := options.callsLeft_fewer depth
            (show allowed - steps.length < allowed by omega)
          exact simplifyAt_rename depth (allowed - steps.length) rebuilt
termination_by 2 * options.callsLeft depth allowed
decreasing_by
  all_goals omega

theorem simplifyOperands_rename (depth allowed : Nat) (e : Expr) :
    simplifyOperands options depth allowed (e.rename f) =
      (simplifyOperands options depth allowed e).map (Expr.rename f) := by
  cases e with
  | literal value =>
      rw [simplifyOperands, Expr.rename, Expr.mapLeaves, simplifyOperands]
      rfl
  | var name =>
      rw [simplifyOperands, Expr.rename, Expr.mapLeaves, simplifyOperands]
      rfl
  | neg operand =>
      have hrename : (Expr.neg operand).rename f = .neg (operand.rename f) := rfl
      rw [hrename, simplifyOperands, simplifyOperands, simplifyAt_rename depth allowed operand,
        Run.map_map, Run.map_map]
      rfl
  | call func operand =>
      have hrename : (Expr.call func operand).rename f = .call func (operand.rename f) := rfl
      rw [hrename, simplifyOperands, simplifyOperands, simplifyAt_rename depth allowed operand,
        Run.map_map, Run.map_map]
      rfl
  | binary op lhs rhs =>
      have hrename : (Expr.binary op lhs rhs).rename f =
          .binary op (lhs.rename f) (rhs.rename f) := rfl
      rw [hrename, simplifyOperands, simplifyOperands, simplifyAt_rename depth allowed lhs]
      apply Run.map_bind
      intro steps within left
      have hfewer := options.callsLeft_mono depth (Nat.sub_le allowed steps.length)
      rw [simplifyAt_rename depth (allowed - steps.length) rhs, Run.map_map, Run.map_map]
      rfl
termination_by 2 * options.callsLeft depth allowed + 1
decreasing_by
  all_goals omega

end

end Rename

/-- Names do not matter. A run on the expression with other names takes the same steps; if
the one comes to a result, so does the other, to the result with the other names, and
otherwise both are stopped by the same limit. Each rule on its own, and the first rule that
applies of any list of rules, makes of the expression with other names what it makes of the
expression, with the other names. -/
theorem simplify_rename (f : Char → Char) (options : SimplifyOptions) (e : Expr) :
    (simplify options (e.rename f)).steps = (simplify options e).steps ∧
      (simplify options (e.rename f)).result = (simplify options e).result.map (Expr.rename f) ∧
      (∀ rule ∈ Rule.table true, rule.fire? (e.rename f) =
        (rule.fire? e).map fun fired => (fired.1, fired.2.rename f)) ∧
      ∀ rules ⊆ Rule.table true, Rule.fireFirst? rules (e.rename f) =
        (Rule.fireFirst? rules e).map fun fired => (fired.1, fired.2.rename f) := by
  have hrun : simplify options (e.rename f) = (simplify options e).map (Expr.rename f) :=
    simplifyAt_rename f options 1 options.maxSteps e
  refine ⟨?_, ?_, ?_, ?_⟩
  · rw [hrun, Run.steps_map]
  · rw [hrun, Run.result_map]
  · intro rule member
    rw [Rule.fire?, Rule.fire?, Option.map_map, Rule.reduce_rename member f e, Option.map_map]
    rfl
  · intro rules hrules
    apply Rule.fireFirst?_map
    intro rule member
    exact Rule.reduce_rename (hrules member) f e

/-- With one name for both, `(x + y) - 0` is simplified as `(x + x) - 0`: one step, and the
result has the one name. -/
theorem simplify_rename_one_name :
    (simplify ⟨8, 8, false⟩ (.sub (.add (.var 'x') (.var 'x')) (.literal 0))).steps =
        [.subtractZero] ∧
      (simplify ⟨8, 8, false⟩ (.sub (.add (.var 'x') (.var 'x')) (.literal 0))).result =
        .ok (.add (.var 'x') (.var 'x')) ∧
      Rule.fireFirst? (Rule.table true) (.sub (.add (.var 'x') (.var 'x')) (.literal 0)) =
        some (.subtractZero, .add (.var 'x') (.var 'x')) := by
  have hsteps : (simplify ⟨8, 8, false⟩ (.sub (.add (.var 'x') (.var 'y')) (.literal 0))).steps =
      [.subtractZero] := by
    decide +kernel
  have hresult : (simplify ⟨8, 8, false⟩ (.sub (.add (.var 'x') (.var 'y')) (.literal 0))).result =
      .ok (.add (.var 'x') (.var 'y')) := by
    decide +kernel
  have hfire : Rule.fireFirst? (Rule.table true) (.sub (.add (.var 'x') (.var 'y')) (.literal 0)) =
      some (.subtractZero, .add (.var 'x') (.var 'y')) := by
    decide +kernel
  obtain ⟨hsteps', hresult', -, hfire'⟩ := simplify_rename (fun _ => 'x') ⟨8, 8, false⟩
    (.sub (.add (.var 'x') (.var 'y')) (.literal 0))
  refine ⟨hsteps'.trans hsteps, hresult'.trans (congrArg _ hresult), ?_⟩
  exact (hfire' (Rule.table true) (List.Subset.refl _)).trans (congrArg _ hfire)

end Formula
