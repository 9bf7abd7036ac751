import Formula.Proofs.Simplify.FixedPoint

/-!
What the limits do to a run. They only cut it short: under wider limits a run takes the
same course, and goes on from where the narrower limits stopped it. `Run.Widened` says
this of any two runs, with whatever they may still take, and every way in which runs are
put together keeps it. So it holds of whole runs by the recursion of the procedure.
-/

namespace Formula

namespace Run

variable {allowed more : Nat}

/-- The second run has wider limits than the first and takes the same course. It comes to
the same result, if the first comes to one, and otherwise it begins with the steps of the
first. A run that is stopped for its steps has taken one too many, and the second is
stopped with it if it may take no more. -/
inductive Widened (narrow wide : SimplifyOptions) : Run allowed → Run more → Prop
  | done {steps : List Step} {result : Expr} (within : steps.length ≤ allowed)
      (fits : steps.length ≤ more) :
      Widened narrow wide (.done steps within result) (.done steps fits result)
  | outOfSteps {steps : List Step} {run : Run more} (count : steps.length = allowed + 1)
      (goesOn : steps <+: run.steps)
      (alike : more = allowed → run = .stopped steps (.stepLimitExceeded wide.maxSteps)) :
      Widened narrow wide (.stopped steps (.stepLimitExceeded narrow.maxSteps)) run
  | tooDeep {steps : List Step} {run : Run more} (within : steps.length ≤ allowed)
      (goesOn : steps <+: run.steps) :
      Widened narrow wide (.stopped steps (.recursionLimitExceeded narrow.maxDepth)) run

theorem steps_map (f : Expr → Expr) (run : Run allowed) : (run.map f).steps = run.steps := by
  cases run <;> rfl

theorem steps_cons (step : Step) (h : 0 < allowed) (run : Run (allowed - 1)) :
    (run.cons step h).steps = step :: run.steps := by
  cases run <;> rfl

theorem steps_bind_done {steps : List Step} (within : steps.length ≤ allowed) (result : Expr)
    (next : (steps : List Step) → steps.length ≤ allowed → Expr → Run (allowed - steps.length)) :
    ((Run.done steps within result).bind next).steps =
      steps ++ (next steps within result).steps := by
  simp only [Run.bind]
  cases next steps within result <;> rfl

/-- What a run has recorded stays recorded when it is continued. -/
theorem prefix_steps_bind (run : Run allowed)
    (next : (steps : List Step) → steps.length ≤ allowed → Expr → Run (allowed - steps.length)) :
    run.steps <+: (run.bind next).steps := by
  cases run with
  | stopped steps error => exact List.prefix_rfl
  | done steps within result =>
      rw [steps_bind_done]
      exact List.prefix_append steps _

namespace Widened

variable {narrow wide : SimplifyOptions}

theorem prefix_steps {run : Run allowed} {run' : Run more} (h : Widened narrow wide run run') :
    run.steps <+: run'.steps := by
  cases h with
  | done within fits => exact List.prefix_rfl
  | outOfSteps count goesOn alike => exact goesOn
  | tooDeep within goesOn => exact goesOn

theorem map {run : Run allowed} {run' : Run more} (h : Widened narrow wide run run')
    (f : Expr → Expr) : Widened narrow wide (run.map f) (run'.map f) := by
  cases h with
  | done within fits => exact .done within fits
  | outOfSteps count goesOn alike =>
      refine .outOfSteps count ?_ ?_
      · rwa [steps_map]
      · intro hsame
        rw [alike hsame]
        rfl
  | tooDeep within goesOn =>
      refine .tooDeep within ?_
      rwa [steps_map]

theorem cons {run : Run (allowed - 1)} {run' : Run (more - 1)} (h : Widened narrow wide run run')
    (step : Step) (hallowed : 0 < allowed) (hmore : 0 < more) :
    Widened narrow wide (run.cons step hallowed) (run'.cons step hmore) := by
  cases h with
  | @done steps result within fits =>
      have hcount : (step :: steps).length ≤ allowed := by
        rw [List.length_cons]
        omega
      have hfits : (step :: steps).length ≤ more := by
        rw [List.length_cons]
        omega
      exact .done hcount hfits
  | @outOfSteps steps _ count goesOn alike =>
      refine .outOfSteps ?_ ?_ ?_
      · rw [List.length_cons]
        omega
      · rw [steps_cons]
        exact List.cons_prefix_cons.mpr ⟨rfl, goesOn⟩
      · intro hsame
        rw [alike (by omega)]
        rfl
  | @tooDeep steps _ within goesOn =>
      refine .tooDeep ?_ ?_
      · rw [List.length_cons]
        omega
      · rw [steps_cons]
        exact List.cons_prefix_cons.mpr ⟨rfl, goesOn⟩

/-- A run that comes to a result is continued with what it left, and one that is stopped
is not continued. -/
theorem bind {first : Run allowed} {first' : Run more} (h : Widened narrow wide first first')
    {next : (steps : List Step) → steps.length ≤ allowed → Expr → Run (allowed - steps.length)}
    {next' : (steps : List Step) → steps.length ≤ more → Expr → Run (more - steps.length)}
    (hnext : ∀ steps within fits result,
      Widened narrow wide (next steps within result) (next' steps fits result)) :
    Widened narrow wide (first.bind next) (first'.bind next') := by
  cases h with
  | @done steps result within fits =>
      have hsteps := steps_bind_done fits result next'
      have hrest := hnext steps within fits result
      simp only [Run.bind] at hsteps ⊢
      generalize next steps within result = rest at hrest
      generalize next' steps fits result = rest' at hrest hsteps
      cases hrest with
      | done hwithin hfits => exact .done _ _
      | outOfSteps count goesOn alike =>
          refine .outOfSteps ?_ ?_ ?_
          · rw [List.length_append]
            omega
          · rw [hsteps]
            exact (List.prefix_append_right_inj steps).mpr goesOn
          · intro hsame
            rw [alike (by omega)]
      | tooDeep hwithin goesOn =>
          refine .tooDeep ?_ ?_
          · rw [List.length_append]
            omega
          · rw [hsteps]
            exact (List.prefix_append_right_inj steps).mpr goesOn
  | outOfSteps count goesOn alike =>
      refine .outOfSteps count (goesOn.trans (prefix_steps_bind _ _)) ?_
      intro hsame
      rw [alike hsame]
      rfl
  | tooDeep within goesOn => exact .tooDeep within (goesOn.trans (prefix_steps_bind _ _))

end Widened

end Run

structure SimplifyOptions.Deepens (narrow wide : SimplifyOptions) : Prop where
  regroup : wide.regroup = narrow.regroup
  depth : narrow.maxDepth ≤ wide.maxDepth

mutual

theorem widened_simplifyAt {narrow wide : SimplifyOptions} (wider : narrow.Deepens wide)
    (depth : Nat) {allowed more : Nat} (h : allowed ≤ more) (e : Expr) :
    Run.Widened narrow wide (simplifyAt narrow depth allowed e) (simplifyAt wide depth more e) := by
  rw [simplifyAt]
  split
  · exact .tooDeep (Nat.zero_le _) (List.nil_prefix)
  · rename_i hdepth
    have hshallow : ¬ wide.maxDepth < depth := by
      have := wider.depth
      omega
    rw [simplifyAt, if_neg hshallow, wider.regroup]
    cases hfire : Rule.fireFirst? (Rule.table narrow.regroup) e with
    | some fired =>
        obtain ⟨step, reduct⟩ := fired
        dsimp only
        split
        · rename_i hallowed
          have hfewer := narrow.callsLeft_fewer depth (Nat.sub_lt hallowed Nat.one_pos)
          have hmore : 0 < more := Nat.lt_of_lt_of_le hallowed h
          rw [dif_pos hmore]
          apply Run.Widened.cons
          exact widened_simplifyAt wider depth (Nat.sub_le_sub_right h 1) reduct
        · rename_i hnone
          refine .outOfSteps ?_ ?_ ?_
          · simp only [List.length_singleton]
            omega
          · split
            · rw [Run.steps_cons]
              exact List.cons_prefix_cons.mpr ⟨rfl, List.nil_prefix⟩
            · exact List.prefix_rfl
          · intro hsame
            rw [dif_neg (by omega)]
    | none =>
        have hdeeper := narrow.callsLeft_deeper allowed (Nat.le_of_not_lt hdepth)
        apply Run.Widened.bind (widened_simplifyOperands wider (depth + 1) h e)
        intro steps within fits rebuilt
        split
        · exact .done _ _
        · rename_i hsome
          have htaken := List.length_pos_iff.mpr hsome
          have hfewer := narrow.callsLeft_fewer depth
            (show allowed - steps.length < allowed by omega)
          exact widened_simplifyAt wider depth (Nat.sub_le_sub_right h steps.length) rebuilt
termination_by 2 * narrow.callsLeft depth allowed
decreasing_by
  all_goals omega

theorem widened_simplifyOperands {narrow wide : SimplifyOptions} (wider : narrow.Deepens wide)
    (depth : Nat) {allowed more : Nat} (h : allowed ≤ more) (e : Expr) :
    Run.Widened narrow wide (simplifyOperands narrow depth allowed e)
      (simplifyOperands wide depth more e) := by
  cases e with
  | literal value =>
      rw [simplifyOperands, simplifyOperands]
      exact .done _ _
  | var name =>
      rw [simplifyOperands, simplifyOperands]
      exact .done _ _
  | neg operand =>
      rw [simplifyOperands, simplifyOperands]
      exact (widened_simplifyAt wider depth h operand).map .neg
  | call func operand =>
      rw [simplifyOperands, simplifyOperands]
      exact (widened_simplifyAt wider depth h operand).map (.call func)
  | binary op lhs rhs =>
      rw [simplifyOperands, simplifyOperands]
      apply (widened_simplifyAt wider depth h lhs).bind
      intro steps within fits left
      have hfewer := narrow.callsLeft_mono depth (Nat.sub_le allowed steps.length)
      exact (widened_simplifyAt wider depth (Nat.sub_le_sub_right h steps.length) rhs).map
        (.binary op left)
termination_by 2 * narrow.callsLeft depth allowed + 1
decreasing_by
  all_goals omega

end

theorem widened_simplify {narrow wide : SimplifyOptions} (wider : narrow.Deepens wide)
    (longer : narrow.maxSteps ≤ wide.maxSteps) (e : Expr) :
    Run.Widened narrow wide (simplify narrow e) (simplify wide e) :=
  widened_simplifyAt wider 1 longer e

theorem height_le_of_result {options : SimplifyOptions} {e r : Expr}
    (h : (simplify options e).result = .ok r) : r.height ≤ options.maxDepth := by
  obtain ⟨log, reach, hlog, -, -, hreach⟩ :=
    (simplify_yields_iff options e r _).mp ((Run.yields_iff _ _ _).mpr ⟨rfl, h⟩)
  exact Nat.le_trans hlog.irreducible.2 hreach

/-- The limits only cut a run short. Of two runs under the same rules, the second with
wider limits: if the first comes to a result, the second comes to the same one with the
same steps, and the result and the steps are within the narrower limits. If the first is
stopped for its steps, it has recorded one more than its limit, the second goes on from
there, and with the greater depth alone it is stopped in the same way. If the first is
stopped for its depth, it has kept to its steps, and the second goes on from there. -/
theorem simplify_limits_only_cut {narrow wide : SimplifyOptions}
    (regroup : wide.regroup = narrow.regroup) (deeper : narrow.maxDepth ≤ wide.maxDepth)
    (longer : narrow.maxSteps ≤ wide.maxSteps) (e : Expr) :
    (∀ r, (simplify narrow e).result = .ok r →
      (simplify wide e).result = .ok r ∧ (simplify wide e).steps = (simplify narrow e).steps ∧
        r.depth ≤ narrow.maxDepth ∧ (simplify narrow e).steps.length ≤ narrow.maxSteps) ∧
    (∀ limit, (simplify narrow e).result = .error (.stepLimitExceeded limit) →
      limit = narrow.maxSteps ∧ (simplify narrow e).steps.length = narrow.maxSteps + 1 ∧
        (simplify narrow e).steps <+: (simplify wide e).steps ∧
        (simplify { wide with maxSteps := narrow.maxSteps } e).result =
          .error (.stepLimitExceeded limit) ∧
        (simplify { wide with maxSteps := narrow.maxSteps } e).steps =
          (simplify narrow e).steps) ∧
    (∀ limit, (simplify narrow e).result = .error (.recursionLimitExceeded limit) →
      limit = narrow.maxDepth ∧ (simplify narrow e).steps.length ≤ narrow.maxSteps ∧
        (simplify narrow e).steps <+: (simplify wide e).steps) := by
  have hwidened := widened_simplify ⟨regroup, deeper⟩ longer e
  have hdeepened := @widened_simplify narrow { wide with maxSteps := narrow.maxSteps }
    ⟨regroup, deeper⟩ (Nat.le_refl narrow.maxSteps) e
  have hheight := fun r => @height_le_of_result narrow e r
  generalize simplify narrow e = run at hwidened hdeepened hheight
  generalize simplify wide e = run' at hwidened
  generalize simplify { wide with maxSteps := narrow.maxSteps } e = deep at hdeepened
  refine ⟨?_, ?_, ?_⟩
  · intro r hresult
    have hdepth : r.depth ≤ narrow.maxDepth := r.depth_eq_height ▸ hheight r hresult
    cases hwidened with
    | done within fits => exact ⟨hresult, rfl, hdepth, within⟩
    | _ => cases hresult
  · intro limit hresult
    cases hwidened with
    | outOfSteps count goesOn alike =>
        cases hresult
        cases hdeepened with
        | outOfSteps _ _ alike' =>
            rw [alike' rfl]
            exact ⟨rfl, count, goesOn, rfl, rfl⟩
    | _ => cases hresult
  · intro limit hresult
    cases hwidened with
    | tooDeep within goesOn =>
        cases hresult
        exact ⟨rfl, within, goesOn⟩
    | _ => cases hresult

/-- The sum of four numbers takes three steps. A run with two is stopped after the third,
and one that may not look at the innermost sum is stopped before the first. -/
theorem simplify_limits_only_cut_sum :
    let sum : Expr := .add (.add (.add (.literal 1) (.literal 2)) (.literal 3)) (.literal 4)
    (simplify ⟨3, 2, false⟩ sum).result = .error (.stepLimitExceeded 2) ∧
      (simplify ⟨3, 2, false⟩ sum).steps <+: (simplify ⟨5, 3, false⟩ sum).steps ∧
      (simplify ⟨5, 2, false⟩ sum).result = .error (.stepLimitExceeded 2) ∧
      (simplify ⟨2, 3, false⟩ sum).result = .error (.recursionLimitExceeded 2) ∧
      (simplify ⟨2, 3, false⟩ sum).steps <+: (simplify ⟨5, 3, false⟩ sum).steps ∧
      (simplify ⟨3, 3, false⟩ sum).result = .ok (.literal 10) ∧
      (simplify ⟨5, 3, false⟩ sum).result = .ok (.literal 10) := by
  intro sum
  have hshort : (simplify ⟨3, 2, false⟩ sum).result = .error (.stepLimitExceeded 2) := by
    decide +kernel
  have hshallow : (simplify ⟨2, 3, false⟩ sum).result = .error (.recursionLimitExceeded 2) := by
    decide +kernel
  have hdone : (simplify ⟨3, 3, false⟩ sum).result = .ok (.literal 10) := by decide +kernel
  have hcut := @simplify_limits_only_cut ⟨3, 2, false⟩ ⟨5, 3, false⟩ rfl (by decide) (by decide) sum
  have hcut' := @simplify_limits_only_cut ⟨2, 3, false⟩ ⟨5, 3, false⟩ rfl (by decide) (by decide) sum
  have hwhole := @simplify_limits_only_cut ⟨3, 3, false⟩ ⟨5, 3, false⟩ rfl (by decide) (by decide) sum
  obtain ⟨-, -, hprefix, hstopped, -⟩ := hcut.2.1 2 hshort
  obtain ⟨-, -, hprefix'⟩ := hcut'.2.2 2 hshallow
  obtain ⟨hresult, -, -, -⟩ := hwhole.1 _ hdone
  exact ⟨hshort, hprefix, hstopped, hshallow, hprefix', hdone, hresult⟩

end Formula
