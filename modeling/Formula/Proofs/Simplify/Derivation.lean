import Formula.Simplify

/-!
Derivations: how a simplification goes, without its limits. `Simplifies` follows the
procedure rule by rule, keeps every rule application with the subexpression that it was
applied to, and measures how far down it went. A run comes to a result exactly if there
is a derivation that needs no more steps and goes no deeper than the run may, and then
it has the steps and the result of the derivation. So what holds of derivations holds
of runs, whatever their limits.
-/

namespace Formula

structure Contraction where
  step : Step
  redex : Expr
  reduct : Expr

inductive Scope where
  | whole
  | operands

/-- `Simplifies regroup scope e log reach r`: the simplification of `e` makes the rule
applications of `log`, in this order, and ends with `r`. It looks at `reach` levels of
nodes, counted from the whole expression or from its operands. -/
inductive Simplifies (regroup : Bool) : Scope → Expr → List Contraction → Nat → Expr → Prop
  | contract {e reduct result : Expr} {step : Step} {log : List Contraction} {reach : Nat}
      (fires : Rule.fireFirst? (Rule.table regroup) e = some (step, reduct))
      (rest : Simplifies regroup .whole reduct log reach result) :
      Simplifies regroup .whole e (⟨step, e, reduct⟩ :: log) reach result
  | settle {e rebuilt : Expr} {reach : Nat}
      (inert : Rule.fireFirst? (Rule.table regroup) e = none)
      (below : Simplifies regroup .operands e [] reach rebuilt) :
      Simplifies regroup .whole e [] (reach + 1) e
  | resume {e rebuilt result : Expr} {log more : List Contraction} {reach further : Nat}
      (inert : Rule.fireFirst? (Rule.table regroup) e = none)
      (below : Simplifies regroup .operands e log reach rebuilt) (changed : log ≠ [])
      (rest : Simplifies regroup .whole rebuilt more further result) :
      Simplifies regroup .whole e (log ++ more) (max (reach + 1) further) result
  | literal (value : Float) : Simplifies regroup .operands (.literal value) [] 0 (.literal value)
  | var (name : Char) : Simplifies regroup .operands (.var name) [] 0 (.var name)
  | neg {a a' : Expr} {log : List Contraction} {reach : Nat}
      (operand : Simplifies regroup .whole a log reach a') :
      Simplifies regroup .operands (.neg a) log reach (.neg a')
  | call {a a' : Expr} {log : List Contraction} {reach : Nat} (func : Func)
      (operand : Simplifies regroup .whole a log reach a') :
      Simplifies regroup .operands (.call func a) log reach (.call func a')
  | binary {a a' b b' : Expr} {log more : List Contraction} {reach further : Nat} (op : BinaryOp)
      (lhs : Simplifies regroup .whole a log reach a')
      (rhs : Simplifies regroup .whole b more further b') :
      Simplifies regroup .operands (.binary op a b) (log ++ more) (max reach further)
        (.binary op a' b')

namespace Run

variable {allowed : Nat}

def Yields (run : Run allowed) (steps : List Step) (result : Expr) : Prop :=
  ∃ within, run = .done steps within result

theorem yields_iff (run : Run allowed) (steps : List Step) (result : Expr) :
    run.Yields steps result ↔ run.steps = steps ∧ run.result = .ok result := by
  cases run with
  | done own within value =>
      constructor
      · rintro ⟨_, h⟩
        cases h
        exact ⟨rfl, rfl⟩
      · rintro ⟨rfl, h⟩
        cases h
        exact ⟨within, rfl⟩
  | stopped own error =>
      constructor
      · rintro ⟨_, h⟩
        cases h
      · rintro ⟨_, h⟩
        cases h

theorem yields_done_iff {own steps : List Step} {within : own.length ≤ allowed}
    {value result : Expr} :
    (Run.done own within value).Yields steps result ↔ own = steps ∧ value = result := by
  simp only [yields_iff, Run.steps, Run.result, Except.ok.injEq]

theorem not_yields_stopped {own steps : List Step} {error : SimplifyError} {result : Expr} :
    ¬ (Run.stopped own error : Run allowed).Yields steps result := by
  rintro ⟨_, h⟩
  cases h

theorem yields_map_iff {f : Expr → Expr} {run : Run allowed} {steps : List Step} {result : Expr} :
    (run.map f).Yields steps result ↔ ∃ inner, run.Yields steps inner ∧ f inner = result := by
  cases run with
  | done own within value =>
      simp only [Run.map, yields_done_iff]
      constructor
      · rintro ⟨hsteps, hvalue⟩
        exact ⟨value, ⟨hsteps, rfl⟩, hvalue⟩
      · rintro ⟨inner, ⟨hsteps, rfl⟩, hvalue⟩
        exact ⟨hsteps, hvalue⟩
  | stopped own error => simp only [Run.map, not_yields_stopped, false_and, exists_false]

theorem yields_cons_iff {step : Step} {h : 0 < allowed} {run : Run (allowed - 1)}
    {steps : List Step} {result : Expr} :
    (run.cons step h).Yields steps result ↔ ∃ rest, run.Yields rest result ∧ step :: rest = steps := by
  cases run with
  | done own within value =>
      simp only [Run.cons, yields_done_iff]
      constructor
      · rintro ⟨hsteps, hvalue⟩
        exact ⟨own, ⟨rfl, hvalue⟩, hsteps⟩
      · rintro ⟨rest, ⟨rfl, hvalue⟩, hsteps⟩
        exact ⟨hsteps, hvalue⟩
  | stopped own error => simp only [Run.cons, not_yields_stopped, false_and, exists_false]

theorem yields_bind_iff {first : Run allowed}
    {next : (steps : List Step) → steps.length ≤ allowed → Expr → Run (allowed - steps.length)}
    {steps : List Step} {result : Expr} :
    (first.bind next).Yields steps result ↔
      ∃ own within value more, first = .done own within value ∧
        (next own within value).Yields more result ∧ own ++ more = steps := by
  cases first with
  | done own within value =>
      cases hnext : next own within value with
      | done more fits final =>
          simp only [Run.bind, hnext, yields_done_iff]
          constructor
          · rintro ⟨hsteps, hfinal⟩
            refine ⟨own, within, value, more, rfl, ?_, hsteps⟩
            rw [hnext, yields_done_iff]
            exact ⟨rfl, hfinal⟩
          · rintro ⟨_, _, _, tail, h, hyields, hsteps⟩
            cases h
            rw [hnext, yields_done_iff] at hyields
            obtain ⟨rfl, hfinal⟩ := hyields
            exact ⟨hsteps, hfinal⟩
      | stopped more error =>
          simp only [Run.bind, hnext, not_yields_stopped, false_iff]
          rintro ⟨_, _, _, tail, h, hyields, -⟩
          cases h
          rw [hnext] at hyields
          exact not_yields_stopped hyields
  | stopped own error =>
      simp only [Run.bind, not_yields_stopped, false_iff]
      rintro ⟨_, _, _, _, h, -⟩
      cases h

end Run

namespace Simplifies

variable {regroup : Bool}

theorem reach_pos {scope : Scope} {e r : Expr} {log : List Contraction} {reach : Nat}
    (h : Simplifies regroup scope e log reach r) (whole : scope = .whole) : 0 < reach := by
  induction h with
  | contract fires rest ih => exact ih rfl
  | settle inert below ih => exact Nat.succ_pos _
  | resume inert below changed rest ihb ihr =>
      have := ihr rfl
      omega
  | literal _ => cases whole
  | var _ => cases whole
  | neg _ _ => cases whole
  | call _ _ _ => cases whole
  | binary _ _ _ _ _ => cases whole

end Simplifies

def Scope.run (options : SimplifyOptions) (depth allowed : Nat) (e : Expr) : Scope → Run allowed
  | .whole => simplifyAt options depth allowed e
  | .operands => simplifyOperands options depth allowed e

theorem yields_of_simplifies (options : SimplifyOptions) {scope : Scope} {e r : Expr}
    {log : List Contraction} {reach : Nat}
    (h : Simplifies options.regroup scope e log reach r) (depth allowed : Nat)
    (fits : log.length ≤ allowed) (shallow : depth + reach ≤ options.maxDepth + 1) :
    (scope.run options depth allowed e).Yields (log.map (·.step)) r := by
  induction h generalizing depth allowed with
  | @contract e reduct result step log reach fires rest ih =>
      have hreach := rest.reach_pos rfl
      have hdepth : ¬ options.maxDepth < depth := by omega
      have hallowed : 0 < allowed := by
        rw [List.length_cons] at fits
        omega
      simp only [Scope.run]
      rw [simplifyAt]
      simp only [if_neg hdepth, fires, dif_pos hallowed, Run.yields_cons_iff]
      exact ⟨_, ih depth (allowed - 1) (by rw [List.length_cons] at fits; omega) shallow, rfl⟩
  | @settle e rebuilt reach inert below ih =>
      have hdepth : ¬ options.maxDepth < depth := by omega
      obtain ⟨within, hbelow⟩ := ih (depth + 1) allowed fits (by omega)
      simp only [Scope.run] at hbelow ⊢
      rw [simplifyAt]
      simp only [if_neg hdepth, inert, Run.yields_bind_iff]
      exact ⟨_, within, rebuilt, [], hbelow, by simp [Run.yields_done_iff], rfl⟩
  | @resume e rebuilt result log more reach further inert below changed rest ihb ihr =>
      have hdepth : ¬ options.maxDepth < depth := by omega
      rw [List.length_append] at fits
      obtain ⟨within, hbelow⟩ := ihb (depth + 1) allowed (by omega) (by omega)
      have hsteps : log.map (·.step) ≠ [] := by simpa using changed
      have hrest := ihr depth (allowed - (log.map (·.step)).length)
        (by rw [List.length_map]; omega) (by omega)
      simp only [Scope.run] at hbelow hrest ⊢
      rw [simplifyAt]
      simp only [if_neg hdepth, inert, Run.yields_bind_iff]
      refine ⟨_, within, rebuilt, more.map (·.step), hbelow, ?_, by rw [List.map_append]⟩
      rw [if_neg hsteps]
      exact hrest
  | literal value =>
      simp only [Scope.run]
      rw [simplifyOperands]
      exact ⟨_, rfl⟩
  | var name =>
      simp only [Scope.run]
      rw [simplifyOperands]
      exact ⟨_, rfl⟩
  | neg operand ih =>
      simp only [Scope.run] at ih ⊢
      rw [simplifyOperands, Run.yields_map_iff]
      exact ⟨_, ih depth allowed fits shallow, rfl⟩
  | call func operand ih =>
      simp only [Scope.run] at ih ⊢
      rw [simplifyOperands, Run.yields_map_iff]
      exact ⟨_, ih depth allowed fits shallow, rfl⟩
  | @binary a a' b b' log more reach further op lhs rhs ihl ihr =>
      rw [List.length_append] at fits
      obtain ⟨within, hleft⟩ := ihl depth allowed (by omega) (by omega)
      have hright := ihr depth (allowed - (log.map (·.step)).length)
        (by rw [List.length_map]; omega) (by omega)
      simp only [Scope.run] at hleft hright ⊢
      rw [simplifyOperands, Run.yields_bind_iff]
      refine ⟨_, within, a', more.map (·.step), hleft, ?_, by rw [List.map_append]⟩
      rw [Run.yields_map_iff]
      exact ⟨b', hright, rfl⟩

/-- There is one derivation for an expression at most. -/
theorem Simplifies.unique {regroup : Bool} {scope : Scope} {e r r' : Expr}
    {log log' : List Contraction} {reach reach' : Nat}
    (h : Simplifies regroup scope e log reach r) (h' : Simplifies regroup scope e log' reach' r') :
    log = log' ∧ reach = reach' ∧ r = r' := by
  induction h generalizing log' reach' r' with
  | contract fires rest ih =>
      cases h' with
      | contract fires' rest' =>
          cases fires.symm.trans fires'
          obtain ⟨rfl, rfl, rfl⟩ := ih rest'
          exact ⟨rfl, rfl, rfl⟩
      | settle inert => cases fires.symm.trans inert
      | resume inert => cases fires.symm.trans inert
  | settle inert below ih =>
      cases h' with
      | contract fires => cases fires.symm.trans inert
      | settle inert' below' =>
          obtain ⟨-, rfl, -⟩ := ih below'
          exact ⟨rfl, rfl, rfl⟩
      | resume inert' below' changed => exact absurd (ih below').1.symm changed
  | resume inert below changed rest ihb ihr =>
      cases h' with
      | contract fires => cases fires.symm.trans inert
      | settle inert' below' => exact absurd (ihb below').1 changed
      | resume inert' below' changed' rest' =>
          obtain ⟨rfl, rfl, rfl⟩ := ihb below'
          obtain ⟨rfl, rfl, rfl⟩ := ihr rest'
          exact ⟨rfl, rfl, rfl⟩
  | literal value =>
      cases h'
      exact ⟨rfl, rfl, rfl⟩
  | var name =>
      cases h'
      exact ⟨rfl, rfl, rfl⟩
  | neg operand ih =>
      cases h' with
      | neg operand' =>
          obtain ⟨rfl, rfl, rfl⟩ := ih operand'
          exact ⟨rfl, rfl, rfl⟩
  | call func operand ih =>
      cases h' with
      | call func operand' =>
          obtain ⟨rfl, rfl, rfl⟩ := ih operand'
          exact ⟨rfl, rfl, rfl⟩
  | binary op lhs rhs ihl ihr =>
      cases h' with
      | binary op lhs' rhs' =>
          obtain ⟨rfl, rfl, rfl⟩ := ihl lhs'
          obtain ⟨rfl, rfl, rfl⟩ := ihr rhs'
          exact ⟨rfl, rfl, rfl⟩

mutual

theorem exists_simplifies_of_simplifyAt (options : SimplifyOptions) (depth allowed : Nat)
    (e : Expr) {steps : List Step} {r : Expr}
    (h : (simplifyAt options depth allowed e).Yields steps r) :
    ∃ log reach, Simplifies options.regroup .whole e log reach r ∧ log.map (·.step) = steps ∧
      depth + reach ≤ options.maxDepth + 1 := by
  rw [simplifyAt] at h
  split at h
  · exact absurd h Run.not_yields_stopped
  · rename_i hdepth
    split at h
    · rename_i step reduct fires
      split at h
      · rename_i hallowed
        obtain ⟨rest, hrest, rfl⟩ := Run.yields_cons_iff.mp h
        have hfewer := options.callsLeft_fewer depth (Nat.sub_lt hallowed Nat.one_pos)
        obtain ⟨log, reach, hlog, rfl, hreach⟩ :=
          exists_simplifies_of_simplifyAt options depth (allowed - 1) reduct hrest
        exact ⟨⟨step, e, reduct⟩ :: log, reach, .contract fires hlog, rfl, hreach⟩
      · exact absurd h Run.not_yields_stopped
    · rename_i inert
      obtain ⟨own, within, rebuilt, more, hbelow, hnext, rfl⟩ := Run.yields_bind_iff.mp h
      have hdeeper := options.callsLeft_deeper allowed (Nat.le_of_not_lt hdepth)
      obtain ⟨log, reach, hlog, hsteps, hreach⟩ :=
        exists_simplifies_of_simplifyOperands options (depth + 1) allowed e (by omega)
          ⟨within, hbelow⟩
      split at hnext
      · rename_i hnone
        obtain ⟨rfl, rfl⟩ := Run.yields_done_iff.mp hnext
        rw [hnone, List.map_eq_nil_iff] at hsteps
        subst hsteps
        exact ⟨[], reach + 1, .settle inert hlog, by rw [hnone]; rfl, by omega⟩
      · rename_i hsome
        have htaken := List.length_pos_iff.mpr hsome
        have hfewer := options.callsLeft_fewer depth
          (show allowed - own.length < allowed by omega)
        obtain ⟨tail, further, htail, rfl, hfurther⟩ :=
          exists_simplifies_of_simplifyAt options depth (allowed - own.length) rebuilt hnext
        have changed : log ≠ [] := by
          intro hnil
          rw [hnil] at hsteps
          exact hsome hsteps.symm
        refine ⟨log ++ tail, max (reach + 1) further, .resume inert hlog changed htail, ?_, ?_⟩
        · rw [List.map_append, hsteps]
        · omega
termination_by 2 * options.callsLeft depth allowed
decreasing_by
  all_goals omega

theorem exists_simplifies_of_simplifyOperands (options : SimplifyOptions) (depth allowed : Nat)
    (e : Expr) {steps : List Step} {r : Expr} (shallow : depth ≤ options.maxDepth + 1)
    (h : (simplifyOperands options depth allowed e).Yields steps r) :
    ∃ log reach, Simplifies options.regroup .operands e log reach r ∧
      log.map (·.step) = steps ∧ depth + reach ≤ options.maxDepth + 1 := by
  cases e with
  | literal value =>
      rw [simplifyOperands, Run.yields_done_iff] at h
      obtain ⟨rfl, rfl⟩ := h
      exact ⟨[], 0, .literal value, rfl, shallow⟩
  | var name =>
      rw [simplifyOperands, Run.yields_done_iff] at h
      obtain ⟨rfl, rfl⟩ := h
      exact ⟨[], 0, .var name, rfl, shallow⟩
  | neg operand =>
      rw [simplifyOperands, Run.yields_map_iff] at h
      obtain ⟨inner, hinner, rfl⟩ := h
      obtain ⟨log, reach, hlog, hsteps, hreach⟩ :=
        exists_simplifies_of_simplifyAt options depth allowed operand hinner
      exact ⟨log, reach, .neg hlog, hsteps, hreach⟩
  | call func operand =>
      rw [simplifyOperands, Run.yields_map_iff] at h
      obtain ⟨inner, hinner, rfl⟩ := h
      obtain ⟨log, reach, hlog, hsteps, hreach⟩ :=
        exists_simplifies_of_simplifyAt options depth allowed operand hinner
      exact ⟨log, reach, .call func hlog, hsteps, hreach⟩
  | binary op lhs rhs =>
      rw [simplifyOperands, Run.yields_bind_iff] at h
      obtain ⟨own, within, left, more, hleft, hmore, rfl⟩ := h
      rw [Run.yields_map_iff] at hmore
      obtain ⟨right, hright, rfl⟩ := hmore
      obtain ⟨log, reach, hlog, hsteps, hreach⟩ :=
        exists_simplifies_of_simplifyAt options depth allowed lhs ⟨within, hleft⟩
      have hfewer := options.callsLeft_mono depth (Nat.sub_le allowed own.length)
      obtain ⟨tail, further, htail, hrest, hfurther⟩ :=
        exists_simplifies_of_simplifyAt options depth (allowed - own.length) rhs hright
      refine ⟨log ++ tail, max reach further, .binary op hlog htail, ?_, by omega⟩
      rw [List.map_append, hsteps, hrest]
termination_by 2 * options.callsLeft depth allowed + 1
decreasing_by
  all_goals omega

end

/-- A run comes to a result exactly if there is a derivation of it within the limits,
and the run takes the steps of the derivation. -/
theorem simplify_yields_iff (options : SimplifyOptions) (e r : Expr) (steps : List Step) :
    (simplify options e).Yields steps r ↔
      ∃ log reach, Simplifies options.regroup .whole e log reach r ∧ log.map (·.step) = steps ∧
        log.length ≤ options.maxSteps ∧ reach ≤ options.maxDepth := by
  constructor
  · intro h
    obtain ⟨log, reach, hlog, rfl, hreach⟩ :=
      exists_simplifies_of_simplifyAt options 1 options.maxSteps e h
    obtain ⟨within, -⟩ := h
    rw [List.length_map] at within
    exact ⟨log, reach, hlog, rfl, within, by omega⟩
  · rintro ⟨log, reach, hlog, rfl, fits, shallow⟩
    exact yields_of_simplifies options hlog 1 options.maxSteps fits (by omega)

end Formula
