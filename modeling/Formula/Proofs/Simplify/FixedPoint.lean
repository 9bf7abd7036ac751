import Formula.Proofs.Simplify.Termination

/-!
Results are fixed points. The end of a derivation is an expression in which no rule
applies anywhere, and the derivation looked at every level of it; so a second run has
nothing to do, and its limits are those under which the first run succeeded.
-/

namespace Formula

namespace Expr

def Irreducible (regroup : Bool) (e : Expr) : Prop :=
  ∀ s ∈ e.subexpressions, Rule.fireFirst? (Rule.table regroup) s = none

theorem irreducible_iff {regroup : Bool} {e : Expr} :
    e.Irreducible regroup ↔
      Rule.fireFirst? (Rule.table regroup) e = none ∧ ∀ c ∈ e.children, c.Irreducible regroup := by
  cases e with
  | literal value => simp [Irreducible, subexpressions, children]
  | var name => simp [Irreducible, subexpressions, children]
  | neg operand => simp [Irreducible, subexpressions, children, or_imp, forall_and, and_comm]
  | call func operand => simp [Irreducible, subexpressions, children, or_imp, forall_and, and_comm]
  | binary op lhs rhs =>
      simp only [Irreducible, subexpressions, children, List.mem_append, List.mem_cons,
        List.not_mem_nil, or_false, or_imp, forall_and, forall_eq]
      constructor
      · rintro ⟨⟨hleft, hright⟩, hwhole⟩
        exact ⟨hwhole, hleft, hright⟩
      · rintro ⟨hwhole, hleft, hright⟩
        exact ⟨⟨hleft, hright⟩, hwhole⟩

theorem height_le_succ_iff {e : Expr} {levels : Nat} :
    e.height ≤ levels + 1 ↔ ∀ c ∈ e.children, c.height ≤ levels := by
  cases e <;> simp [height, children]

/-- Fewer rules apply without regrouping. -/
theorem Irreducible.without_regrouping {regroup : Bool} {e : Expr} (h : e.Irreducible regroup) :
    e.Irreducible false := by
  intro s member
  have hnone := h s member
  cases regroup with
  | false => exact hnone
  | true =>
      simp only [Rule.fireFirst?, Rule.table, ↓reduceIte, List.findSome?_eq_none_iff,
        List.mem_append] at hnone
      simp only [Rule.fireFirst?, Rule.table, Bool.false_eq_true, ↓reduceIte,
        List.findSome?_eq_none_iff]
      intro rule hrule
      exact hnone rule (.inl hrule)

end Expr

namespace Simplifies

variable {regroup : Bool}

/-- What a derivation ends with is irreducible and no higher than the derivation reached.
Of the operands alone, each is. -/
theorem irreducible {scope : Scope} {e r : Expr} {log : List Contraction} {reach : Nat}
    (h : Simplifies regroup scope e log reach r) :
    match scope with
    | .whole => r.Irreducible regroup ∧ r.height ≤ reach
    | .operands => ∀ c ∈ r.children, c.Irreducible regroup ∧ c.height ≤ reach := by
  induction h with
  | contract fires rest ih => exact ih
  | @settle e rebuilt reach inert below ih =>
      obtain ⟨-, rfl⟩ := below.unchanged_or_lower.resolve_right fun h => h.1 rfl
      constructor
      · exact Expr.irreducible_iff.mpr ⟨inert, fun c member => (ih c member).1⟩
      · exact Expr.height_le_succ_iff.mpr fun c member => (ih c member).2
  | resume inert below changed rest ihb ihr => exact ⟨ihr.1, by omega⟩
  | literal value =>
      intro c member
      cases member
  | var name =>
      intro c member
      cases member
  | neg operand ih =>
      intro c member
      rw [List.mem_singleton.mp member]
      exact ih
  | call func operand ih =>
      intro c member
      rw [List.mem_singleton.mp member]
      exact ih
  | binary op lhs rhs ihl ihr =>
      intro c member
      simp only [Expr.children, List.mem_cons, List.not_mem_nil, or_false] at member
      rcases member with rfl | rfl
      · exact ⟨ihl.1, Nat.le_trans ihl.2 (Nat.le_max_left _ _)⟩
      · exact ⟨ihr.1, Nat.le_trans ihr.2 (Nat.le_max_right _ _)⟩

/-- An irreducible expression has the derivation that looks at all of it and does
nothing. -/
theorem of_irreducible {e : Expr} (h : e.Irreducible regroup) :
    Simplifies regroup .whole e [] e.height e := by
  induction e with
  | literal value => exact .settle (Expr.irreducible_iff.mp h).1 (.literal value)
  | var name => exact .settle (Expr.irreducible_iff.mp h).1 (.var name)
  | neg operand ih =>
      obtain ⟨inert, hoperand⟩ := Expr.irreducible_iff.mp h
      exact .settle inert (.neg (ih (hoperand operand (by simp [Expr.children]))))
  | call func operand ih =>
      obtain ⟨inert, hoperand⟩ := Expr.irreducible_iff.mp h
      exact .settle inert (.call func (ih (hoperand operand (by simp [Expr.children]))))
  | binary op lhs rhs ihl ihr =>
      obtain ⟨inert, hoperand⟩ := Expr.irreducible_iff.mp h
      have hleft := ihl (hoperand lhs (by simp [Expr.children]))
      have hright := ihr (hoperand rhs (by simp [Expr.children]))
      exact .settle inert (.binary op hleft hright)

end Simplifies

/-- A run on an irreducible expression that is not too high takes no step. -/
theorem simplify_of_irreducible (options : SimplifyOptions) {e : Expr}
    (h : e.Irreducible options.regroup) (shallow : e.height ≤ options.maxDepth) :
    (simplify options e).result = .ok e ∧ (simplify options e).steps = [] := by
  have hyields := (simplify_yields_iff options e e []).mpr
    ⟨[], e.height, .of_irreducible h, rfl, Nat.zero_le _, shallow⟩
  exact ((Run.yields_iff _ _ _).mp hyields).symm

/-- In the result of a run no rule applies anywhere, and a second run under the same
options, or without regrouping, gives it back without a step. -/
theorem simplify_fixed_point (options : SimplifyOptions) (e r : Expr)
    (h : (simplify options e).result = .ok r) :
    (∀ s ∈ r.subexpressions, Rule.fireFirst? (Rule.table options.regroup) s = none) ∧
      ((simplify options r).result = .ok r ∧ (simplify options r).steps = []) ∧
      (options.regroup = true →
        (simplify { options with regroup := false } r).result = .ok r ∧
          (simplify { options with regroup := false } r).steps = []) := by
  obtain ⟨log, reach, hlog, -, -, hreach⟩ :=
    (simplify_yields_iff options e r _).mp ((Run.yields_iff _ _ _).mpr ⟨rfl, h⟩)
  obtain ⟨hirreducible, hheight⟩ := hlog.irreducible
  have hshallow := Nat.le_trans hheight hreach
  refine ⟨hirreducible, simplify_of_irreducible options hirreducible hshallow, ?_⟩
  intro _
  exact simplify_of_irreducible { options with regroup := false }
    hirreducible.without_regrouping hshallow

/-- `(x - y) - z` becomes `x - (y + z)`, which stays as it is. -/
theorem simplify_fixed_point_difference :
    (simplify ⟨3, 1, true⟩ (.sub (.sub (.var 'x') (.var 'y')) (.var 'z'))).result =
        .ok (.sub (.var 'x') (.add (.var 'y') (.var 'z'))) ∧
      (simplify ⟨3, 1, true⟩ (.sub (.var 'x') (.add (.var 'y') (.var 'z')))).steps = [] := by
  have hlog : Simplifies true .whole (.sub (.sub (.var 'x') (.var 'y')) (.var 'z')) _ 3
      (.sub (.var 'x') (.add (.var 'y') (.var 'z'))) :=
    .contract rfl <| .settle rfl <|
      .binary .sub (.settle rfl (.var 'x')) <| .settle rfl <|
        .binary .add (.settle rfl (.var 'y')) (.settle rfl (.var 'z'))
  have hyields := (simplify_yields_iff ⟨3, 1, true⟩ _ _ _).mpr
    ⟨_, 3, hlog, rfl, Nat.le_refl 1, Nat.le_refl 3⟩
  have h := ((Run.yields_iff _ _ _).mp hyields).2
  exact ⟨h, (simplify_fixed_point _ _ _ h).2.1.2⟩

end Formula
