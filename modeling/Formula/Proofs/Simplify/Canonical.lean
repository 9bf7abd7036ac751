import Formula.Proofs.Reduction.Shape
import Formula.Proofs.Simplify.FixedPoint

/-!
Canonical form. Simplification ends with an expression in which no rule applies anywhere,
and those are the expressions in which every node has its shape. So results are canonical,
and what is canonical is its own result.
-/

namespace Formula

namespace Expr

variable {regroup : Bool} {e : Expr}

theorem IsCanonical.of_irreducible (h : e.Irreducible regroup) : e.IsCanonical regroup := by
  have htidy : ∀ s ∈ e.subexpressions, s.isTidy = true := by
    intro s member
    have hnone := Rule.fireFirst?_eq_none_iff.mp (h.without_regrouping s member)
    exact Reduction.isTidy_of_inert hnone
  intro s member
  refine ⟨htidy s member, ?_⟩
  rintro rfl
  have hnone := Rule.fireFirst?_eq_none_iff.mp (h s member)
  apply Reduction.isGrouped_of_inert
  · intro rule hrule
    exact hnone rule (List.mem_append_right Rule.basic hrule)
  · intro c child
    exact htidy c (child_mem_subexpressions member child)

/-- The canonical expressions are those in which no rule applies anywhere. -/
theorem irreducible_iff_isCanonical : e.Irreducible regroup ↔ e.IsCanonical regroup := by
  constructor
  · exact IsCanonical.of_irreducible
  · intro h s member
    obtain ⟨tidy, grouped⟩ := h s member
    exact Rule.fireFirst?_eq_none_of_shape tidy grouped

end Expr

theorem irreducible_of_result {options : SimplifyOptions} {e r : Expr}
    (h : (simplify options e).result = .ok r) : r.Irreducible options.regroup := by
  obtain ⟨log, reach, hlog, -, -, -⟩ :=
    (simplify_yields_iff options e r _).mp ((Run.yields_iff _ _ _).mpr ⟨rfl, h⟩)
  exact hlog.irreducible.1

/-- Every result is in canonical form, and an expression in canonical form that is no
deeper than the limit is given back as it is, without a step. -/
theorem simplify_isCanonical (options : SimplifyOptions) :
    (∀ e r, (simplify options e).result = .ok r → r.IsCanonical options.regroup) ∧
      ∀ e : Expr, e.IsCanonical options.regroup → e.depth ≤ options.maxDepth →
        (simplify options e).result = .ok e ∧ (simplify options e).steps = [] := by
  constructor
  · intro e r h
    exact .of_irreducible (irreducible_of_result h)
  · intro e canonical shallow
    rw [Expr.depth_eq_height] at shallow
    exact simplify_of_irreducible options (Expr.irreducible_iff_isCanonical.mpr canonical) shallow

/-- `x + 2 + 3` becomes `x + 5`, which is canonical and stays as it is. -/
theorem simplify_isCanonical_sum :
    (simplify ⟨2, 3, true⟩ (.add (.add (.var 'x') (.literal 2)) (.literal 3))).result =
        .ok (.add (.var 'x') (.literal 5)) ∧
      (Expr.add (.var 'x') (.literal 5)).IsCanonical true ∧
      (simplify ⟨2, 3, true⟩ (.add (.var 'x') (.literal 5))).result =
        .ok (.add (.var 'x') (.literal 5)) := by
  have hturned : Rule.fireFirst? (Rule.table true)
      (.add (.add (.var 'x') (.literal 2)) (.literal 3)) =
        some (.regroupVariable, .add (.add (.literal 3) (.literal 2)) (.var 'x')) := by
    decide +kernel
  have hsum : Simplifies true .whole (.add (.literal 3) (.literal 2))
      [⟨.foldConstants, .add (.literal 3) (.literal 2), .literal 5⟩] 1 (.literal 5) :=
    .contract (by decide +kernel) (.settle (by decide +kernel) (.literal 5))
  have hmoved : Rule.fireFirst? (Rule.table true) (.add (.literal 5) (.var 'x')) =
      some (.moveLiteralRight, .add (.var 'x') (.literal 5)) := by decide +kernel
  have hsettled : Simplifies true .whole (.add (.var 'x') (.literal 5)) [] 2 _ :=
    .settle (by decide +kernel) <|
      .binary .add (.settle rfl (.var 'x')) (.settle (by decide +kernel) (.literal 5))
  have hlog : Simplifies true .whole (.add (.add (.var 'x') (.literal 2)) (.literal 3)) _ 2
      (.add (.var 'x') (.literal 5)) :=
    .contract hturned <|
      .resume (by decide +kernel) (.binary .add hsum (.settle rfl (.var 'x')))
        (List.cons_ne_nil _ _) (.contract hmoved hsettled)
  have hyields := (simplify_yields_iff ⟨2, 3, true⟩ _ _ _).mpr
    ⟨_, 2, hlog, rfl, Nat.le_refl 3, Nat.le_refl 2⟩
  have hresult := ((Run.yields_iff _ _ _).mp hyields).2
  have hcanonical := (simplify_isCanonical ⟨2, 3, true⟩).1 _ _ hresult
  have hdepth : (Expr.add (.var 'x') (.literal 5)).depth ≤ 2 := by
    rw [Expr.depth_eq_height]
    exact Nat.le_refl 2
  exact ⟨hresult, hcanonical, ((simplify_isCanonical ⟨2, 3, true⟩).2 _ hcanonical hdepth).1⟩

end Formula
