import Formula.Proofs.Reduction.Exactness
import Formula.Proofs.Simplify.Canonical
import Formula.Proofs.Simplify.Growth

/-!
Expressions without variables. Simplification ends with a literal, since folding applies to
whatever else is left. It is the literal that evaluation comes to, infinite or no number if
that is so, unless a step that is not exact changed what its subexpression comes to. For
each kind of such steps there is a run in which it does and no number is lost by it.
-/

namespace Formula

namespace Expr

/-- An expression comes to a number if no variable occurs in it. -/
theorem isSome_evaluate?_iff (e : Expr) :
    e.evaluate?.isSome = true ↔ ∀ name, e.occurrences name = 0 := by
  induction e with
  | literal value => simp [evaluate?, occurrences]
  | var name =>
      simp only [evaluate?, occurrences, Option.isSome_none, Bool.false_eq_true, false_iff]
      intro h
      exact absurd (h name) (by simp)
  | neg operand ih => simpa [evaluate?, occurrences] using ih
  | call func operand ih => simpa [evaluate?, occurrences] using ih
  | binary op lhs rhs ihl ihr =>
      simp only [evaluate?, occurrences, Nat.add_eq_zero_iff, forall_and, ← ihl, ← ihr]
      cases lhs.evaluate? <;> simp

theorem NoLarger.isSome_evaluate? {r e : Expr} (h : r.NoLarger e)
    (constant : e.evaluate?.isSome = true) : r.evaluate?.isSome = true := by
  rw [isSome_evaluate?_iff] at constant ⊢
  intro name
  have hbound := h.occurrences name
  rw [constant name] at hbound
  exact Nat.le_zero.mp hbound

/-- What is irreducible and has no variables is a literal. -/
theorem Irreducible.eq_literal {regroup : Bool} {e : Expr} {v : Float}
    (h : e.Irreducible regroup) (hv : e.evaluate? = some v) : e = .literal v := by
  have hbasic : ∀ {s : Expr} (rule : Rule), rule ∈ Rule.basic → s.Irreducible regroup →
      rule.reduce s = none := by
    intro s rule member hs
    have hwhole := (irreducible_iff.mp hs.without_regrouping).1
    exact Rule.fireFirst?_eq_none_iff.mp hwhole rule member
  -- The operands are literals, so one of the rules that fold applies to the whole.
  induction e generalizing v with
  | literal value => rw [evaluate?_literal_iff.mp hv]
  | var name => cases hv
  | neg operand ih =>
      obtain ⟨x, hx, -⟩ := evaluate?_neg_iff.mp hv
      have hoperand := ih ((irreducible_iff.mp h).2 operand (by simp [children])) hx
      rw [hoperand] at h
      cases hbasic ⟨.negate, .negateNumber, Reduction.negateNumber⟩ (by simp [Rule.basic]) h
  | call func operand ih =>
      obtain ⟨x, hx, -⟩ := evaluate?_call_iff.mp hv
      have hoperand := ih ((irreducible_iff.mp h).2 operand (by simp [children])) hx
      rw [hoperand] at h
      cases hbasic ⟨.fold, .foldFunction, Reduction.foldFunction⟩ (by simp [Rule.basic]) h
  | binary op lhs rhs ihl ihr =>
      obtain ⟨x, hx, y, hy, -⟩ := evaluate?_binary_iff.mp hv
      have hleft := ihl ((irreducible_iff.mp h).2 lhs (by simp [children])) hx
      have hright := ihr ((irreducible_iff.mp h).2 rhs (by simp [children])) hy
      rw [hleft, hright] at h
      cases hbasic ⟨.fold, .foldConstants, Reduction.foldConstants⟩ (by simp [Rule.basic]) h

end Expr

/-- A derivation whose steps keep what their subexpressions come to keeps what the whole
comes to. -/
theorem evaluate?_of_simplifies {regroup : Bool} {scope : Scope} {e r : Expr}
    {log : List Contraction} {reach : Nat} (h : Simplifies regroup scope e log reach r)
    (hkeep : ∀ c ∈ log, ∀ v, c.redex.evaluate? = some v → c.reduct.evaluate? = some v)
    {v : Float} (hv : e.evaluate? = some v) : r.evaluate? = some v := by
  induction h generalizing v with
  | @contract e reduct result step log reach fires rest ih =>
      have hfirst : reduct.evaluate? = some v := hkeep ⟨step, e, reduct⟩ List.mem_cons_self v hv
      exact ih (fun c member => hkeep c (List.mem_cons_of_mem _ member)) hfirst
  | settle inert below ih => exact hv
  | resume inert below changed rest ihb ihr =>
      obtain ⟨hown, hmore⟩ := List.forall_mem_append.mp hkeep
      exact ihr hmore (ihb hown hv)
  | literal value => exact hv
  | var name => exact hv
  | neg operand ih =>
      obtain ⟨x, hx, hvalue⟩ := Expr.evaluate?_neg_iff.mp hv
      exact Expr.evaluate?_neg_iff.mpr ⟨x, ih hkeep hx, hvalue⟩
  | call func operand ih =>
      obtain ⟨x, hx, hvalue⟩ := Expr.evaluate?_call_iff.mp hv
      exact Expr.evaluate?_call_iff.mpr ⟨x, ih hkeep hx, hvalue⟩
  | binary op lhs rhs ihl ihr =>
      obtain ⟨hown, hmore⟩ := List.forall_mem_append.mp hkeep
      obtain ⟨x, hx, y, hy, hvalue⟩ := Expr.evaluate?_binary_iff.mp hv
      exact Expr.evaluate?_binary_iff.mpr ⟨x, ihl hown hx, y, ihr hmore hy, hvalue⟩

/-- Each contraction of a derivation is a reduction of its kind. -/
theorem Simplifies.reduces {regroup : Bool} {scope : Scope} {e r : Expr}
    {log : List Contraction} {reach : Nat} (h : Simplifies regroup scope e log reach r) :
    ∀ c ∈ log, Reduction.Reduces c.step c.redex c.reduct := by
  induction h with
  | contract fires rest ih =>
      intro c member
      rcases List.mem_cons.mp member with rfl | member
      · exact Reduction.reduces_of_fireFirst? fires
      · exact ih c member
  | resume inert below changed rest ihb ihr => exact List.forall_mem_append.mpr ⟨ihb, ihr⟩
  | binary op lhs rhs ihl ihr => exact List.forall_mem_append.mpr ⟨ihl, ihr⟩
  | neg operand ih => exact ih
  | call func operand ih => exact ih
  | _ =>
      intro c member
      cases member

/-- An expression without variables becomes a literal, the one that evaluation comes to if
each step that is not of an exact kind kept what its subexpression comes to. In particular
what is no number stays so. The steps of an exact kind always keep it. -/
theorem simplify_constant :
    (∀ rule ∈ Rule.table true, rule.step.isExact = true → ∀ e r v, rule.reduce e = some r →
      e.evaluate? = some v → r.evaluate? = some v) ∧
    ∀ (options : SimplifyOptions) (e r : Expr) (v : Float), e.evaluate? = some v →
      (simplify options e).result = .ok r →
        (∃ w, r = .literal w) ∧
        ∃ log reach, Simplifies options.regroup .whole e log reach r ∧
          (∀ log' reach' r', Simplifies options.regroup .whole e log' reach' r' → log' = log) ∧
          log.map (·.step) = (simplify options e).steps ∧
          ((∀ c ∈ log, c.step.isExact = false → c.reduct.evaluate? = c.redex.evaluate?) →
            r = .literal v) := by
  constructor
  · intro rule member exact e r v hreduce hv
    exact Reduction.evaluate?_of_reduces (Reduction.reduces_of_mem member hreduce) exact hv
  · intro options e r v hv h
    obtain ⟨log, reach, hlog, hsteps, -, -⟩ :=
      (simplify_yields_iff options e r _).mp ((Run.yields_iff _ _ _).mpr ⟨rfl, h⟩)
    have hirreducible := irreducible_of_result h
    have hsmaller := (simplify_never_grows options e).2.2.2 r h
    refine ⟨?_, log, reach, hlog, fun _ _ _ hlog' => (hlog'.unique hlog).1, hsteps, ?_⟩
    · obtain ⟨w, hw⟩ :=
        Option.isSome_iff_exists.mp (hsmaller.isSome_evaluate? (Option.isSome_of_eq_some hv))
      exact ⟨w, hirreducible.eq_literal hw⟩
    · intro hkept
      apply hirreducible.eq_literal
      apply evaluate?_of_simplifies hlog _ hv
      intro c member w hw
      cases hexact : c.step.isExact with
      | true => exact Reduction.evaluate?_of_reduces (hlog.reduces c member) hexact hw
      | false => rw [hkept c member hexact, hw]

/-- `0*(0/0)` comes to no number and becomes zero: the product is taken away before its
operands are folded. -/
theorem simplify_constant_zero_product :
    (Expr.mul (.literal 0) (.div (.literal 0) (.literal 0))).evaluate? = some Number.nan ∧
      (simplify .standard (.mul (.literal 0) (.div (.literal 0) (.literal 0)))).result =
        .ok (.literal 0) ∧
      Float.isNaN 0 = false :=
  ⟨rfl, by with_unfolding_all rfl, by decide +kernel⟩

/-- `0/0+0` loses a zero, which changes nothing here, and is no number in the end. -/
theorem simplify_constant_sum :
    (Expr.add (.div (.literal 0) (.literal 0)) (.literal 0)).evaluate? = some Number.nan ∧
      (simplify ⟨1, 2, false⟩ (.add (.div (.literal 0) (.literal 0)) (.literal 0))).result =
        .ok (.literal Number.nan) := by
  have hzero : Rule.fireFirst? (Rule.table false)
      (.add (.div (.literal 0) (.literal 0)) (.literal 0)) =
        some (.addZero, .div (.literal 0) (.literal 0)) := by decide +kernel
  have hfold : Rule.fireFirst? (Rule.table false) (.div (.literal 0) (.literal 0)) =
      some (.foldConstants, .literal Number.nan) := by decide +kernel
  have hlog : Simplifies false .whole (.add (.div (.literal 0) (.literal 0)) (.literal 0)) _ 1
      (.literal Number.nan) :=
    .contract hzero (.contract hfold (.settle (by decide +kernel) (.literal Number.nan)))
  have hvalue : (Expr.add (.div (.literal 0) (.literal 0)) (.literal 0)).evaluate? =
      some Number.nan := rfl
  obtain ⟨r, h⟩ : ∃ r, (simplify ⟨1, 2, false⟩
      (.add (.div (.literal 0) (.literal 0)) (.literal 0))).result = .ok r :=
    ⟨.literal Number.nan, by with_unfolding_all rfl⟩
  obtain ⟨-, log, _, _, hunique, -, hresult⟩ := simplify_constant.2 _ _ _ _ hvalue h
  rw [← hunique _ _ _ hlog] at hresult
  rw [hresult ?_] at h
  · exact ⟨hvalue, h⟩
  · intro c member inexact
    simp only [List.mem_cons, List.not_mem_nil, or_false] at member
    rcases member with rfl | rfl
    · rfl
    · cases inexact

def Number.largest : Float := ofMagnitude false (infinityMagnitude - 1)

/-- Each kind of steps that is not exact can lose that something is no number, without the
help of another one; of the power of one this is not known. -/
theorem exists_nan_lost (step : Step) (inexact : step.isExact = false)
    (other : step ≠ .powerOne) :
    ∃ (options : SimplifyOptions) (e : Expr) (w : Float), e.evaluate? = some Number.nan ∧
      (simplify options e).result = .ok (.literal w) ∧ w.isNaN = false ∧
      ∀ s ∈ (simplify options e).steps, s.isExact = false → s = step := by
  cases step with
  | negateNumber =>
      -- The power of a zero with a sign is the other infinity.
      exact ⟨⟨4, 3, false⟩, .add (.pow (.neg (.literal 0)) (.literal (-1))) (.literal (1 / 0)),
        1 / 0, by decide +kernel, by with_unfolding_all rfl, by decide +kernel, by decide +kernel⟩
  | addZero =>
      -- So is one over it, here and in the next two.
      exact ⟨⟨4, 4, false⟩, .sub (.div (.literal 1)
          (.add (.mul (.literal (-1)) (.literal 0)) (.literal 0))) (.literal (1 / 0)),
        -1 / 0, rfl, by with_unfolding_all rfl, by decide +kernel, by decide +kernel⟩
  | subtractZero =>
      exact ⟨⟨4, 4, false⟩, .sub (.div (.literal 1)
          (.sub (.mul (.literal (-1)) (.literal 0)) (.literal (-0)))) (.literal (1 / 0)),
        -1 / 0, rfl, by with_unfolding_all rfl, by decide +kernel, by decide +kernel⟩
  | subtractFromZero =>
      exact ⟨⟨5, 5, false⟩, .sub (.div (.literal 1)
          (.sub (.literal 0) (.neg (.mul (.literal (-1)) (.literal 0))))) (.literal (1 / 0)),
        -1 / 0, rfl, by with_unfolding_all rfl, by decide +kernel, by decide +kernel⟩
  | multiplyZero =>
      -- The operand that is no number goes away.
      exact ⟨⟨2, 2, false⟩, .mul (.literal 0) (.div (.literal 0) (.literal 0)),
        0, rfl, by with_unfolding_all rfl, by decide +kernel, by decide +kernel⟩
  | extractNumerator =>
      -- The fraction overflows only while it is one.
      exact ⟨⟨3, 5, false⟩, .mul (.div (.literal Number.largest) (.literal (1 / 2)))
          (.sub (.literal 1) (.literal 1)),
        0, rfl, by with_unfolding_all rfl, by decide +kernel, by decide +kernel⟩
  | divideZero =>
      exact ⟨⟨2, 1, false⟩, .div (.literal 0) (.div (.literal 0) (.literal 0)),
        0, rfl, by with_unfolding_all rfl, by decide +kernel, by decide +kernel⟩
  | powerZeroLeft =>
      exact ⟨⟨2, 1, false⟩, .pow (.literal 0) (.div (.literal 0) (.literal 0)),
        0, rfl, by with_unfolding_all rfl, by decide +kernel, by decide +kernel⟩
  | powerOne => exact absurd rfl other
  | regroupDifferencePlus =>
      -- What comes first overflows in one grouping and not in the other.
      exact ⟨⟨3, 4, true⟩, .add (.sub (.literal (-Number.largest))
          (.mul (.literal (-Number.largest)) (.literal (-1)))) (.literal (1 / 0)),
        1 / 0, rfl, by with_unfolding_all rfl, by decide +kernel, by decide +kernel⟩
  | regroupDifferenceMinus =>
      exact ⟨⟨3, 3, true⟩, .sub (.sub (.literal Number.largest) (.literal (-Number.largest)))
          (.literal (1 / 0)),
        -1 / 0, rfl, by with_unfolding_all rfl, by decide +kernel, by decide +kernel⟩
  | regroupSumMinus =>
      exact ⟨⟨4, 4, true⟩, .sub (.add (.literal Number.largest)
          (.mul (.literal (-Number.largest)) (.literal (-1)))) (.literal (1 / 0)),
        -1 / 0, rfl, by with_unfolding_all rfl, by decide +kernel, by decide +kernel⟩
  | _ => cases inexact

end Formula
