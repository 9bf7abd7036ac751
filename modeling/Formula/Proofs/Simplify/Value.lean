import Formula.Proofs.Reduction.Soundness
import Formula.Proofs.Simplify.Derivation

/-!
Simplification keeps the value. Each rule application does, if folding is exact where
it is used, and a derivation puts them together, below operations and one after another.
-/

namespace Formula

namespace Interpretation

variable {K : Type*} [Field K] (I : Interpretation K) (x : Char → K)

/-- A rule application that computes with numbers is exact: the result is finite and
is what the operation gives in the field. Nothing is asked of any other application. -/
def Exact : Contraction → Prop
  | ⟨.foldConstants, .binary op (.literal v) (.literal w), _⟩ =>
      (op.apply v w).isFinite = true ∧
        I.number (op.apply v w) = I.operation op (I.number v) (I.number w)
  | ⟨.foldFunction, .call func (.literal v), _⟩ =>
      (func.apply v).isFinite = true ∧ I.number (func.apply v) = I.func func (I.number v)
  | _ => True

structure Replaces (r e : Expr) : Prop where
  finite : r.FiniteLiterals
  defined : I.Defined x r
  value_eq : I.value x r = I.value x e

variable {I x}

theorem Replaces.refl {e : Expr} (finite : e.FiniteLiterals) (defined : I.Defined x e) :
    I.Replaces x e e := ⟨finite, defined, rfl⟩

theorem Replaces.trans {a b c : Expr} (h : I.Replaces x a b) (h' : I.Replaces x b c) :
    I.Replaces x a c := ⟨h.finite, h.defined, h.value_eq.trans h'.value_eq⟩

theorem replaces_of_reduces {step : Step} {e r : Expr} (h : Reduction.Reduces step e r)
    (hexact : I.Exact ⟨step, e, r⟩) (finite : e.FiniteLiterals) (defined : I.Defined x e) :
    I.Replaces x r e := by
  by_cases hconstants : step = .foldConstants
  · subst hconstants
    cases h with
    | foldConstants op v w =>
        obtain ⟨hfinite, hvalue⟩ := hexact
        exact ⟨hfinite, trivial, hvalue⟩
  · by_cases hfunction : step = .foldFunction
    · subst hfunction
      cases h with
      | foldFunction func v =>
          obtain ⟨hfinite, hvalue⟩ := hexact
          exact ⟨hfinite, trivial, hvalue⟩
    · have algebraic := And.intro hconstants hfunction
      obtain ⟨hdefined, hvalue⟩ :=
        Reduction.defined_value_of_reduces I x h algebraic finite defined
      exact ⟨Reduction.finiteLiterals_of_reduces h algebraic finite, hdefined, hvalue⟩

/-- A derivation whose folding is exact ends with an expression that may stand for the
one that it started with. -/
theorem replaces_of_simplifies {regroup : Bool} {scope : Scope} {e r : Expr}
    {log : List Contraction} {reach : Nat} (h : Simplifies regroup scope e log reach r)
    (hexact : ∀ c ∈ log, I.Exact c) (finite : e.FiniteLiterals) (defined : I.Defined x e) :
    I.Replaces x r e := by
  induction h with
  | @contract e reduct result step log reach fires rest ih =>
      have hfirst : I.Exact ⟨step, e, reduct⟩ := hexact _ List.mem_cons_self
      have hlater : ∀ c ∈ log, I.Exact c := by
        intro c member
        exact hexact c (List.mem_cons_of_mem _ member)
      have hstep :=
        replaces_of_reduces (Reduction.reduces_of_fireFirst? fires) hfirst finite defined
      have hrest := ih hlater hstep.finite hstep.defined
      exact hrest.trans hstep
  | settle inert below ih => exact .refl finite defined
  | resume inert below changed rest ihb ihr =>
      obtain ⟨hown, hmore⟩ := List.forall_mem_append.mp hexact
      have hbelow := ihb hown finite defined
      have hrest := ihr hmore hbelow.finite hbelow.defined
      exact hrest.trans hbelow
  | literal value => exact .refl finite defined
  | var name => exact .refl finite defined
  | neg operand ih =>
      obtain ⟨hfinite, hdefined, hvalue⟩ := ih hexact finite defined
      exact ⟨hfinite, hdefined, congrArg Neg.neg hvalue⟩
  | call func operand ih =>
      obtain ⟨hfinite, hdefined, hvalue⟩ := ih hexact finite defined
      exact ⟨hfinite, hdefined, congrArg (I.func func) hvalue⟩
  | binary op lhs rhs ihl ihr =>
      obtain ⟨hown, hmore⟩ := List.forall_mem_append.mp hexact
      obtain ⟨hleft, hright, hadmits⟩ := defined
      have hl := ihl hown finite.1 hleft
      have hr := ihr hmore finite.2 hright
      refine ⟨⟨hl.finite, hr.finite⟩, ⟨hl.defined, hr.defined, ?_⟩, ?_⟩
      · rw [hl.value_eq, hr.value_eq]
        exact hadmits
      · exact congrArg₂ (I.operation op) hl.value_eq hr.value_eq

end Interpretation

/-- Simplification keeps the value, in any field and at any assignment at which the
expression is defined: each rule that does not fold does, and so does each run in which
all folding was exact. The applications that a run makes are those of its derivation,
of which there is only one. -/
theorem simplify_preserves_value {K : Type*} [Field K] (I : Interpretation K) :
    (∀ rule ∈ Rule.table true, rule.step ≠ .foldConstants ∧ rule.step ≠ .foldFunction →
      ∀ e r : Expr, e.FiniteLiterals → rule.reduce e = some r →
        ∀ x, I.Defined x e → I.Defined x r ∧ I.value x r = I.value x e) ∧
    ∀ (options : SimplifyOptions) (e r : Expr), e.FiniteLiterals →
      (simplify options e).result = .ok r →
        ∃ log reach, Simplifies options.regroup .whole e log reach r ∧
          (∀ log' reach' r', Simplifies options.regroup .whole e log' reach' r' → log' = log) ∧
          log.map (·.step) = (simplify options e).steps ∧
          ((∀ c ∈ log, I.Exact c) →
            ∀ x, I.Defined x e → I.Defined x r ∧ I.value x r = I.value x e) := by
  constructor
  · intro rule member algebraic e r finite h x defined
    exact Reduction.defined_value_of_reduces I x (Reduction.reduces_of_mem member h) algebraic
      finite defined
  · intro options e r finite h
    obtain ⟨log, reach, hlog, hsteps, -, -⟩ :=
      (simplify_yields_iff options e r _).mp ((Run.yields_iff _ _ _).mpr ⟨rfl, h⟩)
    refine ⟨log, reach, hlog, ?_, hsteps, ?_⟩
    · intro log' reach' r' hlog'
      exact (hlog'.unique hlog).1
    · intro hexact x defined
      have hreplaces := Interpretation.replaces_of_simplifies hlog hexact finite defined
      exact ⟨hreplaces.defined, hreplaces.value_eq⟩

/-- `-x + (2 + 3)` becomes `5 - x`, with one sum of literals, which is exact. -/
theorem simplify_preserves_value_sum :
    (simplify ⟨2, 2, false⟩
        (.add (.neg (.var 'x')) (.add (.literal 2) (.literal 3)))).result =
      .ok (.sub (.literal 5) (.var 'x')) ∧
    ∀ x, Interpretation.real.value x (.sub (.literal 5) (.var 'x')) =
      Interpretation.real.value x (.add (.neg (.var 'x')) (.add (.literal 2) (.literal 3))) := by
  have finite : Expr.FiniteLiterals
      (.add (.neg (.var 'x')) (.add (.literal 2) (.literal 3))) := ⟨trivial, rfl, rfl⟩
  have hturned : Rule.fireFirst? (Rule.table false)
      (.add (.neg (.var 'x')) (.add (.literal 2) (.literal 3))) =
        some (.addNegativeFirst, .sub (.add (.literal 2) (.literal 3)) (.var 'x')) := rfl
  have hsum : Simplifies false .whole (.add (.literal 2) (.literal 3))
      [⟨.foldConstants, .add (.literal 2) (.literal 3), .literal 5⟩] 1 (.literal 5) :=
    .contract (by decide +kernel) (.settle (by decide +kernel) (.literal 5))
  have hdifference : Simplifies false .whole (.sub (.literal 5) (.var 'x')) [] 2 _ :=
    .settle (by decide +kernel) <|
      .binary .sub (.settle (by decide +kernel) (.literal 5)) (.settle rfl (.var 'x'))
  have hlog : Simplifies false .whole
      (.add (.neg (.var 'x')) (.add (.literal 2) (.literal 3))) _ 2
      (.sub (.literal 5) (.var 'x')) :=
    .contract hturned <|
      .resume (by decide +kernel) (.binary .sub hsum (.settle rfl (.var 'x')))
        (List.cons_ne_nil _ _) hdifference
  have hyields := (simplify_yields_iff ⟨2, 2, false⟩ _ _ _).mpr
    ⟨_, 2, hlog, rfl, Nat.le_refl 2, Nat.le_refl 2⟩
  have h := ((Run.yields_iff _ _ _).mp hyields).2
  have htwo : Number.unpacked 2 = .finite .positive (2 ^ 52) (-51) (by decide) := rfl
  have hthree : Number.unpacked 3 = .finite .positive (3 * 2 ^ 51) (-51) (by decide) := rfl
  have hfive : Number.unpacked (2 + 3) = .finite .positive (5 * 2 ^ 50) (-50) (by decide) := rfl
  have hexact : Number.toReal (2 + 3) = Number.toReal 2 + Number.toReal 3 := by
    rw [Number.toReal, Number.toReal, Number.toReal, htwo, hthree, hfive]
    norm_num
  refine ⟨h, fun x => ?_⟩
  obtain ⟨log, _, _, hunique, -, hvalue⟩ :=
    (simplify_preserves_value Interpretation.real).2 _ _ _ finite h
  rw [← hunique _ _ _ hlog] at hvalue
  refine (hvalue ?_ x (by simp [Interpretation.Defined, Interpretation.Admits])).2
  intro c member
  simp only [List.append_nil, List.mem_cons, List.not_mem_nil, or_false] at member
  rcases member with rfl | rfl
  · trivial
  · exact ⟨rfl, hexact⟩

end Formula
