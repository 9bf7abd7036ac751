import Formula.Proofs.Expr.Evaluation
import Formula.Proofs.Number.Arithmetic
import Formula.Proofs.Parse.RoundTrip
import Formula.Proofs.Reduction.Shape

/-!
What the text of an expression without variables comes to. A literal with a sign is written
as a negation and read as one, and to turn a sign twice is to do nothing, so it comes to
the same number. This goes for negative zero too, but negative zero is not below zero and
is given no parentheses. As the base of a power it is therefore not read on its own: what
is read is the negation of a power of zero. That is another number unless the power has the
sign of its base, as odd powers of a zero have.
-/

namespace Formula

namespace Number

variable {zero exponent : Float}

/-- A power of a zero is decided by the zero unless the exponent is one itself. -/
theorem power_of_zero (h : zero = 0 ∨ zero = -0) (nonzero : (exponent == 0) = false) :
    power zero exponent = if exponent.isNaN then nan else zeroPower zero exponent := by
  have hmarks : (zero == 1) = false ∧ zero.isNaN = false ∧ (zero == 0) = true := by
    rcases h with rfl | rfl
    · decide +kernel
    · decide +kernel
  simp only [power, nonzero, hmarks, Bool.or_self, Bool.false_or, Bool.false_eq_true, ↓reduceIte]

theorem power_zero_exponent {base : Float} (zero : (exponent == 0) = true) :
    power base exponent = 1 := by
  simp only [power, zero, Bool.true_or, ↓reduceIte]

/-- A power of negative zero is the power of zero with its sign turned only if the exponent
is odd. What is no number has no sign to turn. -/
theorem power_neg_zero_iff (exponent : Float) :
    power (-0) exponent = -power 0 exponent ↔
      exponent.isNaN = true ∨ isOddInteger exponent = true := by
  cases hzero : exponent == 0 with
  | true =>
      rw [power_zero_exponent hzero, power_zero_exponent hzero]
      rcases (beq_zero_iff exponent).mp hzero with rfl | rfl
      · decide +kernel
      · decide +kernel
  | false =>
      have hsigns : isSigned (-0) = true ∧ isSigned 0 = false := by decide +kernel
      rw [power_of_zero (.inr rfl) hzero, power_of_zero (.inl rfl) hzero]
      cases exponent.isNaN with
      | true =>
          rw [if_pos rfl, if_pos rfl]
          exact iff_of_true (by decide +kernel) (.inl rfl)
      | false =>
          rw [if_neg Bool.false_ne_true, if_neg Bool.false_ne_true, zeroPower, zeroPower,
            hsigns.1, hsigns.2]
          -- What is left depends on the exponent only through its sign and its parity.
          generalize isOddInteger exponent = odd
          by_cases hsign : exponent < 0
          · rw [if_pos hsign, if_pos hsign]
            revert odd
            decide +kernel
          · rw [if_neg hsign, if_neg hsign]
            revert odd
            decide +kernel

end Number

namespace Expr

/-- What is read from the text of an expression. Every literal with a sign is replaced by
the negation of its opposite, and a power of negative zero by the negation of a power of
zero. -/
def reread : Expr → Expr
  | .literal value => if Number.isSigned value then .neg (.literal (-value)) else .literal value
  | .var name => .var name
  | .neg operand => .neg operand.reread
  | .binary op lhs rhs =>
      if op = .pow ∧ lhs = .literal (-0) then .neg (.pow (.literal 0) rhs.reread)
      else .binary op lhs.reread rhs.reread
  | .call func operand => .call func operand.reread

def IsConstant (e : Expr) : Prop := e.EveryLeaf (·.isFinite = true) fun _ => False

instance (e : Expr) : Decidable e.IsConstant := inferInstanceAs (Decidable (e.EveryLeaf _ _))

/-- Every power with the literal negative zero as its base has the sign of its base: its
exponent comes to an odd number, or to no number at all. -/
def KeepsZeroSigns (e : Expr) : Prop :=
  ∀ exponent, Expr.pow (.literal (-0)) exponent ∈ e.subexpressions →
    ∀ y, exponent.evaluate? = some y → y.isNaN = true ∨ Number.isOddInteger y = true

section Reading

/-- The phrase as which an expression is read. Negative zero has a minus sign like the
literals below zero. -/
def readPhrase (e : Expr) : Phrase := if e = .literal (-0) then .factor else e.phrase

/-- An operand without parentheses is no looser than its place asks for, unless it is
negative zero as the base of a power. -/
theorem level_operandPhrase_le_read {operand : Expr} {op : BinaryOp} {isRight : Bool}
    (h : operand.needsParens op.precedence op.associativity isRight = false)
    (notBase : ¬ (op = .pow ∧ isRight = false ∧ operand = .literal (-0))) :
    (op.operandPhrase isRight).level ≤ operand.readPhrase.level := by
  by_cases hzero : operand = .literal (-0)
  · have hplace : ¬ (op = .pow ∧ isRight = false) := fun h => notBase ⟨h.1, h.2, hzero⟩
    rw [readPhrase, if_pos hzero]
    revert hplace
    cases op <;> cases isRight <;> decide
  · rw [readPhrase, if_neg hzero]
    exact level_operandPhrase_le h

theorem reads_literal {value : Float} (finite : value.isFinite = true) :
    Reads (readPhrase (.literal value)) (Number.chars value) (reread (.literal value)) := by
  cases hsigned : Number.isSigned value with
  | true =>
      obtain ⟨text, htext, hnumeral, hread⟩ := Number.exists_chars_of_isSigned finite hsigned
      have hphrase : readPhrase (.literal value) = .factor := by
        by_cases hzero : value = -0
        · rw [hzero]
          rfl
        · have hbelow : value < 0 := by
            by_contra hbelow
            rw [Number.isSigned_eq_false finite hbelow hzero] at hsigned
            cases hsigned
          rw [readPhrase, if_neg (fun h => hzero (literal.inj h)), phrase, if_pos hbelow]
      rw [hphrase, htext, reread, if_pos hsigned]
      exact ((Reads.numeral hnumeral hread).weaken (by decide)).negation
  | false =>
      obtain ⟨hnumeral, hread⟩ := Number.numeral_chars_of_unsigned finite hsigned
      have hbelow : ¬ value < 0 := by
        intro hbelow
        rw [Number.isSigned_of_lt_zero hbelow] at hsigned
        cases hsigned
      have hzero : value ≠ -0 := by
        rintro rfl
        exact absurd hsigned (by decide +kernel)
      rw [readPhrase, if_neg (fun h => hzero (literal.inj h)), phrase, if_neg hbelow, reread, hsigned]
      exact .numeral hnumeral hread

/-- The minus sign of a bare negative zero goes to the power that it is the base of. -/
theorem reads_zero_power {right : List Char} {exponent : Expr}
    (h : Reads (BinaryOp.operandPhrase .pow true) right exponent) :
    Reads .factor (Number.chars (-0) ++ separator .pow ++ right)
      (.neg (.pow (.literal 0) exponent)) := by
  have hzero : Numeral (Number.chars 0) ∧ Number.read? (Number.chars 0) = some 0 :=
    Number.numeral_chars_of_unsigned (by decide +kernel) (by decide +kernel)
  have hpower : Reads .factor (Number.chars 0 ++ separator .pow ++ right)
      (.pow (.literal 0) exponent) := @Reads.binary .pow _ _ _ _ (.numeral hzero.1 hzero.2) h
  have htext : Number.chars (-0) = '-' :: Number.chars 0 := by decide +kernel
  rw [htext]
  exact hpower.negation

theorem reads_reread {e : Expr} (h : e.EveryLeaf (·.isFinite = true) (·.isLower = true)) :
    Reads e.readPhrase e.chars e.reread := by
  induction e with
  | literal value => exact reads_literal h
  | var name => exact .letter h
  | neg operand ih =>
      have hoperand := (ih h).operand fun hbare =>
        @level_operandPhrase_le_read operand .pow true hbare (by simp)
      exact hoperand.negation
  | binary op lhs rhs ihl ihr =>
      have hright := (ihr h.2).operand fun hbare =>
        @level_operandPhrase_le_read rhs op true hbare (by simp)
      by_cases hbase : op = .pow ∧ lhs = .literal (-0)
      · obtain ⟨rfl, rfl⟩ := hbase
        rw [reread, if_pos ⟨rfl, rfl⟩]
        exact reads_zero_power hright
      · have hleft := (ihl h.1).operand fun hbare =>
          @level_operandPhrase_le_read lhs op false hbare fun h => hbase ⟨h.1, h.2.2⟩
        rw [reread, if_neg hbase]
        exact .binary hleft hright
  | call func operand ih =>
      exact .call func ((ih h).weaken (by cases operand.readPhrase <;> decide))

end Reading

section Value

variable {e : Expr}

theorem KeepsZeroSigns.of_mem (h : e.KeepsZeroSigns) {s : Expr} (member : s ∈ e.subexpressions) :
    s.KeepsZeroSigns :=
  fun exponent inner => h exponent (mem_subexpressions_trans inner member)

theorem KeepsZeroSigns.of_child (h : e.KeepsZeroSigns) {c : Expr} (child : c ∈ e.children) :
    c.KeepsZeroSigns :=
  h.of_mem (child_mem_subexpressions e.self_mem_subexpressions child)

/-- What is read for a power of negative zero comes to the negation of a power of zero. -/
theorem evaluate?_reread_zero_power {exponent : Expr}
    (h : exponent.reread.evaluate? = exponent.evaluate?) :
    (reread (.pow (.literal (-0)) exponent)).evaluate? =
      exponent.evaluate?.map fun y => -Number.power 0 y := by
  rw [reread, if_pos ⟨rfl, rfl⟩, evaluate?, evaluate?, h, evaluate?, Option.bind_some, Option.map_map]
  rfl

theorem evaluate?_zero_power (exponent : Expr) :
    (Expr.pow (.literal (-0)) exponent).evaluate? =
      exponent.evaluate?.map (Number.power (-0)) := rfl

/-- What is read comes to the same number. -/
theorem evaluate?_reread (h : e.KeepsZeroSigns) : e.reread.evaluate? = e.evaluate? := by
  induction e with
  | literal value =>
      cases hsigned : Number.isSigned value with
      | true =>
          rw [reread, if_pos hsigned, evaluate?, evaluate?, evaluate?, Option.map_some,
            Number.neg_neg]
      | false =>
          rw [reread, hsigned]
          rfl
  | var name => rfl
  | neg operand ih => rw [reread, evaluate?, evaluate?, ih (h.of_child (by simp [children]))]
  | call func operand ih => rw [reread, evaluate?, evaluate?, ih (h.of_child (by simp [children]))]
  | binary op lhs rhs ihl ihr =>
      have hright := ihr (h.of_child (by simp [children]))
      by_cases hbase : op = .pow ∧ lhs = .literal (-0)
      · obtain ⟨rfl, rfl⟩ := hbase
        have hodd := h rhs (self_mem_subexpressions _)
        rw [evaluate?_reread_zero_power hright, evaluate?_zero_power]
        exact Option.map_congr fun y hy => ((Number.power_neg_zero_iff y).mpr (hodd y hy)).symm
      · have hleft := ihl (h.of_child (by simp [children]))
        rw [reread, if_neg hbase, evaluate?, evaluate?, hleft, hright]

/-- Nothing but a power of negative zero that loses its sign comes to another number when
it is read. -/
theorem evaluate?_reread_iff (e : Expr) :
    (∀ s ∈ e.subexpressions, s.reread.evaluate? = s.evaluate?) ↔ e.KeepsZeroSigns := by
  constructor
  · intro h exponent member y hy
    have hexponent : exponent.reread.evaluate? = exponent.evaluate? :=
      h exponent (child_mem_subexpressions member (by simp [children]))
    have hpower := h _ member
    rw [evaluate?_reread_zero_power hexponent, evaluate?_zero_power, hy] at hpower
    exact (Number.power_neg_zero_iff y).mp (Option.some_inj.mp hpower).symm
  · exact fun h s member => evaluate?_reread (h.of_mem member)

theorem IsConstant.exists_evaluate? (h : e.IsConstant) : ∃ v, e.evaluate? = some v := by
  induction e with
  | literal value => exact ⟨value, rfl⟩
  | var name => exact h.elim
  | neg operand ih =>
      obtain ⟨x, hx⟩ := ih h
      exact ⟨-x, evaluate?_neg_iff.mpr ⟨x, hx, rfl⟩⟩
  | call func operand ih =>
      obtain ⟨x, hx⟩ := ih h
      exact ⟨func.apply x, evaluate?_call_iff.mpr ⟨x, hx, rfl⟩⟩
  | binary op lhs rhs ihl ihr =>
      obtain ⟨x, hx⟩ := ihl h.1
      obtain ⟨y, hy⟩ := ihr h.2
      exact ⟨op.apply x y, evaluate?_binary_iff.mpr ⟨x, hx, y, hy, rfl⟩⟩

end Value

end Expr

/-- A text that is read as a phrase is parsed as the tree of that phrase. -/
theorem Reads.parse_ofList {phrase : Phrase} {text : List Char} {e : Expr}
    (h : Reads phrase text e) {limit : Nat} (depth : e.depth ≤ limit) :
    parse limit (.ofList text) = .ok e := by
  have hsum : Reads .sum text e := h.weaken (by cases phrase <;> decide)
  have hderives : Derives .sum (tokenize (.ofList text)) e := FallsInto.holds_tokenize hsum
  obtain ⟨rpn, hreordered, hlists⟩ := Rpn.exists_ofTokens_of_derives hderives
  rw [← (Expr.ofRpn_of_postfix hlists limit).1 depth, parse, hreordered]
  exact if_neg hlists.ne_nil

/-- The text of an expression without variables is read, at every limit that allows the
depth of what is read. What is read comes to the same number if no power of negative zero
loses its sign; where one does, some subexpression comes to another number. -/
theorem parse_text_constant (e : Expr) (constant : e.IsConstant) :
    ∃ v, e.evaluate? = some v ∧
      (∀ limit, e.reread.depth ≤ limit → parse limit e.text = .ok e.reread) ∧
      (e.KeepsZeroSigns → e.reread.evaluate? = some v) ∧
      ((∀ s ∈ e.subexpressions, s.reread.evaluate? = s.evaluate?) ↔ e.KeepsZeroSigns) := by
  obtain ⟨v, hv⟩ := constant.exists_evaluate?
  have hreads : Reads e.readPhrase e.chars e.reread :=
    Expr.reads_reread (constant.imp (fun _ finite => finite) fun _ => False.elim)
  refine ⟨v, hv, fun limit depth => hreads.parse_ofList depth, fun keeps => ?_,
    e.evaluate?_reread_iff⟩
  rw [Expr.evaluate?_reread keeps, hv]

/-- `-0^3 - (-2)` is read with three negations and comes to two, as it did. -/
theorem parse_text_constant_odd_power :
    parse 4 (Expr.sub (.pow (.literal (-0)) (.literal 3)) (.literal (-2))).text =
        .ok (.sub (.neg (.pow (.literal 0) (.literal 3))) (.neg (.literal 2))) ∧
      (Expr.sub (.pow (.literal (-0)) (.literal 3)) (.literal (-2))).evaluate? = some 2 ∧
      (Expr.sub (.neg (.pow (.literal 0) (.literal 3))) (.neg (.literal 2))).evaluate? =
        some 2 := by
  have hreread : (Expr.sub (.pow (.literal (-0)) (.literal 3)) (.literal (-2))).reread =
      .sub (.neg (.pow (.literal 0) (.literal 3))) (.neg (.literal 2)) := by decide +kernel
  have hdepth : (Expr.sub (.neg (.pow (.literal 0) (.literal 3))) (.neg (.literal 2))).depth ≤ 4 := by
    rw [Expr.depth_eq_height]
    exact Nat.le_refl 4
  have hvalue : (Expr.sub (.pow (.literal (-0)) (.literal 3)) (.literal (-2))).evaluate? =
      some 2 := by decide +kernel
  have hkeeps : (Expr.sub (.pow (.literal (-0)) (.literal 3)) (.literal (-2))).KeepsZeroSigns := by
    intro exponent member y hy
    obtain rfl : exponent = .literal 3 := by simpa [Expr.subexpressions] using member
    obtain rfl := Expr.evaluate?_literal_iff.mp hy
    exact .inr (by decide +kernel)
  obtain ⟨v, hv, hread, hkept, -⟩ := parse_text_constant
    (.sub (.pow (.literal (-0)) (.literal 3)) (.literal (-2))) (by decide +kernel)
  obtain rfl : 2 = v := Option.some_inj.mp (hvalue.symm.trans hv)
  rw [hreread] at hread hkept
  exact ⟨hread 4 hdepth, hvalue, hkept hkeeps⟩

/-- `-0^0` for the power with exponent zero, which is one, is read as the negation of one. -/
theorem parse_text_constant_zero_power :
    (Expr.pow (.literal (-0)) (.literal 0)).IsConstant ∧
      (Expr.pow (.literal (-0)) (.literal 0)).evaluate? = some 1 ∧
      parse defaultDepth (Expr.pow (.literal (-0)) (.literal 0)).text =
        .ok (.neg (.pow (.literal 0) (.literal 0))) ∧
      (Expr.neg (.pow (.literal 0) (.literal 0))).evaluate? = some (-1) ∧ (-1 : Float) ≠ 1 := by
  decide +kernel

end Formula
