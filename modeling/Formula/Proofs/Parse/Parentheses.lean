import Formula.Proofs.Parse.Acceptance
import Formula.Proofs.Parse.Outline

/-!
Which parentheses the text of an expression needs. Without the pair around an operand the
text still reads, but with the operand at the depth of its operation, where it is looser
than its place asks for. No reading of these tokens has the two nodes at these places, so
what is read is another expression. Only the parentheses of calls stand around no operand.
-/

namespace Formula

namespace Expr

/-- Whether parentheses go around an operand on this side. A negation takes its operand as
a power takes its right one. -/
def takesParens (operand : Expr) (op : BinaryOp) (isRight : Bool) : Bool :=
  operand.needsParens op.precedence op.associativity isRight

def opening (parens : Bool) : List Char := if parens then ['('] else []

def closing (parens : Bool) : List Char := if parens then [')'] else []

/-- `OperandPair e before inner after`: in the text of `e` a pair of parentheses is put
around an operand, and this is what stands before it, in it and after it. -/
inductive OperandPair : Expr → List Char → List Char → List Char → Prop
  | negation {operand : Expr} (parens : operand.takesParens .pow true = true) :
      OperandPair (.neg operand) ['-'] operand.chars []
  | left {op : BinaryOp} {lhs rhs : Expr} (parens : lhs.takesParens op false = true) :
      OperandPair (.binary op lhs rhs) [] lhs.chars
        (separator op ++ enclose (rhs.takesParens op true) rhs.chars)
  | right {op : BinaryOp} {lhs rhs : Expr} (parens : rhs.takesParens op true = true) :
      OperandPair (.binary op lhs rhs)
        (enclose (lhs.takesParens op false) lhs.chars ++ separator op) rhs.chars []
  | inNegation {operand : Expr} {before inner after : List Char}
      (pair : OperandPair operand before inner after) :
      OperandPair (.neg operand) ('-' :: (opening (operand.takesParens .pow true) ++ before)) inner
        (after ++ closing (operand.takesParens .pow true))
  | inLeft {op : BinaryOp} {lhs rhs : Expr} {before inner after : List Char}
      (pair : OperandPair lhs before inner after) :
      OperandPair (.binary op lhs rhs) (opening (lhs.takesParens op false) ++ before) inner
        (after ++ closing (lhs.takesParens op false) ++ separator op ++
          enclose (rhs.takesParens op true) rhs.chars)
  | inRight {op : BinaryOp} {lhs rhs : Expr} {before inner after : List Char}
      (pair : OperandPair rhs before inner after) :
      OperandPair (.binary op lhs rhs)
        (enclose (lhs.takesParens op false) lhs.chars ++ separator op ++
          (opening (rhs.takesParens op true) ++ before)) inner
        (after ++ closing (rhs.takesParens op true))
  | inCall {func : Func} {operand : Expr} {before inner after : List Char}
      (pair : OperandPair operand before inner after) :
      OperandPair (.call func operand) (func.callName.toList ++ '(' :: before) inner (after ++ [')'])

theorem enclose_eq (parens : Bool) (text : List Char) :
    enclose parens text = opening parens ++ text ++ closing parens := by
  cases parens with
  | true => rfl
  | false => exact (List.append_nil text).symm

theorem chars_neg (operand : Expr) :
    (neg operand).chars = '-' :: enclose (operand.takesParens .pow true) operand.chars := rfl

theorem chars_binary (op : BinaryOp) (lhs rhs : Expr) :
    (binary op lhs rhs).chars = enclose (lhs.takesParens op false) lhs.chars ++ separator op ++
      enclose (rhs.takesParens op true) rhs.chars := rfl

theorem OperandPair.chars_eq {e : Expr} {before inner after : List Char}
    (pair : e.OperandPair before inner after) :
    e.chars = before ++ '(' :: inner ++ ')' :: after := by
  induction pair with
  | negation parens =>
      rw [chars_neg, parens]
      rfl
  | left parens =>
      rw [chars_binary, parens]
      simp [enclose]
  | right parens =>
      rw [chars_binary, parens]
      simp [enclose]
  | inNegation _ ih =>
      rw [chars_neg, enclose_eq, ih]
      simp
  | inLeft _ ih =>
      rw [chars_binary, enclose_eq (takesParens _ _ false), ih]
      simp
  | inRight _ ih =>
      rw [chars_binary, enclose_eq (takesParens _ _ true), ih]
      simp
  | inCall _ ih =>
      rw [chars, ih]
      simp [enclose]

/-- An operand in parentheses is looser than its place asks for, unless it is a literal
below zero. -/
theorem looserThan_of_takesParens {operand : Expr} {op : BinaryOp} {isRight : Bool}
    (parens : operand.takesParens op isRight = true) (sign : operand.isNegative = false) :
    operand.LooserThan (op.operandPhrase isRight) := by
  have hplace : op.precedence.rank ≤ (op.operandPhrase isRight).level := by
    cases op <;> cases isRight <;> decide
  unfold takesParens needsParens at parens
  rw [sign, Bool.false_or] at parens
  cases hown : operand.precedence? with
  | none =>
      rw [hown] at parens
      cases parens
  | some own =>
      rw [hown] at parens
      refine ⟨own, hown, ?_⟩
      simp only [Bool.or_eq_true, Bool.and_eq_true, decide_eq_true_eq, beq_iff_eq] at parens
      rcases parens with hrank | ⟨rfl, hside⟩
      · exact Nat.lt_of_lt_of_le hrank hplace
      · -- On this side the place asks for more than the strength of the operation.
        revert hside
        cases op <;> cases isRight <;> decide

def IsPositive (e : Expr) : Prop :=
  e.EveryLeaf (fun value => value.isFinite = true ∧ Number.isSigned value = false)
    (·.isLower = true)

instance (e : Expr) : Decidable e.IsPositive := inferInstanceAs (Decidable (e.EveryLeaf _ _))

namespace IsPositive

theorem isPlain {e : Expr} (h : e.IsPositive) : e.IsPlain := by
  apply EveryLeaf.imp h
  · rintro value ⟨hfinite, hsign⟩
    refine ⟨hfinite, ?_⟩
    rintro rfl
    exact absurd hsign (by decide +kernel)
  · exact fun _ hlower => hlower

theorem isUnsigned {e : Expr} (h : e.IsPositive) : e.IsUnsigned := by
  apply EveryLeaf.imp h
  · rintro value ⟨-, hsign⟩ hbelow
    rw [Number.isSigned_of_lt_zero hbelow] at hsign
    cases hsign
  · exact fun _ _ => trivial

theorem isNegative_eq_false {e : Expr} (h : e.IsPositive) : e.isNegative = false := by
  cases e with
  | literal value => exact decide_eq_false h.isUnsigned
  | _ => rfl

theorem numeral {value : Float} (h : (literal value).IsPositive) :
    Numeral (Number.chars value) ∧ Number.read? (Number.chars value) = some value :=
  Number.numeral_chars h.isPlain.1 h.isUnsigned h.isPlain.2

end IsPositive

section Readings

variable {e : Expr} (positive : e.IsPositive)
include positive

/-- An operand with its parentheses, if it has any, falls into as many nodes as it has. -/
theorem IsPositive.fallsInto_operand (parens : Bool) :
    FallsInto (enclose parens e.chars) fun tokens =>
      ∃ shape, Outline tokens shape ∧ shape.length = e.size := by
  have hreads : Reads .sum (enclose parens e.chars) e.unsigned :=
    (e.reads_chars positive.isPlain).operand fun _ => by cases e.phrase <;> decide
  rw [unsigned_of_isUnsigned positive.isUnsigned] at hreads
  apply FallsInto.imp hreads
  intro tokens hderives
  obtain ⟨shape, houtline, hfits⟩ := hderives.exists_outline
  exact ⟨shape, houtline, hfits.length_eq⟩

/-- The text has no parentheses around it. -/
theorem IsPositive.fallsInto_chars :
    FallsInto e.chars fun tokens =>
      ∃ shape, Outline tokens shape ∧ shape.length = e.size ∧ shape[e.root]? = some 0 := by
  cases e with
  | literal value =>
      obtain ⟨hnumeral, hread⟩ := positive.numeral
      apply FallsInto.numeral hnumeral
      intro token kind hlexeme
      rw [← hlexeme] at hread
      exact ⟨[0], .number kind hread, rfl, rfl⟩
  | var name =>
      apply FallsInto.letter positive
      exact fun token kind _ => ⟨[0], .letter kind, rfl, rfl⟩
  | neg operand =>
      have hoperand := @fallsInto_operand operand positive (operand.takesParens .pow true)
      apply hoperand.negation
      rintro token tokens kind ⟨shape, houtline, hlength⟩
      exact ⟨0 :: shape, houtline.negation kind, congrArg (· + 1) hlength, rfl⟩
  | binary op lhs rhs =>
      have hlhs := @fallsInto_operand lhs positive.1 (lhs.takesParens op false)
      have hrhs := @fallsInto_operand rhs positive.2 (rhs.takesParens op true)
      apply hlhs.binary hrhs
      rintro before token after kind ⟨left, hleft, hlengthLeft⟩ ⟨right, hright, hlengthRight⟩
      exact ⟨left ++ 0 :: right, .binary kind hleft hright,
        Misfits.length_join hlengthLeft hlengthRight, getElem?_join_self hlengthLeft⟩
  | call func operand =>
      have hoperand := @fallsInto_operand operand positive false
      apply hoperand.call func
      rintro token opening tokens closing kind left right ⟨shape, houtline, hlength⟩
      refine ⟨0 :: shape.map (· + 1), houtline.call_enclosed kind left right, ?_, rfl⟩
      rw [List.length_cons, List.length_map, hlength]
      rfl

end Readings

def Excludes (tokens : List Token) (e : Expr) : Prop :=
  ∃ shape, Outline tokens shape ∧ e.Misfits shape

theorem fallsInto_enclose {e : Expr} {text : List Char} (h : FallsInto text (Excludes · e))
    (parens : Bool) : FallsInto (enclose parens text) (Excludes · e) := by
  apply h.operand
  · exact fun _ _ hexcludes => hexcludes
  · rintro opening tokens closing left right ⟨shape, houtline, hmisfits⟩
    exact ⟨shape.map (· + 1), houtline.enclosed left right, hmisfits.enclosed⟩

/-- What stands around a part of an operand, when the operand has its parentheses. -/
theorem enclose_around (parens : Bool) (before inner after : List Char) :
    enclose parens (before ++ inner ++ after) =
      opening parens ++ before ++ inner ++ (after ++ closing parens) := by
  rw [enclose_eq]
  simp only [List.append_assoc]

/-- Without the pair of parentheses the text falls into tokens that exclude the
expression. -/
theorem OperandPair.fallsInto {e : Expr} {before inner after : List Char}
    (pair : e.OperandPair before inner after) (positive : e.IsPositive) :
    FallsInto (before ++ inner ++ after) (Excludes · e) := by
  -- At the pair itself the operand comes to stand at the depth of its operation. Around it
  -- the depths are put together from those of the operands.
  induction pair with
  | @negation operand parens =>
      have hoperand := @IsPositive.fallsInto_chars operand positive
      have hloose := looserThan_of_takesParens parens (IsPositive.isNegative_eq_false positive)
      rw [List.append_nil, List.singleton_append]
      apply hoperand.negation
      rintro token tokens kind ⟨shape, houtline, hlength, hflat⟩
      exact ⟨0 :: shape, houtline.negation kind, .atNegation hlength hflat hloose⟩
  | @left op lhs rhs parens =>
      have hlhs := @IsPositive.fallsInto_chars lhs positive.1
      have hrhs := @IsPositive.fallsInto_operand rhs positive.2 (rhs.takesParens op true)
      have hloose := looserThan_of_takesParens parens (IsPositive.isNegative_eq_false positive.1)
      rw [List.nil_append, ← List.append_assoc]
      apply hlhs.binary hrhs
      rintro before token after kind ⟨left, hleft, hlengthLeft, hflat⟩ ⟨right, hright, hlengthRight⟩
      exact ⟨left ++ 0 :: right, .binary kind hleft hright,
        .atLeft hlengthLeft hlengthRight hflat hloose⟩
  | @right op lhs rhs parens =>
      have hlhs := @IsPositive.fallsInto_operand lhs positive.1 (lhs.takesParens op false)
      have hrhs := @IsPositive.fallsInto_chars rhs positive.2
      have hloose := looserThan_of_takesParens parens (IsPositive.isNegative_eq_false positive.2)
      rw [List.append_nil]
      apply hlhs.binary hrhs
      rintro before token after kind ⟨left, hleft, hlengthLeft⟩ ⟨right, hright, hlengthRight, hflat⟩
      exact ⟨left ++ 0 :: right, .binary kind hleft hright,
        .atRight hlengthLeft hlengthRight hflat hloose⟩
  | @inNegation operand before inner after _ ih =>
      have hoperand := fallsInto_enclose (ih positive) (operand.takesParens .pow true)
      rw [enclose_around] at hoperand
      apply hoperand.negation
      rintro token tokens kind ⟨shape, houtline, hmisfits⟩
      exact ⟨0 :: shape, houtline.negation kind, hmisfits.inNegation⟩
  | @inLeft op lhs rhs before inner after _ ih =>
      have hlhs := fallsInto_enclose (ih positive.1) (lhs.takesParens op false)
      have hrhs := @IsPositive.fallsInto_operand rhs positive.2 (rhs.takesParens op true)
      rw [enclose_around] at hlhs
      rw [List.append_assoc (after ++ _), ← List.append_assoc, ← List.append_assoc]
      apply hlhs.binary hrhs
      rintro before token after kind ⟨left, hleft, hmisfits⟩ ⟨right, hright, hlength⟩
      exact ⟨left ++ 0 :: right, .binary kind hleft hright, hmisfits.inLeft hlength⟩
  | @inRight op lhs rhs before inner after _ ih =>
      have hlhs := @IsPositive.fallsInto_operand lhs positive.1 (lhs.takesParens op false)
      have hrhs := fallsInto_enclose (ih positive.2) (rhs.takesParens op true)
      rw [enclose_around] at hrhs
      rw [List.append_assoc, List.append_assoc (enclose _ _ ++ _), ← List.append_assoc _ inner]
      apply hlhs.binary hrhs
      rintro before token after kind ⟨left, hleft, hlength⟩ ⟨right, hright, hmisfits⟩
      exact ⟨left ++ 0 :: right, .binary kind hleft hright, .inRight hlength hmisfits⟩
  | @inCall func operand before inner after _ ih =>
      have htext : func.callName.toList ++ '(' :: before ++ inner ++ (after ++ [')']) =
          func.callName.toList ++ enclose true (before ++ inner ++ after) := by
        simp [enclose]
      rw [htext]
      apply (ih positive).call func
      rintro token opening tokens closing kind left right ⟨shape, houtline, hmisfits⟩
      exact ⟨0 :: shape.map (· + 1), houtline.call_enclosed kind left right,
        hmisfits.enclosed.inCall func⟩

/-- Tokens that exclude the expression are a sum, but of no tree that is the same. -/
theorem Excludes.exists_derives {tokens : List Token} {e : Expr} (h : Excludes tokens e) :
    (∃ other, Derives .sum tokens other) ∧
      ∀ other, Derives .sum tokens other → other.same e = false := by
  obtain ⟨shape, houtline, hmisfits⟩ := h
  have halternates := houtline.alternates .done
  rw [List.append_nil] at halternates
  refine ⟨exists_derives_iff_alternates.mpr halternates, ?_⟩
  intro other hderives
  obtain ⟨shape', houtline', hfits⟩ := hderives.exists_outline
  obtain rfl := houtline.unique houtline'
  exact hmisfits.same_eq_false hfits

section Accounted

/-- An opening parenthesis of an operand is its own or one within it. -/
theorem enclose_eq_append_cons {parens : Bool} {text before rest : List Char}
    (h : enclose parens text = before ++ '(' :: rest) :
    (parens = true ∧ before = []) ∨
      ∃ before' rest', before = opening parens ++ before' ∧ text = before' ++ '(' :: rest' := by
  cases parens with
  | false => exact .inr ⟨before, rest, rfl, h⟩
  | true =>
      cases before with
      | nil => exact .inl ⟨rfl, rfl⟩
      | cons first before =>
          obtain ⟨hfirst, htext⟩ := List.cons.inj h
          rcases append_eq_append_cons htext with ⟨rest', htext, -⟩ | ⟨before', -, hclosing⟩
          · exact .inr ⟨before, rest', congrArg (· :: before) hfirst.symm, htext⟩
          · have hmember : '(' ∈ [')'] := by simp [hclosing]
            exact absurd hmember (by decide)

/-- An opening parenthesis that stands after this text in the text of the expression is that
of a call or of a pair. -/
def Accounted (e : Expr) (before : List Char) : Prop :=
  (∃ func : Func, func.callName.toList <:+ before) ∨ ∃ inner after, e.OperandPair before inner after

/-- What is accounted for in an operand is accounted for where the operand stands. -/
theorem Accounted.of_operand {e operand : Expr} {parens : Bool} {lead before rest : List Char}
    (h : enclose parens operand.chars = before ++ '(' :: rest)
    (accounted : ∀ {before rest}, operand.chars = before ++ '(' :: rest → operand.Accounted before)
    (own : parens = true → e.Accounted lead)
    (pairs : ∀ before inner after, operand.OperandPair before inner after →
      ∃ after', e.OperandPair (lead ++ (opening parens ++ before)) inner after') :
    e.Accounted (lead ++ before) := by
  rcases enclose_eq_append_cons h with ⟨hparens, rfl⟩ | ⟨within, rest', rfl, hwithin⟩
  · rw [List.append_nil]
    exact own hparens
  · rcases accounted hwithin with ⟨func, hname⟩ | ⟨inner, after, pair⟩
    · refine .inl ⟨func, ?_⟩
      rw [← List.append_assoc]
      exact hname.trans (List.suffix_append _ within)
    · obtain ⟨after', houter⟩ := pairs _ _ _ pair
      exact .inr ⟨inner, after', houter⟩

theorem IsPositive.accounted {e : Expr} (positive : e.IsPositive) {before rest : List Char}
    (h : e.chars = before ++ '(' :: rest) : e.Accounted before := by
  induction e generalizing before rest with
  | literal value =>
      have hmember : '(' ∈ (literal value).chars := by simp [h]
      exact absurd (positive.numeral.1.isDigit_or_eq _ hmember) (by decide)
  | var name =>
      have hmember : '(' ∈ (var name).chars := by simp [h]
      obtain rfl : '(' = name := List.mem_singleton.mp hmember
      cases positive
  | neg operand ih =>
      rw [chars_neg] at h
      cases before with
      | nil => cases h
      | cons first before =>
          obtain ⟨rfl, hoperand⟩ := List.cons.inj h
          exact @Accounted.of_operand _ _ _ ['-'] _ _ hoperand (ih positive)
            (fun parens => .inr ⟨_, _, .negation parens⟩) fun _ _ _ pair => ⟨_, .inNegation pair⟩
  | binary op lhs rhs ihl ihr =>
      rw [chars_binary] at h
      rcases append_eq_append_cons h with ⟨_, hleft, -⟩ | ⟨right, rfl, hrhs⟩
      · rcases append_eq_append_cons hleft with ⟨_, hlhs, -⟩ | ⟨left, rfl, hseparator⟩
        · exact @Accounted.of_operand _ _ _ [] _ _ hlhs (ihl positive.1)
            (fun parens => .inr ⟨_, _, .left parens⟩) fun _ _ _ pair => ⟨_, .inLeft pair⟩
        · have hmember : '(' ∈ separator op := by simp [hseparator]
          cases op <;> exact absurd hmember (by decide)
      · exact .of_operand hrhs (ihr positive.2) (fun parens => .inr ⟨_, _, .right parens⟩)
          fun _ _ _ pair => ⟨_, .inRight pair⟩
  | call func operand ih =>
      rw [chars] at h
      rcases append_eq_append_cons h with ⟨_, hname, -⟩ | ⟨right, rfl, hoperand⟩
      · have hmember : '(' ∈ func.callName.toList := by simp [hname]
        cases func <;> exact absurd hmember (by decide)
      · exact .of_operand hoperand (ih positive) (fun _ => .inl ⟨func, List.suffix_rfl⟩)
          fun _ _ _ pair => ⟨_, .inCall pair⟩

end Accounted

end Expr

/-- The text of an expression in which no literal has a sign has no parentheses too many:
without the pair around an operand it still reads, but as another expression. Every
parenthesis that does not follow the name of a function belongs to such a pair. -/
theorem operand_parentheses_needed (e : Expr) (positive : e.IsPositive) :
    (∀ before inner after, e.OperandPair before inner after →
      e.chars = before ++ '(' :: inner ++ ')' :: after ∧
        (∀ limit built, parse limit (.ofList (before ++ inner ++ after)) = .ok built →
          built.same e = false) ∧
        ∃ other, ∀ limit, other.depth ≤ limit →
          parse limit (.ofList (before ++ inner ++ after)) = .ok other) ∧
      ∀ before rest, e.chars = before ++ '(' :: rest →
        (∃ func : Func, func.callName.toList <:+ before) ∨
          ∃ inner after, e.OperandPair before inner after := by
  refine ⟨?_, fun before rest => positive.accounted⟩
  intro before inner after pair
  have hexcludes := (pair.fallsInto positive).holds_tokenize
  obtain ⟨⟨other, hother⟩, hdifferent⟩ := hexcludes.exists_derives
  -- The tokens are a sum, so they are accepted only with the tree of a derivation.
  have hchain : (tokenize (.ofList (before ++ inner ++ after))).IsChain Token.Adjoins :=
    (exists_derives_iff_alternates.mp ⟨other, hother⟩).isChain
  have hread : ∀ limit built, parse limit (.ofList (before ++ inner ++ after)) = .ok built ↔
      Derives .sum (tokenize (.ofList (before ++ inner ++ after))) built ∧ built.depth ≤ limit := by
    intro limit built
    rw [← Rpn.reads_iff_derives (fun token member => (exists_lexeme_of_mem_tokenize member).1),
      parse_eq_ok_iff]
    exact (and_iff_left hchain).symm
  refine ⟨pair.chars_eq, ?_, other, ?_⟩
  · intro limit built hbuilt
    exact hdifferent built ((hread limit built).mp hbuilt).1
  · intro limit hdepth
    exact (hread limit other).mpr ⟨hother, hdepth⟩

/-- In `x - (y - 2)` the pair makes the difference. -/
theorem operand_parentheses_needed_difference :
    (Expr.sub (.var 'x') (.sub (.var 'y') (.literal 2))).text = "x - (y - 2)" ∧
      (∀ limit built, parse limit "x - y - 2" = .ok built →
        built.same (.sub (.var 'x') (.sub (.var 'y') (.literal 2))) = false) ∧
      ∃ other, ∀ limit, other.depth ≤ limit → parse limit "x - y - 2" = .ok other := by
  have hpair : (Expr.sub (.var 'x') (.sub (.var 'y') (.literal 2))).OperandPair
      ['x', ' ', '-', ' '] ['y', ' ', '-', ' ', '2'] [] := by
    have htext : (Expr.sub (.var 'y') (.literal 2)).chars = ['y', ' ', '-', ' ', '2'] := by
      decide +kernel
    rw [← htext]
    exact .right rfl
  obtain ⟨hchars, hdifferent, hreads⟩ :=
    (operand_parentheses_needed _ (by decide +kernel)).1 _ _ _ hpair
  exact ⟨congrArg String.ofList hchars, hdifferent, hreads⟩

end Formula
