import Formula.Proofs.Expr.Leaves
import Formula.Proofs.Parse.Alternation
import Formula.Proofs.Parse.Conservation
import Formula.Proofs.Parse.RoundTrip

/-!
How deep in parentheses each token of a phrase stands. Apart from parentheses the tokens
are the nodes of the tree in the order in which they are written, so the depths belong to
the nodes. An operand that stands no deeper than its operation has no parentheses to it,
and is then no looser than its place asks for; so the depths refuse every tree in which it
is looser.
-/

namespace Formula

def depths : Nat → List Token → List Nat
  | _, [] => []
  | depth, token :: rest =>
      match token.kind with
      | .leftParen => depths (depth + 1) rest
      | .rightParen => depths (depth - 1) rest
      | _ => depth :: depths depth rest

section Depths

variable {token : Token} (depth : Nat) (rest : List Token)

theorem depths_opening (kind : token.kind = .leftParen) :
    depths depth (token :: rest) = depths (depth + 1) rest := by
  rw [depths, kind]

theorem depths_closing (kind : token.kind = .rightParen) :
    depths (depth + 1) (token :: rest) = depths depth rest := by
  rw [depths, kind]
  rfl

theorem depths_other (other : token.kind.isParen = false) :
    depths depth (token :: rest) = depth :: depths depth rest := by
  rw [depths]
  cases hkind : token.kind with
  | leftParen =>
      rw [hkind] at other
      cases other
  | rightParen =>
      rw [hkind] at other
      cases other
  | _ => rfl

end Depths

/-- The tokens can stand for an operand, wherever one may begin, and bring with them these
depths below the one at which they stand. -/
structure Outline (tokens : List Token) (shape : List Nat) : Prop where
  alternates : ∀ {depth rest}, Alternates false depth rest →
    Alternates true depth (tokens ++ rest)
  depths_append : ∀ depth rest,
    depths depth (tokens ++ rest) = shape.map (depth + ·) ++ depths depth rest

namespace Outline

variable {tokens before after : List Token} {shape left right : List Nat} {token : Token}

/-- Tokens have one outline only. -/
theorem unique {shape' : List Nat} (h : Outline tokens shape) (h' : Outline tokens shape') :
    shape = shape' := by
  have hdepths := (h.depths_append 0 []).symm.trans (h'.depths_append 0 [])
  simpa only [depths, Nat.zero_add, List.map_id', List.append_nil] using hdepths

theorem number {value : Float} (kind : token.kind = .number)
    (read : Number.read? token.lexeme = some value) : Outline [token] [0] where
  alternates := .number kind read
  depths_append depth rest := depths_other depth rest (by rw [kind]; rfl)

theorem letter (kind : token.kind = .letter) : Outline [token] [0] where
  alternates := .letter kind
  depths_append depth rest := depths_other depth rest (by rw [kind]; rfl)

theorem negation (kind : token.kind = .binary .sub) (operand : Outline tokens shape) :
    Outline (token :: tokens) (0 :: shape) where
  alternates later := .minus kind (operand.alternates later)
  depths_append depth rest := by
    rw [List.cons_append, depths_other depth _ (by rw [kind]; rfl), operand.depths_append]
    rfl

theorem call {func : Func} (kind : token.kind = .func func) (operand : Outline tokens shape)
    (bare : ∃ first rest, tokens = first :: rest ∧ first.kind ≠ .binary .sub) :
    Outline (token :: tokens) (0 :: shape) where
  alternates later := by
    refine .function kind ?_ (operand.alternates later)
    obtain ⟨first, more, rfl, hfirst⟩ := bare
    intro next member
    cases member
    exact hfirst
  depths_append depth rest := by
    rw [List.cons_append, depths_other depth _ (by rw [kind]; rfl), operand.depths_append]
    rfl

theorem binary {op : BinaryOp} (kind : token.kind = .binary op) (lhs : Outline before left)
    (rhs : Outline after right) : Outline (before ++ token :: after) (left ++ 0 :: right) where
  alternates later := by
    rw [List.append_assoc]
    exact lhs.alternates (.operator kind (rhs.alternates later))
  depths_append depth rest := by
    rw [List.append_assoc, lhs.depths_append, List.cons_append,
      depths_other depth _ (by rw [kind]; rfl), rhs.depths_append]
    simp only [List.map_append, List.map_cons, List.append_assoc, List.cons_append, Nat.add_zero]

theorem enclosed {opening closing : Token} (opens : opening.kind = .leftParen)
    (closes : closing.kind = .rightParen) (inner : Outline tokens shape) :
    Outline (opening :: (tokens ++ [closing])) (shape.map (· + 1)) where
  alternates later := by
    rw [List.cons_append, List.append_assoc]
    exact .opening opens (inner.alternates (.closing closes later))
  depths_append depth rest := by
    have hdeeper : shape.map (depth + 1 + ·) = (shape.map (· + 1)).map (depth + ·) := by
      rw [List.map_map]
      apply List.map_congr_left
      intro entry _
      exact Nat.add_right_comm depth 1 entry
    rw [List.cons_append, List.append_assoc, depths_opening depth _ opens, inner.depths_append,
      List.singleton_append, depths_closing depth rest closes, hdeeper]

theorem call_enclosed {func : Func} {opening closing : Token} (kind : token.kind = .func func)
    (opens : opening.kind = .leftParen) (closes : closing.kind = .rightParen)
    (inner : Outline tokens shape) :
    Outline (token :: opening :: (tokens ++ [closing])) (0 :: shape.map (· + 1)) := by
  have hbare : opening.kind ≠ .binary .sub := by
    rw [opens]
    exact TokenKind.noConfusion
  exact (inner.enclosed opens closes).call kind ⟨opening, _, rfl, hbare⟩

end Outline

namespace Expr

/-- The place of the outermost operation among the nodes, in the order of the text. -/
def root : Expr → Nat
  | .binary _ lhs _ => lhs.size
  | _ => 0

def LooserThan (e : Expr) (phrase : Phrase) : Prop :=
  ∃ own ∈ e.precedence?, own.rank < phrase.level

/-- `Strains e i j`: an operand of the node at the place `i` is the node at the place `j`, and
is looser than what stands there without parentheses. -/
inductive Strains : Expr → Nat → Nat → Prop
  | negation {operand : Expr} (loose : operand.LooserThan .factor) :
      Strains (.neg operand) 0 (operand.root + 1)
  | left {op : BinaryOp} {lhs rhs : Expr} (loose : lhs.LooserThan (op.operandPhrase false)) :
      Strains (.binary op lhs rhs) lhs.size lhs.root
  | right {op : BinaryOp} {lhs rhs : Expr} (loose : rhs.LooserThan (op.operandPhrase true)) :
      Strains (.binary op lhs rhs) lhs.size (lhs.size + 1 + rhs.root)
  | inNegation {operand : Expr} {i j : Nat} (inner : Strains operand i j) :
      Strains (.neg operand) (i + 1) (j + 1)
  | inLeft {op : BinaryOp} {lhs rhs : Expr} {i j : Nat} (inner : Strains lhs i j) :
      Strains (.binary op lhs rhs) i j
  | inRight {op : BinaryOp} {lhs rhs : Expr} {i j : Nat} (inner : Strains rhs i j) :
      Strains (.binary op lhs rhs) (lhs.size + 1 + i) (lhs.size + 1 + j)
  | inCall {func : Func} {operand : Expr} {i j : Nat} (inner : Strains operand i j) :
      Strains (.call func operand) (i + 1) (j + 1)

theorem root_lt_size (e : Expr) : e.root < e.size := by
  cases e with
  | binary op lhs rhs =>
      rw [root, size]
      omega
  | _ => exact size_pos _

theorem Strains.lt_size {e : Expr} {i j : Nat} (h : e.Strains i j) : i < e.size ∧ j < e.size := by
  induction h with
  | @negation operand _ =>
      have hroot := operand.root_lt_size
      rw [size]
      omega
  | @left op lhs rhs _ =>
      have hroot := lhs.root_lt_size
      rw [size]
      omega
  | @right op lhs rhs _ =>
      have hroot := rhs.root_lt_size
      rw [size]
      omega
  | inNegation _ ih | inLeft _ ih | inRight _ ih | inCall _ ih =>
      rw [size]
      omega

section Same

variable {e e' : Expr}

theorem size_eq_of_same (h : e.same e' = true) : e.size = e'.size := by
  rw [← e.size_mapLeaves, ← e'.size_mapLeaves]
  exact congrArg size ((same_iff e e').mp h)

theorem root_eq_of_same (h : e.same e' = true) : e.root = e'.root := by
  cases e with
  | binary op lhs rhs =>
      cases e' with
      | binary op' lhs' rhs' =>
          simp only [same, Bool.and_eq_true] at h
          exact size_eq_of_same h.1.2
      | _ => cases h
  | _ => cases e' <;> first | rfl | cases h

theorem LooserThan.of_same {phrase : Phrase} (loose : e.LooserThan phrase)
    (h : e.same e' = true) : e'.LooserThan phrase := by
  have hown : e.precedence? = e'.precedence? := by
    cases e <;> cases e' <;> first | rfl | cases h | skip
    simp only [same, Bool.and_eq_true, beq_iff_eq] at h
    rw [precedence?, precedence?, h.1.1]
  rwa [LooserThan, ← hown]

theorem exists_neg_of_same {operand : Expr} (h : (neg operand).same e' = true) :
    ∃ operand', e' = .neg operand' ∧ operand.same operand' = true := by
  cases e' with
  | neg operand' => exact ⟨operand', rfl, h⟩
  | _ => cases h

theorem exists_call_of_same {func : Func} {operand : Expr}
    (h : (call func operand).same e' = true) :
    ∃ operand', e' = .call func operand' ∧ operand.same operand' = true := by
  cases e' with
  | call func' operand' =>
      simp only [same, Bool.and_eq_true, beq_iff_eq] at h
      obtain ⟨rfl, hoperand⟩ := h
      exact ⟨operand', rfl, hoperand⟩
  | _ => cases h

theorem exists_binary_of_same {op : BinaryOp} {lhs rhs : Expr}
    (h : (binary op lhs rhs).same e' = true) :
    ∃ lhs' rhs', e' = .binary op lhs' rhs' ∧ lhs.same lhs' = true ∧ rhs.same rhs' = true := by
  cases e' with
  | binary op' lhs' rhs' =>
      simp only [same, Bool.and_eq_true, beq_iff_eq] at h
      obtain ⟨⟨rfl, hlhs⟩, hrhs⟩ := h
      exact ⟨lhs', rhs', rfl, hlhs, hrhs⟩
  | _ => cases h

/-- Which places there are, and what stands there but for its literals, is the same in
expressions that are. -/
theorem Strains.of_same {i j : Nat} (strains : e.Strains i j) (h : e.same e' = true) :
    e'.Strains i j := by
  induction strains generalizing e' with
  | negation loose =>
      obtain ⟨operand', rfl, hoperand⟩ := exists_neg_of_same h
      rw [root_eq_of_same hoperand]
      exact .negation (loose.of_same hoperand)
  | left loose =>
      obtain ⟨lhs', rhs', rfl, hlhs, -⟩ := exists_binary_of_same h
      rw [size_eq_of_same hlhs, root_eq_of_same hlhs]
      exact .left (loose.of_same hlhs)
  | right loose =>
      obtain ⟨lhs', rhs', rfl, hlhs, hrhs⟩ := exists_binary_of_same h
      rw [size_eq_of_same hlhs, root_eq_of_same hrhs]
      exact .right (loose.of_same hrhs)
  | inNegation _ ih =>
      obtain ⟨operand', rfl, hoperand⟩ := exists_neg_of_same h
      exact .inNegation (ih hoperand)
  | inLeft _ ih =>
      obtain ⟨lhs', rhs', rfl, hlhs, -⟩ := exists_binary_of_same h
      exact .inLeft (ih hlhs)
  | inRight _ ih =>
      obtain ⟨lhs', rhs', rfl, hlhs, hrhs⟩ := exists_binary_of_same h
      rw [size_eq_of_same hlhs]
      exact .inRight (ih hrhs)
  | inCall _ ih =>
      obtain ⟨operand', rfl, hoperand⟩ := exists_call_of_same h
      exact .inCall (ih hoperand)

end Same

section Join

variable {left right : List Nat} {lhs : Expr}

/-! The depths of the nodes of an operation: those of the left operand, that of the
operation itself, and those of the right operand. -/

theorem getElem?_join_left (length : left.length = lhs.size) {i : Nat} (bound : i < lhs.size) :
    (left ++ 0 :: right)[i]? = left[i]? :=
  List.getElem?_append_left (length ▸ bound)

theorem getElem?_join_self (length : left.length = lhs.size) :
    (left ++ 0 :: right)[lhs.size]? = some 0 := by
  rw [← length, List.getElem?_append_right (Nat.le_refl _), Nat.sub_self]
  rfl

theorem getElem?_join_right (length : left.length = lhs.size) (i : Nat) :
    (left ++ 0 :: right)[lhs.size + 1 + i]? = right[i]? := by
  have hplace : lhs.size + 1 + i - left.length = i + 1 := by omega
  rw [List.getElem?_append_right (by omega), hplace]
  rfl

end Join

/-- The nodes of the expression can stand at these depths in a phrase: where an operand is
looser than its place asks for, it stands at another depth than its operation, and if the
expression itself is looser than the phrase then it stands in parentheses. -/
structure Fits (phrase : Phrase) (shape : List Nat) (e : Expr) : Prop where
  length_eq : shape.length = e.size
  tight : shape[e.root]? = some 0 → ¬e.LooserThan phrase
  apart : ∀ {i j}, e.Strains i j → shape[i]? ≠ shape[j]?

namespace Fits

variable {phrase inner : Phrase} {shape left right : List Nat} {e a b : Expr}

theorem weaken (h : Fits inner shape e) (level : phrase.level ≤ inner.level) :
    Fits phrase shape e where
  length_eq := h.length_eq
  tight hroot := by
    rintro ⟨own, hown, hloose⟩
    exact h.tight hroot ⟨own, hown, Nat.lt_of_lt_of_le hloose level⟩
  apart := h.apart

theorem literal (value : Float) : Fits phrase [0] (.literal value) where
  length_eq := rfl
  tight _ := fun ⟨_, hown, _⟩ => nomatch hown
  apart strains := nomatch strains

theorem var (name : Char) : Fits phrase [0] (.var name) where
  length_eq := rfl
  tight _ := fun ⟨_, hown, _⟩ => nomatch hown
  apart strains := nomatch strains

theorem negation (operand : Fits .factor shape e) : Fits .factor (0 :: shape) (.neg e) where
  length_eq := congrArg (· + 1) operand.length_eq
  tight _ := by
    rintro ⟨own, ⟨⟩, hloose⟩
    exact absurd hloose (by decide)
  apart strains := by
    cases strains with
    | negation loose => exact fun hsame => operand.tight hsame.symm loose
    | inNegation inner => exact operand.apart inner

theorem call (func : Func) (operand : Fits .base shape e) :
    Fits phrase (0 :: shape) (.call func e) where
  length_eq := congrArg (· + 1) operand.length_eq
  tight _ := fun ⟨_, hown, _⟩ => nomatch hown
  apart strains := by
    cases strains with
    | inCall inner => exact operand.apart inner

theorem binary (op : BinaryOp) (lhs : Fits (op.operandPhrase false) left a)
    (rhs : Fits (op.operandPhrase true) right b) :
    Fits op.phrase (left ++ 0 :: right) (.binary op a b) where
  length_eq := by
    rw [List.length_append, List.length_cons, lhs.length_eq, rhs.length_eq]
    rfl
  tight _ := by
    rintro ⟨own, ⟨⟩, hloose⟩
    cases op <;> exact absurd hloose (by decide)
  apart strains := by
    cases strains with
    | left loose =>
        rw [getElem?_join_self lhs.length_eq, getElem?_join_left lhs.length_eq a.root_lt_size]
        exact fun hsame => lhs.tight hsame.symm loose
    | right loose =>
        rw [getElem?_join_self lhs.length_eq, getElem?_join_right lhs.length_eq]
        exact fun hsame => rhs.tight hsame.symm loose
    | inLeft inner =>
        obtain ⟨hi, hj⟩ := inner.lt_size
        rw [getElem?_join_left lhs.length_eq hi, getElem?_join_left lhs.length_eq hj]
        exact lhs.apart inner
    | inRight inner =>
        rw [getElem?_join_right lhs.length_eq, getElem?_join_right lhs.length_eq]
        exact rhs.apart inner

/-- In parentheses no node stands at the depth of what is around them. -/
theorem enclosed (h : Fits inner shape e) : Fits phrase (shape.map (· + 1)) e where
  length_eq := (List.length_map _).trans h.length_eq
  tight hroot := by
    rw [List.getElem?_map, Option.map_eq_some_iff] at hroot
    obtain ⟨depth, -, hzero⟩ := hroot
    exact absurd hzero (Nat.succ_ne_zero depth)
  apart strains := by
    rw [List.getElem?_map, List.getElem?_map]
    exact fun hsame => h.apart strains (Option.map_injective (add_left_injective 1) hsame)

end Fits

structure Misfits (shape : List Nat) (e : Expr) : Prop where
  length_eq : shape.length = e.size
  strained : ∃ i j, e.Strains i j ∧ shape[i]? = shape[j]?

namespace Misfits

variable {shape left right : List Nat} {e a b : Expr} {op : BinaryOp}

theorem same_eq_false (h : e.Misfits shape) {phrase : Phrase} (fits : a.Fits phrase shape) :
    a.same e = false := by
  rw [Bool.eq_false_iff]
  intro hsame
  obtain ⟨i, j, hstrains, hdepth⟩ := h.strained
  have hplain := ((same_iff a e).mp hsame).symm
  exact fits.apart (hstrains.of_same ((same_iff e a).mpr hplain)) hdepth

theorem atNegation (length : shape.length = e.size) (flat : shape[e.root]? = some 0)
    (loose : e.LooserThan .factor) : (neg e).Misfits (0 :: shape) where
  length_eq := congrArg (· + 1) length
  strained := ⟨0, e.root + 1, .negation loose, flat.symm⟩

theorem length_join (lengthLeft : left.length = a.size) (lengthRight : right.length = b.size) :
    (left ++ 0 :: right).length = (binary op a b).size := by
  rw [List.length_append, List.length_cons, lengthLeft, lengthRight]
  rfl

theorem atLeft (lengthLeft : left.length = a.size) (lengthRight : right.length = b.size)
    (flat : left[a.root]? = some 0) (loose : a.LooserThan (op.operandPhrase false)) :
    (binary op a b).Misfits (left ++ 0 :: right) where
  length_eq := length_join lengthLeft lengthRight
  strained := by
    refine ⟨a.size, a.root, .left loose, ?_⟩
    rw [getElem?_join_self lengthLeft, getElem?_join_left lengthLeft a.root_lt_size, flat]

theorem atRight (lengthLeft : left.length = a.size) (lengthRight : right.length = b.size)
    (flat : right[b.root]? = some 0) (loose : b.LooserThan (op.operandPhrase true)) :
    (binary op a b).Misfits (left ++ 0 :: right) where
  length_eq := length_join lengthLeft lengthRight
  strained := by
    refine ⟨a.size, a.size + 1 + b.root, .right loose, ?_⟩
    rw [getElem?_join_self lengthLeft, getElem?_join_right lengthLeft, flat]

theorem inNegation (h : e.Misfits shape) : (neg e).Misfits (0 :: shape) where
  length_eq := congrArg (· + 1) h.length_eq
  strained := by
    obtain ⟨i, j, hstrains, hdepth⟩ := h.strained
    exact ⟨i + 1, j + 1, .inNegation hstrains, hdepth⟩

theorem inCall (func : Func) (h : e.Misfits shape) : (call func e).Misfits (0 :: shape) where
  length_eq := congrArg (· + 1) h.length_eq
  strained := by
    obtain ⟨i, j, hstrains, hdepth⟩ := h.strained
    exact ⟨i + 1, j + 1, .inCall hstrains, hdepth⟩

theorem inLeft (h : a.Misfits left) (lengthRight : right.length = b.size) :
    (binary op a b).Misfits (left ++ 0 :: right) where
  length_eq := length_join h.length_eq lengthRight
  strained := by
    obtain ⟨i, j, hstrains, hdepth⟩ := h.strained
    obtain ⟨hi, hj⟩ := hstrains.lt_size
    refine ⟨i, j, .inLeft hstrains, ?_⟩
    rw [getElem?_join_left h.length_eq hi, getElem?_join_left h.length_eq hj, hdepth]

theorem inRight (lengthLeft : left.length = a.size) (h : b.Misfits right) :
    (binary op a b).Misfits (left ++ 0 :: right) where
  length_eq := length_join lengthLeft h.length_eq
  strained := by
    obtain ⟨i, j, hstrains, hdepth⟩ := h.strained
    refine ⟨a.size + 1 + i, a.size + 1 + j, .inRight hstrains, ?_⟩
    rw [getElem?_join_right lengthLeft, getElem?_join_right lengthLeft, hdepth]

theorem enclosed (h : e.Misfits shape) : e.Misfits (shape.map (· + 1)) where
  length_eq := (List.length_map _).trans h.length_eq
  strained := by
    obtain ⟨i, j, hstrains, hdepth⟩ := h.strained
    refine ⟨i, j, hstrains, ?_⟩
    rw [List.getElem?_map, List.getElem?_map, hdepth]

end Misfits

end Expr

/-- The tokens of a phrase have an outline, into which its tree fits. -/
theorem Derives.exists_outline {phrase : Phrase} {tokens : List Token} {e : Expr}
    (h : Derives phrase tokens e) : ∃ shape, Outline tokens shape ∧ e.Fits phrase shape := by
  induction h with
  | sum _ ih | product _ ih | factor _ ih =>
      obtain ⟨shape, houtline, hfits⟩ := ih
      exact ⟨shape, houtline, hfits.weaken (by decide)⟩
  | term sign kind _ _ ihl ihr =>
      obtain ⟨left, hleft, hlhs⟩ := ihl
      obtain ⟨right, hright, hrhs⟩ := ihr
      refine ⟨left ++ 0 :: right, .binary kind hleft hright, ?_⟩
      rcases sign with rfl | rfl
      · exact .binary .add hlhs hrhs
      · exact .binary .sub hlhs hrhs
  | scale sign kind _ _ ihl ihr =>
      obtain ⟨left, hleft, hlhs⟩ := ihl
      obtain ⟨right, hright, hrhs⟩ := ihr
      refine ⟨left ++ 0 :: right, .binary kind hleft hright, ?_⟩
      rcases sign with rfl | rfl
      · exact .binary .mul hlhs hrhs
      · exact .binary .div hlhs hrhs
  | power kind _ _ ihl ihr =>
      obtain ⟨left, hleft, hlhs⟩ := ihl
      obtain ⟨right, hright, hrhs⟩ := ihr
      exact ⟨left ++ 0 :: right, .binary kind hleft hright, .binary .pow hlhs hrhs⟩
  | negation kind _ ih =>
      obtain ⟨shape, houtline, hfits⟩ := ih
      exact ⟨0 :: shape, houtline.negation kind, hfits.negation⟩
  | number kind read => exact ⟨[0], .number kind read, .literal _⟩
  | letter kind => exact ⟨[0], .letter kind, .var _⟩
  | parentheses left right _ ih =>
      obtain ⟨shape, houtline, hfits⟩ := ih
      exact ⟨shape.map (· + 1), houtline.enclosed left right, hfits.enclosed⟩
  | call kind operand ih =>
      obtain ⟨shape, houtline, hfits⟩ := ih
      exact ⟨0 :: shape, houtline.call kind operand.base_head, .call _ hfits⟩

end Formula
