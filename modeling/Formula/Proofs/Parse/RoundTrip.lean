import Formula.Expr.Notation
import Formula.Parse
import Formula.Proofs.Parse.Reordering
import Formula.Proofs.Token.Scan

/-!
The text of an expression reads back. What is written of an expression is a phrase of the
grammar, as tight as its outermost operation, and parentheses stand exactly around the
operands that are looser phrases than their place asks for. By induction on the
expression its text falls into the tokens of that phrase, whatever follows that does not
belong to its last token. A literal below zero is written as a negation and is read as
one.
-/

namespace Formula

open Lexeme

theorem Precedence.rank_injective : Function.Injective Precedence.rank := by
  intro a b h
  cases a <;> cases b <;> first | rfl | exact nomatch h

namespace BinaryOp

def phrase : BinaryOp → Phrase
  | .add | .sub => .sum
  | .mul | .div => .product
  | .pow => .factor

def operandPhrase (op : BinaryOp) (isRight : Bool) : Phrase :=
  match op, isRight with
  | .add, false | .sub, false => .sum
  | .add, true | .sub, true | .mul, false | .div, false => .product
  | .mul, true | .div, true | .pow, true => .factor
  | .pow, false => .base

end BinaryOp

namespace Expr

def unsigned : Expr → Expr
  | .literal value => if value < 0 then .neg (.literal (-value)) else .literal value
  | .var name => .var name
  | .neg operand => .neg operand.unsigned
  | .binary op lhs rhs => .binary op lhs.unsigned rhs.unsigned
  | .call func operand => .call func operand.unsigned

def EveryLeaf (number : Float → Prop) (name : Char → Prop) : Expr → Prop
  | .literal value => number value
  | .var letter => name letter
  | .neg operand | .call _ operand => operand.EveryLeaf number name
  | .binary _ lhs rhs => lhs.EveryLeaf number name ∧ rhs.EveryLeaf number name

def IsPlain (e : Expr) : Prop :=
  e.EveryLeaf (fun value => value.isFinite = true ∧ value ≠ -0) (·.isLower = true)

def IsUnsigned (e : Expr) : Prop := e.EveryLeaf (¬ · < 0) fun _ => True

instance decidableEveryLeaf (number : Float → Prop) (name : Char → Prop) [DecidablePred number]
    [DecidablePred name] : (e : Expr) → Decidable (e.EveryLeaf number name)
  | .literal value => inferInstanceAs (Decidable (number value))
  | .var letter => inferInstanceAs (Decidable (name letter))
  | .neg operand | .call _ operand => decidableEveryLeaf number name operand
  | .binary _ lhs rhs =>
      @instDecidableAnd _ _ (decidableEveryLeaf number name lhs) (decidableEveryLeaf number name rhs)

instance (e : Expr) : Decidable e.IsPlain := inferInstanceAs (Decidable (e.EveryLeaf _ _))

instance (e : Expr) : Decidable e.IsUnsigned := inferInstanceAs (Decidable (e.EveryLeaf _ _))

theorem EveryLeaf.imp {number number' : Float → Prop} {name name' : Char → Prop} {e : Expr}
    (h : e.EveryLeaf number name) (hnumber : ∀ value, number value → number' value)
    (hname : ∀ letter, name letter → name' letter) : e.EveryLeaf number' name' := by
  induction e with
  | literal value => exact hnumber value h
  | var letter => exact hname letter h
  | neg operand ih => exact ih h
  | call func operand ih => exact ih h
  | binary op lhs rhs ihl ihr => exact ⟨ihl h.1, ihr h.2⟩

theorem unsigned_of_isUnsigned {e : Expr} (h : e.IsUnsigned) : e.unsigned = e := by
  induction e with
  | literal value => exact if_neg h
  | var name => rfl
  | neg operand ih => exact congrArg neg (ih h)
  | binary op lhs rhs ihl ihr => exact congrArg₂ (binary op) (ihl h.1) (ihr h.2)
  | call func operand ih => exact congrArg (call func) (ih h)

def phrase : Expr → Phrase
  | .literal value => if value < 0 then .factor else .base
  | .var _ | .call .. => .base
  | .neg _ => .factor
  | .binary op .. => op.phrase

theorem level_phrase_eq_rank {e : Expr} {own : Precedence} (h : e.precedence? = some own) :
    e.phrase.level = own.rank := by
  cases e with
  | neg operand =>
      cases h
      rfl
  | binary op lhs rhs =>
      cases h
      cases op <;> rfl
  | _ => cases h

theorem phrase_eq_base {e : Expr} (h : e.precedence? = none) (sign : e.isNegative = false) :
    e.phrase = .base := by
  cases e with
  | literal value =>
      simp only [isNegative, number?, Option.any_some, decide_eq_false_iff_not] at sign
      exact if_neg sign
  | neg operand => cases h
  | binary op lhs rhs => cases h
  | _ => rfl

/-- An operand without parentheses is no looser than its place asks for. A place asks for
more than the strength of the operation only on the side to which it does not group, and
there an operand of the same strength has parentheses. -/
theorem level_operandPhrase_le {operand : Expr} {op : BinaryOp} {isRight : Bool}
    (h : operand.needsParens op.precedence op.associativity isRight = false) :
    (op.operandPhrase isRight).level ≤ operand.phrase.level := by
  have hplace : (op.operandPhrase isRight).level ≤ op.precedence.rank + 1 := by
    cases op <;> cases isRight <;> decide
  unfold needsParens at h
  rw [Bool.or_eq_false_iff] at h
  obtain ⟨hsign, hparens⟩ := h
  -- What is no operation is as tight as can be; operations are compared by their ranks.
  cases hown : operand.precedence? with
  | none =>
      have hrank : op.precedence.rank ≤ 4 := by cases op <;> decide
      rw [phrase_eq_base hown hsign]
      exact Nat.le_trans hplace (Nat.succ_le_succ hrank)
  | some own =>
      rw [hown] at hparens
      simp only [Bool.or_eq_false_iff, decide_eq_false_iff_not, Bool.and_eq_false_iff] at hparens
      obtain ⟨hrank, hown' | hside⟩ := hparens
      · have hdiffer : own.rank ≠ op.precedence.rank := by
          rw [beq_eq_false_iff_ne] at hown'
          exact fun hsame => hown' (Precedence.rank_injective hsame)
        rw [level_phrase_eq_rank hown]
        omega
      · have hsame : (op.operandPhrase isRight).level ≤ op.precedence.rank := by
          revert hside
          cases op <;> cases isRight <;> decide
        rw [level_phrase_eq_rank hown]
        omega

end Expr

/-- A tight phrase is a loose one too. -/
theorem Derives.weaken {phrase inner : Phrase} {tokens : List Token} {e : Expr}
    (h : Derives inner tokens e) (level : phrase.level ≤ inner.level) :
    Derives phrase tokens e := by
  cases inner with
  | sum =>
      cases phrase with
      | sum => exact h
      | _ => exact absurd level (by decide)
  | product =>
      cases phrase with
      | sum => exact .sum h
      | product => exact h
      | _ => exact absurd level (by decide)
  | factor =>
      cases phrase with
      | sum => exact .sum (.product h)
      | product => exact .product h
      | factor => exact h
      | base => exact absurd level (by decide)
  | base =>
      cases phrase with
      | sum => exact .sum (.product (.factor h))
      | product => exact .product (.factor h)
      | factor => exact .factor h
      | base => exact h

theorem Derives.binary {op : BinaryOp} {before after : List Token} {token : Token} {a b : Expr}
    (kind : token.kind = .binary op) (lhs : Derives (op.operandPhrase false) before a)
    (rhs : Derives (op.operandPhrase true) after b) :
    Derives op.phrase (before ++ token :: after) (.binary op a b) := by
  cases op with
  | add => exact .term (.inl rfl) kind lhs rhs
  | sub => exact .term (.inr rfl) kind lhs rhs
  | mul => exact .scale (.inl rfl) kind lhs rhs
  | div => exact .scale (.inr rfl) kind lhs rhs
  | pow => exact .power kind lhs rhs

/-- After no word and before a rest that does not belong to it, the text falls into tokens
of which this holds. -/
def FallsInto (text : List Char) (holds : List Token → Prop) : Prop :=
  ∀ before offset rest, before.any isWordChar = false → Closes rest →
    ∃ tokens before' offset', holds tokens ∧
      tokensFrom before offset (text ++ rest) = tokens ++ tokensFrom before' offset' rest

namespace FallsInto

variable {text left right : List Char} {holds holds' holds'' : List Token → Prop}

theorem imp (h : FallsInto text holds) (himp : ∀ tokens, holds tokens → holds' tokens) :
    FallsInto text holds' := by
  intro before offset rest apart closes
  obtain ⟨tokens, before', offset', hholds, htokens⟩ := h before offset rest apart closes
  exact ⟨tokens, before', offset', himp tokens hholds, htokens⟩

theorem numeral (h : Numeral text)
    (token : ∀ token : Token, token.kind = .number → token.lexeme = text → holds [token]) :
    FallsInto text holds := by
  intro before offset rest _ closes
  exact ⟨[_], _, _, token _ rfl rfl, tokensFrom_numeral before offset h closes⟩

theorem letter {c : Char} (h : c.isLower = true)
    (token : ∀ token : Token, token.kind = .letter → token.lexeme = [c] → holds [token]) :
    FallsInto [c] holds := by
  intro before offset rest apart closes
  exact ⟨[_], _, _, token _ rfl rfl, tokensFrom_letter before offset h apart closes⟩

/-- A text in parentheses needs no care for what stands around it. -/
theorem enclosed (h : FallsInto text holds)
    (himp : ∀ opening tokens closing, opening.kind = .leftParen → closing.kind = .rightParen →
      holds tokens → holds' (opening :: (tokens ++ [closing])))
    (before : Option Char) (offset : Nat) (rest : List Char) :
    ∃ tokens before' offset', holds' tokens ∧
      tokensFrom before offset (Expr.enclose true text ++ rest) =
        tokens ++ tokensFrom before' offset' rest := by
  have htext : Expr.enclose true text ++ rest = '(' :: (text ++ ')' :: rest) := by
    simp [Expr.enclose]
  obtain ⟨tokens, before', offset', hholds, htokens⟩ :=
    h (some '(') (offset + byteLength ['(']) (')' :: rest) rfl (closes_cons rest rfl (by decide))
  refine ⟨tokenAt offset .leftParen ['('] :: (tokens ++ [tokenAt offset' .rightParen [')']]),
    some ')', offset' + byteLength [')'], himp _ _ _ rfl rfl hholds, ?_⟩
  rw [htext, tokensFrom_leftParen, htokens, tokensFrom_rightParen]
  simp only [List.cons_append, List.append_assoc, List.nil_append]

theorem operand {parens : Bool} (h : FallsInto text holds)
    (bare : parens = false → ∀ tokens, holds tokens → holds' tokens)
    (himp : ∀ opening tokens closing, opening.kind = .leftParen → closing.kind = .rightParen →
      holds tokens → holds' (opening :: (tokens ++ [closing]))) :
    FallsInto (Expr.enclose parens text) holds' := by
  cases parens with
  | false => exact h.imp (bare rfl)
  | true => exact fun before offset rest _ _ => h.enclosed himp before offset rest

theorem call (func : Func) (h : FallsInto text holds)
    (himp : ∀ token opening tokens closing, token.kind = .func func →
      opening.kind = .leftParen → closing.kind = .rightParen → holds tokens →
      holds' (token :: opening :: (tokens ++ [closing]))) :
    FallsInto (func.callName.toList ++ Expr.enclose true text) holds' := by
  intro before offset rest _ _
  have hcloses : Closes (Expr.enclose true text ++ rest) := closes_cons _ rfl (by decide)
  have hname := tokensFrom_function before offset func hcloses
  have hnamed : ∀ opening tokens closing, opening.kind = .leftParen →
      closing.kind = .rightParen → holds tokens →
      holds' (tokenAt offset (.func func) func.callName.toList ::
        opening :: (tokens ++ [closing])) :=
    fun opening tokens closing => himp _ opening tokens closing rfl
  obtain ⟨tokens, before', offset', hholds, htokens⟩ :=
    @enclosed text holds (fun tokens => holds' (_ :: tokens)) h hnamed
      func.callName.toList.getLast? (offset + byteLength func.callName.toList) rest
  refine ⟨_, before', offset', hholds, ?_⟩
  rw [List.append_assoc, hname, htokens]
  rfl

theorem negation (h : FallsInto text holds)
    (himp : ∀ token tokens, token.kind = .binary .sub → holds tokens →
      holds' (token :: tokens)) : FallsInto ('-' :: text) holds' := by
  intro before offset rest _ closes
  have hsign := tokensFrom_operator before offset (text ++ rest) .sub
  obtain ⟨tokens, before', offset', hholds, htokens⟩ :=
    h (some '-') (offset + byteLength ['-']) rest rfl closes
  refine ⟨tokenAt offset (.binary .sub) ['-'] :: tokens, before', offset',
    himp _ _ rfl hholds, ?_⟩
  exact hsign.trans (congrArg (tokenAt offset (.binary .sub) ['-'] :: ·) htokens)

theorem closes_separator (op : BinaryOp) (rest : List Char) :
    Closes (Expr.separator op ++ rest) := by
  cases op <;> exact closes_cons _ rfl (by decide)

theorem exists_tokensFrom_separator (op : BinaryOp) (before : Option Char) (offset : Nat)
    (rest : List Char) :
    ∃ token last offset', token.kind = .binary op ∧ last.any isWordChar = false ∧
      tokensFrom before offset (Expr.separator op ++ rest) = token :: tokensFrom last offset' rest := by
  have hsymbol : (some op.symbol).any isWordChar = false := by cases op <;> rfl
  have hshape : Expr.separator op = [op.symbol] ∨ Expr.separator op = [' ', op.symbol, ' '] := by
    cases op
    case pow => exact .inl rfl
    all_goals exact .inr rfl
  rcases hshape with hshape | hshape
  · rw [hshape]
    exact ⟨_, _, _, rfl, hsymbol, tokensFrom_operator before offset rest op⟩
  · have hspaced : tokensFrom before offset (' ' :: op.symbol :: ' ' :: rest) =
        tokenAt (offset + 1) (.binary op) [op.symbol] ::
          tokensFrom (some ' ') (offset + 1 + byteLength [op.symbol] + 1) rest := by
      rw [tokensFrom_space, tokensFrom_operator, tokensFrom_space]
    rw [hshape]
    exact ⟨_, _, _, rfl, rfl, hspaced⟩

theorem binary {op : BinaryOp} (lhs : FallsInto left holds) (rhs : FallsInto right holds')
    (himp : ∀ before token after, token.kind = .binary op → holds before → holds' after →
      holds'' (before ++ token :: after)) :
    FallsInto (left ++ Expr.separator op ++ right) holds'' := by
  intro before offset rest apart closes
  obtain ⟨tokens, last₁, offset₁, hlhs, hleft⟩ :=
    lhs before offset (Expr.separator op ++ (right ++ rest)) apart (closes_separator op _)
  obtain ⟨token, last₂, offset₂, hkind, hapart, hseparator⟩ :=
    exists_tokensFrom_separator op last₁ offset₁ (right ++ rest)
  obtain ⟨tokens', last₃, offset₃, hrhs, hright⟩ := rhs last₂ offset₂ rest hapart closes
  refine ⟨tokens ++ token :: tokens', last₃, offset₃, himp _ _ _ hkind hlhs hrhs, ?_⟩
  rw [List.append_assoc, List.append_assoc, hleft, hseparator, hright]
  simp only [List.cons_append, List.append_assoc]

/-- A whole text has nothing before it and no rest. -/
theorem holds_tokenize (h : FallsInto text holds) : holds (tokenize (.ofList text)) := by
  obtain ⟨tokens, before, offset, hholds, htokens⟩ := h none 0 [] rfl closes_nil
  have hnone : tokensFrom before offset [] = [] := by
    rw [tokensFrom, scanFrom]
    rfl
  rw [List.append_nil, hnone, List.append_nil] at htokens
  rwa [tokenize, scan, String.toList_ofList, ← tokensFrom, htokens]

end FallsInto

def Reads (phrase : Phrase) (text : List Char) (e : Expr) : Prop :=
  ∀ before offset rest, before.any isWordChar = false → Closes rest →
    ∃ tokens before' offset', Derives phrase tokens e ∧
      tokensFrom before offset (text ++ rest) = tokens ++ tokensFrom before' offset' rest

namespace Reads

variable {phrase inner : Phrase} {text : List Char} {e : Expr}

theorem weaken (h : Reads inner text e) (level : phrase.level ≤ inner.level) :
    Reads phrase text e :=
  FallsInto.imp h fun _ hderives => hderives.weaken level

theorem numeral {value : Float} (h : Numeral text) (read : Number.read? text = some value) :
    Reads .base text (.literal value) := by
  apply FallsInto.numeral h
  rintro token kind rfl
  exact .number kind read

theorem letter {c : Char} (h : c.isLower = true) : Reads .base [c] (.var c) := by
  have hlower : Expr.ofLetter c = .var c := by
    rw [Expr.ofLetter, Char.toLower_eq_of_not_isUpper]
    intro hupper
    simp only [Char.isLower, Char.isUpper, Bool.and_eq_true, decide_eq_true_eq] at h hupper
    exact absurd (UInt32.le_trans h.1 hupper.2) (by decide)
  apply FallsInto.letter h
  intro token kind hlexeme
  have hletter : Derives .base [token] (.ofLetter (token.lexeme.headD '\x00')) := .letter kind
  rwa [hlexeme, List.headD_cons, hlower] at hletter

theorem operand {parens : Bool} (h : Reads inner text e)
    (level : parens = false → phrase.level ≤ inner.level) :
    Reads phrase (Expr.enclose parens text) e := by
  apply FallsInto.operand h
  · exact fun hbare _ hderives => hderives.weaken (level hbare)
  · intro opening tokens closing hleft hright hderives
    have hbase : Derives .base (opening :: (tokens ++ [closing])) e :=
      .parentheses hleft hright (hderives.weaken (by cases inner <;> decide))
    exact hbase.weaken (by cases phrase <;> decide)

theorem call (func : Func) (h : Reads .sum text e) :
    Reads .base (func.callName.toList ++ Expr.enclose true text) (.call func e) :=
  FallsInto.call func h fun _ _ _ _ kind left right hderives =>
    .call kind (.parentheses left right hderives)

theorem negation (h : Reads .factor text e) : Reads .factor ('-' :: text) (.neg e) :=
  FallsInto.negation h fun _ _ kind hderives => .negation kind hderives

theorem binary {op : BinaryOp} {left right : List Char} {a b : Expr}
    (lhs : Reads (op.operandPhrase false) left a) (rhs : Reads (op.operandPhrase true) right b) :
    Reads op.phrase (left ++ Expr.separator op ++ right) (.binary op a b) :=
  FallsInto.binary lhs rhs fun _ _ _ kind hlhs hrhs => .binary kind hlhs hrhs

end Reads

theorem Expr.reads_chars {e : Expr} (plain : e.IsPlain) : Reads e.phrase e.chars e.unsigned := by
  -- For all rests at once, because an operand is followed by the rest of its operation.
  induction e with
  | literal value =>
      obtain ⟨hfinite, hzero⟩ := plain
      rcases Decidable.em (value < 0) with hbelow | hbelow
      · obtain ⟨text, htext, hnumeral, hread⟩ := Number.exists_chars_of_lt_zero hfinite hbelow
        rw [phrase, unsigned, if_pos hbelow, if_pos hbelow, chars, htext]
        exact ((Reads.numeral hnumeral hread).weaken (by decide)).negation
      · obtain ⟨hnumeral, hread⟩ := Number.numeral_chars hfinite hbelow hzero
        rw [phrase, unsigned, if_neg hbelow, if_neg hbelow]
        exact .numeral hnumeral hread
  | var name => exact .letter plain
  | neg operand ih =>
      exact ((ih plain).operand (@level_operandPhrase_le operand .pow true)).negation
  | binary op lhs rhs ihl ihr =>
      exact .binary ((ihl plain.1).operand level_operandPhrase_le)
        ((ihr plain.2).operand level_operandPhrase_le)
  | call func operand ih =>
      exact .call func ((ih plain).weaken (by cases operand.phrase <;> decide))

theorem Postfix.ne_nil {rpn : List Token} {e : Expr} (h : Postfix rpn e) : rpn ≠ [] := by
  cases h with
  | number _ _ => exact List.cons_ne_nil _ _
  | letter _ => exact List.cons_ne_nil _ _
  | _ => exact List.append_ne_nil_of_right_ne_nil _ (List.cons_ne_nil _ _)

/-- The text of an expression is read as the expression in which the literals below zero
are negations, if the limit allows its depth. -/
theorem parse_text (e : Expr) (plain : e.IsPlain) :
    (∀ limit, e.unsigned.depth ≤ limit → parse limit e.text = .ok e.unsigned) ∧
      (e.IsUnsigned → ∀ limit, e.depth ≤ limit → parse limit e.text = .ok e) := by
  -- The second part is the case in which `unsigned` changes nothing.
  have hparse : ∀ limit, e.unsigned.depth ≤ limit → parse limit e.text = .ok e.unsigned := by
    intro limit hdepth
    obtain ⟨tokens, before, offset, hderives, htokens⟩ :=
      e.reads_chars plain none 0 [] rfl closes_nil
    have hsum : Derives .sum tokens e.unsigned :=
      hderives.weaken (by cases e.phrase <;> decide)
    have htokenize : tokenize e.text = tokens := by
      have hnone : tokensFrom before offset [] = [] := by
        rw [tokensFrom, scanFrom]
        rfl
      rw [List.append_nil, hnone, List.append_nil] at htokens
      rw [← htokens, tokenize, scan, Expr.text, String.toList_ofList, tokensFrom]
    obtain ⟨rpn, hrpn, hpostfix⟩ := Rpn.exists_ofTokens_of_derives hsum
    have hnonempty : rpn ≠ [] := hpostfix.ne_nil
    rw [← (Expr.ofRpn_of_postfix hpostfix limit).1 hdepth, parse, htokenize, hrpn]
    change (if rpn = [] then _ else Expr.ofRpn limit rpn) = _
    exact if_neg hnonempty
  refine ⟨hparse, ?_⟩
  intro hunsigned limit hdepth
  have hsame := Expr.unsigned_of_isUnsigned hunsigned
  have hread := hparse limit
  rw [hsame] at hread
  exact hread hdepth

/-- The literal -2 is written `(-2)` and read as the negation of 2. -/
theorem parse_text_negative_literal :
    parse 5 (Expr.sub (.literal (-2)) (.neg (.pow (.call .sin (.var 'x')) (.literal 0.5)))).text =
        .ok (.sub (.neg (.literal 2)) (.neg (.pow (.call .sin (.var 'x')) (.literal 0.5)))) ∧
      parse 5 (Expr.sub (.neg (.literal 2))
          (.neg (.pow (.call .sin (.var 'x')) (.literal 0.5)))).text =
        .ok (.sub (.neg (.literal 2)) (.neg (.pow (.call .sin (.var 'x')) (.literal 0.5)))) := by
  have hunsigned : (Expr.sub (.literal (-2))
      (.neg (.pow (.call .sin (.var 'x')) (.literal 0.5)))).unsigned =
        .sub (.neg (.literal 2)) (.neg (.pow (.call .sin (.var 'x')) (.literal 0.5))) := by
    decide +kernel
  have hdepth : (Expr.sub (.neg (.literal 2))
      (.neg (.pow (.call .sin (.var 'x')) (.literal 0.5)))).depth ≤ 5 := by
    rw [Expr.depth_eq_height]
    exact Nat.le_refl 5
  constructor
  · have hread := (parse_text (.sub (.literal (-2))
      (.neg (.pow (.call .sin (.var 'x')) (.literal 0.5)))) (by decide +kernel)).1 5
    rw [hunsigned] at hread
    exact hread hdepth
  · exact (parse_text (.sub (.neg (.literal 2))
      (.neg (.pow (.call .sin (.var 'x')) (.literal 0.5)))) (by decide +kernel)).2
      (by decide +kernel) 5 hdepth

end Formula
