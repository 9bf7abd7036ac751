import Formula.Proofs.Parse.Grammar
import Mathlib.Data.List.Chain

/-!
The tokens of a sum without its tree. Where an operand may begin, there comes a leaf, an
opening parenthesis, a minus sign or a function that no minus sign follows; where an
operand has ended, there comes an operator or a closing parenthesis. Tokens that take
turns in this way, with all parentheses closed, are just those that the grammar derives,
so whether it does can be told from one token and the next.
-/

namespace Formula

namespace TokenKind

def endsOperand : TokenKind → Bool
  | .number | .letter | .rightParen => true
  | _ => false

/-- A minus sign is not counted here: after an operand it is an operator. -/
def startsOperand : TokenKind → Bool
  | .number | .letter | .func _ | .leftParen => true
  | _ => false

end TokenKind

/-- One token may stand right before the other: they are not the end of one operand and
the beginning of the next, nor a function and a minus sign. -/
def Token.Adjoins (token next : Token) : Prop :=
  (token.kind.endsOperand = true → next.kind.startsOperand = false) ∧
    (token.kind.isFunction = true → next.kind ≠ .binary .sub)

instance : DecidableRel Token.Adjoins :=
  fun _ _ => inferInstanceAs (Decidable (_ ∧ _))

/-- `Alternates true depth tokens`: the tokens can stand where an operand may begin, with
this many parentheses open; with `false`, where an operand has ended. -/
inductive Alternates : Bool → Nat → List Token → Prop
  | done : Alternates false 0 []
  | number {depth : Nat} {token : Token} {rest : List Token} {value : Float}
      (kind : token.kind = .number) (read : Number.read? token.lexeme = some value)
      (later : Alternates false depth rest) : Alternates true depth (token :: rest)
  | letter {depth : Nat} {token : Token} {rest : List Token} (kind : token.kind = .letter)
      (later : Alternates false depth rest) : Alternates true depth (token :: rest)
  | opening {depth : Nat} {token : Token} {rest : List Token} (kind : token.kind = .leftParen)
      (later : Alternates true (depth + 1) rest) : Alternates true depth (token :: rest)
  | minus {depth : Nat} {token : Token} {rest : List Token} (kind : token.kind = .binary .sub)
      (later : Alternates true depth rest) : Alternates true depth (token :: rest)
  | function {depth : Nat} {token : Token} {rest : List Token} {func : Func}
      (kind : token.kind = .func func) (bare : ∀ next ∈ rest.head?, next.kind ≠ .binary .sub)
      (later : Alternates true depth rest) : Alternates true depth (token :: rest)
  | operator {depth : Nat} {token : Token} {rest : List Token} {op : BinaryOp}
      (kind : token.kind = .binary op) (later : Alternates true depth rest) :
      Alternates false depth (token :: rest)
  | closing {depth : Nat} {token : Token} {rest : List Token} (kind : token.kind = .rightParen)
      (later : Alternates false depth rest) : Alternates false (depth + 1) (token :: rest)

/-- A base begins with some token, and not with a minus sign. -/
theorem Derives.base_head {tokens : List Token} {e : Expr} (h : Derives .base tokens e) :
    ∃ first rest, tokens = first :: rest ∧ first.kind ≠ .binary .sub := by
  cases h with
  | number kind _ => exact ⟨_, _, rfl, by rw [kind]; exact TokenKind.noConfusion⟩
  | letter kind => exact ⟨_, _, rfl, by rw [kind]; exact TokenKind.noConfusion⟩
  | parentheses left _ _ => exact ⟨_, _, rfl, by rw [left]; exact TokenKind.noConfusion⟩
  | call kind _ => exact ⟨_, _, rfl, by rw [kind]; exact TokenKind.noConfusion⟩

/-- A phrase takes the place of an operand. -/
theorem Derives.alternates {phrase : Phrase} {tokens rest : List Token} {e : Expr} {depth : Nat}
    (h : Derives phrase tokens e) (later : Alternates false depth rest) :
    Alternates true depth (tokens ++ rest) := by
  induction h generalizing depth rest with
  | sum _ ih => exact ih later
  | product _ ih => exact ih later
  | factor _ ih => exact ih later
  | term _ kind _ _ ihl ihr =>
      rw [List.append_assoc]
      exact ihl (.operator kind (ihr later))
  | scale _ kind _ _ ihl ihr =>
      rw [List.append_assoc]
      exact ihl (.operator kind (ihr later))
  | power kind _ _ ihl ihr =>
      rw [List.append_assoc]
      exact ihl (.operator kind (ihr later))
  | negation kind _ ih => exact .minus kind (ih later)
  | number kind read => exact .number kind read later
  | letter kind => exact .letter kind later
  | parentheses left right _ ih =>
      rw [List.cons_append, List.append_assoc]
      exact .opening left (ih (.closing right later))
  | call kind operand ih =>
      refine .function kind ?_ (ih later)
      obtain ⟨first, more, rfl, hfirst⟩ := operand.base_head
      intro next member
      cases member
      exact hfirst

section Leads

def Leads (lead : List Token) (part whole : Phrase) : Prop :=
  ∀ tokens e, Derives part tokens e → ∃ built, Derives whole (lead ++ tokens) built

variable {lead : List Token}

/-- What leads a factor leads all the other factors of its product as well. -/
theorem Leads.product (h : Leads lead .factor .product) : Leads lead .product .product := by
  intro tokens e hderives
  generalize hphrase : Phrase.product = phrase at hderives
  induction hderives with
  | product single => exact h _ _ single
  | @scale before after token a b op sign kind lhs rhs ihl ihr =>
      obtain ⟨built, hbuilt⟩ := ihl rfl
      rw [← List.append_assoc]
      exact ⟨_, .scale sign kind hbuilt rhs⟩
  | _ => cases hphrase

/-- What leads a product leads all the other terms of its sum as well. -/
theorem Leads.sum (h : Leads lead .product .sum) : Leads lead .sum .sum := by
  intro tokens e hderives
  generalize hphrase : Phrase.sum = phrase at hderives
  induction hderives with
  | sum single => exact h _ _ single
  | @term before after token a b op sign kind lhs rhs ihl ihr =>
      obtain ⟨built, hbuilt⟩ := ihl rfl
      rw [← List.append_assoc]
      exact ⟨_, .term sign kind hbuilt rhs⟩
  | _ => cases hphrase

theorem Leads.sum_of_factor (h : Leads lead .factor .product) : Leads lead .sum .sum := by
  apply Leads.sum
  intro tokens e hderives
  obtain ⟨built, hbuilt⟩ := h.product tokens e hderives
  exact ⟨built, .sum hbuilt⟩

/-- A minus sign before a sum goes with its first factor. -/
theorem leads_minus {token : Token} (kind : token.kind = .binary .sub) :
    Leads [token] .sum .sum := by
  apply Leads.sum_of_factor
  intro tokens e hderives
  exact ⟨_, .product (.negation kind hderives)⟩

/-- An operator between a base and a sum takes as much of the sum as it can bind. -/
theorem leads_operator {base : List Token} {token : Token} {e : Expr} {op : BinaryOp}
    (operand : Derives .base base e) (kind : token.kind = .binary op) :
    Leads (base ++ [token]) .sum .sum := by
  have hterm (sign : op = .add ∨ op = .sub) : Leads (base ++ [token]) .sum .sum := by
    apply Leads.sum
    intro tokens b hderives
    rw [List.append_assoc]
    exact ⟨_, .term sign kind (.sum (.product (.factor operand))) hderives⟩
  have hscale (sign : op = .mul ∨ op = .div) : Leads (base ++ [token]) .sum .sum := by
    apply Leads.sum_of_factor
    intro tokens b hderives
    rw [List.append_assoc]
    exact ⟨_, .scale sign kind (.product (.factor operand)) hderives⟩
  have hpower (sign : op = .pow) : Leads (base ++ [token]) .sum .sum := by
    apply Leads.sum_of_factor
    intro tokens b hderives
    rw [List.append_assoc]
    exact ⟨_, .product (.power (by rw [kind, sign]) operand hderives)⟩
  cases op with
  | add => exact hterm (.inl rfl)
  | sub => exact hterm (.inr rfl)
  | mul => exact hscale (.inl rfl)
  | div => exact hscale (.inr rfl)
  | pow => exact hpower rfl

end Leads

namespace Alternates

inductive Tail : List Token → Prop
  | nil : Tail []
  | operator {token : Token} {rest : List Token} {op : BinaryOp} {e : Expr}
      (kind : token.kind = .binary op) (operand : Derives .sum rest e) : Tail (token :: rest)

inductive Begins : List Token → Prop
  | minus {token : Token} {rest : List Token} {e : Expr} (kind : token.kind = .binary .sub)
      (operand : Derives .sum rest e) : Begins (token :: rest)
  | base {first tail : List Token} {e : Expr} (operand : Derives .base first e)
      (later : Tail tail) : Begins (first ++ tail)

/-- What follows a sum that stands in some parentheses: each of them is closed, and then
what it encloses is a base of the sum around it. -/
inductive Ends : Nat → List Token → Prop
  | nil : Ends 0 []
  | closing {depth : Nat} {token : Token} {tail more : List Token}
      (kind : token.kind = .rightParen) (outer : Tail tail) (later : Ends depth more) :
      Ends (depth + 1) (token :: (tail ++ more))

theorem Begins.exists_derives {tokens : List Token} (h : Begins tokens) :
    ∃ e, Derives .sum tokens e := by
  cases h with
  | minus kind operand => exact leads_minus kind _ _ operand
  | @base first tail e operand later =>
      cases later with
      | nil =>
          rw [List.append_nil]
          exact ⟨e, .sum (.product (.factor operand))⟩
      | @operator token rest op b kind rhs =>
          have hsum := leads_operator operand kind rest b rhs
          rwa [List.append_assoc] at hsum

/-- What stands up to the first parenthesis that is closed but not opened: a sum where an
operand may begin, and the rest of one where an operand has ended. -/
def Piece : Bool → List Token → Prop
  | true => Begins
  | false => Tail

/-- Tokens that take turns fall into the sum that is under way and what closes the
parentheses around it. -/
theorem exists_piece {expects : Bool} {depth : Nat} {tokens : List Token}
    (h : Alternates expects depth tokens) :
    ∃ first more, tokens = first ++ more ∧ Piece expects first ∧ Ends depth more := by
  induction h with
  | done => exact ⟨[], [], rfl, Tail.nil, .nil⟩
  | @number depth token rest value kind read later ih =>
      obtain ⟨tail, more, rfl, htail, hmore⟩ := ih
      exact ⟨token :: tail, more, rfl, .base (.number kind read) htail, hmore⟩
  | @letter depth token rest kind later ih =>
      obtain ⟨tail, more, rfl, htail, hmore⟩ := ih
      exact ⟨token :: tail, more, rfl, .base (.letter kind) htail, hmore⟩
  | @opening depth token rest kind later ih =>
      obtain ⟨inner, more, rfl, hinner, hmore⟩ := ih
      cases hmore with
      | @closing _ closing tail more right outer hmore =>
          obtain ⟨e, hderives⟩ := Begins.exists_derives hinner
          refine ⟨token :: (inner ++ [closing]) ++ tail, more, ?_,
            .base (.parentheses kind right hderives) outer, hmore⟩
          simp only [List.cons_append, List.append_assoc, List.nil_append]
  | @minus depth token rest kind later ih =>
      obtain ⟨first, more, rfl, hfirst, hmore⟩ := ih
      obtain ⟨e, hderives⟩ := Begins.exists_derives hfirst
      exact ⟨token :: first, more, rfl, .minus kind hderives, hmore⟩
  | @function depth token rest func kind bare later ih =>
      obtain ⟨first, more, rfl, hfirst, hmore⟩ := ih
      cases hfirst with
      | minus sign operand => exact absurd sign (bare _ rfl)
      | @base base tail e operand outer =>
          exact ⟨token :: base ++ tail, more, rfl, .base (.call kind operand) outer, hmore⟩
  | @operator depth token rest op kind later ih =>
      obtain ⟨first, more, rfl, hfirst, hmore⟩ := ih
      obtain ⟨e, hderives⟩ := Begins.exists_derives hfirst
      exact ⟨token :: first, more, rfl, Tail.operator kind hderives, hmore⟩
  | @closing depth token rest kind later ih =>
      obtain ⟨tail, more, rfl, htail, hmore⟩ := ih
      exact ⟨[], token :: (tail ++ more), rfl, Tail.nil, .closing kind htail hmore⟩

end Alternates

/-- The grammar derives just the tokens that take turns. -/
theorem exists_derives_iff_alternates {tokens : List Token} :
    (∃ e, Derives .sum tokens e) ↔ Alternates true 0 tokens := by
  constructor
  · rintro ⟨e, hderives⟩
    have halternates := hderives.alternates .done
    rwa [List.append_nil] at halternates
  · intro h
    obtain ⟨first, more, rfl, hfirst, hmore⟩ := h.exists_piece
    cases hmore
    rw [List.append_nil]
    exact Alternates.Begins.exists_derives hfirst

/-- Where an operand has ended no other begins. -/
theorem Alternates.startsOperand_eq_false {depth : Nat} {tokens : List Token}
    (h : Alternates false depth tokens) :
    ∀ next ∈ tokens.head?, next.kind.startsOperand = false := by
  intro next member
  cases h with
  | done => cases member
  | operator kind _ =>
      cases member
      rw [kind]
      rfl
  | closing kind _ =>
      cases member
      rw [kind]
      rfl

theorem isChain_cons_of_ended {depth : Nat} {token : Token} {rest : List Token}
    (other : token.kind.isFunction = false) (later : Alternates false depth rest)
    (chain : rest.IsChain Token.Adjoins) : (token :: rest).IsChain Token.Adjoins := by
  apply chain.cons
  intro next member
  refine ⟨fun _ => later.startsOperand_eq_false next member, fun function => ?_⟩
  rw [other] at function
  cases function

/-- After a token that does not end an operand, only a function has a say. -/
theorem isChain_cons_of_open {token : Token} {rest : List Token}
    (opens : token.kind.endsOperand = false)
    (bare : token.kind.isFunction = true → ∀ next ∈ rest.head?, next.kind ≠ .binary .sub)
    (chain : rest.IsChain Token.Adjoins) : (token :: rest).IsChain Token.Adjoins := by
  apply chain.cons
  intro next member
  refine ⟨fun ends => ?_, fun function => bare function next member⟩
  rw [opens] at ends
  cases ends

theorem Alternates.isChain {expects : Bool} {depth : Nat} {tokens : List Token}
    (h : Alternates expects depth tokens) : tokens.IsChain Token.Adjoins := by
  induction h with
  | done => exact .nil
  | number kind _ later ih => exact isChain_cons_of_ended (by rw [kind]; rfl) later ih
  | letter kind later ih => exact isChain_cons_of_ended (by rw [kind]; rfl) later ih
  | closing kind later ih => exact isChain_cons_of_ended (by rw [kind]; rfl) later ih
  | function kind bare _ ih => exact isChain_cons_of_open (by rw [kind]; rfl) (fun _ => bare) ih
  | opening kind _ ih => exact isChain_cons_of_open (by rw [kind]; rfl) (by rw [kind]; nofun) ih
  | minus kind _ ih => exact isChain_cons_of_open (by rw [kind]; rfl) (by rw [kind]; nofun) ih
  | operator kind _ ih => exact isChain_cons_of_open (by rw [kind]; rfl) (by rw [kind]; nofun) ih

end Formula
