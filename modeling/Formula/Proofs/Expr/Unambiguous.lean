import Formula.Expr.Notation
import Formula.Proofs.Number.Numeral
import Formula.Proofs.Parse.RoundTrip

/-!
The functional text tells the tree. Each node begins with a heading that has no parenthesis
and no comma in it: its name, its letter, or the text of its number. What follows the heading
tells a leaf from any other node, and the heading tells the nodes of either sort from each
other. So the first node of a text is known, and by induction its operands are, whatever
comes after them. Only what rounding takes from a literal cannot be read off.
-/

namespace Formula

/-- The text of a number is a word, or a numeral that may have a minus sign. -/
theorem Number.chars_cases (value : Float) :
    chars value = "NaN".toList ∨ ∃ text, (text = "inf".toList ∨ Numeral text) ∧
      (chars value = text ∨ chars value = '-' :: text) := by
  have hmagnitude : magnitudeText (magnitude value) = "inf".toList ∨
      Numeral (magnitudeText (magnitude value)) := by
    unfold magnitudeText
    split
    · exact .inl rfl
    · exact .inr (Decimal.numeral_text _)
  unfold chars
  split
  · exact .inl rfl
  · refine .inr ⟨_, hmagnitude, ?_⟩
    split
    · exact .inr rfl
    · exact .inl rfl

def isPunctuation (c : Char) : Bool := c == '(' || c == ')' || c == ','

theorem isPunctuation_of_isAlphanum {c : Char} (h : c.isAlphanum = true) :
    isPunctuation c = false := by
  have hne : ∀ mark : Char, mark.isAlphanum = false → (c == mark) = false := by
    intro mark hmark
    rw [beq_eq_false_iff_ne]
    rintro rfl
    rw [h] at hmark
    cases hmark
  rw [isPunctuation, hne '(' rfl, hne ')' rfl, hne ',' rfl]
  rfl

theorem isPunctuation_of_mem_word {word : List Char} (h : word.all Char.isAlphanum = true)
    {c : Char} (member : c ∈ word) : isPunctuation c = false :=
  isPunctuation_of_isAlphanum (List.all_eq_true.mp h c member)

theorem isPunctuation_of_numeral {text : List Char} (h : Numeral text) :
    ∀ c ∈ text, isPunctuation c = false := by
  intro c member
  rcases h.isDigit_or_eq c member with hdigit | rfl
  · exact isPunctuation_of_isAlphanum (by simp [Char.isAlphanum, hdigit])
  · rfl

theorem isLower_eq_false_of_isDigit {c : Char} (h : c.isDigit = true) : c.isLower = false := by
  have hletter : c.isAlpha = false := by
    rw [Bool.eq_false_iff]
    intro halpha
    rw [Lexeme.isDigit_eq_false_of_isAlpha halpha] at h
    cases h
  rw [Char.isAlpha, Bool.or_eq_false_iff] at hletter
  exact hletter.2

/-- No number is written with punctuation in it. -/
theorem Number.isPunctuation_of_mem_chars {value : Float} {c : Char} (h : c ∈ chars value) :
    isPunctuation c = false := by
  rcases chars_cases value with hnan | ⟨text, htext, hchars⟩
  · rw [hnan] at h
    exact isPunctuation_of_mem_word rfl h
  · have hbody : c ∈ text → isPunctuation c = false := by
      rcases htext with rfl | hnumeral
      · exact isPunctuation_of_mem_word rfl
      · exact isPunctuation_of_numeral hnumeral c
    rcases hchars with hchars | hchars
    · rw [hchars] at h
      exact hbody h
    · rw [hchars] at h
      rcases List.mem_cons.mp h with rfl | h
      · rfl
      · exact hbody h

/-- No number is written as a small letter. -/
theorem Number.chars_ne_letter (value : Float) {letter : Char} (h : letter.isLower = true) :
    chars value ≠ [letter] := by
  intro hchars
  rcases chars_cases value with hnan | ⟨text, htext, hsign | hsign⟩
  · cases hnan.symm.trans hchars
  · rcases htext with rfl | hnumeral
    · cases hsign.symm.trans hchars
    · obtain ⟨c, rest, hdigit, rfl⟩ := hnumeral.exists_digit_cons
      cases hsign.symm.trans hchars
      rw [isLower_eq_false_of_isDigit hdigit] at h
      cases h
  · cases hsign.symm.trans hchars
    cases h

namespace Expr

def heading : Expr → List Char
  | .literal value => Number.chars (Number.roundHundredths value)
  | .var name => [name]
  | .neg _ => "Neg".toList
  | .binary op _ _ => op.name.toList
  | .call func _ => func.name.toList

def arguments : Expr → List Char
  | .literal _ | .var _ => []
  | .neg operand | .call _ operand => enclose true operand.functionalChars
  | .binary _ lhs rhs => enclose true (lhs.functionalChars ++ ", ".toList ++ rhs.functionalChars)

theorem functionalChars_eq (e : Expr) : e.functionalChars = e.heading ++ e.arguments := by
  cases e with
  | literal value => exact (List.append_nil _).symm
  | var name => rfl
  | _ => rfl

/-- The same tree with the same letters, and with literals that are written alike once they
are rounded to two places. -/
def Alike : Expr → Expr → Prop
  | .literal v, .literal w =>
      Number.text (Number.roundHundredths v) = Number.text (Number.roundHundredths w)
  | .var x, .var y => x = y
  | .neg a, .neg b => a.Alike b
  | .binary op a b, .binary op' a' b' => op = op' ∧ a.Alike a' ∧ b.Alike b'
  | .call f a, .call g b => f = g ∧ a.Alike b
  | _, _ => False

abbrev SmallLetters (e : Expr) : Prop := e.EveryLeaf (fun _ => True) (·.isLower = true)

theorem isPunctuation_of_mem_heading {e : Expr} (small : e.SmallLetters) {c : Char}
    (h : c ∈ e.heading) : isPunctuation c = false := by
  cases e with
  | literal value => exact Number.isPunctuation_of_mem_chars h
  | var name =>
      have hletter : [name].all Char.isAlphanum = true := by
        simp [Char.isAlphanum, Char.isAlpha, show name.isLower = true from small]
      exact isPunctuation_of_mem_word hletter h
  | neg operand => exact isPunctuation_of_mem_word rfl h
  | binary op lhs rhs => cases op <;> exact isPunctuation_of_mem_word rfl h
  | call func operand => cases func <;> exact isPunctuation_of_mem_word rfl h

def Ends (rest : List Char) : Prop := ∀ c ∈ rest.head?, c = ')' ∨ c = ','

theorem ends_cons {c : Char} (rest : List Char) (h : c = ')' ∨ c = ',') : Ends (c :: rest) := by
  intro first member
  cases member
  exact h

theorem Ends.ne_opening {rest : List Char} (h : Ends rest) (text : List Char) :
    rest ≠ '(' :: text := by
  rintro rfl
  rcases h '(' rfl with hmark | hmark <;> cases hmark

/-- A heading ends where the operands begin, or where there are none and the text ends. -/
theorem isPunctuation_head_arguments (e : Expr) {rest : List Char} (hrest : Ends rest) :
    ∀ c ∈ (e.arguments ++ rest).head?, isPunctuation c = true := by
  have hends : ∀ c ∈ rest.head?, isPunctuation c = true := by
    intro c member
    rcases hrest c member with rfl | rfl <;> rfl
  have hopening : ∀ text : List Char, ∀ c ∈ (enclose true text ++ rest).head?,
      isPunctuation c = true := by
    intro text c member
    cases member
    rfl
  cases e with
  | literal value => exact hends
  | var name => exact hends
  | neg operand => exact hopening _
  | binary op lhs rhs => exact hopening _
  | call func operand => exact hopening _

/-- Texts that are the same as far as they go begin with the same heading. -/
theorem heading_eq_of_append_eq {a b : Expr} (hsmall : a.SmallLetters) (hsmall' : b.SmallLetters)
    {rest rest' : List Char} (hrest : Ends rest) (hrest' : Ends rest')
    (h : a.functionalChars ++ rest = b.functionalChars ++ rest') :
    a.heading = b.heading ∧ a.arguments ++ rest = b.arguments ++ rest' := by
  have hcut : ∀ {e : Expr} {rest : List Char}, e.SmallLetters → Ends rest →
      (e.functionalChars ++ rest).takeWhile (!isPunctuation ·) = e.heading ∧
        (e.functionalChars ++ rest).dropWhile (!isPunctuation ·) = e.arguments ++ rest := by
    intro e rest hsmall hrest
    rw [functionalChars_eq, List.append_assoc]
    apply cut
    · intro c member
      rw [isPunctuation_of_mem_heading hsmall member]
      rfl
    · intro c member
      rw [isPunctuation_head_arguments e hrest c member]
      rfl
  have hleft := hcut hsmall hrest
  have hright := hcut hsmall' hrest'
  rw [h] at hleft
  exact ⟨hleft.1.symm.trans hright.1, hleft.2.symm.trans hright.2⟩

theorem operator_ne_function (op : BinaryOp) (func : Func) :
    op.name.toList ≠ func.name.toList := by
  cases op <;> cases func <;> decide

theorem operator_ne_negation (op : BinaryOp) : op.name.toList ≠ "Neg".toList := by
  cases op <;> decide

theorem function_ne_negation (func : Func) : func.name.toList ≠ "Neg".toList := by
  cases func <;> decide

theorem eq_of_operator_eq {op op' : BinaryOp} (h : op.name.toList = op'.name.toList) :
    op = op' := by
  revert h
  cases op <;> cases op' <;> decide

theorem eq_of_function_eq {func func' : Func} (h : func.name.toList = func'.name.toList) :
    func = func' := by
  revert h
  cases func <;> cases func' <;> decide

theorem enclose_append (text rest : List Char) :
    enclose true text ++ rest = '(' :: (text ++ ')' :: rest) := by
  simp [enclose]

/-- A text that begins with the functional text of an expression tells its tree, and with it
what comes after. -/
theorem alike_of_append_eq {a b : Expr} (hsmall : a.SmallLetters) (hsmall' : b.SmallLetters)
    {rest rest' : List Char} (hrest : Ends rest) (hrest' : Ends rest')
    (h : a.functionalChars ++ rest = b.functionalChars ++ rest') : a.Alike b ∧ rest = rest' := by
  -- For all rests at once, because what follows an operand is the rest of the node.
  induction a generalizing b rest rest' with
  | literal v =>
      obtain ⟨hheading, htext⟩ := heading_eq_of_append_eq hsmall hsmall' hrest hrest' h
      cases b with
      | literal w => exact ⟨congrArg String.ofList hheading, htext⟩
      | var y => exact absurd hheading (Number.chars_ne_letter _ hsmall')
      | _ => exact absurd htext (hrest.ne_opening _)
  | var x =>
      obtain ⟨hheading, htext⟩ := heading_eq_of_append_eq hsmall hsmall' hrest hrest' h
      cases b with
      | literal w => exact absurd hheading.symm (Number.chars_ne_letter _ hsmall)
      | var y => exact ⟨(List.cons.inj hheading).1, htext⟩
      | _ => exact absurd htext (hrest.ne_opening _)
  | neg a ih =>
      obtain ⟨hheading, htext⟩ := heading_eq_of_append_eq hsmall hsmall' hrest hrest' h
      cases b with
      | neg b =>
          have hoperand : b.SmallLetters := hsmall'
          simp only [arguments, enclose_append, List.cons.injEq, true_and] at htext
          obtain ⟨halike, hmore⟩ := ih hsmall hoperand (ends_cons rest (.inl rfl))
            (ends_cons rest' (.inl rfl)) htext
          exact ⟨halike, (List.cons.inj hmore).2⟩
      | binary op lhs rhs => exact absurd hheading.symm (operator_ne_negation op)
      | call func b => exact absurd hheading.symm (function_ne_negation func)
      | _ => exact absurd htext.symm (hrest'.ne_opening _)
  | call func a ih =>
      obtain ⟨hheading, htext⟩ := heading_eq_of_append_eq hsmall hsmall' hrest hrest' h
      cases b with
      | neg b => exact absurd hheading (function_ne_negation func)
      | binary op lhs rhs => exact absurd hheading.symm (operator_ne_function op func)
      | call func' b =>
          have hoperand : b.SmallLetters := hsmall'
          simp only [arguments, enclose_append, List.cons.injEq, true_and] at htext
          obtain ⟨halike, hmore⟩ := ih hsmall hoperand (ends_cons rest (.inl rfl))
            (ends_cons rest' (.inl rfl)) htext
          exact ⟨⟨eq_of_function_eq hheading, halike⟩, (List.cons.inj hmore).2⟩
      | _ => exact absurd htext.symm (hrest'.ne_opening _)
  | binary op lhs rhs ihl ihr =>
      obtain ⟨hheading, htext⟩ := heading_eq_of_append_eq hsmall hsmall' hrest hrest' h
      cases b with
      | neg b => exact absurd hheading (operator_ne_negation op)
      | call func b => exact absurd hheading (operator_ne_function op func)
      | binary op' lhs' rhs' =>
          have hcomma : ∀ text, Ends (", ".toList ++ text) := fun _ => ends_cons _ (.inr rfl)
          simp only [arguments, enclose_append, List.cons.injEq, true_and, List.append_assoc]
            at htext
          obtain ⟨hleft, hmore⟩ := ihl hsmall.1 hsmall'.1 (hcomma _) (hcomma _) htext
          obtain ⟨hright, hmore⟩ := ihr hsmall.2 hsmall'.2 (ends_cons rest (.inl rfl))
            (ends_cons rest' (.inl rfl)) (List.append_cancel_left hmore)
          exact ⟨⟨eq_of_operator_eq hheading, hleft, hright⟩, (List.cons.inj hmore).2⟩
      | _ => exact absurd htext.symm (hrest'.ne_opening _)

theorem functionalChars_eq_of_alike {a b : Expr} (h : a.Alike b) :
    a.functionalChars = b.functionalChars := by
  induction a generalizing b with
  | literal v =>
      cases b with
      | literal w => exact String.ofList_injective h
      | _ => cases h
  | var x =>
      cases b with
      | var y => exact congrArg (fun name => [name]) h
      | _ => cases h
  | neg a ih =>
      cases b with
      | neg b => simp only [functionalChars, ih h]
      | _ => cases h
  | call func a ih =>
      cases b with
      | call func' b => simp only [functionalChars, h.1, ih h.2]
      | _ => cases h
  | binary op lhs rhs ihl ihr =>
      cases b with
      | binary op' lhs' rhs' => simp only [functionalChars, h.1, ihl h.2.1, ihr h.2.2]
      | _ => cases h

/-- Two expressions have the same functional text if and only if they are the same tree,
but for literals that are written alike once they are rounded. -/
theorem functionalText_eq_iff (a b : Expr) (hsmall : a.SmallLetters)
    (hsmall' : b.SmallLetters) : a.functionalText = b.functionalText ↔ a.Alike b := by
  constructor
  · intro h
    have hends : Ends [] := fun _ member => nomatch member
    have hchars : a.functionalChars ++ [] = b.functionalChars ++ [] := by
      rw [String.ofList_injective h]
    exact (alike_of_append_eq hsmall hsmall' hends hends hchars).1
  · intro h
    exact congrArg String.ofList (functionalChars_eq_of_alike h)

/-- The second of these is `x - sin(3.141)`, and rounding makes the same text of both; the
other order of the operands has another text. -/
theorem functionalText_eq_iff_rounded :
    (Expr.sub (.var 'x') (.call .sin (.literal 3.14159))).functionalText =
        (Expr.sub (.var 'x') (.call .sin (.literal 3.141))).functionalText ∧
      (Expr.sub (.var 'x') (.call .sin (.literal 3.14159))).functionalText ≠
        (Expr.sub (.call .sin (.literal 3.14159)) (.var 'x')).functionalText := by
  constructor
  · have hrounded : Number.text (Number.roundHundredths 3.14159) =
        Number.text (Number.roundHundredths 3.141) := by decide +kernel
    exact (functionalText_eq_iff _ _ (by decide +kernel) (by decide +kernel)).mpr
      ⟨rfl, rfl, rfl, hrounded⟩
  · intro h
    have halike := (functionalText_eq_iff _ _ (by decide +kernel) (by decide +kernel)).mp h
    exact halike.2.1

end Expr

end Formula
