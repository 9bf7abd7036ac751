import Formula.Proofs.Token.Seams

/-!
What the pieces of a text are, told from the text alone. A word is a run of letters that is
as long as it can be, and every such run is a word: a letter joins only letters, so there is
a seam on either side. A number is a run of digits that may go on with one point and more
digits, and no digit is anywhere else. The meaning of a word follows from its letters and
from the two characters around it.
-/

namespace Formula

open Lexeme

def Span.after (before text : List Char) : Span :=
  ⟨byteLength before, byteLength before + byteLength text⟩

structure IsRun (p : Char → Bool) (before run after : List Char) : Prop where
  nonempty : run ≠ []
  all : ∀ c ∈ run, p c = true
  starts : ∀ c ∈ before.getLast?, p c = false
  ends : ∀ c ∈ after.head?, p c = false

def Func.IsNamed (func : Func) (run : List Char) : Prop :=
  run.map Char.toLower = func.callName.toList

def IsLoneLetter (before run after : List Char) : Prop :=
  run.length = 1 ∧
    ∀ c, c ∈ before.getLast? ∨ c ∈ after.head? → c.isDigit = false ∧ c ≠ '_'

theorem Func.ofName?_eq_some_iff (run : List Char) (func : Func) :
    Func.ofName? run = some func ↔ func.IsNamed run := by
  constructor
  · intro found
    have hname := List.find?_some found
    rwa [decide_eq_true_eq] at hname
  · intro named
    unfold IsNamed at named
    rw [ofName?, named]
    cases func <;> rfl

theorem Func.IsNamed.length_eq {func : Func} {run : List Char} (h : func.IsNamed run) :
    run.length = 3 := by
  have hlength : func.callName.toList.length = 3 := by cases func <;> rfl
  rw [← hlength, ← h, List.length_map]

namespace Lexeme

def word (before run after : List Char) : Lexeme :=
  ⟨.word, Span.after before run, run, before.getLast?, after.head?⟩

section Overlap

variable {input : String} {a b : Lexeme} (ha : a ∈ scan input) (hb : b ∈ scan input)
include ha hb

/-- Two lexemes with a byte in common are one. -/
theorem eq_of_overlap (overlap : ¬ a.span.Apart b.span) : a = b := by
  have hbefore : (scan input).Pairwise fun a b => a.span.Before b.span :=
    List.pairwise_map.mp (tile_scanFrom none 0 input.toList).pairwise_before
  have hapart : (scan input).Pairwise fun a b => a = b ∨ a.span.Apart b.span :=
    hbefore.imp fun h => .inr (.inl h)
  have hsymm : Std.Symm fun a b : Lexeme => a = b ∨ a.span.Apart b.span :=
    ⟨fun _ _ h => h.imp Eq.symm Or.symm⟩
  have hself : ∀ a ∈ scan input, a = a ∨ a.span.Apart a.span := fun _ _ => .inl rfl
  exact (List.Pairwise.forall_of_forall hself hapart ha hb).resolve_right overlap

theorem eq_of_span_eq (same : a.span = b.span) : a = b := by
  have hlonger := (tile_scanFrom none 0 input.toList).start_lt_stop b.span (List.mem_map_of_mem hb)
  apply eq_of_overlap ha hb
  rw [same]
  unfold Span.Apart Span.Before
  omega

end Overlap

section Runs

variable {before run after : List Char} (h : IsRun Char.isAlpha before run after)
include h

/-- A run of letters is a piece of its own. -/
theorem word_mem_scan {input : String} (split : input.toList = before ++ run ++ after) :
    word before run after ∈ scan input := by
  obtain ⟨c, rest, rfl⟩ := List.exists_cons_of_ne_nil h.nonempty
  have hfirst : c.isAlpha = true := h.all c List.mem_cons_self
  have hword : isWordChar c = true := isWordChar_of_isAlpha hfirst
  have hcut := cut (fun d member => h.all d (List.mem_cons_of_mem c member)) h.ends
  have hsplit : splitFirst c (rest ++ after) = (.word, c :: rest, after) := by
    rw [splitFirst, isSpace_eq_false hword, isDigit_eq_false_of_isAlpha hfirst, hfirst, hcut.1,
      hcut.2]
    rfl
  have hseam : Seam before (c :: rest ++ after) := by
    intro last hlast next hnext
    cases hnext
    exact joins_of_isAlpha (h.starts last hlast) hfirst
  rw [scan, split, List.append_assoc, scanFrom_append none 0 hseam, List.mem_append,
    List.cons_append, scanFrom, hsplit, Option.or_none, Nat.zero_add]
  exact .inr List.mem_cons_self

end Runs

/-- A word is a run of letters, and every such run is a word. -/
theorem isWord_iff (input : String) (lexeme : Lexeme) :
    lexeme ∈ scan input ∧ lexeme.kind = .word ↔
      ∃ before run after, input.toList = before ++ run ++ after ∧
        IsRun Char.isAlpha before run after ∧ lexeme = word before run after := by
  constructor
  · rintro ⟨member, kind⟩
    obtain ⟨before, after, hsplit, hstart, hstop, hlongest⟩ := stands_of_mem_scanFrom member
    have hletters : lexeme.text ≠ [] ∧ ∀ c ∈ lexeme.text, c.isAlpha = true := by
      have hmatched := hlongest.matched
      rw [kind] at hmatched
      cases hmatched with
      | word nonempty all => exact ⟨nonempty, all⟩
    -- The letters around the piece are in one run with it, which is a word as well.
    obtain ⟨far, left, rfl, hleft, hstarts⟩ := exists_cut_last Char.isAlpha before
    obtain ⟨right, rest, rfl, -, -, hright, hends⟩ := exists_cut Char.isAlpha after
    have hrun : IsRun Char.isAlpha far (left ++ lexeme.text ++ right) rest := by
      refine ⟨by simp [hletters.1], ?_, hstarts, hends⟩
      simp only [List.forall_mem_append]
      exact ⟨⟨hleft, hletters.2⟩, hright⟩
    have hinput : input.toList = far ++ (left ++ lexeme.text ++ right) ++ rest := by
      rw [hsplit]
      simp only [List.append_assoc]
    refine ⟨far, _, rest, hinput, hrun, eq_of_overlap member (word_mem_scan hrun hinput) ?_⟩
    have hpos := byteLength_pos hletters.1
    simp only [Span.Apart, Span.Before, word, Span.after, hstop, hstart, byteLength_append]
    omega
  · rintro ⟨before, run, after, hsplit, hrun, rfl⟩
    exact ⟨word_mem_scan hrun hsplit, rfl⟩

section Numbers

variable {kind : LexemeKind} {text after : List Char} (h : kind.LongestMatch text after)
include h

/-- No pattern matches one character more. -/
theorem not_matches_concat {c : Char} (next : c ∈ after.head?) (other : LexemeKind) :
    ¬ other.Matches (text ++ [c]) := by
  intro matched
  obtain ⟨rest, rfl⟩ := List.head?_eq_some_iff.mp next
  have hbegins : text ++ [c] <+: text ++ c :: rest :=
    (List.prefix_append_right_inj text).mpr (List.prefix_append [c] rest)
  have hlength := h.longest other _ matched hbegins
  rw [List.length_append, List.length_singleton] at hlength
  omega

theorem number_ends (number : kind = .number) :
    (∀ c ∈ after.head?, c.isDigit = false) ∧ ('.' ∉ text → after.head? ≠ some '.') := by
  have hmatched := h.matched
  rw [number] at hmatched
  cases hmatched with
  | whole whole =>
      constructor
      · intro c next
        rw [Bool.eq_false_iff]
        intro digit
        refine not_matches_concat h next .number (.whole ⟨by simp, ?_⟩)
        simp only [List.forall_mem_append, List.forall_mem_singleton]
        exact ⟨whole.2, digit⟩
      · intro _ next
        exact not_matches_concat h next .number (.point whole fun _ member => nomatch member)
  | @point digits fraction whole all =>
      constructor
      · intro c next
        rw [Bool.eq_false_iff]
        intro digit
        have hfraction : ∀ d ∈ fraction ++ [c], d.isDigit = true := by
          simp only [List.forall_mem_append, List.forall_mem_singleton]
          exact ⟨all, digit⟩
        have hlonger := LexemeKind.Matches.point whole hfraction
        rw [← List.cons_append, ← List.append_assoc] at hlonger
        exact not_matches_concat h next .number hlonger
      · intro absent
        exact absurd (List.mem_append_right _ List.mem_cons_self) absent

/-- A piece with a digit is a number. -/
theorem kind_of_digit {c : Char} (member : c ∈ text) (digit : c.isDigit = true) :
    kind = .number := by
  have hmatched := h.matched
  cases hmatched with
  | whitespace _ all =>
      have hspace := all c member
      rw [isSpace_eq_false (isWordChar_of_isDigit digit)] at hspace
      cases hspace
  | operator op =>
      rw [List.mem_singleton.mp member] at digit
      cases op <;> cases digit
  | leftParen =>
      rw [List.mem_singleton.mp member] at digit
      cases digit
  | rightParen =>
      rw [List.mem_singleton.mp member] at digit
      cases digit
  | whole _ => rfl
  | point _ _ => rfl
  | word _ all =>
      rw [isDigit_eq_false_of_isAlpha (all c member)] at digit
      cases digit
  | symbol _ =>
      -- The digit is a number of its own length, and symbols give way.
      obtain rfl := List.mem_singleton.mp member
      have hwhole : LexemeKind.number.Matches [c] :=
        .whole ⟨List.cons_ne_nil c [], List.forall_mem_singleton.mpr digit⟩
      rcases h.unique .number [c] hwhole (List.prefix_append [c] after) rfl with hkind | hkind
      · cases hkind
      · cases hkind

end Numbers

/-- Every character of a text is in one of its pieces. -/
theorem exists_mem_scanFrom (before : Option Char) (offset : Nat) (text right : List Char)
    (c : Char) : ∀ left, text = left ++ c :: right →
      ∃ lexeme ∈ scanFrom before offset text, c ∈ lexeme.text ∧
        lexeme.span.start ≤ offset + byteLength left ∧
        offset + byteLength left < lexeme.span.stop := by
  fun_induction scanFrom before offset text with
  | case1 => simp
  | case2 before offset first rest piece stop ih =>
      intro left split
      have hpiece : piece.2.1 ++ piece.2.2 = left ++ c :: right :=
        (splitFirst_append first rest).trans split
      rcases append_eq_append_cons hpiece with ⟨more, hfirst, -⟩ | ⟨more, rfl, hafter⟩
      · refine ⟨_, List.mem_cons_self, ?_, Nat.le_add_right _ _, ?_⟩
        · rw [hfirst]
          exact List.mem_append_right _ List.mem_cons_self
        · have hpos := byteLength_pos (List.cons_ne_nil c more)
          have hlength : stop = offset + (byteLength left + byteLength (c :: more)) := by
            rw [← byteLength_append, ← hfirst]
          change offset + byteLength left < stop
          omega
      · obtain ⟨lexeme, member, hlexeme⟩ := ih more hafter
        rw [byteLength_append, ← Nat.add_assoc]
        exact ⟨lexeme, List.mem_cons_of_mem _ member, hlexeme⟩

/-- Every digit is in a number. -/
theorem exists_number {input : String} {before after : List Char} {c : Char}
    (split : input.toList = before ++ c :: after) (digit : c.isDigit = true) :
    ∃ lexeme ∈ scan input, lexeme.kind = .number ∧ lexeme.span.start ≤ byteLength before ∧
      byteLength before < lexeme.span.stop := by
  obtain ⟨lexeme, member, hmem, hstart, hstop⟩ :=
    exists_mem_scanFrom none 0 input.toList after c before split
  obtain ⟨_, _, -, -, -, hlongest⟩ := stands_of_mem_scanFrom member
  rw [Nat.zero_add] at hstart hstop
  exact ⟨lexeme, member, kind_of_digit hlongest hmem digit, hstart, hstop⟩

section Meaning

variable {before run after : List Char} (h : IsRun Char.isAlpha before run after)
include h

/-- No letter is next to a run of letters, so there are only digits and underscores to ask
about. -/
theorem isIsolated_word :
    (word before run after).isIsolated = true ↔
      ∀ c, c ∈ before.getLast? ∨ c ∈ after.head? → c.isDigit = false ∧ c ≠ '_' := by
  have hword (c : Char) (other : c.isAlpha = false) :
      isWordChar c = false ↔ c.isDigit = false ∧ c ≠ '_' := by
    simp [isWordChar, Char.isAlphanum, other]
  have hside (side : Option Char) (others : ∀ c ∈ side, c.isAlpha = false) :
      side.any isWordChar = false ↔ ∀ c ∈ side, c.isDigit = false ∧ c ≠ '_' := by
    cases side with
    | none => simp
    | some c => simpa using hword c (others c rfl)
  simp only [isIsolated, Bool.and_eq_true, Bool.not_eq_true', word, hside _ h.starts,
    hside _ h.ends]
  constructor
  · rintro ⟨hbefore, hafter⟩ c (member | member)
    · exact hbefore c member
    · exact hafter c member
  · intro hall
    exact ⟨fun c member => hall c (.inl member), fun c member => hall c (.inr member)⟩

/-- A run of letters is the name of a function or a lone letter, or means nothing. -/
theorem tokenKind?_word (kind : TokenKind) :
    (word before run after).tokenKind? = some kind ↔
      (∃ func : Func, kind = .func func ∧ func.IsNamed run) ∨
        kind = .letter ∧ IsLoneLetter before run after := by
  cases hname : Func.ofName? run with
  | some func =>
      have hkind : (word before run after).tokenKind? = some (.func func) := by
        simp only [tokenKind?, word, hname]
      have hnamed := (Func.ofName?_eq_some_iff run func).mp hname
      rw [hkind]
      constructor
      · intro hsome
        exact .inl ⟨func, (Option.some.inj hsome).symm, hnamed⟩
      · rintro (⟨other, rfl, hother⟩ | ⟨-, hlone⟩)
        · rw [(Func.ofName?_eq_some_iff run other).mpr hother] at hname
          rw [Option.some.inj hname]
        · exact absurd (hlone.1.symm.trans hnamed.length_eq) (by decide)
  | none =>
      have hkind : (word before run after).tokenKind? =
          if run.length = 1 ∧ (word before run after).isIsolated then some .letter else none := by
        simp only [tokenKind?, word, hname]
        rfl
      have hunnamed : ¬ ∃ func : Func, kind = .func func ∧ func.IsNamed run := by
        rintro ⟨func, -, hnamed⟩
        rw [(Func.ofName?_eq_some_iff run func).mpr hnamed] at hname
        cases hname
      have hlone : run.length = 1 ∧ (word before run after).isIsolated = true ↔
          IsLoneLetter before run after := and_congr_right' (isIsolated_word h)
      rw [hkind, or_iff_right hunnamed, ← hlone, Option.ite_none_right_eq_some,
        Option.some.injEq, and_comm, eq_comm]

theorem isUnrecognized_word :
    (word before run after).isUnrecognized = true ↔
      (¬∃ func : Func, func.IsNamed run) ∧ ¬ IsLoneLetter before run after := by
  have hunrecognized : (word before run after).isUnrecognized = true ↔
      (word before run after).tokenKind? = none := by
    simp [isUnrecognized, word]
  rw [hunrecognized, Option.eq_none_iff_forall_ne_some]
  constructor
  · intro hnone
    constructor
    · rintro ⟨func, hnamed⟩
      exact hnone _ ((tokenKind?_word h (.func func)).mpr (.inl ⟨func, rfl, hnamed⟩))
    · intro hlone
      exact hnone _ ((tokenKind?_word h .letter).mpr (.inr ⟨rfl, hlone⟩))
  · rintro ⟨hunnamed, hlone⟩ kind hkind
    rcases (tokenKind?_word h kind).mp hkind with ⟨func, -, hnamed⟩ | ⟨-, hletter⟩
    · exact hunnamed ⟨func, hnamed⟩
    · exact hlone hletter

end Meaning

section Tokens

variable {input : String} {lexeme : Lexeme} (member : lexeme ∈ scan input)
include member

theorem mem_tokenize_iff (kind : TokenKind) :
    ⟨lexeme.span, kind, lexeme.text⟩ ∈ tokenize input ↔ lexeme.tokenKind? = some kind := by
  constructor
  · intro htoken
    obtain ⟨other, hother, hsome⟩ := List.mem_filterMap.mp htoken
    obtain ⟨own, hown, hequal⟩ := Option.map_eq_some_iff.mp hsome
    obtain ⟨hspan, rfl, -⟩ := Token.mk.inj hequal
    rw [← eq_of_span_eq hother member hspan, hown]
  · intro hkind
    exact List.mem_filterMap.mpr ⟨lexeme, member, by rw [token?, hkind]; rfl⟩

theorem span_mem_unrecognized_iff :
    lexeme.span ∈ unrecognized input ↔ lexeme.isUnrecognized = true := by
  constructor
  · intro hspan
    obtain ⟨other, hother, hsame⟩ := List.mem_map.mp hspan
    obtain ⟨hscan, hunrecognized⟩ := List.mem_filter.mp hother
    rwa [eq_of_span_eq hscan member hsame] at hunrecognized
  · intro hunrecognized
    exact List.mem_map_of_mem (List.mem_filter.mpr ⟨member, hunrecognized⟩)

end Tokens

/-- Only words mean functions and variables. -/
theorem kind_of_tokenKind?_word {lexeme : Lexeme} {kind : TokenKind}
    (h : lexeme.tokenKind? = some kind) (named : kind.isFunction = true ∨ kind = .letter) :
    lexeme.kind = .word := by
  unfold tokenKind? at h
  cases hkind : lexeme.kind with
  | word => rfl
  | whitespace => rw [hkind] at h; cases h
  | symbol => rw [hkind] at h; cases h
  | _ =>
      rw [hkind] at h
      cases h
      rcases named with hnamed | hnamed <;> cases hnamed

theorem exists_run_of_mem_tokenize {input : String} {token : Token}
    (member : token ∈ tokenize input)
    (named : token.kind.isFunction = true ∨ token.kind = .letter) :
    ∃ before run after, input.toList = before ++ run ++ after ∧
      IsRun Char.isAlpha before run after ∧ token.span = Span.after before run ∧
      token.lexeme = run := by
  obtain ⟨lexeme, hlexeme, hsome⟩ := List.mem_filterMap.mp member
  obtain ⟨kind, hkind, rfl⟩ := Option.map_eq_some_iff.mp hsome
  obtain ⟨before, run, after, hsplit, hrun, rfl⟩ :=
    (isWord_iff input lexeme).mp ⟨hlexeme, kind_of_tokenKind?_word hkind named⟩
  exact ⟨before, run, after, hsplit, hrun, rfl, rfl⟩

theorem number_of_mem_scan {input : String} {lexeme : Lexeme} (member : lexeme ∈ scan input)
    (number : lexeme.kind = .number) :
    ∃ before after, input.toList = before ++ lexeme.text ++ after ∧
      lexeme.span = Span.after before lexeme.text ∧ LexemeKind.number.Matches lexeme.text ∧
      (∀ c ∈ after.head?, c.isDigit = false) ∧
      ('.' ∉ lexeme.text → after.head? ≠ some '.') := by
  obtain ⟨before, after, hsplit, hstart, hstop, hlongest⟩ := stands_of_mem_scanFrom member
  have hspan : lexeme.span = Span.after before lexeme.text := by
    rw [Nat.zero_add] at hstart
    rw [hstart] at hstop
    exact congrArg₂ Span.mk hstart hstop
  have hmatched := hlongest.matched
  rw [number] at hmatched
  exact ⟨before, after, hsplit, hspan, hmatched, number_ends hlongest number⟩

end Lexeme

/-- The pieces of a text can be told without scanning it. The words are the runs of letters
that are as long as they can be. A number is digits, and a point and digits if there is
one; no digit follows it, nor a point if it has none, and every digit is in a number. A
run of letters is a function if these are the letters of its name, a variable if it is one
letter that touches no digit and no underscore, and unrecognized otherwise; there are no
other functions and variables. -/
theorem tokenize_classifies (input : String) :
    (∀ lexeme, lexeme ∈ scan input ∧ lexeme.kind = .word ↔
      ∃ before run after, input.toList = before ++ run ++ after ∧
        IsRun Char.isAlpha before run after ∧ lexeme = Lexeme.word before run after) ∧
    (∀ lexeme ∈ scan input, lexeme.kind = .number →
      ∃ before after, input.toList = before ++ lexeme.text ++ after ∧
        lexeme.span = Span.after before lexeme.text ∧ LexemeKind.number.Matches lexeme.text ∧
        (∀ c ∈ after.head?, c.isDigit = false) ∧
        ('.' ∉ lexeme.text → after.head? ≠ some '.')) ∧
    (∀ before c after, input.toList = before ++ c :: after → c.isDigit = true →
      ∃ lexeme ∈ scan input, lexeme.kind = .number ∧
        lexeme.span.start ≤ byteLength before ∧ byteLength before < lexeme.span.stop) ∧
    (∀ before run after, input.toList = before ++ run ++ after →
      IsRun Char.isAlpha before run after →
        (∀ func : Func, ⟨Span.after before run, .func func, run⟩ ∈ tokenize input ↔
          func.IsNamed run) ∧
        (⟨Span.after before run, .letter, run⟩ ∈ tokenize input ↔
          IsLoneLetter before run after) ∧
        (Span.after before run ∈ unrecognized input ↔
          (¬∃ func : Func, func.IsNamed run) ∧ ¬ IsLoneLetter before run after)) ∧
    ∀ token ∈ tokenize input, token.kind.isFunction = true ∨ token.kind = .letter →
      ∃ before run after, input.toList = before ++ run ++ after ∧
        IsRun Char.isAlpha before run after ∧ token.span = Span.after before run ∧
        token.lexeme = run := by
  refine ⟨Lexeme.isWord_iff input, fun _ => Lexeme.number_of_mem_scan, ?_, ?_,
    fun _ => Lexeme.exists_run_of_mem_tokenize⟩
  · intro before c after split digit
    exact Lexeme.exists_number split digit
  · intro before run after split hrun
    have hmember := Lexeme.word_mem_scan hrun split
    have hmeaning := Lexeme.tokenKind?_word hrun
    refine ⟨fun func => ?_, ?_, ?_⟩
    · exact (Lexeme.mem_tokenize_iff hmember (.func func)).trans ((hmeaning _).trans (by simp))
    · exact (Lexeme.mem_tokenize_iff hmember .letter).trans ((hmeaning _).trans (by simp))
    · rw [← Lexeme.isUnrecognized_word hrun]
      exact Lexeme.span_mem_unrecognized_iff hmember

/-- In `2x+Sin` the letter touches a digit and means nothing, and the run after the sign is
a function. -/
theorem tokenize_classifies_touching :
    Span.after ['2'] ['x'] ∈ unrecognized "2x+Sin" ∧
      ⟨Span.after ['2', 'x', '+'] ['S', 'i', 'n'], .func .sin, ['S', 'i', 'n']⟩ ∈
        tokenize "2x+Sin" := by
  have hclass := (tokenize_classifies "2x+Sin").2.2.2.1
  have hletter : IsRun Char.isAlpha ['2'] ['x'] ['+', 'S', 'i', 'n'] :=
    ⟨by decide, List.all_eq_true.mp rfl, by rintro c ⟨⟩; rfl, by rintro c ⟨⟩; rfl⟩
  have hname : IsRun Char.isAlpha ['2', 'x', '+'] ['S', 'i', 'n'] [] :=
    ⟨by decide, List.all_eq_true.mp rfl, by rintro c ⟨⟩; rfl, fun _ member => nomatch member⟩
  constructor
  · apply (hclass ['2'] ['x'] ['+', 'S', 'i', 'n'] rfl hletter).2.2.mpr
    constructor
    · rintro ⟨func, hnamed⟩
      cases hnamed.length_eq
    · rintro ⟨-, hdigit⟩
      cases (hdigit '2' (.inl rfl)).1
  · exact ((hclass ['2', 'x', '+'] ['S', 'i', 'n'] [] rfl hname).1 .sin).mpr rfl

end Formula
