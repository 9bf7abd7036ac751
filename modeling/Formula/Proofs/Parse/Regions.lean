import Formula.Proofs.Parse.Listing

/-!
Regions of operands. Tokens in reverse Polish notation need not stand in the order of the
text, so the region of an operand is not read off its first and its last token: it goes
from the smallest start to the largest end among all the tokens that it lists. The order
in which regions are joined plays no part in that, and so the operands above another
cover the hull of all tokens after its own.
-/

namespace Formula

structure Span.IsHull (region : Span) (spans : List Span) : Prop where
  start : (spans.map (·.start)).min? = some region.start
  stop : (spans.map (·.stop)).max? = some region.stop

namespace Span

theorem min?_append {xs ys : List Nat} {a b : Nat} (hxs : xs.min? = some a)
    (hys : ys.min? = some b) : (xs ++ ys).min? = some (min a b) := by
  rw [List.min?_eq_some_iff] at *
  refine ⟨?_, fun n member => ?_⟩
  · rcases Nat.le_total a b with hle | hle
    · rw [Nat.min_eq_left hle]
      exact List.mem_append_left _ hxs.1
    · rw [Nat.min_eq_right hle]
      exact List.mem_append_right _ hys.1
  · rcases List.mem_append.mp member with hmem | hmem
    · exact Nat.le_trans (Nat.min_le_left a b) (hxs.2 n hmem)
    · exact Nat.le_trans (Nat.min_le_right a b) (hys.2 n hmem)

theorem max?_append {xs ys : List Nat} {a b : Nat} (hxs : xs.max? = some a)
    (hys : ys.max? = some b) : (xs ++ ys).max? = some (max a b) := by
  rw [List.max?_eq_some_iff] at *
  refine ⟨?_, fun n member => ?_⟩
  · rcases Nat.le_total a b with hle | hle
    · rw [Nat.max_eq_right hle]
      exact List.mem_append_right _ hys.1
    · rw [Nat.max_eq_left hle]
      exact List.mem_append_left _ hxs.1
  · rcases List.mem_append.mp member with hmem | hmem
    · exact Nat.le_trans (hxs.2 n hmem) (Nat.le_max_left a b)
    · exact Nat.le_trans (hys.2 n hmem) (Nat.le_max_right a b)

theorem isHull_singleton (region : Span) : IsHull region [region] := ⟨rfl, rfl⟩

variable {region other : Span} {spans others : List Span}

theorem IsHull.cover (h : IsHull region spans) (hothers : IsHull other others) :
    IsHull (region.cover other) (spans ++ others) where
  start := by
    rw [List.map_append]
    exact min?_append h.start hothers.start
  stop := by
    rw [List.map_append]
    exact max?_append h.stop hothers.stop

theorem IsHull.perm (h : IsHull region spans) (perm : spans.Perm others) :
    IsHull region others where
  start := by
    have hstarts := List.min?_eq_some_iff.mp h.start
    simp only [(perm.map (·.start)).mem_iff] at hstarts
    exact List.min?_eq_some_iff.mpr hstarts
  stop := by
    have hstops := List.max?_eq_some_iff.mp h.stop
    simp only [(perm.map (·.stop)).mem_iff] at hstops
    exact List.max?_eq_some_iff.mpr hstops

/-- The ends of a hull are ends of regions in it. -/
theorem IsHull.exists_mem (h : IsHull region spans) :
    (∃ first ∈ spans, first.start = region.start) ∧ ∃ last ∈ spans, last.stop = region.stop :=
  ⟨List.mem_map.mp (List.min?_eq_some_iff.mp h.start).1,
    List.mem_map.mp (List.max?_eq_some_iff.mp h.stop).1⟩

end Span

namespace Operand

variable {limit : Nat}

theorem pushWithin_of_le {token : Token} {operand : Operand} (stack : List Operand)
    (fits : operand.height ≤ limit) :
    pushWithin limit token operand stack = .ok (operand :: stack) :=
  if_neg (Nat.not_lt_of_le fits)

theorem foldlM_reduce_append {before : List Token} {stack middle : List Operand}
    (h : before.foldlM (reduce limit) stack = .ok middle) (after : List Token) :
    (before ++ after).foldlM (reduce limit) stack = after.foldlM (reduce limit) middle := by
  rw [List.foldlM_append, h]
  rfl

def joined (region : Span) (operands : List Operand) : Span :=
  operands.foldl (fun span operand => span.cover operand.span) region

/-- An operation on one operand covers its own token besides. -/
theorem exists_region_unary {rpn : List Token} {token : Token} {e built : Expr}
    {stack : List Operand}
    (hoperand : ∃ region, Span.IsHull region (rpn.map (·.span)) ∧
      rpn.foldlM (reduce limit) stack = .ok (⟨e, region, e.height⟩ :: stack))
    (hreduce : ∀ region, reduce limit (⟨e, region, e.height⟩ :: stack) token =
      .ok (⟨built, token.span.cover region, built.height⟩ :: stack)) :
    ∃ region, Span.IsHull region ((rpn ++ [token]).map (·.span)) ∧
      (rpn ++ [token]).foldlM (reduce limit) stack =
        .ok (⟨built, region, built.height⟩ :: stack) := by
  obtain ⟨region, hull, hfold⟩ := hoperand
  refine ⟨token.span.cover region, ?_, ?_⟩
  · rw [List.map_append]
    exact ((Span.isHull_singleton token.span).cover hull).perm List.perm_append_comm
  · rw [foldlM_reduce_concat, hfold]
    exact hreduce region

/-- The operand that a listing leaves covers the hull of its tokens. -/
theorem exists_region_of_postfix {rpn : List Token} {e : Expr} (h : Postfix rpn e)
    (fits : e.height ≤ limit) (stack : List Operand) :
    ∃ region, Span.IsHull region (rpn.map (·.span)) ∧
      rpn.foldlM (reduce limit) stack = .ok (⟨e, region, e.height⟩ :: stack) := by
  induction h generalizing stack with
  | @number token value kind read =>
      refine ⟨token.span, Span.isHull_singleton token.span, ?_⟩
      rw [List.foldlM_cons, reduce_number limit stack kind read, pushWithin_of_le stack fits]
      rfl
  | @letter token kind =>
      refine ⟨token.span, Span.isHull_singleton token.span, ?_⟩
      rw [List.foldlM_cons, reduce_letter limit stack kind, pushWithin_of_le stack fits]
      rfl
  | neg kind operand ih =>
      refine exists_region_unary (ih (Nat.le_of_succ_le fits) stack) fun region => ?_
      exact (reduce_neg limit stack _ kind).trans (pushWithin_of_le stack fits)
  | call kind operand ih =>
      refine exists_region_unary (ih (Nat.le_of_succ_le fits) stack) fun region => ?_
      exact (reduce_call limit stack _ kind).trans (pushWithin_of_le stack fits)
  | @binary left right token a b op kind lhs rhs ihl ihr =>
      have hheights : max a.height b.height + 1 ≤ limit := fits
      obtain ⟨leftRegion, leftHull, hleft⟩ := ihl (by omega) stack
      obtain ⟨rightRegion, rightHull, hright⟩ :=
        ihr (by omega) (⟨a, leftRegion, a.height⟩ :: stack)
      refine ⟨(token.span.cover leftRegion).cover rightRegion, ?_, ?_⟩
      · rw [List.map_append, List.map_append]
        refine (((Span.isHull_singleton token.span).cover leftHull).cover rightHull).perm ?_
        rw [List.append_assoc]
        exact List.perm_append_comm
      · rw [foldlM_reduce_concat, foldlM_reduce_append hleft, hright]
        exact (reduce_binary limit stack _ _ kind).trans (pushWithin_of_le stack fits)

/-- What tokens put on an empty stack they put on any, and the operands of it, joined to
a region, take it to the hull of all these tokens. -/
theorem Covers.exists_regions {rpn : List Token} {operands : List Operand}
    (h : Covers limit rpn operands) (stack : List Operand) :
    ∃ above, rpn.foldlM (Operand.reduce limit) stack = .ok (above ++ stack) ∧
      ∀ region spans, Span.IsHull region spans →
        Span.IsHull (joined region above) (spans ++ rpn.map (·.span)) := by
  induction h with
  | empty =>
      refine ⟨[], rfl, fun region spans hull => ?_⟩
      rwa [List.map_nil, List.append_nil]
  | @push before rpn operands operand below lists height fits ih =>
      obtain ⟨above, hbefore, hregions⟩ := ih
      obtain ⟨own, ownHull, hfold⟩ :=
        exists_region_of_postfix lists (height ▸ fits) (above ++ stack)
      refine ⟨⟨operand.expr, own, operand.expr.height⟩ :: above, ?_, ?_⟩
      · rw [foldlM_reduce_append hbefore, hfold]
        rfl
      · intro region spans hull
        refine (hregions _ _ (hull.cover ownHull)).perm ?_
        rw [List.map_append, List.append_assoc]
        exact List.perm_append_comm.append_left spans

/-- The lowest operand lists the first tokens and the operands above it the others. -/
theorem Covers.exists_first {rpn : List Token} {operands : List Operand}
    (h : Covers limit rpn operands) (nonempty : operands ≠ []) :
    ∃ first rest e above, rpn = first ++ rest ∧ Postfix first e ∧ e.height ≤ limit ∧
      Covers limit rest above ∧ operands.length = above.length + 1 := by
  induction h with
  | empty => exact absurd rfl nonempty
  | @push before rpn operands operand below lists height fits ih =>
      cases below with
      | empty => exact ⟨rpn, [], operand.expr, [], by simp, lists, height ▸ fits, .empty, rfl⟩
      | push lower listed lowerHeight lowerFits =>
          obtain ⟨first, rest, e, above, hsplit, hfirst, hfits, hrest, hlength⟩ :=
            ih (List.cons_ne_nil _ _)
          refine ⟨first, rest ++ rpn, e, operand :: above, ?_, hfirst, hfits,
            .push hrest lists height fits, ?_⟩
          · rw [hsplit, List.append_assoc]
          · rw [List.length_cons, hlength, List.length_cons]

theorem result_of_many (top bottom : Operand) (middle : List Operand) :
    result (top :: (middle ++ [bottom])) = .error ⟨[joined top.span middle], .trailingTokens⟩ := by
  cases middle with
  | nil => rfl
  | cons second others =>
      change Except.error (ParseError.mk [joined _ ((second :: others) ++ [bottom]).dropLast] _) = _
      rw [List.dropLast_concat]

/-- Of two operands or more, those above the lowest are too many; they are shown by the
hull of the tokens after its own. -/
theorem Covers.result_eq_error {rpn : List Token} {operands : List Operand}
    (h : Covers limit rpn operands) (many : 2 ≤ operands.length) :
    ∃ first rest e region above, rpn = first ++ rest ∧ Postfix first e ∧
      Covers limit rest above ∧ Span.IsHull region (rest.map (·.span)) ∧
      Expr.ofRpn limit rpn = .error ⟨[region], .trailingTokens⟩ := by
  obtain ⟨first, rest, e, above, rfl, hfirst, hfits, hrest, hlength⟩ :=
    h.exists_first (by rintro rfl; simp at many)
  obtain ⟨bottom, -, hbottom⟩ := exists_region_of_postfix hfirst hfits []
  cases hrest with
  | empty =>
      rw [hlength] at many
      simp at many
  | @push before rpn lower operand below lists height fits =>
      obtain ⟨middle, hmiddle, hregions⟩ := below.exists_regions [⟨e, bottom, e.height⟩]
      obtain ⟨top, topHull, htop⟩ := exists_region_of_postfix lists (height ▸ fits)
        (middle ++ [⟨e, bottom, e.height⟩])
      refine ⟨first, before ++ rpn, e, joined top middle, operand :: lower, rfl, hfirst,
        .push below lists height fits, ?_, ?_⟩
      · rw [List.map_append]
        exact (hregions _ _ topHull).perm List.perm_append_comm
      · unfold Expr.ofRpn
        rw [foldlM_reduce_append hbottom, foldlM_reduce_append hmiddle, htop]
        exact result_of_many _ _ middle

end Operand

end Formula
