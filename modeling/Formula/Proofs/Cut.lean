/-!
Where a list is cut by a predicate: after the entries that satisfy it, if the next one
does not. And where an entry stands in a list that is put together from two.
-/

namespace Formula

variable {α : Type} {above below : List α} {p : α → Bool}

theorem cut (hout : ∀ a ∈ above, p a = true) (hstay : ∀ top ∈ below.head?, p top = false) :
    (above ++ below).takeWhile p = above ∧ (above ++ below).dropWhile p = below := by
  rw [List.takeWhile_append_of_pos hout, List.dropWhile_append_of_pos hout]
  cases below with
  | nil => exact ⟨List.append_nil above, rfl⟩
  | cons top rest =>
      have htop := hstay top rfl
      rw [List.takeWhile_cons_of_neg (by simp [htop]), List.dropWhile_cons_of_neg (by simp [htop])]
      exact ⟨List.append_nil above, rfl⟩

/-- Every list is cut by every predicate. -/
theorem exists_cut (p : α → Bool) (l : List α) :
    ∃ above below, l = above ++ below ∧ l.takeWhile p = above ∧ l.dropWhile p = below ∧
      (∀ a ∈ above, p a = true) ∧ ∀ top ∈ below.head?, p top = false := by
  refine ⟨l.takeWhile p, l.dropWhile p, List.takeWhile_append_dropWhile.symm, rfl, rfl,
    List.all_eq_true.mp List.all_takeWhile, ?_⟩
  intro top member
  have hstay := List.head?_dropWhile_not p l
  rw [member] at hstay
  simpa using hstay

/-- It is also cut before the entries at its end that satisfy the predicate. -/
theorem exists_cut_last (p : α → Bool) (l : List α) :
    ∃ above below, l = above ++ below ∧ (∀ a ∈ below, p a = true) ∧
      ∀ last ∈ above.getLast?, p last = false := by
  obtain ⟨out, stay, hsplit, -, -, hout, hstay⟩ := exists_cut p l.reverse
  refine ⟨stay.reverse, out.reverse, ?_, ?_, ?_⟩
  · rw [← List.reverse_append, ← hsplit, List.reverse_reverse]
  · intro a member
    exact hout a (List.mem_reverse.mp member)
  · rw [List.getLast?_reverse]
    exact hstay

/-- What follows has no part in it unless all entries satisfy it. -/
theorem cut_append_of_all (l : List α) {base : List α}
    (hstop : (∀ a ∈ l, p a = true) → ∀ top ∈ base.head?, p top = false) :
    (l ++ base).takeWhile p = l.takeWhile p ∧ (l ++ base).dropWhile p = l.dropWhile p ++ base := by
  obtain ⟨above, below, rfl, habove, hbelow, hout, hstay⟩ := exists_cut p l
  rw [habove, hbelow, List.append_assoc]
  apply cut hout
  intro top member
  cases below with
  | nil =>
      rw [List.append_nil] at hstop
      exact hstop hout top member
  | cons first rest => exact hstay top member

/-- What stands below a stop has no part in it. -/
theorem cut_append (l : List α) {base : List α} (hstop : ∀ top ∈ base.head?, p top = false) :
    (l ++ base).takeWhile p = l.takeWhile p ∧ (l ++ base).dropWhile p = l.dropWhile p ++ base :=
  cut_append_of_all l fun _ => hstop

/-- What stands between two entries that satisfy it stands in the list as it is, and has
no such entry itself. -/
theorem exists_of_mem_splitOnP (l : List α) {piece : List α} (member : piece ∈ l.splitOnP p) :
    (∃ before after, l = before ++ piece ++ after) ∧ ∀ a ∈ piece, p a = false := by
  obtain ⟨above, below, hsplit, -, -, hout, hstop⟩ := exists_cut (!p ·) l
  have hfree : ∀ a ∈ above, p a = false := by simpa using hout
  cases below with
  | nil =>
      rw [List.append_nil] at hsplit
      rw [hsplit, List.splitOnP_eq_singleton hfree, List.mem_singleton] at member
      rw [member]
      exact ⟨⟨[], [], by simp [hsplit]⟩, hfree⟩
  | cons stop rest =>
      have hstops : p stop = true := by simpa using hstop stop rfl
      have hshorter : rest.length < l.length := by
        rw [hsplit, List.length_append, List.length_cons]
        omega
      rw [hsplit, List.splitOnP_append_cons_of_forall_mem hfree stop hstops, List.mem_cons]
        at member
      rcases member with rfl | member
      · exact ⟨⟨[], stop :: rest, hsplit⟩, hfree⟩
      · obtain ⟨⟨before, after, hrest⟩, hpiece⟩ := exists_of_mem_splitOnP rest member
        exact ⟨⟨above ++ stop :: before, after, by simp [hsplit, hrest]⟩, hpiece⟩
termination_by l.length

/-- An entry of a list that is put together from two is in the one or in the other. -/
theorem append_eq_append_cons {a b before rest : List α} {x : α}
    (h : a ++ b = before ++ x :: rest) :
    (∃ more, a = before ++ x :: more ∧ rest = more ++ b) ∨
      ∃ more, before = a ++ more ∧ b = more ++ x :: rest := by
  rcases List.append_eq_append_iff.mp h with ⟨more, hbefore, hb⟩ | ⟨more, ha, hmore⟩
  · exact .inr ⟨more, hbefore, hb⟩
  · cases more with
    | nil =>
        rw [List.append_nil] at ha
        exact .inr ⟨[], by rw [ha, List.append_nil], hmore.symm⟩
    | cons first more =>
        cases hmore
        exact .inl ⟨more, ha, rfl⟩

end Formula
