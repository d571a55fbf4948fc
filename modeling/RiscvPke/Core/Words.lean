/-
The words of a list: its maximal runs of elements that are no separators.
-/
import Mathlib.Tactic

namespace RiscvPke.Words

variable {α : Type} {p : α → Bool} {l s w r : List α} {c : α}

def words (p : α → Bool) (l : List α) : List (List α) := (l.splitOnP p).filter (!·.isEmpty)

@[simp] theorem words_nil : words p ([] : List α) = [] := by
  simp [words]

theorem words_sep (h : p c = true) : words p (c :: l) = words p l := by
  simp [words, List.splitOnP_cons_eq_if_modifyHead, h]

theorem words_word (hw : ∀ x ∈ w, p x = false) (hne : w ≠ []) (hc : p c = true) :
    words p (w ++ c :: l) = w :: words p l := by
  have hempty : w.isEmpty = false := by simpa using hne
  rw [words, List.splitOnP_append_cons_of_forall_mem hw c hc, List.filter_cons, hempty]
  rfl

theorem words_last (hw : ∀ x ∈ w, p x = false) (hne : w ≠ []) : words p w = [w] := by
  have hempty : w.isEmpty = false := by simpa using hne
  rw [words, List.splitOnP_eq_singleton hw, List.filter_cons, hempty]
  rfl

/-- what follows a word: nothing, or a separator -/
def Ends (p : α → Bool) (r : List α) : Prop := r = [] ∨ ∃ c r', r = c :: r' ∧ p c = true

theorem words_append (hw : ∀ x ∈ w, p x = false) (hne : w ≠ []) (hr : Ends p r) :
    words p (w ++ r) = w :: words p r := by
  rcases hr with rfl | ⟨c, r', rfl, hc⟩
  · rw [List.append_nil, words_last hw hne, words_nil]
  · rw [words_word hw hne hc, words_sep hc]

theorem words_cases (p : α → Bool) (l : List α) : ((∀ x ∈ l, p x = true) ∧ words p l = []) ∨
    ∃ s w r, l = s ++ (w ++ r) ∧ (∀ x ∈ s, p x = true) ∧ (∀ x ∈ w, p x = false) ∧ w ≠ [] ∧ Ends p r ∧
      words p l = w :: words p r := by
  induction l with
  | nil => exact .inl ⟨fun x hx => absurd hx List.not_mem_nil, words_nil⟩
  | cons c l ih =>
    cases hc : p c with
    | true =>
      rw [words_sep hc]
      rcases ih with ⟨hall, hnone⟩ | ⟨s, w, r, rfl, hs, hw, hne, hr, hwords⟩
      · exact .inl ⟨List.forall_mem_cons.2 ⟨hc, hall⟩, hnone⟩
      · exact .inr ⟨c :: s, w, r, rfl, List.forall_mem_cons.2 ⟨hc, hs⟩, hw, hne, hr, hwords⟩
    | false =>
      -- the word that begins here ends at once, or it goes on with the first word of the rest
      have hone : Ends p l → ∃ s w r, c :: l = s ++ (w ++ r) ∧ (∀ x ∈ s, p x = true) ∧ (∀ x ∈ w, p x = false) ∧ w ≠ [] ∧
          Ends p r ∧ words p (c :: l) = w :: words p r := by
        intro hl
        have hw : ∀ x ∈ [c], p x = false := List.forall_mem_singleton.2 hc
        exact ⟨[], [c], l, rfl, fun x hx => absurd hx List.not_mem_nil, hw, List.cons_ne_nil _ _, hl,
          words_append hw (List.cons_ne_nil _ _) hl⟩
      refine .inr ?_
      rcases ih with ⟨hall, -⟩ | ⟨s, w, r, rfl, hs, hw, hne, hr, -⟩
      · apply hone
        cases l with
        | nil => exact .inl rfl
        | cons x l => exact .inr ⟨x, l, rfl, hall x List.mem_cons_self⟩
      · cases s with
        | cons x s => exact hone (.inr ⟨x, _, rfl, hs x List.mem_cons_self⟩)
        | nil =>
          have hw' : ∀ x ∈ c :: w, p x = false := List.forall_mem_cons.2 ⟨hc, hw⟩
          exact ⟨[], c :: w, r, rfl, hs, hw', List.cons_ne_nil _ _, hr, words_append hw' (List.cons_ne_nil _ _) hr⟩

theorem length_words_le (p : α → Bool) (l : List α) : (words p l).length ≤ l.length := by
  induction hn : l.length using Nat.strong_induction_on generalizing l with
  | _ n ih =>
    subst hn
    rcases words_cases p l with ⟨-, hnone⟩ | ⟨s, w, r, rfl, -, -, hne, -, hwords⟩
    · rw [hnone]
      exact Nat.zero_le _
    · have hpos := List.length_pos_iff.2 hne
      have hless : r.length < (s ++ (w ++ r)).length := by
        simp only [List.length_append]
        omega
      rw [hwords, List.length_cons]
      exact lt_of_le_of_lt (ih r.length hless r rfl) hless

end RiscvPke.Words
