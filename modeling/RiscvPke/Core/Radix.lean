/-
Radix trees of fixed depth in a memory of words. A table is a page of `b` words; a key is a list of digits below `b`.
The words of the tables at depth less than `n` are 0 or the code `enc g` of the table `g` below, the words of the tables
at depth `n` are the contents of the tree.
-/
import Mathlib.Tactic

namespace RiscvPke.Radix

open Function

variable {b n : ℕ} {enc : ℕ → ℕ} {W W' : ℕ → ℕ → ℕ} {node : List ℕ → Option ℕ} {leaf : List ℕ → ℕ}
  {p q : List ℕ} {f g i w : ℕ}

structure Tree (b n : ℕ) (enc : ℕ → ℕ) (W : ℕ → ℕ → ℕ) (node : List ℕ → Option ℕ) (leaf : List ℕ → ℕ) : Prop where
  inj : ∀ p q f, node p = some f → node q = some f → p = q
  inner : ∀ p f i, node p = some f → p.length < n → i < b → W f i = (node (p ++ [i])).elim 0 enc
  outer : ∀ p f i, node p = some f → p.length = n → i < b → W f i = leaf (p ++ [i])
  up : ∀ p i, node p = none → node (p ++ [i]) = none
  bare : ∀ p i, node p = none → p.length = n → leaf (p ++ [i]) = 0

theorem tree_root {r : ℕ} (hn : 0 < n) (hW : ∀ i, i < b → W r i = 0) :
    Tree b n enc W (fun p => if p = [] then some r else none) fun _ => 0 where
  inj p q f hp hq := by
    by_cases h1 : p = []
    · by_cases h2 : q = []
      · rw [h1, h2]
      · simp [h2] at hq
    · simp [h1] at hp
  inner p f i hp _ hi := by
    by_cases h1 : p = []
    · simp only [h1, if_true, Option.some.injEq] at hp
      subst hp
      simp [hW i hi]
    · simp [h1] at hp
  outer p f i hp hlen _ := by
    by_cases h1 : p = []
    · subst h1
      simp only [List.length_nil] at hlen
      omega
    · simp [h1] at hp
  up p i _ := by simp
  bare _ _ _ _ := rfl

theorem Tree.congr (h : Tree b n enc W node leaf) (hW : ∀ p f i, node p = some f → i < b → W' f i = W f i) :
    Tree b n enc W' node leaf where
  __ := h
  inner p f i hp hlen hi := (hW p f i hp hi).trans (h.inner p f i hp hlen hi)
  outer p f i hp hlen hi := (hW p f i hp hi).trans (h.outer p f i hp hlen hi)

theorem Tree.none_append (h : Tree b n enc W node leaf) (hp : node p = none) (l : List ℕ) : node (p ++ l) = none := by
  induction l using List.reverseRecOn with
  | nil => rwa [List.append_nil]
  | append_singleton l i ih =>
    rw [← List.append_assoc]
    exact h.up _ i ih

theorem Tree.attach (h : Tree b n enc W node leaf) (hp : node p = some f) (hlen : p.length < n)
    (hnone : node (p ++ [i]) = none) (hg : ∀ q, node q ≠ some g) (hword : W' f i = enc g)
    (hzero : ∀ j, j < b → W' g j = 0)
    (hrest : ∀ q f' j, node q = some f' → j < b → (f', j) ≠ (f, i) → W' f' j = W f' j) :
    Tree b n enc W' (update node (p ++ [i]) (some g)) leaf where
  inj q q' f' hq hq' := by
    by_cases h1 : q = p ++ [i]
    · by_cases h2 : q' = p ++ [i]
      · rw [h1, h2]
      · subst h1
        rw [update_self] at hq
        rw [update_of_ne h2] at hq'
        cases hq
        exact absurd hq' (hg q')
    · rw [update_of_ne h1] at hq
      by_cases h2 : q' = p ++ [i]
      · subst h2
        rw [update_self] at hq'
        cases hq'
        exact absurd hq (hg q)
      · rw [update_of_ne h2] at hq'
        exact h.inj q q' f' hq hq'
  inner q f' j hq hq1 hj := by
    by_cases h1 : q = p ++ [i]
    · subst h1
      rw [update_self] at hq
      cases hq
      have hbelow : node (p ++ [i] ++ [j]) = none := h.up _ j hnone
      rw [hzero j hj, update_of_ne (by simp), hbelow]
      rfl
    · rw [update_of_ne h1] at hq
      by_cases h2 : q ++ [j] = p ++ [i]
      · obtain ⟨rfl, hij⟩ := List.append_inj' h2 rfl
        obtain rfl : j = i := by simpa using hij
        rw [hp] at hq
        cases hq
        rw [update_self, hword]
        rfl
      · rw [update_of_ne h2, hrest q f' j hq hj, h.inner q f' j hq hq1 hj]
        intro he
        obtain ⟨rfl, rfl⟩ := Prod.mk.inj he
        exact h2 (by rw [h.inj q p f' hq hp])
  outer q f' j hq hq1 hj := by
    by_cases h1 : q = p ++ [i]
    · subst h1
      rw [update_self] at hq
      cases hq
      rw [hzero j hj, h.bare _ j hnone hq1]
    · rw [update_of_ne h1] at hq
      rw [hrest q f' j hq hj, h.outer q f' j hq hq1 hj]
      intro he
      obtain ⟨rfl, rfl⟩ := Prod.mk.inj he
      have := h.inj q p f' hq hp
      subst this
      omega
  up q j hq := by
    have h1 : q ≠ p ++ [i] := by
      rintro rfl
      rw [update_self] at hq
      cases hq
    rw [update_of_ne h1] at hq
    have h2 : q ++ [j] ≠ p ++ [i] := by
      intro h2
      obtain ⟨rfl, -⟩ := List.append_inj' h2 rfl
      rw [hp] at hq
      cases hq
    rw [update_of_ne h2]
    exact h.up q j hq
  bare q j hq hq1 := by
    have h1 : q ≠ p ++ [i] := by
      rintro rfl
      rw [update_self] at hq
      cases hq
    rw [update_of_ne h1] at hq
    exact h.bare q j hq hq1

theorem Tree.write (h : Tree b n enc W node leaf) (hp : node p = some f) (hlen : p.length = n) (hword : W' f i = w)
    (hrest : ∀ q f' j, node q = some f' → j < b → (f', j) ≠ (f, i) → W' f' j = W f' j) :
    Tree b n enc W' node (update leaf (p ++ [i]) w) where
  __ := h
  inner q f' j hq hq1 hj := by
    rw [hrest q f' j hq hj, h.inner q f' j hq hq1 hj]
    intro he
    obtain ⟨rfl, rfl⟩ := Prod.mk.inj he
    have := h.inj q p f' hq hp
    subst this
    omega
  outer q f' j hq hq1 hj := by
    by_cases h2 : q ++ [j] = p ++ [i]
    · obtain ⟨rfl, hij⟩ := List.append_inj' h2 rfl
      obtain rfl : j = i := by simpa using hij
      rw [hp] at hq
      cases hq
      rw [update_self, hword]
    · rw [update_of_ne h2, hrest q f' j hq hj, h.outer q f' j hq hq1 hj]
      intro he
      obtain ⟨rfl, rfl⟩ := Prod.mk.inj he
      exact h2 (by rw [h.inj q p f' hq hp])
  bare q j hq hq1 := by
    have h2 : q ++ [j] ≠ p ++ [i] := by
      intro h2
      obtain ⟨rfl, -⟩ := List.append_inj' h2 rfl
      rw [hp] at hq
      cases hq
    rw [update_of_ne h2]
    exact h.bare q j hq hq1

end RiscvPke.Radix
