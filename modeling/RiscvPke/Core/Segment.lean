/-
Segments of linked lists of addresses: `Seg next h l k` says that following `next` from `h` meets exactly the nodes `l`
and then stands at `k`. Address 0 is null, and no node is at 0. A list that ends is a segment to 0.
-/
import Mathlib.Tactic

namespace RiscvPke.Segment

def Seg (next : ℕ → ℕ) : ℕ → List ℕ → ℕ → Prop
  | h, [], k => h = k
  | h, a :: l, k => h = a ∧ a ≠ 0 ∧ Seg next (next a) l k

variable {next next' : ℕ → ℕ} {h k a b : ℕ} {l l' : List ℕ}

@[simp] theorem seg_nil : Seg next h [] k ↔ h = k := Iff.rfl

@[simp] theorem seg_cons : Seg next h (a :: l) k ↔ h = a ∧ a ≠ 0 ∧ Seg next (next a) l k := Iff.rfl

theorem seg_append : Seg next h (l ++ l') k ↔ ∃ m, Seg next h l m ∧ Seg next m l' k := by
  induction l generalizing h with
  | nil =>
    constructor
    · intro hs
      exact ⟨h, rfl, hs⟩
    · rintro ⟨m, rfl, hs⟩
      exact hs
  | cons a l ih =>
    rw [List.cons_append, seg_cons, ih]
    constructor
    · rintro ⟨rfl, h0, m, h1, h2⟩
      exact ⟨m, ⟨rfl, h0, h1⟩, h2⟩
    · rintro ⟨m, ⟨rfl, h0, h1⟩, h2⟩
      exact ⟨rfl, h0, m, h1, h2⟩

theorem Seg.congr (hs : Seg next h l k) (hn : ∀ a ∈ l, next' a = next a) : Seg next' h l k := by
  induction l generalizing h with
  | nil => exact hs
  | cons a l ih =>
    obtain ⟨rfl, h0, hs⟩ := hs
    refine ⟨rfl, h0, ?_⟩
    rw [hn h List.mem_cons_self]
    exact ih hs fun b hb => hn b (List.mem_cons_of_mem h hb)

theorem Seg.eq_nil (hs : Seg next 0 l k) : l = [] := by
  cases l with
  | nil => rfl
  | cons a l => exact absurd hs.1.symm hs.2.1

theorem Seg.insert (hs : Seg next h (l ++ a :: l') k) (hl : ∀ q ∈ l, next' q = next q)
    (hl' : ∀ q ∈ l', next' q = next q)
    (ha : next' a = b) (h0 : b ≠ 0) (hb : next' b = next a) : Seg next' h (l ++ a :: b :: l') k := by
  obtain ⟨m, h1, rfl, h2, h3⟩ := seg_append.1 hs
  refine seg_append.2 ⟨m, h1.congr hl, rfl, h2, ha, h0, ?_⟩
  rw [hb]
  exact h3.congr hl'

theorem Seg.remove (hs : Seg next h (l ++ a :: b :: l') k) (hl : ∀ q ∈ l, next' q = next q)
    (hl' : ∀ q ∈ l', next' q = next q) (ha : next' a = next b) : Seg next' h (l ++ a :: l') k := by
  obtain ⟨m, h1, rfl, h2, -, -, h3⟩ := seg_append.1 hs
  refine seg_append.2 ⟨m, h1.congr hl, rfl, h2, ?_⟩
  rw [ha]
  exact h3.congr hl'

theorem Seg.unique (h1 : Seg next h l 0) (h2 : Seg next h l' 0) : l = l' := by
  induction l generalizing h l' with
  | nil =>
    cases h1
    exact h2.eq_nil.symm
  | cons a l ih =>
    obtain ⟨rfl, h0, h1⟩ := h1
    cases l' with
    | nil => exact absurd h2 h0
    | cons b l' =>
      obtain ⟨rfl, -, h2⟩ := h2
      rw [ih h1 h2]

def nodes (next : ℕ → ℕ) : (n h : ℕ) → List ℕ
  | 0, _ => []
  | n + 1, h => if h = 0 then [] else h :: nodes next n (next h)

theorem Seg.nodes_eq {n : ℕ} (hs : Seg next h l 0) (hn : l.length ≤ n) : nodes next n h = l := by
  induction l generalizing h n with
  | nil =>
    obtain rfl : h = 0 := hs
    cases n with
    | zero => rfl
    | succ n => rw [nodes, if_pos rfl]
  | cons a l ih =>
    obtain ⟨rfl, h0, hs⟩ := hs
    cases n with
    | zero => simp at hn
    | succ n =>
      rw [nodes, if_neg h0, ih hs]
      simp only [List.length_cons] at hn
      omega

theorem Seg.nodup (hs : Seg next h l 0) : l.Nodup := by
  induction l generalizing h with
  | nil => exact List.nodup_nil
  | cons a l ih =>
    refine List.nodup_cons.2 ⟨fun ha => ?_, ih hs.2.2⟩
    -- from a second occurrence of `a` the same nodes would follow, in a strictly shorter list
    obtain ⟨l1, l2, rfl⟩ := List.append_of_mem ha
    obtain ⟨m, -, hm⟩ := seg_append.1 hs.2.2
    have hshort := congrArg List.length (hm.2.2.unique hs.2.2)
    simp only [List.length_append, List.length_cons] at hshort
    omega

end RiscvPke.Segment
