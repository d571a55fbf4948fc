/-
Counting the keys that hold a value. `Counted holds f n`: exactly `n` keys hold `f`, over an arbitrary type of keys. It
is the meaning of a reference count: `Counted.add`, `Counted.remove` and `Counted.other` follow one key that takes a
value, gives it up, or has nothing to do with it. `sum_intervals`: the lengths of disjoint intervals that fill a range.
-/
import Mathlib.Tactic

namespace RiscvPke.Count

open Function

variable {κ φ : Type}

def Counted (holds : κ → Option φ) (f : φ) (n : ℕ) : Prop :=
  ∃ S : Finset κ, (∀ k, k ∈ S ↔ holds k = some f) ∧ S.card = n

variable {holds : κ → Option φ} {f : φ} {n : ℕ} {k : κ}

theorem Counted.unique {m : ℕ} (h1 : Counted holds f n) (h2 : Counted holds f m) : n = m := by
  obtain ⟨S, hS, rfl⟩ := h1
  obtain ⟨T, hT, rfl⟩ := h2
  have : S = T := by
    ext k
    rw [hS, hT]
  rw [this]

theorem Counted.pos (h : Counted holds f n) (hk : holds k = some f) : 0 < n := by
  obtain ⟨S, hS, rfl⟩ := h
  exact Finset.card_pos.2 ⟨k, (hS k).2 hk⟩

theorem Counted.eq_of_one (h : Counted holds f 1) {k' : κ} (hk : holds k = some f)
    (hk' : holds k' = some f) : k = k' := by
  obtain ⟨S, hS, hc⟩ := h
  obtain ⟨x, rfl⟩ := Finset.card_eq_one.1 hc
  have h1 := (hS k).2 hk
  have h2 := (hS k').2 hk'
  rw [Finset.mem_singleton] at h1 h2
  rw [h1, h2]

theorem counted_zero (h : ∀ k, holds k ≠ some f) : Counted holds f 0 := by
  refine ⟨∅, fun k => ?_, rfl⟩
  simpa using h k

theorem Counted.congr {holds' : κ → Option φ} (h : Counted holds f n) (he : ∀ k, holds' k = some f ↔ holds k = some f) :
    Counted holds' f n := by
  obtain ⟨S, hS, hc⟩ := h
  exact ⟨S, fun k => by rw [hS, he], hc⟩

theorem Counted.comap {κ' : Type} {g : κ' → κ} (h : Counted holds f n) (hg : Function.Injective g)
    (hrange : ∀ k, holds k = some f → ∃ k', g k' = k) : Counted (holds ∘ g) f n := by
  obtain ⟨S, hS, rfl⟩ := h
  refine ⟨S.preimage g hg.injOn, fun k' => ?_, ?_⟩
  · rw [Finset.mem_preimage, hS]
    rfl
  · classical
    rw [Finset.card_preimage, Finset.filter_true_of_mem]
    intro k hk
    exact hrange k ((hS k).1 hk)

variable [DecidableEq κ]

theorem Counted.add (h : Counted holds f n) (hk : holds k ≠ some f) : Counted (update holds k (some f)) f (n + 1) := by
  obtain ⟨S, hS, rfl⟩ := h
  have hkS : k ∉ S := fun hm => hk ((hS k).1 hm)
  refine ⟨insert k S, fun x => ?_, Finset.card_insert_of_notMem hkS⟩
  rw [Finset.mem_insert, hS]
  by_cases hx : x = k
  · subst hx; simp
  · simp [hx]

theorem Counted.remove {o : Option φ} (h : Counted holds f n) (hk : holds k = some f) (ho : o ≠ some f) :
    Counted (update holds k o) f (n - 1) := by
  obtain ⟨S, hS, rfl⟩ := h
  refine ⟨S.erase k, fun x => ?_, Finset.card_erase_of_mem ((hS k).2 hk)⟩
  rw [Finset.mem_erase, hS]
  by_cases hx : x = k
  · subst hx; simpa using ho
  · simp [hx]

theorem Counted.other {o : Option φ} (h : Counted holds f n) (hk : holds k ≠ some f) (ho : o ≠ some f) :
    Counted (update holds k o) f n := by
  refine h.congr fun x => ?_
  by_cases hx : x = k
  · subst hx; simp [hk, ho]
  · simp [hx]

theorem sum_intervals {l : List ℕ} {len : ℕ → ℕ} {lo hi : ℕ} (hnd : l.Nodup)
    (hdisj : ∀ p ∈ l, ∀ q ∈ l, p ≠ q → p + len p ≤ q ∨ q + len q ≤ p) (hin : ∀ p ∈ l, lo ≤ p ∧ p + len p ≤ hi)
    (hfill : ∀ a, lo ≤ a → a < hi → ∃ p ∈ l, p ≤ a ∧ a < p + len p) : (l.map len).sum = hi - lo := by
  have hpair : (l.toFinset : Set ℕ).PairwiseDisjoint fun p => Finset.Ico p (p + len p) := by
    intro p hp q hq hne
    refine Finset.disjoint_left.2 fun a ha hb => ?_
    have := hdisj p (by simpa using hp) q (by simpa using hq) hne
    simp only [Finset.mem_Ico] at ha hb
    omega
  have hunion : l.toFinset.biUnion (fun p => Finset.Ico p (p + len p)) = Finset.Ico lo hi := by
    ext a
    simp only [Finset.mem_biUnion, List.mem_toFinset, Finset.mem_Ico]
    constructor
    · intro ⟨p, hp, h1, h2⟩
      have := hin p hp
      omega
    · intro ⟨h1, h2⟩
      exact hfill a h1 h2
  calc (l.map len).sum = ∑ p ∈ l.toFinset, len p := (List.sum_toFinset len hnd).symm
    _ = ∑ p ∈ l.toFinset, (Finset.Ico p (p + len p)).card := by simp
    _ = (Finset.Ico lo hi).card := by rw [← hunion, Finset.card_biUnion hpair]
    _ = hi - lo := Nat.card_Ico lo hi

end RiscvPke.Count
