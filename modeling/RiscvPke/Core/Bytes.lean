/-
Little-endian numbers in a memory of bytes: `storeN mem a w v` writes the low `w` bytes of `v` at `a`, `loadN mem a w`
reads `w` bytes. A load gives back what a store to the same place wrote, and a store to a disjoint place does not change
it.
-/
import Mathlib.Tactic

namespace RiscvPke.Bytes

variable {mem mem' : ℕ → UInt8} {a b w n v : ℕ}

def storeN (mem : ℕ → UInt8) (a w v : ℕ) : ℕ → UInt8 := fun b =>
  if a ≤ b ∧ b < a + w then UInt8.ofNat (v / 256 ^ (b - a)) else mem b

def loadN (mem : ℕ → UInt8) : (a w : ℕ) → ℕ
  | _, 0 => 0
  | a, w + 1 => (mem a).toNat + 256 * loadN mem (a + 1) w

theorem storeN_of_not (h : ¬ (a ≤ b ∧ b < a + w)) : storeN mem a w v b = mem b := if_neg h

theorem loadN_lt : loadN mem a w < 256 ^ w := by
  induction w generalizing a with
  | zero => simp [loadN]
  | succ w ih =>
    have hb := (mem a).toNat_lt
    have hw := @ih (a + 1)
    rw [loadN, pow_succ]
    omega

theorem loadN_move (h : ∀ i < w, mem' (b + i) = mem (a + i)) : loadN mem' b w = loadN mem a w := by
  induction w generalizing a b with
  | zero => rfl
  | succ w ih =>
    have htail : ∀ i < w, mem' (b + 1 + i) = mem (a + 1 + i) := by
      intro i hi
      have := h (i + 1) (by omega)
      rwa [Nat.add_comm i 1, ← Nat.add_assoc, ← Nat.add_assoc] at this
    rw [loadN, loadN, ih htail]
    have := h 0 (by omega)
    rw [Nat.add_zero, Nat.add_zero] at this
    rw [this]

theorem loadN_congr (h : ∀ b, a ≤ b → b < a + w → mem' b = mem b) : loadN mem' a w = loadN mem a w :=
  loadN_move fun i _ => h (a + i) (by omega) (by omega)

theorem storeN_move {a' b' : ℕ} (h : mem' b' = mem b) (hd : (b' : ℤ) - a' = b - a) :
    storeN mem' a' w v b' = storeN mem a w v b := by
  unfold storeN
  by_cases hc : a ≤ b ∧ b < a + w
  · rw [if_pos hc, if_pos (by omega)]
    congr 3
    omega
  · rw [if_neg hc, if_neg (by omega), h]

theorem loadN_storeN_of_disjoint (h : a + w ≤ b ∨ b + n ≤ a) : loadN (storeN mem b n v) a w = loadN mem a w := by
  apply loadN_congr
  intro x h1 h2
  apply storeN_of_not
  omega

theorem loadN_eq_zero (h : ∀ x, a ≤ x → x < a + w → mem x = 0) : loadN mem a w = 0 := by
  induction w generalizing a with
  | zero => rfl
  | succ w ih =>
    rw [loadN, h a (le_refl a) (by omega), ih fun x h1 h2 => h x (by omega) (by omega)]
    rfl

theorem loadN_storeN_self (hv : v < 256 ^ w) : loadN (storeN mem a w v) a w = v := by
  induction w generalizing a v mem with
  | zero =>
    rw [pow_zero] at hv
    rw [loadN]
    omega
  | succ w ih =>
    -- behind the first byte stands the number v / 256
    have htail : loadN (storeN mem a (w + 1) v) (a + 1) w = loadN (storeN mem (a + 1) w (v / 256)) (a + 1) w := by
      apply loadN_congr
      intro b h1 h2
      rw [storeN, storeN, if_pos (by omega), if_pos (by omega)]
      congr 1
      rw [Nat.div_div_eq_div_mul, ← pow_succ']
      congr 2
      omega
    have hhead : (storeN mem a (w + 1) v a).toNat = v % 256 := by
      rw [storeN, if_pos (by omega), Nat.sub_self, pow_zero, Nat.div_one, UInt8.toNat_ofNat']
    have hdiv : v / 256 < 256 ^ w := by
      rw [pow_succ] at hv
      exact Nat.div_lt_of_lt_mul (by rwa [Nat.mul_comm])
    rw [loadN, htail, ih hdiv, hhead]
    omega

end RiscvPke.Bytes
