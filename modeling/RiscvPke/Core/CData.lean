/-
C data in a buffer of bytes: `int`s of 32 bits in two's complement and strings that end at the first zero byte. What is
stored is loaded again, and a store changes no byte outside its place. `tokens` is what repeated calls of `strtok` with
the delimiter "/" give.
-/
import RiscvPke.Core.Bytes

namespace RiscvPke.CData

open Function Bytes

abbrev Buf := ℕ → UInt8

variable {b b' : Buf} {a a' k i : ℕ} {v : ℤ}

/-! ## int -/

def IsInt (v : ℤ) : Prop := -2147483648 ≤ v ∧ v < 2147483648

instance : DecidablePred IsInt := fun v => inferInstanceAs (Decidable (-2147483648 ≤ v ∧ v < 2147483648))

def loadInt (b : Buf) (a : ℕ) : ℤ := (loadN b a 4 : ℤ).bmod 4294967296

def storeInt (b : Buf) (a : ℕ) (v : ℤ) : Buf := storeN b a 4 (v % 4294967296).toNat

theorem loadInt_isInt : IsInt (loadInt b a) := by
  unfold loadInt IsInt
  rw [Int.bmod_def]
  split_ifs <;> omega

theorem loadInt_congr (h : ∀ i < 4, b' (a' + i) = b (a + i)) : loadInt b' a' = loadInt b a := by
  unfold loadInt
  rw [loadN_move h]

theorem storeInt_of_not (h : ¬ (a ≤ i ∧ i < a + 4)) : storeInt b a v i = b i := storeN_of_not h

theorem storeInt_congr (h : a ≤ i ∧ i < a + 4) : storeInt b a v i = storeInt b' a v i := by
  unfold storeInt storeN
  rw [if_pos h, if_pos h]

theorem loadInt_storeInt (h : IsInt v) : loadInt (storeInt b a v) a = v := by
  obtain ⟨h1, h2⟩ := h
  have hlt : (v % 4294967296).toNat < 256 ^ 4 := by omega
  unfold loadInt storeInt
  rw [loadN_storeN_self hlt, Int.toNat_of_nonneg (by omega), Int.bmod_def]
  split_ifs <;> omega

theorem loadInt_eq_zero (h : ∀ x, a ≤ x → x < a + 4 → b x = 0) : loadInt b a = 0 := by
  unfold loadInt
  simp only [loadN_eq_zero h, Nat.cast_zero, Int.zero_bmod]

attribute [irreducible] loadInt storeInt

def storeInts (b : Buf) (a : ℕ) : List ℤ → Buf
  | [] => b
  | v :: vs => storeInt (storeInts b (a + 4) vs) a v

theorem storeInts_of_not {l : List ℤ} (h : ¬ (a ≤ i ∧ i < a + 4 * l.length)) : storeInts b a l i = b i := by
  induction l generalizing a with
  | nil => rfl
  | cons v vs ih =>
    rw [List.length_cons] at h
    rw [storeInts, storeInt_of_not (by omega), ih (by omega)]

theorem storeInts_congr {l : List ℤ} (h : a ≤ i ∧ i < a + 4 * l.length) : storeInts b a l i = storeInts b' a l i := by
  induction l generalizing a with
  | nil => simp at h; omega
  | cons v vs ih =>
    rw [List.length_cons] at h
    rw [storeInts, storeInts]
    by_cases hi : i < a + 4
    · exact storeInt_congr ⟨h.1, hi⟩
    · rw [storeInt_of_not (by omega), storeInt_of_not (by omega), ih (by omega)]

theorem loadInt_storeInts {l : List ℤ} (hv : l[k]? = some v) (hi : IsInt v) :
    loadInt (storeInts b a l) (a + 4 * k) = v := by
  induction l generalizing a k with
  | nil => simp at hv
  | cons w ws ih =>
    cases k with
    | zero =>
      obtain rfl : w = v := by simpa using hv
      exact loadInt_storeInt hi
    | succ k =>
      have hrest : loadInt (storeInts b a (w :: ws)) (a + 4 * (k + 1)) = loadInt (storeInts b (a + 4) ws)
        (a + 4 + 4 * k) := by
        apply loadInt_congr
        intro i _
        rw [storeInts, storeInt_of_not (by omega)]
        congr 1
        omega
      rw [hrest]
      exact ih (by simpa using hv)

/-! ## Strings -/

abbrev CChar := { c : UInt8 // c ≠ 0 }

abbrev CString := List CChar

variable {s : CString}

def storeString (b : Buf) (a : ℕ) : CString → Buf
  | [] => update b a 0
  | c :: cs => update (storeString b (a + 1) cs) a c

def loadString (b : Buf) : (a k : ℕ) → CString
  | _, 0 => []
  | a, k + 1 => if h : b a = 0 then [] else ⟨b a, h⟩ :: loadString b (a + 1) k

def strEq (b : Buf) : ℕ → CString → Bool
  | a, [] => b a == 0
  | a, c :: cs => b a == c && strEq b (a + 1) cs

theorem storeString_of_not (h : ¬ (a ≤ i ∧ i ≤ a + s.length)) : storeString b a s i = b i := by
  induction s generalizing a with
  | nil =>
    exact update_of_ne (by omega) _ _
  | cons c cs ih =>
    rw [List.length_cons] at h
    rw [storeString, update_of_ne (by omega), ih (by omega)]

theorem loadString_congr (h : ∀ i < k, b' (a' + i) = b (a + i)) : loadString b' a' k = loadString b a k := by
  induction k generalizing a a' with
  | zero => rfl
  | succ k ih =>
    have h0 : b' a' = b a := h 0 (by omega)
    have hrest : loadString b' (a' + 1) k = loadString b (a + 1) k := by
      apply ih
      intro i hi
      have := h (i + 1) (by omega)
      rwa [Nat.add_comm i 1, ← Nat.add_assoc, ← Nat.add_assoc] at this
    simp only [loadString, h0, hrest]

theorem loadString_storeString (h : s.length < k) : loadString (storeString b a s) a k = s := by
  induction s generalizing a k with
  | nil =>
    obtain ⟨k, rfl⟩ : ∃ j, k = j + 1 := ⟨k - 1, by simp at h; omega⟩
    simp [loadString, storeString]
  | cons c cs ih =>
    obtain ⟨k, rfl⟩ : ∃ j, k = j + 1 := ⟨k - 1, by simp at h; omega⟩
    have hrest : loadString (storeString b a (c :: cs)) (a + 1) k = cs := by
      refine (loadString_congr fun i _ => ?_).trans (ih (a := a + 1) (by simpa using h))
      rw [storeString, update_of_ne (by omega)]
    have h0 : storeString b a (c :: cs) a = c := update_self _ _ _
    rw [loadString, dif_neg (by rw [h0]; exact c.2), hrest]
    congr 1
    exact Subtype.ext h0

theorem strEq_iff (h : (loadString b a k).length < k) : strEq b a s = true ↔ loadString b a k = s := by
  induction k generalizing a s with
  | zero => simp at h
  | succ k ih =>
    rw [loadString] at h ⊢
    by_cases h0 : b a = 0
    · rw [dif_pos h0]
      cases s with
      | nil => simp [strEq, h0]
      | cons c cs =>
        have hc : (0 : UInt8) ≠ c := fun he => c.2 he.symm
        simp [strEq, h0, hc]
    · rw [dif_neg h0] at h ⊢
      cases s with
      | nil => simp [strEq, h0]
      | cons c cs =>
        rw [strEq, Bool.and_eq_true, ih (by simpa using h), List.cons.injEq, beq_iff_eq, Subtype.ext_iff]

/-! ## Paths -/

def slash : CChar := ⟨47, by decide⟩

/-- the tokens of `strtok(path, "/")` -/
def tokens (path : CString) : List CString := (path.splitOn slash).filter (· ≠ [])

end RiscvPke.CData
