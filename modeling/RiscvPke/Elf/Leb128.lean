/-
The variable-length numbers of the debug information (kernel/elf.c): `read_uleb128` and `read_sleb128`.
-/
import Mathlib.Tactic

namespace RiscvPke.Elf

/-! ## kernel/elf.c -/

/-- the loop of `read_uleb128` and `read_sleb128`: the value, the shift, the last byte and `*off`, for bytes that end -/
def readLeb128 (value : BitVec 64) (shift : ℕ) : List UInt8 → Option (BitVec 64 × ℕ × UInt8 × List UInt8)
  | [] => none
  | b :: off =>
    let value := value ||| ((b.toBitVec.setWidth 64 &&& 0x7F) <<< shift)
    if b &&& 0x80 = 0 then some (value, shift + 7, b, off) else readLeb128 value (shift + 7) off

def readUleb128 (off : List UInt8) : Option (BitVec 64 × List UInt8) :=
  (readLeb128 0#64 0 off).map fun (value, _, _, off) => (value, off)

/-- `1 << shift` of an `int`: `sllw` takes the shift modulo 32 -/
def intBit (shift : ℕ) : BitVec 32 := 1 <<< (shift % 32)

def readSleb128 (off : List UInt8) : Option (BitVec 64 × List UInt8) :=
  (readLeb128 0#64 0 off).map fun (value, shift, b, off) =>
    (if shift < 64 ∧ b &&& 0x40 ≠ 0 then value ||| (-intBit shift).signExtend 64 else value, off)

/-! ## The encodings -/

/-- seven bits for each byte, from the lowest on; all bytes but the last have the bit 0x80 -/
def uleb128 (n : ℕ) : List UInt8 :=
  if n < 128 then [UInt8.ofNat n] else UInt8.ofNat (n % 128 + 128) :: uleb128 (n / 128)

/-- the last byte has the sign in its bit 0x40 -/
def sleb128 (v : ℤ) : List UInt8 :=
  if -64 ≤ v ∧ v < 64 then [UInt8.ofNat (v % 128).toNat] else UInt8.ofNat ((v % 128).toNat + 128) :: sleb128 (v / 128)
termination_by v.natAbs
decreasing_by omega

/-! ## Reading them -/

theorem byte_last : ∀ d < 128, (UInt8.ofNat d).toBitVec.setWidth 64 &&& 0x7F = BitVec.ofNat 64 d ∧
    UInt8.ofNat d &&& 0x80 = 0 ∧
    (UInt8.ofNat d &&& 0x40 ≠ 0 ↔ 64 ≤ d) := by
  decide +kernel

theorem byte_more : ∀ d < 128, (UInt8.ofNat (d + 128)).toBitVec.setWidth 64 &&& 0x7F = BitVec.ofNat 64 d ∧
    UInt8.ofNat (d + 128) &&& 0x80 ≠ 0 := by
  decide +kernel

theorem or_digit {d m shift : ℕ} {value : BitVec 64} (hd : d < 128) :
    (value ||| BitVec.ofNat 64 d <<< shift) ||| BitVec.ofNat 64 m <<< (shift + 7) =
      value ||| BitVec.ofNat 64 (d + 128 * m) <<< shift := by
  have hor : d + 128 * m = d ||| m <<< 7 := by
    rw [Nat.or_comm, ← Nat.shiftLeft_add_eq_or_of_lt hd, Nat.shiftLeft_eq]
    omega
  have hshift : BitVec.ofNat 64 (m <<< 7) = BitVec.ofNat 64 m <<< 7 := by
    apply BitVec.eq_of_toNat_eq
    simp [Nat.shiftLeft_eq]
  rw [hor, BitVec.ofNat_or, hshift, BitVec.shiftLeft_or_distrib, ← BitVec.shiftLeft_add, Nat.add_comm 7,
    BitVec.or_assoc]

theorem readLeb128_uleb128 (value : BitVec 64) (shift n : ℕ) (rest : List UInt8) : ∃ shift' b,
    readLeb128 value shift (uleb128 n ++ rest) = some (value ||| BitVec.ofNat 64 n <<< shift, shift', b, rest) := by
  induction n using Nat.strong_induction_on generalizing value shift with
  | _ n ih =>
    rw [uleb128]
    split
    case isTrue h =>
      obtain ⟨hlow, hlast, -⟩ := byte_last n h
      exact ⟨shift + 7, _, by rw [List.singleton_append, readLeb128, if_pos hlast, hlow]⟩
    case isFalse h =>
      obtain ⟨hlow, hmore⟩ := byte_more (n % 128) (Nat.mod_lt _ (by decide))
      obtain ⟨shift', b, hrest⟩ := ih (n / 128) (by omega) (value ||| BitVec.ofNat 64 (n % 128) <<< shift) (shift + 7)
      refine ⟨shift', b, ?_⟩
      rw [List.cons_append, readLeb128, if_neg hmore, hlow, hrest, or_digit (Nat.mod_lt _ (by decide)), Nat.mod_add_div]

theorem readLeb128_sleb128 (value : BitVec 64) (shift : ℕ) (v : ℤ) (rest : List UInt8) : ∃ (k m : ℕ) (b : UInt8),
    -(64 * 128 ^ k : ℤ) ≤ v ∧ v < 64 * 128 ^ k ∧ (∀ j < k, v < -(64 * 128 ^ j : ℤ) ∨ 64 * 128 ^ j ≤ v) ∧
      (b &&& 0x40 ≠ 0 ↔ v < 0) ∧
    (m : ℤ) = (if v < 0 then v + 128 ^ (k + 1) else v) ∧
    readLeb128 value shift (sleb128 v ++ rest) = some (value ||| BitVec.ofNat 64 m <<< shift,
      shift + 7 * (k + 1), b, rest) := by
  induction hn : v.natAbs using Nat.strong_induction_on generalizing value shift v with
  | _ n ih =>
    rw [sleb128]
    by_cases h : -64 ≤ v ∧ v < 64
    · rw [if_pos h]
      obtain ⟨hlow, hlast, hsign⟩ := byte_last (v % 128).toNat (by omega)
      refine ⟨0, (v % 128).toNat, _, by omega, by omega, fun j hj => absurd hj (Nat.not_lt_zero j),
        hsign.trans (by omega), ?_, ?_⟩
      · split <;> omega
      · rw [List.singleton_append, readLeb128, if_pos hlast, hlow]
    · rw [if_neg h]
      obtain ⟨hlow, hmore⟩ := byte_more (v % 128).toNat (by omega)
      obtain ⟨k, m, b, hlo, hhi, hleast, hsign, hm, hrest⟩ := ih (v / 128).natAbs (by omega)
        (value ||| BitVec.ofNat 64 (v % 128).toNat <<< shift) (shift + 7) (v / 128) rfl
      refine ⟨k + 1, (v % 128).toNat + 128 * m, b, by rw [pow_succ]; omega, by rw [pow_succ]; omega, ?_,
        hsign.trans (by omega), ?_, ?_⟩
      · intro j hj
        cases j with
        | zero => omega
        | succ j =>
          have := hleast j (by omega)
          rw [pow_succ]
          omega
      · rw [pow_succ]
        split at hm <;> split <;> omega
      · have hshift : shift + 7 + 7 * (k + 1) = shift + 7 * (k + 1 + 1) := by omega
        rw [List.cons_append, readLeb128, if_neg hmore, hlow, hrest, or_digit (by omega), hshift]

theorem or_neg_two_pow {m j : ℕ} {x : BitVec 64} (hx : x = BitVec.ofInt 64 (-2 ^ j))
    (hnot : ~~~x = BitVec.ofNat 64 (2 ^ j - 1)) :
    BitVec.ofNat 64 m ||| x = BitVec.ofInt 64 ((m % 2 ^ j : ℕ) - 2 ^ j) := by
  have hlow : BitVec.ofNat 64 m &&& ~~~x = BitVec.ofNat 64 (m % 2 ^ j) := by
    rw [hnot, ← BitVec.ofNat_and, Nat.and_two_pow_sub_one_eq_mod]
  have hor : BitVec.ofNat 64 m ||| x = (BitVec.ofNat 64 m &&& ~~~x) ||| x ∧ (BitVec.ofNat 64 m &&& ~~~x) &&& x = 0 := by
    constructor
    · ext i hi
      cases h : x[i] <;> simp [h]
    · ext i hi
      simp
  rw [hor.1, ← BitVec.add_eq_or_of_and_eq_zero _ _ hor.2, hlow, hx, sub_eq_add_neg, BitVec.ofInt_add]
  rfl

theorem signExtend_intBit : ∀ k < 9, (-intBit (7 * (k + 1))).signExtend 64 = BitVec.ofInt 64 (-2 ^ (7 * (k + 1) % 32)) ∧
    ~~~(-intBit (7 * (k + 1))).signExtend 64 = BitVec.ofNat 64 (2 ^ (7 * (k + 1) % 32) - 1) := by
  decide

/-- **LEB128.** An unsigned number is read back from its encoding, and a signed number if and only if it is above -2^27
or takes ten bytes: the sign of five to nine bytes is shifted in an `int`. -/
theorem leb128_inverse (v : BitVec 64) (rest : List UInt8) :
    readUleb128 (uleb128 v.toNat ++ rest) = some (v, rest) ∧
      (readSleb128 (sleb128 v.toInt ++ rest) = some (v, rest) ↔ -2 ^ 27 ≤ v.toInt ∨ v.toInt < -2 ^ 62) := by
  constructor
  · obtain ⟨shift, b, hread⟩ := readLeb128_uleb128 0#64 0 v.toNat rest
    unfold readUleb128
    rw [hread]
    simp
  · obtain ⟨k, m, b, hlo, hhi, hleast, hsign, hm, hread⟩ := readLeb128_sleb128 0#64 0 v.toInt rest
    have hmin := BitVec.le_toInt v
    have hmax := BitVec.toInt_lt (x := v)
    have hk : k ≤ 9 := by
      by_contra hk
      have := hleast 9 (by omega)
      omega
    unfold readSleb128
    rw [hread]
    simp only [Option.map_some, Nat.zero_add, hsign, BitVec.zero_or, BitVec.shiftLeft_zero, Option.some.injEq,
      Prod.mk.injEq, and_true]
    by_cases hneg : 7 * (k + 1) < 64 ∧ v.toInt < 0
    · -- the bits from `7 (k + 1)` modulo 32 on are set
      obtain ⟨hx, hnot⟩ := signExtend_intBit k (by omega)
      have hpow : (2 : ℤ) ^ (7 * (k + 1) % 32) ≤ 2 ^ 31 := pow_le_pow_right₀ (by decide) (by omega)
      have hpos : (0 : ℤ) < 2 ^ (7 * (k + 1) % 32) := by positivity
      have hmod : m % 2 ^ (7 * (k + 1) % 32) < 2 ^ (7 * (k + 1) % 32) := Nat.mod_lt _ (by positivity)
      zify at hmod
      rw [if_pos hneg, or_neg_two_pow hx hnot, ← BitVec.toInt_inj, BitVec.toInt_ofInt,
        Int.bmod_eq_of_le (by push_cast; omega) (by push_cast; omega)]
      rw [if_pos hneg.2] at hm
      have hprev : k = 0 ∨ v.toInt < -(64 * 128 ^ (k - 1) : ℤ) := by
        rcases Nat.eq_zero_or_pos k with h0 | h0
        · exact .inl h0
        · refine .inr ((hleast (k - 1) (by omega)).resolve_right fun hge => ?_)
          have : (0 : ℤ) < 128 ^ (k - 1) := by positivity
          omega
      have hk : k < 9 := by omega
      interval_cases k <;> norm_num at hm hprev ⊢ <;> omega
    · rw [if_neg hneg, ← BitVec.ofInt_natCast, hm]
      by_cases h0 : v.toInt < 0
      · -- ten bytes, of 70 bits
        obtain rfl : k = 9 := by omega
        have hlow := hleast 8 (by decide)
        rw [if_pos h0, BitVec.ofInt_add, BitVec.ofInt_toInt, show BitVec.ofInt 64 (128 ^ (9 + 1)) = 0#64 by decide,
          BitVec.add_zero]
        exact iff_of_true rfl (by omega)
      · rw [if_neg h0, BitVec.ofInt_toInt]
        exact iff_of_true rfl (by omega)

/-- five bytes -/
theorem sleb128_lost : sleb128 (-2 ^ 27 - 1) = [0xFF, 0xFF, 0xFF, 0xBF, 0x7F] ∧
    readSleb128 [0xFF, 0xFF, 0xFF, 0xBF, 0x7F] = some (BitVec.ofInt 64 (-1), []) := by
  constructor
  · simp [sleb128]
  · decide

end RiscvPke.Elf
