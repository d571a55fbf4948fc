/-
The buffers behind the pipelines of the shell, one structure for each hart: `struct io_pipline_t` and `pipline_num`, and
what `sys_user_pipline_write`, `sys_user_pipline_read`, `sys_user_pipline_reset`, `sys_user_print` and `sys_user_scanf`
(kernel/syscall.c) make of them. `Syscall.Model` adds the accesses to user memory, `Shell.PipeIndices` the indices that
are used, `Shell.Pipeline` the stages that print and scan.
-/
import RiscvPke.Kernel.Basic

namespace RiscvPke

abbrev IO_PIPELINE_BUF_SIZE : ℕ := 256

def int32 (v : ℤ) : ℤ := v.bmod (2 ^ 32)

/-- the byte `k` of an `int`, lowest first -/
def intByte (v : ℤ) (k : ℕ) : UInt8 := UInt8.ofNat ((v % 2 ^ 32).toNat / 256 ^ k)

/-- a zero, newline, blank, carriage return or tab: where a scan stops -/
def isBlank (c : UInt8) : Bool := c == 0 || c == 10 || c == 32 || c == 13 || c == 9

def strlen (f : ℕ → UInt8) : (fuel i : ℕ) → Res ℕ
  | 0, _ => .error .endlessLoop
  | fuel + 1, i => if f i = 0 then .ok 0 else (· + 1) <$> strlen f fuel (i + 1)

/-- `struct io_pipline_t` of a hart, with its `pipline_num` -/
structure IoPipline where
  stdin_close : Bool
  stdout_close : Bool
  /-- `buf[0]` and `buf[1]`, one after the other, and at its place what lies behind the structure -/
  buf : ℕ → UInt8
  buf_len : ℤ
  buf_pos : ℤ
  pipline_num : Fin 2

namespace IoPipline

/-- a global of the kernel that nothing has been written to -/
def zeroed : IoPipline := ⟨false, false, fun _ => 0, 0, 0, 0⟩

variable (s : IoPipline)

/-- the buffer that `sys_user_scanf` reads -/
abbrev other : Fin 2 := s.pipline_num + 1

/-- the bytes of the structure from `buf` on -/
def byte (i : ℕ) : UInt8 :=
  if i < 2 * IO_PIPELINE_BUF_SIZE then s.buf i
  else if i < 2 * IO_PIPELINE_BUF_SIZE + 4 then intByte s.buf_len (i - 2 * IO_PIPELINE_BUF_SIZE)
  else if i < 2 * IO_PIPELINE_BUF_SIZE + 8 then intByte s.buf_pos (i - (2 * IO_PIPELINE_BUF_SIZE + 4))
  else s.buf i

def row (n : Fin 2) : ℕ := IO_PIPELINE_BUF_SIZE * n

theorem row_le (n : Fin 2) : row n ≤ IO_PIPELINE_BUF_SIZE := by
  have := n.isLt
  simp only [row, IO_PIPELINE_BUF_SIZE]
  omega

def sysUserPiplineWrite : IoPipline := { s with stdin_close := true }

def sysUserPiplineRead : IoPipline := { s with stdout_close := true, pipline_num := s.pipline_num + 1 }

def sysUserPiplineReset : IoPipline :=
  { s with
    stdin_close := false
    stdout_close := false
    buf := fun i => if i < IO_PIPELINE_BUF_SIZE then 0 else s.buf i
    buf_len := 0
    buf_pos := 0 }

/-! ## sys_user_print, where it goes to the buffer -/

def totalLen (n : ℕ) : ℤ := min (int32 (s.buf_len + n)) IO_PIPELINE_BUF_SIZE

/-- The bytes that `memcpy` moves to the buffer. A negative length is a `size_t` that takes the end of the destination
before its start, and no byte is moved. -/
def moved (n : ℕ) : ℕ := (s.totalLen n - s.buf_len).toNat

/-- the pipe after a print of `n` bytes from `pa` on -/
def printed (n : ℕ) (pa : ℕ → UInt8) : IoPipline :=
  { s with
    buf := fun i =>
      if row s.pipline_num + s.buf_len ≤ i ∧ i < row s.pipline_num + s.buf_len + s.moved n then
        pa (i - (row s.pipline_num + s.buf_len)).toNat
      else s.buf i
    buf_len := s.totalLen n }

/-! ## sys_user_scanf, where it comes from the buffer -/

/-- the byte `j` of what lies ahead in the buffer that is read -/
def ahead (j : ℕ) : UInt8 := s.byte (row (s.pipline_num + 1) + s.buf_pos.toNat + j)

/-- how many bytes the loop looks at, at most -/
def left : ℕ := (s.buf_len - s.buf_pos).toNat

def word : List UInt8 := ((List.range s.left).map s.ahead).takeWhile fun c => !isBlank c

/-- behind the string that was read; an empty buffer is reset -/
def advance (n : ℕ) : IoPipline :=
  let buf_pos := int32 (s.buf_pos + n + 1)
  if s.buf_len ≤ buf_pos then { s with stdin_close := false, stdout_close := false, buf_len := 0, buf_pos := 0 }
  else { s with buf_pos := buf_pos }

/-- the string and the pipe behind it; `strlen` meets a zero before it has gone through the 2^64 addresses or never -/
def scanned : Res (List UInt8 × IoPipline) := do
  let n ← strlen s.ahead (2 ^ 64) 0
  return (s.word, s.advance n)

end IoPipline

variable {f : ℕ → UInt8} {fuel i n : ℕ}

theorem strlen_ok : strlen f fuel i = .ok n ↔ n < fuel ∧ f (i + n) = 0 ∧ ∀ j < n, f (i + j) ≠ 0 := by
  induction fuel generalizing i n with
  | zero => simp [strlen]
  | succ fuel ih =>
    unfold strlen
    split_ifs with h0
    · constructor
      · intro h
        cases h
        exact ⟨Nat.succ_pos fuel, h0, fun j hj => absurd hj (Nat.not_lt_zero j)⟩
      · rintro ⟨-, -, hall⟩
        cases n with
        | zero => rfl
        | succ n => exact absurd h0 (hall 0 (Nat.succ_pos n))
    · cases n with
      | zero =>
        refine iff_of_false (fun h => ?_) fun h => h0 h.2.1
        cases hs : strlen f fuel (i + 1) with
        | error e => simp [hs] at h
        | ok m => simp [hs] at h
      | succ n =>
        have hstep : (· + 1) <$> strlen f fuel (i + 1) = (.ok (n + 1) : Res ℕ) ↔ strlen f fuel (i + 1) = .ok n := by
          cases strlen f fuel (i + 1) with
          | error e => simp
          | ok m => simp
        have hshift : ∀ j, i + 1 + j = i + (j + 1) := fun j => by omega
        rw [hstep, ih, hshift, Nat.succ_lt_succ_iff]
        refine and_congr_right fun _ => and_congr_right fun _ => ⟨fun h j hj => ?_, fun h j hj => ?_⟩
        · cases j with
          | zero => exact h0
          | succ j => exact hshift j ▸ h j (by omega)
        · rw [hshift]
          exact h (j + 1) (by omega)

theorem strlen_exists (hn : n < fuel) (h0 : f (i + n) = 0) : ∃ m ≤ n, strlen f fuel i = .ok m := by
  have hex : ∃ m, f (i + m) = 0 := ⟨n, h0⟩
  refine ⟨Nat.find hex, Nat.find_min' hex h0, strlen_ok.2 ⟨?_, Nat.find_spec hex, fun j hj => Nat.find_min hex hj⟩⟩
  exact (Nat.find_min' hex h0).trans_lt hn

end RiscvPke
