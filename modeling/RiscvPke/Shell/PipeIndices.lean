/-
The indices into the pipe buffers (kernel/syscall.c), over the model of `Kernel.IoPipline`. The `n` of a print is any
64-bit number. A call that uses an index into `buf[0]` or `buf[1]` which is not below `IO_PIPELINE_BUF_SIZE` ends there.
-/
import RiscvPke.Kernel.IoPipline
import RiscvPke.Core.System

namespace RiscvPke.PipeIndices

open RiscvPke.System IoPipline

/-! ## The model -/

inductive Fault where
  | outOfRange
deriving DecidableEq

inductive Op where
  | pipline_write
  | pipline_read
  | pipline_reset
  /-- the length, and the bytes at the address -/
  | print (n : UInt64) (pa : ℕ → UInt8)
  | scanf

def Inside (i : ℤ) (size : ℕ) : Prop := size = 0 ∨ 0 ≤ i ∧ i + size ≤ IO_PIPELINE_BUF_SIZE

instance (i : ℤ) (size : ℕ) : Decidable (Inside i size) := inferInstanceAs (Decidable (_ ∨ _))

def sysUserPrint (n : UInt64) (pa : ℕ → UInt8) (s : IoPipline) : Except Fault IoPipline :=
  if s.stdin_close then
    if Inside s.buf_len (s.moved n.toNat) then .ok (s.printed n.toNat pa) else .error .outOfRange
  else .ok s

def sysUserScanf (s : IoPipline) : Except Fault IoPipline :=
  if s.stdout_close then
    match strlen s.ahead (2 ^ 64) 0 with
    | .ok n =>
      if Inside s.buf_pos (min (s.word.length + 1) s.left) ∧ Inside s.buf_pos (n + 1) then .ok (s.advance n)
      else .error .outOfRange
    | .error _ => .error .outOfRange
  else .ok s

def step (s : IoPipline) : Op → Except Fault IoPipline
  | .pipline_write => .ok s.sysUserPiplineWrite
  | .pipline_read => .ok s.sysUserPiplineRead
  | .pipline_reset => .ok s.sysUserPiplineReset
  | .print n pa => sysUserPrint n pa s
  | .scanf => sysUserScanf s

def boot : IoPipline := .zeroed

/-! ## Indices -/

variable {s s' : IoPipline} {n : ℕ}

def Terminated (s : IoPipline) : Prop :=
  ∃ i < IO_PIPELINE_BUF_SIZE, s.buf_pos ≤ i ∧ s.buf (row s.other + i) = 0

/-- a printed length does not make the `int` negative, and the scanned buffer has a terminator -/
def Bounded (s : IoPipline) : Op → Prop
  | .print n _ => s.stdin_close = true → (s.buf_len + n.toNat) % 2 ^ 32 < 2 ^ 31
  | .scanf => s.stdout_close = true → Terminated s
  | _ => True

structure InRange (s : IoPipline) : Prop where
  pos : 0 ≤ s.buf_pos
  len : 0 ≤ s.buf_len
  full : s.buf_len ≤ IO_PIPELINE_BUF_SIZE

theorem inRange_empty (hl : s.buf_len = 0) (hp : s.buf_pos = 0) : InRange s :=
  ⟨hp.ge, hl.ge, hl.le.trans (Int.natCast_nonneg _)⟩

theorem print_inside (h : InRange s) (n : ℕ) : Inside s.buf_len (s.moved n) := by
  have hle : s.totalLen n ≤ IO_PIPELINE_BUF_SIZE := min_le_right _ _
  have hlen := h.len
  unfold Inside moved
  omega

theorem totalLen_nonneg : 0 ≤ s.totalLen n ↔ (s.buf_len + n) % 2 ^ 32 < 2 ^ 31 := by
  unfold totalLen int32 IO_PIPELINE_BUF_SIZE
  rw [le_min_iff, Int.bmod_def]
  split_ifs <;> omega

section scan

variable (h : InRange s)

include h

theorem ahead_eq (hn : s.buf_pos + n < IO_PIPELINE_BUF_SIZE) :
    s.ahead n = s.buf (row (s.pipline_num + 1) + (s.buf_pos + n).toNat) := by
  have hpos := h.pos
  have hplace : row (s.pipline_num + 1) + s.buf_pos.toNat + n = row (s.pipline_num + 1) + (s.buf_pos + n).toNat := by
    omega
  have hrow := row_le (s.pipline_num + 1)
  rw [ahead, hplace, byte, if_pos (by omega)]

theorem scan_inside : Inside s.buf_pos (min (s.word.length + 1) s.left) := by
  obtain ⟨hpos, hlen, hfull⟩ := h
  unfold Inside left
  omega

theorem strlen_inside : (∃ n, strlen s.ahead (2 ^ 64) 0 = .ok n ∧ Inside s.buf_pos (n + 1)) ↔ Terminated s := by
  have hpos := h.pos
  constructor
  · rintro ⟨n, hn, hin⟩
    obtain ⟨-, hle⟩ := hin.resolve_left (Nat.succ_ne_zero n)
    have hzero := (strlen_ok.1 hn).2.1
    rw [Nat.zero_add, ahead_eq h (by omega)] at hzero
    exact ⟨(s.buf_pos + n).toNat, by omega, by omega, hzero⟩
  · rintro ⟨i, hi, hle, hzero⟩
    obtain ⟨d, hd⟩ : ∃ d : ℕ, (i : ℤ) = s.buf_pos + d := ⟨(i - s.buf_pos).toNat, by omega⟩
    have hahead : s.ahead (0 + d) = 0 := by
      rw [Nat.zero_add, ahead_eq h (by omega), ← hd]
      exact hzero
    have hfuel : d < 2 ^ 64 := by
      simp only [IO_PIPELINE_BUF_SIZE] at hi
      omega
    obtain ⟨m, hm, hs⟩ := strlen_exists hfuel hahead
    exact ⟨m, hs, .inr ⟨hpos, by omega⟩⟩

theorem advance_inRange (hin : Inside s.buf_pos (n + 1)) : InRange (s.advance n) := by
  obtain ⟨hpos, hlen, hfull⟩ := h
  obtain ⟨-, hle⟩ := hin.resolve_left (Nat.succ_ne_zero n)
  have hint : int32 (s.buf_pos + n + 1) = s.buf_pos + n + 1 := by
    simp only [IO_PIPELINE_BUF_SIZE] at hle
    unfold int32
    rw [Int.bmod_eq_of_le] <;> omega
  simp only [advance, hint]
  split_ifs
  · exact inRange_empty rfl rfl
  · exact ⟨by dsimp only; omega, hlen, hfull⟩

/-- **One call.** It uses no index outside of the buffers and leaves length and position in range exactly if it meets
the condition. -/
theorem step_spec (op : Op) : (∃ s', step s op = .ok s' ∧ InRange s') ↔ Bounded s op := by
  cases op with
  | pipline_write => exact iff_of_true ⟨_, rfl, h.pos, h.len, h.full⟩ trivial
  | pipline_read => exact iff_of_true ⟨_, rfl, h.pos, h.len, h.full⟩ trivial
  | pipline_reset => exact iff_of_true ⟨_, rfl, inRange_empty rfl rfl⟩ trivial
  | print n pa =>
    simp only [PipeIndices.step, sysUserPrint, Bounded, if_pos (print_inside h n.toNat)]
    by_cases hc : s.stdin_close = true
    · rw [if_pos hc, ← totalLen_nonneg]
      constructor
      · rintro ⟨s', he, hr⟩ -
        cases he
        exact hr.len
      · intro hn
        exact ⟨_, rfl, h.pos, hn hc, min_le_right _ _⟩
    · rw [if_neg hc]
      exact iff_of_true ⟨s, rfl, h⟩ fun hn => absurd hn hc
  | scanf =>
    simp only [PipeIndices.step, sysUserScanf, Bounded]
    by_cases hc : s.stdout_close = true
    · rw [if_pos hc, ← strlen_inside h]
      cases hs : strlen s.ahead (2 ^ 64) 0 with
      | error e =>
        refine iff_of_false (fun ⟨s', he, _⟩ => by cases he) fun hn => ?_
        obtain ⟨n, hn, -⟩ := hn hc
        cases hn
      | ok n =>
        dsimp only
        by_cases hin : Inside s.buf_pos (n + 1)
        · exact iff_of_true ⟨_, if_pos ⟨scan_inside h, hin⟩, advance_inRange h hin⟩ fun _ => ⟨n, rfl, hin⟩
        · rw [if_neg fun hb => hin hb.2]
          refine iff_of_false (fun ⟨s', he, _⟩ => ?_) fun hn => ?_
          · cases he
          · obtain ⟨m, hm, hb⟩ := hn hc
            cases hm
            exact hin hb
    · rw [if_neg hc]
      exact iff_of_true ⟨s, rfl, h⟩ fun hn => absurd hn hc

end scan

/-- **Pipe indices.** In every run from boot in which no printed length makes `total_len` negative and every scanned
buffer has a terminator: position and length are in range. The next call uses no index outside of the buffers and keeps
them in range if and only if it meets the same condition. -/
theorem pipe_indices (h : Reach step Bounded (· = boot) s) :
    InRange s ∧ ∀ op, (∃ s', step s op = .ok s' ∧ InRange s') ↔ Bounded s op := by
  have hin : InRange s := by
    refine h.inv (fun s hs => hs ▸ inRange_empty rfl rfl) fun s op s' hin hop hs => ?_
    obtain ⟨s1, hs1, hin1⟩ := (step_spec hin op).2 hop
    cases hs.symm.trans hs1
    exact hin1
  exact ⟨hin, step_spec hin⟩

instance (s : IoPipline) : Decidable (Terminated s) := inferInstanceAs (Decidable (∃ i < _, _))

instance (s : IoPipline) (op : Op) : Decidable (Bounded s op) := by
  cases op <;> unfold Bounded <;> infer_instance

def firstScanned : IoPipline :=
  exec step boot [.pipline_write, .print 4 fun i => if i % 2 = 0 then 97 else 0, .pipline_read, .scanf]

theorem pipe_indices_firstScanned : firstScanned.buf_pos = 2 ∧ firstScanned.buf_len = 4 ∧ InRange firstScanned :=
  ⟨by decide +kernel, by decide +kernel, (pipe_indices (reach_decide _ boot (.init rfl) (by decide +kernel))).1⟩

def fullBuffer : IoPipline := exec step boot [.pipline_write, .print 256 fun _ => 97, .pipline_read]

def emptyBuffer : IoPipline := exec step boot [.pipline_write]

/-- A scan of the full buffer runs out of it, and a print of 2^31 bytes leaves a negative length. -/
theorem full_buffer_scanned :
    (Reach step Bounded (· = boot) fullBuffer ∧
      (step fullBuffer .scanf).map (·.buf_pos) = .error .outOfRange) ∧
    Reach step Bounded (· = boot) emptyBuffer ∧
      (step emptyBuffer (.print 0x80000000 fun _ => 97)).map (·.buf_len) = .ok (-2 ^ 31) :=
  ⟨⟨reach_decide _ boot (.init rfl) (by decide +kernel), by decide +kernel⟩,
    reach_decide _ boot (.init rfl) (by decide +kernel), by decide +kernel⟩

end RiscvPke.PipeIndices
