/-
What the modelled parts of the kernel share: the configuration constants (kernel/config.h, kernel/process.h,
kernel/riscv.h, kernel/memlayout.h), the process states, and the ways in which the kernel stops.
-/
import Mathlib.Tactic

namespace RiscvPke

/-! ## kernel/config.h, kernel/process.h, kernel/riscv.h, kernel/memlayout.h -/

abbrev NCPU : ℕ := 4
abbrev NPROC : ℕ := 32
abbrev NSEMAPHORE : ℕ := 16
abbrev PGSIZE : ℕ := 4096
abbrev MAX_PAGES : ℕ := 0x10000
abbrev MAXVA : ℕ := 2 ^ 38
abbrev USER_STACK_TOP : ℕ := 0x7ffff000
abbrev USER_FREE_ADDRESS_START : ℕ := PGSIZE * 1024

abbrev Hart := Fin NCPU
/-- an index into `procs[NPROC]`; `procs[i].pid` is `i` for ever, so a slot is also a pid -/
abbrev Slot := Fin NPROC

instance : NeZero NCPU := ⟨by decide⟩

instance : NeZero NPROC := ⟨by decide⟩

/-- `enum proc_status` -/
inductive Status where
  | free
  | ready
  | running
  | blocked
  | zombie
deriving DecidableEq, Repr

/-! ## Stops -/

inductive Stop where
  | panic (msg : String)
  | assertion (cond : String)
  | nullPointer
  | outOfBounds
  | endlessLoop
  | disabled
  | unmodelled
deriving DecidableEq, Repr

abbrev Res := Except Stop

end RiscvPke
