/-
The physical page allocator, kernel/pmm.c, on the bytes of physical memory: the free list is threaded through the first
words of the free pages, and the reference counts stand in an array of their own. Addresses are physical addresses.
-/
import RiscvPke.Core.Bytes
import RiscvPke.Core.Segment
import RiscvPke.Core.Run
import RiscvPke.Kernel.Basic

namespace RiscvPke.Pmm

open Bytes

/-! ## kernel/memlayout.h, kernel/config.h, util/functions.h -/

abbrev DRAM_BASE : ℕ := 0x80000000
abbrev KERN_BASE : ℕ := 0x80000000
abbrev PKE_MAX_ALLOWABLE_RAM : ℕ := 128 * 1024 * 1024
abbrev PGSHIFT : ℕ := 12

def ROUNDUP (a b : ℕ) : ℕ := ((a - 1) / b + 1) * b

/-! ## State -/

structure St where
  mem : ℕ → UInt8
  page_ref_count : ℕ → ℤ
  free_mem_start_addr : ℕ
  free_mem_end_addr : ℕ
  /-- `g_free_mem_list.next` -/
  g_free_mem_list : ℕ

/-- how a run ends early: a stop of the kernel, or the overflow of an `int`, which C leaves undefined -/
inductive Fault where
  | stop (e : Stop)
  | overflow
deriving DecidableEq, Repr

abbrev M := StateT St (Except Fault)

/-! ## kernel/pmm.c -/

/-- the difference is an unsigned 64-bit number, the result an `int` -/
def getPageIndex (s : St) (pa : ℕ) : ℤ :=
  Int.bmod (((pa : ℤ) - s.free_mem_start_addr) % 2 ^ 64 / 2 ^ PGSHIFT) (2 ^ 32)

/-- the entry of `page_ref_count` for an address, if it has one -/
def indexOf (s : St) (pa : ℕ) : Option ℕ :=
  if 0 ≤ getPageIndex s pa ∧ getPageIndex s pa < MAX_PAGES then some (getPageIndex s pa).toNat else none

def setCount (i : ℕ) (c : ℤ) : M Unit :=
  modify fun s => { s with page_ref_count := Function.update s.page_ref_count i c }

def incPageRef (pa : ℕ) : M Unit := do
  let s ← get
  match indexOf s pa with
  | none => return ()
  | some i => if s.page_ref_count i = 2 ^ 31 - 1 then throw .overflow else setCount i (s.page_ref_count i + 1)

def decPageRef (pa : ℕ) : M Unit := do
  let s ← get
  match indexOf s pa with
  | none => return ()
  | some i => if 0 < s.page_ref_count i then setCount i (s.page_ref_count i - 1) else return ()

def getPageRef (s : St) (pa : ℕ) : ℤ :=
  match indexOf s pa with
  | none => 0
  | some i => s.page_ref_count i

/-- `n->next = g_free_mem_list.next; g_free_mem_list.next = n` -/
def pushFree (pa : ℕ) : M Unit :=
  modify fun s => { s with mem := storeN s.mem pa 8 s.g_free_mem_list, g_free_mem_list := pa }

def freePage (pa : ℕ) : M Unit := do
  let s ← get
  if pa % PGSIZE ≠ 0 ∨ pa < s.free_mem_start_addr ∨ s.free_mem_end_addr ≤ pa then
    throw (.stop (.panic "free_page 0x%lx \n"))
  else match indexOf s pa with
    | none => pushFree pa
    | some i =>
      if 1 < s.page_ref_count i then setCount i (s.page_ref_count i - 1)
      else do
        setCount i 0
        pushFree pa

/-- 0 if no page is free; the index of the page is not tested -/
def allocPage : M ℕ := do
  let s ← get
  let n := s.g_free_mem_list
  if n = 0 then return 0
  else do
    set { s with g_free_mem_list := loadN s.mem n 8 }
    match indexOf s n with
    | none => throw (.stop .outOfBounds)
    | some i =>
      setCount i 1
      return n

/-- the number of turns of the loop of `create_freepage_list`, which goes on while `p + PGSIZE < end` -/
def freepages (start stop : ℕ) : ℕ := (stop - ROUNDUP start PGSIZE - 1) / PGSIZE

/-- one turn of the loop; the entry that is cleared has the count of the page, not its number, for its index -/
def addFreepage (p : ℕ) : M Unit := do
  let i := getPageRef (← get) p
  if 0 ≤ i ∧ i < MAX_PAGES then do
    setCount i.toNat 0
    freePage p
  else throw (.stop .outOfBounds)

def createFreepageList (start stop : ℕ) : M Unit := do
  modify fun s => { s with g_free_mem_list := 0 }
  (List.range (freepages start stop)).forM fun k => addFreepage (ROUNDUP start PGSIZE + k * PGSIZE)

/-- `kernelEnd` is the address of `_end`, `memSize` what `g_mem_size` held before; the size of the kernel is an unsigned
difference -/
def pmmInit (kernelEnd memSize : ℕ) : M Unit := do
  let size := min PKE_MAX_ALLOWABLE_RAM memSize
  modify fun s => { s with free_mem_start_addr := ROUNDUP kernelEnd PGSIZE }
  if (size : ℤ) < ((kernelEnd : ℤ) - KERN_BASE) % 2 ^ 64 then
    throw (.stop (.panic "Error when recomputing physical memory size (g_mem_size).\n"))
  else do
    modify fun s => { s with free_mem_end_addr := size + DRAM_BASE }
    let s ← get
    createFreepageList s.free_mem_start_addr s.free_mem_end_addr

/-! ## The machine -/

inductive Op where
  | alloc
  | free (pa : ℕ)
  | inc (pa : ℕ)
  | dec (pa : ℕ)
deriving DecidableEq, Repr

def act : Op → M Unit
  | .alloc => do
    let _ ← allocPage
    return ()
  | .free pa => freePage pa
  | .inc pa => incPageRef pa
  | .dec pa => decPageRef pa

def step (s : St) (op : Op) : Except Fault St := (·.2) <$> act op s

/-- the pages that `create_freepage_list` puts into the list -/
def managed (s : St) : List ℕ :=
  (List.range (freepages s.free_mem_start_addr s.free_mem_end_addr)).map fun k => s.free_mem_start_addr + k * PGSIZE

/-- the calls that the users of the allocator may make: references to a page are taken and given up by those who hold
one, and the last one is given up by `free_page` -/
def Allowed (s : St) : Op → Prop
  | .alloc => True
  | .free pa => pa ∈ managed s ∧ 1 ≤ getPageRef s pa
  | .inc pa => pa ∈ managed s ∧ 1 ≤ getPageRef s pa
  | .dec pa => pa ∈ managed s ∧ 2 ≤ getPageRef s pa

instance (s : St) (op : Op) : Decidable (Allowed s op) :=
  match op with
  | .alloc => isTrue trivial
  | .free _ => inferInstanceAs (Decidable (_ ∧ _))
  | .inc _ => inferInstanceAs (Decidable (_ ∧ _))
  | .dec _ => inferInstanceAs (Decidable (_ ∧ _))

/-- the end of `pmm_init`; the counts were zero before, as static variables are -/
def Initialized (s : St) : Prop :=
  ∃ s0 kernelEnd memSize, (∀ i, s0.page_ref_count i = 0) ∧ kernelEnd < 2 ^ 64 ∧
    pmmInit kernelEnd memSize s0 = .ok ((), s)

/-! ## What a call does to memory -/

open Run

variable {s s' : St} {pa : ℕ}

theorem allocPage_mem {n : ℕ} (h : allocPage s = .ok (n, s')) : s'.mem = s.mem := by
  have h1 := of_get_bind h
  split at h1
  · cases h1
    rfl
  · obtain ⟨u, s3, hset, h2⟩ := run_bind.1 h1
    cases hset
    cases hi : indexOf s s.g_free_mem_list with
    | none =>
      simp only [hi] at h2
      cases h2
    | some i =>
      simp only [hi] at h2
      obtain ⟨v, s4, hcount, h3⟩ := run_bind.1 h2
      cases hcount
      cases h3
      rfl

theorem freePage_mem (h : freePage pa s = .ok ((), s')) :
    pa % PGSIZE = 0 ∧ ∀ x, x < pa ∨ pa + 8 ≤ x → s'.mem x = s.mem x := by
  have h1 := of_get_bind h
  split at h1
  · cases h1
  · rename_i hok
    push Not at hok
    refine ⟨hok.1, fun x hx => ?_⟩
    cases hi : indexOf s pa with
    | none =>
      simp only [hi] at h1
      cases h1
      exact storeN_of_not (by omega)
    | some i =>
      simp only [hi] at h1
      split at h1
      · cases h1
        rfl
      · obtain ⟨u, s3, hcount, h2⟩ := run_bind.1 h1
        cases hcount
        cases h2
        exact storeN_of_not (by omega)

end RiscvPke.Pmm
