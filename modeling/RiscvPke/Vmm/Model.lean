/-
Page tables in memory: `page_walk`, `map_pages`, `lookup_pa`, `user_va_to_pa` and `user_vm_unmap` of kernel/vmm.c, with
the macros of kernel/riscv.h, on the bytes of physical memory and with the page allocator of kernel/pmm.c.
-/
import RiscvPke.Pmm.Model

namespace RiscvPke.Vmm

open Bytes

/-! ## kernel/riscv.h -/

abbrev PTE_V : ℕ := 1
abbrev PTE_R : ℕ := 2
abbrev PTE_W : ℕ := 4

def PA2PTE (pa : ℕ) : ℕ := (pa >>> 12) <<< 10

/-- the result is an unsigned 64-bit number -/
def PTE2PA (pte : ℕ) : ℕ := ((pte >>> 10) <<< 12) % 2 ^ 64

def PTE_FLAGS (pte : ℕ) : ℕ := pte &&& 0x3FF

def PXSHIFT (level : ℕ) : ℕ := 12 + 9 * level

def PX (level va : ℕ) : ℕ := (va >>> PXSHIFT level) &&& 0x1FF

abbrev Perm := Fin (2 ^ 10)

def ROUNDDOWN (a b : ℕ) : ℕ := a / b * b

/-! ## State -/

structure St where
  pmm : Pmm.St
  tables : List ℕ

abbrev M := StateT St (Except Pmm.Fault)

def lift {α : Type} (x : Pmm.M α) : M α := fun s => (x s.pmm).map fun r => (r.1, { s with pmm := r.2 })

def loadWord (s : St) (a : ℕ) : ℕ := loadN s.pmm.mem a 8

def setMem (f : (ℕ → UInt8) → ℕ → UInt8) : M Unit := modify fun s => { s with pmm := { s.pmm with mem := f s.pmm.mem } }

def storeWord (a v : ℕ) : M Unit := setMem fun mem => storeN mem a 8 v

def zeroPage (a : ℕ) : M Unit := setMem fun mem b => if a ≤ b ∧ b < a + PGSIZE then 0 else mem b

/-! ## kernel/vmm.c -/

/-- `alloc_page` for a table; 0 if there is no page -/
def allocTable : M ℕ := do
  let n ← lift Pmm.allocPage
  if n = 0 then return 0
  else do
    let s ← get
    if n % PGSIZE ≠ 0 ∨ 2 ^ 64 < n + PGSIZE ∨ n ∈ s.tables then throw (.stop .disabled)
    else do
      set { s with tables := n :: s.tables }
      return n

/-- the loop of `page_walk` from a table of the given level down -/
def walkLoop (va : ℕ) (alloc : Bool) : (level pt : ℕ) → M ℕ
  | 0, pt => return pt + 8 * PX 0 va
  | level + 1, pt => do
    let pte := pt + 8 * PX (level + 1) va
    let s ← get
    if loadWord s pte &&& PTE_V ≠ 0 then walkLoop va alloc level (PTE2PA (loadWord s pte))
    else if alloc then do
      let t ← allocTable
      if t = 0 then return 0
      else do
        zeroPage t
        storeWord pte (PA2PTE t ||| PTE_V)
        walkLoop va alloc level t
    else return 0

/-- the address of the entry for `va`, 0 if there is none -/
def pageWalk (pageDir va : ℕ) (alloc : Bool) : M ℕ :=
  if MAXVA ≤ va then throw (.stop (.panic "page_walk")) else walkLoop va alloc 2 pageDir

/-- at most `n` turns of the loop of `map_pages`; the number of pages mapped -/
def mapLoop (pageDir : ℕ) (perm : Perm) : (n first pa : ℕ) → M ℕ
  | 0, _, _ => return 0
  | n + 1, first, pa => do
    let pte ← pageWalk pageDir first true
    if pte = 0 then return 0
    else do
      let s ← get
      if loadWord s pte &&& PTE_V ≠ 0 then throw (.stop (.panic "map_pages fails on mapping va (0x%lx) to pa (0x%lx)"))
      else do
        storeWord pte (PA2PTE pa ||| perm ||| PTE_V)
        return (← mapLoop pageDir perm n (first + PGSIZE) ((pa + PGSIZE) % 2 ^ 64)) + 1

/-- the number of turns of the loop of `map_pages`; `va + size - 1` is an unsigned 64-bit number -/
def mapTurns (va size : ℕ) : ℕ :=
  let first := ROUNDDOWN va PGSIZE
  let last := ROUNDDOWN ((((va + size : ℕ) : ℤ) - 1) % 2 ^ 64).toNat PGSIZE
  if first ≤ last then (last - first) / PGSIZE + 1 else 0

def mapPages (pageDir va size pa : ℕ) (perm : Perm) : M ℕ :=
  mapLoop pageDir perm (mapTurns va size) (ROUNDDOWN va PGSIZE) pa

def lookupPa (pageDir va : ℕ) : M ℕ :=
  if MAXVA ≤ va then return 0
  else do
    let pte ← pageWalk pageDir va false
    let s ← get
    if pte = 0 ∨ loadWord s pte &&& PTE_V = 0 ∨ (loadWord s pte &&& PTE_R = 0 ∧ loadWord s pte &&& PTE_W = 0) then
      return 0
    else return PTE2PA (loadWord s pte)

def userVaToPa (pageDir va : ℕ) : M ℕ := do
  let pa ← lookupPa pageDir va
  if pa = 0 then return 0 else return (pa + (va &&& ((1 <<< 12) - 1))) % 2 ^ 64

/-- one turn of the loop of `user_vm_unmap` -/
def unmapPage (pageDir : ℕ) (free : Bool) (a : ℕ) : M Unit := do
  let pte ← pageWalk pageDir a false
  if pte = 0 then throw (.stop (.panic "uvmunmap: walk"))
  else do
    let s ← get
    let w := loadWord s pte
    if w &&& PTE_V = 0 then throw (.stop (.panic "uvmunmap: not mapped"))
    else if PTE_FLAGS w = PTE_V then throw (.stop (.panic "uvmunmap: not a leaf"))
    else do
      if free then lift (Pmm.freePage (PTE2PA w))
      storeWord pte 0

/-- the number of turns of its loop; `va + size` is an unsigned 64-bit number -/
def unmapTurns (va size : ℕ) : ℕ := ((va + size) % 2 ^ 64 - va + PGSIZE - 1) / PGSIZE

def userVmUnmap (pageDir va size : ℕ) (free : Bool) : M Unit :=
  if va % PGSIZE ≠ 0 then throw (.stop (.panic "uvmunmap: not aligned"))
  else (List.range (unmapTurns va size)).forM fun j => unmapPage pageDir free (va + j * PGSIZE)

/-- `page_walk(va, 0)`, and the entry that it finds if that is valid -/
def entry (pageDir : ℕ) (s : St) (va : ℕ) : Option ℕ :=
  match pageWalk pageDir va false s with
  | .ok (pte, s') => if pte = 0 ∨ loadWord s' pte &&& PTE_V = 0 then none else some (loadWord s' pte)
  | .error _ => none

end RiscvPke.Vmm
