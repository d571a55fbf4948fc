/-
The heap of a process: the block lists of kernel/process.c (`set_next` .. `remove_from_pd_list`) and the calls
`sys_user_allocate_mem`, `sys_user_free_mem` and the heap part of `sys_user_exit` of kernel/syscall.c.
-/
import RiscvPke.Core.Bytes
import RiscvPke.Core.Program
import RiscvPke.Kernel.Basic

namespace RiscvPke.Heap

open Bytes Program

/-! ## The interface -/

abbrev PD : ℕ := 24

/-- the fields of a pd -/
inductive Field where
  | flag
  | size
  | next
deriving DecidableEq, Repr

def Field.offset : Field → ℕ
  | .flag => 0
  | .size => 8
  | .next => 16

def Field.width : Field → ℕ
  | .flag => 4
  | .size => 8
  | .next => 8

inductive Call where
  | get (f : Field) (node : ℕ)
  | set (f : Field) (node v : ℕ)
  | freeList
  | allocList
  | setFreeList (node : ℕ)
  | setAllocList (node : ℕ)
  | heapTop
  /-- `alloc_page`, and if there is one, `user_vm_map` at `heap_top` and `heap_top += PGSIZE` -/
  | grow
  /-- `user_vm_unmap(va, PGSIZE, 1)` -/
  | unmap (va : ℕ)
  /-- the loop of `sys_user_exit` over [heap_bottom, heap_top) -/
  | releaseHeap
deriving DecidableEq, Repr

abbrev Ans : Call → Type
  | .get _ _ => ℕ
  | .set _ _ _ => Unit
  | .freeList => ℕ
  | .allocList => ℕ
  | .setFreeList _ => Unit
  | .setAllocList _ => Unit
  | .heapTop => ℕ
  | .grow => Bool
  | .unmap _ => Unit
  | .releaseHeap => Unit

abbrev H := Prog Call Ans Stop

def ask (c : Call) : H (Ans c) := perform c

/-! ## kernel/process.c -/

def getField (f : Field) (node : ℕ) : H ℕ := if node = 0 then return 0 else ask (.get f node)

def setField (f : Field) (node v : ℕ) : H Unit :=
  if node = 0 then return () else ask (.set f node (v % 256 ^ f.width))

def setNext (node next : ℕ) : H Unit := setField .next node next
def getNext (node : ℕ) : H ℕ := getField .next node
def setFlag (node flag : ℕ) : H Unit := setField .flag node flag
def setSize (node size : ℕ) : H Unit := setField .size node size
def getSize (node : ℕ) : H ℕ := getField .size node

/-- more turns than a list can have nodes -/
@[irreducible] def TURNS : ℕ := 2 ^ 64

abbrev Cmp := ℕ → ℕ → ℤ

/-- the difference of the addresses as an `int` -/
def pdFirstFitCmp : Cmp := fun a b => Int.bmod ((a : ℤ) - b) (2 ^ 32)

/-- PD_CMP_FUNC for `MEM_ALLOC_STRATEGY` first fit -/
def PD_CMP_FUNC : Cmp := pdFirstFitCmp

def insertAllocBlock (head new_alloc_block : ℕ) : H ℕ :=
  if head = 0 ∧ new_alloc_block = 0 then return head
  else if head = 0 then do
    setNext new_alloc_block 0
    return new_alloc_block
  else do
    setNext new_alloc_block head
    return new_alloc_block

/-- `while (prev && get_next(prev) != item) prev = get_next(prev);` -/
def findPrev (item : ℕ) : (turns prev : ℕ) → H ℕ
  | 0, _ => .stop .endlessLoop
  | turns + 1, prev =>
    if prev = 0 then return prev
    else do
      let next ← getNext prev
      if next = item then return prev else findPrev item turns next

/-- `while (get_next(cur) && ascend_cmp(cur, item) < 0) { prev = cur; cur = get_next(cur); }` -/
def advance (ascend_cmp : Cmp) (item : ℕ) : (turns prev cur : ℕ) → H (ℕ × ℕ)
  | 0, _, _ => .stop .endlessLoop
  | turns + 1, prev, cur => do
    let next ← getNext cur
    if next ≠ 0 ∧ ascend_cmp cur item < 0 then advance ascend_cmp item turns cur next else return (prev, cur)

/-- the item is out of the list `head`: back into it, in its place -/
def putBack (ascend_cmp : Cmp) (head prev item : ℕ) : H ℕ := do
  if (← getSize item) = 0 then return head
  else if head = 0 ∨ ascend_cmp item head ≤ 0 then do
    setNext item head
    return item
  else do
    let (prev, cur) ← advance ascend_cmp item TURNS prev head
    if (← getNext cur) = 0 ∧ ascend_cmp cur item < 0 then do
      setNext cur item
      setNext item 0
      return head
    else do
      setNext prev item
      setNext item cur
      return head

/-- a block of size 0 is taken out and not put back -/
def sortPdListAscend (head item : ℕ) (ascend_cmp : Cmp) : H ℕ :=
  if head = 0 ∨ item = 0 then return head
  else if head = item then do
    let head ← getNext item
    putBack ascend_cmp head head item
  else do
    let prev ← findPrev item TURNS head
    if prev = 0 then return head
    else do
      setNext prev (← getNext item)
      putBack ascend_cmp head prev item

def insertFreeBlock (head new_free_block : ℕ) (ascend_cmp : Cmp) : H ℕ :=
  if head = 0 ∧ new_free_block = 0 then return head
  else if head = 0 then do
    setNext new_free_block 0
    return new_free_block
  else do
    setNext new_free_block head
    sortPdListAscend new_free_block new_free_block ascend_cmp

def sortLoop (ascend_cmp : Cmp) : (turns sorted_list cur : ℕ) → H ℕ
  | 0, _, _ => .stop .endlessLoop
  | turns + 1, sorted_list, cur =>
    if cur = 0 then return sorted_list
    else do
      let next ← getNext cur
      sortLoop ascend_cmp turns (← insertFreeBlock sorted_list cur ascend_cmp) next

def sortFreeListAscend (head : ℕ) (ascend_cmp : Cmp) : H ℕ :=
  if head = 0 then return head else sortLoop ascend_cmp TURNS 0 head

/-- USER_FREE_ADDRESS_START is the text `0x00000000 + PGSIZE * 1024`, so its second summand is added -/
def getPageHash (p : ℕ) : ℕ := (p - 0x00000000 + PGSIZE * 1024) % 2 ^ 64 / PGSIZE

def mergeLoop : (turns cur : ℕ) → H Unit
  | 0, _ => .stop .endlessLoop
  | turns + 1, cur => do
    let next ← getNext cur
    if cur = 0 ∨ next = 0 then return ()
    else do
      let size ← getSize cur
      if (cur + PD + size) % 2 ^ 64 = next ∧ getPageHash cur = getPageHash next then do
        setSize cur (size + PD + (← getSize next))
        setNext cur (← getNext next)
        mergeLoop turns cur
      else mergeLoop turns next

def mergeFreeBlocks (head : ℕ) (ascend_cmp : Cmp) : H ℕ :=
  if head = 0 then return head
  else do
    let head ← sortFreeListAscend head PD_CMP_FUNC
    mergeLoop TURNS head
    sortFreeListAscend head ascend_cmp

/-- `if (prev) set_next(prev, node); else *p_free_list = node;` -/
def relink (free prev node : ℕ) : H ℕ :=
  if prev ≠ 0 then do
    setNext prev node
    return free
  else return node

/-- a block of the right size is taken as it is -/
def takeBlock (size free alloc prev item : ℕ) : H (ℕ × ℕ × ℕ) := do
  setFlag item 1
  setSize item 0
  let free ← relink free prev (← getNext item)
  setNext item alloc
  setSize item size
  return (item, free, item)

/-- a larger block is split, its first part is taken -/
def splitBlock (size total_free_size free alloc prev item : ℕ) : H (ℕ × ℕ × ℕ) := do
  let next_free_node ← getNext item
  let new_free_item := (item + PD + size) % 2 ^ 64
  setFlag new_free_item 0
  setSize new_free_item (total_free_size - size - PD)
  setNext new_free_item next_free_node
  let free ← relink free prev new_free_item
  setFlag item 1
  setSize item size
  setNext item alloc
  return (item, free, item)

def allocLoop (size free alloc : ℕ) : (turns prev alloc_item : ℕ) → H (ℕ × ℕ × ℕ)
  | 0, _, _ => .stop .endlessLoop
  | turns + 1, prev, alloc_item =>
    if alloc_item = 0 then return (0, free, alloc)
    else do
      let s ← getSize alloc_item
      if s = size then takeBlock size free alloc prev alloc_item
      else if s < (size + PD) % 2 ^ 64 then do
        allocLoop size free alloc turns alloc_item (← getNext alloc_item)
      else splitBlock size s free alloc prev alloc_item

/-- the block or NULL, and the heads of the free list and the alloc list -/
def firstFitAlloc (size free alloc : ℕ) : H (ℕ × ℕ × ℕ) :=
  if free = 0 ∨ size = 0 then return (0, free, alloc) else allocLoop size free alloc TURNS 0 free

/-- a block that is out of the alloc list goes into the free list -/
def release (to_free free : ℕ) : H ℕ := do
  setNext to_free free
  let free ← sortPdListAscend to_free to_free PD_CMP_FUNC
  mergeFreeBlocks free PD_CMP_FUNC

def freeLoop (addr free alloc : ℕ) : (turns prev to_free : ℕ) → H (ℕ × ℕ × ℕ)
  | 0, _, _ => .stop .endlessLoop
  | turns + 1, prev, to_free =>
    if to_free = 0 then .stop (.panic "free error: cannot find the allocated block.\n")
    else do
      let size ← getSize to_free
      if addr = to_free then do
        setFlag to_free 0
        setNext prev (← getNext to_free)
        let free ← release to_free free
        return (size, free, alloc)
      else freeLoop addr free alloc turns to_free (← getNext to_free)

/-- the size of the block, and the heads of the free list and the alloc list -/
def firstFitFree (addr free alloc : ℕ) : H (ℕ × ℕ × ℕ) :=
  if alloc = 0 then .stop (.panic "free error: no allocated block.\n")
  else do
    let size ← getSize alloc
    if addr = alloc then do
      setFlag alloc 0
      let rest ← getNext alloc
      let free ← release alloc free
      return (size, free, rest)
    else freeLoop addr free alloc TURNS alloc (← getNext alloc)

def removeFromPdList (head item : ℕ) : H ℕ :=
  if head = 0 ∨ item = 0 then return head
  else if head = item then getNext item
  else do
    let prev ← findPrev item TURNS head
    if prev = 0 then return head
    else do
      setNext prev (← getNext item)
      return head

/-! ## kernel/syscall.c -/

/-- `mem_rib.alloc(n, &free_list, &alloc_list)` -/
def memAlloc (n : ℕ) : H ℕ := do
  let (va, free, alloc) ← firstFitAlloc n (← ask .freeList) (← ask .allocList)
  ask (.setFreeList free)
  ask (.setAllocList alloc)
  return va

/-- `mem_rib.free(va, &free_list, &alloc_list)` -/
def memFree (va : ℕ) : H Unit := do
  let (_, free, alloc) ← firstFitFree va (← ask .freeList) (← ask .allocList)
  ask (.setFreeList free)
  ask (.setAllocList alloc)

/-- `insert_free_block(&free_list, block, PD_CMP_FUNC)` -/
def addFree (block : ℕ) : H Unit := do
  ask (.setFreeList (← insertFreeBlock (← ask .freeList) block PD_CMP_FUNC))

def newFreeBlock (va size : ℕ) : H Unit := do
  setFlag va 0
  setSize va size
  setNext va 0
  addFree va

def allocSmall (n : ℕ) : H ℕ := do
  let va ← memAlloc n
  if va ≠ 0 then return (va + PD) % 2 ^ 64
  else do
    let top ← ask .heapTop
    if ← ask .grow then do
      newFreeBlock top (PGSIZE - PD)
      let va ← memAlloc n
      if va ≠ 0 then return (va + PD) % 2 ^ 64 else return 0
    else return 0

/-- the block of the free list with the largest address -/
def highestLoop : (turns highest_block block : ℕ) → H ℕ
  | 0, _, _ => .stop .endlessLoop
  | turns + 1, highest_block, block =>
    if block = 0 then return highest_block
    else do
      let next ← getNext block
      highestLoop turns (if highest_block = 0 ∨ highest_block < block then block else highest_block) next

/-- the free block that ends at `heap_top`, or NULL -/
def highestBlock : H ℕ := do
  let highest_block ← highestLoop TURNS 0 (← ask .freeList)
  let size ← getSize highest_block
  if (highest_block + size + PD) % 2 ^ 64 < (← ask .heapTop) then return 0 else return highest_block

/-- where a block of several pages starts, and how many bytes it still needs (an `int`); none if there is no page -/
def extensionStart (n : ℕ) : H (Option (ℕ × ℤ)) := do
  let highest_block ← highestBlock
  if highest_block ≠ 0 then do
    ask (.setFreeList (← removeFromPdList (← ask .freeList) highest_block))
    return some (highest_block, Int.bmod ((n : ℤ) - (← getSize highest_block)) (2 ^ 32))
  else do
    let top ← ask .heapTop
    if ← ask .grow then do
      setSize top (PGSIZE - PD)
      return some (top, (n : ℤ) - (PGSIZE - PD))
    else return none

/-- `turns` turns of the loop over the pages; the turn in which there was no page -/
def growLoop : (turns i : ℕ) → H (Option ℕ)
  | 0, _ => return none
  | turns + 1, i => do
    if ← ask .grow then growLoop turns (i + 1) else return some i

def giveBack (start i : ℕ) : H ℕ := do
  setFlag start 0
  setSize start ((((i : ℤ) - 1) * PGSIZE + (← getSize start)) % 2 ^ 64).toNat
  addFree start
  return 0

/-- the block at `start` becomes an allocated one -/
def finishExtension (n start : ℕ) : H ℕ := do
  setFlag start 1
  setSize start n
  ask (.setAllocList (← insertAllocBlock (← ask .allocList) start))
  return (start + PD) % 2 ^ 64

/-- the block at `start` gets `more` further bytes in new pages -/
def extend (n start : ℕ) (more : ℤ) : H ℕ := do
  -- `for (i = 0; i * PGSIZE < n; i++)`
  let i := ((more + PGSIZE - 1) / PGSIZE).toNat
  match ← growLoop i 0 with
  | some j => giveBack start j
  | none =>
    if (i : ℤ) * PGSIZE ≠ more then do
      let va ← ask .heapTop
      if ← ask .grow then do
        -- `free_va = alloc_va + n - i * PGSIZE`, a sum of unsigned 64-bit numbers, and so is the size
        newFreeBlock ((va + (more - i * PGSIZE)) % 2 ^ 64).toNat ((PGSIZE - (more - i * PGSIZE) - PD) % 2 ^ 64).toNat
        finishExtension n start
      else giveBack start i
    else finishExtension n start

def allocLarge (n : ℕ) : H ℕ := do
  let va ← memAlloc n
  if va ≠ 0 then return (va + PD) % 2 ^ 64
  else
    match ← extensionStart n with
    | none => return 0
    | some (start, more) => extend n start more

def roundup8 (n : ℤ) : ℕ := (((n - 1) / 8 + 1) * 8).toNat

/-- beyond the largest `int` the result of ROUNDUP is undefined -/
def sysUserAllocateMem (n : ℤ) : H ℕ :=
  if n ≤ 0 then return 0
  else if 2 ^ 31 ≤ roundup8 n then .stop .disabled
  else if roundup8 n + PD ≤ PGSIZE then allocSmall (roundup8 n)
  else allocLarge (roundup8 n)

def sysUserFreeMem (va : ℕ) : H Unit := memFree (((va : ℤ) - PD) % 2 ^ 64).toNat

/-- blocks that are still allocated at exit -/
def exitFrees : (turns : ℕ) → H Unit
  | 0 => .stop .endlessLoop
  | turns + 1 => do
    let alloc_item ← ask .allocList
    if alloc_item = 0 then return ()
    else do
      memFree alloc_item
      exitFrees turns

def exitUnmaps : (turns free_item : ℕ) → H Unit
  | 0, _ => .stop .endlessLoop
  | turns + 1, free_item =>
    if free_item = 0 then return ()
    else do
      let next ← getNext free_item
      if ((← getSize free_item) + PD) % 2 ^ 64 ≤ PGSIZE then ask (.unmap free_item)
      ask (.setFreeList next)
      exitUnmaps turns next

/-- all blocks in one list, by address and merged; the result is its head -/
def exitMerge : H ℕ := do
  exitFrees TURNS
  ask (.setFreeList (← sortFreeListAscend (← ask .freeList) PD_CMP_FUNC))
  ask (.setFreeList (← mergeFreeBlocks (← ask .freeList) PD_CMP_FUNC))
  ask .freeList

def exitHeap : H Unit := do
  exitUnmaps TURNS (← exitMerge)
  ask .releaseHeap

/-! ## The heap of one process, by virtual address -/

structure Flat where
  mem : ℕ → UInt8
  heap_bottom : ℕ
  heap_top : ℕ
  alloc_list : ℕ
  free_list : ℕ
  /-- pages that `alloc_page` can still hand out -/
  pages : ℕ

@[irreducible] def Flat.field (t : Flat) (f : Field) (p : ℕ) : ℕ := loadN t.mem (p + f.offset) f.width

def Flat.put (t : Flat) (f : Field) (p v : ℕ) : Flat := { t with mem := storeN t.mem (p + f.offset) f.width v }

def Flat.HasHeader (t : Flat) (p : ℕ) : Prop := t.heap_bottom ≤ p ∧ p + PD ≤ t.heap_top

instance (t : Flat) (p : ℕ) : Decidable (t.HasHeader p) := inferInstanceAs (Decidable (_ ∧ _))

/-- the next page of the heap; what is in it is what the memory behind `heap_top` held -/
def Flat.grown (t : Flat) : Flat := { t with heap_top := t.heap_top + PGSIZE, pages := t.pages - 1 }

/-- the interface on a heap by virtual address. If `fails`, a call of `alloc_page` without a page returns NULL; else the
run is not considered. Unmapping at exit does not change what the bytes were -/
def handle (fails : Bool) : (c : Call) → StateT Flat Res (Ans c)
  | .get f p => do
    let t ← get
    if t.HasHeader p then return t.field f p else throw .nullPointer
  | .set f p v => do
    let t ← get
    if t.HasHeader p then set (t.put f p v) else throw .nullPointer
  | .freeList => return (← get).free_list
  | .allocList => return (← get).alloc_list
  | .setFreeList p => modify fun t => { t with free_list := p }
  | .setAllocList p => modify fun t => { t with alloc_list := p }
  | .heapTop => return (← get).heap_top
  | .grow => do
    let t ← get
    if t.pages = 0 then
      if fails then return false else throw .disabled
    else if MAXVA < t.heap_top + PGSIZE then throw (.panic "page_walk")
    else do
      set t.grown
      return true
  | .unmap _ => return ()
  | .releaseHeap => return ()

/-! ## The machine -/

inductive Op where
  | malloc (n : ℤ)
  | free (va : ℕ)
deriving DecidableEq, Repr

/-- a call, with the pointer it returns -/
def act : Op → H ℕ
  | .malloc n => sysUserAllocateMem n
  | .free va => do
    sysUserFreeMem va
    return 0

def step (fails : Bool) (t : Flat) (op : Op) : Res Flat := ((act op).run (handle fails) t).map fun r => r.2

def returned (fails : Bool) (t : Flat) (op : Op) : ℕ :=
  match (act op).run (handle fails) t with
  | .ok r => r.1
  | .error _ => 0

/-- a new process: an empty heap, and memory behind it that holds anything -/
structure Empty (t : Flat) : Prop where
  bottom : t.heap_bottom = USER_FREE_ADDRESS_START
  top : t.heap_top = USER_FREE_ADDRESS_START
  alloc : t.alloc_list = 0
  free : t.free_list = 0

end RiscvPke.Heap
