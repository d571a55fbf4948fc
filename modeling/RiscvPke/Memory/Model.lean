/-
Physical pages, page tables and address spaces: kernel/pmm.c, kernel/vmm.c, `alloc_process` of kernel/process.c,
`elf_load` and `do_exec` of kernel/elf.c, the memory part of `do_fork` and `do_fork_to_hart` (kernel/sched.c), the page
fault handler of kernel/strap.c, and heap growth and release (`sys_user_allocate_mem`, `sys_user_exit` of
kernel/syscall.c).
-/
import RiscvPke.Core.Run
import RiscvPke.Core.Count
import RiscvPke.Kernel.Basic

namespace RiscvPke.Memory

open Function

/-! ## State -/

/-- what a page has been mapped for -/
inductive Kind where
  /-- the stack page of `alloc_process` or `do_exec` -/
  | stack
  /-- a page that a store fault added to the stack -/
  | grown
  /-- trapframe and trap vector -/
  | sys
  | heap
  | code
  | data
  /-- a page that the process has no title to -/
  | spill
deriving DecidableEq, Repr, Inhabited

/-- the permission bits of a page table entry -/
structure Flags where
  r : Bool
  w : Bool
  x : Bool
  u : Bool
  a : Bool
  d : Bool
  cow : Bool
deriving DecidableEq, Repr, Inhabited

/-- a valid leaf entry -/
structure Pte extends Flags where
  ppn : ℕ
  kind : Kind
deriving DecidableEq, Repr, Inhabited

/-- `enum segment_type`; a zeroed region is a STACK_SEGMENT -/
inductive Seg where
  | stack
  | context
  | system
  | heap
  | code
  | data
deriving DecidableEq, Repr

structure Region where
  va : ℕ
  npages : ℕ
  seg_type : Seg
deriving DecidableEq, Repr

structure Proc where
  leaf : ℕ → Option Pte
  /-- which entries of the page directory lead to a table (index vpn / 2^18) -/
  dirs : ℕ → Bool
  /-- which entries of the middle level lead to a table (index vpn / 2^9) -/
  tabs : ℕ → Bool
  mapped_info : ℕ → Region
  total_mapped_region : ℕ
  heap_top : ℕ
  heap_bottom : ℕ
  alloc_list : ℕ
  free_list : ℕ

/-- FREE, ZOMBIE, or any other status -/
inductive Life where
  | free
  | live
  | zombie
deriving DecidableEq, Repr

/-- what the kernel keeps a page for -/
inductive Keep where
  /-- a last-level page table of a process, by its index vpn / 2^9 -/
  | table (p : Slot) (t : ℕ)
  /-- an upper level of a page table, a trapframe, a kernel stack, `mapped_info`, a file table, or data of the kernel -/
  | other
deriving DecidableEq, Repr

structure St where
  mem : ℕ → UInt8
  /-- `page_ref_count`, by frame -/
  page_ref_count : ℕ → ℕ
  /-- the pages of `g_free_mem_list`, first page first -/
  free : List ℕ
  /-- the pages that the kernel has taken for itself, by frame -/
  kept : ℕ → Option Keep
  life : Slot → Life
  proc : Slot → Proc

/-- the frames that the page allocator manages, and the frame of the trap vector -/
structure Machine where
  start : ℕ
  stop : ℕ
  trapSec : ℕ
  trap_pos : 0 < trapSec
  trap_lt : trapSec < start
  span : stop ≤ start + MAX_PAGES

abbrev M := StateT St Res

def modProc (p : Slot) (f : Proc → Proc) : M Unit :=
  modify fun s => { s with proc := update s.proc p (f (s.proc p)) }

def setLeaf (p : Slot) (vpn : ℕ) (o : Option Pte) : M Unit :=
  modProc p fun pr => { pr with leaf := update pr.leaf vpn o }

def setInfo (p : Slot) (i : ℕ) (r : Region) : M Unit :=
  modProc p fun pr => { pr with mapped_info := update pr.mapped_info i r }

def keep (f : ℕ) (k : Keep) : M Unit := modify fun s => { s with kept := update s.kept f (some k) }

/-- the page tables of an earlier process in the slot are of no use any more; their pages are not given back -/
def Keep.retire (p : Slot) : Keep → Keep
  | .table q t => if q = p then .other else .table q t
  | .other => .other

/-! ## kernel/pmm.c -/

variable (K : Machine)

/-- a page that is not one of a process: outside the memory of the page allocator, free, or kept by the kernel -/
def Foreign (s : St) (f : ℕ) : Prop := f < K.start ∨ K.stop ≤ f ∨ f ∈ s.free ∨ (s.kept f).isSome = true

instance (s : St) (f : ℕ) : Decidable (Foreign K s f) := inferInstanceAs (Decidable (_ ∨ _))

/-- the page has an entry in `page_ref_count` -/
def hasIndex (f : ℕ) : Prop := K.start ≤ f ∧ f < K.start + MAX_PAGES

instance (f : ℕ) : Decidable (hasIndex K f) := inferInstanceAs (Decidable (_ ∧ _))

def incPageRef (f : ℕ) : M Unit :=
  if hasIndex K f then
    modify fun s => { s with page_ref_count := update s.page_ref_count f (s.page_ref_count f + 1) }
  else pure ()

def decPageRef (f : ℕ) : M Unit :=
  if hasIndex K f then
    modify fun s => { s with page_ref_count := update s.page_ref_count f (s.page_ref_count f - 1) }
  else pure ()

def getPageRef (s : St) (f : ℕ) : ℕ := if hasIndex K f then s.page_ref_count f else 0

def storeWord (mem : ℕ → UInt8) (a v : ℕ) : ℕ → UInt8 := fun b =>
  if a ≤ b ∧ b < a + 8 then UInt8.ofNat (v / 256 ^ (b - a)) else mem b

/-- a page that is still shared loses one reference; else it goes to the head of the list, and its first word links to
the old head -/
def freePage (f : ℕ) : M Unit :=
  if f < K.start ∨ K.stop ≤ f then throw (.panic "free_page 0x%lx \n")
  else modify fun s =>
    if 1 < s.page_ref_count f then
      { s with page_ref_count := update s.page_ref_count f (s.page_ref_count f - 1) }
    else
      { s with
        page_ref_count := update s.page_ref_count f 0
        mem := storeWord s.mem (f * PGSIZE) (s.free.headD 0 * PGSIZE)
        free := f :: s.free }

def allocPage : M (Option ℕ) := do
  let s ← get
  match s.free with
  | [] => return none
  | n :: rest =>
    set { s with free := rest, page_ref_count := update s.page_ref_count n 1 }
    return some n

/-- `alloc_page` where the caller writes through the result without a test -/
def allocPageUsed : M ℕ := do
  match ← allocPage with
  | none => throw .nullPointer
  | some f => return f

def zeroPage (f : ℕ) : M Unit := modify fun s => { s with mem := fun b => if b / PGSIZE = f then 0 else s.mem b }

/-- the page `dst` with the bytes of the page `src` -/
def copyBytes (mem : ℕ → UInt8) (dst src : ℕ) : ℕ → UInt8 := fun b =>
  if b / PGSIZE = dst then mem (src * PGSIZE + b % PGSIZE) else mem b

def copyPage (dst src : ℕ) : M Unit := modify fun s => { s with mem := copyBytes s.mem dst src }

/-! ## kernel/vmm.c -/

def protToType (read write exec user : Bool) : Flags where
  r := read || !(read || write || exec)
  w := write
  x := exec
  u := user
  a := read || exec
  d := write
  cow := false

/-- one level of `page_walk`: the table below an entry, allocated and zeroed if it is missing and `alloc` is set -/
def walkLevel (p : Slot) (has : Proc → Bool) (add : Proc → Proc) (k : Keep) (alloc : Bool) : M Bool := do
  let s ← get
  if has (s.proc p) then return true
  else if alloc then
    match ← allocPage with
    | none => return false
    | some f =>
      zeroPage f
      keep f k
      modProc p add
      return true
  else return false

/-- whether there is an entry for the address -/
def pageWalk (p : Slot) (va : ℕ) (alloc : Bool) : M Bool :=
  if MAXVA ≤ va then throw (.panic "page_walk")
  else do
    let d := va / PGSIZE / 2 ^ 18
    let t := va / PGSIZE / 2 ^ 9
    if ← walkLevel p (·.dirs d) (fun pr => { pr with dirs := update pr.dirs d true }) .other alloc then
      walkLevel p (·.tabs t) (fun pr => { pr with tabs := update pr.tabs t true }) (.table p t) alloc
    else return false

/-- `n` turns of the loop of `map_pages`; behind the first page the frames just follow on -/
def mapLoop (p : Slot) (fl : Flags) : (n vpn frame : ℕ) → Kind → M Bool
  | 0, _, _, _ => return true
  | n + 1, vpn, frame, k => do
    if ← pageWalk p (vpn * PGSIZE) true then
      let s ← get
      if ((s.proc p).leaf vpn).isSome then
        throw (.panic "map_pages fails on mapping va (0x%lx) to pa (0x%lx)")
      else do
        setLeaf p vpn (some ⟨fl, frame, k⟩)
        mapLoop p fl n (vpn + 1) (frame + 1) .spill
    else return false

/-- false for the result -1; `size` bytes from an address that is not aligned reach into one more page -/
def mapPages (p : Slot) (va size frame : ℕ) (fl : Flags) (k : Kind) : M Bool :=
  mapLoop p fl ((va + size - 1) / PGSIZE + 1 - va / PGSIZE) (va / PGSIZE) frame k

def userVmMap (p : Slot) (va size frame : ℕ) (fl : Flags) (k : Kind) : M Unit := do
  if ← mapPages p va size frame fl k then return ()
  else throw (.panic "fail to user_vm_map .\n")

/-- the frame behind an address, 0 if there is none -/
def lookupPa (pr : Proc) (va : ℕ) : ℕ :=
  if MAXVA ≤ va then 0
  else match pr.leaf (va / PGSIZE) with
    | some pte => if pte.r || pte.w then pte.ppn else 0
    | none => 0

def userVaToPa (pr : Proc) (va : ℕ) : ℕ :=
  if lookupPa pr va = 0 then 0 else lookupPa pr va * PGSIZE + va % PGSIZE

def noFlags : Flags := ⟨false, false, false, false, false, false, false⟩

/-- one turn of the loop of `user_vm_unmap` -/
def unmapPage (p : Slot) (free : Bool) (vpn : ℕ) : M Unit := do
  if ← pageWalk p (vpn * PGSIZE) false then
    let s ← get
    match (s.proc p).leaf vpn with
    | none => throw (.panic "uvmunmap: not mapped")
    | some pte =>
      if pte.toFlags = noFlags then throw (.panic "uvmunmap: not a leaf")
      else do
        if free then freePage K pte.ppn
        setLeaf p vpn none
  else throw (.panic "uvmunmap: walk")

def userVmUnmap (p : Slot) (va size : ℕ) (free : Bool) : M Unit :=
  if va % PGSIZE ≠ 0 then throw (.panic "uvmunmap: not aligned")
  else (List.range' (va / PGSIZE) ((size + PGSIZE - 1) / PGSIZE)).forM (unmapPage K p free)

/-! ## kernel/process.c -/

/-- entries of the page that `mapped_info` points to -/
def NREGION : ℕ := PGSIZE / 16

def noRegion : Region := ⟨0, 0, .stack⟩

def STACK_PAGE : ℕ := USER_STACK_TOP - PGSIZE

def baseInfo (trapframe : ℕ) : ℕ → Region
  | 0 => ⟨STACK_PAGE, 1, .stack⟩
  | 1 => ⟨trapframe * PGSIZE, 1, .context⟩
  | 2 => ⟨K.trapSec * PGSIZE, 1, .system⟩
  | 3 => ⟨USER_FREE_ADDRESS_START, 0, .heap⟩
  | _ => noRegion

/-- a process with an empty page table and the base regions -/
def newProc (trapframe : ℕ) : Proc where
  leaf := fun _ => none
  dirs := fun _ => false
  tabs := fun _ => false
  mapped_info := baseInfo K trapframe
  total_mapped_region := 4
  heap_top := USER_FREE_ADDRESS_START
  heap_bottom := USER_FREE_ADDRESS_START
  alloc_list := 0
  free_list := 0

def freeSlot (s : St) : Option Slot := (List.finRange NPROC).find? fun p => s.life p = .free

/-- an empty page table takes the place of the one of an earlier process in the slot -/
def St.cleared (s : St) (p : Slot) (pr : Proc) : St :=
  { s with proc := update s.proc p pr, kept := fun f => (s.kept f).map (Keep.retire p) }

/-- the address space of the slot that `alloc_process` takes; page directory, kernel stack, `mapped_info` and the file
table get pages of their own, which no page table maps -/
def allocSpace (p : Slot) : M Unit := do
  let trapframe ← allocPageUsed
  zeroPage trapframe
  keep trapframe .other
  let pagetable ← allocPageUsed
  zeroPage pagetable
  keep pagetable .other
  let kstack ← allocPageUsed
  keep kstack .other
  let userStack ← allocPageUsed
  let info ← allocPageUsed
  zeroPage info
  keep info .other
  modify fun s => s.cleared p (newProc K trapframe)
  userVmMap p STACK_PAGE PGSIZE userStack (protToType true true false true) .stack
  userVmMap p (trapframe * PGSIZE) PGSIZE trapframe (protToType true true false false) .sys
  userVmMap p (K.trapSec * PGSIZE) PGSIZE K.trapSec (protToType true false true false) .sys
  let pfiles ← allocPageUsed
  keep pfiles .other
  modify fun s => { s with life := update s.life p .live }

def allocProcess : M Slot := do
  match freeSlot (← get) with
  | none => throw (.panic "cannot find any free process structure.\n")
  | some p =>
    allocSpace K p
    return p

/-! ## kernel/elf.c -/

/-- a program header of type ELF_PROG_LOAD, with the bytes of the file at its offset -/
structure Phdr where
  vaddr : ℕ
  memsz : ℕ
  filesz : ℕ
  flags : ℕ
  data : ℕ → UInt8
  fits : vaddr + memsz + PGSIZE ≤ 2 ^ 64

def Phdr.readable (ph : Phdr) : Bool := ph.flags / 4 % 2 = 1
def Phdr.writable (ph : Phdr) : Bool := ph.flags / 2 % 2 = 1
def Phdr.executable (ph : Phdr) : Bool := ph.flags % 2 = 1

def Phdr.type (ph : Phdr) : Flags := protToType ph.readable ph.writable ph.executable true

/-- the number of the first page, `seg_start / PGSIZE` -/
def Phdr.first (ph : Phdr) : ℕ := ph.vaddr / PGSIZE

/-- the number of pages, `(seg_end - seg_start) / PGSIZE` -/
def Phdr.npages (ph : Phdr) : ℕ := (ph.vaddr + ph.memsz + PGSIZE - 1) / PGSIZE - ph.vaddr / PGSIZE

/-- the region type by the flags R|X and R|W -/
def Phdr.segType (ph : Phdr) : Option Seg :=
  if ph.flags = 5 then some .code else if ph.flags = 6 then some .data else none

def Phdr.kind (ph : Phdr) : Kind := if ph.flags = 5 then .code else .data

/-- the first entry of `mapped_info` whose va is 0, `NREGION` if there is none -/
def freeRegion (pr : Proc) : ℕ := ((List.range NREGION).find? fun j => (pr.mapped_info j).va = 0).getD NREGION

def loadPage (p : Slot) (ph : Phdr) (vpn : ℕ) : M Unit := do
  match ← allocPage with
  | none => throw (.panic "uvmalloc mem alloc falied\n")
  | some f =>
    zeroPage f
    userVmMap p (vpn * PGSIZE) PGSIZE f ph.type ph.kind

/-- the bytes of the file that go into one page -/
def readPage (p : Slot) (ph : Phdr) (vpn : ℕ) : M Unit := do
  let s ← get
  let f := lookupPa (s.proc p) (vpn * PGSIZE)
  if f = 0 then throw (.panic "Fail on loading elf.\n")
  else
    set
      { s with mem := fun b =>
          let va := vpn * PGSIZE + b % PGSIZE
          if b / PGSIZE = f ∧ ph.vaddr ≤ va ∧ va < ph.vaddr + ph.filesz then ph.data (va - ph.vaddr) else s.mem b }

/-- the pages that hold bytes of the file -/
def Phdr.filePages (ph : Phdr) : List ℕ :=
  if ph.filesz = 0 then []
  else List.range' ph.first ((ph.vaddr + ph.filesz + PGSIZE - 1) / PGSIZE - ph.first)

def recordSegment (p : Slot) (ph : Phdr) : M Unit := do
  let j := freeRegion ((← get).proc p)
  if NREGION ≤ j then throw .outOfBounds
  else match ph.segType with
    | none => throw (.panic "unknown program segment encountered, segment flag:%d.\n")
    | some t => modProc p fun pr =>
      { pr with
        mapped_info := update pr.mapped_info j ⟨ph.vaddr, ph.npages % 2 ^ 32, t⟩
        total_mapped_region := pr.total_mapped_region + 1 }

def loadSegment (p : Slot) (ph : Phdr) : M Unit :=
  if ph.memsz < ph.filesz then throw (.panic "Fail on loading elf.\n")
  else do
    (List.range' ph.first ph.npages).forM (loadPage p ph)
    ph.filePages.forM (readPage p ph)
    recordSegment p ph

def elfLoad (p : Slot) (elf : List Phdr) : M Unit := elf.forM (loadSegment p)

/-- one turn of the loop of `do_exec` over the regions; the size is an `unsigned int` -/
def dropRegion (p : Slot) (i : ℕ) : M Unit :=
  if NREGION ≤ i then throw .outOfBounds
  else do
    let r := ((← get).proc p).mapped_info i
    if (r.seg_type = .code ∨ r.seg_type = .data ∨ r.seg_type = .stack ∨ r.seg_type = .heap) ∧ 0 < r.npages then do
      userVmUnmap K p (r.va / PGSIZE * PGSIZE) (r.npages * PGSIZE % 2 ^ 32) (r.seg_type ≠ .code)
      setInfo p i noRegion
    else pure ()

/-- back to an empty heap, a fresh stack and the four base regions; other entries of `mapped_info` stay -/
def resetProc (pr : Proc) : Proc :=
  { pr with
    mapped_info := update (update pr.mapped_info 0 ⟨STACK_PAGE, 1, .stack⟩) 3
      ⟨USER_FREE_ADDRESS_START, 0, .heap⟩
    total_mapped_region := 4
    heap_top := USER_FREE_ADDRESS_START
    heap_bottom := USER_FREE_ADDRESS_START
    alloc_list := 0
    free_list := 0 }

/-- the argument string and `argv` at the top of the new stack -/
def writeArgs (p : Slot) (para : List UInt8) : M Unit := do
  let s ← get
  let str := USER_STACK_TOP - (para.length + 1 + 7) / 8 * 8
  let argv := (str - 16) / 16 * 16
  let strPa := userVaToPa (s.proc p) str
  let argvPa := userVaToPa (s.proc p) argv
  if para ≠ [] ∧ STACK_PAGE < str ∧ STACK_PAGE < argv ∧ strPa ≠ 0 ∧ argvPa ≠ 0 then
    let mem := fun b => if strPa ≤ b ∧ b < strPa + para.length + 1 then para.getD (b - strPa) 0 else s.mem b
    set { s with mem := storeWord (storeWord mem argvPa str) (argvPa + 8) 0 }
  else pure ()

def doExec (p : Slot) (elf : List Phdr) (para : List UInt8) : M Unit := do
  let s ← get
  (List.range (s.proc p).total_mapped_region).forM (dropRegion K p)
  let page ← allocPage
  userVmMap p STACK_PAGE PGSIZE (page.getD 0) (protToType true true false true) (if page.isSome then .stack else .spill)
  modProc p resetProc
  elfLoad p elf
  writeArgs p para

/-! ## kernel/sched.c: the address space of a forked child -/

/-- the numbers of the pages in [heap_bottom, heap_top) -/
def heapPages (pr : Proc) : List ℕ :=
  List.range' (pr.heap_bottom / PGSIZE) ((pr.heap_top - pr.heap_bottom + PGSIZE - 1) / PGSIZE)

/-- one heap page of the parent becomes shared and read-only in both page tables -/
def shareHeapPage (parent child : Slot) (vpn : ℕ) : M Unit := do
  if ← pageWalk parent (vpn * PGSIZE) false then
    let s ← get
    match (s.proc parent).leaf vpn with
    | none => pure ()
    | some pte =>
      let flags := { pte.toFlags with w := false, cow := true }
      incPageRef K pte.ppn
      userVmMap child (vpn * PGSIZE) PGSIZE pte.ppn flags pte.kind
      setLeaf parent vpn (some ⟨flags, pte.ppn, pte.kind⟩)
  else pure ()

/-- `child->mapped_info[child->total_mapped_region++] = r` -/
def appendRegion (child : Slot) (r : Region) : M Unit := do
  let n := ((← get).proc child).total_mapped_region
  if NREGION ≤ n then throw .outOfBounds
  else modProc child fun pr =>
    { pr with mapped_info := update pr.mapped_info n r, total_mapped_region := n + 1 }

/-- a shared code page; the mapping counts as `code` if the parent's own page is one -/
def codeKind (pr : Proc) (va : ℕ) : Kind :=
  match pr.leaf (va / PGSIZE) with
  | some pte => if pte.kind = .code ∧ lookupPa pr va ≠ 0 then .code else .spill
  | none => .spill

def shareCodePage (parent child : Slot) (va : ℕ) : M Unit := do
  let pr := (← get).proc parent
  let _ ← mapPages child va PGSIZE (lookupPa pr va) (protToType true true true true) (codeKind pr va)
  return ()

def copyDataPage (parent child : Slot) (va : ℕ) : M Unit := do
  let childPa ← allocPageUsed
  let parentPa := lookupPa ((← get).proc parent) va
  if parentPa = 0 then throw .nullPointer
  else do
    copyPage childPa parentPa
    userVmMap child va PGSIZE childPa (protToType true true false true) .data

/-- the addresses `va + j * PGSIZE` of a region -/
def Region.pages (r : Region) : List ℕ := (List.range r.npages).map fun j => r.va + j * PGSIZE

/-- one turn of the loop over the parent's regions, in `do_fork` and `do_fork_to_hart` alike -/
def copyRegion (parent child : Slot) (i : ℕ) : M Unit :=
  if NREGION ≤ i then throw .outOfBounds
  else do
    let s ← get
    let r := (s.proc parent).mapped_info i
    match r.seg_type with
    | .context => pure ()
    | .system => pure ()
    | .stack =>
      let dst := lookupPa (s.proc child) ((s.proc child).mapped_info 0).va
      let src := lookupPa (s.proc parent) r.va
      if dst = 0 ∨ src = 0 then throw .nullPointer else copyPage dst src
    | .heap =>
      (heapPages (s.proc parent)).forM (shareHeapPage K parent child)
      modProc child fun pr =>
        { pr with
          mapped_info := update pr.mapped_info 3
            ⟨((s.proc parent).mapped_info 3).va, ((s.proc parent).mapped_info 3).npages, .heap⟩
          heap_top := (s.proc parent).heap_top
          heap_bottom := (s.proc parent).heap_bottom
          alloc_list := (s.proc parent).alloc_list
          free_list := (s.proc parent).free_list }
    | .code =>
      r.pages.forM (shareCodePage parent child)
      appendRegion child ⟨r.va, r.npages, .code⟩
    | .data =>
      r.pages.forM (copyDataPage parent child)
      appendRegion child ⟨r.va, r.npages, .data⟩

/-- the memory part; the result is the child -/
def doFork (parent : Slot) : M Slot := do
  let child ← allocProcess K
  let s ← get
  (List.range (s.proc parent).total_mapped_region).forM (copyRegion K parent child)
  return child

/-- the hart is only a matter of the ready queues -/
def doForkToHart (parent : Slot) : M Slot := doFork K parent

/-! ## kernel/strap.c -/

def breakCow (p : Slot) (vpn : ℕ) (pte : Pte) : M Unit := do
  let s ← get
  let flags := { pte.toFlags with cow := false, w := true }
  if 1 < getPageRef K s pte.ppn then do
    let newPage ← allocPageUsed
    copyPage newPage pte.ppn
    decPageRef K pte.ppn
    setLeaf p vpn (some ⟨flags, newPage, pte.kind⟩)
  else setLeaf p vpn (some ⟨flags, pte.ppn, pte.kind⟩)

/-- the stack grows by the page of the address; without a free page that is page 0 -/
def growStack (p : Slot) (stval : ℕ) : M Unit := do
  let page ← allocPage
  userVmMap p (stval / PGSIZE * PGSIZE) PGSIZE (page.getD 0) (protToType true true false true)
    (if page.isSome then .grown else .spill)

/-- CAUSE_STORE_PAGE_FAULT; `sp - PGSIZE` wraps -/
def handleUserPageFault (p : Slot) (sp stval : ℕ) : M Unit := do
  let found ← pageWalk p stval false
  let s ← get
  match if found then (s.proc p).leaf (stval / PGSIZE) else none with
  | some pte => if pte.cow then breakCow K p (stval / PGSIZE) pte else grow
  | none => grow
where
  grow : M Unit :=
    if (sp + 2 ^ 64 - PGSIZE) % 2 ^ 64 ≤ stval then growStack p stval
    else throw (.panic "this address is not available!")

/-! ## User accesses -/

/-- the entry through which user code may store -/
def storePte (pr : Proc) (va : ℕ) : Option Pte :=
  if MAXVA ≤ va then none else (pr.leaf (va / PGSIZE)).filter fun pte => pte.u && pte.w

/-- the store itself, where the page table allows it -/
def writeByte (p : Slot) (va : ℕ) (b : UInt8) : M Bool := do
  let s ← get
  match storePte (s.proc p) va with
  | none => return false
  | some pte =>
    if Foreign K s pte.ppn then throw .unmodelled
    else do
      set { s with mem := update s.mem (pte.ppn * PGSIZE + va % PGSIZE) b }
      return true

/-- a store instruction of user code: where the page table does not allow it the fault handler runs and the instruction
is repeated -/
def userStore (p : Slot) (sp va : ℕ) (b : UInt8) : M Unit := do
  if ← writeByte K p va b then return ()
  else do
    handleUserPageFault K p sp va
    if ← writeByte K p va b then return () else throw .endlessLoop

/-- a load instruction of user code; `none` where the page table does not allow it -/
def userLoad (s : St) (p : Slot) (va : ℕ) : Option UInt8 :=
  if MAXVA ≤ va then none
  else match (s.proc p).leaf (va / PGSIZE) with
    | some pte => if pte.u && pte.r then some (s.mem (pte.ppn * PGSIZE + va % PGSIZE)) else none
    | none => none

/-! ## kernel/syscall.c: growth and release of the heap -/

/-- the heap grows by one page, as `sys_user_allocate_mem` does when no free block is large enough; false without a free
page -/
def growHeap (p : Slot) : M Bool := do
  match ← allocPage with
  | none => return false
  | some f =>
    let top := ((← get).proc p).heap_top
    userVmMap p top PGSIZE f (protToType true true false true) .heap
    modProc p fun pr =>
      { pr with
        mapped_info := update pr.mapped_info 3
          { pr.mapped_info 3 with npages := ((pr.mapped_info 3).npages + 1) % 2 ^ 32 }
        heap_top := top + PGSIZE }
    return true

/-- the last loop of `sys_user_exit`, one page -/
def releaseHeapPage (p : Slot) (vpn : ℕ) : M Unit := do
  if ← pageWalk p (vpn * PGSIZE) false then
    let s ← get
    if ((s.proc p).leaf vpn).isSome then unmapPage K p true vpn else pure ()
  else pure ()

/-- the heap pages of an exiting process: `order` are the pages that the walk over the free list releases first -/
def releaseHeap (p : Slot) (order : List ℕ) : M Unit := do
  order.forM (unmapPage K p true)
  let s ← get
  (heapPages (s.proc p)).forM (releaseHeapPage K p)

/-! ## The machine -/

inductive Op where
  /-- `alloc_process` and `elf_load` for a program that the kernel starts -/
  | spawn (elf : List Phdr)
  /-- `do_fork` or `do_fork_to_hart` -/
  | fork (parent : Slot)
  | grow (p : Slot)
  /-- a store instruction, with the stack pointer at that time -/
  | store (p : Slot) (sp va : ℕ) (b : UInt8)
  | exec (p : Slot) (elf : List Phdr) (para : List UInt8)
  | exit (p : Slot) (order : List ℕ)
  /-- `do_wait` frees the slot of a zombie -/
  | reap (p : Slot)

def setLife (p : Slot) (l : Life) : M Unit := modify fun s => { s with life := update s.life p l }

/-- `x` as an action of a process in the state `l` -/
def inLife (p : Slot) (l : Life) (x : M Unit) : M Unit := do
  if (← get).life p = l then x else throw .disabled

def act : Op → M Unit
  | .spawn elf => do
    let p ← allocProcess K
    elfLoad p elf
  | .fork parent => inLife parent .live do
    let _ ← doFork K parent
    return ()
  | .grow p => inLife p .live do
    let _ ← growHeap p
    return ()
  | .store p sp va b => inLife p .live (userStore K p sp va b)
  | .exec p elf para => inLife p .live (doExec K p elf para)
  | .exit p order => inLife p .live do
    if ∀ v ∈ order, v ∈ heapPages ((← get).proc p) then
      setLife p .zombie
      releaseHeap K p order
    else throw .disabled
  | .reap p => inLife p .zombie (setLife p .free)

def step (s : St) (op : Op) : Res St := (·.2) <$> act K op s

/-! ## Start -/

/-- `create_freepage_list`; the last page is left out -/
def createFreepageList : M Unit := (List.range' K.start (K.stop - K.start - 1)).forM (freePage K)

/-- the state in which `pmm_init` finds the kernel's variables -/
def zeroed : St where
  mem := fun _ => 0
  page_ref_count := fun _ => 0
  free := []
  kept := fun _ => none
  life := fun _ => .free
  proc := fun _ => ⟨fun _ => none, fun _ => false, fun _ => false, fun _ => noRegion, 0, 0, 0, 0, 0⟩

/-- a state before the first process: the kernel may have taken pages for itself; the last page is in nobody's hands -/
structure Booted (s : St) : Prop where
  nodup : s.free.Nodup
  range : ∀ f ∈ s.free, K.start ≤ f ∧ f < K.stop
  unkept : ∀ f ∈ s.free, s.kept f = none
  taken : ∀ f, K.start ≤ f → f + 1 < K.stop → f ∉ s.free → s.kept f = some .other
  life : ∀ p, s.life p = .free
  leaf : ∀ p v, (s.proc p).leaf v = none

end RiscvPke.Memory
