/-
Exit of a process while other harts run: `sys_user_exit` of kernel/syscall.c in steps, beside `do_wait` and the forks of
other processes (kernel/sched.c, kernel/process.c).
-/
import RiscvPke.Heap.Isolation

namespace RiscvPke.Heap.Exiting

open Function Bytes Program Run RiscvPke.System
open Memory (St Machine Life Foreign leafAt pageOf Booted userVaToPa lookupPa releaseHeapPage)

/-! ## The machine -/

inductive Cleanup where
  /-- the blocks of the heap, with what is still to do -/
  | lists (rest : H Unit)
  /-- the loop over the pages of the heap, with `heap_va` -/
  | pages (heap_va : ℕ)
  /-- in front of `schedule()` -/
  | done

def Cleanup.busy : Cleanup → Bool
  | .lists _ | .pages _ => true
  | .done => false

/-- an exit on its way: the slot, its generation when the exit began, and what is still to do -/
structure Exit where
  slot : Slot
  gen : ℕ
  todo : Cleanup

structure Sys where
  mem : St
  /-- how often `alloc_process` handed out the slot -/
  gen : Slot → ℕ
  parent : Slot → Option Slot
  exits : Hart → Option Exit

inductive Label where
  /-- a call of another process -/
  | act (a : Act)
  /-- `do_wait(-1)` of the process -/
  | wait (q : Slot)
  /-- `sys_user_exit` of the process on the hart, up to `free_process` -/
  | exit (H : Hart) (c : Slot)
  /-- the next step of the exit on the hart -/
  | clean (H : Hart)

def Ordinary : Act → Bool
  | .exit _ | .reap _ => false
  | .spawn _ | .fork _ | .store _ _ _ _ | .exec _ _ _ | .call _ _ => true

def born (s : Sys) : Act → Option (Slot × Option Slot)
  | .spawn _ => (Memory.freeSlot s.mem).map fun i => (i, s.parent i)
  | .fork p => (Memory.freeSlot s.mem).map fun i => (i, some p)
  | .exit _ | .reap _ | .store _ _ _ _ | .exec _ _ _ | .call _ _ => none

def afterAct (s : Sys) (a : Act) (m : St) : Sys :=
  match born s a with
  | none => { s with mem := m }
  | some (i, par) =>
    { s with mem := m, gen := update s.gen i (s.gen i + 1), parent := update s.parent i par }

def firstChild (s : Sys) (q : Slot) : Option Slot :=
  (List.finRange NPROC).find? fun i => s.parent i = some q ∧ s.mem.life i ≠ .free

def setLife (s : Sys) (p : Slot) (l : Life) : Sys := { s with mem := { s.mem with life := update s.mem.life p l } }

def doWait (s : Sys) (q : Slot) : Sys :=
  match firstChild s q with
  | none => s
  | some i => if s.mem.life i = .zombie then setLife s i .free else s

def exitLists : H Unit := do
  exitUnmaps TURNS (← exitMerge)

def cleanStep (K : Machine) (m : St) (c : Slot) : Cleanup → Res (St × Cleanup)
  | .lists (.ret _) => .ok (m, .pages (m.proc c).heap_bottom)
  | .lists (.stop e) => .error e
  | .lists (.call o k) => do
    let (r, m) ← kernel K c o m
    return (m, .lists (k r))
  | .pages va =>
    if va < (m.proc c).heap_top then do
      let (_, m) ← releaseHeapPage K c (va / PGSIZE) m
      return (m, .pages (va + PGSIZE))
    else .ok (m, .done)
  | .done => .error .disabled

def step (K : Machine) (s : Sys) : Label → Res Sys
  | .act a =>
    if Ordinary a then do
      let (_, m) ← kernelAct K a s.mem
      return afterAct s a m
    else .error .disabled
  | .wait q => if s.mem.life q = .live then .ok (doWait s q) else .error .disabled
  | .exit H c =>
    if s.exits H = none ∧ s.mem.life c = .live then
      .ok { setLife s c .zombie with exits := update s.exits H (some ⟨c, s.gen c, .lists exitLists⟩) }
    else .error .disabled
  | .clean H =>
    match s.exits H with
    | none => .error .disabled
    | some x =>
      if x.todo.busy then do
        let (m, todo) ← cleanStep K s.mem x.slot x.todo
        return { s with mem := m, exits := update s.exits H (some { x with todo := todo }) }
      else .ok { s with exits := update s.exits H none }

structure Init (K : Machine) (s : Sys) : Prop where
  mem : Booted K s.mem
  exits : s.exits = fun _ => none

/-! ## The calls of the clean-up -/

def Plain : Call → Prop
  | .grow | .releaseHeap => False
  | .get _ _ | .set _ _ _ | .freeList | .allocList | .setFreeList _ | .setAllocList _ | .heapTop | .unmap _ => True

section Calls

variable {cmp : Cmp} {f : Field} {n : ℕ}

theorem getField_plain (node : ℕ) : (getField f node).Calls Plain := by
  unfold getField
  split_ifs
  · trivial
  · exact calls_perform trivial

theorem setField_plain (node v : ℕ) : (setField f node v).Calls Plain := by
  unfold setField
  split_ifs
  · trivial
  · exact calls_perform trivial

theorem findPrev_plain (item prev : ℕ) : (findPrev item n prev).Calls Plain := by
  induction n generalizing prev with
  | zero => trivial
  | succ n ih =>
    unfold findPrev
    split_ifs
    · trivial
    · refine calls_bind (getField_plain prev) fun next => ?_
      split_ifs
      · trivial
      · exact ih next

theorem advance_plain (item prev cur : ℕ) : (advance cmp item n prev cur).Calls Plain := by
  induction n generalizing prev cur with
  | zero => trivial
  | succ n ih =>
    refine calls_bind (getField_plain cur) fun next => ?_
    split_ifs
    · exact ih cur next
    · trivial

theorem putBack_plain (head prev item : ℕ) : (putBack cmp head prev item).Calls Plain := by
  refine calls_bind (getField_plain item) fun size => ?_
  split_ifs
  · trivial
  · exact calls_bind (setField_plain item head) fun _ => trivial
  · refine calls_bind (advance_plain item prev head) fun (prev, cur) => ?_
    refine calls_bind (getField_plain cur) fun next => ?_
    split_ifs
    · exact calls_bind (setField_plain cur item) fun _ => calls_bind (setField_plain item 0) fun _ => trivial
    · exact calls_bind (setField_plain prev item) fun _ => calls_bind (setField_plain item cur) fun _ => trivial

theorem sortPdListAscend_plain (head item : ℕ) : (sortPdListAscend head item cmp).Calls Plain := by
  unfold sortPdListAscend
  split_ifs
  · trivial
  · exact calls_bind (getField_plain item) fun next => putBack_plain next next item
  · refine calls_bind (findPrev_plain item head) fun prev => ?_
    split_ifs
    · trivial
    · refine calls_bind (getField_plain item) fun next => ?_
      exact calls_bind (setField_plain prev next) fun _ => putBack_plain head prev item

theorem insertFreeBlock_plain (head block : ℕ) : (insertFreeBlock head block cmp).Calls Plain := by
  unfold insertFreeBlock
  split_ifs
  · trivial
  · exact calls_bind (setField_plain block 0) fun _ => trivial
  · exact calls_bind (setField_plain block head) fun _ => sortPdListAscend_plain block block

theorem sortLoop_plain (sorted cur : ℕ) : (sortLoop cmp n sorted cur).Calls Plain := by
  induction n generalizing sorted cur with
  | zero => trivial
  | succ n ih =>
    unfold sortLoop
    split_ifs
    · trivial
    · refine calls_bind (getField_plain cur) fun next => ?_
      exact calls_bind (insertFreeBlock_plain sorted cur) fun s => ih s next

theorem sortFreeListAscend_plain (head : ℕ) : (sortFreeListAscend head cmp).Calls Plain := by
  unfold sortFreeListAscend
  split_ifs
  · trivial
  · exact sortLoop_plain 0 head

theorem mergeLoop_plain (cur : ℕ) : (mergeLoop n cur).Calls Plain := by
  induction n generalizing cur with
  | zero => trivial
  | succ n ih =>
    refine calls_bind (getField_plain cur) fun next => ?_
    split_ifs
    · trivial
    · refine calls_bind (getField_plain cur) fun size => ?_
      split_ifs
      · refine calls_bind (getField_plain next) fun more => ?_
        refine calls_bind (setField_plain cur _) fun _ => ?_
        refine calls_bind (getField_plain next) fun next' => ?_
        exact calls_bind (setField_plain cur next') fun _ => ih cur
      · exact ih next

theorem mergeFreeBlocks_plain (head : ℕ) : (mergeFreeBlocks head cmp).Calls Plain := by
  unfold mergeFreeBlocks
  split_ifs
  · trivial
  · grind [calls_bind, sortFreeListAscend_plain, mergeLoop_plain]

theorem release_plain (block free : ℕ) : (release block free).Calls Plain := by
  refine calls_bind (setField_plain block free) fun _ => ?_
  exact calls_bind (sortPdListAscend_plain block block) fun free => mergeFreeBlocks_plain free

theorem freeLoop_plain (addr free alloc prev block : ℕ) : (freeLoop addr free alloc n prev block).Calls Plain := by
  induction n generalizing prev block with
  | zero => trivial
  | succ n ih =>
    unfold freeLoop
    split_ifs
    · trivial
    · refine calls_bind (getField_plain block) fun size => ?_
      refine calls_bind (setField_plain block 0) fun _ => calls_bind (getField_plain block) fun next => ?_
      exact calls_bind (setField_plain prev next) fun _ => calls_bind (release_plain block free) fun _ => trivial
    · refine calls_bind (getField_plain block) fun size => ?_
      exact calls_bind (getField_plain block) fun next => ih block next

theorem memFree_plain (va : ℕ) : (memFree va).Calls Plain := by
  refine calls_bind (calls_perform trivial) fun free => ?_
  refine calls_bind (calls_perform trivial) fun alloc => ?_
  refine calls_bind ?_ fun (_, free', alloc') => ?_
  · unfold firstFitFree
    split_ifs
    · trivial
    · refine calls_bind (getField_plain alloc) fun size => ?_
      refine calls_bind (setField_plain alloc 0) fun _ => calls_bind (getField_plain alloc) fun rest => ?_
      exact calls_bind (release_plain alloc free) fun _ => trivial
    · refine calls_bind (getField_plain alloc) fun size => ?_
      exact calls_bind (getField_plain alloc) fun next => freeLoop_plain va free alloc alloc next
  · exact calls_bind (calls_perform trivial) fun _ => calls_perform trivial

theorem exitFrees_plain : (exitFrees n).Calls Plain := by
  induction n with
  | zero => trivial
  | succ n ih =>
    refine calls_bind (calls_perform trivial) fun item => ?_
    split_ifs
    · trivial
    · exact calls_bind (memFree_plain item) fun _ => ih

theorem exitUnmaps_plain (item : ℕ) : (exitUnmaps n item).Calls Plain := by
  induction n generalizing item with
  | zero => trivial
  | succ n ih =>
    unfold exitUnmaps
    split_ifs
    · trivial
    · refine calls_bind (getField_plain item) fun next => ?_
      refine calls_bind (getField_plain item) fun size => ?_
      split_ifs
      · exact calls_bind (calls_perform trivial) fun _ => calls_bind (calls_perform trivial) fun _ => ih next
      · exact calls_bind (calls_perform trivial) fun _ => ih next

theorem exitLists_plain : exitLists.Calls Plain := by
  refine calls_bind (calls_bind exitFrees_plain fun _ => ?_) fun head => exitUnmaps_plain head
  refine calls_bind (calls_perform trivial) fun free => calls_bind (sortFreeListAscend_plain free) fun _ => ?_
  refine calls_bind (calls_perform trivial) fun _ => calls_bind (calls_perform trivial) fun free => ?_
  exact calls_bind (mergeFreeBlocks_plain free) fun _ => calls_bind (calls_perform trivial) fun _ =>
    calls_perform trivial

end Calls

/-! ## What a step of the clean-up touches -/

variable {K : Machine} {m m' : St} {c q : Slot} {x : Exit} {H : Hart} {s s' : Sys} {l : Label} {t t' : Cleanup}

def Cleanup.page : Cleanup → Option ℕ
  | .lists (.call (.set _ node _) _) => some (node / PGSIZE)
  | .lists (.call (.unmap va) _) => some (va / PGSIZE)
  | .pages heap_va => some (heap_va / PGSIZE)
  | .lists _ | .done => none

def Cleanup.header : Cleanup → Option ℕ
  | .lists (.call (.set _ node _) _) => some node
  | .lists _ | .pages _ | .done => none

/-- a header that the step writes lies in one page, and the kernel does not keep that page -/
def InOnePage (K : Machine) (m : St) (c : Slot) (t : Cleanup) : Prop :=
  ∀ node ∈ t.header, InPage node ∧ ¬ Foreign K m (lookupPa (m.proc c) node)

/-- only the fields and the page table of slot `c` change, and bytes of its page `v` -/
structure Within (c : Slot) (v : Option ℕ) (m m' : St) : Prop where
  others : ∀ q, q ≠ c → m'.proc q = m.proc q
  bytes : ∀ f, (∀ w ∈ v, ∀ a, leafAt m c w = some a → a.ppn ≠ f) → pageOf m'.mem f = pageOf m.mem f

variable {v : ℕ} {o : Option ℕ}

theorem Within.refl : Within c o m m := ⟨fun _ _ => rfl, fun _ _ => rfl⟩

theorem within_modProc {pr : Memory.Proc} : Within c o m { m with proc := update m.proc c pr } :=
  ⟨fun _ hq => update_of_ne hq _ _, fun _ _ => rfl⟩

theorem within_unmapPage (h : Memory.unmapPage K c true v m = .ok ((), m')) : Within c (some v) m m' := by
  obtain ⟨pte, hpte, -, rfl⟩ := Memory.unmapPage_run h
  refine ⟨fun q hq => ?_, fun f hf => ?_⟩
  · simp [Memory.St.withLeaf, hq]
  · funext i
    apply Memory.unref_mem
    have hne := hf v rfl pte hpte
    simp only [PGSIZE] at *
    omega

theorem within_set {f : Field} {node x : ℕ} {r : Unit} (h : kernel K c (.set f node x) m = .ok (r, m'))
    (hin : InPage node ∧ ¬ Foreign K m (lookupPa (m.proc c) node)) : Within c (some (node / PGSIZE)) m m' := by
  rw [kernel, run_get_bind] at h
  obtain ⟨h0, h⟩ := run_guard h
  -- the page behind the header is one that the slot maps
  have hl : lookupPa (m.proc c) node ≠ 0 := by
    intro hl
    rw [userVaToPa, if_pos hl] at h0
    exact h0 rfl
  obtain ⟨a, ha⟩ : ∃ a, leafAt m c (node / PGSIZE) = some a := by
    cases ha : leafAt m c (node / PGSIZE) with
    | some a => exact ⟨a, rfl⟩
    | none => grind [leafAt, lookupPa]
  have hppn : lookupPa (m.proc c) node = a.ppn := Memory.lookupPa_eq hl ha
  have hpa : userVaToPa (m.proc c) node = a.ppn * PGSIZE + node % PGSIZE := by
    rw [userVaToPa, if_neg hl, hppn]
  have hf := field_inside (f := f)
  have hw : 0 < f.width := by cases f <;> decide
  have hpage : node % PGSIZE + PD ≤ PGSIZE := hin.1
  -- it is not a page table
  have hentry : tableEntry m f (userVaToPa (m.proc c) node) = none := by
    have hframe : (userVaToPa (m.proc c) node + f.offset) / PGSIZE = a.ppn := by
      rw [hpa]
      simp only [PGSIZE, PD] at *
      omega
    have hkept : m.kept a.ppn = none := by
      rw [← hppn]
      exact Option.not_isSome_iff_eq_none.1 fun hk => hin.2 (.inr (.inr (.inr hk)))
    rw [tableEntry, hframe, hkept]
  rw [hentry] at h
  obtain ⟨-, h⟩ := run_guard h
  cases h
  refine ⟨fun _ _ => rfl, fun g hg => ?_⟩
  have hne := hg _ rfl a ha
  funext i
  apply storeN_of_not
  rw [hpa]
  simp only [PGSIZE, PD] at *
  omega

theorem within_unmap {va : ℕ} {r : Unit} (h : kernel K c (.unmap va) m = .ok (r, m')) :
    Within c (some (va / PGSIZE)) m m' := by
  rw [kernel, Memory.userVmUnmap] at h
  split_ifs at h
  · cases h
  · obtain ⟨_, m1, h1, h2⟩ := run_bind.1 h
    cases h2
    exact within_unmapPage h1

theorem within_page {r : Unit} (h : releaseHeapPage K c v m = .ok (r, m')) : Within c (some v) m m' := by
  obtain ⟨b, m1, h1, h2⟩ := run_bind.1 h
  obtain ⟨rfl, -, -⟩ := Memory.pageWalk_false_run h1
  cases b with
  | false =>
    cases h2
    exact .refl
  | true =>
    rw [if_pos rfl, run_get_bind] at h2
    split_ifs at h2
    · exact within_unmapPage h2
    · cases h2
      exact .refl

def TodoPlain : Cleanup → Prop
  | .lists rest => rest.Calls Plain
  | .pages _ | .done => True

/-- **A step of the clean-up stays in its slot.** It changes the fields and the page table of slot `c` and the bytes of
the page that it writes to or gives back, and nothing else. -/
theorem clean_within (hp : TodoPlain t) (hin : InOnePage K m c t) (h : cleanStep K m c t = .ok (m', t')) :
    Within c t.page m m' := by
  cases t with
  | done => cases h
  | pages va =>
    simp only [cleanStep] at h
    split_ifs at h
    · obtain ⟨⟨_, m1⟩, h1, h2⟩ := bind_ok.1 h
      cases h2
      exact within_page h1
    · cases h
      exact .refl
  | lists rest =>
    cases rest with
    | ret a =>
      cases h
      exact .refl
    | stop e => cases h
    | call o k =>
      obtain ⟨⟨r, m1⟩, h1, h2⟩ := bind_ok.1 h
      cases h2
      cases o with
      | get f node =>
        rw [kernel, run_get_bind] at h1
        obtain ⟨-, h1⟩ := run_guard h1
        obtain ⟨-, h1⟩ := run_guard h1
        cases h1
        exact .refl
      | set f node v => exact within_set h1 (hin node rfl)
      | unmap va => exact within_unmap h1
      | setFreeList node | setAllocList node =>
        cases h1
        exact within_modProc
      | freeList | allocList | heapTop =>
        cases h1
        exact .refl
      | grow | releaseHeap => exact hp.1.elim

theorem todoPlain_step (hp : TodoPlain t) (h : cleanStep K m c t = .ok (m', t')) : TodoPlain t' := by
  cases t with
  | done => cases h
  | pages va =>
    simp only [cleanStep] at h
    split_ifs at h
    · obtain ⟨_, -, h2⟩ := bind_ok.1 h
      cases h2
      trivial
    · cases h
      trivial
  | lists rest =>
    cases rest with
    | ret a =>
      cases h
      trivial
    | stop e => cases h
    | call o k =>
      obtain ⟨⟨r, m1⟩, -, h2⟩ := bind_ok.1 h
      cases h2
      exact hp.2 r

/-! ## Runs -/

/-- the condition on a step: a slot is not handed out while an exit is still in its clean-up -/
def Vacant (s : Sys) : Label → Prop
  | .act a => ∀ i par, born s a = some (i, par) → ∀ H x, s.exits H = some x → x.todo.busy = true → x.slot ≠ i
  | _ => True

structure ExitInv (s : Sys) : Prop where
  own : ∀ H x, s.exits H = some x → x.todo.busy = true → s.gen x.slot = x.gen
  plain : ∀ H x, s.exits H = some x → TodoPlain x.todo

theorem ExitInv.update (h : ExitInv s) {y : Option Exit} (hgen : s'.gen = s.gen)
    (hexits : s'.exits = update s.exits H y)
    (hy : ∀ x, y = some x → (x.todo.busy = true → s.gen x.slot = x.gen) ∧ TodoPlain x.todo) : ExitInv s' := by
  have hcases : ∀ g x, s'.exits g = some x → y = some x ∨ s.exits g = some x := by
    intro g x hx
    rw [hexits] at hx
    by_cases hg : g = H
    · subst hg
      rw [update_self] at hx
      exact .inl hx
    · rw [update_of_ne hg] at hx
      exact .inr hx
  refine ⟨fun g x hx hbusy => ?_, fun g x hx => ?_⟩
  · rw [hgen]
    rcases hcases g x hx with hx | hx
    · exact (hy x hx).1 hbusy
    · exact h.own g x hx hbusy
  · rcases hcases g x hx with hx | hx
    · exact (hy x hx).2
    · exact h.plain g x hx

theorem exitInv_step (h : ExitInv s) (hc : Vacant s l) (hst : step K s l = .ok s') : ExitInv s' := by
  cases l with
  | act a =>
    simp only [step] at hst
    split_ifs at hst
    obtain ⟨⟨_, m⟩, -, h2⟩ := bind_ok.1 hst
    cases h2
    unfold afterAct
    cases hb : born s a with
    | none => exact ⟨h.own, h.plain⟩
    | some ip =>
      obtain ⟨i, par⟩ := ip
      refine ⟨fun H x hx hbusy => ?_, h.plain⟩
      have hne : x.slot ≠ i := hc i par hb H x hx hbusy
      exact (update_of_ne hne _ _).trans (h.own H x hx hbusy)
  | wait q =>
    simp only [step] at hst
    split_ifs at hst
    cases hst
    unfold doWait
    split
    · exact h
    · split_ifs
      · exact ⟨h.own, h.plain⟩
      · exact h
  | exit H c =>
    simp only [step] at hst
    split_ifs at hst
    cases hst
    refine h.update rfl rfl fun x hx => ?_
    cases hx
    exact ⟨fun _ => rfl, exitLists_plain⟩
  | clean H =>
    simp only [step] at hst
    cases hx : s.exits H with
    | none => simp [hx] at hst
    | some x =>
      simp only [hx] at hst
      split_ifs at hst with hbusy
      · obtain ⟨⟨m, todo⟩, h1, h2⟩ := bind_ok.1 hst
        cases h2
        refine h.update rfl rfl fun y hy => ?_
        cases hy
        exact ⟨fun _ => h.own H x hx hbusy, todoPlain_step (h.plain H x hx) h1⟩
      · cases hst
        exact h.update rfl rfl fun y hy => by cases hy

/-- the page that the next step writes to or gives back is in the heap of no other process -/
def Unshared (m : St) (c : Slot) (t : Cleanup) : Prop :=
  ∀ v ∈ t.page, ∀ a, leafAt m c v = some a → ∀ q, q ≠ c → ∀ w ∈ Memory.heapPages (m.proc q), ∀ b,
    leafAt m q w = some b → a.ppn ≠ b.ppn

/-- the exit on the hart is in the clean-up -/
def Cleaning (s : Sys) (H : Hart) (x : Exit) : Prop := s.exits H = some x ∧ x.todo.busy = true

/-- what the next step of an exit may touch: the slot is still that of the instance that exits, and the step changes no
field and no page table entry of another process, and no byte in the pages of its heap -/
def StaysWithin (K : Machine) (s : Sys) (H : Hart) (x : Exit) : Prop :=
  s.gen x.slot = x.gen ∧
    ∀ s', step K s (.clean H) = .ok s' → ∀ q, q ≠ x.slot → s'.mem.proc q = s.mem.proc q ∧
      ∀ w ∈ Memory.heapPages (s.mem.proc q), ∀ b, leafAt s.mem q w = some b →
        pageOf s'.mem.mem b.ppn = pageOf s.mem.mem b.ppn

/-- **A slot is not recycled while its process is still exiting.** In every run in which no slot is handed out while an
exit of it is in the clean-up, a step of a clean-up goes to the instance that exits: the slot still belongs to it, and
the step changes no field, list head or page table entry of another process, nor any byte of its heap. The step itself
writes no header across the end of a page or into a page of the kernel, and no page that it shares with the heap of
another process. -/
theorem exit_within (hs : Reach (step K) Vacant (Init K) s) (hx : Cleaning s H x)
    (hin : InOnePage K s.mem x.slot x.todo) (hun : Unshared s.mem x.slot x.todo) : StaysWithin K s H x := by
  have h : ExitInv s := by
    refine hs.inv (fun t ht => ?_) fun t l t' ht hc hst => exitInv_step ht hc hst
    refine ⟨fun g y hy => ?_, fun g y hy => ?_⟩
    · rw [ht.exits] at hy
      cases hy
    · rw [ht.exits] at hy
      cases hy
  refine ⟨h.own H x hx.1 hx.2, fun s' hst q hq => ?_⟩
  simp only [step, hx.1, hx.2, if_true] at hst
  obtain ⟨⟨m, todo⟩, h1, h2⟩ := bind_ok.1 hst
  cases h2
  have hw := clean_within (h.plain H x hx.1) hin h1
  exact ⟨hw.others q hq, fun w hwq b hb => hw.bytes b.ppn fun v hv a ha => hun v hv a ha q hq w hwq b hb⟩

/-! ## Two runs -/

def start : Sys := ⟨Memory.bootState, fun _ => 0, fun _ => none, fun _ => none⟩

theorem start_init : Init Memory.board start := ⟨Memory.bootState_booted, rfl⟩

def vacant (s : Sys) : Label → Bool
  | .act a =>
    match born s a with
    | none => true
    | some (i, _) => (List.finRange NCPU).all fun H =>
      match s.exits H with
      | none => true
      | some x => !(x.todo.busy && decide (x.slot = i))
  | _ => true

theorem vacant_sound (s : Sys) (l : Label) (h : vacant s l = true) : Vacant s l := by
  cases l with
  | act a =>
    intro i par hb H x hx hbusy he
    simp only [vacant, hb, List.all_eq_true] at h
    grind
  | wait | exit | clean => trivial

def cleaning (s : Sys) (H : Hart) : Option (Slot × ℕ) :=
  (s.exits H).bind fun x => if x.todo.busy then some (x.slot, x.gen) else none

theorem cleaning_exit {g : ℕ} (h : cleaning s H = some (c, g)) : ∃ x, Cleaning s H x ∧ x.slot = c ∧ x.gen = g := by
  unfold cleaning at h
  cases hx : s.exits H with
  | none => simp [hx] at h
  | some x =>
    simp only [hx, Option.bind_some] at h
    split_ifs at h with hb
    cases h
    exact ⟨x, ⟨hx, hb⟩, rfl, rfl⟩

instance (K : Machine) (m : St) (c : Slot) (t : Cleanup) : Decidable (InOnePage K m c t) :=
  inferInstanceAs (Decidable (∀ node ∈ t.header, _))

instance (m : St) (c : Slot) (t : Cleanup) : Decidable (Unshared m c t) :=
  inferInstanceAs (Decidable (∀ v ∈ t.page, _))

def childExits : List Label := [.act (.spawn []), .act (.call 0 (.malloc 8)), .act (.fork 0), .exit 1 1]

def forkOnly : List Label :=
  [.act (.spawn []), .act (.call 0 (.malloc 8)), .act (.fork 0), .act (.store 1 0 0x400018 7), .exit 1 1] ++
    List.replicate 20 (.clean 1) ++ [.act (.fork 0)] ++ List.replicate 14 (.clean 1)

def forkOnlyTodo : Cleanup := ((exec (step Memory.board) start forkOnly).exits 1).elim .done Exit.todo

theorem exit_within_forkOnly : ∃ x, Cleaning (exec (step Memory.board) start forkOnly) 1 x ∧ x.slot = 1 ∧
    x.todo.page = some 0x400 ∧ StaysWithin Memory.board (exec (step Memory.board) start forkOnly) 1 x := by
  obtain ⟨x, hx, hs, -⟩ := cleaning_exit (s := exec (step Memory.board) start forkOnly) (H := 1) (c := 1) (g := 1)
    (by decide +kernel)
  have htodo : forkOnlyTodo = x.todo := by rw [forkOnlyTodo, hx.1, Option.elim_some]
  have hpage : forkOnlyTodo.page = some 0x400 := by decide +kernel
  have hin : InOnePage Memory.board (exec (step Memory.board) start forkOnly).mem 1 forkOnlyTodo := by decide +kernel
  have hun : Unshared (exec (step Memory.board) start forkOnly).mem 1 forkOnlyTodo := by decide +kernel
  rw [htodo] at hpage hin hun
  rw [← hs] at hin hun
  exact ⟨x, hx, hs, hpage, exit_within (reach_exec vacant_sound forkOnly start (.init start_init) (by decide +kernel))
    hx hin hun⟩

def waitAndFork : List Label := childExits ++ [.wait 0, .act (.fork 0)] ++ List.replicate 30 (.clean 1)

/-- the child that exited was the first process in slot 1; the clean-up takes the block out of the alloc list of the
second -/
theorem exit_trespasses :
    Reach (step Memory.board) (fun _ _ => True) (Init Memory.board) (exec (step Memory.board) start waitAndFork) ∧
      (∃ x, Cleaning (exec (step Memory.board) start waitAndFork) 1 x ∧ x.slot = 1 ∧ x.gen = 1 ∧
        ¬ StaysWithin Memory.board (exec (step Memory.board) start waitAndFork) 1 x) ∧
      (exec (step Memory.board) start waitAndFork).gen 1 = 2 ∧
      ((exec (step Memory.board) start waitAndFork).mem.proc 1).alloc_list = 0x400000 ∧
      ((exec (step Memory.board) start (waitAndFork ++ [.clean 1])).mem.proc 1).alloc_list = 0 := by
  have hgen : (exec (step Memory.board) start waitAndFork).gen 1 = 2 := by decide +kernel
  refine ⟨reach_decide waitAndFork start (.init start_init) (by decide +kernel),
    ?_, hgen, by decide +kernel, by decide +kernel⟩
  obtain ⟨x, hx, hs, hg⟩ := cleaning_exit (s := exec (step Memory.board) start waitAndFork) (H := 1) (c := 1) (g := 1)
    (by decide +kernel)
  refine ⟨x, hx, hs, hg, fun hw => ?_⟩
  have := hw.1
  rw [hs, hg, hgen] at this
  cases this

end RiscvPke.Heap.Exiting
