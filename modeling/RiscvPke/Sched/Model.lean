/-
The process scheduler of the kernel: kernel/sched.c, the queues of kernel/semaphore.c, the exit, wait and yield system
calls of kernel/syscall.c, trap entry and round robin of kernel/strap.c, and the slot allocation of kernel/process.c.
-/
import Mathlib.Data.Fintype.Basic
import RiscvPke.Core.Chain
import RiscvPke.Core.System
import RiscvPke.Kernel.Basic

namespace RiscvPke.Sched

open Function

/-! ## State -/

/-- an index into `semaphores[NSEMAPHORE]` -/
abbrev SemIx := Fin NSEMAPHORE

/-- the queue heads; all queues are linked through `queue_next` -/
inductive Queue where
  | ready (h : Hart)
  | block (h : Hart)
  | sem (i : SemIx)
deriving DecidableEq, Repr

/-- the registers of the trapframe that the scheduler's code reads or writes -/
structure Trapframe where
  a0 : ℤ
  a1 : ℤ
  tp : Hart
deriving DecidableEq, Repr

/-- `semaphore` without its queue head -/
structure Sem where
  sem_id : ℤ
  value : ℤ
  /-- `status == SEM_USED` -/
  used : Bool
deriving DecidableEq, Repr

/-- what a hart is doing between two steps -/
inductive Phase where
  /-- in `s_start`, in front of its call of `schedule()` -/
  | boot
  /-- executes user code of the process; `sscratch` points to its trapframe -/
  | user (p : Slot)
  /-- spins in the waiting loop of `schedule()` -/
  | idle
  /-- went into `sync_barrier(&exit_counter, NCPU)` -/
  | parked
deriving DecidableEq, Repr

/-- a wait call that gave a value back to its caller -/
structure WaitDone where
  caller : Slot
  pid : ℤ
  /-- `a0` when user code of the caller goes on -/
  r : ℤ
  /-- the slot and generation that this call changed from ZOMBIE to FREE -/
  freed : Option (Slot × ℕ)
deriving DecidableEq, Repr

/-- history variables -/
structure Ghost where
  /-- how often `alloc_process` handed out the slot: slot and generation name a process instance -/
  gen : Slot → ℕ
  /-- the instance that forked the instance in the slot -/
  forker : Slot → Option (Slot × ℕ)
  /-- the argument of the wait call in which the process is blocked -/
  waiting : Slot → Option ℤ
  /-- the instance that the last wait call of the process has changed from ZOMBIE to FREE -/
  freed : Slot → Option (Slot × ℕ)
  /-- the wait calls that have resumed their callers, newest first -/
  waits : List WaitDone

structure St where
  status : Slot → Status
  parent : Slot → Option Slot
  queue_next : Slot → Option Slot
  tick_count : Slot → ℕ
  trapframe : Slot → Trapframe
  g_proc_reserved : Slot → Bool
  head : Queue → Option Slot
  semaphores : SemIx → Sem
  g_next_semaphore_id : ℤ
  current : Hart → Option Slot
  g_should_shutdown : Bool
  phase : Hart → Phase
  /-- the `tp` register of the hart -/
  tp : Hart → Hart
  gh : Ghost

/-- where `read_tp()` gets the hart id from -/
inductive TpMode where
  | ideal
  | register
deriving DecidableEq, Repr

def readTp (m : TpMode) (s : St) (H : Hart) : Hart :=
  match m with
  | .ideal => H
  | .register => s.tp H

/-! ## Queues -/

def releaseProcSlotReservation (s : St) (p : Slot) : St :=
  { s with g_proc_reserved := update s.g_proc_reserved p false }

/-- what the three insertion functions do to head and links, with the status given to a process that is inserted -/
def enqueue (s : St) (k : Queue) (proc : Slot) (st : Status) : Res St :=
  match s.head k with
  | none =>
    .ok { s with
      status := update s.status proc st
      queue_next := update s.queue_next proc none
      head := update s.head k (some proc) }
  | some p =>
    match Chain.scan s.queue_next proc NPROC p with
    | none => .error .endlessLoop
    | some .found => .ok s
    | some (.tail last) =>
      .ok { s with
        status := update s.status proc st
        queue_next := update (update s.queue_next last (some proc)) proc none }

/-- a ZOMBIE is inserted like any other process but stays ZOMBIE -/
def insertToSpecificReadyQueue (s : St) (proc : Slot) (target : Hart) : Res St :=
  let s := releaseProcSlotReservation s proc
  enqueue s (.ready target) proc (if s.status proc = .zombie then .zombie else .ready)

def insertToReadyQueue (s : St) (hartid : Hart) (proc : Slot) : Res St :=
  insertToSpecificReadyQueue s proc hartid

def insertToBlockQueue (s : St) (k : Queue) (proc : Slot) : Res St :=
  enqueue s k proc .blocked

/-- take `p`, found behind `prev`, out of the queue -/
def unlink (s : St) (k : Queue) (prev : Option Slot) (p : Slot) : St :=
  match prev with
  | none =>
    { s with
      head := update s.head k (s.queue_next p)
      queue_next := update s.queue_next p none }
  | some b =>
    { s with queue_next := update (update s.queue_next b (s.queue_next p)) p none }

/-- the loop that `remove_from_block_queue` and `wake_from_block_queue` share -/
def takeFrom (s : St) (k : Queue) (hit : Slot → Bool) : Res (St × Option Slot) :=
  match Chain.find s.queue_next hit NPROC none (s.head k) with
  | none => .error .endlessLoop
  | some none => .ok (s, none)
  | some (some (prev, p)) => .ok (unlink s k prev p, some p)

def removeFromBlockQueue (s : St) (k : Queue) (proc : Option Slot) : Res (St × Option Slot) :=
  takeFrom s k fun p => some p = proc

/-- `p->pid == child_process->parent->pid` reads through the parent pointer as soon as the queue has an element -/
def wakeFromBlockQueue (s : St) (h : Hart) (child : Slot) : Res (St × Option Slot) :=
  match s.head (.block h), s.parent child with
  | none, _ => .ok (s, none)
  | some _, none => .error .nullPointer
  | some _, some par => takeFrom s (.block h) fun p => p = par

def pickAndRemoveFromBlockQueue (s : St) (k : Queue) : Res (St × Option Slot) :=
  removeFromBlockQueue s k (s.head k)

/-! ## schedule -/

/-- `switch_to` and `return_to_user`: the process goes on in user mode with the registers of its trapframe -/
def switchTo (s : St) (H hartid : Hart) (p : Slot) : St :=
  { s with
    current := update s.current hartid (some p)
    phase := update s.phase H (.user p)
    tp := update s.tp H (s.trapframe p).tp
    gh :=
      match s.gh.waiting p with
      | none => s.gh
      | some pid =>
        { s.gh with
          waiting := update s.gh.waiting p none
          waits := ⟨p, pid, (s.trapframe p).a0, s.gh.freed p⟩ :: s.gh.waits } }

/-- the tail of `schedule()`, with a ready process at hand -/
def dispatch (s : St) (H hartid : Hart) (p : Slot) : Res St :=
  let s := { s with current := update s.current hartid (some p) }
  if s.status p = .ready then
    .ok (switchTo
      { s with
        head := update s.head (.ready hartid) (s.queue_next p)
        status := update s.status p .running } H hartid p)
  else .error (.assertion "current[hartid]->status == READY")

def globalAllDone (s : St) : Bool := decide (∀ i, s.status i = .free ∨ s.status i = .zombie)

def schedule (s : St) (H hartid : Hart) : Res St :=
  match s.head (.ready hartid) with
  | some p => dispatch s H hartid p
  | none =>
    if globalAllDone s then
      .ok { s with g_should_shutdown := true, phase := update s.phase H .parked }
    else .ok { s with phase := update s.phase H .idle }

/-- one turn of the waiting loop of `schedule()` and what follows it -/
def idleLoop (s : St) (H hartid : Hart) : Res St :=
  if s.g_should_shutdown then .ok { s with phase := update s.phase H .parked }
  else match s.head (.ready hartid) with
    | some p => dispatch s H hartid p
    | none => .ok s

/-! ## Process slots -/

/-- the first slot that is FREE and not reserved -/
def freeSlot (s : St) : Option Slot :=
  (List.finRange NPROC).find? fun i => s.status i = .free ∧ s.g_proc_reserved i = false

/-- reserve the slot and give it a fresh trapframe -/
def initProc (s : St) (hartid : Hart) (i : Slot) : St :=
  { s with
    g_proc_reserved := update s.g_proc_reserved i true
    trapframe := update s.trapframe i ⟨0, 0, hartid⟩
    gh := { s.gh with gen := update s.gh.gen i (s.gh.gen i + 1) } }

def allocProcess (s : St) (hartid : Hart) : Res (St × Slot) :=
  match freeSlot s with
  | none => .error (.panic "cannot find any free process structure.\n")
  | some i => .ok (initProc s hartid i, i)

def freeProcess (s : St) (p : Slot) : St := { s with status := update s.status p .zombie }

/-! ## System calls -/

def setA0 (s : St) (p : Slot) (r : ℤ) : St :=
  { s with trapframe := update s.trapframe p { s.trapframe p with a0 := r } }

/-- a system call that returns to its caller: `handle_syscall` sets a0, then `switch_to(current[hartid])` -/
def sysReturn (s : St) (H hartid : Hart) (cur : Slot) (r : ℤ) : St := switchTo (setA0 s cur r) H hartid cur

/-- the part of `do_fork` and `do_fork_to_hart` that the scheduler sees: the child gets a copy of the parent's
trapframe, and its slot goes to the ready queue of the target hart -/
def forkChild (s : St) (child parent : Slot) (tp : Hart) : St :=
  { s with
    trapframe := update s.trapframe child { s.trapframe parent with a0 := 0, tp := tp }
    status := update s.status child .ready
    parent := update s.parent child (some parent)
    gh := { s.gh with forker := update s.gh.forker child (some (parent, s.gh.gen parent)) } }

def doFork (s : St) (hartid : Hart) (parent : Slot) : Res (St × Slot) := do
  let (s, child) ← allocProcess s hartid
  -- `*child->trapframe = *parent->trapframe` takes the tp of the parent along
  let s := forkChild s child parent (s.trapframe parent).tp
  let s ← insertToReadyQueue s hartid child
  return (s, child)

def doForkToHart (s : St) (hartid : Hart) (parent : Slot) (target : Hart) : Res (St × Slot) := do
  let (s, child) ← allocProcess s hartid
  let s := forkChild s child parent target
  let s ← insertToSpecificReadyQueue s child target
  return (s, child)

/-- what `do_wait` decides: return a value, having freed a slot or not, or block the caller -/
inductive WaitOutcome where
  | ret (r : ℤ) (freed : Option Slot)
  | block
deriving DecidableEq, Repr

/-- where the loop of `do_wait` for pid -1 ends: the first child slot that is not FREE -/
def firstChild (s : St) (cur : Slot) : Option Slot :=
  (List.finRange NPROC).find? fun i => s.parent i = some cur ∧ s.status i ≠ .free

/-- the tests of `do_wait`. For a positive pid only the parent link is tested; for -1 the first child slot that is not
FREE decides, ZOMBIE or not. -/
def doWait (s : St) (cur : Slot) (pid : ℤ) : WaitOutcome :=
  if 0 < pid then
    if h : pid.toNat < NPROC then
      if s.parent ⟨pid.toNat, h⟩ = some cur then .block else .ret (-1) none
    else .ret (-1) none
  else if pid = -1 then
    match firstChild s cur with
    | none => .ret (-1) none
    | some i => if s.status i = .zombie then .ret i (some i) else .block
  else .ret (-1) none

/-- the history of a wait call that returns to its caller, and what it has freed -/
def Ghost.answered (g : Ghost) (cur : Slot) (pid r : ℤ) (freed : Option (Slot × ℕ)) : Ghost :=
  { g with
    freed := update g.freed cur freed
    waits := ⟨cur, pid, r, freed⟩ :: g.waits }

/-- the history of a wait call that blocks, having freed nothing -/
def Ghost.blocked (g : Ghost) (cur : Slot) (pid : ℤ) : Ghost :=
  { g with
    waiting := update g.waiting cur (some pid)
    freed := update g.freed cur none }

def sysUserWait (s : St) (H hartid : Hart) (cur : Slot) (pid : ℤ) : Res St :=
  match doWait s cur pid with
  | .ret r none => .ok (sysReturn { s with gh := s.gh.answered cur pid r none } H hartid cur r)
  | .ret r (some i) =>
    .ok (sysReturn { s with
      status := update s.status i .free
      gh := s.gh.answered cur pid r (some (i, s.gh.gen i)) } H hartid cur r)
  | .block => do
    let s := { s with status := update s.status cur .blocked }
    let s ← insertToBlockQueue s (.block hartid) cur
    schedule { s with gh := s.gh.blocked cur pid } H hartid

/-- the loop of `sys_user_exit` over the block queues of all harts -/
def wakeParent (s : St) (child : Slot) : List Hart → Res (St × Option (Slot × Hart))
  | [] => .ok (s, none)
  | h :: hs => do
    let (s, tmp) ← wakeFromBlockQueue s h child
    match tmp with
    | some p => return (s, some (p, h))
    | none => wakeParent s child hs

def sysUserExit (s : St) (H hartid : Hart) (cur : Slot) : Res St := do
  let (s, tmp) ← wakeParent s cur (List.finRange NCPU)
  let s := freeProcess s cur
  match tmp with
  | none => schedule s H hartid
  | some (p, h) =>
    let s := { s with status := update s.status p .ready }
    let s ← insertToSpecificReadyQueue s p h
    schedule s H hartid

def sysUserYield (s : St) (H hartid : Hart) (cur : Slot) : Res St := do
  let s := { s with status := update s.status cur .ready }
  let s ← insertToReadyQueue s hartid cur
  schedule s H hartid

def TIME_SLICE_LEN : ℕ := 2

def rrsched (s : St) (H hartid : Hart) (cur : Slot) : Res St :=
  if TIME_SLICE_LEN ≤ s.tick_count cur + 1 then do
    let s := { s with
      tick_count := update s.tick_count cur 0
      status := update s.status cur .ready }
    let s ← insertToReadyQueue s hartid cur
    schedule s H hartid
  else .ok (switchTo { s with tick_count := update s.tick_count cur (s.tick_count cur + 1) } H hartid cur)

/-! ## Semaphores -/

def allocSemaphore (s : St) : St × Option SemIx :=
  let id := s.g_next_semaphore_id
  let s := { s with g_next_semaphore_id := id + 1 }
  match (List.finRange NSEMAPHORE).find? fun i => (s.semaphores i).used = false with
  | none => (s, none)
  | some i =>
    ({ s with semaphores := update s.semaphores i { s.semaphores i with sem_id := id, used := true } }, some i)

def getSemaphore (s : St) (semid : ℤ) : Option SemIx :=
  (List.finRange NSEMAPHORE).find? fun i => (s.semaphores i).sem_id = semid ∧ (s.semaphores i).used = true

def sysUserSemNew (s : St) (initval : ℤ) : St × ℤ :=
  match allocSemaphore s with
  | (s, none) => (s, -1)
  | (s, some i) =>
    ({ s with semaphores := update s.semaphores i { s.semaphores i with value := initval } },
      (s.semaphores i).sem_id)

def addValue (s : St) (i : SemIx) (d : ℤ) : St :=
  { s with semaphores := update s.semaphores i { s.semaphores i with value := (s.semaphores i).value + d } }

def semaphoreP (s : St) (H hartid : Hart) (cur : Slot) (i : SemIx) : Res St :=
  let s := addValue s i (-1)
  if (s.semaphores i).value < 0 then do
    let s := { s with status := update s.status cur .blocked }
    let s ← insertToBlockQueue s (.sem i) cur
    schedule s H hartid
  else .ok (sysReturn s H hartid cur 0)

/-- the woken process goes to the ready queue of the hart that executes the V -/
def semaphoreV (s : St) (H hartid : Hart) (cur : Slot) (i : SemIx) : Res St :=
  let s := addValue s i 1
  if (s.semaphores i).value ≤ 0 then do
    let (s, proc) ← pickAndRemoveFromBlockQueue s (.sem i)
    match proc with
    | none => .error (.panic "semaphore_V: no process to wake up.\n")
    | some p =>
      let s := { s with status := update s.status p .ready }
      let s ← insertToReadyQueue s hartid p
      return sysReturn s H hartid cur 0
  else .ok (sysReturn s H hartid cur 0)

/-! ## Steps -/

/-- a kernel entry from user mode -/
inductive Entry where
  | fork
  | forkTo (target : ℤ)
  | yield
  /-- the timer interrupt, with what user code has in a0 and a1 at that moment -/
  | timer (a0 a1 : ℤ)
  | wait (pid : ℤ)
  | exit (code : ℤ)
  | semNew (initval : ℤ)
  | semP (semid : ℤ)
  | semV (semid : ℤ)
deriving DecidableEq, Repr

/-! the numbers of the system calls (kernel/syscall.h) -/

def SYS_user_base : ℤ := 64
def SYS_user_exit : ℤ := SYS_user_base + 1
def SYS_user_fork : ℤ := SYS_user_base + 4
def SYS_user_yield : ℤ := SYS_user_base + 5
def SYS_user_sem_new : ℤ := SYS_user_base + 6
def SYS_user_sem_P : ℤ := SYS_user_base + 7
def SYS_user_sem_V : ℤ := SYS_user_base + 8
def SYS_user_wait : ℤ := SYS_user_base + 32
def SYS_user_fork_to : ℤ := SYS_user_base + 39

/-- the system calls that do not touch the scheduler, from `SYS_user_print` to `SYS_user_get_ncpu` -/
def otherCalls : List ℤ :=
  ([0, 2, 3, 9, 10, 11, 12, 17, 18, 19, 20, 21, 22, 23, 24, 25, 26, 27, 28, 29, 30, 31, 33, 34, 35, 36, 37, 38, 40] :
    List ℤ).map (SYS_user_base + ·)

/-- a0 and a1 as the entry finds them: for a system call its number and its argument -/
def Entry.regs : Entry → ℤ × ℤ
  | .fork => (SYS_user_fork, 0)
  | .forkTo t => (SYS_user_fork_to, t)
  | .yield => (SYS_user_yield, 0)
  | .timer a0 a1 => (a0, a1)
  | .wait pid => (SYS_user_wait, pid)
  | .exit code => (SYS_user_exit, code)
  | .semNew v => (SYS_user_sem_new, v)
  | .semP id => (SYS_user_sem_P, id)
  | .semV id => (SYS_user_sem_V, id)

/-- `smode_trap_vector` stores the registers into the trapframe of the process that runs on the hart. User code does not
write tp, so the register still holds what `return_to_user` loaded. -/
def saveRegs (s : St) (H : Hart) (p : Slot) (e : Entry) : St :=
  { s with trapframe := update s.trapframe p ⟨e.regs.1, e.regs.2, s.tp H⟩ }

def sysUserForkTo (s : St) (H hartid : Hart) (cur : Slot) (target : ℤ) : Res St :=
  if h : 0 ≤ target ∧ target.toNat < NCPU then do
    let (s, child) ← doForkToHart s hartid cur ⟨target.toNat, h.2⟩
    return sysReturn s H hartid cur child
  else .ok (sysReturn s H hartid cur (-1))

def sysUserFork (s : St) (H hartid : Hart) (cur : Slot) : Res St := do
  let (s, child) ← doFork s hartid cur
  return sysReturn s H hartid cur child

/-- what the kernel does for an entry, with `cur` the process in `current[hartid]` -/
def handle (s : St) (H hartid : Hart) (cur : Slot) : Entry → Res St
  | .fork => sysUserFork s H hartid cur
  | .forkTo t => sysUserForkTo s H hartid cur t
  | .yield => sysUserYield s H hartid cur
  | .timer _ _ => rrsched s H hartid cur
  | .wait pid => sysUserWait s H hartid cur pid
  | .exit _ => sysUserExit s H hartid cur
  | .semNew v => let (s, r) := sysUserSemNew s v; .ok (sysReturn s H hartid cur r)
  | .semP id =>
    match getSemaphore s id with
    | none => .ok (sysReturn s H hartid cur (-1))
    | some i => semaphoreP s H hartid cur i
  | .semV id =>
    match getSemaphore s id with
    | none => .ok (sysReturn s H hartid cur (-1))
    | some i => semaphoreV s H hartid cur i

def doSyscall (s : St) (H hartid : Hart) (cur : Slot) (tf : Trapframe) : Res St :=
  if tf.a0 = SYS_user_exit then handle s H hartid cur (.exit tf.a1)
  else if tf.a0 = SYS_user_fork then handle s H hartid cur .fork
  else if tf.a0 = SYS_user_fork_to then handle s H hartid cur (.forkTo tf.a1)
  else if tf.a0 = SYS_user_yield then handle s H hartid cur .yield
  else if tf.a0 = SYS_user_wait then handle s H hartid cur (.wait tf.a1)
  else if tf.a0 = SYS_user_sem_new then handle s H hartid cur (.semNew tf.a1)
  else if tf.a0 = SYS_user_sem_P then handle s H hartid cur (.semP tf.a1)
  else if tf.a0 = SYS_user_sem_V then handle s H hartid cur (.semV tf.a1)
  else if tf.a0 ∈ otherCalls then .error .unmodelled
  else .error (.panic "Unknown syscall %ld \n")

/-- the cause of the trap is in a register of the hart; the system call is the one in the trapframe of
`current[hartid]`, whichever process has trapped -/
def smodeTrapHandler (s : St) (H hartid : Hart) (e : Entry) : Res St :=
  match s.current hartid with
  | none => .error (.assertion "current[hartid]")
  | some cur =>
    match e with
    | .timer a0 a1 => handle s H hartid cur (.timer a0 a1)
    | _ => doSyscall s H hartid cur (s.trapframe cur)

inductive Label where
  /-- the hart, in user mode, enters the kernel -/
  | trap (H : Hart) (e : Entry)
  /-- the hart goes on in `schedule()`: for the first time, or in its waiting loop -/
  | spin (H : Hart)
deriving DecidableEq, Repr

def step (m : TpMode) (s : St) : Label → Res St
  | .trap H e =>
    match s.phase H with
    | .user p =>
      let s := saveRegs s H p e
      smodeTrapHandler s H (readTp m s H) e
    | _ => .error .disabled
  | .spin H =>
    match s.phase H with
    | .boot => schedule s H (readTp m s H)
    | .idle => idleLoop s H (readTp m s H)
    | _ => .error .disabled

/-! ## Boot -/

/-- the state in which all harts have left the second barrier of `s_start`: hart h has allocated the slot `slot h`, and
either loaded a program into it and put it into its ready queue, or marked it ZOMBIE -/
def boot (slot : Hart → Slot) (loaded : Hart → Bool) : St where
  status i := if ∃ h, slot h = i ∧ loaded h then .ready else if ∃ h, slot h = i then .zombie else .free
  parent _ := none
  queue_next _ := none
  tick_count _ := 0
  trapframe i := ⟨0, 0, ((List.finRange NCPU).find? fun h => slot h = i).getD 0⟩
  g_proc_reserved i := decide (∃ h, slot h = i ∧ loaded h = false)
  head
    | .ready h => if loaded h then some (slot h) else none
    | _ => none
  semaphores _ := ⟨-1, -1, false⟩
  g_next_semaphore_id := 0
  current _ := none
  g_should_shutdown := false
  phase _ := .boot
  tp h := h
  gh := ⟨fun i => if ∃ h, slot h = i then 1 else 0, fun _ => none, fun _ => none, fun _ => none, []⟩

/-- a state at the end of `s_start`: the harts hold different slots -/
def Boot (s : St) : Prop := ∃ slot loaded, Function.Injective slot ∧ s = boot slot loaded

/-- the states reached by any interleaving of the harts -/
def Reachable (m : TpMode) (s : St) : Prop := System.Reach (step m) (fun _ _ => True) Boot s

end RiscvPke.Sched
