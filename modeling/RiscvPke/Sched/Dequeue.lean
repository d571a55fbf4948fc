/-
The ready queue of one hart h, with the steps of kernel/sched.c as they are locked. `insert_to_specific_ready_queue`
works on the queue under `g_ready_queue_lock[h]` and is one step, of any hart. `schedule()` on hart h tests the queue
under the lock, but takes its head out of it without: each read and write of `ready_queue_head[h]` and of `queue_next`
is a step of its own.
-/
import RiscvPke.Core.Chain
import RiscvPke.Core.System
import RiscvPke.Kernel.Basic

namespace RiscvPke.Sched.Dequeue

open Function Chain RiscvPke.System

/-! ## The machine -/

/-- where hart h is in `schedule()` -/
inductive Pc where
  /-- not in `schedule()` -/
  | out
  /-- in the waiting loop -/
  | waiting
  /-- in front of `current[hartid] = ready_queue_head[hartid]` -/
  | nonempty
  /-- in front of the assertion -/
  | taken
  /-- in front of `ready_queue_head[hartid] = ready_queue_head[hartid]->queue_next` -/
  | checked
  /-- has read `ready_queue_head[hartid]` for this -/
  | headRead (r : Option Slot)
  /-- has read `queue_next` for this -/
  | nextRead (n : Option Slot)
  /-- in front of `current[hartid]->status = RUNNING` -/
  | unlinked
  /-- left the waiting loop for the barrier -/
  | parked
deriving DecidableEq, Repr

structure St where
  /-- `ready_queue_head[h]` -/
  head : Option Slot
  queue_next : Slot → Option Slot
  status : Slot → Status
  /-- `current[h]` -/
  current : Option Slot
  pc : Pc
  inserted : List Slot
  dequeued : List Slot

inductive Label where
  /-- hart h goes on in `schedule()` -/
  | sched
  /-- hart h sees that it is to shut down -/
  | park
  /-- the locked part of `insert_to_specific_ready_queue(p, h)` -/
  | insert (p : Slot)
  /-- a process outside the queue of hart h gets another status and another link -/
  | elsewhere (p : Slot) (st : Status) (n : Option Slot)
deriving DecidableEq, Repr

/-- the processes that are found from the head of the queue -/
def contents (s : St) : List Slot := nodes s.queue_next NPROC s.head

def testQueue (s : St) : St :=
  { s with pc := match s.head with
    | none => .waiting
    | some _ => .nonempty }

def schedule (s : St) : Res St :=
  match s.pc with
  | .out | .waiting => .ok (testQueue s)
  | .nonempty => .ok { s with current := s.head, pc := .taken }
  | .taken =>
    match s.current with
    | none => .error .nullPointer
    | some c =>
      if s.status c = .ready then .ok { s with pc := .checked }
      else .error (.assertion "current[hartid]->status == READY")
  | .checked => .ok { s with pc := .headRead s.head }
  | .headRead none => .error .nullPointer
  | .headRead (some r) => .ok { s with pc := .nextRead (s.queue_next r) }
  | .nextRead n => .ok { s with head := n, dequeued := s.dequeued ++ s.current.toList, pc := .unlinked }
  | .unlinked =>
    match s.current with
    | none => .error .nullPointer
    | some c => .ok { s with status := update s.status c .running, pc := .out }
  | .parked => .error .disabled

def readyStatus (st : Status) : Status := if st = .zombie then .zombie else .ready

def insertToSpecificReadyQueue (s : St) (proc : Slot) : Res St :=
  match s.head with
  | none =>
    .ok { s with
      status := update s.status proc (readyStatus (s.status proc))
      queue_next := update s.queue_next proc none
      head := some proc
      inserted := s.inserted ++ [proc] }
  | some p =>
    match scan s.queue_next proc NPROC p with
    | none => .error .endlessLoop
    | some .found => .ok s
    | some (.tail last) =>
      .ok { s with
        status := update s.status proc (readyStatus (s.status proc))
        queue_next := update (update s.queue_next last (some proc)) proc none
        inserted := s.inserted ++ [proc] }

def step (s : St) : Label → Res St
  | .sched => schedule s
  | .park => if s.pc = .waiting then .ok { s with pc := .parked } else .error .disabled
  | .insert p => insertToSpecificReadyQueue s p
  | .elsewhere p st n =>
    if p ∉ contents s then
      .ok { s with status := update s.status p st, queue_next := update s.queue_next p n }
    else .error .disabled

/-- an empty queue; links and statuses are as they may be -/
structure Init (s : St) : Prop where
  head : s.head = none
  pc : s.pc = .out
  inserted : s.inserted = []
  dequeued : s.dequeued = []

/-- every insertion of a process is still in the queue or has been dequeued once -/
def NoneLost (s : St) : Prop := ∀ p, s.inserted.count p = s.dequeued.count p + (contents s).count p

/-! ## One step -/

def PcOk (s : St) : Prop :=
  match s.pc with
  | .nonempty => s.head ≠ none
  | .taken | .checked => s.head ≠ none ∧ s.current = s.head
  | .headRead r => s.head ≠ none ∧ s.current = s.head ∧ r = s.head
  | .nextRead n => ∃ c, s.head = some c ∧ s.current = some c ∧ s.queue_next c = n
  | .out | .waiting | .unlinked | .parked => True

structure QueueInv (s : St) (l : List Slot) : Prop where
  links : Links s.queue_next s.head l
  kept : s.inserted = s.dequeued ++ l
  pcOk : PcOk s

/-- the condition on a step: nobody inserts between the read of a NULL link and the write of the head -/
def Clear (s : St) : Label → Prop
  | .insert _ => s.pc ≠ .nextRead none
  | _ => True

variable {s s' : St} {l : List Slot} {p : Slot} {a : Label}

theorem links_length (h : Links s.queue_next s.head l) : l.length ≤ NPROC := by
  have := h.length_le
  rwa [Fintype.card_fin] at this

theorem contents_eq (h : QueueInv s l) : contents s = l := nodes_eq h.links (links_length h.links)

theorem PcOk.congr (h : PcOk s) (hh : s'.head = s.head) (hc : s'.current = s.current) (hp : s'.pc = s.pc)
    (hn : ∀ c n, s.pc = .nextRead n → s.head = some c → s'.queue_next c = s.queue_next c) : PcOk s' := by
  unfold PcOk at h ⊢
  rw [hh, hc, hp]
  cases hpc : s.pc with
  | nextRead n => grind
  | nonempty | taken | checked | headRead =>
    simp only [hpc] at h ⊢
    exact h
  | out | waiting | unlinked | parked => trivial

theorem queueInv_sched (h : QueueInv s l) (hst : schedule s = .ok s') : ∃ l', QueueInv s' l' := by
  have hok := h.pcOk
  unfold schedule at hst
  unfold PcOk at hok
  cases hpc : s.pc with
  | out | waiting =>
    simp only [hpc, Except.ok.injEq] at hst
    subst hst
    refine ⟨l, h.links, h.kept, ?_⟩
    cases hh : s.head <;> simp [PcOk, testQueue, hh]
  | nonempty =>
    simp only [hpc, Except.ok.injEq] at hst hok
    subst hst
    exact ⟨l, h.links, h.kept, hok, rfl⟩
  | taken =>
    simp only [hpc] at hst hok
    cases hc : s.current with
    | none => simp [hc] at hst
    | some c =>
      simp only [hc] at hst
      split_ifs at hst
      cases hst
      exact ⟨l, h.links, h.kept, hok.1, hc.symm.trans hok.2⟩
  | checked =>
    simp only [hpc, Except.ok.injEq] at hst hok
    subst hst
    exact ⟨l, h.links, h.kept, hok.1, hok.2, rfl⟩
  | headRead r =>
    simp only [hpc] at hst hok
    cases r with
    | none => simp at hst
    | some c =>
      simp only [Except.ok.injEq] at hst
      subst hst
      exact ⟨l, h.links, h.kept, c, hok.2.2.symm, hok.2.1.trans hok.2.2.symm, rfl⟩
  | nextRead n =>
    simp only [hpc, Except.ok.injEq] at hst hok
    subst hst
    obtain ⟨c, hhead, hcur, hnext⟩ := hok
    -- the head leaves the queue and is the process that runs
    have hl := h.links
    rw [hhead] at hl
    cases l with
    | nil => cases hl
    | cons b rest =>
      obtain ⟨hb, hrest⟩ := hl
      cases hb
      refine ⟨rest, ?_, ?_, trivial⟩
      · rw [hnext] at hrest
        exact hrest
      · rw [h.kept, hcur]
        simp
  | unlinked =>
    simp only [hpc] at hst
    cases hc : s.current with
    | none => simp [hc] at hst
    | some c =>
      simp only [hc, Except.ok.injEq] at hst
      subst hst
      exact ⟨l, h.links, h.kept, trivial⟩
  | parked => simp [hpc] at hst

theorem queueInv_insert (h : QueueInv s l) (hc : s.pc ≠ .nextRead none)
    (hst : insertToSpecificReadyQueue s p = .ok s') :
    ∃ l', QueueInv s' l' := by
  unfold insertToSpecificReadyQueue at hst
  cases hh : s.head with
  | none =>
    simp only [hh, Except.ok.injEq] at hst
    subst hst
    have hl := h.links
    rw [hh] at hl
    obtain rfl := hl.eq_nil
    refine ⟨[p], links_singleton _ p, by rw [h.kept, List.append_nil], ?_⟩
    -- hart h is not taking anything out of an empty queue
    have hok := h.pcOk
    unfold PcOk at hok ⊢
    cases hpc : s.pc <;> simp_all
  | some a =>
    simp only [hh] at hst
    have hl := h.links
    rw [hh] at hl
    have hlen := links_length h.links
    by_cases hp : p ∈ l
    · rw [scan_mem hl hp hlen] at hst
      cases hst
      exact ⟨l, h⟩
    · have hne : l ≠ [] := List.ne_nil_of_mem hl.head_mem
      obtain ⟨l0, b, rfl⟩ : ∃ l0 b, l = l0 ++ [b] := ⟨_, _, (List.dropLast_append_getLast hne).symm⟩
      rw [scan_eq hl hp (by simp only [List.length_append, List.length_singleton] at hlen; omega)] at hst
      cases hst
      refine ⟨l0 ++ [b] ++ [p], ?_, by rw [h.kept, List.append_assoc], ?_⟩
      · exact hl.snoc hp
      · refine h.pcOk.congr hh.symm rfl rfl fun c n hpc hhead => ?_
        have hca : a = c := Option.some.inj (hh.symm.trans hhead)
        subst hca
        have hap : a ≠ p := fun he => hp (he ▸ hl.head_mem)
        -- the head is not the last process, as its link is not NULL
        have hab : a ≠ b := by
          rintro rfl
          have hlast : s.queue_next a = none := hl.suffix
          have hok := h.pcOk
          grind [PcOk]
        exact (update_of_ne hap _ _).trans (update_of_ne hab _ _)

theorem queueInv_elsewhere (h : QueueInv s l) (hp : p ∉ contents s) (st : Status) (n : Option Slot) :
    QueueInv { s with status := update s.status p st, queue_next := update s.queue_next p n } l := by
  rw [contents_eq h] at hp
  refine ⟨h.links.update_of_notMem hp, h.kept, h.pcOk.congr rfl rfl rfl fun c m _ hhead => ?_⟩
  have hl := h.links
  rw [hhead] at hl
  have hcp : c ≠ p := fun he => hp (he ▸ hl.head_mem)
  exact update_of_ne hcp _ _

theorem queueInv_step (h : QueueInv s l) (hc : Clear s a) (hst : step s a = .ok s') : ∃ l', QueueInv s' l' := by
  cases a with
  | sched => exact queueInv_sched h hst
  | park =>
    simp only [step] at hst
    split_ifs at hst
    cases hst
    exact ⟨l, h.links, h.kept, trivial⟩
  | insert p => exact queueInv_insert h hc hst
  | elsewhere p st n =>
    simp only [step] at hst
    split_ifs at hst with hp
    cases hst
    exact ⟨l, queueInv_elsewhere h hp st n⟩

/-! ## Runs -/

/-- **No READY process is lost.** In every run in which nobody inserts into the queue of hart h while it is between the
read of a NULL `queue_next` and the write of the head, every process that was inserted is in the queue or has been
dequeued exactly once; the queue is first in, first out. -/
theorem none_lost (hs : Reach step Clear Init s) : NoneLost s ∧ s.inserted = s.dequeued ++ contents s := by
  have hinv : ∃ l, QueueInv s l := by
    refine hs.inv (P := fun s => ∃ l, QueueInv s l) (fun t ht => ?_) fun t a t' ht hc hst => ?_
    · refine ⟨[], by rw [ht.head]; rfl, by rw [ht.inserted, ht.dequeued]; rfl, ?_⟩
      simp [PcOk, ht.pc]
    · obtain ⟨l, h⟩ := ht
      exact queueInv_step h hc hst
  obtain ⟨l, h⟩ := hinv
  have hkept : s.inserted = s.dequeued ++ contents s := by rw [contents_eq h, h.kept]
  refine ⟨fun p => ?_, hkept⟩
  rw [hkept, List.count_append]

/-! ## Two runs -/

def empty : St := ⟨none, fun _ => none, fun _ => .ready, none, .out, [], []⟩

theorem empty_init : Init empty := ⟨rfl, rfl, rfl, rfl⟩

def clear (s : St) : Label → Bool
  | .insert _ => decide (s.pc ≠ .nextRead none)
  | _ => true

theorem clear_sound (s : St) (a : Label) (h : clear s a = true) : Clear s a := by
  cases a with
  | insert p => simpa [clear, Clear] using h
  | sched | park | elsewhere => trivial

def inTime : List Label := [.insert 1, .sched, .sched, .sched, .insert 2, .sched, .sched, .sched, .sched]

theorem none_lost_inTime : (exec step empty inTime).dequeued = [1] ∧ (exec step empty inTime).inserted = [1, 2] ∧
    NoneLost (exec step empty inTime) :=
  ⟨by decide +kernel, by decide +kernel,
    (none_lost (reach_exec clear_sound inTime empty (.init empty_init) (by decide +kernel))).1⟩

def tooLate : List Label := [.insert 1, .sched, .sched, .sched, .sched, .sched, .insert 2, .sched, .sched]

/-- process 2 is neither in the queue nor has it been dequeued -/
theorem insertion_lost : Reach step (fun _ _ => True) Init (exec step empty tooLate) ∧
    (exec step empty tooLate).inserted = [1, 2] ∧ (exec step empty tooLate).dequeued = [1] ∧
    contents (exec step empty tooLate) = [] ∧ ¬ NoneLost (exec step empty tooLate) := by
  have h1 : (exec step empty tooLate).inserted = [1, 2] := by decide +kernel
  have h2 : (exec step empty tooLate).dequeued = [1] := by decide +kernel
  have h3 : contents (exec step empty tooLate) = [] := by decide +kernel
  refine ⟨reach_decide tooLate empty (.init empty_init) (by decide +kernel),
    h1, h2, h3, fun h => ?_⟩
  have := h 2
  rw [h1, h2, h3] at this
  revert this
  decide

end RiscvPke.Sched.Dequeue
