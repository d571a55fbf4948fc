/-
Allocation of process slots, with the steps in which it is not atomic: kernel/process.c (`alloc_process`,
`release_proc_slot_reservation`), `s_start` and `load_user_program` of kernel/kernel.c, and the forks and
`insert_to_specific_ready_queue` of kernel/sched.c.
-/
import RiscvPke.Core.System
import RiscvPke.Kernel.Basic

namespace RiscvPke.Sched.Slots

open Function RiscvPke.System

/-! ## The machine -/

/-- what a hart is doing with a slot -/
inductive Pc where
  /-- in `s_start`, in front of `alloc_process` -/
  | start
  /-- `load_user_program` behind `alloc_process` -/
  | loading (i : Slot)
  /-- a fork behind `alloc_process`, before `child->status = READY` -/
  | copying (i : Slot)
  /-- at the beginning of `insert_to_specific_ready_queue` -/
  | filled (i : Slot)
  /-- behind `release_proc_slot_reservation`, in front of the insertion -/
  | released (i : Slot)
  /-- at the second barrier of `s_start` or behind it, and in no fork -/
  | settled
deriving DecidableEq, Repr

/-- the slot in the hands of the hart -/
def Pc.slot : Pc → Option Slot
  | .loading i | .copying i | .filled i | .released i => some i
  | .start | .settled => none

inductive Event where
  | alloc (i : Slot)
  | reap (i : Slot)
deriving DecidableEq, Repr

structure St where
  status : Slot → Status
  g_proc_reserved : Slot → Bool
  pc : Hart → Pc
  /-- history: allocations and reaped slots, newest first -/
  log : List Event

inductive Label where
  /-- the locked scan of `alloc_process` -/
  | alloc (H : Hart)
  /-- `load_user_program` has a program for the hart or not -/
  | load (H : Hart) (found : Bool)
  /-- `child->status = READY` -/
  | fill (H : Hart)
  /-- the locked write of `release_proc_slot_reservation` -/
  | release (H : Hart)
  /-- the locked insertion -/
  | insert (H : Hart)
  /-- the scheduler changes the status of a process: it is run, blocked, woken or exits -/
  | turn (p : Slot) (st : Status)
  /-- an insertion of a process that has been in a queue before drops its reservation again -/
  | requeue (p : Slot)
  /-- `do_wait` -/
  | reap (p : Slot)
deriving DecidableEq, Repr

def freeSlot (s : St) : Option Slot :=
  (List.finRange NPROC).find? fun i => s.status i = .free ∧ s.g_proc_reserved i = false

def allSettled (s : St) : Prop :=
  ∀ h, s.pc h = .settled ∨ ∃ i, s.pc h = .copying i ∨ s.pc h = .filled i ∨ s.pc h = .released i

def Loose (s : St) (p : Slot) : Prop := ∀ h, (s.pc h).slot ≠ some p

instance (s : St) : Decidable (allSettled s) := inferInstanceAs (Decidable (∀ _, _))

instance (s : St) (p : Slot) : Decidable (Loose s p) := inferInstanceAs (Decidable (∀ _, _))

def setPc (s : St) (H : Hart) (pc : Pc) : St := { s with pc := update s.pc H pc }

def setStatus (s : St) (p : Slot) (st : Status) : St := { s with status := update s.status p st }

def reserve (s : St) (i : Slot) : St :=
  { s with g_proc_reserved := update s.g_proc_reserved i true, log := .alloc i :: s.log }

def allocProcess (s : St) (H : Hart) (next : Slot → Pc) : Res St :=
  match freeSlot s with
  | none => .error (.panic "cannot find any free process structure.\n")
  | some i => .ok (setPc (reserve s i) H (next i))

def releaseProcSlotReservation (s : St) (p : Slot) : St :=
  { s with g_proc_reserved := update s.g_proc_reserved p false }

/-- the status that an insertion gives -/
def inserted (st : Status) : Status := if st = .zombie then .zombie else .ready

def step (s : St) : Label → Res St
  | .alloc H =>
    match s.pc H with
    | .start => allocProcess s H .loading
    | .settled => if allSettled s then allocProcess s H .copying else .error .disabled
    | _ => .error .disabled
  | .load H found =>
    match s.pc H with
    | .loading i => if found then .ok (setPc s H (.filled i)) else .ok (setPc (setStatus s i .zombie) H .settled)
    | _ => .error .disabled
  | .fill H =>
    match s.pc H with
    | .copying i => .ok (setPc (setStatus s i .ready) H (.filled i))
    | _ => .error .disabled
  | .release H =>
    match s.pc H with
    | .filled i => .ok (setPc (releaseProcSlotReservation s i) H (.released i))
    | _ => .error .disabled
  | .insert H =>
    match s.pc H with
    | .released i => .ok (setPc (setStatus s i (inserted (s.status i))) H .settled)
    | _ => .error .disabled
  | .turn p st =>
    if Loose s p ∧ s.status p ≠ .free ∧ s.status p ≠ .zombie ∧ st ≠ .free then .ok (setStatus s p st) else
      .error .disabled
  | .requeue p =>
    if Loose s p ∧ s.status p ≠ .free then .ok (releaseProcSlotReservation s p) else .error .disabled
  | .reap p =>
    if Loose s p ∧ s.status p = .zombie then .ok { setStatus s p .free with log := .reap p :: s.log } else
      .error .disabled

def boot : St := ⟨fun _ => .free, fun _ => false, fun _ => .start, []⟩

/-! ## Exclusive allocation -/

def Exclusive (log : List Event) : Prop :=
  ∀ i l1 l2 l3, log = l1 ++ .alloc i :: (l2 ++ .alloc i :: l3) → .reap i ∈ l2

def InUse (i : Slot) : List Event → Prop
  | [] => False
  | .alloc j :: l => j = i ∨ InUse i l
  | .reap j :: l => j ≠ i ∧ InUse i l

variable {s s' : St} {i p : Slot} {H : Hart} {l : Label} {log : List Event}

theorem inUse_of_split {l2 l3 : List Event} (h : .reap i ∉ l2) : InUse i (l2 ++ .alloc i :: l3) := by
  induction l2 with
  | nil => exact .inl rfl
  | cons e l ih =>
    simp only [List.mem_cons, not_or] at h
    cases e with
    | alloc j => exact .inr (ih h.2)
    | reap j =>
      refine ⟨?_, ih h.2⟩
      rintro rfl
      exact h.1 rfl

theorem Exclusive.alloc (h : Exclusive log) (hi : ¬ InUse i log) : Exclusive (.alloc i :: log) := by
  intro j l1 l2 l3 he
  cases l1 with
  | nil => grind [inUse_of_split]
  | cons e l1 =>
    simp only [List.cons_append, List.cons.injEq] at he
    exact h j l1 l2 l3 he.2

theorem Exclusive.reap (h : Exclusive log) : Exclusive (.reap i :: log) := by
  intro j l1 l2 l3 he
  cases l1 with
  | nil => simp at he
  | cons e l1 =>
    simp only [List.cons_append, List.cons.injEq] at he
    exact h j l1 l2 l3 he.2

/-- the condition on a step: a scan does not meet a FREE slot that a hart is about to insert -/
def Quiet (s : St) : Label → Prop
  | .alloc _ => ∀ h i, s.pc h = .released i → s.status i ≠ .free
  | _ => True

structure SlotInv (s : St) : Prop where
  exclusive : Exclusive s.log
  inUse : ∀ i, InUse i s.log → s.status i ≠ .free ∨ s.g_proc_reserved i = true ∨ ∃ h, s.pc h = .released i

theorem SlotInv.alloc (h : SlotInv s) (hq : ∀ h i, s.pc h = .released i → s.status i ≠ .free)
    (hH : ∀ i, s.pc H ≠ .released i) {next : Slot → Pc} (hst : allocProcess s H next = .ok s') : SlotInv s' := by
  unfold allocProcess at hst
  cases hf : freeSlot s with
  | none => simp [hf] at hst
  | some i =>
    rw [hf] at hst
    cases hst
    have hfree := of_find? hf
    have hnot : ¬ InUse i s.log := by
      intro hu
      rcases h.inUse i hu with hs | hr | ⟨g, hg⟩
      · exact hs hfree.1
      · rw [hfree.2] at hr
        cases hr
      · exact hq g i hg hfree.1
    refine ⟨h.exclusive.alloc hnot, fun j hj => ?_⟩
    by_cases hji : j = i
    · subst hji
      exact .inr (.inl (by simp [setPc, reserve]))
    · have hj' : InUse j s.log := hj.resolve_left fun he => hji he.symm
      rcases h.inUse j hj' with hs | hr | ⟨g, hg⟩
      · exact .inl hs
      · exact .inr (.inl (by simpa [setPc, reserve, hji] using hr))
      · have hgH : g ≠ H := fun he => hH j (he ▸ hg)
        exact .inr (.inr ⟨g, by simpa [setPc, reserve, hgH] using hg⟩)

theorem SlotInv.write (h : SlotInv s) {st : Status} {pc : Pc} (hst : st ≠ .free)
    (hH : ∀ j, s.pc H = .released j → j = i) :
    SlotInv (setPc (setStatus s i st) H pc) := by
  refine ⟨h.exclusive, fun j hj => ?_⟩
  by_cases hji : j = i
  · subst hji
    exact .inl (by simpa [setPc, setStatus] using hst)
  · rcases h.inUse j hj with hs | hr | ⟨g, hg⟩
    · exact .inl (by simpa [setPc, setStatus, hji] using hs)
    · exact .inr (.inl hr)
    · have hgH : g ≠ H := fun he => hji (hH j (he ▸ hg))
      exact .inr (.inr ⟨g, by simpa [setPc, setStatus, hgH] using hg⟩)

theorem inserted_ne_free (st : Status) : inserted st ≠ .free := by
  unfold inserted
  split_ifs <;> simp

theorem slotInv_step (h : SlotInv s) (hq : Quiet s l) (hst : step s l = .ok s') : SlotInv s' := by
  cases l with
  | alloc H =>
    simp only [step] at hst
    cases hpc : s.pc H with
    | start =>
      simp only [hpc] at hst
      exact h.alloc hq (by simp [hpc]) hst
    | settled =>
      simp only [hpc] at hst
      split_ifs at hst
      exact h.alloc hq (by simp [hpc]) hst
    | loading | copying | filled | released => simp [hpc] at hst
  | load H found =>
    simp only [step] at hst
    cases hpc : s.pc H with
    | loading i =>
      simp only [hpc] at hst
      split_ifs at hst
      · cases hst
        refine ⟨h.exclusive, fun j hj => ?_⟩
        rcases h.inUse j hj with hs | hr | ⟨g, hg⟩
        · exact .inl hs
        · exact .inr (.inl hr)
        · have hgH : g ≠ H := by
            rintro rfl
            simp [hpc] at hg
          exact .inr (.inr ⟨g, by simpa [setPc, hgH] using hg⟩)
      · cases hst
        exact h.write (by simp) (by simp [hpc])
    | start | copying | filled | released | settled => simp [hpc] at hst
  | fill H =>
    simp only [step] at hst
    cases hpc : s.pc H with
    | copying i =>
      simp only [hpc] at hst
      cases hst
      exact h.write (by simp) (by simp [hpc])
    | start | loading | filled | released | settled => simp [hpc] at hst
  | release H =>
    simp only [step] at hst
    cases hpc : s.pc H with
    | filled i =>
      simp only [hpc] at hst
      cases hst
      refine ⟨h.exclusive, fun j hj => ?_⟩
      by_cases hji : j = i
      · subst hji
        exact .inr (.inr ⟨H, by simp [setPc]⟩)
      · rcases h.inUse j hj with hs | hr | ⟨g, hg⟩
        · exact .inl hs
        · exact .inr (.inl (by simpa [setPc, releaseProcSlotReservation, hji] using hr))
        · have hgH : g ≠ H := by
            rintro rfl
            simp [hpc] at hg
          exact .inr (.inr ⟨g, by simpa [setPc, releaseProcSlotReservation, hgH] using hg⟩)
    | start | loading | copying | released | settled => simp [hpc] at hst
  | insert H =>
    simp only [step] at hst
    cases hpc : s.pc H with
    | released i =>
      simp only [hpc] at hst
      cases hst
      refine h.write (inserted_ne_free _) fun j hj => ?_
      simpa [hpc] using hj.symm
    | start | loading | copying | filled | settled => simp [hpc] at hst
  | turn p st =>
    simp only [step] at hst
    split_ifs at hst with hc
    cases hst
    refine ⟨h.exclusive, fun j hj => ?_⟩
    by_cases hjp : j = p
    · subst hjp
      exact .inl (by simpa [setStatus] using hc.2.2.2)
    · simpa [setStatus, hjp] using h.inUse j hj
  | requeue p =>
    simp only [step] at hst
    split_ifs at hst with hc
    cases hst
    refine ⟨h.exclusive, fun j hj => ?_⟩
    by_cases hjp : j = p
    · subst hjp
      exact .inl hc.2
    · simpa [releaseProcSlotReservation, hjp] using h.inUse j hj
  | reap p =>
    simp only [step] at hst
    split_ifs at hst with hc
    cases hst
    refine ⟨h.exclusive.reap, fun j hj => ?_⟩
    have hjp : j ≠ p := fun he => hj.1 he.symm
    simpa [setStatus, hjp] using h.inUse j hj.2

theorem slotInv_boot : SlotInv boot := ⟨fun i l1 l2 l3 he => by simp [boot] at he, fun i hi => hi.elim⟩

/-- **Slots are allocated exclusively.** In every run in which no scan of `alloc_process` takes place while a hart that
has dropped the reservation of a FREE slot is in front of its insertion, two allocations of one slot have a reaping
between them. -/
theorem slots_exclusive (hs : Reach step Quiet (· = boot) s) : Exclusive s.log := by
  have h : SlotInv s := hs.inv (fun _ h => h ▸ slotInv_boot) fun _ _ _ h hq hst => slotInv_step h hq hst
  exact h.exclusive

/-! ## Two runs -/

def quiet (s : St) : Label → Bool
  | .alloc _ => decide (∀ (h : Hart) (i : Slot), s.pc h = .released i → s.status i ≠ .free)
  | _ => true

theorem quiet_sound (s : St) (l : Label) (h : quiet s l = true) : Quiet s l := by
  cases l with
  | alloc H =>
    simpa [quiet, Quiet] using h
  | load | fill | release | insert | turn | requeue | reap => trivial

def startUp (H : Hart) : List Label := [.alloc H, .load H true, .release H, .insert H]

def oneByOne : List Label :=
  startUp 0 ++ startUp 1 ++ startUp 2 ++ startUp 3 ++
    [.alloc 0, .fill 0, .release 0, .insert 0, .turn 4 .zombie, .reap 4, .alloc 0]

theorem slots_exclusive_oneByOne :
    (exec step boot oneByOne).log.filter (fun e => e = .alloc 4 ∨ e = .reap 4) = [.alloc 4, .reap 4, .alloc 4] ∧
      Exclusive (exec step boot oneByOne).log :=
  ⟨by decide +kernel, slots_exclusive (reach_exec quiet_sound oneByOne boot (.init rfl) (by decide +kernel))⟩

def overlapping : List Label := [.alloc 0, .load 0 true, .release 0, .alloc 1]

/-- harts 0 and 1 get slot 0, and it was not reaped in between -/
theorem slot_taken_twice : Reach step (fun _ _ => True) (· = boot) (exec step boot overlapping) ∧
    (exec step boot overlapping).log = [.alloc 0, .alloc 0] ∧ ¬ Exclusive (exec step boot overlapping).log := by
  have hlog : (exec step boot overlapping).log = [.alloc 0, .alloc 0] := by decide +kernel
  refine ⟨reach_decide overlapping boot (.init rfl) (by decide +kernel), hlog, ?_⟩
  intro h
  have := h 0 [] [] [] hlog
  simp at this

end RiscvPke.Sched.Slots
