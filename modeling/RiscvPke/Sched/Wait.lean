/-
Exit and wait. `gh.waiting p` is the argument of the wait call in which p has blocked and from which it has not been
resumed yet.
-/
import RiscvPke.Sched.Invariant

namespace RiscvPke.Sched

open Chain RiscvPke.System

variable {s s1 s' : St} {q q1 q' : Lists} {H : Hart} {c p i : Slot} {e : Entry} {nx : Next} {l : Label}
variable {run : Hart → Option Slot}

/-! ## Processes inside a wait call -/

def Waits (s : St) (q : Lists) (p : Slot) : Prop :=
  (s.status p = .ready ∨ ∃ h, p ∈ q (.block h)) ∧ (s.trapframe p).a0 = SYS_user_wait ∧ s.gh.freed p = none

def WaitInv (s : St) (q : Lists) : Prop := ∀ p pid, s.gh.waiting p = some pid → Waits s q p

theorem WaitInv.waiting_none (hw : WaitInv s q) (hs : s.status p ≠ .ready) (hb : ∀ h, p ∉ q (.block h)) :
    s.gh.waiting p = none := by
  cases hp : s.gh.waiting p with
  | none => rfl
  | some pid =>
    rcases (hw p pid hp).1 with h1 | ⟨h, h2⟩
    · exact absurd h1 hs
    · exact absurd h2 (hb h)

theorem WaitInv.waiting_run (hw : WaitInv s q) (hl : Located s.status run q) (hr : run H = some p) :
    s.gh.waiting p = none :=
  hw.waiting_none (by simp [hl.running_of_run hr]) fun _ => hl.notMem_of_run hr _

theorem WaitInv.waiting_dead (hw : WaitInv s q) (hl : Located s.status run q)
    (hs : s.status p = .zombie ∨ s.status p = .free) : s.gh.waiting p = none :=
  hw.waiting_none (by rcases hs with hs | hs <;> simp [hs]) fun _ => hl.notMem_of_dead hs _

theorem WaitInv.move {x : Slot} (hw : WaitInv s q) (hg : ∀ p, p ≠ x → s1.gh.waiting p = s.gh.waiting p)
    (hst : ∀ p, p ≠ x → s1.status p = s.status p ∨ s.gh.waiting p = none)
    (htf : ∀ p, p ≠ x → s1.trapframe p = s.trapframe p) (hq : ∀ h p, p ≠ x → p ∈ q (.block h) → p ∈ q1 (.block h))
    (hfr : ∀ p, p ≠ x → s1.gh.freed p = s.gh.freed p ∨ s.gh.waiting p = none)
    (hx : ∀ pid, s1.gh.waiting x = some pid → Waits s1 q1 x) : WaitInv s1 q1 := by
  intro p pid hp
  by_cases hpx : p = x
  · subst hpx
    exact hx pid hp
  · rw [hg p hpx] at hp
    obtain ⟨hplace, ha0, hfreed⟩ := hw p pid hp
    refine ⟨?_, by rw [htf p hpx, ha0], ?_⟩
    · rcases hst p hpx with he | he
      · rw [he]
        exact hplace.imp_right fun ⟨h, hm⟩ => ⟨h, hq h p hpx hm⟩
      · exact absurd (he.symm.trans hp) (by simp)
    · rcases hfr p hpx with he | he
      · rw [he, hfreed]
      · exact absurd (he.symm.trans hp) (by simp)

theorem Body.waitInv (hb : Body s q H c e s1 q1 nx) (hw : WaitInv s q) (hr : Rep s.queue_next s.head q)
    (hl : Located s.status run q) (hc : run H = some c) (ha0 : (s.trapframe c).a0 = e.regs.1) : WaitInv s1 q1 := by
  have hcn := hw.waiting_run hl hc
  have hpush : ∀ {k : Queue} {x : Slot} (h : Hart) (p : Slot), p ≠ x → p ∈ q (.block h) → p ∈ push q k x (.block h) :=
    fun h p _ hm => mem_push.2 (.inl hm)
  -- a process that is in no wait call moves, and no call is answered
  have hsame : ∀ {x : Slot} (p : Slot), p ≠ x → s.gh.freed p = s.gh.freed p ∨ s.gh.waiting p = none :=
    fun _ _ => .inl rfl
  have hfreed : ∀ {x : Slot} {o : Option (Slot × ℕ)} (p : Slot), p ≠ x →
      Function.update s.gh.freed c o p = s.gh.freed p ∨ s.gh.waiting p = none := by
    intro x o p _
    by_cases hpc : p = c
    · subst hpc
      exact .inr hcn
    · exact .inl (Function.update_of_ne hpc _ _)
  cases hb with
  | badTarget | tick | semNew | badSem | semPGo | semVGo => exact hw
  | waitRet =>
    refine hw.move (x := c) (fun _ _ => rfl) (fun _ _ => .inl rfl) (fun _ _ => rfl) (fun _ _ _ => id) hfreed
      fun pid hx => ?_
    exact absurd (hcn.symm.trans hx) (by simp)
  | yield | slice =>
    refine hw.move (x := c) (fun _ _ => rfl) (fun p hp => .inl ?_) (fun _ _ => rfl) hpush hsame fun pid hx => ?_
    · simp [readied, hp]
    · exact absurd (hcn.symm.trans hx) (by simp)
  | semPBlock =>
    refine hw.move (x := c) (fun _ _ => rfl) (fun p hp => .inl ?_) (fun _ _ => rfl) hpush hsame fun pid hx => ?_
    · simp [suspended, addValue, hp]
    · exact absurd (hcn.symm.trans hx) (by simp)
  | @waitBlock pid n hd hw' =>
    refine hw.move (x := c) (fun p hp => ?_) (fun p hp => .inl ?_) (fun _ _ => rfl) hpush hfreed fun pid' _ => ?_
    · simp [suspended, Ghost.blocked, hp]
    · simp [suspended, hp]
    · exact ⟨.inr ⟨H, mem_push.2 (.inr ⟨rfl, rfl⟩)⟩, ha0, by simp [suspended, Ghost.blocked]⟩
  | @reap pid r i hw' =>
    refine hw.move (x := i) (fun _ _ => rfl) (fun p hp => .inl ?_) (fun _ _ => rfl) (fun _ _ _ => id) hfreed
      fun pid' hx => ?_
    · simp [hp]
    · exact absurd ((hw.waiting_dead hl (.inl (doWait_freed hw').1)).symm.trans hx) (by simp)
  | exit =>
    refine hw.move (x := c) (fun _ _ => rfl) (fun p hp => .inl ?_) (fun _ _ => rfl) (fun _ _ _ => id) hsame
      fun pid hx => ?_
    · simp [freeProcess, hp]
    · exact absurd (hcn.symm.trans hx) (by simp)
  | @exitWake code par h n hd hpar hm =>
    refine hw.move (x := par) (fun _ _ => rfl) (fun p hp => ?_) (fun _ _ => rfl) (fun g p hp hpm => ?_) hsame
      fun pid hx => ?_
    · by_cases hpc : p = c
      · subst hpc
        exact .inr hcn
      · exact .inl (by simp [readied, freeProcess, hp, hpc])
    · exact mem_push.2 (.inl ((mem_cut (hr _).nodup).2 ⟨hpm, fun hh => hp hh.2⟩))
    · exact ⟨.inl (by simp [readied]), (hw par pid hx).2⟩
  | @semVWake id i p rest n hd hi hneg hq =>
    refine hw.move (x := p) (fun _ _ => rfl) (fun x hx => .inl ?_) (fun _ _ => rfl) (fun g x hx hm => ?_) hsame
      fun pid hx => ?_
    · simp [readied, addValue, hx]
    · exact mem_push.2 (.inl ((mem_cut (hr _).nodup).2 ⟨hm, fun hh => hx hh.2⟩))
    · exact ⟨.inl (by simp [readied]), (hw p pid hx).2⟩
  | @fork _ T t i n hd he hi =>
    have hdead := hw.waiting_dead hl (.inr (freeSlot_free hi))
    refine hw.move (x := i) (fun _ _ => rfl) (fun p hp => .inl ?_) (fun p hp => ?_) hpush hsame fun pid hx => ?_
    · simp [readied, forkChild, initProc, hp]
    · simp [readied, forkChild, initProc, hp]
    · exact absurd (hdead.symm.trans hx) (by simp)

theorem freed_switchTo (s : St) (H h : Hart) (p : Slot) : (switchTo s H h p).gh.freed = s.gh.freed := by
  unfold switchTo
  cases s.gh.waiting p <;> rfl

theorem waiting_switchTo (s : St) (H h : Hart) (p : Slot) :
    (switchTo s H h p).gh.waiting = Function.update s.gh.waiting p none := by
  unfold switchTo
  cases hp : s.gh.waiting p with
  | none => simp [← hp]
  | some pid => rfl

theorem WaitInv.switchTo {st : Slot → Status} {hd : Queue → Option Slot} (hw : WaitInv s q)
    (hst : ∀ p, p ≠ c → st p = s.status p) (hq : ∀ h p, p ∈ q (.block h) → p ∈ q1 (.block h)) :
    WaitInv (switchTo { s with status := st, head := hd } H H c) q1 := by
  refine hw.move (x := c) (fun p hp => ?_) (fun p hp => .inl (hst p hp)) (fun _ _ => rfl) (fun h p _ => hq h p)
    (fun p _ => .inl ?_) fun pid hx => ?_
  · simp [waiting_switchTo, hp]
  · rw [freed_switchTo]
  · simp [waiting_switchTo] at hx

theorem Resched.waitInv (hre : Resched s q H s' q') (hw : WaitInv s q) (hr : Rep s.queue_next s.head q) :
    WaitInv s' q' := by
  cases hre with
  | @run p rest hd hq =>
    refine hw.switchTo (fun x hx => by simp [hx]) fun h x hx => ?_
    exact (mem_cut (hr _).nodup).2 ⟨hx, fun hh => by simp at hh⟩
  | idle hq hg => exact hw
  | park hq hg => exact hw

theorem WaitInv.setTrapframe (hw : WaitInv s q) (hc : s.gh.waiting c = none) (f : Trapframe) :
    WaitInv { s with trapframe := Function.update s.trapframe c f } q := by
  refine hw.move (x := c) (fun _ _ => rfl) (fun _ _ => .inl rfl) (fun p hp => by simp [hp]) (fun _ _ _ => id)
    (fun _ _ => .inl rfl) fun pid hx => ?_
  exact absurd (hc.symm.trans hx) (by simp)

theorem waiting_saveRegs (hi : Inv s q) (hw : WaitInv s q) (hph : s.phase H = .user c) (e : Entry) :
    WaitInv (saveRegs s H c e) q :=
  hw.setTrapframe (hw.waiting_run hi.located (runs_eq.2 hph)) _

theorem waitInv_step (hi : Inv s q) (hw : WaitInv s q) (hst : AStep s q l s' q') : WaitInv s' q' := by
  cases hst with
  | @trap H c e s1 q1 nx _ _ hph hb hr1 hf =>
    have hc := runs_eq.2 hph
    have hw0 := waiting_saveRegs hi hw hph e
    have hw1 := hb.waitInv hw0 hi.rep hi.located hc (by simp [saveRegs])
    cases hf with
    | @ret r =>
      have hl1 := hb.located hi.rep hi.located hc
      have hw2 : WaitInv (setA0 s1 c r) _ := hw1.setTrapframe (hw1.waiting_run hl1 hc) _
      exact hw2.switchTo (fun _ _ => rfl) fun _ _ => id
    | resume => exact hw1.switchTo (fun _ _ => rfl) fun _ _ => id
    | sched hre => exact hre.waitInv hw1 hr1
  | start hph hre => exact hre.waitInv hw hi.rep
  | wake hph hq hre => exact hre.waitInv hw hi.rep
  | stay hph hq hg => exact hw
  | shut hph hg => exact hw

/-! ## No lost wake-up -/

/-- nobody is blocked in a wait for a child that has exited -/
def NoLostWakeup (s : St) : Prop :=
  ∀ p, s.status p = .blocked →
    (∀ i : Slot, 0 < i.val → s.gh.waiting p = some (i.val : ℤ) → s.parent i = some p →
      s.status i ≠ .zombie ∧ s.status i ≠ .free) ∧
    (s.gh.waiting p = some (-1) → ∀ i, s.parent i = some p → s.status i ≠ .zombie)

theorem NoLostWakeup.update {x : Slot} {st : Status} (hn : NoLostWakeup s)
    (hs : s1.status = Function.update s.status x st) (hpar : s1.parent = s.parent) (hg : s1.gh.waiting = s.gh.waiting)
    (hb : st = .blocked → s.gh.waiting x = none)
    (hd : st = .zombie ∨ st = .free → ∀ p, s.parent x = some p → s.status p = .blocked → s.gh.waiting p = none) :
    NoLostWakeup s1 := by
  intro p hp
  rw [hpar, hg, hs]
  rw [hs] at hp
  by_cases hpx : p = x
  · subst hpx
    rw [Function.update_self] at hp
    simp [hb hp]
  · rw [Function.update_of_ne hpx] at hp
    -- a child of `p` that dies here shows that `p` is in no wait call
    have hchild : ∀ j, s.parent j = some p → s.gh.waiting p ≠ none → ∀ st', st' = .zombie ∨ st' = .free →
        Function.update s.status x st j = st' → s.status j = st' := by
      grind
    refine ⟨fun i hi hw hip => ?_, fun hw i hip hz => ?_⟩
    · have := (hn p hp).1 i hi hw hip
      grind
    · exact (hn p hp).2 hw i hip (hchild i hip (by simp [hw]) _ (.inl rfl) hz)

def InTime (s : St) (c : Slot) (pid : ℤ) : Prop :=
  (∀ i : Slot, 0 < i.val → pid = (i.val : ℤ) → s.parent i = some c → s.status i ≠ .zombie ∧ s.status i ≠ .free) ∧
  (pid = -1 → ∀ i j, s.parent i = some c → s.status i = .zombie → firstChild s c = some j → s.status j = .zombie)

theorem doWait_pos (hi : 0 < i.val) (hp : s.parent i = some c) : doWait s c (i.val : ℤ) = .block := by
  grind [doWait]

theorem firstChild_of_zombie (hp : s.parent i = some c) (hz : s.status i = .zombie) : ∃ j, firstChild s c = some j :=
  Option.isSome_iff_exists.1 (List.find?_isSome.2 ⟨i, List.mem_finRange i, by simp [hp, hz]⟩)

theorem doWait_any {j : Slot} (hj : firstChild s c = some j) :
    doWait s c (-1) = if s.status j = .zombie then .ret j (some j) else .block := by
  simp [doWait, hj]

theorem Body.noLost (hb : Body s q H c e s1 q1 nx) (hn : NoLostWakeup s) (hw : WaitInv s q)
    (hl : Located s.status run q) (hc : run H = some c) (ht : ∀ pid, e = .wait pid → InTime s c pid) :
    NoLostWakeup s1 := by
  have hcs := hl.running_of_run hc
  have hcn := hw.waiting_run hl hc
  cases hb with
  | badTarget | tick | waitRet | semNew | badSem | semPGo | semVGo => exact hn
  | yield | slice => exact hn.update (x := c) rfl rfl rfl (by simp) (by simp)
  | semPBlock => exact hn.update (x := c) rfl rfl rfl (fun _ => hcn) (by simp)
  | semVWake => exact hn.update rfl rfl rfl (by simp) (by simp)
  | @reap pid r i hw' =>
    refine hn.update (x := i) rfl rfl rfl (by simp) fun _ p hp hb => ?_
    obtain ⟨_, hpar, _⟩ := doWait_freed hw'
    cases hpar.symm.trans hp
    exact hcn
  | exit hno =>
    refine hn.update (x := c) rfl rfl rfl (by simp) fun _ p hp hb => ?_
    exact hw.waiting_none (by simp [hb]) fun h => hno p hp h
  | @exitWake code par h n hd hpar hm =>
    have hblk : s.status par = .blocked := hl.blocked_of_mem hm trivial
    have hne : c ≠ par := fun he => by simp [he, hblk] at hcs
    have hn1 : NoLostWakeup { s with status := Function.update s.status par .ready } :=
      hn.update (x := par) rfl rfl rfl (by simp) (by simp)
    have hs1 : (readied (freeProcess s c) par n hd).status =
        Function.update (Function.update s.status par .ready) c .zombie := Function.update_comm hne _ _ _
    refine hn1.update (x := c) hs1 rfl rfl (by simp) fun _ p hp hb => ?_
    cases hpar.symm.trans hp
    simp at hb
  | @waitBlock pid n hd hw' =>
    -- the caller is the only process that blocks, and it has been checked
    have hlive : ∀ j st, st ≠ .blocked → Function.update s.status c .blocked j = st → s.status j = st := by grind
    obtain ⟨hpos, hany⟩ := ht pid rfl
    intro p hp
    by_cases hpc : p = c
    · subst hpc
      simp only [suspended, Ghost.blocked, Function.update_self, Option.some.injEq]
      refine ⟨fun i hi hpid hpar => ?_, fun hpid i hpar hz => ?_⟩
      · grind
      · have hz' := hlive i _ (by simp) hz
        obtain ⟨j, hj⟩ := firstChild_of_zombie hpar hz'
        grind [doWait_any]
    · simp only [suspended, Ghost.blocked, Function.update_of_ne hpc] at hp ⊢
      refine ⟨fun i hi hpid hpar => ?_, fun hpid i hpar hz => ?_⟩
      · have := (hn p hp).1 i hi hpid hpar
        grind
      · exact (hn p hp).2 hpid i hpar (hlive i _ (by simp) hz)
  | @fork _ T t i n hd he hi =>
    intro p hp
    have hpi : p ≠ i := by
      rintro rfl
      simp [readied] at hp
    have hp' : s.status p = .blocked := by simpa [readied, forkChild, initProc, hpi] using hp
    -- the new process is a child of the running one, which is not blocked
    have hchild : ∀ j, (readied (forkChild (initProc s H i) i c t) i n hd).parent j = some p →
        j ≠ i ∧ s.parent j = some p := by
      intro j hj
      by_cases hji : j = i
      · subst hji
        have : c = p := by simpa [readied, forkChild] using hj
        subst this
        simp [hcs] at hp'
      · exact ⟨hji, by simpa [readied, forkChild, initProc, hji] using hj⟩
    refine ⟨fun j hj hpid hpar => ?_, fun hpid j hpar => ?_⟩
    · obtain ⟨hji, hpar'⟩ := hchild j hpar
      simpa [readied, forkChild, initProc, hji] using (hn p hp').1 j hj hpid hpar'
    · obtain ⟨hji, hpar'⟩ := hchild j hpar
      simpa [readied, forkChild, initProc, hji] using (hn p hp').2 hpid j hpar'

theorem NoLostWakeup.resume {hd : Queue → Option Slot} (hn : NoLostWakeup s) :
    NoLostWakeup (switchTo { s with status := Function.update s.status c .running, head := hd } H H c) := by
  have hn1 : NoLostWakeup { s with status := Function.update s.status c .running } :=
    hn.update (x := c) rfl rfl rfl (by simp) (by simp)
  intro p hp
  have hpc : p ≠ c := by
    rintro rfl
    simp [switchTo] at hp
  have hwait : (switchTo { s with status := Function.update s.status c .running, head := hd } H H c).gh.waiting p =
      s.gh.waiting p := by
    rw [waiting_switchTo, Function.update_of_ne hpc]
  rw [hwait]
  exact hn1 p hp

theorem Resched.noLost (hre : Resched s q H s' q') (hn : NoLostWakeup s) : NoLostWakeup s' := by
  cases hre with
  | run hq => exact hn.resume
  | idle hq hg => exact hn
  | park hq hg => exact hn

/-- the condition on a step: a wait call is made in time -/
def WaitsInTime (s : St) : Label → Prop
  | .trap H (.wait pid) => ∀ c, s.phase H = .user c → InTime s c pid
  | _ => True

theorem noLost_step (hi : Inv s q) (hw : WaitInv s q) (hn : NoLostWakeup s) (ht : WaitsInTime s l)
    (hst : AStep s q l s' q') : NoLostWakeup s' := by
  cases hst with
  | @trap H c e s1 q1 nx _ _ hph hb hr1 hf =>
    have hc := runs_eq.2 hph
    have ht' : ∀ pid, e = .wait pid → InTime (saveRegs s H c e) c pid := by
      rintro pid rfl
      exact ht c hph
    have hn1 := hb.noLost hn (waiting_saveRegs hi hw hph e) hi.located hc ht'
    have hrun : nx ≠ .sched → s1.status = Function.update s1.status c .running := by
      intro hnx
      have hl1 := hb.located hi.rep hi.located hc
      rw [if_neg hnx] at hl1
      rw [← hl1.running_of_run hc, Function.update_eq_self]
    cases hf with
    | @ret r =>
      have : NoLostWakeup (switchTo { setA0 s1 c r with
          status := Function.update s1.status c .running, head := s1.head } H H c) :=
        NoLostWakeup.resume (s := setA0 s1 c r) hn1
      rwa [← hrun (by simp)] at this
    | resume =>
      have : NoLostWakeup (switchTo { s1 with
          status := Function.update s1.status c .running, head := s1.head } H H c) := hn1.resume
      rwa [← hrun (by simp)] at this
    | sched hre => exact hre.noLost hn1
  | start hph hre => exact hre.noLost hn
  | wake hph hq hre => exact hre.noLost hn
  | stay hph hq hg => exact hn
  | shut hph hg => exact hn

theorem inTime_of_direct {pid : ℤ} (hw : doWait s c pid ≠ .block) : InTime s c pid := by
  refine ⟨fun i hi hpid hpar => ?_, fun hpid i j hpar hz hj => ?_⟩
  · subst hpid
    exact absurd (doWait_pos hi hpar) hw
  · subst hpid
    by_contra hne
    exact hw (by rw [doWait_any hj, if_neg hne])

theorem Resched.keeps (hre : Resched s q H s' q') (hs : ∀ p ∈ q (.ready H), s.status p = .ready) :
    s'.parent = s.parent ∧
      ∀ p, s.status p ≠ .ready → s'.status p = s.status p ∧ s'.gh.waiting p = s.gh.waiting p := by
  cases hre with
  | idle hq hg => exact ⟨rfl, fun _ _ => ⟨rfl, rfl⟩⟩
  | park hq hg => exact ⟨rfl, fun _ _ => ⟨rfl, rfl⟩⟩
  | @run x rest hd hq =>
    refine ⟨rfl, fun p hp => ?_⟩
    have hpx : p ≠ x := by
      rintro rfl
      exact hp (hs p (by simp [hq]))
    exact ⟨by simp [switchTo, hpx], by simp [waiting_switchTo, hpx]⟩

theorem inTime_of_noLost (hi : Inv s q) (hst : AStep s q l s' q') (hn : NoLostWakeup s') : WaitsInTime s l := by
  cases hst with
  | start | wake | stay | shut => trivial
  | @trap H c e s1 q1 nx _ _ hph hb hr1 hf =>
    cases e with
    | fork | forkTo | yield | timer | exit | semNew | semP | semV => trivial
    | wait pid =>
      intro c' hph'
      cases hph.symm.trans hph'
      have hl1 := hb.located hi.rep hi.located (runs_eq.2 hph)
      cases hb with
      | fork he _ => cases he
      | badSem he => simp at he
      | waitRet hw => exact inTime_of_direct (s := saveRegs s H c (.wait pid)) (by simp [hw])
      | reap hw => exact inTime_of_direct (s := saveRegs s H c (.wait pid)) (by simp [hw])
      | @waitBlock _ n hd hw =>
        cases hf with
        | sched hre =>
          obtain ⟨hpar', hkeep⟩ := hre.keeps fun p hp => hl1.ready_of_mem hp
          obtain ⟨hcs, hcw⟩ := hkeep c (by simp [suspended])
          have hdead : ∀ j, s.status j = .zombie ∨ s.status j = .free → s'.status j = s.status j := by
            intro j hj
            have hjc : j ≠ c := by
              rintro rfl
              have := hi.located.running_of_run (runs_eq.2 hph)
              rcases hj with hj | hj <;> simp [hj] at this
            have hj1 := (hkeep j (by rcases hj with hj | hj <;> simp [suspended, saveRegs, hjc, hj])).1
            simpa [suspended, saveRegs, hjc] using hj1
          have hnc := hn c (by rw [hcs]; simp [suspended])
          rw [hcw, hpar'] at hnc
          simp only [suspended, Ghost.blocked, Function.update_self, Option.some.injEq] at hnc
          refine ⟨fun i hi0 hpid hpar => ?_, fun hpid i j hpar hz hj => ?_⟩
          · have := hnc.1 i hi0 hpid hpar
            grind
          · exact absurd (by rw [hdead i (.inl hz), hz]) (hnc.2 hpid i hpar)

theorem waitInv_boot (slot : Hart → Slot) (loaded : Hart → Bool) (q : Lists) : WaitInv (boot slot loaded) q := by
  intro p pid hp
  simp [boot] at hp

theorem noLost_boot (slot : Hart → Slot) (loaded : Hart → Bool) : NoLostWakeup (boot slot loaded) := by
  intro p hp
  grind [boot]

theorem waitInv_reach {C : St → Label → Prop} (hs : Reach (step .ideal) C Boot s) : ∃ q, Inv s q ∧ WaitInv s q := by
  refine Reach.inv (P := fun s => ∃ q, Inv s q ∧ WaitInv s q) ?_ ?_ hs
  · rintro s ⟨slot, loaded, hinj, rfl⟩
    exact ⟨_, inv_boot hinj, waitInv_boot slot loaded _⟩
  · rintro s l s' ⟨q, hi, hw⟩ _ hst
    obtain ⟨q', ha, hr'⟩ := (step_ends hi l).of_ok hst
    exact ⟨q', inv_step hi ha hr', waitInv_step hi hw ha⟩

/-- **No lost wake-up.** In every run in which each wait call is made in time, no process is blocked in wait(pid) while
its child in slot pid is ZOMBIE or FREE, and none in wait(-1) while a child is ZOMBIE. The next step keeps this if and
only if it meets the condition. -/
theorem no_lost_wakeup (hs : Reach (step .ideal) WaitsInTime Boot s) :
    NoLostWakeup s ∧ ∀ l s', step .ideal s l = .ok s' → (NoLostWakeup s' ↔ WaitsInTime s l) := by
  have hsafe : NoLostWakeup s := by
    induction hs with
    | init h =>
      obtain ⟨slot, loaded, _, rfl⟩ := h
      exact noLost_boot slot loaded
    | step l h hc hst ih =>
      obtain ⟨q, hi, hw⟩ := waitInv_reach h
      obtain ⟨q', ha, _⟩ := (step_ends hi l).of_ok hst
      exact noLost_step hi hw ih hc ha
  refine ⟨hsafe, fun l s' hst => ?_⟩
  obtain ⟨q, hi, hw⟩ := waitInv_reach hs
  obtain ⟨q', ha, _⟩ := (step_ends hi l).of_ok hst
  exact ⟨fun hn => inTime_of_noLost hi ha hn, fun ht => noLost_step hi hw hsafe ht ha⟩

def inTime (s : St) (c : Slot) (pid : ℤ) : Bool :=
  decide ((∀ i : Slot, 0 < i.val → pid = (i.val : ℤ) → s.parent i = some c → s.status i ≠ .zombie ∧
    s.status i ≠ .free) ∧
    (pid = -1 → (∃ i, s.parent i = some c ∧ s.status i = .zombie) →
      ∀ j ∈ firstChild s c, s.status j = .zombie))

def waitsInTime (s : St) : Label → Bool
  | .trap H (.wait pid) =>
    match s.phase H with
    | .user c => inTime s c pid
    | _ => true
  | _ => true

theorem waitsInTime_sound (s : St) (l : Label) (hl : waitsInTime s l = true) : WaitsInTime s l := by
  cases l with
  | spin H => trivial
  | trap H e =>
    cases e with
    | fork | forkTo | yield | timer | exit | semNew | semP | semV => trivial
    | wait pid =>
      intro c hph
      simp only [waitsInTime, hph, inTime, decide_eq_true_eq] at hl
      exact ⟨hl.1, fun hpid i j hpar hz hj => hl.2 hpid ⟨i, hpar, hz⟩ j hj⟩

def waitFirst : List Label := [.spin 0, .trap 0 .fork, .trap 0 (.wait 4), .trap 0 (.exit 0)]

theorem no_lost_wakeup_waitFirst :
    (exec (step .ideal) booted waitFirst).status 4 = .zombie ∧
    (exec (step .ideal) booted waitFirst).status 0 = .running ∧
      NoLostWakeup (exec (step .ideal) booted waitFirst) :=
  ⟨by decide +kernel, by decide +kernel,
    (no_lost_wakeup (reach_exec waitsInTime_sound waitFirst booted (.init booted_boot) (by decide +kernel))).1⟩

def waitLate : List Label := [.spin 0, .trap 0 .fork, .trap 0 .yield, .trap 0 (.exit 0), .trap 0 (.wait 4)]

/-- the parent is blocked in wait(4) while its child in slot 4 is ZOMBIE -/
theorem wait_on_zombie : Reachable .ideal (exec (step .ideal) booted waitLate) ∧
    (exec (step .ideal) booted waitLate).status 0 = .blocked ∧
    (exec (step .ideal) booted waitLate).gh.waiting 0 = some 4 ∧
    (exec (step .ideal) booted waitLate).parent 4 = some 0 ∧
    (exec (step .ideal) booted waitLate).status 4 = .zombie ∧
    ¬ NoLostWakeup (exec (step .ideal) booted waitLate) := by
  have hb : (exec (step .ideal) booted waitLate).status 0 = .blocked := by decide +kernel
  have hw : (exec (step .ideal) booted waitLate).gh.waiting 0 = some 4 := by decide +kernel
  have hp : (exec (step .ideal) booted waitLate).parent 4 = some 0 := by decide +kernel
  have hz : (exec (step .ideal) booted waitLate).status 4 = .zombie := by decide +kernel
  exact ⟨reachable_exec (by decide +kernel), hb, hw, hp, hz, fun hn => ((hn 0 hb).1 4 (by decide) hw hp).1 hz⟩

end RiscvPke.Sched
