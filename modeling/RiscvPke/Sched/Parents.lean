/-
Parent links. `procs[i].parent` is a pointer to a slot and is never cleared, while slots are handed out again; the
history variables `gh.gen` and `gh.forker` name process instances: slot and generation.
-/
import RiscvPke.Sched.Reap

namespace RiscvPke.Sched

open Function Chain RiscvPke.System

variable {s s1 s' : St} {q q1 q' : Lists} {H : Hart} {c p i : Slot} {e : Entry} {nx : Next} {l : Label}
variable {run : Hart → Option Slot}

def RealParents (s : St) : Prop :=
  ∀ i p, s.status i ≠ .free → s.parent i = some p → s.gh.forker i = some (p, s.gh.gen p)

def FreshSlot (s : St) : Prop :=
  ∀ j, freeSlot s = some j → ∀ i, s.status i ≠ .free → s.parent i ≠ some j

def Entry.forks : Entry → Prop
  | .fork => True
  | .forkTo x => 0 ≤ x ∧ x.toNat < NCPU
  | _ => False

theorem Forks.forks {T t : Hart} (he : Forks s H c e T t) : e.forks := by
  cases he with
  | fork => trivial
  | @forkTo x _ hx =>
    subst hx
    exact ⟨by simp, by simp⟩

/-! ## Steps -/

theorem RealParents.congr (hp : RealParents s) (hs : ∀ i, s1.status i ≠ .free → s.status i ≠ .free)
    (hpar : s1.parent = s.parent) (hg : s1.gh.gen = s.gh.gen) (hf : s1.gh.forker = s.gh.forker) : RealParents s1 := by
  intro i p hi hip
  rw [hf, hg]
  exact hp i p (hs i hi) (hpar ▸ hip)

theorem Body.realParents (hb : Body s q H c e s1 q1 nx) (hp : RealParents s) (hl : Located s.status run q)
    (hc : run H = some c) (hfresh : e.forks → FreshSlot s) : RealParents s1 := by
  have hcs := hl.running_of_run hc
  -- no entry but fork fills a FREE slot
  have hfree : ∀ {x : Slot} {st : Status}, s.status x ≠ .free → ∀ i, update s.status x st i ≠ .free →
      s.status i ≠ .free := by
    grind
  have hcfree : s.status c ≠ .free := by simp [hcs]
  cases hb with
  | badTarget | tick | waitRet | semNew | badSem | semPGo | semVGo => exact hp
  | yield | slice | waitBlock | semPBlock | exit => exact hp.congr (hfree hcfree) rfl rfl rfl
  | reap hw => exact hp.congr (hfree (by simp [(doWait_freed hw).1])) rfl rfl rfl
  | @semVWake id k p rest n hd hi hneg hq =>
    have : s.status p = .blocked := hl.blocked_of_mem (k := .sem k) (by simp [hq]) trivial
    exact hp.congr (hfree (by simp [this])) rfl rfl rfl
  | @exitWake code par h n hd hpar hm =>
    have hblk : s.status par = .blocked := hl.blocked_of_mem hm trivial
    have hne : c ≠ par := fun he => by simp [he, hblk] at hcs
    refine hp.congr (fun i hi => ?_) rfl rfl rfl
    by_cases hic : i = c
    · exact hic ▸ hcfree
    · exact hfree (x := par) (by simp [hblk]) i (by simpa [readied, freeProcess, update_comm hne, hic] using hi)
  | @fork _ T t j n hd he hj =>
    have hcj : c ≠ j := by
      rintro rfl
      exact hcfree (freeSlot_free hj)
    intro i p hi hip
    by_cases hij : i = j
    · subst hij
      have : c = p := by simpa [readied, forkChild] using hip
      subst this
      simp [readied, forkChild, initProc, hcj]
    · have hi' : s.status i ≠ .free := by simpa [readied, forkChild, initProc, hij] using hi
      have hip' : s.parent i = some p := by simpa [readied, forkChild, initProc, hij] using hip
      have hpj : p ≠ j := by
        rintro rfl
        exact hfresh he.forks p hj i hi' hip'
      simpa [readied, forkChild, initProc, hij, hpj] using hp i p hi' hip'

theorem forker_switchTo (s : St) (H h : Hart) (p : Slot) : (switchTo s H h p).gh.forker = s.gh.forker := by
  unfold switchTo
  cases s.gh.waiting p <;> rfl

theorem Resched.realParents (hre : Resched s q H s' q') (hp : RealParents s)
    (hs : ∀ p ∈ q (.ready H), s.status p = .ready) : RealParents s' := by
  cases hre with
  | idle hq hg => exact hp
  | park hq hg => exact hp
  | @run x rest hd hq =>
    refine hp.congr (fun i hi => ?_) rfl (gen_switchTo _ _ _ _) (forker_switchTo _ _ _ _)
    by_cases hix : i = x
    · subst hix
      simp [hs i (by simp [hq])]
    · simpa [switchTo, hix] using hi

def ForkSafe (s : St) : Label → Prop
  | .trap H e => e.forks → (∃ c, s.phase H = .user c) → FreshSlot s
  | .spin _ => True

theorem realParents_step (hi : Inv s q) (hp : RealParents s) (hf : ForkSafe s l) (hst : AStep s q l s' q') :
    RealParents s' := by
  cases hst with
  | start hph hre => exact hre.realParents hp fun p hp => hi.located.ready_of_mem hp
  | wake hph hq hre => exact hre.realParents hp fun p hp => hi.located.ready_of_mem hp
  | stay hph hq hg => exact hp
  | shut hph hg => exact hp
  | @trap H c e s1 q1 nx _ _ hph hb hr1 hfin =>
    have hc := runs_eq.2 hph
    have hp1 : RealParents s1 := hb.realParents hp hi.located hc fun he => hf he ⟨c, hph⟩
    have hl1 := hb.located hi.rep hi.located hc
    cases hfin with
    | ret => exact hp1.congr (fun _ => id) rfl (gen_switchTo _ _ _ _) (forker_switchTo _ _ _ _)
    | resume => exact hp1.congr (fun _ => id) rfl (gen_switchTo _ _ _ _) (forker_switchTo _ _ _ _)
    | sched hre => exact hre.realParents hp1 fun p hp => hl1.ready_of_mem hp

theorem forkSafe_of_real (hp : RealParents s) (hst : AStep s q l s' q') (hp' : RealParents s') : ForkSafe s l := by
  cases hst with
  | start | wake | stay | shut => trivial
  | @trap H c e s1 q1 nx _ _ hph hb hr1 hf =>
    intro he _ j hj i hi hpar
    cases hb with
    | yield | slice | tick | waitRet | reap | waitBlock | exit | exitWake | semNew | semPGo | semPBlock | semVGo |
      semVWake => exact he
    | badTarget hx => exact hx he
    | badSem he' => rcases he' with rfl | rfl <;> exact he
    | @fork _ T t k n hd hfk hk =>
      have hkj : k = j := Option.some.inj (hk.symm.trans hj)
      subst hkj
      have hik : i ≠ k := by
        rintro rfl
        exact hi (freeSlot_free hk)
      cases hf
      have hold := hp i k hi hpar
      have hnew := hp' i k (by simpa [sysReturn, switchTo, setA0, readied, forkChild, initProc, saveRegs, hik] using hi)
        (by simpa [sysReturn, switchTo, setA0, readied, forkChild, initProc, saveRegs, hik] using hpar)
      simp only [sysReturn, gen_switchTo, forker_switchTo] at hnew
      simp [setA0, readied, forkChild, initProc, saveRegs, hik, hold] at hnew

/-! ## Who is woken, and who is told -/

theorem exit_wakes_forker {code : ℤ} (hi : Inv s q) (hp : RealParents s) (hst : AStep s q (.trap H (.exit code)) s' q')
    (hph : s.phase H = .user c) (hb : s.status p = .blocked) (hb' : s'.status p ≠ .blocked) :
    s.gh.forker c = some (p, s.gh.gen p) := by
  have hcs := hi.located.running_of_run (runs_eq.2 hph)
  have hpc : p ≠ c := by
    rintro rfl
    simp [hb] at hcs
  cases hst with
  | @trap _ c' _ s1 q1 nx _ _ hph' hbody hr1 hf =>
    cases hph.symm.trans hph'
    have hl1 := hbody.located hi.rep hi.located (runs_eq.2 hph)
    have hkeep : nx = .sched → s1.status p = .blocked → False := by
      rintro rfl hs1
      cases hf with
      | sched hre =>
        have := ((hre.keeps fun x hx => hl1.ready_of_mem hx).2 p (by simp [hs1])).1
        exact hb' (this.trans hs1)
    cases hbody with
    | fork he _ => cases he
    | badSem he => simp at he
    | exit hno => exact absurd (by simpa [freeProcess, saveRegs, hpc] using hb) (hkeep rfl)
    | @exitWake _ par h n hd hpar hm =>
      by_cases hpp : p = par
      · subst hpp
        exact hp c p (by simp [hcs]) hpar
      · exact absurd (by simpa [readied, freeProcess, saveRegs, hpc, hpp] using hb) (hkeep rfl)

theorem wait_reports_forker {pid : ℤ} (hi : Inv s q) (hp : RealParents s) (hst : AStep s q (.trap H (.wait pid)) s' q')
    (hph : s.phase H = .user c) (hz : s.status i = .zombie) (hf' : s'.status i = .free) :
    s.gh.forker i = some (c, s.gh.gen c) := by
  cases hst with
  | @trap _ c' _ s1 q1 nx _ _ hph' hbody hr1 hf =>
    cases hph.symm.trans hph'
    have hl1 := hbody.located hi.rep hi.located (runs_eq.2 hph)
    have hkeep : s1.status i ≠ .zombie := by
      intro hz1
      have : s'.status i = .zombie := by
        cases hf with
        | ret => exact hz1
        | resume => exact hz1
        | sched hre => exact hre.zombie hl1 hz1
      simp [hf'] at this
    rcases hbody.zombie hi.located (runs_eq.2 hph) hz with hz1 | ⟨r, w, hret, hw, hfr⟩
    · exact absurd hz1 hkeep
    · cases hbody with
      | fork he _ => cases he
      | badSem he => simp at he
      | waitBlock hd => cases hret
      | waitRet hd =>
        rw [← (List.cons.inj hw).1] at hfr
        cases hfr
      | @reap _ _ j hd =>
        rw [← (List.cons.inj hw).1] at hfr
        cases hfr
        exact hp i c (by simp [hz]) (doWait_freed hd).2.1

theorem realParents_reach (hs : Reach (step .ideal) ForkSafe Boot s) : RealParents s := by
  induction hs with
  | init h =>
    obtain ⟨slot, loaded, _, rfl⟩ := h
    intro i p _ hip
    simp [boot] at hip
  | step l h hc hst ih =>
    obtain ⟨q, hi, _⟩ := waitInv_reach h
    obtain ⟨q', ha, _⟩ := (step_ends hi l).of_ok hst
    exact realParents_step hi ih hc ha

/-- **Parent links denote the real parent.** In every run in which no fork takes a slot that is still the parent of a
process that is not FREE: every parent link leads to the instance that forked, an exit wakes only the forker, and a wait
call reports a child only to its forker. The next step keeps the links real if and only if it meets the condition. -/
theorem parent_links (hs : Reach (step .ideal) ForkSafe Boot s) :
    RealParents s ∧ ∀ l s', step .ideal s l = .ok s' →
      (RealParents s' ↔ ForkSafe s l) ∧
      (∀ H code c p, l = .trap H (.exit code) → s.phase H = .user c → s.status p = .blocked → s'.status p ≠ .blocked →
        s.gh.forker c = some (p, s.gh.gen p)) ∧
      (∀ H pid c i, l = .trap H (.wait pid) → s.phase H = .user c → s.status i = .zombie → s'.status i = .free →
        s.gh.forker i = some (c, s.gh.gen c)) := by
  have hp := realParents_reach hs
  refine ⟨hp, fun l s' hst => ?_⟩
  obtain ⟨q, hi, _⟩ := waitInv_reach hs
  obtain ⟨q', ha, _⟩ := (step_ends hi l).of_ok hst
  refine ⟨⟨fun hp' => forkSafe_of_real hp ha hp', fun hf => realParents_step hi hp hf ha⟩, ?_, ?_⟩
  · rintro H code c p rfl hph hb hb'
    exact exit_wakes_forker hi hp ha hph hb hb'
  · rintro H pid c i rfl hph hz hf
    exact wait_reports_forker hi hp ha hph hz hf

/-! ## Runs -/

def forkSafe (s : St) : Label → Bool
  | .trap _ .fork | .trap _ (.forkTo _) => decide (∀ j ∈ freeSlot s, ∀ i, s.status i ≠ .free → s.parent i ≠ some j)
  | _ => true

theorem forkSafe_sound (s : St) (l : Label) (hl : forkSafe s l = true) : ForkSafe s l := by
  cases l with
  | spin H => trivial
  | trap H e =>
    cases e with
    | fork | forkTo =>
      intro _ _ j hj
      simp only [forkSafe, decide_eq_true_eq] at hl
      exact hl j hj
    | yield | timer | wait | exit | semNew | semP | semV => exact fun he => absurd he id

def family : List Label := [.spin 0, .trap 0 .fork, .trap 0 .fork, .trap 0 .yield, .trap 0 .fork]

theorem parent_links_family : (exec (step .ideal) booted family).parent 6 = some 4 ∧
    (exec (step .ideal) booted family).gh.forker 6 = some (4, 1) ∧ RealParents (exec (step .ideal) booted family) :=
  ⟨by decide +kernel, by decide +kernel,
    (parent_links (reach_exec forkSafe_sound family booted (.init booted_boot) (by decide +kernel))).1⟩

def orphan : List Label :=
  [.spin 0, .trap 0 .fork, .trap 0 .yield, .trap 0 .fork, .trap 0 (.exit 0), .trap 0 (.wait (-1)), .trap 0 .fork]

/-- process 5 is now a child of the second instance in slot 4, but has been forked by the first -/
theorem orphan_adopted : Reachable .ideal (exec (step .ideal) booted orphan) ∧
    (exec (step .ideal) booted orphan).status 5 = .ready ∧ (exec (step .ideal) booted orphan).parent 5 = some 4 ∧
    (exec (step .ideal) booted orphan).gh.forker 5 = some (4, 1) ∧ (exec (step .ideal) booted orphan).gh.gen 4 = 2 ∧
    ¬ RealParents (exec (step .ideal) booted orphan) := by
  have hs : (exec (step .ideal) booted orphan).status 5 = .ready := by decide +kernel
  have hp : (exec (step .ideal) booted orphan).parent 5 = some 4 := by decide +kernel
  have hf : (exec (step .ideal) booted orphan).gh.forker 5 = some (4, 1) := by decide +kernel
  have hg : (exec (step .ideal) booted orphan).gh.gen 4 = 2 := by decide +kernel
  refine ⟨reachable_exec (by decide +kernel), hs, hp, hf, hg, fun hr => ?_⟩
  have := hr 5 4 (by simp [hs]) hp
  rw [hf, hg] at this
  simp at this

/-! ## Exits without a parent -/

/-- a process without a parent finds no process that waits -/
def Searchable (s : St) (c : Slot) : Prop := s.parent c = none → ∀ h, s.head (.block h) = none

theorem wakeParent_null (s : St) (c : Slot) (hs : List Hart) :
    wakeParent s c hs = .error .nullPointer ↔ s.parent c = none ∧ ∃ h ∈ hs, s.head (.block h) ≠ none := by
  induction hs with
  | nil => simp [wakeParent]
  | cons g hs ih =>
    cases hh : s.head (.block g) with
    | none => simpa [wakeParent, wakeFromBlockQueue, hh, bind, Except.bind] using ih
    | some x =>
      cases hpar : s.parent c with
      | none => simp [wakeParent, wakeFromBlockQueue, hh, hpar, bind, Except.bind]
      | some par =>
        have hno : wakeParent s c hs ≠ .error .nullPointer := fun he => by simp [hpar] at ih; exact ih he
        simp only [wakeParent, wakeFromBlockQueue, hh, hpar, takeFrom]
        rcases find s.queue_next (fun p => decide (p = par)) NPROC none (some x) with _ | _ | ⟨prev, p⟩ <;>
          simp [bind, Except.bind, hno, pure, Except.pure]

theorem searchable_iff : Searchable s c ↔ wakeParent s c (List.finRange NCPU) ≠ .error .nullPointer := by
  simp [Searchable, wakeParent_null]

theorem enqueue_null (k : Queue) (st : Status) : enqueue s k p st ≠ .error .nullPointer := by
  unfold enqueue
  grind

theorem schedule_null (H h : Hart) : schedule s H h ≠ .error .nullPointer := by
  unfold schedule dispatch
  grind

theorem sysUserExit_null (H h : Hart) :
    sysUserExit s H h c = .error .nullPointer ↔ wakeParent s c (List.finRange NCPU) = .error .nullPointer := by
  unfold sysUserExit
  cases hw : wakeParent s c (List.finRange NCPU) with
  | error e => simp [bind, Except.bind]
  | ok r =>
    obtain ⟨s1, _ | ⟨x, g⟩⟩ := r
    · simp [bind, Except.bind, schedule_null]
    · simp only [bind, Except.bind, insertToSpecificReadyQueue]
      generalize hq : enqueue _ _ _ _ = y
      cases y with
      | error e =>
        simp
        rintro rfl
        exact enqueue_null _ _ hq
      | ok s2 => simp [schedule_null]

/-- the trap `e` on hart `H` is a system call, and the kernel takes it for an exit of `c`: `c` is the process in
`current[read_tp()]`, and the number in its trapframe is that of exit. For a trap of `c` itself this says that `e` is an
exit. -/
def ExitOf (m : TpMode) (s : St) (H : Hart) (e : Entry) (c : Slot) : Prop :=
  ∃ p, s.phase H = .user p ∧ s.current (readTp m s H) = some c ∧ (∀ a b, e ≠ .timer a b) ∧
    ((saveRegs s H p e).trapframe c).a0 = SYS_user_exit

theorem exitOf_own {m : TpMode} {code : ℤ} (hph : s.phase H = .user c) (hcur : s.current (readTp m s H) = some c) :
    ExitOf m s H (.exit code) c :=
  ⟨c, hph, hcur, by simp, by simp [saveRegs, Entry.regs]⟩

theorem step_exitOf {m : TpMode} (h : ExitOf m s H e c) :
    ∃ p, step m s (.trap H e) = sysUserExit (saveRegs s H p e) H (readTp m s H) c := by
  obtain ⟨p, hph, hcur, he, ha0⟩ := h
  have hcur' : (saveRegs s H p e).current (readTp m (saveRegs s H p e) H) = some c := hcur
  refine ⟨p, ?_⟩
  simp only [step, hph, smodeTrapHandler, hcur']
  have hcall := doSyscall_regs (s := saveRegs s H p e) (H := H) (h := readTp m s H) (c := c)
    (e := .exit ((saveRegs s H p e).trapframe c).a1) (by simp) ha0 rfl
  cases e with
  | timer a b => exact absurd rfl (he a b)
  | fork | forkTo | yield | wait | exit | semNew | semP | semV => exact hcall

/-- **Exits without a parent.** The search of `sys_user_exit` for a waiting parent reads through a null pointer exactly
if the process has no parent and a process waits on some hart; in every reachable state it comes to its end otherwise.
-/
theorem exit_search {m : TpMode} (h : ExitOf m s H e c) :
    (step m s (.trap H e) ≠ .error .nullPointer ↔ Searchable s c) ∧
      (Reachable .ideal s → Searchable s c → ∃ r, wakeParent s c (List.finRange NCPU) = .ok r) := by
  constructor
  · obtain ⟨p, hstep⟩ := step_exitOf h
    rw [hstep, ne_eq, sysUserExit_null, wakeParent_null]
    simp [Searchable, saveRegs]
  · intro hs hn
    obtain ⟨q, hi⟩ := inv_reachable hs
    by_cases hw : ∃ par h, s.parent c = some par ∧ par ∈ q (.block h)
    · obtain ⟨par, h, hpar, hm⟩ := hw
      obtain ⟨n, hd, he, -⟩ := wakeParent_mem hi.rep hi.located.apart hpar hm (List.finRange NCPU) (by simp)
      exact ⟨_, he⟩
    · rcases wakeParent_none hi.rep (fun par hpar h hm => hw ⟨par, h, hpar, hm⟩) (List.finRange NCPU) with he | ⟨-, he⟩
      · exact ⟨_, he⟩
      · exact absurd he (searchable_iff.1 hn)

def waitingHart : List Label := [.spin 0, .trap 0 .fork, .trap 0 (.wait 4), .spin 1]

/-- the exit of the initial process of hart 1 -/
theorem exit_null_parent : Reachable .ideal (exec (step .ideal) booted waitingHart) ∧
    (step .ideal (exec (step .ideal) booted waitingHart) (.trap 1 (.exit 0))).map (fun _ => ()) = .error .nullPointer :=
  ⟨reachable_exec (by decide +kernel), by decide +kernel⟩

def nobodyWaits : List Label := [.spin 0, .trap 0 .fork, .spin 1]

/-- the initial process of hart 1, which has no parent, exits when nobody waits; the child of process 0 exits while
process 0 waits for it -/
theorem exit_search_nobodyWaits :
    (exec (step .ideal) booted nobodyWaits).parent 1 = none ∧
      step .ideal (exec (step .ideal) booted nobodyWaits) (.trap 1 (.exit 0)) ≠ .error .nullPointer ∧
      (exec (step .ideal) booted waitingHart).head (.block 0) = some 0 ∧
      step .ideal (exec (step .ideal) booted waitingHart) (.trap 0 (.exit 0)) ≠ .error .nullPointer := by
  have h1 : ExitOf .ideal (exec (step .ideal) booted nobodyWaits) 1 (.exit 0) 1 :=
    exitOf_own (by decide +kernel) (by decide +kernel)
  have h4 : ExitOf .ideal (exec (step .ideal) booted waitingHart) 0 (.exit 0) 4 :=
    exitOf_own (by decide +kernel) (by decide +kernel)
  have hs1 : Searchable (exec (step .ideal) booted nobodyWaits) 1 := fun _ => by decide +kernel
  have hpar : (exec (step .ideal) booted waitingHart).parent 4 = some 0 := by decide +kernel
  have hs4 : Searchable (exec (step .ideal) booted waitingHart) 4 := fun hn => by simp [hpar] at hn
  exact ⟨by decide +kernel, (exit_search h1).1.2 hs1, by decide +kernel, (exit_search h4).1.2 hs4⟩

end RiscvPke.Sched
