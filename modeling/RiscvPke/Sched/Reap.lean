/-
What a wait call delivers. `gh.waits` is the log of the wait calls that have resumed their callers, with the value that
the caller finds in a0 and the process instance that the call has changed from ZOMBIE to FREE.
-/
import RiscvPke.Sched.Wait

namespace RiscvPke.Sched

open Function Chain RiscvPke.System

variable {s s1 s' : St} {q q1 q' : Lists} {H : Hart} {c p i : Slot} {e : Entry} {nx : Next} {l : Label} {w : WaitDone}
variable {run : Hart → Option Slot}

/-! ## The log -/

def Direct (s : St) (l : Label) (s' : St) (w : WaitDone) : Prop :=
  ∃ H, l = .trap H (.wait w.pid) ∧ s.phase H = .user w.caller ∧
    ((w.r = -1 ∧ w.freed = none) ∨
      ∃ i : Slot, w.r = (i.val : ℤ) ∧ w.pid = -1 ∧ s.parent i = some w.caller ∧ s.status i = .zombie ∧
        s'.status i = .free ∧ w.freed = some (i, s.gh.gen i))

def Resumed (s : St) (w : WaitDone) : Prop :=
  s.gh.waiting w.caller = some w.pid ∧ w.r = SYS_user_wait ∧ w.freed = none

/-- the caller goes on in user mode and finds the value of the entry in a0 -/
def Returned (s' : St) (w : WaitDone) : Prop :=
  ∃ H, s'.phase H = .user w.caller ∧ (s'.trapframe w.caller).a0 = w.r

theorem waits_switchTo (s : St) (H h : Hart) (p : Slot) :
    ((switchTo s H h p).gh.waits = s.gh.waits ∧ s.gh.waiting p = none) ∨
      ∃ pid, s.gh.waiting p = some pid ∧
        (switchTo s H h p).gh.waits = ⟨p, pid, (s.trapframe p).a0, s.gh.freed p⟩ :: s.gh.waits := by
  unfold switchTo
  cases hp : s.gh.waiting p with
  | none => exact .inl ⟨rfl, rfl⟩
  | some pid => exact .inr ⟨pid, rfl, rfl⟩

theorem waits_resume {h : Hart} (hn : s.gh.waiting c = none) : (switchTo s H h c).gh.waits = s.gh.waits := by
  rcases waits_switchTo s H h c with ⟨he, _⟩ | ⟨pid, hp, _⟩
  · exact he
  · exact absurd (hn.symm.trans hp) (by simp)

theorem doWait_none {pid r : ℤ} (hw : doWait s c pid = .ret r none) : r = -1 := by
  grind [doWait]

theorem Body.waiting (hb : Body s q H c e s1 q1 nx) (p : Slot) :
    s1.gh.waiting p = s.gh.waiting p ∨ (p = c ∧ s1.status c = .blocked) := by
  cases hb with
  | fork | badTarget | yield | slice | tick | waitRet | reap | exit | exitWake | semNew | badSem | semPGo | semPBlock |
    semVGo | semVWake => exact .inl rfl
  | waitBlock =>
    by_cases hp : p = c
    · exact .inr ⟨hp, by simp [suspended]⟩
    · exact .inl (by simp [suspended, Ghost.blocked, hp])

theorem Resched.log (hre : Resched s q H s' q') (hw : WaitInv s q) : s'.gh.waits = s.gh.waits ∨
      ∃ w, s'.gh.waits = w :: s.gh.waits ∧ Returned s' w ∧ Resumed s w ∧ w.caller ∈ q (.ready H) := by
  cases hre with
  | idle hq hg => exact .inl rfl
  | park hq hg => exact .inl rfl
  | @run p rest hd hq =>
    rcases waits_switchTo { s with status := update s.status p .running, head := hd } H H p with
      ⟨he, _⟩ | ⟨pid, hp, he⟩
    · exact .inl he
    · exact .inr ⟨_, he, ⟨H, by simp [switchTo], rfl⟩, ⟨hp, (hw p pid hp).2⟩, by simp [hq]⟩

theorem log_step (hi : Inv s q) (hw : WaitInv s q) (hst : AStep s q l s' q') : s'.gh.waits = s.gh.waits ∨
      ∃ w, s'.gh.waits = w :: s.gh.waits ∧ Returned s' w ∧ (Direct s l s' w ∨ Resumed s w) := by
  have hres : ∀ {H}, Resched s q H s' q' → s'.gh.waits = s.gh.waits ∨
      ∃ w, s'.gh.waits = w :: s.gh.waits ∧ Returned s' w ∧ (Direct s l s' w ∨ Resumed s w) := by
    intro H hre
    rcases hre.log hw with he | ⟨w, he, hret, hr, _⟩
    · exact .inl he
    · exact .inr ⟨w, he, hret, .inr hr⟩
  cases hst with
  | start hph hre => exact hres hre
  | wake hph hq hre => exact hres hre
  | stay hph hq hg => exact .inl rfl
  | shut hph hg => exact .inl rfl
  | @trap H c e s1 q1 nx _ _ hph hb hr1 hf =>
    have hc := runs_eq.2 hph
    have hw0 := waiting_saveRegs hi hw hph e
    have hw1 := hb.waitInv hw0 hi.rep hi.located hc (by simp [saveRegs])
    have hl1 := hb.located hi.rep hi.located hc
    cases hf with
    | @ret r =>
      have he : (sysReturn s1 H H c r).gh.waits = s1.gh.waits :=
        waits_resume (s := setA0 s1 c r) (hw1.waiting_run hl1 hc)
      have hret : ∀ pid freed, Returned (sysReturn s1 H H c r) ⟨c, pid, r, freed⟩ := fun _ _ =>
        ⟨H, by simp [sysReturn, switchTo], by simp [sysReturn, switchTo, setA0]⟩
      cases hb with
      | fork | badTarget | semNew | badSem | semPGo | semVGo | semVWake => exact .inl he
      | @waitRet pid _ hd =>
        exact .inr ⟨_, he, hret _ _, .inl ⟨H, rfl, hph, .inl ⟨doWait_none hd, rfl⟩⟩⟩
      | @reap pid _ i hd =>
        obtain ⟨hz, hpar, hr, hpid, _⟩ := doWait_freed hd
        refine .inr ⟨_, he, hret _ _, .inl ⟨H, rfl, hph, .inr ⟨i, hr, hpid, hpar, hz, ?_, rfl⟩⟩⟩
        simp [sysReturn, switchTo, setA0]
    | resume =>
      cases hb with
      | tick ht => exact .inl (waits_resume (hw1.waiting_run hl1 hc))
    | sched hre =>
      have hwaits : s1.gh.waits = s.gh.waits := by cases hb <;> rfl
      rcases hre.log hw1 with he | ⟨w, he, hret, hr, hm⟩
      · exact .inl (he.trans hwaits)
      · refine .inr ⟨w, by rw [he, hwaits], hret, .inr ⟨?_, hr.2⟩⟩
        rcases hb.waiting w.caller with hsame | ⟨hwc, hblk⟩
        · exact hsame ▸ hr.1
        · have := hl1.ready_of_mem hm
          rw [hwc, hblk] at this
          simp at this

/-! ## Nothing is reaped twice -/

/-- the process instances that wait calls have reaped -/
def reaped (s : St) : List (Slot × ℕ) := s.gh.waits.filterMap WaitDone.freed

structure ReapInv (s : St) : Prop where
  nodup : (reaped s).Nodup
  /-- a reaped instance is gone: its slot is FREE, or has been handed out again -/
  old : ∀ i g, (i, g) ∈ reaped s → g ≤ s.gh.gen i ∧ (g = s.gh.gen i → s.status i = .free)

def Recycles (s s' : St) (i : Slot) : Prop :=
  s.gh.gen i ≤ s'.gh.gen i ∧ (s.status i = .free → s'.gh.gen i = s.gh.gen i → s'.status i = .free)

theorem Body.recycles (hb : Body s q H c e s1 q1 nx) (hl : Located s.status run q) (hc : run H = some c) (i : Slot) :
    Recycles s s1 i := by
  have hcs := hl.running_of_run hc
  -- the status of one process that is not FREE changes
  have hset : ∀ {x : Slot} {st : Status}, s.status x ≠ .free ∨ st = .free →
      s1.status = update s.status x st → s1.gh.gen = s.gh.gen → Recycles s s1 i := by
    intro x st hx hs hg
    refine ⟨by rw [hg], fun hf _ => ?_⟩
    rw [hs]
    grind
  cases hb with
  | badTarget | tick | waitRet | semNew | badSem | semPGo | semVGo => exact ⟨le_rfl, fun hf _ => hf⟩
  | yield | slice | waitBlock | semPBlock | exit => exact hset (x := c) (.inl (by simp [hcs])) rfl rfl
  | reap hw => exact hset (.inr rfl) rfl rfl
  | @semVWake id k p rest n hd hi hneg hq =>
    have : s.status p = .blocked := hl.blocked_of_mem (k := .sem k) (by simp [hq]) trivial
    exact hset (x := p) (.inl (by simp [this])) rfl rfl
  | @exitWake code par h n hd hpar hm =>
    have hblk : s.status par = .blocked := hl.blocked_of_mem hm trivial
    refine ⟨le_rfl, fun hf _ => ?_⟩
    have h1 : i ≠ par := by rintro rfl; simp [hf] at hblk
    have h2 : i ≠ c := by rintro rfl; simp [hf] at hcs
    simpa [readied, freeProcess, h1, h2] using hf
  | @fork _ T t j n hd he hj =>
    by_cases hij : i = j
    · subst hij
      exact ⟨by simp [readied, forkChild, initProc], fun _ hg => by simp [readied, forkChild, initProc] at hg⟩
    · exact ⟨by simp [readied, forkChild, initProc, hij],
        fun hf _ => by simpa [readied, forkChild, initProc, hij] using hf⟩

theorem gen_switchTo (s : St) (H h : Hart) (p : Slot) : (switchTo s H h p).gh.gen = s.gh.gen := by
  unfold switchTo
  cases s.gh.waiting p <;> rfl

theorem Resched.recycles (hre : Resched s q H s' q') (hs : ∀ p ∈ q (.ready H), s.status p = .ready) (i : Slot) :
    Recycles s s' i := by
  cases hre with
  | idle hq hg => exact ⟨le_rfl, fun hf _ => hf⟩
  | park hq hg => exact ⟨le_rfl, fun hf _ => hf⟩
  | @run p rest hd hq =>
    refine ⟨by rw [gen_switchTo], fun hf _ => ?_⟩
    have hip : i ≠ p := by
      rintro rfl
      have := hs i (by simp [hq])
      simp [hf] at this
    simpa [switchTo, hip] using hf

theorem Recycles.trans {s2 : St} (h1 : Recycles s s1 i) (h2 : Recycles s1 s2 i) : Recycles s s2 i := by
  refine ⟨h1.1.trans h2.1, fun hf hg => ?_⟩
  have hg1 : s1.gh.gen i = s.gh.gen i := le_antisymm (hg ▸ h2.1) h1.1
  exact h2.2 (h1.2 hf hg1) (hg.trans hg1.symm)

theorem recycles_step (hi : Inv s q) (hst : AStep s q l s' q') (i : Slot) : Recycles s s' i := by
  cases hst with
  | start hph hre => exact hre.recycles (fun p hp => hi.located.ready_of_mem hp) i
  | wake hph hq hre => exact hre.recycles (fun p hp => hi.located.ready_of_mem hp) i
  | stay hph hq hg => exact ⟨le_rfl, fun hf _ => hf⟩
  | shut hph hg => exact ⟨le_rfl, fun hf _ => hf⟩
  | @trap H c e s1 q1 nx _ _ hph hb hr1 hf =>
    have hc := runs_eq.2 hph
    have h1 : Recycles s s1 i := hb.recycles (s := saveRegs s H c e) hi.located hc i
    have hl1 := hb.located hi.rep hi.located hc
    refine h1.trans ?_
    cases hf with
    | ret => exact ⟨by rw [sysReturn, gen_switchTo]; rfl, fun hf _ => hf⟩
    | resume => exact ⟨by rw [gen_switchTo], fun hf _ => hf⟩
    | sched hre => exact hre.recycles (fun p hp => hl1.ready_of_mem hp) i

theorem reapInv_step (hi : Inv s q) (hw : WaitInv s q) (hri : ReapInv s) (hst : AStep s q l s' q') : ReapInv s' := by
  have hrec := recycles_step hi hst
  have hold : ∀ i g, (i, g) ∈ reaped s → g ≤ s'.gh.gen i ∧ (g = s'.gh.gen i → s'.status i = .free) := by
    intro i g hg
    obtain ⟨hle, hfree⟩ := hri.old i g hg
    refine ⟨hle.trans (hrec i).1, fun he => ?_⟩
    have hgen : s'.gh.gen i = s.gh.gen i := le_antisymm (he ▸ hle) (hrec i).1
    exact (hrec i).2 (hfree (he.trans hgen)) hgen
  rcases log_step hi hw hst with he | ⟨w, he, _, hd | hr⟩
  · have : reaped s' = reaped s := by unfold reaped; rw [he]
    exact ⟨this ▸ hri.nodup, this ▸ hold⟩
  · obtain ⟨H, rfl, hph, ⟨_, hfr⟩ | ⟨i, _, _, _, hz, hf', hfr⟩⟩ := hd
    · have : reaped s' = reaped s := by unfold reaped; rw [he, List.filterMap_cons_none hfr]
      exact ⟨this ▸ hri.nodup, this ▸ hold⟩
    · have : reaped s' = (i, s.gh.gen i) :: reaped s := by unfold reaped; rw [he, List.filterMap_cons_some hfr]
      refine ⟨?_, fun j g hg => ?_⟩
      · rw [this]
        refine List.nodup_cons.2 ⟨fun hm => ?_, hri.nodup⟩
        have := (hri.old i _ hm).2 rfl
        simp [hz] at this
      · rw [this] at hg
        rcases List.mem_cons.1 hg with hg | hg
        · cases hg
          exact ⟨(hrec i).1, fun _ => hf'⟩
        · exact hold j g hg
  · have : reaped s' = reaped s := by unfold reaped; rw [he, List.filterMap_cons_none hr.2.2]
    exact ⟨this ▸ hri.nodup, this ▸ hold⟩

theorem Body.zombie (hb : Body s q H c e s1 q1 nx) (hl : Located s.status run q) (hc : run H = some c)
    (hz : s.status i = .zombie) :
    s1.status i = .zombie ∨
      ∃ r w, nx = .ret r ∧ s1.gh.waits = w :: s.gh.waits ∧ w.freed = some (i, s.gh.gen i) := by
  have hic : i ≠ c := by
    rintro rfl
    simpa [hz] using hl.running_of_run hc
  cases hb with
  | badTarget | tick | waitRet | semNew | badSem | semPGo | semVGo => exact .inl hz
  | yield | slice => exact .inl (by simpa [readied, hic] using hz)
  | waitBlock | semPBlock => exact .inl (by simpa [suspended, addValue, hic] using hz)
  | exit => exact .inl (by simpa [freeProcess, hic] using hz)
  | @reap pid r j hw =>
    by_cases hij : i = j
    · subst hij
      exact .inr ⟨r, _, rfl, rfl, rfl⟩
    · exact .inl (by simpa [hij] using hz)
  | @semVWake id k p rest n hd hi hneg hq =>
    have hip : i ≠ p := by
      rintro rfl
      simpa [hz] using hl.blocked_of_mem (k := .sem k) (p := i) (by simp [hq]) trivial
    exact .inl (by simpa [readied, addValue, hip] using hz)
  | @exitWake code par h n hd hpar hm =>
    have hip : i ≠ par := by
      rintro rfl
      simpa [hz] using hl.blocked_of_mem hm trivial
    exact .inl (by simpa [readied, freeProcess, hip, hic] using hz)
  | @fork _ T t j n hd he hj =>
    have hij : i ≠ j := by
      rintro rfl
      simpa [hz] using freeSlot_free hj
    exact .inl (by simpa [readied, forkChild, initProc, hij] using hz)

theorem Resched.zombie (hre : Resched s q H s' q') (hl : Located s.status run q) (hz : s.status i = .zombie) :
    s'.status i = .zombie := by
  rw [← hz]
  exact ((hre.keeps fun p hp => hl.ready_of_mem hp).2 i (by simp [hz])).1

theorem zombie_step (hi : Inv s q) (hw : WaitInv s q) (hst : AStep s q l s' q') (hz : s.status i = .zombie) :
    s'.status i = .zombie ∨ ∃ w, s'.gh.waits = w :: s.gh.waits ∧ w.freed = some (i, s.gh.gen i) := by
  cases hst with
  | start hph hre => exact .inl (hre.zombie hi.located hz)
  | wake hph hq hre => exact .inl (hre.zombie hi.located hz)
  | stay hph hq hg => exact .inl hz
  | shut hph hg => exact .inl hz
  | @trap H c e s1 q1 nx _ _ hph hb hr1 hf =>
    have hc := runs_eq.2 hph
    have hw1 := hb.waitInv (waiting_saveRegs hi hw hph e) hi.rep hi.located hc (by simp [saveRegs])
    have hl1 := hb.located hi.rep hi.located hc
    rcases hb.zombie hi.located hc hz with hz1 | ⟨r, w, rfl, he, hfr⟩
    · cases hf with
      | ret => exact .inl hz1
      | resume => exact .inl hz1
      | sched hre => exact .inl (hre.zombie hl1 hz1)
    · cases hf with
      | ret => exact .inr ⟨w, (waits_resume (s := setA0 s1 c r) (hw1.waiting_run hl1 hc)).trans he, hfr⟩

theorem reapInv_reach {C : St → Label → Prop} (hs : Reach (step .ideal) C Boot s) : ReapInv s := by
  induction hs with
  | init h =>
    obtain ⟨slot, loaded, _, rfl⟩ := h
    exact ⟨List.nodup_nil, fun i g hg => by simp [reaped, boot] at hg⟩
  | step l h hc hst ih =>
    obtain ⟨q, hi, hw⟩ := waitInv_reach h
    obtain ⟨q', ha, _⟩ := (step_ends hi l).of_ok hst
    exact reapInv_step hi hw ih ha

/-! ## What wait delivers -/

/-- what the step that resumes the caller of a wait call owes it -/
def Delivers (s s' : St) (w : WaitDone) : Prop :=
  0 < w.pid ∨ w.pid = -1 → 0 ≤ w.r →
    ∃ i : Slot, w.r = (i.val : ℤ) ∧ (0 < w.pid → w.r = w.pid) ∧ s.parent i = some w.caller ∧ s.status i = .zombie ∧
      s'.status i = .free ∧ w.freed = some (i, s.gh.gen i)

theorem Direct.delivers (hd : Direct s l s' w) : Delivers s s' w := by
  obtain ⟨H, _, _, ⟨hr, _⟩ | ⟨i, hr, hpid, hpar, hz, hf, hfr⟩⟩ := hd
  · intro _ hpos
    omega
  · exact fun _ _ => ⟨i, hr, by omega, hpar, hz, hf, hfr⟩

def Answerable (s : St) (c : Slot) (pid : ℤ) : Prop :=
  (∀ i : Slot, 0 < i.val → pid = (i.val : ℤ) → s.parent i ≠ some c) ∧
  (pid = -1 → ∀ j, firstChild s c = some j → s.status j = .zombie)

theorem doWait_direct {pid : ℤ} (ha : Answerable s c pid) : doWait s c pid ≠ .block := by
  intro hb
  unfold doWait at hb
  split_ifs at hb with hpos hlt hpar hneg
  · exact ha.1 ⟨pid.toNat, hlt⟩ (by simpa using hpos) (by simp [hpos.le]) hpar
  · split at hb
    · simp at hb
    · rename_i j hj
      simp [ha.2 hneg j hj] at hb

/-- the condition on a step: a wait call does not have to block -/
def WaitsDirect (s : St) : Label → Prop
  | .trap H (.wait pid) => ∀ c, s.phase H = .user c → Answerable s c pid
  | _ => True

def Quiet (s : St) : Prop := ∀ p, s.gh.waiting p = none

theorem Quiet.switchTo (hq : Quiet s) (H h : Hart) (p : Slot) : Quiet (switchTo s H h p) := by
  intro x
  rw [waiting_switchTo]
  by_cases hx : x = p
  · subst hx; simp
  · simpa [hx] using hq x

theorem Resched.quiet (hre : Resched s q H s' q') (hq : Quiet s) : Quiet s' := by
  cases hre with
  | @run p rest hd hp => exact Quiet.switchTo (s := { s with status := _, head := hd }) hq H H p
  | idle => exact hq
  | park => exact hq

theorem quiet_step (hq : Quiet s) (hd : WaitsDirect s l) (hst : AStep s q l s' q') : Quiet s' := by
  cases hst with
  | start hph hre => exact hre.quiet hq
  | wake hph _ hre => exact hre.quiet hq
  | stay => exact hq
  | shut => exact hq
  | @trap H c e s1 q1 nx _ _ hph hb hr1 hf =>
    have hq1 : Quiet s1 := by
      cases hb with
      | fork | badTarget | yield | slice | tick | waitRet | reap | exit | exitWake | semNew | badSem | semPGo |
        semPBlock | semVGo | semVWake => exact hq
      | waitBlock hw => exact absurd hw (doWait_direct (s := saveRegs s H c _) (hd c hph))
    cases hf with
    | @ret r => exact Quiet.switchTo (s := setA0 s1 c r) hq1 _ _ _
    | resume => exact hq1.switchTo _ _ _
    | sched hre => exact hre.quiet hq1

theorem quiet_reach (hs : Reach (step .ideal) WaitsDirect Boot s) : Quiet s := by
  induction hs with
  | init h =>
    obtain ⟨slot, loaded, _, rfl⟩ := h
    exact fun _ => rfl
  | step l h hc hst ih =>
    obtain ⟨q, hi, _⟩ := waitInv_reach h
    obtain ⟨q', ha, _⟩ := (step_ends hi l).of_ok hst
    exact quiet_step ih hc ha

/-- **What wait delivers.** In every run in which no wait call has to block: a step resumes at most one wait call, the
caller finds in a0 the value of the log, and a value that is not negative is a child that this call has changed from
ZOMBIE to FREE. A ZOMBIE ends in no other way, and no process instance is reaped twice. -/
theorem wait_delivers (hs : Reach (step .ideal) WaitsDirect Boot s) (hst : step .ideal s l = .ok s') :
    (s'.gh.waits = s.gh.waits ∨ ∃ w, s'.gh.waits = w :: s.gh.waits ∧ Returned s' w ∧ Delivers s s' w) ∧
      (∀ i, s.status i = .zombie → s'.status i ≠ .zombie →
        ∃ w, s'.gh.waits = w :: s.gh.waits ∧ w.freed = some (i, s.gh.gen i)) ∧
      (reaped s').Nodup := by
  obtain ⟨q, hi, hw⟩ := waitInv_reach hs
  obtain ⟨q', ha, _⟩ := (step_ends hi l).of_ok hst
  refine ⟨?_, fun i hz hn => (zombie_step hi hw ha hz).resolve_left hn,
    (reapInv_step hi hw (reapInv_reach hs) ha).nodup⟩
  rcases log_step hi hw ha with he | ⟨w, he, hret, hdir | hres⟩
  · exact .inl he
  · exact .inr ⟨w, he, hret, hdir.delivers⟩
  · exact absurd hres.1 (by simp [quiet_reach hs w.caller])

/-- **A wait call that blocks delivers nothing.** Whatever the run, its caller comes back with the number of the system
call in a0, and the call has reaped no child. -/
theorem resumed_wait (hs : Reachable .ideal s) (hst : step .ideal s l = .ok s') (hl : s'.gh.waits = w :: s.gh.waits)
    (hb : s.gh.waiting w.caller ≠ none) : w.r = SYS_user_wait ∧ w.freed = none := by
  obtain ⟨q, hi, hw⟩ := waitInv_reach hs
  obtain ⟨q', ha, _⟩ := (step_ends hi l).of_ok hst
  rcases log_step hi hw ha with he | ⟨w', he, _, hdir | hres⟩
  · simp [hl] at he
  · cases (List.cons.inj (hl.symm.trans he)).1
    obtain ⟨H, _, hph, _⟩ := hdir
    exact absurd (hw.waiting_run hi.located (runs_eq.2 hph)) hb
  · cases (List.cons.inj (hl.symm.trans he)).1
    exact hres.2

/-! ## Runs -/

def waitsDirect (s : St) : Label → Bool
  | .trap H (.wait pid) =>
    match s.phase H with
    | .user c =>
      decide ((∀ i : Slot, 0 < i.val → pid = (i.val : ℤ) → s.parent i ≠ some c) ∧
        (pid = -1 → ∀ j ∈ firstChild s c, s.status j = .zombie))
    | _ => true
  | _ => true

theorem waitsDirect_sound (s : St) (l : Label) (hl : waitsDirect s l = true) : WaitsDirect s l := by
  cases l with
  | spin H => trivial
  | trap H e =>
    cases e with
    | fork | forkTo | yield | timer | exit | semNew | semP | semV => trivial
    | wait pid =>
      intro c hph
      simp only [waitsDirect, hph, decide_eq_true_eq] at hl
      exact ⟨hl.1, fun hpid j hj => hl.2 hpid j hj⟩

def childFirst : List Label := [.spin 0, .trap 0 .fork, .trap 0 .yield, .trap 0 (.exit 0)]

/-- a wait(-1) behind this run reaps the child in slot 4 -/
theorem wait_delivers_childFirst :
    ∃ s', step .ideal (exec (step .ideal) booted childFirst) (.trap 0 (.wait (-1))) = .ok s' ∧
    ∃ w, s'.gh.waits = [w] ∧ Returned s' w ∧ Delivers (exec (step .ideal) booted childFirst) s' w := by
  have hs : Reach (step .ideal) WaitsDirect Boot (exec (step .ideal) booted childFirst) :=
    reach_exec waitsDirect_sound childFirst booted (.init booted_boot) (by decide +kernel)
  obtain ⟨s', hst⟩ : ∃ s', step .ideal (exec (step .ideal) booted childFirst) (.trap 0 (.wait (-1))) = .ok s' :=
    ⟨_, rfl⟩
  have hnil : (exec (step .ideal) booted childFirst).gh.waits = [] := by decide +kernel
  have hlen : (step .ideal (exec (step .ideal) booted childFirst) (.trap 0 (.wait (-1)))).toOption.map
      (fun s => s.gh.waits.length) = some 1 := by decide +kernel
  refine ⟨s', hst, ?_⟩
  rcases (wait_delivers hs hst).1 with he | ⟨w, he, hret, hd⟩
  · rw [hst] at hlen
    simp [Except.toOption, he, hnil] at hlen
  · exact ⟨w, by rw [he, hnil], hret, hd⟩

def parentFirst : List Label := [.spin 0, .trap 0 .fork, .trap 0 (.wait 4)]

/-- the exit of the child resumes the wait(4) of its parent with 96 in a0, and the child stays ZOMBIE -/
theorem wait_returns_96 : Reachable .ideal (exec (step .ideal) booted parentFirst) ∧
    ∃ s', step .ideal (exec (step .ideal) booted parentFirst) (.trap 0 (.exit 0)) = .ok s' ∧
      s'.gh.waits = [⟨0, 4, 96, none⟩] ∧ s'.phase 0 = .user 0 ∧ (s'.trapframe 0).a0 = 96 ∧ s'.status 4 = .zombie ∧
      ¬ Delivers (exec (step .ideal) booted parentFirst) s' ⟨0, 4, 96, none⟩ := by
  refine ⟨reachable_exec (by decide +kernel), _, rfl, by decide +kernel, by decide +kernel, by decide +kernel,
    by decide +kernel, fun hd => ?_⟩
  obtain ⟨i, _, _, _, _, _, hfr⟩ := hd (.inl (by decide)) (by decide)
  simp at hfr

theorem resumed_wait_parentFirst :
    ∃ s' w, step .ideal (exec (step .ideal) booted parentFirst) (.trap 0 (.exit 0)) = .ok s' ∧
    s'.gh.waits = [w] ∧ w.caller = 0 ∧ w.r = SYS_user_wait ∧ w.freed = none := by
  have hs : Reachable .ideal (exec (step .ideal) booted parentFirst) := reachable_exec (by decide +kernel)
  refine ⟨_, ⟨0, 4, 96, none⟩, rfl, by decide +kernel, rfl,
    resumed_wait (l := .trap 0 (.exit 0)) hs rfl ?_ (by decide +kernel)⟩
  decide +kernel

end RiscvPke.Sched
