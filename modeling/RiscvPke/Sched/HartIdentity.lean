/-
Hart identity: the kernel takes its hart id from tp, which travels with the trapframe of the process.
-/
import RiscvPke.Sched.Invariant

namespace RiscvPke.Sched

open Chain RiscvPke.System

variable {s s1 s' : St} {q q1 q' : Lists} {H T t : Hart} {c p i : Slot} {e : Entry} {nx : Next} {l : Label}
variable {run : Hart → Option Slot} {tp : Slot → Hart} {k : Queue}

/-! ## Processes at home -/

def tps (s : St) (p : Slot) : Hart := (s.trapframe p).tp

def AtHome (tp : Slot → Hart) (run : Hart → Option Slot) (q : Lists) : Prop :=
  ∀ h p, p ∈ q (.ready h) ∨ p ∈ q (.block h) ∨ run h = some p → tp p = h

theorem AtHome.push (ha : AtHome tp run q) (hk : ∀ h, k = .ready h ∨ k = .block h → tp p = h) :
    AtHome tp run (push q k p) := by
  intro h x hx
  simp only [mem_push] at hx
  rcases hx with (hx | ⟨hkh, rfl⟩) | (hx | ⟨hkh, rfl⟩) | hx
  · exact ha h x (.inl hx)
  · exact hk h (.inl hkh.symm)
  · exact ha h x (.inr (.inl hx))
  · exact hk h (.inr hkh.symm)
  · exact ha h x (.inr (.inr hx))

theorem AtHome.cut (ha : AtHome tp run q) (hn : (q k).Nodup) : AtHome tp run (cut q k p) := by
  intro h x hx
  simp only [mem_cut hn] at hx
  apply ha h x
  rcases hx with hx | hx | hx
  · exact .inl hx.1
  · exact .inr (.inl hx.1)
  · exact .inr (.inr hx)

theorem AtHome.update (ha : AtHome tp run q) (hq : ∀ k, i ∉ q k) (hr : ∀ h, run h ≠ some i) :
    AtHome (Function.update tp i t) run q := by
  intro h x hx
  have hne : x ≠ i := by grind
  rw [Function.update_of_ne hne]
  exact ha h x hx

theorem AtHome.leave (ha : AtHome tp run q) : AtHome tp (Function.update run H none) q := by
  intro h x hx
  apply ha h x
  grind

/-! ## Steps -/

def WakesOwn (s : St) (H : Hart) (e : Entry) : Prop :=
  ∀ id i p, e = .semV id → getSemaphore s id = some i → (s.semaphores i).value < 0 → s.head (.sem i) = some p →
    (s.trapframe p).tp = H

theorem Body.atHome (hb : Body s q H c e s1 q1 nx) (hr : Rep s.queue_next s.head q) (hl : Located s.status run q)
    (ha : AtHome (tps s) run q) (hc : run H = some c) (hv : WakesOwn s H e) : AtHome (tps s1) run q1 := by
  have hhome : ∀ h, Queue.ready H = .ready h ∨ Queue.ready H = .block h → tps s c = h := by
    intro h hh
    simp only [Queue.ready.injEq, reduceCtorEq, or_false] at hh
    subst hh
    exact ha H c (.inr (.inr hc))
  cases hb with
  | badTarget | tick | waitRet | reap | exit | semNew | badSem | semPGo | semVGo => exact ha
  | yield => exact ha.push hhome
  | slice => exact ha.push hhome
  | waitBlock hw =>
    refine ha.push fun h hh => ?_
    grind
  | semPBlock hi hv' => exact ha.push fun h hh => by simp at hh
  | @exitWake code par h n hd hpar hm =>
    refine (ha.cut (hr _).nodup).push fun g hg => ?_
    simp only [Queue.ready.injEq, reduceCtorEq, or_false] at hg
    subst hg
    exact ha h par (.inr (.inl hm))
  | @semVWake id i p rest n hd hi hneg hq =>
    refine (ha.cut (hr _).nodup).push fun g hg => ?_
    simp only [Queue.ready.injEq, reduceCtorEq, or_false] at hg
    subst hg
    have hk : Links s.queue_next (s.head (.sem i)) (p :: rest) := hq ▸ hr (.sem i)
    exact hv id i p rfl hi hneg hk.1
  | @fork _ T t i n hd he hi =>
    have hfree := freeSlot_free hi
    have htps : tps (readied (forkChild (initProc s H i) i c t) i n hd) = Function.update (tps s) i t := by
      funext x
      by_cases hx : x = i
      · subst hx; simp [tps, readied, forkChild]
      · simp [tps, readied, forkChild, initProc, hx]
    rw [htps]
    refine (ha.update (hl.notMem_of_dead (.inr hfree)) fun h hh => ?_).push fun h hh => ?_
    · have := hl.running_of_run hh
      rw [hfree] at this
      simp at this
    · simp only [Queue.ready.injEq, reduceCtorEq, or_false] at hh
      subst hh
      rw [Function.update_self]
      cases he with
      | fork => exact ha H c (.inr (.inr hc))
      | forkTo hx => rfl

theorem tps_setA0 (s : St) (c : Slot) (r : ℤ) : tps (setA0 s c r) = tps s := by
  funext x
  by_cases hx : x = c
  · subst hx; simp [tps, setA0]
  · simp [tps, setA0, hx]

theorem switchTo_atHome (ha : AtHome (tps s) (Function.update (runs s) H (some c)) q) (hreg : ∀ h, s.tp h = h) :
    AtHome (tps (switchTo s H H c)) (runs (switchTo s H H c)) q ∧ ∀ h, (switchTo s H H c).tp h = h := by
  refine ⟨?_, fun h => ?_⟩
  · rw [runs_update (s := s) rfl]
    exact ha
  · by_cases hh : h = H
    · subst hh
      simpa [switchTo, tps] using ha h c (.inr (.inr (Function.update_self ..)))
    · simpa [switchTo, hh] using hreg h

theorem Resched.atHome (hre : Resched s q H s' q') (hr : Rep s.queue_next s.head q)
    (ha : AtHome (tps s) (Function.update (runs s) H none) q) (hreg : ∀ h, s.tp h = h) :
    AtHome (tps s') (runs s') q' ∧ ∀ h, s'.tp h = h := by
  cases hre with
  | @run p rest hd hq =>
    refine switchTo_atHome (s := { s with status := _, head := hd }) (fun h x hx => ?_) hreg
    have hx' := hx
    simp only [mem_cut (hr _).nodup] at hx'
    rcases hx' with hx' | hx' | hx'
    · exact ha h x (.inl hx'.1)
    · exact ha h x (.inr (.inl hx'.1))
    · by_cases hh : h = H
      · subst hh
        have : p = x := by simpa using hx'
        subst this
        exact ha h p (.inl (by simp [hq]))
      · rw [Function.update_of_ne hh] at hx'
        exact ha h x (.inr (.inr (by rw [Function.update_of_ne hh]; exact hx')))
  | idle hq hg =>
    rw [runs_update (s := s) rfl]
    exact ⟨ha, hreg⟩
  | park hq hg =>
    rw [runs_update (s := s) rfl]
    exact ⟨ha, hreg⟩

theorem step_register (hreg : ∀ h, s.tp h = h) (l : Label) : step .register s l = step .ideal s l := by
  cases l with
  | trap H e => cases hph : s.phase H <;> simp [step, hph, readTp, saveRegs, hreg]
  | spin H => cases hph : s.phase H <;> simp [step, hph, readTp, hreg]

/-! ## Runs -/

/-- the condition on a step: a V wakes only a process whose tp is the hart that executes the V -/
def VSafe (s : St) : Label → Prop
  | .trap H e => WakesOwn s H e
  | .spin _ => True

/-- the ready queues are chains, and what is in the ready queue of a hart or runs on it has its id in tp -/
def HartIdentity (s : St) : Prop :=
  ∃ q : Lists, Rep s.queue_next s.head q ∧
    ∀ h p, p ∈ q (.ready h) ∨ s.phase h = .user p → (s.trapframe p).tp = h

/-- the invariant of the runs that meet the condition -/
structure Homely (s : St) (q : Lists) : Prop extends Inv s q where
  home : AtHome (tps s) (runs s) q
  reg : ∀ h, s.tp h = h

theorem homely_step (hi : Homely s q) (hv : VSafe s l) (hst : AStep s q l s' q') (hr' : Rep s'.queue_next s'.head q') :
    Homely s' q' := by
  have hinv := inv_step hi.toInv hst hr'
  suffices AtHome (tps s') (runs s') q' ∧ ∀ h, s'.tp h = h from ⟨hinv, this.1, this.2⟩
  cases hst with
  | @trap H c e s1 q1 nx _ _ hph hb hr1 hf =>
    have hc := runs_eq.2 hph
    -- tp is saved as it was loaded
    have hsave : tps (saveRegs s H c e) = tps s := by
      funext x
      by_cases hx : x = c
      · subst hx
        simpa [tps, saveRegs, hi.reg] using (hi.home H x (.inr (.inr hc))).symm
      · simp [tps, saveRegs, hx]
    have hv' : WakesOwn (saveRegs s H c e) H e := by
      intro id i p he hsem hneg hhd
      exact (congrFun hsave p).trans (hv id i p he hsem hneg hhd)
    have ha1 := hb.atHome hi.rep hi.located (hsave ▸ hi.home) hc hv'
    have hruns : runs s1 = runs s := by unfold runs; rw [hb.frame.1]; rfl
    have htp1 : ∀ h, s1.tp h = h := by
      intro h
      have : s1.tp = s.tp := by cases hb <;> rfl
      rw [this]
      exact hi.reg h
    rw [← hruns] at ha1 hc
    have ha2 : AtHome (tps s1) (Function.update (runs s1) H (some c)) q1 := by rwa [← hc, Function.update_eq_self]
    cases hf with
    | @ret r => exact switchTo_atHome (s := setA0 s1 c r) (by rw [tps_setA0]; exact ha2) htp1
    | resume => exact switchTo_atHome ha2 htp1
    | sched hre => exact hre.atHome hr1 ha1.leave htp1
  | start hph hre => exact hre.atHome hi.rep hi.home.leave hi.reg
  | wake hph hq hre => exact hre.atHome hi.rep hi.home.leave hi.reg
  | stay hph hq hg => exact ⟨hi.home, hi.reg⟩
  | @shut H hph hg =>
    rw [runs_update (s := s) rfl]
    exact ⟨hi.home.leave, hi.reg⟩

theorem homely_boot {slot : Hart → Slot} {loaded : Hart → Bool} (hinj : Function.Injective slot) :
    Homely (boot slot loaded) (bootLists slot loaded) := by
  refine ⟨inv_boot hinj, fun h p hp => ?_, fun h => rfl⟩
  have hp' : slot h = p := by
    rcases hp with hp | hp | hp
    · cases hl : loaded h <;> simp [bootLists, hl] at hp
      exact hp.symm
    · simp [bootLists] at hp
    · simp [runs, boot, Phase.proc] at hp
  obtain ⟨g, hg⟩ : ∃ g, (List.finRange NCPU).find? (fun g => slot g = slot h) = some g :=
    Option.isSome_iff_exists.1 (List.find?_isSome.2 ⟨h, List.mem_finRange h, by simp⟩)
  grind [tps, boot]

theorem homely_reach (hs : Reach (step .register) VSafe Boot s) : ∃ q, Homely s q := by
  refine Reach.inv (P := fun s => ∃ q, Homely s q) ?_ ?_ hs
  · rintro s ⟨slot, loaded, hinj, rfl⟩
    exact ⟨_, homely_boot hinj⟩
  · rintro s l s' ⟨q, hi⟩ hv hst
    rw [step_register hi.reg] at hst
    obtain ⟨q', ha, hr'⟩ := (step_ends hi.toInv l).of_ok hst
    exact ⟨q', homely_step hi hv ha hr'⟩

def Stands (m : TpMode) (s : St) (q : Lists) : Prop := Inv s q ∧ (m = .register → Homely s q)

theorem stands_boot {m : TpMode} (hb : Boot s) : ∃ q, Stands m s q := by
  obtain ⟨slot, loaded, hinj, rfl⟩ := hb
  exact ⟨_, inv_boot hinj, fun _ => homely_boot hinj⟩

theorem Stands.readTp {m : TpMode} (hi : Stands m s q) (H : Hart) : readTp m s H = H := by
  cases m with
  | ideal => rfl
  | register => exact (hi.2 rfl).reg H

theorem Stands.step {m : TpMode} (hi : Stands m s q) (hv : m = .register → VSafe s l) (hst : step m s l = .ok s') :
    ∃ q', AStep s q l s' q' ∧ Stands m s' q' := by
  have hideal : Sched.step .ideal s l = .ok s' := by
    cases m with
    | ideal => exact hst
    | register => rwa [step_register (hi.2 rfl).reg] at hst
  obtain ⟨q', ha, hr'⟩ := (step_ends hi.1 l).of_ok hideal
  exact ⟨q', ha, inv_step hi.1 ha hr', fun hm => homely_step (hi.2 hm) (hv hm) ha hr'⟩

theorem wakesOwn_of_identity (hi : Homely s q) (hst : AStep s q l s' q') (hr' : Rep s'.queue_next s'.head q')
    (hid : HartIdentity s') : VSafe s l := by
  cases hst with
  | start | wake | stay | shut => trivial
  | @trap H c e s1 q1 nx _ _ hph hb hr1 hf =>
    rintro id i p rfl hsem hneg hhd
    cases hb with
    | fork he _ => cases he
    | badSem he hnone =>
      rcases he with he | he
      · cases he
      · cases he
        exact absurd (hsem.symm.trans hnone) (by simp)
    | semVGo hsem' hpos =>
      cases hsem.symm.trans hsem'
      exact absurd hneg (not_lt.2 hpos)
    | @semVWake _ _ p' rest n hd hsem' _ hq =>
      cases hsem.symm.trans hsem'
      have hk : Links s.queue_next (s.head (.sem i)) (p' :: rest) := hq ▸ hi.rep (.sem i)
      cases hhd.symm.trans hk.1
      cases hf
      obtain ⟨q'', hr'', hall⟩ := hid
      have hq'' : q'' (.ready H) = push (cut q (.sem i) p) (.ready H) p (.ready H) :=
        (hr'' (.ready H)).unique (hr' (.ready H))
      have htp := hall H p (.inl (by rw [hq'', mem_push]; exact .inr ⟨rfl, rfl⟩))
      by_cases hpc : p = c
      · subst hpc
        exact hi.home H p (.inr (.inr (runs_eq.2 hph)))
      · simpa [sysReturn, switchTo, setA0, readied, addValue, saveRegs, hpc] using htp

/-- **Hart identity.** In every run of the kernel with `read_tp()` reading tp, in which each V wakes only processes of
the hart that executes it, a process in the ready queue of hart h or running on h has tp = h. The next step keeps this
if and only if it meets the condition. -/
theorem hart_identity (hs : Reach (step .register) VSafe Boot s) :
    HartIdentity s ∧ ∀ l s', step .register s l = .ok s' → (HartIdentity s' ↔ VSafe s l) := by
  have hident : ∀ {s}, Reach (step .register) VSafe Boot s → HartIdentity s := by
    intro s hs
    obtain ⟨q, hi⟩ := homely_reach hs
    refine ⟨q, hi.rep, fun h p hp => hi.home h p ?_⟩
    rcases hp with hp | hp
    · exact .inl hp
    · exact .inr (.inr (runs_eq.2 hp))
  refine ⟨hident hs, fun l s' hst => ⟨fun hid => ?_, fun hv => hident (.step l hs hv hst)⟩⟩
  obtain ⟨q, hi⟩ := homely_reach hs
  rw [step_register hi.reg] at hst
  obtain ⟨q', ha, hr'⟩ := (step_ends hi.toInv l).of_ok hst
  exact wakesOwn_of_identity hi ha hr' hid

def vSafe (s : St) : Label → Bool
  | .trap H (.semV id) =>
    match getSemaphore s id with
    | none => true
    | some i =>
      match s.head (.sem i) with
      | none => true
      | some p => decide ((s.semaphores i).value < 0 → (s.trapframe p).tp = H)
  | _ => true

theorem vSafe_sound (s : St) (l : Label) (hv : vSafe s l = true) : VSafe s l := by
  cases l with
  | spin H => trivial
  | trap H e =>
    rintro id i p rfl hsem hneg hhd
    simp only [vSafe, hsem, hhd, decide_eq_true_eq] at hv
    exact hv hneg

def semLocal : List Label :=
  [.spin 0, .spin 1, .trap 0 (.semNew 0), .trap 0 .fork, .trap 0 (.semP 0), .trap 0 (.semV 0), .trap 1 .yield]

theorem hart_identity_semLocal : HartIdentity (exec (step .register) booted semLocal) :=
  (hart_identity (reach_exec vSafe_sound semLocal booted (.init booted_boot) (by decide +kernel))).1

def semCross : List Label := [.spin 0, .spin 1, .trap 0 (.semNew 0), .trap 0 (.semP 0), .trap 1 (.semV 0)]

/-- after a P on hart 0 and a V on hart 1, a process with tp = 0 waits in the ready queue of hart 1 -/
theorem semV_other_hart : Reachable .register (exec (step .register) booted semCross) ∧
    (exec (step .register) booted semCross).head (.ready 1) = some 0 ∧
    ((exec (step .register) booted semCross).trapframe 0).tp = 0 ∧
    ¬ HartIdentity (exec (step .register) booted semCross) := by
  have hhd : (exec (step .register) booted semCross).head (.ready 1) = some 0 := by decide +kernel
  have htp : ((exec (step .register) booted semCross).trapframe 0).tp = 0 := by decide +kernel
  refine ⟨reachable_exec (by decide +kernel), hhd, htp, ?_⟩
  rintro ⟨q, hr, hall⟩
  have hmem : (0 : Slot) ∈ q (.ready 1) := by
    have := hr (.ready 1)
    rw [hhd] at this
    exact this.head_mem
  have := hall 1 0 (.inl hmem)
  rw [htp] at this
  exact absurd this (by decide)

end RiscvPke.Sched
