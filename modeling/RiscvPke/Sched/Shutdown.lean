/-
The end of `schedule()`: how the harts leave it for good when all processes are done (kernel/sched.c,
kernel/sync_utils.h).
-/
import RiscvPke.Sched.HartIdentity

namespace RiscvPke.Sched.Shutdown

open Function RiscvPke.System

/-! ## The machine -/

/-- what stands behind the barrier in `schedule()` -/
inductive Exit where
  /-- `shutdown(0)` -/
  | shutdown
  /-- `while (1);` -/
  | loop
deriving DecidableEq, Repr

structure Sys where
  kernel : St
  exit_counter : ℕ
  /-- for a hart that went into the barrier: what follows it -/
  behind : Hart → Option Exit
  passed : Hart → Bool

inductive Act where
  /-- a step of the kernel; it may take its hart into the barrier -/
  | kernel (l : Label)
  /-- the hart reads `exit_counter` and leaves the barrier -/
  | pass (H : Hart)
deriving DecidableEq, Repr

def hartOf : Label → Hart
  | .trap H _ => H
  | .spin H => H

def exitPath (m : TpMode) (s : St) (H : Hart) : Exit :=
  if s.phase H = .idle then .loop else if readTp m s H = 0 then .shutdown else .loop

def off (s : Sys) : Bool := s.passed 0 && decide (s.behind 0 = some .shutdown)

def step (m : TpMode) (s : Sys) (a : Act) : Res Sys :=
  if off s then .error .disabled
  else match a with
    | .kernel l => do
      let k ← Sched.step m s.kernel l
      if k.phase (hartOf l) = .parked then
        return { s with
          kernel := k
          exit_counter := s.exit_counter + 1
          behind := update s.behind (hartOf l) (some (exitPath m s.kernel (hartOf l))) }
      else return { s with kernel := k }
    | .pass H =>
      if s.passed H = false ∧ (s.behind H).isSome ∧ NCPU ≤ s.exit_counter then
        .ok { s with passed := update s.passed H true }
      else .error .disabled

def Init (s : Sys) : Prop := Boot s.kernel ∧ s.exit_counter = 0 ∧ s.behind = (fun _ => none) ∧ s.passed = fun _ => false

/-- all harts are behind the barrier, and hart 0 loops -/
def Stranded (s : Sys) : Prop := (∀ h, s.passed h = true) ∧ s.behind 0 = some .loop

/-! ## One step of the kernel -/

variable {m : TpMode} {s s1 s' : St} {q q1 q' : Lists} {H : Hart} {c p : Slot} {e : Entry} {l : Label}

def departs (s : St) : Label → Option (Option Slot)
  | .spin H => if s.phase H = .boot then some none else none
  | .trap H (.exit _) => (s.phase H).proc.map some
  | .trap _ _ => none

def Attended (s : St) (l : Label) : Prop :=
  s.phase 0 = .idle → ∀ x, departs s l = some x → ∃ i, some i ≠ x ∧ s.status i ≠ .free ∧ s.status i ≠ .zombie

structure Awake (s : St) : Prop where
  done : s.g_should_shutdown = true → globalAllDone s = true
  hart0 : s.g_should_shutdown = true → s.phase 0 ≠ .idle

theorem not_done (hf : s.status p ≠ .free) (hz : s.status p ≠ .zombie) : globalAllDone s = false := by
  simp only [globalAllDone, decide_eq_false_iff_not]
  intro h
  exact (h p).elim hf hz

theorem Awake.running (hw : Awake s) (hn : globalAllDone s = false) : s.g_should_shutdown = false := by
  cases hg : s.g_should_shutdown with
  | false => rfl
  | true =>
    have := hw.done hg
    rw [hn] at this
    cases this

theorem body_done (hb : Body s q H c e s1 q1 .sched) (hd : globalAllDone s1 = true) :
    ∃ code, e = .exit code ∧ s1 = freeProcess s c := by
  have hlive : ∀ i, s1.status i ≠ .free → s1.status i ≠ .zombie → False := by
    intro i hf hz
    rw [not_done hf hz] at hd
    cases hd
  cases hb with
  | yield | slice => exact (hlive c (by simp [readied]) (by simp [readied])).elim
  | waitBlock | semPBlock => exact (hlive c (by simp [suspended]) (by simp [suspended])).elim
  | exit => exact ⟨_, rfl, rfl⟩
  | @exitWake code par h n hd hpar hm => exact (hlive par (by simp [readied]) (by simp [readied])).elim

theorem shutdown_frame {nx : Next} (hb : Body s q H c e s1 q1 nx) : s1.g_should_shutdown = s.g_should_shutdown := by
  cases hb <;> rfl

theorem Awake.resched (hre : Resched s q H s' q') (hg : s.g_should_shutdown = false)
    (h0 : globalAllDone s = true → H ≠ 0 → s.phase 0 ≠ .idle) : Awake s' := by
  cases hre with
  | run hq =>
    have hg' : ∀ (t : St) (p : Slot), (switchTo t H H p).g_should_shutdown = t.g_should_shutdown := fun _ _ => rfl
    constructor
    · intro h
      rw [hg'] at h
      exact absurd h (by simp [hg])
    · intro h
      rw [hg'] at h
      exact absurd h (by simp [hg])
  | idle hq hn =>
    constructor
    · intro h
      exact absurd h (by simp [hg])
    · intro h
      exact absurd h (by simp [hg])
  | park hq hd =>
    refine ⟨fun _ => hd, fun _ => ?_⟩
    grind

theorem Awake.step (hi : Inv s q) (hw : Awake s) (hc : Attended s l) (hst : AStep s q l s' q') : Awake s' := by
  cases hst with
  | @trap H c e s1 q1 nx _ _ hph hb hr1 hf =>
    have hrun : s.status c = .running := hi.located.running_of_run (runs_eq.2 hph)
    have hg : s.g_should_shutdown = false := hw.running (not_done (p := c) (by simp [hrun]) (by simp [hrun]))
    have hg1 : s1.g_should_shutdown = false := (shutdown_frame hb).trans hg
    have hclear : ∀ t : St, t.g_should_shutdown = false → Awake t := by
      intro t ht
      exact ⟨fun h => absurd h (by simp [ht]), fun h => absurd h (by simp [ht])⟩
    cases hf with
    | ret => exact hclear _ hg1
    | resume => exact hclear _ hg1
    | sched hre =>
      refine Awake.resched hre hg1 fun hd _ h0 => ?_
      -- the exit of the last process, while hart 0 waits
      obtain ⟨code, rfl, rfl⟩ := body_done hb hd
      have hdep : departs s (.trap H (.exit code)) = some (some c) := by simp [departs, hph, Phase.proc]
      obtain ⟨i, hic, hif, hiz⟩ := hc h0 _ hdep
      have hne : i ≠ c := fun h => hic (congrArg some h)
      have hsame : (freeProcess (saveRegs s H c (.exit code)) c).status i = s.status i := by
        simp [freeProcess, saveRegs, hne]
      grind [not_done]
  | @start H _ _ hph hre =>
    have hdep : departs s (.spin H) = some none := by simp [departs, hph]
    by_cases hg : s.g_should_shutdown = true
    · -- all are done, so that the hart finds nothing to run
      have hd := hw.done hg
      cases hre with
      | @run p rest hd' hq =>
        have hp : s.status p = .ready := hi.located.ready_of_mem (h := H) (by simp [hq])
        rw [not_done (p := p) (by simp [hp]) (by simp [hp])] at hd
        cases hd
      | idle hq hn =>
        rw [hn] at hd
        cases hd
      | park hq hd' =>
        refine ⟨fun _ => hd, fun _ => ?_⟩
        by_cases hH : H = 0
        · subst hH
          simp
        · simpa [update_of_ne (Ne.symm hH)] using hw.hart0 hg
    · refine Awake.resched hre (by simpa using hg) fun hd _ h0 => ?_
      obtain ⟨i, -, hif, hiz⟩ := hc h0 _ hdep
      rw [not_done hif hiz] at hd
      cases hd
  | @wake H _ _ hph hq hre =>
    obtain ⟨p, rest, hpr⟩ := List.exists_cons_of_ne_nil hq
    have hp : s.status p = .ready := hi.located.ready_of_mem (h := H) (by simp [hpr])
    have hn : globalAllDone s = false := not_done (p := p) (by simp [hp]) (by simp [hp])
    refine Awake.resched hre (hw.running hn) fun hd => ?_
    rw [hn] at hd
    cases hd
  | stay => exact hw
  | @shut H hph hg =>
    have hH : H ≠ 0 := by
      rintro rfl
      exact hw.hart0 hg hph
    refine ⟨hw.done, fun h => ?_⟩
    simpa [update_of_ne (Ne.symm hH)] using hw.hart0 h

theorem exitPath_hart0 (hi : Stands m s q) (hw : Awake s) (hl : hartOf l = 0) (hst : AStep s q l s' q')
    (hp : s'.phase 0 = .parked) : exitPath m s 0 = .shutdown := by
  have hne : s.phase 0 ≠ .idle := by
    intro h0
    cases hst with
    | trap hph =>
      obtain rfl := hl
      simp [hph] at h0
    | start hph =>
      obtain rfl := hl
      simp [hph] at h0
    | @wake H _ _ hph hq hre =>
      obtain rfl : H = 0 := hl
      cases hre with
      | run => simp [switchTo] at hp
      | idle hq' => exact hq hq'
      | park hq' => exact hq hq'
    | stay => simp [h0] at hp
    | shut hph hg => exact hw.hart0 hg h0
  rw [exitPath, if_neg hne, hi.readTp, if_pos rfl]

/-! ## Runs -/

def Cond (m : TpMode) (s : Sys) : Act → Prop
  | .kernel l => Attended s.kernel l ∧ (m = .register → VSafe s.kernel l)
  | .pass _ => True

structure SysInv (m : TpMode) (s : Sys) : Prop where
  stands : ∃ q, Stands m s.kernel q
  awake : Awake s.kernel
  hart0 : s.behind 0 ≠ some .loop
  passed : ∀ h, s.passed h = true → (s.behind h).isSome

theorem sysInv_init {s : Sys} (h : Init s) : SysInv m s := by
  obtain ⟨hb, -, h2, h3⟩ := h
  have hg : s.kernel.g_should_shutdown = false := by
    obtain ⟨slot, loaded, -, hk⟩ := hb
    rw [hk]
    rfl
  refine ⟨stands_boot hb, ⟨fun h => ?_, fun h => ?_⟩, by simp [h2], fun h hp => ?_⟩
  · rw [hg] at h
    cases h
  · rw [hg] at h
    cases h
  · rw [h3] at hp
    cases hp

theorem sysInv_step {s s' : Sys} {a : Act} (h : SysInv m s) (hc : Cond m s a) (hst : step m s a = .ok s') :
    SysInv m s' := by
  unfold step at hst
  split_ifs at hst
  cases a with
  | kernel l =>
    obtain ⟨k, hk, hst⟩ := bind_ok.1 hst
    obtain ⟨q, hi⟩ := h.stands
    obtain ⟨q', ha, hi'⟩ := hi.step hc.2 hk
    have hw' := h.awake.step hi.1 hc.1 ha
    split_ifs at hst with hp
    · cases hst
      refine ⟨⟨q', hi'⟩, hw', ?_, fun g hg => ?_⟩
      · show update s.behind (hartOf l) _ 0 ≠ _
        by_cases hl : hartOf l = 0
        · rw [hl] at hp ⊢
          rw [update_self, exitPath_hart0 hi h.awake hl ha hp]
          simp
        · rw [update_of_ne (Ne.symm hl)]
          exact h.hart0
      · show (update s.behind (hartOf l) _ g).isSome = true
        by_cases hgl : g = hartOf l
        · rw [hgl, update_self]
          rfl
        · rw [update_of_ne hgl]
          exact h.passed g hg
    · cases hst
      exact ⟨⟨q', hi'⟩, hw', h.hart0, h.passed⟩
  | pass H =>
    dsimp only at hst
    split_ifs at hst with hp
    cases hst
    refine ⟨h.stands, h.awake, h.hart0, fun g hg => ?_⟩
    by_cases hgH : g = H
    · subst hgH
      exact hp.2.1
    · simp only [update_of_ne hgH] at hg
      exact h.passed g hg

/-- **Shutdown reaches hart 0.** In every run in which, while hart 0 waits in `schedule()`, no other hart finds all
processes done, the harts do not all pass the barrier with hart 0 in an endless loop: when all have passed it, hart 0 is
on the path that calls `shutdown(0)`. -/
theorem shutdown_reaches {s : Sys} (hs : Reach (step m) (Cond m) Init s) :
    ¬ Stranded s ∧ ((∀ h, s.passed h = true) → s.behind 0 = some .shutdown) := by
  have h : SysInv m s := hs.inv (fun _ h => sysInv_init h) fun _ _ _ h hc hst => sysInv_step h hc hst
  refine ⟨fun hstr => h.hart0 hstr.2, fun hp => ?_⟩
  obtain ⟨x, hx⟩ := Option.isSome_iff_exists.1 (h.passed 0 (hp 0))
  cases x with
  | shutdown => exact hx
  | loop => exact absurd hx h.hart0

/-! ## Two runs -/

def start : Sys := ⟨booted, 0, fun _ => none, fun _ => false⟩

theorem start_init : Init start := ⟨booted_boot, rfl, rfl, rfl⟩

def attended (s : St) (l : Label) : Bool :=
  match departs s l with
  | none => true
  | some x => decide (s.phase 0 = .idle → ∃ i, some i ≠ x ∧ s.status i ≠ .free ∧ s.status i ≠ .zombie)

def cond (s : Sys) : Act → Bool
  | .kernel l => attended s.kernel l && vSafe s.kernel l
  | .pass _ => true

theorem cond_sound (s : Sys) (a : Act) (h : cond s a = true) : Cond m s a := by
  cases a with
  | pass H => trivial
  | kernel l =>
    simp only [cond, Bool.and_eq_true] at h
    refine ⟨fun h0 x hx => ?_, fun _ => vSafe_sound _ _ h.2⟩
    have h1 := h.1
    simp only [attended, hx, decide_eq_true_eq] at h1
    exact h1 h0

def lastOnHart0 : List Act :=
  [.kernel (.spin 0), .kernel (.spin 1), .kernel (.spin 2), .kernel (.spin 3), .kernel (.trap 1 (.exit 0)),
    .kernel (.trap 0 (.exit 0)), .kernel (.spin 1), .kernel (.spin 2), .kernel (.spin 3), .pass 1, .pass 2,
      .pass 3, .pass 0]

theorem shutdown_reaches_lastOnHart0 : (∀ h, (exec (step .register) start lastOnHart0).passed h = true) ∧
    (exec (step .register) start lastOnHart0).behind 0 = some .shutdown := by
  have hp : ∀ h, (exec (step .register) start lastOnHart0).passed h = true := by decide +kernel
  exact ⟨hp, (shutdown_reaches (m := .register)
    (reach_exec cond_sound lastOnHart0 start (.init start_init) (by decide +kernel))).2 hp⟩

def lastOnHart1 : List Act :=
  [.kernel (.spin 0), .kernel (.spin 1), .kernel (.spin 2), .kernel (.spin 3), .kernel (.trap 0 (.exit 0)),
    .kernel (.trap 1 (.exit 0)), .kernel (.spin 0), .kernel (.spin 2), .kernel (.spin 3), .pass 0, .pass 1,
      .pass 2, .pass 3]

/-- with either reading of the hart id: all harts pass the barrier, and hart 0 loops -/
theorem hart0_stranded :
    (Reach (step .ideal) (fun _ _ => True) Init (exec (step .ideal) start lastOnHart1) ∧
      Stranded (exec (step .ideal) start lastOnHart1)) ∧
    Reach (step .register) (fun _ _ => True) Init (exec (step .register) start lastOnHart1) ∧
      Stranded (exec (step .register) start lastOnHart1) := by
  have hc : ∀ (s : Sys) (a : Act), (fun _ _ => true : Sys → Act → Bool) s a = true → True := fun _ _ _ => trivial
  refine ⟨⟨?_, by decide +kernel, by decide +kernel⟩, ?_, by decide +kernel, by decide +kernel⟩
  · exact reach_exec hc lastOnHart1 start (.init start_init) (by decide +kernel)
  · exact reach_exec hc lastOnHart1 start (.init start_init) (by decide +kernel)

end RiscvPke.Sched.Shutdown
