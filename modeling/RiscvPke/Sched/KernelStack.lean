/-
Kernel stacks. A trap of a process switches to the kernel stack of that process (`trapframe->kernel_sp`, set by
`switch_to`), and the kernel stays on it until it returns to user mode. `schedule()` does not switch stacks: a hart that
finds no ready process spins in the waiting loop on the stack of the process that entered the kernel last.
-/
import RiscvPke.Sched.HartIdentity
import RiscvPke.Sched.Reap

namespace RiscvPke.Sched

open Function Chain RiscvPke.System

/-! ## Stacks -/

abbrev Stacks := Hart → Option (Slot × ℕ)

def recordStack (s : St) (l : Label) (_ : St) (k : Stacks) : Stacks :=
  match l with
  | .trap H _ => update k H ((s.phase H).proc.map fun p => (p, s.gh.gen p))
  | .spin _ => k

/-- the kernel beside the stacks -/
def stackStep (m : TpMode) : St × Stacks → Label → Res (St × Stacks) := logged (step m) recordStack

def IdlesOn (t : St × Stacks) (H : Hart) (p : Slot) : Prop := t.1.phase H = .idle ∧ t.2 H = some (p, t.1.gh.gen p)

instance (t : St × Stacks) (H : Hart) (p : Slot) : Decidable (IdlesOn t H p) := inferInstanceAs (Decidable (_ ∧ _))

/-- a hart idles on the kernel stack of a process that another hart runs, or on whose stack another hart is in a trap -/
def StackShared (t : St × Stacks) : Prop :=
  ∃ p H H', H ≠ H' ∧ IdlesOn t H p ∧ (t.1.phase H' = .user p ∨ IdlesOn t H' p)

def StackInit (t : St × Stacks) : Prop := Boot t.1 ∧ t.2 = fun _ => none

def StackSafe (t : St × Stacks) : Label → Prop
  | .trap _ (.semV id) =>
    ∀ i p, getSemaphore t.1 id = some i → (t.1.semaphores i).value < 0 → t.1.head (.sem i) = some p →
      ∀ h, ¬ IdlesOn t h p
  | _ => True

/-! ## One step -/

variable {m : TpMode} {s s1 s' : St} {q q1 q' : Lists} {H T t : Hart} {c p i : Slot} {e : Entry} {nx : Next} {l : Label}
variable {run : Hart → Option Slot} {idle : Hart → Slot → Prop} {k : Queue}

def Moored (idle : Hart → Slot → Prop) (run : Hart → Option Slot) (q : Lists) : Prop :=
  ∀ h p, idle h p → ∀ g, p ∈ q (.ready g) ∨ p ∈ q (.block g) ∨ run g = some p → g = h

theorem Moored.push (hm : Moored idle run q) (hk : ∀ h g, idle h p → k = .ready g ∨ k = .block g → g = h) :
    Moored idle run (push q k p) := by
  intro h x hx g hg
  simp only [mem_push] at hg
  rcases hg with (hg | ⟨hkg, rfl⟩) | (hg | ⟨hkg, rfl⟩) | hg
  · exact hm h x hx g (.inl hg)
  · exact hk h g hx (.inl hkg.symm)
  · exact hm h x hx g (.inr (.inl hg))
  · exact hk h g hx (.inr hkg.symm)
  · exact hm h x hx g (.inr (.inr hg))

theorem Moored.cut (hm : Moored idle run q) (hn : (q k).Nodup) : Moored idle run (cut q k p) := by
  intro h x hx g hg
  simp only [mem_cut hn] at hg
  apply hm h x hx g
  rcases hg with hg | hg | hg
  · exact .inl hg.1
  · exact .inr (.inl hg.1)
  · exact .inr (.inr hg)

theorem Moored.mono {idle' : Hart → Slot → Prop} (hm : Moored idle run q) (h : ∀ h p, idle' h p → idle h p) :
    Moored idle' run q :=
  fun g p hp => hm g p (h g p hp)

theorem Body.moored (hb : Body s q H c e s1 q1 nx) (hr : Rep s.queue_next s.head q) (hm : Moored idle run q)
    (hc : run H = some c) (hH : ∀ p, ¬ idle H p) (hnew : ∀ i, s1.gh.gen i ≠ s.gh.gen i → ∀ h, ¬ idle h i)
    (hv : ∀ id j p, e = .semV id → getSemaphore s id = some j → (s.semaphores j).value < 0 → s.head (.sem j) = some p →
      ∀ h, ¬ idle h p) : Moored idle run q1 := by
  -- no hart idles on the stack of the process that runs
  have hno : ∀ h, ¬ idle h c := by
    intro h hc'
    have hh := hm h c hc' H (.inr (.inr hc))
    subst hh
    exact hH c hc'
  cases hb with
  | badTarget | tick | waitRet | reap | exit | semNew | badSem | semPGo | semVGo => exact hm
  | yield | slice | waitBlock | semPBlock => exact hm.push fun h g hi => absurd hi (hno h)
  | @exitWake code par h n hd hpar hmem =>
    refine (hm.cut (hr _).nodup).push fun g g' hi hk => ?_
    simp only [Queue.ready.injEq, reduceCtorEq, or_false] at hk
    subst hk
    exact hm g par hi h (.inr (.inl hmem))
  | @semVWake id j p rest n hd hj hneg hq =>
    have hk : Links s.queue_next (s.head (.sem j)) (p :: rest) := hq ▸ hr (.sem j)
    exact (hm.cut (hr _).nodup).push fun h g hi => absurd hi (hv id j p rfl hj hneg hk.1 h)
  | @fork _ T t i n hd he hi =>
    exact hm.push fun h g hx => absurd hx (hnew i (by simp [readied, forkChild, initProc]) h)

theorem Body.caller (hb : Body s q H c e s1 q1 .sched) (hl : Located s.status run q) (hc : run H = some c) {g : Hart}
    (hg : c ∈ q1 (.ready g) ∨ c ∈ q1 (.block g)) : g = H := by
  have hno := hl.notMem_of_run hc
  cases hb with
  | yield | slice => grind [mem_push]
  | waitBlock => grind [mem_push]
  | semPBlock => simp [mem_push, hno] at hg
  | exit => exact (hg.elim (hno _) (hno _)).elim
  | @exitWake code par h n hd hpar hm =>
    have hpc : c ≠ par := fun hp => hno _ (hp ▸ hm)
    have hcut : ∀ k, c ∉ Sched.cut q (.block h) par k := by
      intro k hk
      unfold Sched.cut at hk
      grind
    simp [mem_push, hcut, hpc] at hg

theorem runs_switchTo (s : St) (H h : Hart) (p : Slot) : runs (switchTo s H h p) = update (runs s) H (some p) :=
  runs_update (x := .user p) rfl

theorem Resched.moored (hre : Resched s q H s' q') (hr : Rep s.queue_next s.head q)
    (hm : Moored idle (update (runs s) H none) q) : Moored idle (runs s') q' := by
  cases hre with
  | @run p rest hd hq =>
    rw [runs_switchTo]
    intro h x hx g hg
    rcases hg with hg | hg | hg
    · exact hm.cut (hr _).nodup h x hx g (.inl hg)
    · exact hm.cut (hr _).nodup h x hx g (.inr (.inl hg))
    · by_cases hgH : g = H
      · subst hgH
        obtain rfl : p = x := by simpa using hg
        exact hm h p hx g (.inl (by simp [hq]))
      · rw [update_of_ne hgH] at hg
        exact hm h x hx g (.inr (.inr (by rw [update_of_ne hgH]; exact hg)))
  | idle hq hg =>
    rw [runs_update (s := s) (x := .idle) rfl]
    exact hm
  | park hq hg =>
    rw [runs_update (s := s) (x := .parked) rfl]
    exact hm

theorem Resched.phase (hre : Resched s q H s' q') {h : Hart} (hh : h ≠ H) : s'.phase h = s.phase h := by
  cases hre <;> simp [switchTo, hh]

theorem Resched.gen (hre : Resched s q H s' q') : s'.gh.gen = s.gh.gen := by
  cases hre with
  | run hq => exact gen_switchTo _ _ _ _
  | idle | park => rfl

theorem Moored.leave (hm : Moored idle run q) : Moored idle (update run H none) q := by
  intro h x hx g hg
  apply hm h x hx g
  grind

theorem Finish.moored (hf : Finish s1 q1 H c nx s' q') (hr : Rep s1.queue_next s1.head q1) (hc : runs s1 H = some c)
    (hm : Moored idle (runs s1) q1) :
    s'.gh.gen = s1.gh.gen ∧ (∀ g, g ≠ H → s'.phase g = s1.phase g) ∧ s'.phase H ≠ .boot ∧ Moored idle (runs s') q' ∧
      (s'.phase H = .idle → nx = .sched ∧ q' = q1 ∧ runs s' = update (runs s1) H none) := by
  cases hf with
  | @ret r =>
    refine ⟨gen_switchTo _ _ _ _, fun g hg => by simp [sysReturn, switchTo, setA0, hg],
      by simp [sysReturn, switchTo], ?_,
      fun hp => by simp [sysReturn, switchTo] at hp⟩
    rw [sysReturn, runs_switchTo, show runs (setA0 s1 c r) = runs s1 from rfl, ← hc, update_eq_self]
    exact hm
  | resume =>
    refine ⟨gen_switchTo _ _ _ _, fun g hg => by simp [switchTo, hg], by simp [switchTo], ?_,
      fun hp => by simp [switchTo] at hp⟩
    rw [runs_switchTo, ← hc, update_eq_self]
    exact hm
  | sched hre =>
    refine ⟨hre.gen, fun g hg => hre.phase hg, by cases hre <;> simp [switchTo], hre.moored hr hm.leave, ?_⟩
    intro hp
    cases hre with
    | run hq => simp [switchTo] at hp
    | park hq hg => simp at hp
    | idle hq hg => exact ⟨rfl, rfl, runs_update (x := .idle) rfl⟩

/-! ## Runs -/

/-- the invariant of the runs that meet the condition -/
structure StackInv (m : TpMode) (t : St × Stacks) : Prop where
  stands : ∃ q, Stands m t.1 q ∧ Moored (IdlesOn t) (runs t.1) q
  /-- the stacks are those of instances that have been handed out -/
  known : ∀ h p g, t.2 h = some (p, g) → g ≤ t.1.gh.gen p
  /-- two harts do not idle on the same stack -/
  single : ∀ h h' p, IdlesOn t h p → IdlesOn t h' p → h = h'
  boot : ∀ h, t.1.phase h = .boot → t.2 h = none

theorem idlesOn_before {K K' : Stacks} (hknown : ∀ h p g, K h = some (p, g) → g ≤ s.gh.gen p) {h : Hart}
    (hph : s'.phase h = s.phase h) (hK : K' h = K h) (hgen : s.gh.gen p ≤ s'.gh.gen p) (hi : IdlesOn (s', K') h p) :
    IdlesOn (s, K) h p ∧ s'.gh.gen p = s.gh.gen p := by
  obtain ⟨h1, h2⟩ := hi
  have h2' : K h = some (p, s'.gh.gen p) := hK.symm.trans h2
  have he : s'.gh.gen p = s.gh.gen p := le_antisymm (hknown h p _ h2') hgen
  exact ⟨⟨hph.symm.trans h1, he ▸ h2'⟩, he⟩

theorem stackInv_spin {K : Stacks} (h : StackInv m (s, K)) (hi' : Stands m s' q')
    (hm : Moored (IdlesOn (s, K)) (runs s') q')
    (hgen : s'.gh.gen = s.gh.gen) (hph : ∀ h, h ≠ H → s'.phase h = s.phase h) (hboot : s'.phase H ≠ .boot)
    (hidle : s'.phase H = .idle → s.phase H = .idle ∨ K H = none) : StackInv m (s', K) := by
  have hback : ∀ h p, IdlesOn (s', K) h p → IdlesOn (s, K) h p := by
    intro g x hx
    by_cases hg : g = H
    · subst hg
      rcases hidle hx.1 with hsame | hnone
      · exact ⟨hsame, hx.2.trans (by rw [hgen])⟩
      · exact absurd (hnone.symm.trans hx.2) (by simp)
    · exact (idlesOn_before h.known (hph g hg) rfl (by rw [hgen]) hx).1
  refine ⟨⟨q', hi', hm.mono hback⟩, ?_, ?_, ?_⟩
  · intro g x n hx
    rw [show (s', K).1.gh.gen = s.gh.gen from hgen]
    exact h.known g x n hx
  · intro g g' x hx hx'
    exact h.single g g' x (hback g x hx) (hback g' x hx')
  · intro g hg
    have hgH : g ≠ H := fun he => hboot (he ▸ hg)
    exact h.boot g ((hph g hgH).symm.trans hg)

theorem stackInv_trap {K : Stacks} (h : StackInv m (s, K)) (hi : Stands m s q) (hm : Moored (IdlesOn (s, K)) (runs s) q)
    (hi' : Stands m s' q') (hph : s.phase H = .user c) (hb : Body (saveRegs s H c e) q H c e s1 q1 nx)
    (hr1 : Rep s1.queue_next s1.head q1) (hf : Finish s1 q1 H c nx s' q') (hc : StackSafe (s, K) (.trap H e)) :
    StackInv m (s', update K H (some (c, s.gh.gen c))) := by
  have hrun : runs s H = some c := runs_eq.2 hph
  have hphase1 : s1.phase = s.phase := hb.frame.1
  have hruns1 : runs s1 = runs s := by
    unfold runs
    rw [hphase1]
  have hgen1 : ∀ i, s.gh.gen i ≤ s1.gh.gen i := fun i => (hb.recycles hi.1.located hrun i).1
  -- the harts that idled before and whose process has not been replaced
  let idle : Hart → Slot → Prop := fun g x => IdlesOn (s, K) g x ∧ s1.gh.gen x = s.gh.gen x
  have hm1 : Moored idle (runs s1) q1 := by
    rw [hruns1]
    refine hb.moored hi.1.rep (hm.mono fun _ _ hx => hx.1) hrun ?_ ?_ ?_
    · intro x hx
      exact absurd (hph.symm.trans hx.1.1) (by simp)
    · intro i hne g hx
      exact hne hx.2
    · rintro id j p rfl hj hneg hhd g hx
      exact hc j p hj hneg hhd g hx.1
  obtain ⟨hgen', hph', hboot, hm', hlast⟩ := hf.moored hr1 (by rw [hruns1]; exact hrun) hm1
  rw [hphase1] at hph'
  have hback : ∀ g x, IdlesOn (s', update K H (some (c, s.gh.gen c))) g x →
      (g ≠ H ∧ idle g x) ∨ (g = H ∧ x = c ∧ s'.phase H = .idle) := by
    intro g x hx
    by_cases hg : g = H
    · subst hg
      refine .inr ⟨rfl, ?_, hx.1⟩
      have h2 := hx.2
      grind
    · obtain ⟨h1, h2⟩ := idlesOn_before h.known (hph' g hg) (update_of_ne hg _ _)
        (by rw [hgen']; exact hgen1 x) hx
      exact .inl ⟨hg, h1, by rw [← hgen']; exact h2⟩
  -- no hart idles on the stack of the process that trapped
  have hnoc : ∀ g, g ≠ H → ¬ idle g c := by
    intro g hg hx
    exact hg (hm g c hx.1 H (.inr (.inr hrun))).symm
  refine ⟨⟨q', hi', ?_⟩, ?_, ?_, ?_⟩
  · intro g x hx y hy
    rcases hback g x hx with ⟨-, hx'⟩ | ⟨rfl, rfl, hp⟩
    · exact hm' g x hx' y hy
    · obtain ⟨rfl, rfl, hruns'⟩ := hlast hp
      rcases hy with hy | hy | hy
      · exact hb.caller hi.1.located hrun (.inl hy)
      · exact hb.caller hi.1.located hrun (.inr hy)
      · by_cases hyg : y = g
        · exact hyg
        · have hy' : runs s y = some x := by grind [runs]
          obtain ⟨place, hpl, -⟩ := hi.1.located
          have h1 := (hpl.hart y x).1 hy'
          have h2 := (hpl.hart g x).1 hrun
          simpa [h1] using h2
  · intro g x n hx
    rw [hgen']
    by_cases hg : g = H
    · grind
    · exact (h.known g x n ((update_of_ne hg _ _).symm.trans hx)).trans (hgen1 x)
  · intro g g' x hx hx'
    rcases hback g x hx with ⟨hg, h1⟩ | ⟨rfl, rfl, -⟩
    · rcases hback g' x hx' with ⟨hg', h2⟩ | ⟨rfl, rfl, -⟩
      · exact h.single g g' x h1.1 h2.1
      · exact absurd h1 (hnoc g hg)
    · grind
  · intro g hg
    have hgH : g ≠ H := fun he => hboot (he ▸ hg)
    exact (update_of_ne hgH _ _).trans (h.boot g ((hph' g hgH).symm.trans hg))

variable {t : St × Stacks}

theorem stackInv_step {t' : St × Stacks} (h : StackInv m t) (hc : StackSafe t l) (hv : m = .register → VSafe t.1 l)
    (hst : stackStep m t l = .ok t') : StackInv m t' := by
  obtain ⟨s, K⟩ := t
  obtain ⟨s', K'⟩ := t'
  obtain ⟨hst, hK⟩ := logged_ok.1 hst
  obtain ⟨q, hi, hm⟩ := h.stands
  obtain ⟨q', ha, hi'⟩ := hi.step hv hst
  dsimp only at hi hm hi' ha hK
  subst hK
  cases ha with
  | @trap H c e s1 q1 nx _ _ hph hb hr1 hf =>
    have hK : recordStack s (.trap H e) s' K = update K H (some (c, s.gh.gen c)) := by
      simp [recordStack, hph, Phase.proc]
    rw [hK]
    exact stackInv_trap h hi hm hi' hph hb hr1 hf hc
  | @start H _ _ hph hre =>
    refine stackInv_spin (H := H) h hi' (hre.moored hi.1.rep hm.leave) hre.gen (fun g hg => hre.phase hg) ?_
      fun _ => .inr (h.boot H hph)
    cases hre <;> simp [switchTo]
  | @wake H _ _ hph hq hre =>
    refine stackInv_spin (H := H) h hi' (hre.moored hi.1.rep hm.leave) hre.gen (fun g hg => hre.phase hg) ?_
      fun _ => .inl hph
    cases hre <;> simp [switchTo]
  | stay => exact h
  | @shut H hph hg =>
    have hruns : runs { s with phase := update s.phase H .parked } = update (runs s) H none :=
      runs_update (x := .parked) rfl
    refine stackInv_spin (H := H) h hi' (by rw [hruns]; exact hm.leave) rfl (fun g hg => by simp [hg]) (by simp)
      fun hp => by simp at hp

theorem stackInv_init (h : StackInit t) : StackInv m t := by
  obtain ⟨hb, hK⟩ := h
  obtain ⟨q, hq⟩ := stands_boot (m := m) hb
  have hno : ∀ g p, ¬ IdlesOn t g p := by
    intro g p hp
    have := hp.2
    rw [hK] at this
    cases this
  refine ⟨⟨q, hq, fun g p hp => absurd hp (hno g p)⟩, ?_, fun g g' p hp => absurd hp (hno g p), ?_⟩
  · intro g p n hx
    rw [hK] at hx
    cases hx
  · intro g _
    rw [hK]

/-- the condition of a step; where tp is read also that of hart identity -/
def StackCond (m : TpMode) (t : St × Stacks) (l : Label) : Prop := StackSafe t l ∧ (m = .register → VSafe t.1 l)

/-- **A kernel stack is used by one hart at a time.** In every run in which no V wakes a process on whose kernel stack a
hart idles, there is no state in which a hart idles on the kernel stack of a process that another hart runs, or on whose
stack another hart is in a trap. -/
theorem stack_exclusive (hs : Reach (stackStep m) (StackCond m) StackInit t) : ¬ StackShared t := by
  have h : StackInv m t := hs.inv (fun _ h => stackInv_init h) fun _ _ _ h hc hst => stackInv_step h hc.1 hc.2 hst
  rintro ⟨p, H, H', hne, hi, hp | hi'⟩
  · obtain ⟨q, -, hm⟩ := h.stands
    exact hne (hm H p hi H' (.inr (.inr (runs_eq.2 hp)))).symm
  · exact hne (h.single H H' p hi hi')

/-! ## Two runs -/

def stackStart : St × Stacks := (booted, fun _ => none)

theorem stackStart_init : StackInit stackStart := ⟨booted_boot, rfl⟩

def stackSafe (t : St × Stacks) (l : Label) : Bool :=
  match l with
  | .trap _ (.semV id) =>
    match getSemaphore t.1 id with
    | none => true
    | some i =>
      match t.1.head (.sem i) with
      | none => true
      | some p => decide ((t.1.semaphores i).value < 0 → ∀ h, ¬ IdlesOn t h p)
  | _ => true

theorem stackSafe_sound (t : St × Stacks) (l : Label) (h : (stackSafe t l && vSafe t.1 l) = true) :
    StackCond m t l := by
  simp only [Bool.and_eq_true] at h
  refine ⟨?_, fun _ => vSafe_sound _ _ h.2⟩
  have h1 := h.1
  cases l with
  | spin H => trivial
  | trap H e =>
    cases e with
    | semV id =>
      intro i p hi hneg hhd
      simp only [stackSafe, hi, hhd, decide_eq_true_eq] at h1
      exact h1 hneg
    | fork | forkTo | yield | timer | wait | exit | semNew | semP => trivial

def wokenAtHome : List Label :=
  [.spin 0, .spin 1, .trap 0 (.semNew 0), .trap 0 .fork, .trap 0 (.semP 0), .trap 0 (.semV 0), .trap 0 (.exit 0),
    .trap 1 (.exit 0), .spin 2]

theorem stack_exclusive_wokenAtHome : IdlesOn (exec (stackStep .register) stackStart wokenAtHome) 1 1 ∧
    ¬ StackShared (exec (stackStep .register) stackStart wokenAtHome) :=
  ⟨by decide +kernel, stack_exclusive (m := .register)
    (reach_exec stackSafe_sound wokenAtHome stackStart (.init stackStart_init) (by decide +kernel))⟩

def wokenElsewhere : List Label :=
  [.spin 0, .spin 1, .trap 0 (.semNew 0), .trap 0 (.semP 0), .trap 1 (.semV 0), .trap 1 .yield]

/-- with either reading of the hart id: hart 0 idles on the kernel stack of process 0, and hart 1 runs process 0 -/
theorem stack_shared :
    (Reach (stackStep .ideal) (fun _ _ => True) StackInit (exec (stackStep .ideal) stackStart wokenElsewhere) ∧
      StackShared (exec (stackStep .ideal) stackStart wokenElsewhere)) ∧
    Reach (stackStep .register) (fun _ _ => True) StackInit (exec (stackStep .register) stackStart wokenElsewhere) ∧
      StackShared (exec (stackStep .register) stackStart wokenElsewhere) := by
  have hc : ∀ (t : St × Stacks) (l : Label), (fun _ _ => true : St × Stacks → Label → Bool) t l = true → True :=
    fun _ _ _ => trivial
  refine ⟨⟨?_, 0, 0, 1, by decide, by decide +kernel, .inl (by decide +kernel)⟩, ?_, 0, 0, 1, by decide,
    by decide +kernel,
    .inl (by decide +kernel)⟩
  · exact reach_exec hc wokenElsewhere stackStart (.init stackStart_init) (by decide +kernel)
  · exact reach_exec hc wokenElsewhere stackStart (.init stackStart_init) (by decide +kernel)

end RiscvPke.Sched
