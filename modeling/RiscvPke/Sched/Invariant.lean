/-
Every process is in exactly one place, in every state that any interleaving of the harts reaches when `read_tp()` is the
executing hart.
-/
import RiscvPke.Sched.Steps

namespace RiscvPke.Sched

open Function Chain RiscvPke.System

variable {s s1 s' : St} {q q1 q' : Lists} {H : Hart} {c p : Slot} {e : Entry} {nx : Next} {l : Label}

/-! ## Steps -/

theorem runs_none (hph : (s.phase H).proc = none) : update (runs s) H none = runs s := by
  rw [← hph]
  exact update_eq_self H (runs s)

theorem Body.frame (hb : Body s q H c e s1 q1 nx) : s1.phase = s.phase ∧ s1.current = s.current := by
  cases hb <;> exact ⟨rfl, rfl⟩

theorem Resched.inv (hre : Resched s q H s' q') (hr : Rep s.queue_next s.head q)
    (hl : Located s.status (update (runs s) H none) q)
    (hcur : ∀ h p, h ≠ H → s.phase h = .user p → s.current h = some p) (hr' : Rep s'.queue_next s'.head q') :
    Inv s' q' := by
  cases hre with
  | @run p rest hd hq =>
    refine ⟨hr', ?_, fun h x hx => ?_⟩
    · rw [runs_update (s := s) rfl]
      simpa [switchTo, Phase.proc] using hl.dispatch (p := p) (hr _).nodup (by simp [hq]) (update_self ..)
    · by_cases hh : h = H
      · subst hh
        simpa [switchTo] using hx
      · simp only [switchTo, update_of_ne hh] at hx ⊢
        exact hcur h x hh hx
  | idle hq hg =>
    refine ⟨hr', ?_, fun h x hx => ?_⟩
    · rw [runs_update (s := s) rfl]
      exact hl
    · by_cases hh : h = H
      · subst hh; simp at hx
      · simp only [update_of_ne hh] at hx
        exact hcur h x hh hx
  | park hq hg =>
    refine ⟨hr', ?_, fun h x hx => ?_⟩
    · rw [runs_update (s := s) rfl]
      exact hl
    · by_cases hh : h = H
      · subst hh; simp at hx
      · simp only [update_of_ne hh] at hx
        exact hcur h x hh hx

theorem switchTo_inv (hl : Located s.status (runs s) q) (hcur : ∀ h p, s.phase h = .user p → s.current h = some p)
    (hph : s.phase H = .user c) (hr : Rep s.queue_next s.head q) : Inv (switchTo s H H c) q := by
  have hcurH := hcur H c hph
  refine ⟨hr, ?_, fun h p hp => ?_⟩
  · rw [runs_update (s := s) rfl, Phase.proc, ← runs_eq.2 hph, update_eq_self]
    exact hl
  · simp only [switchTo, ← hph, ← hcurH, update_eq_self] at hp ⊢
    exact hcur h p hp

theorem inv_step (hi : Inv s q) (hst : AStep s q l s' q') (hr' : Rep s'.queue_next s'.head q') : Inv s' q' := by
  cases hst with
  | @trap H c e s1 q1 nx _ _ hph hb hr1 hf =>
    obtain ⟨hphase, hcurrent⟩ := hb.frame
    have hruns : runs s1 = runs s := by unfold runs; rw [hphase]; rfl
    have hl1 := hb.located hi.rep hi.located (runs_eq.2 hph)
    rw [← hruns] at hl1
    have hcur1 : ∀ h p, s1.phase h = .user p → s1.current h = some p := by
      rw [hphase, hcurrent]
      exact hi.cur
    have hph1 : s1.phase H = .user c := by rw [hphase]; exact hph
    cases hf with
    | ret => exact switchTo_inv hl1 hcur1 hph1 hr'
    | resume => exact switchTo_inv hl1 hcur1 hph1 hr'
    | sched hre => exact hre.inv hr1 hl1 (fun h p _ => hcur1 h p) hr'
  | start hph hre =>
    refine hre.inv hi.rep ?_ (fun h p _ => hi.cur h p) hr'
    rw [runs_none (by rw [hph]; rfl)]
    exact hi.located
  | wake hph hq hre =>
    refine hre.inv hi.rep ?_ (fun h p _ => hi.cur h p) hr'
    rw [runs_none (by rw [hph]; rfl)]
    exact hi.located
  | stay hph hq hg => exact hi
  | @shut H hph hg =>
    refine ⟨hr', ?_, fun h p hp => hi.cur h p ?_⟩
    · rw [runs_update (s := s) rfl, Phase.proc, runs_none (by rw [hph]; rfl)]
      exact hi.located
    · by_cases hh : h = H
      · subst hh; simp at hp
      · simpa [hh] using hp

/-! ## Boot -/

def bootLists (slot : Hart → Slot) (loaded : Hart → Bool) : Lists
  | .ready h => if loaded h then [slot h] else []
  | _ => []

def bootPlace (slot : Hart → Slot) (loaded : Hart → Bool) (i : Slot) : Place :=
  match (List.finRange NCPU).find? fun h => slot h = i ∧ loaded h with
  | some h => .queue (.ready h)
  | none => .nowhere

theorem bootPlace_eq {slot : Hart → Slot} {loaded : Hart → Bool} (hinj : Function.Injective slot)
    {i : Slot} {h : Hart} :
    bootPlace slot loaded i = .queue (.ready h) ↔ slot h = i ∧ loaded h := by
  unfold bootPlace
  cases hf : (List.finRange NCPU).find? fun h => slot h = i ∧ loaded h with
  | none =>
    have := List.find?_eq_none.1 hf h (List.mem_finRange h)
    simpa using this
  | some g =>
    have hg := of_find? hf
    simp only [Place.queue.injEq, Queue.ready.injEq]
    constructor
    · rintro rfl
      exact hg
    · rintro ⟨rfl, _⟩
      exact hinj hg.1

theorem inv_boot {slot : Hart → Slot} {loaded : Hart → Bool} (hinj : Function.Injective slot) :
    Inv (boot slot loaded) (bootLists slot loaded) := by
  have hcases : ∀ i, (∃ h, bootPlace slot loaded i = .queue (.ready h)) ∨ bootPlace slot loaded i = .nowhere := by
    intro i
    unfold bootPlace
    cases (List.finRange NCPU).find? fun h => slot h = i ∧ loaded h with
    | none => exact .inr rfl
    | some h => exact .inl ⟨h, rfl⟩
  have hmem : ∀ {h p}, p ∈ bootLists slot loaded (.ready h) ↔ slot h = p ∧ loaded h := by
    intro h p
    cases hl : loaded h <;> simp [bootLists, hl, eq_comm]
  refine ⟨fun k => ?_, ⟨bootPlace slot loaded, ⟨fun k p => ?_, fun h p => ?_⟩, fun p => ?_⟩, fun h p hp => ?_⟩
  · cases k with
    | ready h => cases hl : loaded h <;> simp [boot, bootLists, hl]
    | block h => simp [boot, bootLists]
    | sem i => simp [boot, bootLists]
  · cases k with
    | ready h => rw [hmem, bootPlace_eq hinj]
    | block h => rcases hcases p with ⟨g, hp⟩ | hp <;> simp [hp, bootLists]
    | sem i => rcases hcases p with ⟨g, hp⟩ | hp <;> simp [hp, bootLists]
  · rcases hcases p with ⟨g, hp⟩ | hp <;> simp [hp, runs, boot, Phase.proc]
  · rcases hcases p with ⟨g, hp⟩ | hp
    · rw [hp]
      exact if_pos ⟨g, (bootPlace_eq hinj).1 hp⟩
    · have hno : ¬ ∃ h, slot h = p ∧ loaded h := by
        rintro ⟨h, hh⟩
        rw [(bootPlace_eq hinj).2 hh] at hp
        simp at hp
      rw [hp]
      simp only [Place.allows, boot, if_neg hno]
      by_cases hz : ∃ h, slot h = p
      · exact .inl (if_pos hz)
      · exact .inr (if_neg hz)
  · simp [boot] at hp

/-! ## Reachable states -/

theorem inv_reachable (hs : Reachable .ideal s) : ∃ q, Inv s q := by
  refine Reach.inv (P := fun s => ∃ q, Inv s q) ?_ ?_ hs
  · rintro s ⟨slot, loaded, hinj, rfl⟩
    exact ⟨_, inv_boot hinj⟩
  · rintro s l s' ⟨q, hi⟩ _ hst
    obtain ⟨q', ha, hr'⟩ := (step_ends hi l).of_ok hst
    exact ⟨q', inv_step hi ha hr'⟩

def Phase.busy (ph : Phase) : Prop := ph.proc ≠ none

theorem Inv.busy_iff (hi : Inv s q) (h : Hart) (p : Slot) :
    ((s.phase h).busy ∧ s.current h = some p) ↔ runs s h = some p := by
  cases hph : s.phase h with
  | user c =>
    have hc := hi.cur h c hph
    simp [Phase.busy, Phase.proc, runs, hph, hc]
  | boot | idle | parked => simp [Phase.busy, Phase.proc, runs, hph]

theorem Inv.ready_iff (hi : Inv s q) (p : Slot) : s.status p = .ready ↔ ∃! h, p ∈ q (.ready h) := by
  obtain ⟨place, hp, ha⟩ := hi.located
  constructor
  · intro hs
    obtain ⟨h, hpl⟩ := allows_ready.1 (hs ▸ ha p)
    have hm := (hp.queue _ p).2 hpl
    exact ⟨h, hm, fun g hg => by simpa using hp.apart _ _ _ hg hm⟩
  · rintro ⟨h, hm, _⟩
    exact hi.located.ready_of_mem hm

theorem Inv.blocked_iff (hi : Inv s q) (p : Slot) : s.status p = .blocked ↔ ∃! k, k.waits ∧ p ∈ q k := by
  obtain ⟨place, hp, ha⟩ := hi.located
  constructor
  · intro hs
    obtain ⟨k, hk, hpl⟩ := allows_blocked.1 (hs ▸ ha p)
    have hm := (hp.queue _ p).2 hpl
    exact ⟨k, ⟨hk, hm⟩, fun g hg => hp.apart _ _ _ hg.2 hm⟩
  · rintro ⟨k, ⟨hk, hm⟩, _⟩
    exact hi.located.blocked_of_mem hm hk

theorem Inv.running_iff (hi : Inv s q) (p : Slot) :
    s.status p = .running ↔ ∃! h, (s.phase h).busy ∧ s.current h = some p := by
  simp only [hi.busy_iff]
  obtain ⟨place, hp, ha⟩ := hi.located
  constructor
  · intro hs
    obtain ⟨h, hpl⟩ := allows_running.1 (hs ▸ ha p)
    refine ⟨h, (hp.hart h p).2 hpl, fun g hg => ?_⟩
    have := (hp.hart g p).1 hg
    simpa [hpl, eq_comm] using this
  · rintro ⟨h, hr, _⟩
    exact hi.located.running_of_run hr

/-- **Every process is in exactly one place.** In every reachable state the queues are finite, acyclic and pairwise
disjoint chains of `queue_next` and the statuses say where the processes are; and whatever a hart does next, no
assertion fails, the one of `schedule()` included, and no loop over a queue runs forever. -/
theorem one_place (hs : Reachable .ideal s) :
    (∃ q : Lists,
      (∀ k, Links s.queue_next (s.head k) (q k) ∧ (q k).Nodup) ∧
      (∀ k k', k ≠ k' → List.Disjoint (q k) (q k')) ∧
      (∀ p, s.status p = .ready ↔ ∃! h, p ∈ q (.ready h)) ∧
      (∀ p, s.status p = .blocked ↔ ∃! k, k.waits ∧ p ∈ q k) ∧
      (∀ p, s.status p = .running ↔ ∃! h, (s.phase h).busy ∧ s.current h = some p) ∧
      (∀ p, s.status p = .zombie ∨ s.status p = .free → ∀ k, p ∉ q k)) ∧
    ∀ l e, step .ideal s l = .error e → e ≠ .endlessLoop ∧ ∀ a, e ≠ .assertion a := by
  obtain ⟨q, hi⟩ := inv_reachable hs
  refine ⟨⟨q, fun k => ⟨hi.rep k, (hi.rep k).nodup⟩, fun k k' hk => ?_, hi.ready_iff, hi.blocked_iff, hi.running_iff,
    fun p hp => hi.located.notMem_of_dead hp⟩, fun l e he => ?_⟩
  · intro p hp hp'
    exact hk (hi.located.apart _ _ _ hp hp')
  · have := step_ends hi l
    rw [he] at this
    exact this

/-! ## A run -/

def booted : St := boot (Fin.castLE (by decide)) fun h => decide (h.val < 2)

theorem booted_boot : Boot booted := ⟨_, _, Fin.castLE_injective _, rfl⟩

def forkWait : List Label := [.spin 0, .spin 1, .trap 0 .fork, .trap 0 (.wait (-1))]

theorem reachable_exec {m : TpMode} {ls : List Label} (hm : meets (step m) (fun _ _ => true) booted ls = true) :
    Reachable m (exec (step m) booted ls) :=
  reach_exec (fun _ _ _ => trivial) ls booted (.init booted_boot) hm

theorem one_place_forkWait :
    (exec (step .ideal) booted forkWait).status 0 = .blocked ∧
    (exec (step .ideal) booted forkWait).status 4 = .running ∧
      ∃ q : Lists, q (.block 0) = [0] ∧ ∃! k, k.waits ∧ (0 : Slot) ∈ q k := by
  have hb : (exec (step .ideal) booted forkWait).status 0 = .blocked := by decide +kernel
  obtain ⟨⟨q, hl, _, _, hbl, _⟩, _⟩ := one_place (s := exec (step .ideal) booted forkWait)
    (reachable_exec (by decide +kernel))
  have h0 : Links (exec (step .ideal) booted forkWait).queue_next
      ((exec (step .ideal) booted forkWait).head (.block 0)) [0] :=
    ⟨by decide +kernel, links_nil.2 (by decide +kernel)⟩
  exact ⟨hb, by decide +kernel, q, (hl (.block 0)).1.unique h0, (hbl 0).1 hb⟩

end RiscvPke.Sched
