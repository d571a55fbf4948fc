/-
Where the processes are. A `place` for every slot (in a queue, running on a hart, or nowhere) is the single source of
truth: `Placed place run q` says that the lists `q` and the processes `run` of the harts show exactly this placement. As
a process has one place, the queues are disjoint and no process runs twice.
-/
import RiscvPke.Sched.Queues

namespace RiscvPke.Sched

open Function

inductive Place where
  | queue (k : Queue)
  | hart (h : Hart)
  | nowhere
deriving DecidableEq, Repr

def Place.allows : Place → Status → Prop
  | .queue (.ready _), st => st = .ready
  | .queue (.block _), st => st = .blocked
  | .queue (.sem _), st => st = .blocked
  | .hart _, st => st = .running
  | .nowhere, st => st = .zombie ∨ st = .free

/-- the processes of all queues but the ready queues wait for something -/
def Queue.waits : Queue → Prop
  | .ready _ => False
  | .block _ | .sem _ => True

variable {pl : Place}

theorem allows_ready : pl.allows .ready ↔ ∃ h, pl = .queue (.ready h) := by
  cases pl with
  | queue k => cases k <;> simp [Place.allows]
  | hart h => simp [Place.allows]
  | nowhere => simp [Place.allows]

theorem allows_blocked : pl.allows .blocked ↔ ∃ k, k.waits ∧ pl = .queue k := by
  cases pl with
  | queue k => cases k <;> simp [Place.allows, Queue.waits]
  | hart h => simp [Place.allows]
  | nowhere => simp [Place.allows]

theorem allows_running : pl.allows .running ↔ ∃ h, pl = .hart h := by
  cases pl with
  | queue k => cases k <;> simp [Place.allows]
  | hart h => simp [Place.allows]
  | nowhere => simp [Place.allows]

theorem allows_dead {st : Status} (hs : st = .zombie ∨ st = .free) : pl.allows st ↔ pl = .nowhere := by
  rcases hs with rfl | rfl <;> cases pl with
  | queue k => cases k <;> simp [Place.allows]
  | hart h => simp [Place.allows]
  | nowhere => simp [Place.allows]

structure Placed (place : Slot → Place) (run : Hart → Option Slot) (q : Lists) : Prop where
  queue : ∀ k p, p ∈ q k ↔ place p = .queue k
  hart : ∀ h p, run h = some p ↔ place p = .hart h

variable {place : Slot → Place} {status : Slot → Status} {run : Hart → Option Slot} {q : Lists} {k : Queue}
variable {h H : Hart} {p c : Slot} {st : Status}

section

variable (hp : Placed place run q)

include hp

theorem Placed.apart : Apart q := by
  intro k k' p hk hk'
  have h1 := (hp.queue k p).1 hk
  have h2 := (hp.queue k' p).1 hk'
  simpa [h1] using h2

theorem Placed.notMem (hn : ∀ k, place p ≠ .queue k) : ∀ k, p ∉ q k :=
  fun k hm => hn k ((hp.queue k p).1 hm)

/-! ## Moves -/

theorem Placed.push (hn : place p = .nowhere) (k : Queue) : Placed (update place p (.queue k)) run (push q k p) := by
  refine ⟨fun k' x => ?_, fun h x => ?_⟩
  · rw [mem_push, hp.queue]
    by_cases hx : x = p
    · subst hx; simp [hn, eq_comm]
    · simp [hx]
  · rw [hp.hart]
    by_cases hx : x = p
    · subst hx; simp [hn]
    · simp [hx]

theorem Placed.cut (hnd : (q k).Nodup) (hk : place p = .queue k) :
    Placed (update place p .nowhere) run (cut q k p) := by
  refine ⟨fun k' x => ?_, fun h x => ?_⟩
  · rw [mem_cut hnd, hp.queue]
    by_cases hx : x = p
    · subst hx; simp [hk, eq_comm]
    · simp [hx]
  · rw [hp.hart]
    by_cases hx : x = p
    · subst hx; simp [hk]
    · simp [hx]

theorem Placed.leave (hr : run H = some p) : Placed (update place p .nowhere) (update run H none) q := by
  have hpl := (hp.hart H p).1 hr
  refine ⟨fun k x => ?_, fun h x => ?_⟩
  · rw [hp.queue]
    by_cases hx : x = p
    · subst hx; simp [hpl]
    · simp [hx]
  · by_cases hh : h = H
    · subst hh
      by_cases hx : x = p
      · subst hx; simp
      · have := hp.hart h x
        rw [hr] at this
        simpa [hx, Ne.symm hx] using this
    · rw [update_of_ne hh, hp.hart]
      by_cases hx : x = p
      · subst hx; simp [hpl, Ne.symm hh]
      · simp [hx]

theorem Placed.enter (hr : run H = none) (hn : place p = .nowhere) :
    Placed (update place p (.hart H)) (update run H (some p)) q := by
  refine ⟨fun k x => ?_, fun h x => ?_⟩
  · rw [hp.queue]
    by_cases hx : x = p
    · subst hx; simp [hn]
    · simp [hx]
  · by_cases hh : h = H
    · subst hh
      by_cases hx : x = p
      · subst hx; simp
      · have := hp.hart h x
        rw [hr] at this
        simpa [hx, Ne.symm hx] using this
    · rw [update_of_ne hh, hp.hart]
      by_cases hx : x = p
      · subst hx; simp [hn, Ne.symm hh]
      · simp [hx]

end

/-! ## Statuses that fit the places -/

def Located (status : Slot → Status) (run : Hart → Option Slot) (q : Lists) : Prop :=
  ∃ place, Placed place run q ∧ ∀ p, (place p).allows (status p)

theorem allows_update (ha : ∀ p, (place p).allows (status p)) (hs : pl.allows st) :
    ∀ x, (update place p pl x).allows (update status p st x) := by
  intro x
  by_cases hx : x = p
  · subst hx; simpa using hs
  · simpa [hx] using ha x

theorem nowhere_of_dead (ha : ∀ p, (place p).allows (status p)) (hs : status p = .zombie ∨ status p = .free) :
    place p = .nowhere :=
  (allows_dead hs).1 (ha p)

namespace Located

variable (hl : Located status run q)

include hl

theorem apart : Apart q := by
  obtain ⟨_, hp, _⟩ := hl
  exact hp.apart

theorem notMem_of_dead (hs : status p = .zombie ∨ status p = .free) : ∀ k, p ∉ q k := by
  obtain ⟨_, hp, ha⟩ := hl
  exact hp.notMem (by simp [nowhere_of_dead ha hs])

theorem notMem_of_run (hr : run h = some p) : ∀ k, p ∉ q k := by
  obtain ⟨_, hp, _⟩ := hl
  exact hp.notMem (by simp [(hp.hart h p).1 hr])

theorem running_of_run (hr : run h = some p) : status p = .running := by
  obtain ⟨_, hp, ha⟩ := hl
  simpa [Place.allows, (hp.hart h p).1 hr] using ha p

theorem ready_of_mem (hm : p ∈ q (.ready h)) : status p = .ready := by
  obtain ⟨_, hp, ha⟩ := hl
  simpa [Place.allows, (hp.queue _ p).1 hm] using ha p

theorem blocked_of_mem (hm : p ∈ q k) (hk : k.waits) : status p = .blocked := by
  obtain ⟨_, hp, ha⟩ := hl
  have := ha p
  rw [(hp.queue _ p).1 hm] at this
  cases k with
  | ready h => exact absurd hk id
  | block h => exact this
  | sem i => exact this

theorem enroll (hs : status p = .free) (h : Hart) : Located (update status p .ready) run (push q (.ready h) p) := by
  obtain ⟨place, hp, ha⟩ := hl
  exact ⟨_, hp.push (nowhere_of_dead ha (.inr hs)) _, allows_update ha rfl⟩

theorem suspend (hr : run H = some c) (hk : (Place.queue k).allows st) :
    Located (update status c st) (update run H none) (push q k c) := by
  obtain ⟨place, hp, ha⟩ := hl
  have := (hp.leave hr).push (p := c) (by simp) k
  rw [update_idem] at this
  exact ⟨_, this, allows_update ha hk⟩

theorem exit (hr : run H = some c) : Located (update status c .zombie) (update run H none) q := by
  obtain ⟨place, hp, ha⟩ := hl
  exact ⟨_, hp.leave hr, allows_update ha (.inl rfl)⟩

theorem wake (hnd : (q k).Nodup) (hm : p ∈ q k) (h : Hart) :
    Located (update status p .ready) run (push (cut q k p) (.ready h) p) := by
  obtain ⟨place, hp, ha⟩ := hl
  have := (hp.cut hnd ((hp.queue k p).1 hm)).push (p := p) (by simp) (.ready h)
  rw [update_idem] at this
  exact ⟨_, this, allows_update ha rfl⟩

theorem reap (hs : status p = .zombie) : Located (update status p .free) run q := by
  obtain ⟨place, hp, ha⟩ := hl
  refine ⟨place, hp, ?_⟩
  have hfree : Place.allows .nowhere .free := .inr rfl
  have := allows_update (p := p) ha hfree
  rwa [← nowhere_of_dead ha (.inl hs), update_eq_self] at this

theorem dispatch (hnd : (q k).Nodup) (hm : p ∈ q k) (hr : run H = none) :
    Located (update status p .running) (update run H (some p)) (cut q k p) := by
  obtain ⟨place, hp, ha⟩ := hl
  have := (hp.cut hnd ((hp.queue k p).1 hm)).enter (p := p) hr (by simp)
  rw [update_idem] at this
  exact ⟨_, this, allows_update ha rfl⟩

end Located

/-! ## The invariant -/

/-- the process whose user code a hart executes in a phase -/
def Phase.proc : Phase → Option Slot
  | .user p => some p
  | .boot | .idle | .parked => none

def runs (s : St) (h : Hart) : Option Slot := (s.phase h).proc

theorem runs_eq {s : St} : runs s h = some p ↔ s.phase h = .user p := by
  unfold runs
  cases s.phase h <;> simp [Phase.proc]

theorem runs_update {s s' : St} {x : Phase} (hph : s'.phase = update s.phase H x) :
    runs s' = update (runs s) H x.proc := by
  funext h
  unfold runs
  rw [hph]
  by_cases hh : h = H
  · subst hh; simp
  · simp [hh]

structure Inv (s : St) (q : Lists) : Prop where
  rep : Rep s.queue_next s.head q
  located : Located s.status (runs s) q
  cur : ∀ h p, s.phase h = .user p → s.current h = some p

end RiscvPke.Sched
