/-
What one kernel entry can do, over queues that are lists. `Body s q H c e s1 q1 next` is the part of entry `e` of
process `c` on hart `H` before it returns to its caller or calls `schedule()`; `Resched` is `schedule()`; `AStep` is a
whole step. The links and heads after an insertion or removal are left open: the lists say what they are.
-/
import RiscvPke.Sched.Places

namespace RiscvPke.Sched

open Function Chain RiscvPke.System

/-! ## The relation -/

def readied (s : St) (p : Slot) (n : Slot → Option Slot) (hd : Queue → Option Slot) : St :=
  { s with
    status := update s.status p .ready
    g_proc_reserved := update s.g_proc_reserved p false
    queue_next := n
    head := hd }

def suspended (s : St) (p : Slot) (n : Slot → Option Slot) (hd : Queue → Option Slot) : St :=
  { s with
    status := update s.status p .blocked
    queue_next := n
    head := hd }

/-- the state and the call that `do_fork` (child on the hart itself, with the parent's tp) and `do_fork_to_hart` (child
and tp on the target) leave to their common rest -/
inductive Forks (s : St) (H : Hart) (c : Slot) : Entry → Hart → Hart → Prop
  | fork : Forks s H c .fork H (s.trapframe c).tp
  | forkTo {x : ℤ} {T : Hart} (hx : x = (T : ℕ)) : Forks s H c (.forkTo x) T T

/-- how an entry goes on behind its body -/
inductive Next where
  /-- returns to its caller with `a0 = r` -/
  | ret (r : ℤ)
  /-- returns to its caller with the registers as they were -/
  | resume
  | sched
deriving DecidableEq, Repr

inductive Body (s : St) (q : Lists) (H : Hart) (c : Slot) : Entry → St → Lists → Next → Prop
  | fork {e : Entry} {T t : Hart} {i : Slot} {n hd} (he : Forks s H c e T t) (hi : freeSlot s = some i) :
    Body s q H c e (readied (forkChild (initProc s H i) i c t) i n hd) (push q (.ready T) i) (.ret i)
  | badTarget {x : ℤ} (hx : ¬ (0 ≤ x ∧ x.toNat < NCPU)) : Body s q H c (.forkTo x) s q (.ret (-1))
  | yield {n hd} : Body s q H c .yield (readied s c n hd) (push q (.ready H) c) .sched
  | slice {a b : ℤ} {n hd} (ht : TIME_SLICE_LEN ≤ s.tick_count c + 1) :
    Body s q H c (.timer a b) (readied { s with tick_count := update s.tick_count c 0 } c n hd)
      (push q (.ready H) c) .sched
  | tick {a b : ℤ} (ht : s.tick_count c + 1 < TIME_SLICE_LEN) :
    Body s q H c (.timer a b) { s with tick_count := update s.tick_count c (s.tick_count c + 1) } q .resume
  | waitRet {pid r : ℤ} (hw : doWait s c pid = .ret r none) :
    Body s q H c (.wait pid) { s with gh := s.gh.answered c pid r none } q (.ret r)
  | reap {pid r : ℤ} {i : Slot} (hw : doWait s c pid = .ret r (some i)) :
    Body s q H c (.wait pid) { s with
      status := update s.status i .free
      gh := s.gh.answered c pid r (some (i, s.gh.gen i)) } q (.ret r)
  | waitBlock {pid : ℤ} {n hd} (hw : doWait s c pid = .block) :
    Body s q H c (.wait pid) (suspended { s with gh := s.gh.blocked c pid } c n hd) (push q (.block H) c) .sched
  | exit {code : ℤ} (hw : ∀ par, s.parent c = some par → ∀ h, par ∉ q (.block h)) :
    Body s q H c (.exit code) (freeProcess s c) q .sched
  | exitWake {code : ℤ} {par : Slot} {h : Hart} {n hd} (hpar : s.parent c = some par) (hm : par ∈ q (.block h)) :
    Body s q H c (.exit code) (readied (freeProcess s c) par n hd) (push (cut q (.block h) par) (.ready h) par) .sched
  | semNew {v r g : ℤ} {f} (hs : sysUserSemNew s v = ({ s with semaphores := f, g_next_semaphore_id := g }, r)) :
    Body s q H c (.semNew v) { s with semaphores := f, g_next_semaphore_id := g } q (.ret r)
  | badSem {e : Entry} {id : ℤ} (he : e = .semP id ∨ e = .semV id) (hi : getSemaphore s id = none) :
    Body s q H c e s q (.ret (-1))
  | semPGo {id : ℤ} {i : SemIx} (hi : getSemaphore s id = some i) (hv : 0 < (s.semaphores i).value) :
    Body s q H c (.semP id) (addValue s i (-1)) q (.ret 0)
  | semPBlock {id : ℤ} {i : SemIx} {n hd} (hi : getSemaphore s id = some i) (hv : (s.semaphores i).value ≤ 0) :
    Body s q H c (.semP id) (suspended (addValue s i (-1)) c n hd) (push q (.sem i) c) .sched
  | semVGo {id : ℤ} {i : SemIx} (hi : getSemaphore s id = some i) (hv : 0 ≤ (s.semaphores i).value) :
    Body s q H c (.semV id) (addValue s i 1) q (.ret 0)
  | semVWake {id : ℤ} {i : SemIx} {p : Slot} {rest : List Slot} {n hd} (hi : getSemaphore s id = some i)
    (hv : (s.semaphores i).value < 0) (hq : q (.sem i) = p :: rest) :
    Body s q H c (.semV id) (readied (addValue s i 1) p n hd) (push (cut q (.sem i) p) (.ready H) p) (.ret 0)

inductive Resched (s : St) (q : Lists) (H : Hart) : St → Lists → Prop
  | run {p : Slot} {rest : List Slot} {hd} (hq : q (.ready H) = p :: rest) :
    Resched s q H (switchTo { s with status := update s.status p .running, head := hd } H H p)
      (cut q (.ready H) p)
  | idle (hq : q (.ready H) = []) (hg : globalAllDone s = false) :
    Resched s q H { s with phase := update s.phase H .idle } q
  | park (hq : q (.ready H) = []) (hg : globalAllDone s = true) :
    Resched s q H { s with g_should_shutdown := true, phase := update s.phase H .parked } q

inductive Finish (s : St) (q : Lists) (H : Hart) (c : Slot) : Next → St → Lists → Prop
  | ret {r : ℤ} : Finish s q H c (.ret r) (sysReturn s H H c r) q
  | resume : Finish s q H c .resume (switchTo s H H c) q
  | sched {s' q'} (hr : Resched s q H s' q') : Finish s q H c .sched s' q'

inductive AStep (s : St) (q : Lists) : Label → St → Lists → Prop
  | trap {H : Hart} {c : Slot} {e : Entry} {s1 q1 nx s' q'} (hph : s.phase H = .user c)
    (hb : Body (saveRegs s H c e) q H c e s1 q1 nx) (hr : Rep s1.queue_next s1.head q1)
    (hf : Finish s1 q1 H c nx s' q') : AStep s q (.trap H e) s' q'
  | start {H : Hart} {s' q'} (hph : s.phase H = .boot) (hr : Resched s q H s' q') : AStep s q (.spin H) s' q'
  | wake {H : Hart} {s' q'} (hph : s.phase H = .idle) (hq : q (.ready H) ≠ []) (hr : Resched s q H s' q') :
    AStep s q (.spin H) s' q'
  | stay {H : Hart} (hph : s.phase H = .idle) (hq : q (.ready H) = []) (hg : s.g_should_shutdown = false) :
    AStep s q (.spin H) s q
  | shut {H : Hart} (hph : s.phase H = .idle) (hg : s.g_should_shutdown = true) :
    AStep s q (.spin H) { s with phase := update s.phase H .parked } q

/-! ## The bodies keep every process in its place -/

variable {s s1 s' : St} {q q1 q' : Lists} {H : Hart} {c p i : Slot} {e : Entry} {nx : Next}

theorem freeSlot_free (hi : freeSlot s = some i) : s.status i = .free := by
  exact (of_find? hi).1

theorem doWait_freed {pid r : ℤ} (hw : doWait s c pid = .ret r (some i)) :
    s.status i = .zombie ∧ s.parent i = some c ∧ r = i ∧ pid = -1 ∧ firstChild s c = some i := by
  unfold doWait at hw
  split_ifs at hw with hpos hlt hpar hneg
  · exact absurd hw (by simp)
  · exact absurd hw (by simp)
  · split at hw
    · exact absurd hw (by simp)
    · rename_i j hj
      split_ifs at hw with hz
      obtain ⟨rfl, rfl⟩ := hw
      exact ⟨hz, (of_find? hj).1, rfl, hneg, hj⟩
  · exact absurd hw (by simp)

theorem Body.located {run : Hart → Option Slot} (hb : Body s q H c e s1 q1 nx) (hr : Rep s.queue_next s.head q)
    (hl : Located s.status run q) (hc : run H = some c) :
    Located s1.status (if nx = .sched then update run H none else run) q1 := by
  cases hb with
  | fork he hi => simpa [readied, forkChild, initProc] using hl.enroll (freeSlot_free hi) _
  | badTarget | tick | waitRet | semNew | badSem | semPGo | semVGo => exact hl
  | yield | slice | waitBlock | semPBlock => exact hl.suspend hc rfl
  | reap hw => exact hl.reap (doWait_freed hw).1
  | exit => exact hl.exit hc
  | exitWake hpar hm => exact (hl.exit hc).wake (hr _).nodup hm _
  | semVWake hi hv hq => exact hl.wake (hr _).nodup (by simp [hq]) _

/-! ## The code does what the relation allows -/

def Fine (e : Stop) : Prop := e ≠ .endlessLoop ∧ ∀ a, e ≠ .assertion a

def Serves (s : St) (q : Lists) (H : Hart) (c : Slot) (e : Entry) (s' : St) : Prop :=
  ∃ s1 q1 nx q', Body s q H c e s1 q1 nx ∧ Rep s1.queue_next s1.head q1 ∧ Finish s1 q1 H c nx s' q' ∧
    Rep s'.queue_next s'.head q'

theorem schedule_ends (hr : Rep s.queue_next s.head q) (hs : ∀ p ∈ q (.ready H), s.status p = .ready) :
    Ends Fine (schedule s H H) fun s' => ∃ q', Resched s q H s' q' ∧ Rep s'.queue_next s'.head q' := by
  cases hq : q (.ready H) with
  | nil =>
    have hh : s.head (.ready H) = none := by simpa [hq] using hr (.ready H)
    cases hg : globalAllDone s with
    | true => simpa only [schedule, hh, hg] using ⟨q, .park hq hg, hr⟩
    | false => simpa only [schedule, hh, hg] using ⟨q, .idle hq hg, hr⟩
  | cons p rest =>
    have hk : Links s.queue_next (s.head (.ready H)) (p :: rest) := hq ▸ hr (.ready H)
    have hp : s.status p = .ready := hs p (by simp [hq])
    simp only [schedule, hk.1, dispatch, hp, if_true, switchTo, update_idem]
    refine ⟨_, .run hq, fun k => ?_⟩
    unfold cut
    by_cases hkk : k = .ready H
    · subst hkk
      simpa [hq] using hk.2
    · simpa [hkk] using hr k

variable {run : Hart → Option Slot}

theorem Body.ends_sched (hb : Body s q H c e s1 q1 .sched) (hr : Rep s.queue_next s.head q)
    (hl : Located s.status run q) (hc : run H = some c) (hr1 : Rep s1.queue_next s1.head q1) :
    Ends Fine (schedule s1 H H) (Serves s q H c e) := by
  have hl1 := hb.located hr hl hc
  refine (schedule_ends hr1 fun p hp => hl1.ready_of_mem hp).mono ?_
  rintro s' ⟨q', hre, hr'⟩
  exact ⟨s1, q1, _, q', hb, hr1, .sched hre, hr'⟩

theorem Body.ends_ret {r : ℤ} (hb : Body s q H c e s1 q1 (.ret r)) (hr1 : Rep s1.queue_next s1.head q1) :
    Ends Fine (.ok (sysReturn s1 H H c r)) (Serves s q H c e) :=
  ⟨s1, q1, _, q1, hb, hr1, .ret, hr1⟩

theorem readied_ready (s : St) (p : Slot) (n : Slot → Option Slot) (hd : Queue → Option Slot) :
    readied { s with status := update s.status p .ready } p n hd = readied s p n hd := by
  simp [readied]

section

variable (hr : Rep s.queue_next s.head q) (ha : Apart q) (hp : ∀ k, p ∉ q k)

include hr ha hp

theorem insertReady_eq (hs : s.status p = .ready) (T : Hart) :
    ∃ n hd, insertToSpecificReadyQueue s p T = .ok (readied s p n hd) ∧ Rep n hd (push q (.ready T) p) := by
  obtain ⟨n, hd, he, hrep⟩ :=
    enqueue_eq (s := releaseProcSlotReservation s p) (k := .ready T) hr ha hp .ready
  refine ⟨n, hd, ?_, hrep⟩
  have hz : (releaseProcSlotReservation s p).status p ≠ .zombie := by simp [releaseProcSlotReservation, hs]
  simp only [insertToSpecificReadyQueue, if_neg hz, he]
  rfl

theorem markReady_eq (T : Hart) : ∃ n hd, insertToSpecificReadyQueue { s with status := update s.status p .ready } p T =
      .ok (readied s p n hd) ∧ Rep n hd (push q (.ready T) p) := by
  obtain ⟨n, hd, he, hrep⟩ :=
    insertReady_eq (s := { s with status := update s.status p .ready }) hr ha hp (by simp) T
  exact ⟨n, hd, by rw [he, readied_ready], hrep⟩

theorem markBlocked_eq (k : Queue) : ∃ n hd, insertToBlockQueue { s with status := update s.status p .blocked } k p =
      .ok (suspended s p n hd) ∧ Rep n hd (push q k p) := by
  obtain ⟨n, hd, he, hrep⟩ :=
    enqueue_eq (s := { s with status := update s.status p .blocked }) (k := k) hr ha hp .blocked
  refine ⟨n, hd, ?_, hrep⟩
  simp only [insertToBlockQueue, he, suspended, update_idem]

end

theorem sysUserSemNew_eq (s : St) (v : ℤ) :
    ∃ f g r, sysUserSemNew s v = ({ s with semaphores := f, g_next_semaphore_id := g }, r) := by
  unfold sysUserSemNew allocSemaphore
  dsimp only
  cases (List.finRange NSEMAPHORE).find? fun i => decide ((s.semaphores i).used = false) with
  | none => exact ⟨_, _, _, rfl⟩
  | some i => exact ⟨_, _, _, rfl⟩

theorem addValue_value {i : SemIx} {v : ℤ} : ((addValue s i v).semaphores i).value = (s.semaphores i).value + v := by
  simp [addValue]

theorem fine_panic (m : String) : Fine (.panic m) := ⟨by simp, by simp⟩

theorem fine_null : Fine .nullPointer := ⟨by simp, by simp⟩

section Entries

variable (hr : Rep s.queue_next s.head q) (hl : Located s.status run q)
include hr hl

theorem forkInsert_eq (hi : freeSlot s = some i) (H : Hart) (c : Slot) (t T : Hart) :
    ∃ n hd, insertToSpecificReadyQueue (forkChild (initProc s H i) i c t) i T =
      .ok (readied (forkChild (initProc s H i) i c t) i n hd) ∧ Rep n hd (push q (.ready T) i) :=
  insertReady_eq (s := forkChild (initProc s H i) i c t) hr hl.apart
    (hl.notMem_of_dead (.inr (freeSlot_free hi))) (by simp [forkChild]) T

variable (hc : run H = some c)
include hc

theorem sysUserFork_ends : Ends Fine (sysUserFork s H H c) (Serves s q H c .fork) := by
  unfold sysUserFork doFork allocProcess
  cases hi : freeSlot s with
  | none => exact fine_panic _
  | some i =>
    have hne : c ≠ i := by
      rintro rfl
      have := hl.running_of_run hc
      rw [freeSlot_free hi] at this
      simp at this
    have htp : ((initProc s H i).trapframe c).tp = (s.trapframe c).tp := by simp [initProc, hne]
    obtain ⟨n, hd, he, hrep⟩ := forkInsert_eq hr hl hi H c (s.trapframe c).tp H
    refine Ends.bind_eq (a := (readied _ i n hd, i)) ?_ ((Body.fork .fork hi).ends_ret hrep)
    simp only [bind, Except.bind, htp, insertToReadyQueue, he]
    rfl

omit hc in
theorem sysUserForkTo_ends (x : ℤ) : Ends Fine (sysUserForkTo s H H c x) (Serves s q H c (.forkTo x)) := by
  unfold sysUserForkTo
  split_ifs with hx
  · unfold doForkToHart allocProcess
    cases hi : freeSlot s with
    | none => exact fine_panic _
    | some i =>
      obtain ⟨n, hd, he, hrep⟩ := forkInsert_eq hr hl hi H c ⟨x.toNat, hx.2⟩ ⟨x.toNat, hx.2⟩
      refine Ends.bind_eq (a := (readied _ i n hd, i)) ?_
        ((Body.fork (.forkTo (by simp [hx.1])) hi).ends_ret hrep)
      simp only [bind, Except.bind, he]
      rfl
  · exact (Body.badTarget hx).ends_ret hr

theorem sysUserYield_ends : Ends Fine (sysUserYield s H H c) (Serves s q H c .yield) := by
  obtain ⟨n, hd, he, hrep⟩ := markReady_eq (s := s) hr hl.apart (hl.notMem_of_run hc) H
  exact Ends.bind_eq he (Body.yield.ends_sched hr hl hc hrep)

theorem rrsched_ends (a b : ℤ) : Ends Fine (rrsched s H H c) (Serves s q H c (.timer a b)) := by
  unfold rrsched
  split_ifs with ht
  · obtain ⟨n, hd, he, hrep⟩ := markReady_eq (s := { s with tick_count := update s.tick_count c 0 }) hr
      hl.apart (hl.notMem_of_run hc) H
    exact Ends.bind_eq he ((Body.slice ht).ends_sched hr hl hc hrep)
  · exact ⟨_, q, _, q, .tick (not_le.1 ht), hr, .resume, hr⟩

theorem sysUserWait_ends (pid : ℤ) : Ends Fine (sysUserWait s H H c pid) (Serves s q H c (.wait pid)) := by
  unfold sysUserWait
  cases hw : doWait s c pid with
  | ret r freed =>
    cases freed with
    | none => exact (Body.waitRet hw).ends_ret hr
    | some i => exact (Body.reap hw).ends_ret hr
  | block =>
    obtain ⟨n, hd, he, hrep⟩ := markBlocked_eq (s := s) hr hl.apart (hl.notMem_of_run hc) (.block H)
    exact Ends.bind_eq he ((Body.waitBlock hw).ends_sched hr hl hc hrep)

theorem sysUserExit_ends (code : ℤ) : Ends Fine (sysUserExit s H H c) (Serves s q H c (.exit code)) := by
  unfold sysUserExit
  by_cases hw : ∃ par h, s.parent c = some par ∧ par ∈ q (.block h)
  · obtain ⟨par, h, hpar, hm⟩ := hw
    obtain ⟨n, hd, he, hrep⟩ := wakeParent_mem hr hl.apart hpar hm (List.finRange NCPU) (by simp)
    refine Ends.bind_eq he ?_
    obtain ⟨n', hd', he', hrep'⟩ := markReady_eq (s := freeProcess { s with queue_next := n, head := hd } c) hrep
      (hl.apart.cut (hr _).nodup) (hl.apart.notMem_cut (hr _).nodup hm) h
    exact Ends.bind_eq he' ((Body.exitWake hpar hm).ends_sched hr hl hc hrep')
  · have hno : ∀ par, s.parent c = some par → ∀ h, par ∉ q (.block h) := fun par hpar h hm => hw ⟨par, h, hpar, hm⟩
    rcases wakeParent_none hr hno (List.finRange NCPU) with he | ⟨_, he⟩
    · exact Ends.bind_eq he ((Body.exit hno).ends_sched hr hl hc hr)
    · rw [he]
      exact fine_null

omit hl hc in
theorem sysUserSemNew_ends (v : ℤ) :
    Ends Fine (.ok (sysReturn (sysUserSemNew s v).1 H H c (sysUserSemNew s v).2)) (Serves s q H c (.semNew v)) := by
  obtain ⟨f, g, r, he⟩ := sysUserSemNew_eq s v
  rw [he]
  exact (Body.semNew he).ends_ret hr

theorem semaphoreP_ends {id : ℤ} {i : SemIx} (hi : getSemaphore s id = some i) :
    Ends Fine (semaphoreP s H H c i) (Serves s q H c (.semP id)) := by
  unfold semaphoreP
  simp only [addValue_value]
  split_ifs with hv
  · obtain ⟨n, hd, he, hrep⟩ := markBlocked_eq (s := addValue s i (-1)) hr hl.apart (hl.notMem_of_run hc) (.sem i)
    exact Ends.bind_eq he ((Body.semPBlock hi (by omega)).ends_sched hr hl hc hrep)
  · exact (Body.semPGo hi (by omega)).ends_ret hr

omit hc in
theorem semaphoreV_ends {id : ℤ} {i : SemIx} (hi : getSemaphore s id = some i) :
    Ends Fine (semaphoreV s H H c i) (Serves s q H c (.semV id)) := by
  unfold semaphoreV
  simp only [addValue_value]
  split_ifs with hv
  · cases hq : q (.sem i) with
    | nil =>
      refine Ends.bind_eq (pick_nil (s := addValue s i 1) hr hq) ?_
      exact fine_panic _
    | cons p rest =>
      have hm : p ∈ q (.sem i) := by simp [hq]
      obtain ⟨n, hd, he, hrep⟩ := pick_eq (s := addValue s i 1) hr hl.apart hq
      refine Ends.bind_eq he ?_
      obtain ⟨n', hd', he', hrep'⟩ := markReady_eq (s := { addValue s i 1 with queue_next := n, head := hd }) hrep
        (hl.apart.cut (hr _).nodup) (hl.apart.notMem_cut (hr _).nodup hm) H
      exact Ends.bind_eq he' ((Body.semVWake hi (by omega) hq).ends_ret hrep')
  · exact (Body.semVGo hi (by omega)).ends_ret hr

omit hc in
theorem semaphoreV_ok {i : SemIx} (hq : (s.semaphores i).value < 0 → q (.sem i) ≠ []) :
    ∃ s', semaphoreV s H H c i = .ok s' := by
  unfold semaphoreV
  simp only [addValue_value]
  split_ifs with hv
  · obtain ⟨p, rest, hpr⟩ := List.exists_cons_of_ne_nil (hq (by omega))
    have hm : p ∈ q (.sem i) := by simp [hpr]
    obtain ⟨n, hd, he, hrep⟩ := pick_eq (s := addValue s i 1) hr hl.apart hpr
    obtain ⟨n', hd', he', -⟩ := markReady_eq (s := { addValue s i 1 with queue_next := n, head := hd }) hrep
      (hl.apart.cut (hr _).nodup) (hl.apart.notMem_cut (hr _).nodup hm) H
    refine ⟨sysReturn (readied { addValue s i 1 with queue_next := n, head := hd } p n' hd') H H c 0, ?_⟩
    rw [he]
    simp only [bind, Except.bind, insertToReadyQueue, he']
    rfl
  · exact ⟨_, rfl⟩

theorem handle_ends (e : Entry) : Ends Fine (handle s H H c e) (Serves s q H c e) := by
  cases e with
  | fork => exact sysUserFork_ends hr hl hc
  | forkTo x => exact sysUserForkTo_ends hr hl x
  | yield => exact sysUserYield_ends hr hl hc
  | timer a b => exact rrsched_ends hr hl hc a b
  | wait pid => exact sysUserWait_ends hr hl hc pid
  | exit code => exact sysUserExit_ends hr hl hc code
  | semNew v => exact sysUserSemNew_ends hr v
  | semP id =>
    cases hi : getSemaphore s id with
    | none => simpa only [handle, hi] using (Body.badSem (.inl rfl) hi).ends_ret hr
    | some i => simpa only [handle, hi] using semaphoreP_ends hr hl hc hi
  | semV id =>
    cases hi : getSemaphore s id with
    | none => simpa only [handle, hi] using (Body.badSem (.inr rfl) hi).ends_ret hr
    | some i => simpa only [handle, hi] using semaphoreV_ends hr hl hi

end Entries

/-! ## The trap handler -/

theorem doSyscall_regs {tf : Trapframe} {h : Hart} (he : ∀ a b, e ≠ .timer a b) (h0 : tf.a0 = e.regs.1)
    (h1 : tf.a1 = e.regs.2) : doSyscall s H h c tf = handle s H h c e := by
  cases e with
  | timer a b => exact absurd rfl (he a b)
  | fork | forkTo | yield | wait | exit | semNew | semP | semV =>
    simp only [doSyscall, h0, h1, Entry.regs]
    rfl

theorem smodeTrapHandler_own {h : Hart} (hcur : s.current h = some c) :
    smodeTrapHandler (saveRegs s H c e) H h e = handle (saveRegs s H c e) H h c e := by
  have hcur' : (saveRegs s H c e).current h = some c := hcur
  have htf : (saveRegs s H c e).trapframe c = ⟨e.regs.1, e.regs.2, s.tp H⟩ := update_self _ _ _
  cases e with
  | timer a b => simp only [smodeTrapHandler, hcur']
  | fork | forkTo | yield | wait | exit | semNew | semP | semV =>
    simp only [smodeTrapHandler, hcur']
    exact doSyscall_regs (by simp) (by rw [htf]) (by rw [htf])

/-- **The code refines the relation.** A step of the code from a state with the queues `q` ends in a step of the
relation, with the linked lists of the new queues, or stops without a failed assertion or an endless loop. -/
theorem step_ends (hi : Inv s q) (l : Label) :
    Ends Fine (step .ideal s l) fun s' => ∃ q', AStep s q l s' q' ∧ Rep s'.queue_next s'.head q' := by
  have hready : ∀ {H}, ∀ p ∈ q (.ready H), s.status p = .ready := fun p hp => hi.located.ready_of_mem hp
  have hdis : Fine .disabled := ⟨by simp, by simp⟩
  cases l with
  | trap H e =>
    cases hph : s.phase H with
    | user c =>
      simp only [step, hph, readTp, smodeTrapHandler_own (hi.cur H c hph)]
      refine (handle_ends (s := saveRegs s H c e) hi.rep hi.located (runs_eq.2 hph) e).mono ?_
      rintro s' ⟨s1, q1, nx, q', hb, hr1, hf, hr'⟩
      exact ⟨q', .trap hph hb hr1 hf, hr'⟩
    | boot | idle | parked => simp only [step, hph]; exact hdis
  | spin H =>
    cases hph : s.phase H with
    | user c | parked => simp only [step, hph]; exact hdis
    | boot =>
      simp only [step, hph, readTp]
      refine (schedule_ends hi.rep hready).mono ?_
      rintro s' ⟨q', hre, hr'⟩
      exact ⟨q', .start hph hre, hr'⟩
    | idle =>
      simp only [step, hph, readTp, idleLoop]
      split_ifs with hg
      · exact ⟨q, .shut hph hg, hi.rep⟩
      · cases hq : q (.ready H) with
        | nil =>
          have hh : s.head (.ready H) = none := by simpa [hq] using hi.rep (.ready H)
          simp only [hh]
          exact ⟨q, .stay hph hq (by simpa using hg), hi.rep⟩
        | cons p rest =>
          have hk : Links s.queue_next (s.head (.ready H)) (p :: rest) := hq ▸ hi.rep (.ready H)
          have hs : schedule s H H = dispatch s H H p := by simp only [schedule, hk.1]
          simp only [hk.1, ← hs]
          refine (schedule_ends hi.rep hready).mono ?_
          rintro s' ⟨q', hre, hr'⟩
          exact ⟨q', .wake hph (by simp [hq]) hre, hr'⟩

end RiscvPke.Sched
