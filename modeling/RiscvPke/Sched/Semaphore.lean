/-
Counting semaphores. Beside the state a run keeps a log of every semaphore: the initial value, the processes that called
P in their order, the processes whose P was granted, and the number of V. What the log says of a step is read off the
states before and after: a P is granted if its caller is not BLOCKED behind it, and a V grants the P of every process
that stops being BLOCKED.
-/
import RiscvPke.Sched.HartIdentity

namespace RiscvPke.Sched

open Function Chain RiscvPke.System

variable {s s1 s' : St} {q q1 q' : Lists} {H : Hart} {c p : Slot} {e : Entry} {nx : Next} {l : Label} {i j : SemIx}

/-! ## The log -/

/-- the history of a semaphore since `sys_user_sem_new` handed it out -/
structure SemLog where
  initval : ℤ
  /-- the processes that called P, in order -/
  calls : List Slot
  /-- the processes whose P was granted, in order -/
  granted : List Slot
  /-- the number of V -/
  vs : ℕ
deriving DecidableEq, Repr

abbrev Logs := SemIx → SemLog

def woken (s s' : St) : List Slot :=
  (List.finRange NPROC).filter fun p => s.status p = .blocked ∧ s'.status p ≠ .blocked

def SemLog.addP (lg : SemLog) (c : Slot) (s' : St) : SemLog :=
  { lg with
    calls := lg.calls ++ [c]
    granted := if s'.status c = .blocked then lg.granted else lg.granted ++ [c] }

def SemLog.addV (lg : SemLog) (ws : List Slot) : SemLog := { lg with granted := lg.granted ++ ws, vs := lg.vs + 1 }

/-- what a step adds to the log; the caller is the process whose user code the hart executes -/
def record (s : St) (l : Label) (s' : St) (log : Logs) : Logs :=
  match l with
  | .trap _ (.semNew v) => fun i =>
    if (s.semaphores i).used = false ∧ (s'.semaphores i).used = true then ⟨v, [], [], 0⟩ else log i
  | .trap H (.semP id) =>
    match getSemaphore s id, (s.phase H).proc with
    | some i, some c => update log i ((log i).addP c s')
    | _, _ => log
  | .trap _ (.semV id) =>
    match getSemaphore s id with
    | some i => update log i ((log i).addV (woken s s'))
    | none => log
  | _ => log

/-! ## The invariant -/

/-- value and queue of the semaphore `i` are what its history says -/
structure Counting (s : St) (i : SemIx) (lg : SemLog) (q : List Slot) : Prop where
  chain : Links s.queue_next (s.head (.sem i)) q
  value : (s.semaphores i).value = lg.initval - lg.calls.length + lg.vs
  waiting : (q.length : ℤ) = max 0 (-(s.semaphores i).value)
  order : lg.granted ++ q = lg.calls
  blocked : ∀ p ∈ q, s.status p = .blocked

/-- the part of `Counting` that speaks of value and queue only -/
structure Tally (x : ℤ) (lg : SemLog) (q : List Slot) : Prop where
  value : x = lg.initval - lg.calls.length + lg.vs
  waiting : (q.length : ℤ) = max 0 (-x)
  order : lg.granted ++ q = lg.calls

structure SemInv (s : St) (log : Logs) (q : Lists) : Prop where
  unused : ∀ i, (s.semaphores i).used = false → q (.sem i) = []
  tally : ∀ i, (s.semaphores i).used = true → 0 ≤ (log i).initval → Tally (s.semaphores i).value (log i) (q (.sem i))

theorem tally_new {v : ℤ} (hv : 0 ≤ v) : Tally v ⟨v, [], [], 0⟩ [] where
  value := by simp
  waiting := by simp [hv]
  order := rfl

section Tally

variable {x : ℤ} {lg : SemLog} {w rest : List Slot}

theorem Tally.p_go (h : Tally x lg w) (hx : 0 < x) (hc : s'.status c ≠ .blocked) : Tally (x + -1) (lg.addP c s') w := by
  have hw : w = [] := by
    have := h.waiting
    exact List.length_eq_zero_iff.1 (by omega)
  subst hw
  have ho := h.order
  rw [List.append_nil] at ho
  refine ⟨?_, ?_, ?_⟩
  · have := h.value
    grind [SemLog.addP]
  · rw [max_eq_left (by omega)]
    rfl
  · simp only [SemLog.addP, if_neg hc, List.append_nil, ho]

theorem Tally.p_block (h : Tally x lg w) (hx : x ≤ 0) (hc : s'.status c = .blocked) :
    Tally (x + -1) (lg.addP c s') (w ++ [c]) := by
  refine ⟨?_, ?_, ?_⟩
  · have := h.value
    grind [SemLog.addP]
  · have := h.waiting
    grind
  · simp only [SemLog.addP, if_pos hc]
    rw [← List.append_assoc, h.order]

theorem Tally.v_go (h : Tally x lg w) (hx : 0 ≤ x) : Tally (x + 1) (lg.addV []) w := by
  refine ⟨?_, ?_, ?_⟩
  · have := h.value
    simp only [SemLog.addV]
    omega
  · have := h.waiting
    rw [max_eq_left (by omega)] at this ⊢
    exact this
  · simp only [SemLog.addV, List.append_nil, h.order]

theorem Tally.v_wake (h : Tally x lg (p :: rest)) (hx : x < 0) : Tally (x + 1) (lg.addV [p]) rest := by
  refine ⟨?_, ?_, ?_⟩
  · have := h.value
    simp only [SemLog.addV]
    omega
  · have := h.waiting
    grind
  · have := h.order
    simp only [SemLog.addV]
    rw [List.append_assoc]
    exact this

theorem Tally.ne_nil (h : Tally x lg w) (hx : x < 0) : w ≠ [] := by
  have := h.waiting
  grind

theorem Tally.eq_nil (h : Tally x lg w) (hx : 0 ≤ x) : w = [] := by
  have := h.waiting
  exact List.length_eq_zero_iff.1 (by omega)

theorem Tally.granted_le (h : Tally x lg w) : (lg.granted.length : ℤ) ≤ lg.initval + lg.vs := by
  have h1 := h.value
  have h2 := h.waiting
  have h3 := congrArg List.length h.order
  rw [List.length_append] at h3
  omega

end Tally

/-! ## Steps -/

theorem getSemaphore_used {id : ℤ} (hi : getSemaphore s id = some i) : (s.semaphores i).used = true := by
  exact (of_find? hi).2

theorem sysUserSemNew_cases {v r g : ℤ} {f : SemIx → Sem}
    (h : sysUserSemNew s v = ({ s with semaphores := f, g_next_semaphore_id := g }, r)) :
    f = s.semaphores ∨
      ∃ i, (s.semaphores i).used = false ∧ f = update s.semaphores i ⟨s.g_next_semaphore_id, v, true⟩ := by
  unfold sysUserSemNew allocSemaphore at h
  dsimp only at h
  cases hj : (List.finRange NSEMAPHORE).find? fun i => decide ((s.semaphores i).used = false) with
  | none =>
    rw [hj] at h
    simp only [Prod.mk.injEq, St.mk.injEq] at h
    exact .inl h.1.2.2.2.2.2.2.2.1.symm
  | some j =>
    rw [hj] at h
    simp only [update_self, update_idem, Prod.mk.injEq, St.mk.injEq] at h
    have hu := of_find? hj
    exact .inr ⟨j, hu, h.1.2.2.2.2.2.2.2.1.symm⟩

variable {log : Logs}

theorem SemInv.same (h : SemInv s log q) (hs : s'.semaphores = s.semaphores)
    (hq : ∀ i, q' (.sem i) = q (.sem i)) : SemInv s' log q' where
  unused i hi := by
    rw [hs] at hi
    rw [hq, h.unused i hi]
  tally i hi h0 := by
    rw [hs] at hi ⊢
    rw [hq]
    exact h.tally i hi h0

theorem SemInv.one {lg : SemLog} {d : ℤ} (h : SemInv s log q) (hu : (s.semaphores i).used = true)
    (hs : s'.semaphores = (addValue s i d).semaphores) (hq : ∀ j, j ≠ i → q' (.sem j) = q (.sem j))
    (hlg : lg.initval = (log i).initval)
    (ht : Tally (s.semaphores i).value (log i) (q (.sem i)) → Tally ((s.semaphores i).value + d) lg (q' (.sem i))) :
    SemInv s' (update log i lg) q' where
  unused j hj := by
    by_cases hji : j = i
    · subst hji
      rw [hs] at hj
      simp only [addValue, update_self, hu] at hj
      cases hj
    · rw [hs] at hj
      simp only [addValue, update_of_ne hji] at hj
      rw [hq j hji, h.unused j hj]
  tally j hj h0 := by
    by_cases hji : j = i
    · subst hji
      rw [update_self] at h0 ⊢
      rw [hs]
      simp only [addValue, update_self]
      exact ht (h.tally j hu (hlg ▸ h0))
    · rw [update_of_ne hji] at h0 ⊢
      rw [hs] at hj ⊢
      simp only [addValue, update_of_ne hji] at hj ⊢
      rw [hq j hji]
      exact h.tally j hj h0

theorem push_sem {k : Queue} (hk : k ≠ .sem i) : push q k p (.sem i) = q (.sem i) := by
  unfold push
  rw [update_of_ne (Ne.symm hk)]

theorem cut_sem {k : Queue} (hk : k ≠ .sem i) : cut q k p (.sem i) = q (.sem i) := by
  unfold cut
  rw [update_of_ne (Ne.symm hk)]

theorem Resched.sems (h : Resched s q H s' q') : s'.semaphores = s.semaphores ∧ ∀ i, q' (.sem i) = q (.sem i) := by
  cases h with
  | run hq => exact ⟨rfl, fun i => cut_sem (by simp)⟩
  | idle | park => exact ⟨rfl, fun i => rfl⟩

theorem Finish.sems (h : Finish s q H c nx s' q') : s'.semaphores = s.semaphores ∧ ∀ i, q' (.sem i) = q (.sem i) := by
  cases h with
  | ret | resume => exact ⟨rfl, fun i => rfl⟩
  | sched hr => exact hr.sems

theorem woken_same (h : s'.status = s.status) : woken s s' = [] := by
  rw [woken, List.filter_eq_nil_iff]
  intro p _
  simp [h]

theorem woken_one (hp : s.status p = .blocked) (h : s'.status = update s.status p .ready) : woken s s' = [p] := by
  have hiff : ∀ x, (decide (s.status x = .blocked ∧ s'.status x ≠ .blocked)) = (decide (x = p)) := by
    intro x
    rw [decide_eq_decide, h]
    by_cases hx : x = p
    · subst hx
      simp [hp]
    · simp [hx]
  rw [woken, List.filter_congr fun x _ => hiff x, List.filter_eq,
    List.count_eq_one_of_mem (List.nodup_finRange NPROC) (List.mem_finRange p)]
  rfl

theorem SemInv.new {v g r : ℤ} {f : SemIx → Sem} (h : SemInv s log q)
    (hn : sysUserSemNew s v = ({ s with semaphores := f, g_next_semaphore_id := g }, r)) (hs : s'.semaphores = f)
    (hq : ∀ i, q' (.sem i) = q (.sem i)) :
    SemInv s' (fun i => if (s.semaphores i).used = false ∧ (s'.semaphores i).used = true then ⟨v, [], [], 0⟩ else log i)
      q' := by
  rcases sysUserSemNew_cases hn with hf | ⟨j, hj, hf⟩
  · have hsame : ∀ i, ¬ ((s.semaphores i).used = false ∧ (s'.semaphores i).used = true) := by
      intro i hi
      rw [hs, hf, hi.1] at hi
      cases hi.2
    simp only [if_neg (hsame _)]
    exact h.same (hs.trans hf) hq
  · refine ⟨fun i hi => ?_, fun i hi h0 => ?_⟩
    · rw [hq]
      by_cases hij : i = j
      · subst hij
        exact h.unused i hj
      · rw [hs, hf, update_of_ne hij] at hi
        exact h.unused i hi
    · by_cases hij : i = j
      · subst hij
        have hnew : (s.semaphores i).used = false ∧ (s'.semaphores i).used = true := ⟨hj, hi⟩
        rw [if_pos hnew] at h0 ⊢
        rw [hq, h.unused i hj, hs, hf, update_self]
        exact tally_new h0
      · rw [hs, hf, update_of_ne hij] at hi
        have hold : ¬ ((s.semaphores i).used = false ∧ (s'.semaphores i).used = true) := by
          intro hx
          rw [hi] at hx
          cases hx.1
        rw [if_neg hold] at h0 ⊢
        rw [hq, hs, hf, update_of_ne hij]
        exact h.tally i hi h0

theorem record_semP {id : ℤ} (hsem : getSemaphore s id = some i) (hproc : (s.phase H).proc = some c) :
    record s (.trap H (.semP id)) s' log = update log i ((log i).addP c s') := by
  simp only [record, hsem, hproc]

theorem record_semV {id : ℤ} (hsem : getSemaphore s id = some i) :
    record s (.trap H (.semV id)) s' log = update log i ((log i).addV (woken s s')) := by
  simp only [record, hsem]

/-- **Every step keeps the tallies**: the value of a semaphore is its initial value with the calls of V and without
those of P, and who waits on it stands in its queue. -/
theorem semInv_step (hi : Inv s q) (h : SemInv s log q) (hst : AStep s q l s' q')
    (hr' : Rep s'.queue_next s'.head q') : SemInv s' (record s l s' log) q' := by
  have hi' := inv_step hi hst hr'
  cases hst with
  | start hph hr => exact h.same hr.sems.1 hr.sems.2
  | wake hph hq hr => exact h.same hr.sems.1 hr.sems.2
  | stay => exact h
  | shut => exact h.same rfl fun _ => rfl
  | @trap H c e s1 q1 nx _ _ hph hb hr1 hf =>
    have hproc : (s.phase H).proc = some c := runs_eq.2 hph
    obtain ⟨hfs, hfq⟩ := hf.sems
    have hrun : s.status c = .running := hi.located.running_of_run (runs_eq.2 hph)
    cases hb with
    | fork he _ =>
      cases he with
      | fork => exact h.same hfs fun i => (hfq i).trans (push_sem (by simp))
      | forkTo => exact h.same hfs fun i => (hfq i).trans (push_sem (by simp))
    | badTarget | tick | waitRet | reap | exit => exact h.same hfs hfq
    | yield | slice | waitBlock => exact h.same hfs fun i => (hfq i).trans (push_sem (by simp))
    | exitWake => exact h.same hfs fun i => (hfq i).trans ((push_sem (by simp)).trans (cut_sem (by simp)))
    | semNew hn => exact SemInv.new (s := saveRegs s H c _) (h.same rfl fun _ => rfl) hn hfs hfq
    | badSem he hnone =>
      have hlog : record s (.trap H e) s' log = log := by
        rcases he with rfl | rfl
        · simp only [record, show getSemaphore s _ = none from hnone]
        · simp only [record, show getSemaphore s _ = none from hnone]
      rw [hlog]
      exact h.same hfs hfq
    | @semPGo id i hsem hv =>
      rw [record_semP (s := s) hsem hproc]
      refine h.one (getSemaphore_used (s := s) hsem) hfs (fun j _ => hfq j) rfl fun ht => ?_
      rw [hfq]
      refine ht.p_go hv ?_
      -- the caller goes on
      cases hf
      show s.status c ≠ .blocked
      rw [hrun]
      simp
    | @semPBlock id i n hd hsem hv =>
      rw [record_semP (s := s) hsem hproc]
      have hself : q' (.sem i) = q (.sem i) ++ [c] := by
        rw [hfq, push, update_self]
      refine h.one (getSemaphore_used (s := s) hsem) hfs
        (fun j hj => (hfq j).trans (push_sem (by simpa using Ne.symm hj))) rfl fun ht => ?_
      rw [hself]
      refine ht.p_block hv (hi'.located.blocked_of_mem (k := .sem i) ?_ trivial)
      rw [hself]
      simp
    | @semVGo id i hsem hv =>
      rw [record_semV (s := s) hsem]
      refine h.one (getSemaphore_used (s := s) hsem) hfs (fun j _ => hfq j) rfl fun ht => ?_
      cases hf
      have hnone : woken s (sysReturn (addValue (saveRegs s H c (.semV id)) i 1) H H c 0) = [] := woken_same rfl
      rw [hnone]
      exact ht.v_go hv
    | @semVWake id i p rest n hd hsem hv hq =>
      rw [record_semV (s := s) hsem]
      have hself : q' (.sem i) = rest := by
        rw [hfq, push_sem (by simp), cut, update_self, hq]
        simp
      refine h.one (getSemaphore_used (s := s) hsem) hfs
        (fun j hj => (hfq j).trans ((push_sem (by simp)).trans (cut_sem (by simpa using Ne.symm hj)))) rfl fun ht => ?_
      have hp : s.status p = .blocked := hi.located.blocked_of_mem (k := .sem i) (by simp [hq]) trivial
      rw [hself]
      rw [hq] at ht
      cases hf
      rw [woken_one (s := s) hp rfl]
      exact ht.v_wake hv

/-! ## Runs -/

theorem SemInv.counting (h : SemInv s log q) (hi : Inv s q) (hu : (s.semaphores i).used = true)
    (h0 : 0 ≤ (log i).initval) : Counting s i (log i) (q (.sem i)) :=
  have ht := h.tally i hu h0
  ⟨hi.rep (.sem i), ht.value, ht.waiting, ht.order, fun _ hp => hi.located.blocked_of_mem hp trivial⟩

theorem semInv_boot {slot : Hart → Slot} {loaded : Hart → Bool} :
    SemInv (boot slot loaded) log (bootLists slot loaded) where
  unused _ _ := rfl
  tally _ hi := by cases hi

def Wakes (s s' : St) (i : SemIx) (w : List Slot) : Prop :=
  (s'.semaphores i).value = (s.semaphores i).value + 1 ∧
    match w with
    | [] => s'.status = s.status ∧ s'.queue_next = s.queue_next ∧ s'.head = s.head
    | p :: rest => woken s s' = [p] ∧ s'.status p = .ready ∧ Links s'.queue_next (s'.head (.sem i)) rest

theorem wakes_step {id : ℤ} (hi : Inv s q) (h : SemInv s log q) (h0 : 0 ≤ (log i).initval)
    (hsem : getSemaphore s id = some i) (hst : AStep s q (.trap H (.semV id)) s' q')
    (hr' : Rep s'.queue_next s'.head q') : Wakes s s' i (q (.sem i)) := by
  have ht := h.tally i (getSemaphore_used hsem) h0
  cases hst with
  | @trap _ c _ s1 q1 nx _ _ hph hb hr1 hf =>
    cases hb with
    | fork he _ => cases he
    | badSem he hnone =>
      rcases he with he | he
      · cases he
      · cases he
        cases hsem.symm.trans hnone
    | @semVGo _ j hsem' hv =>
      cases hsem.symm.trans hsem'
      rw [ht.eq_nil hv]
      cases hf
      refine ⟨?_, rfl, rfl, rfl⟩
      simp [sysReturn, switchTo, setA0, addValue, saveRegs]
    | @semVWake _ j p rest n hd hsem' hv hq =>
      cases hsem.symm.trans hsem'
      rw [hq]
      have hp : s.status p = .blocked := hi.located.blocked_of_mem (k := .sem i) (by simp [hq]) trivial
      have hchain := hr' (.sem i)
      cases hf
      refine ⟨?_, woken_one (s := s) hp rfl, ?_, ?_⟩
      · simp [sysReturn, switchTo, setA0, addValue, saveRegs, readied]
      · simp [sysReturn, switchTo, setA0, addValue, saveRegs, readied]
      · rw [push_sem (by simp), cut, update_self, hq, List.erase_cons_head] at hchain
        exact hchain

theorem semV_no_panic {id : ℤ} {m : String} (hi : Inv s q) (h : SemInv s log q) (h0 : 0 ≤ (log i).initval)
    (hsem : getSemaphore s id = some i) : step .ideal s (.trap H (.semV id)) ≠ .error (.panic m) := by
  have ht := h.tally i (getSemaphore_used hsem) h0
  cases hph : s.phase H with
  | boot | idle | parked => simp [step, hph]
  | user c =>
    have hsem' : getSemaphore (saveRegs s H c (.semV id)) id = some i := hsem
    simp only [step, hph, readTp, smodeTrapHandler_own (hi.cur H c hph), handle, hsem']
    obtain ⟨s', hok⟩ : ∃ s', semaphoreV (saveRegs s H c (.semV id)) H H c i = .ok s' := by
      have hr : Rep (saveRegs s H c (.semV id)).queue_next (saveRegs s H c (.semV id)).head q := hi.rep
      have hl : Located (saveRegs s H c (.semV id)).status (runs s) q := hi.located
      have hval : (saveRegs s H c (.semV id)).semaphores = s.semaphores := rfl
      exact semaphoreV_ok hr hl fun hneg => ht.ne_nil (hval ▸ hneg)
    rw [hok]
    simp

variable {t : St × Logs}

theorem semInv_reach {m : TpMode} {C : St × Logs → Label → Prop} (hC : ∀ t l, C t l → m = .register → VSafe t.1 l)
    (hs : Reach (logged (step m) record) C (fun t => Boot t.1) t) : ∃ q, Stands m t.1 q ∧ SemInv t.1 t.2 q := by
  refine Reach.inv (P := fun t => ∃ q, Stands m t.1 q ∧ SemInv t.1 t.2 q) ?_ ?_ hs
  · rintro ⟨s, log⟩ ⟨slot, loaded, hinj, rfl⟩
    exact ⟨_, ⟨inv_boot hinj, fun _ => homely_boot hinj⟩, semInv_boot⟩
  · intro t l t' ⟨q, hi, h⟩ hc hst
    obtain ⟨hst, hlog⟩ := logged_ok.1 hst
    obtain ⟨q', ha, hi'⟩ := hi.step (hC t l hc) hst
    exact ⟨q', hi', hlog ▸ semInv_step hi.1 h ha hi'.1.rep⟩

/-- the semaphore `i` of a state with its log: it counts, no more P are granted than it allows, and a V wakes the
process that has waited longest -/
def Correct (m : TpMode) (t : St × Logs) (i : SemIx) : Prop :=
  ∃ w, Counting t.1 i (t.2 i) w ∧ ((t.2 i).granted.length : ℤ) ≤ (t.2 i).initval + (t.2 i).vs ∧
    ∀ H id, getSemaphore t.1 id = some i →
      (∀ msg, step m t.1 (.trap H (.semV id)) ≠ .error (.panic msg)) ∧
      ∀ s', step m t.1 (.trap H (.semV id)) = .ok s' → Wakes t.1 s' i w

theorem SemInv.correct (h : SemInv s log q) (hi : Inv s q) (hu : (s.semaphores i).used = true)
    (h0 : 0 ≤ (log i).initval) : Correct .ideal (s, log) i := by
  refine ⟨q (.sem i), h.counting hi hu h0, (h.tally i hu h0).granted_le,
    fun H id hsem => ⟨fun msg => ?_, fun s' hst => ?_⟩⟩
  · exact semV_no_panic hi h h0 hsem
  · obtain ⟨q', ha, hr'⟩ := (step_ends hi _).of_ok hst
    exact wakes_step hi h h0 hsem ha hr'

/-- **Counting semaphores.** With the hart id read from tp: in every run in which each V wakes only processes of the
hart that executes it, every semaphore created with a value of at least 0 counts correctly. -/
theorem counting_semaphore
    (hs : Reach (logged (step .register) record) (fun t l => VSafe t.1 l) (fun t => Boot t.1) t)
    (hu : (t.1.semaphores i).used = true) (h0 : 0 ≤ (t.2 i).initval) : Correct .register t i := by
  obtain ⟨q, hi, h⟩ := semInv_reach (fun _ _ hc _ => hc) hs
  obtain ⟨w, hc, hg, hv⟩ := h.correct hi.1 hu h0
  refine ⟨w, hc, hg, fun H id hsem => ?_⟩
  rw [step_register (hi.2 rfl).reg]
  exact hv H id hsem

/-- **With the id of the executing hart** every semaphore with an initial value of at least 0 counts correctly in every
run, without a condition. -/
theorem counting_ideal (hs : Reach (logged (step .ideal) record) (fun _ _ => True) (fun t => Boot t.1) t)
    (hu : (t.1.semaphores i).used = true) (h0 : 0 ≤ (t.2 i).initval) : Correct .ideal t i := by
  obtain ⟨q, hi, h⟩ := semInv_reach (m := .ideal) (fun _ _ _ hm => nomatch hm) hs
  exact h.correct hi.1 hu h0

/-! ## Runs -/

def bootedLog : St × Logs := (booted, fun _ => ⟨0, [], [], 0⟩)

def semTurns : List Label :=
  [.spin 0, .trap 0 (.semNew 0), .trap 0 .fork, .trap 0 .fork, .trap 0 (.semP 0), .trap 0 (.semP 0), .trap 0 (.semV 0)]

def turned : St × Logs := exec (logged (step .register) record) bootedLog semTurns

theorem counting_semaphore_turned :
    turned.2 0 = ⟨0, [0, 4], [0], 1⟩ ∧ (turned.1.semaphores 0).value = -1 ∧ Correct .register turned 0 := by
  have hlog : turned.2 0 = ⟨0, [0, 4], [0], 1⟩ := by decide +kernel
  have hreach : Reach (logged (step .register) record) (fun t l => VSafe t.1 l) (fun t => Boot t.1) turned :=
    reach_exec (fun t l => vSafe_sound t.1 l) semTurns bootedLog (.init booted_boot) (by decide +kernel)
  exact ⟨hlog, by decide +kernel, counting_semaphore hreach (by decide +kernel) (by rw [hlog])⟩

def semStray : List Label :=
  [.spin 0, .spin 1, .trap 0 (.semNew 0), .trap 0 .fork, .trap 0 (.semP 0), .trap 1 (.semV 0), .trap 1 .yield,
    .trap 0 (.timer SYS_user_sem_P 0), .trap 1 (.semP 0), .trap 0 (.semP 0)]

/-- with the id of the executing hart these calls are counted -/
theorem counting_ideal_stray : Correct .ideal (exec (logged (step .ideal) record) bootedLog semStray) 0 :=
  counting_ideal (reach_decide semStray bootedLog (.init booted_boot) (by decide +kernel)) (by decide +kernel)
    (by decide +kernel)

def strayed : St × Logs := exec (logged (step .register) record) bootedLog semStray

/-- After three P and one V on a semaphore with initial value 0 its value is -2, but its queue holds one process, which
is not the first of the two whose P is not granted. -/
theorem semaphore_miscounts :
    Reach (logged (step .register) record) (fun _ _ => True) (fun t => Boot t.1) strayed ∧
      (strayed.1.semaphores 0).used = true ∧ (strayed.2 0).initval = 0 ∧ (strayed.2 0).calls = [0, 0, 4] ∧
      (strayed.2 0).vs = 1 ∧ (strayed.1.semaphores 0).value = -2 ∧
      Links strayed.1.queue_next (strayed.1.head (.sem 0)) [4] ∧ ¬ Correct .register strayed 0 := by
  have hval : (strayed.1.semaphores 0).value = -2 := by decide +kernel
  have hchain : Links strayed.1.queue_next (strayed.1.head (.sem 0)) [4] :=
    ⟨by decide +kernel, links_nil.2 (by decide +kernel)⟩
  refine ⟨reach_decide semStray bootedLog (.init booted_boot)
    (by decide +kernel), by decide +kernel, by decide +kernel, by decide +kernel, by decide +kernel, hval, hchain, ?_⟩
  intro hcor
  obtain ⟨w, hc, -, -⟩ := hcor
  have hw := hc.waiting
  rw [hc.chain.unique hchain, hval] at hw
  exact absurd hw (by decide)

end RiscvPke.Sched
