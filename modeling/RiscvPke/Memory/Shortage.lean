/-
A fork without a process slot or without enough pages: `alloc_process` with the reservations of slots
(kernel/process.c), `do_fork` and `do_fork_to_hart` (kernel/sched.c), `sys_user_fork` and `sys_user_fork_to`
(kernel/syscall.c).
-/
import RiscvPke.Memory.Duplicate
import RiscvPke.Memory.Heads

namespace RiscvPke.Shortage

open Function Run Memory RiscvPke.System

/-! ## Forks with reservations -/

/-- memory and processes, with the reserved slots -/
structure Sys extends Memory.St where
  g_proc_reserved : Slot → Bool

abbrev W := StateT Sys Res

def onMemory {α : Type} (x : M α) : W α := fun s =>
  match x s.toSt with
  | .ok (a, m) => .ok (a, { s with toSt := m })
  | .error e => .error e

variable (K : Machine)

def freeSlot (s : Sys) : Option Slot := (List.finRange NPROC).find? fun i =>
    s.life i = .free ∧ s.g_proc_reserved i = false

def allocProcess : W Slot := do
  match freeSlot (← get) with
  | none => throw (.panic "cannot find any free process structure.\n")
  | some i =>
    modify fun s => { s with g_proc_reserved := update s.g_proc_reserved i true }
    onMemory (allocSpace K i)
    return i

def releaseProcSlotReservation (i : Slot) : W Unit :=
  modify fun s => { s with g_proc_reserved := update s.g_proc_reserved i false }

/-- the regions of the parent go to the child, which is then inserted into a ready queue; the result is its pid -/
def doFork (parent : Slot) : W ℤ := do
  let child ← allocProcess K
  let s ← get
  onMemory ((List.range (s.proc parent).total_mapped_region).forM (copyRegion K parent child))
  releaseProcSlotReservation child
  return child.val

/-- `do_fork`, for the ready queue of another hart -/
def doForkToHart (parent : Slot) (target_hartid : ℤ) : W ℤ :=
  if 0 ≤ target_hartid ∧ target_hartid < NCPU then doFork K parent
  else throw (.assertion "target_hartid >= 0 && target_hartid < NCPU")

def sysUserFork (parent : Slot) : W ℤ := doFork K parent

def sysUserForkTo (parent : Slot) (target_hartid : ℤ) : W ℤ := do
  if target_hartid < 0 ∨ NCPU ≤ target_hartid then return -1
  doForkToHart K parent target_hartid

inductive Call where
  | fork
  | forkTo (target_hartid : ℤ)

def act (parent : Slot) : Call → W ℤ
  | .fork => sysUserFork K parent
  | .forkTo target_hartid => sysUserForkTo K parent target_hartid

/-! ## More pages -/

variable {K} {s s' t : Memory.St} {p P C : Slot} {v va f : ℕ} {l : List ℕ} {fl : Flags} {k : Kind}
  {B : Memory.St → Prop}

def more (l : List ℕ) (s : Memory.St) : Memory.St := { s with free := s.free ++ l }

theorem follows_allocPageUsed : Follows (more l) B allocPageUsed s := by
  cases hfree : s.free with
  | nil =>
    intro r t _
    refine .inr (.inl ⟨.nullPointer, ?_⟩)
    simp only [allocPageUsed, allocPage, run_get_bind, bind_assoc, hfree]
    rfl
  | cons n rest =>
    intro r t h
    refine .inl ⟨{ s with free := rest, page_ref_count := update s.page_ref_count n 1 }, ?_, ?_⟩
    all_goals simp only [allocPageUsed, allocPage, run_get_bind, bind_assoc, hfree, more, List.cons_append] at h ⊢
    · cases h
      rfl
    · cases h
      rfl

variable {g : Proc → Proc}

theorem follows_modProc : Follows (more l) B (modProc p g) s := follows_modify rfl

theorem follows_keep {k : Keep} : Follows (more l) B (keep f k) s := follows_modify rfl

theorem follows_zeroPage : Follows (more l) B (zeroPage f) s := follows_modify rfl

theorem follows_copyPage {dst src : ℕ} : Follows (more l) B (copyPage dst src) s := follows_modify rfl

variable {alloc : Bool} {has : Proc → Bool} {add : Proc → Proc} {keeps : Keep}

theorem walkLevel_more {r : Bool} (h : walkLevel p has add keeps alloc (more l s) = .ok (r, t)) :
    (∃ s', walkLevel p has add keeps alloc s = .ok (r, s') ∧ t = more l s') ∨
      walkLevel p has add keeps alloc s = .ok (false, s) ∧ alloc = true ∧ s.free = [] ∧ has (s.proc p) = false := by
  unfold walkLevel at h ⊢
  rw [run_get_bind] at h ⊢
  have hproc : (more l s).proc = s.proc := rfl
  rw [hproc] at h
  cases hhas : has (s.proc p) with
  | true =>
    grind
  | false =>
    have hno : ¬ has (s.proc p) = true := by
      rw [hhas]
      exact Bool.false_ne_true
    rw [if_neg hno] at h
    rw [if_neg Bool.false_ne_true]
    cases alloc with
    | false =>
      grind
    | true =>
      rw [if_pos rfl] at h ⊢
      cases hfree : s.free with
      | nil =>
        refine .inr ⟨?_, rfl, rfl, rfl⟩
        simp only [allocPage, run_get_bind, bind_assoc, hfree]
        rfl
      | cons n rest =>
        simp only [allocPage, run_get_bind, bind_assoc, hfree, more, List.cons_append] at h ⊢
        cases h
        exact .inl ⟨_, rfl, rfl⟩

theorem pageWalk_more {r : Bool} (h : pageWalk p va alloc (more l s) = .ok (r, t)) :
    (∃ s', pageWalk p va alloc s = .ok (r, s') ∧ t = more l s') ∨
      ∃ s', pageWalk p va alloc s = .ok (false, s') ∧ alloc = true ∧ s'.free = [] ∧
        ¬ HasTables (s'.proc p) (va / PGSIZE) := by
  unfold pageWalk at h ⊢
  split at h
  · cases h
  rw [if_neg (by assumption)]
  obtain ⟨r1, t1, h1, h2⟩ := run_bind.1 h
  obtain ⟨s1, hs1, rfl⟩ | ⟨hs, halloc, hfree, hdir⟩ := walkLevel_more h1
  · rw [run_step hs1]
    cases r1 with
    | false => grind
    | true =>
      rw [if_pos rfl] at h2 ⊢
      obtain ⟨s2, hs2, rfl⟩ | ⟨hs2, halloc, hfree, htab⟩ := walkLevel_more h2
      · exact .inl ⟨s2, hs2, rfl⟩
      · refine .inr ⟨s1, hs2, halloc, hfree, fun ht => ?_⟩
        rw [ht.2] at htab
        cases htab
  · refine .inr ⟨s, ?_, halloc, hfree, fun ht => ?_⟩
    · rw [run_step hs]
      rfl
    · rw [ht.1] at hdir
      cases hdir

theorem mapLoop_more {n : ℕ} {r : Bool} (h : mapLoop p fl n v f k (more l s) = .ok (r, t)) :
    (∃ s', mapLoop p fl n v f k s = .ok (r, s') ∧ t = more l s') ∨
      ∃ s' w, mapLoop p fl n v f k s = .ok (false, s') ∧ s'.free = [] ∧ w ∈ List.range' v n ∧
        ¬ HasTables (s'.proc p) w := by
  induction n generalizing s v f k with
  | zero =>
    cases h
    exact .inl ⟨s, rfl, rfl⟩
  | succ n ih =>
    obtain ⟨r1, t1, h1, h2⟩ := run_bind.1 h
    obtain ⟨s1, hs1, rfl⟩ | ⟨s1, hs1, -, hfree, htab⟩ := pageWalk_more h1
    · rw [mapLoop, run_step hs1]
      cases r1 with
      | false => grind
      | true =>
        rw [if_pos rfl, run_get_bind] at h2 ⊢
        split at h2
        · cases h2
        rw [if_neg (by assumption)]
        obtain ⟨_, t2, h3, h4⟩ := run_bind.1 h2
        cases h3
        rcases ih (s := s1.withLeaf p v (some ⟨fl, f, k⟩)) h4 with h | ⟨s', w, hs', hfree, hw, htab⟩
        · exact .inl h
        · refine .inr ⟨s', w, hs', hfree, ?_, htab⟩
          exact List.mem_cons_of_mem v hw
    · refine .inr ⟨s1, v, ?_, hfree, ?_, ?_⟩
      · rw [mapLoop, run_step hs1]
        rfl
      · rw [List.range'_succ]
        exact List.mem_cons_self
      · rwa [Nat.mul_div_cancel v (by decide)] at htab

theorem follows_userVmMap {size : ℕ} : Follows (more l) B (userVmMap p va size f fl k) s := by
  intro r t h
  obtain ⟨r1, t1, h1, h2⟩ := run_bind.1 h
  obtain ⟨s1, hs1, rfl⟩ | ⟨s1, w, hs1, -⟩ := mapLoop_more h1
  · cases r1 with
    | false => cases h2
    | true =>
      cases h2
      refine .inl ⟨s1, ?_, rfl⟩
      exact run_step hs1
  · exact .inr (.inl ⟨_, run_step hs1⟩)

/-! ## Copies with more pages -/

theorem follows_findPage : Follows (more l) B (pageWalk p va false) s := by
  intro r t h
  obtain h | ⟨_, _, halloc, -⟩ := pageWalk_more h
  · exact .inl h
  · cases halloc

theorem follows_shareHeapPage : Follows (more l) B (shareHeapPage K P C v) s := by
  refine (follows_findPage).seq fun found s1 _ => ?_
  cases found with
  | false => exact follows_pure
  | true =>
    refine follows_get_bind rfl ?_
    split
    · exact follows_pure
    · refine Follows.seq ?_ fun _ _ _ => (follows_userVmMap).seq fun _ _ _ => follows_modProc
      unfold incPageRef
      split_ifs
      · exact follows_modify rfl
      · exact follows_pure

theorem follows_copyDataPage : Follows (more l) B (copyDataPage P C va) s := by
  refine (follows_allocPageUsed).seq fun childPa s1 _ => follows_get_bind rfl ?_
  dsimp only
  split_ifs
  · exact follows_throw
  · exact (follows_copyPage).seq fun _ _ _ => follows_userVmMap

theorem follows_appendRegion {r : Region} : Follows (more l) B (appendRegion C r) s := by
  refine follows_get_bind rfl ?_
  dsimp only
  split_ifs
  · exact follows_throw
  · exact follows_modProc

theorem follows_shareCodePage
    (hva : ∀ v ∈ List.range' (va / PGSIZE) ((va + PGSIZE - 1) / PGSIZE + 1 - va / PGSIZE), CodePage pr v) :
    Follows (more l) (Lacks pr C) (shareCodePage P C va) s := by
  refine follows_get_bind rfl ?_
  intro r t h
  obtain ⟨r1, t1, h1, h2⟩ := run_bind.1 h
  cases h2
  obtain ⟨s1, hs1, rfl⟩ | ⟨s1, v, hs1, hfree, hv, htab⟩ := mapLoop_more h1
  · exact .inl ⟨s1, run_step hs1, rfl⟩
  · exact .inr (.inr ⟨(), s1, run_step hs1, hfree, v, hva v hv, htab⟩)

theorem follows_all {ι : Type} {x : ι → M PUnit} {is : List ι} (hx : ∀ i s, Follows (more l) (fun _ => False) (x i) s) :
    Follows (more l) (fun _ => False) (is.forM x) s :=
  follows_forM (I := fun _ => True) (fun i _ s _ => hx i s) (fun _ _ _ _ _ _ _ => ⟨trivial, trivial⟩)
    (fun _ _ _ _ _ h => h.elim) trivial

theorem follows_copyRegion {i : ℕ} (hinfo : (s.proc P).mapped_info = pr.mapped_info) (hi : i < pr.total_mapped_region) :
    Follows (more l) (Lacks pr C) (copyRegion K P C i) s := by
  unfold copyRegion
  split_ifs
  · exact follows_throw
  refine follows_get_bind rfl ?_
  dsimp only
  split
  · exact follows_pure
  · exact follows_pure
  · split_ifs
    · exact follows_throw
    · exact follows_modify rfl
  · exact (follows_all fun _ _ => follows_shareHeapPage).seq fun _ _ _ => follows_modProc
  · have hcode : ((s.proc P).mapped_info i).seg_type = .code := by assumption
    rw [hinfo] at hcode ⊢
    refine Follows.bind ?_ (fun _ _ _ => follows_appendRegion) fun _ => lacks_of_dry fun T => dry_appendRegion
    refine follows_forM (I := fun _ => True) (fun va hva s _ => follows_shareCodePage fun v hv => ⟨i, hi,
      hcode, va, hva, hv⟩)
      (fun _ _ _ _ _ _ _ => ⟨trivial, trivial⟩) (fun _ _ => lacks_of_dry fun T => dry_shareCodePage) trivial
  · exact (follows_all fun _ _ => follows_copyDataPage).seq fun _ _ _ => follows_appendRegion

/-! ## The regions stay -/

def regions (P : Slot) (s : Memory.St) : (ℕ → Region) × ℕ := ((s.proc P).mapped_info, (s.proc P).total_mapped_region)

theorem regions_outside : Outside fun pr => (pr.mapped_info, pr.total_mapped_region) := fun _ _ _ _ => rfl

theorem regions_allocSpace (hne : C ≠ P) : Keeps (regions P) (allocSpace K C) := by
  have hused := @keeps_allocPageUsed P _ _ regions_outside
  have hmap := fun va size f fl k => @keeps_userVmMap P C f va _ _ regions_outside size fl k
  have hnew : ∀ pr, Keeps (regions P) (modify fun s => s.cleared C pr : M Unit) :=
    fun _ => keeps_modify fun _ => by simp [regions, St.cleared, hne.symm]
  exact hused.bind fun _ => keeps_zeroPage.bind fun _ => keeps_keep.bind fun _ => hused.bind fun _ =>
    keeps_zeroPage.bind fun _ => keeps_keep.bind fun _ => hused.bind fun _ => keeps_keep.bind fun _ =>
    hused.bind fun _ => hused.bind fun _ => keeps_zeroPage.bind fun _ => keeps_keep.bind fun _ =>
    (hnew _).bind fun _ => (hmap _ _ _ _ _).bind fun _ => (hmap _ _ _ _ _).bind fun _ =>
    (hmap _ _ _ _ _).bind fun _ => hused.bind fun _ => keeps_keep.bind fun _ => keeps_modify fun _ => rfl

theorem regions_copyRegion {i : ℕ} (hne : C ≠ P) : Keeps (regions P) (copyRegion K P C i) := by
  unfold copyRegion
  split_ifs
  · exact keeps_throw
  refine keeps_get.bind fun s => ?_
  dsimp only
  split
  · exact keeps_pure
  · exact keeps_pure
  · split_ifs
    · exact keeps_throw
    · exact keeps_modify fun _ => rfl
  · exact (keeps_forM fun _ _ => keeps_shareHeapPage regions_outside).bind fun _ => keeps_modProc (.inl hne.symm)
  · exact (keeps_forM fun _ _ => keeps_shareCodePage regions_outside).bind fun _ => keeps_appendRegion (.inl hne.symm)
  · exact (keeps_forM fun _ _ => keeps_copyDataPage regions_outside).bind fun _ => keeps_appendRegion (.inl hne.symm)

/-! ## Forks -/

variable {w w' : Sys} {parent : Slot}

/-- there is no slot that is FREE and not reserved -/
def NoSlot (w : Sys) : Prop := ∀ i, w.life i = .free → w.g_proc_reserved i = true

/-- with more free pages the fork succeeds, and takes more pages than there are -/
def ShortOfPages (K : Machine) (parent : Slot) (w : Sys) : Prop :=
  ∃ l r t, doFork K parent { w with toSt := more l w.toSt } = .ok (r, t) ∧ t.free.length < l.length

theorem follows_cleared {pr : Proc} : Follows (more l) B (modify fun s => s.cleared C pr : M Unit) s :=
  follows_modify rfl

theorem follows_setLive : Follows (more l) B (modify fun s => { s with life := update s.life C .live } : M Unit) s :=
  follows_modify rfl

theorem follows_allocSpace : Follows (more l) B (allocSpace K C) s :=
  (follows_allocPageUsed).seq fun _ _ _ => (follows_zeroPage).seq fun _ _ _ => (follows_keep).seq fun _ _ _ =>
    (follows_allocPageUsed).seq fun _ _ _ => (follows_zeroPage).seq fun _ _ _ => (follows_keep).seq fun _ _ _ =>
    (follows_allocPageUsed).seq fun _ _ _ => (follows_keep).seq fun _ _ _ => (follows_allocPageUsed).seq fun _ _ _ =>
    (follows_allocPageUsed).seq fun _ _ _ => (follows_zeroPage).seq fun _ _ _ => (follows_keep).seq fun _ _ _ =>
    (follows_cleared).seq fun _ _ _ => (follows_userVmMap).seq fun _ _ _ =>
    (follows_userVmMap).seq fun _ _ _ => (follows_userVmMap).seq fun _ _ _ => (follows_allocPageUsed).seq fun _ _ _ =>
    (follows_keep).seq fun _ _ _ => follows_setLive

theorem follows_copyRegions (hne : C ≠ P) (hregions : regions P s = (pr.mapped_info, pr.total_mapped_region)) :
    Follows (more l) (Lacks pr C) ((List.range pr.total_mapped_region).forM (copyRegion K P C)) s := by
  refine follows_forM (I := fun s => regions P s = (pr.mapped_info, pr.total_mapped_region)) (fun i hi s hs => ?_)
    (fun i _ s r s' hs h => ?_) (fun i _ => lacks_of_dry fun T => dry_copyRegion) hregions
  · exact follows_copyRegion (congrArg Prod.fst hs) (List.mem_range.1 hi)
  · exact ⟨(regions_copyRegion hne s r s' h).trans hs, trivial⟩

theorem run_onMemory {x : M α} {a : α} :
    onMemory x w = .ok (a, w') ↔ ∃ m, x w.toSt = .ok (a, m) ∧ w' = { w with toSt := m } := by
  unfold onMemory
  cases x w.toSt with
  | error e => simp
  | ok r => simp [Prod.ext_iff, eq_comm]

theorem onMemory_ok {x : M α} {a : α} {reserved : Slot → Bool} (h : x s = .ok (a, s')) :
    onMemory x ⟨s, reserved⟩ = .ok (a, ⟨s', reserved⟩) := (run_onMemory).2 ⟨s', h, rfl⟩

theorem onMemory_error {x : M α} {e : Stop} {reserved : Slot → Bool} (h : x s = .error e) :
    onMemory x ⟨s, reserved⟩ = .error e := by
  unfold onMemory
  rw [h]

theorem freeSlot_none : freeSlot w = none ↔ NoSlot w := by
  simp [freeSlot, NoSlot]

theorem freeSlot_ne (hslot : freeSlot w = some C) (hlive : w.life parent ≠ .free) : C ≠ parent := by
  rintro rfl
  exact hlive (of_find? hslot).1

theorem doFork_slot (hslot : freeSlot w = some C) : doFork K parent w = (do
      onMemory (allocSpace K C)
      let s ← get
      onMemory ((List.range (s.proc parent).total_mapped_region).forM (copyRegion K parent C))
      releaseProcSlotReservation C
      return (C.val : ℤ) : W ℤ) { w with g_proc_reserved := update w.g_proc_reserved C true } := by
  unfold doFork allocProcess
  simp only [bind_assoc, run_get_bind, hslot, pure_bind]
  rfl

theorem exhausted_fork (hlive : w.life parent ≠ .free) (h : NoSlot w ∨ ShortOfPages K parent w) :
    (∃ e, doFork K parent w = .error e) ∨
      ∃ (child : Slot) (w' : Sys) (v : ℕ), doFork K parent w = .ok ((child.val : ℤ), w') ∧ CodePage (w.proc parent) v ∧
        ¬ HasTables (w'.proc child) v := by
  cases hslot : freeSlot w with
  | none =>
    refine .inl ⟨.panic "cannot find any free process structure.\n", ?_⟩
    unfold doFork allocProcess
    simp only [bind_assoc, run_get_bind, hslot]
    rfl
  | some C =>
    obtain ⟨l, r, t, hrun, hlen⟩ := h.resolve_left fun hno => by
      rw [(freeSlot_none).2 hno] at hslot
      cases hslot
    have hne := freeSlot_ne hslot hlive
    rw [doFork_slot (show freeSlot { w with toSt := more l w.toSt } = some C from hslot)] at hrun
    rw [doFork_slot hslot]
    obtain ⟨_, t1, h1, h2⟩ := run_bind.1 hrun
    obtain ⟨m1, hm1, rfl⟩ := (run_onMemory).1 h1
    -- the space of the child is the same, or there is an error
    obtain ⟨s1, hs1, rfl⟩ | ⟨e, he⟩ | ⟨_, _, -, hfalse⟩ := follows_allocSpace (B := fun _ => False) _ _ hm1
    · have hregions : regions parent s1 = ((w.proc parent).mapped_info, (w.proc parent).total_mapped_region) :=
        regions_allocSpace hne _ _ _ hs1
      have htotal : (s1.proc parent).total_mapped_region = (w.proc parent).total_mapped_region :=
        congrArg Prod.snd hregions
      rw [run_step (onMemory_ok hs1), run_get_bind]
      rw [run_get_bind] at h2
      obtain ⟨_, t2, h3, h4⟩ := run_bind.1 h2
      obtain ⟨m2, hm2, rfl⟩ := (run_onMemory).1 h3
      obtain ⟨_, t3, h5, h6⟩ := run_bind.1 h4
      cases h5
      have htotal' : ((more l s1).proc parent).total_mapped_region = (w.proc parent).total_mapped_region := htotal
      rw [htotal'] at hm2
      rw [htotal]
      obtain ⟨s2, -, rfl⟩ | ⟨e, he⟩ | ⟨_, s2, hs2, -, v, hv, htab⟩ := follows_copyRegions hne hregions _ _ hm2
      · -- then as many pages are left as were added
        grind [more]
      · exact .inl ⟨e, run_bind_error.2 (.inl (onMemory_error he))⟩
      · refine .inr ⟨C, ⟨s2, update (update w.g_proc_reserved C true) C false⟩, v, ?_, hv, htab⟩
        rw [run_step (onMemory_ok hs2)]
        rfl
    · exact .inl ⟨e, run_bind_error.2 (.inl (onMemory_error he))⟩
    · exact hfalse.elim

/-- the target hart of a `fork_to` is none -/
def Call.rejected : Call → Prop
  | .fork => False
  | .forkTo target_hartid => target_hartid < 0 ∨ NCPU ≤ target_hartid

theorem act_rejected {c : Call} (h : c.rejected) : act K parent c w = .ok (-1, w) := by
  cases c with
  | fork => exact h.elim
  | forkTo target_hartid =>
    have hinvalid : target_hartid < 0 ∨ NCPU ≤ target_hartid := h
    show sysUserForkTo K parent target_hartid w = _
    unfold sysUserForkTo
    rw [if_pos hinvalid]
    rfl

theorem act_accepted {c : Call} (h : ¬ c.rejected) : act K parent c w = doFork K parent w := by
  cases c with
  | fork => rfl
  | forkTo target_hartid =>
    have hinvalid : ¬ (target_hartid < 0 ∨ NCPU ≤ target_hartid) := h
    have hvalid : 0 ≤ target_hartid ∧ target_hartid < NCPU := by
      rwa [not_or, not_lt, not_le] at hinvalid
    show sysUserForkTo K parent target_hartid w = _
    unfold sysUserForkTo doForkToHart
    rw [if_neg hinvalid, if_pos hvalid]

/-- **Forks without resources.** Without a slot, or with fewer pages than the fork needs, a call returns -1 and changes
nothing exactly if its target hart is invalid; every other call stops the kernel, or returns a child that lacks a code
page. -/
theorem fork_fails_cleanly (c : Call) (hlive : w.life parent ≠ .free) (h : NoSlot w ∨ ShortOfPages K parent w) :
    (act K parent c w = .ok (-1, w) ↔ c.rejected) ∧
    (¬ c.rejected → (∃ e, act K parent c w = .error e) ∨
      ∃ (child : Slot) (w' : Sys) (v : ℕ), act K parent c w = .ok ((child.val : ℤ), w') ∧ CodePage (w.proc parent) v ∧
        ¬ HasTables (w'.proc child) v) := by
  have haccepted : ¬ c.rejected → (∃ e, act K parent c w = .error e) ∨
      ∃ (child : Slot) (w' : Sys) (v : ℕ), act K parent c w = .ok ((child.val : ℤ), w') ∧ CodePage (w.proc parent) v ∧
        ¬ HasTables (w'.proc child) v := by
    intro hc
    rw [act_accepted hc]
    exact exhausted_fork hlive h
  grind [act_rejected]

def crowded : Sys :=
  ⟨exec (step board) { zeroed with free := List.range' 0x80100 29 } [.spawn [codeHdr, dataHdr], .grow 0],
    fun _ => false⟩

def full : Sys := ⟨{ crowded.toSt with life := fun _ => .live }, fun _ => false⟩

theorem crowded_short : ShortOfPages board 0 crowded := by
  have hrun : ((doFork board 0 { crowded with toSt := more [0x80200] crowded.toSt }).map fun r =>
    r.2.free.length) = .ok 0 := by
    decide +kernel
  obtain ⟨⟨r, t⟩, hok, hlen⟩ := System.map_ok hrun
  refine ⟨[0x80200], r, t, hok, ?_⟩
  rw [hlen]
  decide

theorem fork_fails_cleanly_crowded :
    act board 0 (.forkTo 4) crowded = .ok (-1, crowded) ∧ act board 0 .fork crowded ≠ .ok (-1, crowded) := by
  have hlive : crowded.life 0 ≠ .free := by decide +kernel
  refine ⟨(fork_fails_cleanly (.forkTo 4) hlive (.inr crowded_short)).1.2 (.inr (by decide)), fun h => ?_⟩
  exact (fork_fails_cleanly .fork hlive (.inr crowded_short)).1.1 h

/-- Without a slot the kernel panics. Without pages it stops at the null page that it takes for the data of the child,
when the heap page of the parent has become read-only. -/
theorem fork_stops :
    (NoSlot full ∧ (act board 0 .fork full).map Prod.fst =
      .error (.panic "cannot find any free process structure.\n")) ∧
    ShortOfPages board 0 crowded ∧ (act board 0 .fork crowded).map Prod.fst = .error .nullPointer ∧
    (leafAt crowded.toSt 0 0x400).map (·.w) = some true ∧
    ((do
      let child ← allocProcess board
      onMemory ((List.range 5).forM (copyRegion board 0 child)) : W Unit) crowded).map
        (fun r => (leafAt r.2.toSt 0 0x400).map (·.w)) = .ok (some false) := by
  refine ⟨⟨fun i hi => ?_, by decide +kernel⟩, crowded_short, by decide +kernel⟩
  cases hi

end RiscvPke.Shortage
