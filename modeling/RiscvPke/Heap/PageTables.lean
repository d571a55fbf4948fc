/-
Page tables over whole runs: program loads, forks, stores with their page faults, `sys_user_allocate_mem`,
`sys_user_free_mem`, `do_exec`, `sys_user_exit` and the reuse of slots, by any number of processes in any order.
-/
import RiscvPke.Heap.Isolation

namespace RiscvPke.Heap.PageTables

open Function Bytes Program Run RiscvPke.System
open Memory (St Machine Pte Proc Phdr Inv Booted Frames Life Clean Origin Titled Unwritable leafAt heapView InHeap
  IsKind HeapAddr NoWritableSharing ReleasesHeap)

variable {K : Machine} {p q P : Slot} {s s' : St} {act : Act} {v w va r : ℕ} {a b : Pte} {t : Flat} {e : Stop}

/-! ## Steps -/

def step (K : Machine) (s : St) (act : Act) : Res St := (·.2) <$> kernelAct K act s

def memory : Act → Memory.Op
  | .spawn elf => .spawn elf
  | .fork parent => .fork parent
  | .store p sp va b => .store p sp va b
  | .exec p elf para => .exec p elf para
  | .reap p => .reap p
  | .call p _ => .grow p
  | .exit p => .exit p []

/-- the condition on a step, in the state in which it is taken. A fork finds aligned CODE and DATA regions and code that
may be executed; a store spares the headers of the process's own blocks, and finds a free page if its own is not mapped;
a heap call is made by a process that shares no heap page and puts no header across the end of a page -/
def Orderly (s : St) : Act → Prop
  | .fork P => Memory.Regular (s.proc P)
  | .store p _ va _ => ((s.proc p).leaf (va / PGSIZE) ≠ none ∨ s.free ≠ []) ∧
      ∀ b ∈ blocks (heapOf s p), ¬ (b ≤ va ∧ va < b + PD)
  | .call p op => SharesNone s p ∧ WithinPages (heapOf s p) op
  | .exit p => SharesNone s p
  | .spawn _ | .exec _ _ _ | .reap _ => True

instance (s : St) (act : Act) : Decidable (Orderly s act) :=
  match act with
  | .fork P => inferInstanceAs (Decidable (Memory.Regular (s.proc P)))
  | .store _ _ _ _ => inferInstanceAs (Decidable (_ ∧ _))
  | .call _ _ => inferInstanceAs (Decidable (_ ∧ _))
  | .exit p => inferInstanceAs (Decidable (SharesNone s p))
  | .spawn _ | .exec _ _ _ | .reap _ => inferInstanceAs (Decidable True)

theorem Orderly.titled (hc : Orderly s act) : Titled s (memory act) := by
  cases act with
  | fork P => exact hc
  | store p sp va b => exact hc.1
  | spawn | exec | reap | call | exit => trivial

/-- what a run keeps: well-formed lists, and page tables in which every process has a title to its pages -/
structure Ordered (K : Machine) (s : St) : Prop extends Lists K s, Clean s

theorem step_run (h : step K s act = .ok s') : ∃ r, kernelAct K act s = .ok (r, s') := by
  obtain ⟨⟨r, s1⟩, h1, h2⟩ := map_ok h
  exact ⟨r, h2 ▸ h1⟩

/-! ## Where entries come from -/

theorem memory_origin {op : Memory.Op} (h : Lists K s) (hrun : memoryOp K op s = .ok (r, s'))
    (ha : leafAt s' q v = some a) :
    Origin s s' op q v a :=
  (Memory.step_effect h.inv (memoryOp_run hrun).2.2).origin h.inv ha

theorem beside_origin {s0 : St} {op : Memory.Op} (h : Beside p s0 s') (hleaf : ∀ q v, leafAt s0 q v = leafAt s q v)
    (hlife : ∀ q, s'.life q = .live → s.life q = .live) (ha : leafAt s' q v = some a) : Origin s s' op q v a := by
  by_cases hq : q = p
  · subst hq
    rcases h.entries v a ha with ho | ⟨f, e⟩
    · exact .old ((hleaf q v).symm.trans ho) (hlife q)
    · exact .heap e
  · have ho : leafAt s0 q v = some a := ((h.others q hq).leaf_eq v).symm.trans ha
    exact .old ((hleaf q v).symm.trans ho) (hlife q)

/-- **Origins.** Every entry after an orderly step was there before, or is one that the memory operation of the step
makes: a header write that lands in a page table would be another source. -/
theorem act_origin (h : Lists K s) (hc : Orderly s act) (hrun : kernelAct K act s = .ok (r, s'))
    (ha : leafAt s' q v = some a) : Origin s s' (memory act) q v a := by
  cases act with
  | spawn elf => exact memory_origin h hrun ha
  | fork P => exact memory_origin h hrun ha
  | store p sp va b => exact memory_origin h hrun ha
  | exec p elf para => exact memory_origin h hrun ha
  | reap p => exact memory_origin h hrun ha
  | call p op =>
    obtain ⟨hl, hx⟩ := asLive_run hrun
    obtain ⟨F, A, hok⟩ := h.ok p hl
    obtain ⟨t', -, hf, -⟩ := call_follows (h.follows hl hc.1)
      (WithinPages.wp (S := fun _ => True) trivial (fun _ => trivial) hok hc.2) hx
    exact beside_origin hf.toBeside (fun _ _ => rfl) (fun q hq => by rwa [hf.life] at hq) ha
  | exit p =>
    obtain ⟨hl, hx⟩ := asLive_run hrun
    obtain ⟨_, s1, h1, hx⟩ := run_bind.1 hx
    obtain ⟨_, s2, h2, hx⟩ := run_bind.1 hx
    obtain ⟨rfl, rfl⟩ := run_pure.1 hx
    obtain rfl := run_modify.1 h1
    obtain ⟨F, A, hok⟩ := h.ok p hl
    have hleft := exit_leaves (h.follows hl hc) hok h2
    refine beside_origin hleft.toBeside (fun _ _ => rfl) (fun q hq => ?_) ha
    by_cases hqp : q = p
    · rwa [hqp]
    · rw [hleft.life] at hq
      exact (update_of_ne hqp _ _).symm.trans hq

/-! ## Stores outside the heap -/

theorem wrote_view {byte : UInt8} {s1 : St} (hw : Memory.Wrote K p va byte a s1 s') (hf : Frames K s1)
    (hk : a.kind ≠ .heap) (hspill : a.kind ≠ .spill) (q : Slot) (v : ℕ) : heapView s' q v = heapView s1 q v := by
  have hl : leafAt s' q v = leafAt s1 q v := by
    rw [hw.state]
    rfl
  apply Memory.heapView_keep
  · intro k
    rw [hl]
  · intro b hb hbk
    refine ⟨b, hl.trans hb, rfl, fun x hx => ?_⟩
    rw [hw.state]
    apply update_of_ne
    intro hxa
    have hppn : b.ppn = a.ppn := by
      rw [← hx, hxa]
      simp only [PGSIZE]
      omega
    have hne : (q, v) ≠ (p, va / PGSIZE) := by
      rintro he
      obtain ⟨rfl, rfl⟩ := Prod.mk.inj he
      rw [hw.leaf] at hb
      exact hk (Option.some.inj hb ▸ hbk)
    have hkind := (hf.excl q v b p _ a hb hw.leaf (by simp [hbk]) hspill hppn hne).1
    exact hk (hkind.symm.trans hbk)

theorem store_outside {sp : ℕ} {byte : UInt8} (h : Ordered K s) (hc : Orderly s (.store p sp va byte))
    (hva : ¬ HeapAddr (s.proc p) va) (hrun : kernelAct K (.store p sp va byte) s = .ok (r, s')) : Lists K s' := by
  have horigin : ∀ q v a, leafAt s' q v = some a → Origin s s' (.store p sp va byte) q v a :=
    fun q v a ha => act_origin h.toLists hc hrun ha
  obtain ⟨rfl, -, hst⟩ := memoryOp_run hrun
  have hI' := Memory.inv_step h.inv hst
  cases Memory.step_effect h.inv hst with
  | @store _ _ _ _ s1 _ a hl h1 hw =>
    have hI1 := Memory.fault_inv h1 h.inv hl
    obtain ⟨hlife1, hsame1⟩ := fault_same h1
    have hleaf : leafAt s' p (va / PGSIZE) = some a := by
      rw [hw.state]
      exact hw.leaf
    have hk : a.kind ≠ .heap := by
      intro hk
      obtain ⟨n, hn⟩ := (hI1.live p (by rw [hlife1, hl])).heap
      exact hva ((Memory.fault_heapAddr h1).1 (heap_addr hn ((hn.mapped _).1 ⟨a, hw.leaf, hk⟩)))
    have hspill := (horigin p _ a hleaf).noSpill hc.titled h.toClean
    have hview : ∀ q v, heapView s' q v = heapView s q v := fun q v =>
      (wrote_view hw hI1.frames hk hspill q v).trans (Memory.fault_view h1 h.inv.frames q v)
    have hlife : ∀ q, s'.life q = s.life q := fun q => by rw [hw.state]; exact congrFun hlife1 q
    have hsame : ∀ q, SameHeap (s.proc q) (s'.proc q) := fun q => by rw [hw.state]; exact hsame1 q
    refine ⟨hI', fun q hq => ?_⟩
    have hlq := (hlife q).symm.trans hq
    obtain ⟨F, A, hok⟩ := h.ok q hlq
    exact ⟨F, A, hok.agree (agree_of_views h.inv hI' hlq hq (hsame q) (hview q))⟩

/-! ## Runs -/

theorem lists_step (h : Ordered K s) (hc : Orderly s act) (hrun : kernelAct K act s = .ok (r, s')) : Lists K s' := by
  have hl := h.toLists
  cases act with
  | spawn elf => exact (spawn_step hl hrun).1
  | fork P => exact (fork_step hl hrun).1
  | store p sp va b =>
    by_cases hva : HeapAddr (s.proc p) va
    · exact (store_step hl ⟨hva, hc.2⟩ hrun).1
    · exact store_outside h hc hva hrun
  | exec p elf para => exact (exec_step hl hrun).1
  | reap p => exact (reap_step hl hrun).1
  | call p op => exact (call_step hl hc hrun).1
  | exit p => exact (exit_step hl hc hrun).1

/-- **Orderly steps keep the order**: the lists stay well formed, entries have the permission bits of their kind, and
none is without a title to its page. -/
theorem ordered_step (h : Ordered K s) (hc : Orderly s act) (hst : step K s act = .ok s') : Ordered K s' := by
  obtain ⟨r, hrun⟩ := step_run hst
  exact
    { toLists := lists_step h hc hrun
      toClean := h.toClean.step hc.titled fun q v a ha => act_origin h.toLists hc hrun ha }

theorem booted_ordered (h : Booted K s) : Ordered K s := { toLists := booted_lists h, toClean := h.clean }

theorem ordered_reachable (h : Reach (step K) Orderly (Booted K) s) : Ordered K s :=
  h.inv (fun _ => booted_ordered) fun _ _ _ ho hc hst => ordered_step ho hc hst

/-! ## The heap region -/

/-- **The heap bookkeeping matches the mapping.** In every run of orderly steps every live process has
`heap_bottom = USER_FREE_ADDRESS_START` and `heap_top = heap_bottom + PGSIZE * npages` for the `npages` of its heap
region; its heap pages are exactly the pages of [heap_bottom, heap_top); and the turn of `do_exec` for the heap region,
after those for the regions before it, returns and gives all of them back. -/
theorem heap_matches (h : Reach (step K) Orderly (Booted K) s) (hl : s.life p = .live) :
    (s.proc p).heap_bottom = USER_FREE_ADDRESS_START ∧
    (s.proc p).heap_top = (s.proc p).heap_bottom + PGSIZE * ((s.proc p).mapped_info 3).npages ∧
    (∀ v, IsKind .heap (leafAt s p v) ↔ InHeap (s.proc p) v) ∧ ReleasesHeap K p s :=
  (ordered_reachable h).inv.heapRegion hl

def heapCalls : List Act :=
  [.spawn [], .call 0 (.malloc 8), .call 0 (.malloc 5000), .call 0 (.free 0x400018), .fork 0, .exec 0 [] [],
    .store 1 0 0x400100 7,
    .store 1 0x7fffe000 0x7fffd008 1, .call 1 (.malloc 8), .call 1 (.malloc 300000)]

def heapRun : St := exec (step Memory.board) Memory.bootState heapCalls

theorem heapRun_reach : Reach (step Memory.board) Orderly (Booted Memory.board) heapRun :=
  reach_decide heapCalls Memory.bootState (.init Memory.bootState_booted) (by decide +kernel)

theorem heap_matches_heapRun :
    heapRun.free = [] ∧ InHeap (heapRun.proc 1) 0x402 ∧ IsKind .heap (leafAt heapRun 1 0x402) ∧
    ReleasesHeap Memory.board 1 heapRun := by
  have hin : InHeap (heapRun.proc 1) 0x402 := of_decide_eq_true (by decide +kernel)
  obtain ⟨-, -, hmapped, hrel⟩ := heap_matches heapRun_reach (show heapRun.life 1 = .live by decide +kernel)
  exact ⟨by decide +kernel, hin, (hmapped 0x402).2 hin, hrel⟩

def straddlingCalls : List Act := [.spawn [], .call 0 (.malloc 4080), .call 0 (.malloc 4048)]

def straddled : St := exec (step Memory.board) Memory.bootState straddlingCalls

/-- the page behind that of 0x401000 is the last-level page table of the heap, and `set_next` clears the entry of
0x400000: a page of [heap_bottom, heap_top) is not mapped any more, and `do_exec` panics -/
theorem header_unmaps :
    Reach (step Memory.board) (fun _ _ => True) (Booted Memory.board) straddled ∧ straddled.life 0 = .live ∧
      InHeap (straddled.proc 0) 0x400 ∧ leafAt straddled 0 0x400 = none ∧
      (kernelAct Memory.board (.exec 0 [] []) straddled).map Prod.fst = .error (.panic "uvmunmap: not mapped") :=
  ⟨reach_decide straddlingCalls Memory.bootState (.init Memory.bootState_booted) (by decide +kernel),
    by decide +kernel, of_decide_eq_true (by decide +kernel), by decide +kernel, by decide +kernel⟩

/-! ## Frames -/

/-- **Ownership of frames.** In every run of orderly steps the frame of every entry is one that the process has a title
to: it is not in the free list, and, the trapframe and the trap vector apart, it lies in the memory of the page
allocator and the kernel does not keep it for a page table or anything else. A second entry for the frame, of the same
or of another process, exists for code, for the trap vector, and for a heap page at the same address of another process,
which is then read-only. -/
theorem frames_owned (h : Reach (step K) Orderly (Booted K) s) (ha : leafAt s p v = some a) :
    a.ppn ∉ s.free ∧ (a.kind ≠ .sys → K.start ≤ a.ppn ∧ a.ppn < K.stop ∧ s.kept a.ppn = none) ∧
      ∀ q w b, leafAt s q w = some b → b.ppn = a.ppn → (q, w) ≠ (p, v) →
        a.kind = .code ∨ a.kind = .sys ∨ a.kind = .heap ∧ w = v ∧ q ≠ p ∧ a.w = false := by
  have ho := ordered_reachable h
  have hf := ho.inv.frames
  have hspill := ho.noSpill p v a ha
  refine ⟨hf.notFree p v a ha hspill, fun hsys => ?_, fun q w b hb hppn hne => ?_⟩
  · obtain ⟨h1, h2⟩ := hf.inRange p v a ha hspill hsys
    exact ⟨h1, h2, hf.apart p v a ha hspill hsys⟩
  · exact hf.second ha hspill hb (ho.noSpill q w b hb) hppn hne

def sharedRun : St := exec (step Memory.board) Memory.bootState [.spawn [], .call 0 (.malloc 5000), .fork 0]

theorem sharedRun_reach : Reach (step Memory.board) Orderly (Booted Memory.board) sharedRun :=
  reach_decide _ Memory.bootState (.init Memory.bootState_booted) (by decide +kernel)

theorem frames_owned_sharedRun : ∃ a : Pte, leafAt sharedRun 0 0x401 = some a ∧ a.ppn ∉ sharedRun.free ∧
    sharedRun.kept a.ppn = none ∧ a.w = false := by
  have hheap : (leafAt sharedRun 0 0x401).map (·.kind) = some .heap := by decide +kernel
  obtain ⟨a, ha, hk⟩ := Option.map_eq_some_iff.1 hheap
  have hb : leafAt sharedRun 1 0x401 = leafAt sharedRun 0 0x401 := by decide +kernel
  obtain ⟨hfree, hown, hsecond⟩ := frames_owned sharedRun_reach ha
  have hro := hsecond 1 0x401 a (hb.trans ha) rfl (by decide)
  exact ⟨a, ha, hfree, (hown (by simp [hk])).2.2, by simpa [hk] using hro⟩

/-! ## Writable sharing -/

/-- an orderly step; and at a fork no live process may store to the code pages that it shares -/
def Separate (s : St) (act : Act) : Prop := Orderly s act ∧ Unwritable s (memory act)

/-- **No writable sharing.** In every run whose forks find the code pages of the parent unwritable for every live
process, and whose steps are orderly, no frame is mapped with PTE_U and PTE_W in the page tables of two different live
processes. -/
theorem no_writable_sharing (h : Reach (step K) Separate (Booted K) s) : NoWritableSharing s := by
  have key : Ordered K s ∧ Memory.Private s := by
    refine h.inv (P := fun s => Ordered K s ∧ Memory.Private s) (fun s hb => ⟨booted_ordered hb, hb.private⟩) ?_
    intro s act s' ⟨ho, hp⟩ ⟨hc, hu⟩ hst
    obtain ⟨r, hrun⟩ := step_run hst
    exact ⟨ordered_step ho hc hst, hp.step hc.titled hu fun q v a ha => act_origin ho.toLists hc hrun ha⟩
  exact key.2.noWritableSharing key.1.inv

theorem step_spawn {elf : List Phdr} : step K s (.spawn elf) = Memory.step K s (.spawn elf) := by
  show (·.2) <$> memoryOp K (.spawn elf) s = (·.2) <$> Memory.act K (.spawn elf) s
  unfold memoryOp
  show (·.2) <$> (Memory.act K (.spawn elf) s >>= fun rs => Except.ok (0, rs.2)) = _
  cases Memory.act K (.spawn elf) s <;> rfl

theorem loaded_eq : exec (step Memory.board) Memory.bootState [.spawn [Memory.codeHdr]] = Memory.loaded := by
  simp only [Memory.loaded, exec, step_spawn]

def forkedOnce : St := exec (step Memory.board) (exec (step Memory.board) Memory.loaded [.fork 0]) [.call 1 (.malloc 8)]

theorem no_writable_sharing_forkedOnce : forkedOnce.life 0 = .live ∧ forkedOnce.life 1 = .live ∧
    leafAt forkedOnce 1 0x10 = some ⟨Memory.CODE_FLAGS, 0x80145, .code⟩ ∧ NoWritableSharing forkedOnce := by
  have hr : Reach (step Memory.board) Separate (Booted Memory.board) Memory.loaded := by
    rw [← loaded_eq]
    exact (Reach.init Memory.bootState_booted).exec_step ⟨trivial, trivial⟩ (by decide +kernel)
  have hfork : Separate Memory.loaded (.fork 0) := ⟨of_decide_eq_true (by decide +kernel), Memory.loaded_unwritable⟩
  have hr1 := hr.exec_step hfork (by decide +kernel)
  have hcall : Separate (exec (step Memory.board) Memory.loaded [.fork 0]) (.call 1 (.malloc 8)) :=
    ⟨of_decide_eq_true (by decide +kernel), trivial⟩
  exact ⟨by decide +kernel, by decide +kernel, by decide +kernel,
    no_writable_sharing (hr1.exec_step hcall (by decide +kernel))⟩

def forkTwice : List Act := [.spawn [Memory.codeHdr], .fork 0, .fork 0]

def forkedTwice : St := exec (step Memory.board) Memory.bootState forkTwice

/-- two forks of one program: the children share its code page, and both may store to it -/
theorem writable_sharing_siblings :
    Reach (step Memory.board) (fun _ _ => True) (Booted Memory.board) forkedTwice ∧
      ¬ NoWritableSharing forkedTwice := by
  refine ⟨reach_decide forkTwice Memory.bootState (.init Memory.bootState_booted) (by decide +kernel), fun h => ?_⟩
  have h1 : leafAt forkedTwice 1 0x10 = some ⟨Memory.CODE_FLAGS, 0x80145, .code⟩ := by decide +kernel
  have h2 : leafAt forkedTwice 2 0x10 = some ⟨Memory.CODE_FLAGS, 0x80145, .code⟩ := by decide +kernel
  exact h 1 2 0x10 0x10 _ _ (by decide) (by decide +kernel) (by decide +kernel) h1 h2 rfl rfl rfl

end RiscvPke.Heap.PageTables
