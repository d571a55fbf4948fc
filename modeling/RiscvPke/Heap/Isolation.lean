/-
Heaps of parents and children: any number of processes, started, forked, replaced by `do_exec`, storing to their heaps,
allocating, releasing and exiting in any order.
-/
import RiscvPke.Heap.Kernel
import RiscvPke.Memory.Heads

namespace RiscvPke.Heap

open Function Bytes Program Run Segment RiscvPke.System
open Memory (St Machine M Proc Pte Phdr Inv Booted Frames Life leafAt heapView offset HEAP_VPN InHeap SameSpace userLoad
  HeapAddr inLife heads)

variable {K : Machine} {p q P C : Slot} {s s' s0 : St} {t t' u : Flat} {va n v : ℕ} {b : UInt8}
  {strict : Bool} {F A : List ℕ}

/-! ## Heaps that cannot be told apart -/

/-- the same bounds, lists and bytes -/
structure Agree (t t' : Flat) : Prop where
  bottom : t'.heap_bottom = t.heap_bottom
  top : t'.heap_top = t.heap_top
  alloc : t'.alloc_list = t.alloc_list
  free : t'.free_list = t.free_list
  mem : ∀ va, t.heap_bottom ≤ va → va < t.heap_top → t'.mem va = t.mem va

theorem Agree.refl : Agree t t := ⟨rfl, rfl, rfl, rfl, fun _ _ _ => rfl⟩

theorem Agree.field (h : Agree t t') {f : Field} {p : ℕ} (hp : t.HasHeader p) : t'.field f p = t.field f p := by
  obtain ⟨h1, h2⟩ := hp
  rw [Flat.field, Flat.field]
  apply loadN_congr
  intro b h3 h4
  have hf := field_inside (f := f)
  exact h.mem b (by omega) (by omega)

theorem HeapOk.agree (h : HeapOk strict t F A) (ha : Agree t t') : HeapOk strict t' F A := by
  refine ⟨?_, ?_, ?_⟩
  · rw [ha.free, ha.alloc]
    refine h.lists.grow ha.bottom ha.top.ge (by rw [ha.top]; exact h.lists.blocks.top) fun q hq f => ha.field ?_
    exact (h.lists.blocks.nodes.good q hq).1
  · rw [ha.top]
    exact h.top
  · rw [ha.bottom, ha.top]
    exact h.le

/-! ## The calls of processes -/

inductive Act where
  /-- a program that the kernel starts -/
  | spawn (elf : List Phdr)
  /-- `do_fork` or `do_fork_to_hart` -/
  | fork (parent : Slot)
  /-- a store instruction, with the stack pointer at that time -/
  | store (p : Slot) (sp va : ℕ) (b : UInt8)
  | exec (p : Slot) (elf : List Phdr) (para : List UInt8)
  /-- `do_wait` frees the slot of a zombie -/
  | reap (p : Slot)
  /-- `sys_user_allocate_mem`, `sys_user_free_mem` -/
  | call (p : Slot) (op : Op)
  /-- `sys_user_exit` -/
  | exit (p : Slot)

def memoryOp (K : Machine) (op : Memory.Op) : M ℕ := do
  Memory.act K op
  return 0

def asLive (p : Slot) (x : M ℕ) : M ℕ := do
  if (← get).life p = .live then x else throw .disabled

def kernelAct (K : Machine) : Act → M ℕ
  | .spawn elf => memoryOp K (.spawn elf)
  | .fork parent => memoryOp K (.fork parent)
  | .store p sp va b => memoryOp K (.store p sp va b)
  | .exec p elf para => memoryOp K (.exec p elf para)
  | .reap p => memoryOp K (.reap p)
  | .call p op => asLive p ((act op).run (kernel K p))
  | .exit p => asLive p do
    Memory.setLife p .zombie
    exitHeap.run (kernel K p)
    return 0

def heapOf (s : St) (p : Slot) : Flat where
  mem := fun va => (userLoad s p va).getD 0
  heap_bottom := (s.proc p).heap_bottom
  heap_top := (s.proc p).heap_top
  alloc_list := (s.proc p).alloc_list
  free_list := (s.proc p).free_list
  pages := s.free.length / 3

/-! ## The private machine -/

abbrev Heaps := Slot → Option Flat

/-- the heaps of the live processes -/
def heaps (s : St) : Heaps := fun p => if s.life p = .live then some (heapOf s p) else none

def Outcome (op : Op) (t : Flat) (r : ℕ) (t' : Flat) : Prop :=
  ∃ u u', Agree t u ∧ (act op).Exec (device true true) u r u' ∧ Agree u' t'

def Elsewhere (p : Slot) (h h' : Heaps) : Prop := ∀ q, q ≠ p → Option.Rel Agree (h q) (h' q)

/-- a step of the private machine, with what the call returns -/
inductive Private : Heaps → Act × ℕ → Heaps → Prop
  | spawn {h h' : Heaps} {elf : List Phdr} {C : Slot} {t : Flat} (hC : h C = none) (hC' : h' C = some t) (ht : Empty t)
      (ho : Elsewhere C h h') : Private h (.spawn elf, 0) h'
  | fork {h h' : Heaps} {P C : Slot} {t t' : Flat} (hP : h P = some t) (hC : h C = none) (hC' : h' C = some t')
      (ht : Agree t t') (ho : Elsewhere C h h') : Private h (.fork P, 0) h'
  | store {h h' : Heaps} {p : Slot} {sp va : ℕ} {b : UInt8} {t t' : Flat} (hp : h p = some t) (hp' : h' p = some t')
      (ht : Agree { t with mem := update t.mem va b } t') (ho : Elsewhere p h h') :
      Private h (.store p sp va b, 0) h'
  | exec {h h' : Heaps} {p : Slot} {elf : List Phdr} {para : List UInt8} {t : Flat} (hp' : h' p = some t) (ht : Empty t)
      (ho : Elsewhere p h h') : Private h (.exec p elf para, 0) h'
  | reap {h h' : Heaps} {p : Slot} (hp : h p = none) (hp' : h' p = none) (ho : Elsewhere p h h') :
    Private h (.reap p, 0) h'
  | call {h h' : Heaps} {p : Slot} {op : Op} {r : ℕ} {t t' : Flat} (hp : h p = some t) (hp' : h' p = some t')
      (ht : Outcome op t r t') (ho : Elsewhere p h h') : Private h (.call p op, r) h'
  | exit {h h' : Heaps} {p : Slot} (hp' : h' p = none) (ho : Elsewhere p h h') : Private h (.exit p, 0) h'

/-! ## The condition -/

def SharesNone (s : St) (p : Slot) : Prop :=
  ∀ v ∈ Memory.heapPages (s.proc p), ∀ a, leafAt s p v = some a → s.page_ref_count a.ppn = 1

/-- calls are made by processes that share no heap page, and their headers fit into pages; stores go to the heap and
spare the headers -/
def Unshared (s : St) : Act → Prop
  | .store p _ va _ => HeapAddr (s.proc p) va ∧ ∀ b ∈ blocks (heapOf s p), ¬ (b ≤ va ∧ va < b + PD)
  | .call p op => SharesNone s p ∧ WithinPages (heapOf s p) op
  | .exit p => SharesNone s p
  | _ => True

/-- what a run keeps: the lists of every process are well formed -/
structure Lists (K : Machine) (s : St) : Prop where
  inv : Inv K s
  ok : ∀ p, s.life p = .live → ∃ F A, HeapOk true (heapOf s p) F A

/-! ## What processes see -/

theorem heap_addr {pr : Proc} (hn : Memory.HeapOk n pr) (hv : HEAP_VPN ≤ va / PGSIZE ∧ va / PGSIZE < HEAP_VPN + n) :
    HeapAddr pr va := by
  unfold HeapAddr
  rw [hn.bottom, hn.top]
  simp only [HEAP_VPN, USER_FREE_ADDRESS_START, PGSIZE] at *
  omega

theorem load_heap {a : Pte} (hI : Inv K s) (ha : leafAt s p (va / PGSIZE) = some a) (hk : a.kind = .heap) :
    userLoad s p va = some (s.mem (a.ppn * PGSIZE + va % PGSIZE)) := by
  have hl : s.life p = .live := by
    by_contra hl
    exact hI.dead p hl _ a ha hk
  obtain ⟨n, hn⟩ := (hI.live p hl).heap
  obtain ⟨page, hview, hload⟩ := hI.load hl (heap_addr hn ((hn.mapped _).1 ⟨a, ha, hk⟩))
  rw [Memory.heapView_of_heap ha hk] at hview
  rw [hload, ← Option.some.inj hview]
  rfl

/-- the record of the heap manager -/
structure SameHeap (pr pr' : Proc) : Prop where
  bottom : pr'.heap_bottom = pr.heap_bottom
  top : pr'.heap_top = pr.heap_top
  alloc : pr'.alloc_list = pr.alloc_list
  free : pr'.free_list = pr.free_list

theorem sameHeap_of_space {pr pr' : Proc} (h : SameSpace pr pr') : SameHeap pr pr' := by
  obtain ⟨d, tb, -, -, rfl⟩ := h
  exact ⟨rfl, rfl, rfl, rfl⟩

theorem sameHeap_of_rest {pr pr' : Proc} (h : ∃ lf d tb, pr' = { pr with leaf := lf, dirs := d, tabs := tb }) :
    SameHeap pr pr' := by
  obtain ⟨lf, d, tb, rfl⟩ := h
  exact ⟨rfl, rfl, rfl, rfl⟩

theorem agree_of_views (hI : Inv K s) (hI' : Inv K s') (hl : s.life p = .live) (hl' : s'.life q = .live)
    (hsame : SameHeap (s.proc p) (s'.proc q)) (hv : ∀ v, heapView s' q v = heapView s p v) :
    Agree (heapOf s p) (heapOf s' q) where
  __ := hsame
  mem va h1 h2 := by
    have hva : HeapAddr (s.proc p) va := ⟨h1, h2⟩
    have hva' : HeapAddr (s'.proc q) va := by
      unfold HeapAddr
      rw [hsame.bottom, hsame.top]
      exact hva
    obtain ⟨page, hview, hload⟩ := hI.load hl hva
    obtain ⟨page', hview', hload'⟩ := hI'.load hl' hva'
    rw [hv, hview] at hview'
    show (userLoad s' q va).getD 0 = (userLoad s p va).getD 0
    rw [hload, hload', Option.some.inj hview']

theorem heaps_live (hl : s.life p = .live) : heaps s p = some (heapOf s p) := if_pos hl

theorem heaps_dead (hl : s.life p ≠ .live) : heaps s p = none := if_neg hl

/-- a step of `p` that leaves the other processes as they were -/
structure Spares (p : Slot) (s s' : St) : Prop where
  life : ∀ q, q ≠ p → s'.life q = s.life q
  agree : ∀ q, q ≠ p → s.life q = .live → Agree (heapOf s q) (heapOf s' q)

theorem spares_of_views (hI : Inv K s) (hI' : Inv K s') (hlife : ∀ q, q ≠ p → s'.life q = s.life q)
    (h : ∀ q, q ≠ p → SameHeap (s.proc q) (s'.proc q) ∧ ∀ v, heapView s' q v = heapView s q v) : Spares p s s' :=
  ⟨hlife, fun q hq hl => agree_of_views hI hI' hl ((hlife q hq).trans hl) (h q hq).1 (h q hq).2⟩

theorem Spares.elsewhere (ha : Spares p s s') : Elsewhere p (heaps s) (heaps s') := by
  intro q hq
  by_cases hl : s.life q = .live
  · rw [heaps_live hl, heaps_live ((ha.life q hq).trans hl)]
    exact .some (ha.agree q hq hl)
  · rw [heaps_dead hl, heaps_dead (by rwa [ha.life q hq])]
    exact .none

theorem Lists.others (h : Lists K s) (hI' : Inv K s') (ha : Spares p s s')
    (hp : s'.life p = .live → ∃ F A, HeapOk true (heapOf s' p) F A) : Lists K s' := by
  refine ⟨hI', fun q hq => ?_⟩
  by_cases hqp : q = p
  · subst hqp
    exact hp hq
  · have hl := (ha.life q hqp).symm.trans hq
    obtain ⟨F, A, hok⟩ := h.ok q hl
    exact ⟨F, A, hok.agree (ha.agree q hqp hl)⟩

/-! ## Allocation and release -/

theorem Lists.follows {l : Slot → Life} (h : Lists K s) (hl : s.life p = .live) (hs : SharesNone s p) :
    Follows K p { s with life := l } { s with life := l } (heapOf s p) := by
  obtain ⟨n, hn⟩ := (h.inv.live p hl).heap
  exact
    { frames := h.inv.frames.congr (fun _ _ => rfl) rfl rfl rfl fun _ _ h => h
      base := hn.bottom
      bottom := rfl
      top := rfl
      kinds := fun v a ha => by
        rw [hn.inHeap, ← hn.mapped v]
        constructor
        · intro hk
          exact ⟨a, ha, hk⟩
        · intro ⟨b, hb, hbk⟩
          grind [leafAt]
      bytes := fun va a ha hk => by
        show (userLoad s p va).getD 0 = _
        rw [load_heap h.inv ha hk]
        rfl
      life := rfl
      others := fun _ _ => .refl _
      views := fun _ _ _ => rfl
      entries := fun _ _ ha => .inl ha
      space := h.inv.live p hl
      own := fun v a ha hk => by
        refine hs v ?_ a ha
        rw [hn.heapPages, List.mem_range'_1]
        exact (hn.mapped v).1 ⟨a, ha, hk⟩
      alloc := rfl
      free := rfl
      pages := Nat.mul_div_le _ 3 }

theorem Follows.agree (h : Follows K p s0 s t) (hI : Inv K s) : Agree t (heapOf s p) where
  bottom := h.bottom.symm
  top := h.top.symm
  alloc := h.alloc.symm
  free := h.free.symm
  mem va h1 h2 := by
    obtain ⟨n, hn⟩ := h.space.heap
    have hva : HeapAddr (s.proc p) va := by
      rw [h.bottom] at h1
      rw [h.top] at h2
      exact ⟨h1, h2⟩
    obtain ⟨a, ha, hk⟩ := (hn.mapped _).2 (hn.heapAddr hva)
    show (userLoad s p va).getD 0 = _
    rw [load_heap hI ha hk, h.bytes va a ha hk]
    rfl

variable {r : ℕ}

theorem asLive_run {x : M ℕ} (h : asLive p x s = .ok (r, s')) : s.life p = .live ∧ x s = .ok (r, s') := by
  rw [asLive, run_get_bind] at h
  split_ifs at h with hl
  · exact ⟨hl, h⟩
  · cases h

theorem call_step {op : Op} (h : Lists K s) (hc : Unshared s (.call p op))
    (hrun : kernelAct K (.call p op) s = .ok (r, s')) :
    Lists K s' ∧ Private (heaps s) (.call p op, r) (heaps s') := by
  obtain ⟨hl, hx⟩ := asLive_run hrun
  obtain ⟨F, A, hok⟩ := h.ok p hl
  have hf : Follows K p s s (heapOf s p) := h.follows hl hc.1
  obtain ⟨t', he, hf', F', A', hok'⟩ :=
    call_follows hf (WithinPages.wp (S := fun _ => True) trivial (fun _ => trivial) hok hc.2) hx
  have hI' : Inv K s' := h.inv.running hf'.frames hl hf'.life hf'.others hf'.space
  have hsp := spares_of_views h.inv hI' (fun q _ => by rw [hf'.life]) fun q hq =>
    ⟨sameHeap_of_space (hf'.others q hq), hf'.views q hq⟩
  have hl' : s'.life p = .live := by rw [hf'.life, hl]
  refine ⟨h.others hI' hsp fun _ => ⟨F', A', hok'.agree (hf'.agree hI')⟩, ?_⟩
  exact .call (heaps_live hl) (heaps_live hl') ⟨_, t', .refl, he, hf'.agree hI'⟩ hsp.elsewhere

/-! ## Exit -/

theorem exit_step (h : Lists K s) (hc : Unshared s (.exit p)) (hrun : kernelAct K (.exit p) s = .ok (r, s')) :
    Lists K s' ∧ Private (heaps s) (.exit p, r) (heaps s') := by
  obtain ⟨hl, hx⟩ := asLive_run hrun
  obtain ⟨_, s1, h1, hx⟩ := run_bind.1 hx
  obtain ⟨_, s2, h2, hx⟩ := run_bind.1 hx
  obtain ⟨rfl, rfl⟩ := run_pure.1 hx
  obtain rfl := run_modify.1 h1
  obtain ⟨F, A, hok⟩ := h.ok p hl
  have hleft := exit_leaves (h.follows hl hc) hok h2
  have hlife : ∀ q, q ≠ p → s2.life q = s.life q := by
    intro q hq
    rw [hleft.life]
    exact update_of_ne hq _ _
  have hdead : s2.life p = .zombie := by
    rw [hleft.life]
    exact update_self _ _ _
  have hnot : s2.life p ≠ .live := by
    rw [hdead]
    simp
  have hI' : Inv K s2 := h.inv.others (· = p) hleft.frames (fun q hq => ⟨hleft.others q hq, hlife q hq⟩) fun q hq =>
    hq ▸ ⟨fun hz => absurd hz hnot, fun _ => hleft.gone, fun _ => hleft.kinds⟩
  have hsp := spares_of_views h.inv hI' hlife fun q hq => ⟨sameHeap_of_space (hleft.others q hq), hleft.views q hq⟩
  exact ⟨h.others hI' hsp fun hz => absurd hz hnot, .exit (heaps_dead hnot) hsp.elsewhere⟩

/-! ## The other steps -/

theorem memoryOp_run {op : Memory.Op} (h : memoryOp K op s = .ok (r, s')) :
    r = 0 ∧ Memory.act K op s = .ok ((), s') ∧ Memory.step K s op = .ok s' := by
  obtain ⟨_, s1, h1, h2⟩ := run_bind.1 h
  cases h2
  refine ⟨rfl, h1, ?_⟩
  rw [Memory.step, h1]
  rfl

theorem empty_heap (hn : Memory.HeapOk 0 (s.proc p)) (hh : heads p s = (0, 0)) : Empty (heapOf s p) := by
  obtain ⟨h1, h2⟩ := Prod.mk.inj hh
  refine ⟨hn.bottom, ?_, h1, h2⟩
  show (s.proc p).heap_top = _
  rw [hn.top]
  omega

theorem spawn_step {elf : List Phdr} (h : Lists K s) (hrun : kernelAct K (.spawn elf) s = .ok (r, s')) :
    Lists K s' ∧ Private (heaps s) (.spawn elf, r) (heaps s') := by
  obtain ⟨rfl, ha, hst⟩ := memoryOp_run hrun
  have hI' := Memory.inv_step h.inv hst
  obtain ⟨C, s1, h1, h2⟩ := run_bind.1 ha
  have hsp := Memory.spawn_run h1 h2 h.inv.frames h.inv.blank
  have hempty : Empty (heapOf s' C) := empty_heap hsp.space.heap (Memory.spawn_heads h1 h2)
  have hlife : ∀ q, q ≠ C → s'.life q = s.life q := fun q hq => by rw [hsp.life, update_of_ne hq]
  have hkeep := spares_of_views h.inv hI' hlife fun q hq =>
    ⟨sameHeap_of_space (hsp.others q hq),
      fun v => Memory.heapView_same h.inv.frames ((hsp.others q hq).leaf_eq v) hsp.mem⟩
  refine ⟨h.others hI' hkeep fun _ => ⟨[], [], hempty.ok⟩, ?_⟩
  exact .spawn (heaps_dead (by rw [hsp.slot]; simp)) (heaps_live (by rw [hsp.life, update_self])) hempty hkeep.elsewhere

theorem fork_step (h : Lists K s) (hrun : kernelAct K (.fork P) s = .ok (r, s')) :
    Lists K s' ∧ Private (heaps s) (.fork P, r) (heaps s') := by
  obtain ⟨rfl, ha, hst⟩ := memoryOp_run hrun
  have hI' := Memory.inv_step h.inv hst
  obtain ⟨hl, hx⟩ := Memory.inLife_run ha
  obtain ⟨C, s1, h1, h2⟩ := run_bind.1 hx
  obtain ⟨-, rfl⟩ := run_pure.1 h2
  have hfk := h.inv.forked hl h1 (Memory.forkPages_any _)
  have hlife : ∀ q, q ≠ C → s1.life q = s.life q := fun q hq => by rw [hfk.loop.life, update_of_ne hq]
  have hlC : s1.life C = .live := by rw [hfk.loop.life, update_self]
  -- the child's heap is the copy of its parent's
  obtain ⟨n, hn, hnC⟩ : ∃ n, Memory.HeapOk n (s.proc P) ∧ Memory.HeapOk n (s1.proc C) := by
    obtain ⟨h3, -⟩ | ⟨-, hs⟩ := hfk.loop.heap
    · have := (h.inv.live P hl).regions.total
      omega
    · exact hs.heap
  obtain ⟨hha, hhf⟩ := Prod.mk.inj (Memory.fork_heads h1 h.inv hl)
  have hsame : SameHeap (s.proc P) (s1.proc C) := ⟨by rw [hn.bottom, hnC.bottom], by rw [hn.top, hnC.top], hha, hhf⟩
  have hchild : Agree (heapOf s P) (heapOf s1 C) :=
    agree_of_views h.inv hI' hl hlC hsame fun v => (hfk.view h.inv hl).2
  have hsp := spares_of_views h.inv hI' hlife fun q hq => by
    by_cases hqP : q = P
    · subst hqP
      exact ⟨sameHeap_of_rest hfk.loop.parent.rest, fun v => (hfk.view h.inv hl).1⟩
    · have hsame := hfk.loop.others q hqP hq
      exact ⟨sameHeap_of_space hsame, fun v => Memory.heapView_same h.inv.frames (hsame.leaf_eq v) hfk.loop.mem⟩
  obtain ⟨F, A, hok⟩ := h.ok P hl
  refine ⟨h.others hI' hsp fun _ => ⟨F, A, hok.agree hchild⟩, ?_⟩
  exact .fork (heaps_live hl) (heaps_dead (by rw [hfk.slot]; simp)) (heaps_live hlC) hchild hsp.elsewhere

theorem exec_step {elf : List Phdr} {para : List UInt8} (h : Lists K s)
    (hrun : kernelAct K (.exec p elf para) s = .ok (r, s')) :
    Lists K s' ∧ Private (heaps s) (.exec p elf para, r) (heaps s') := by
  obtain ⟨rfl, ha, hst⟩ := memoryOp_run hrun
  have hI' := Memory.inv_step h.inv hst
  obtain ⟨hl, hx⟩ := Memory.inLife_run ha
  have he := Memory.doExec_run hx h.inv.frames (h.inv.live p hl)
  have hempty : Empty (heapOf s' p) := empty_heap he.space.heap (Memory.exec_heads hx)
  have hsp := spares_of_views h.inv hI' (p := p) (fun q _ => by rw [he.life]) fun q hq => by
    refine ⟨sameHeap_of_space (he.others q hq), fun v => ?_⟩
    have hleaf : leafAt s' q v = leafAt s q v := (he.others q hq).leaf_eq v
    apply Memory.heapView_keep
    · intro k
      rw [hleaf]
    · intro a ha hk
      exact ⟨a, hleaf.trans ha, rfl, he.mem q v a hq ha hk⟩
  refine ⟨h.others hI' hsp fun _ => ⟨[], [], hempty.ok⟩, ?_⟩
  exact .exec (heaps_live (by rw [he.life, hl])) hempty hsp.elsewhere

theorem reap_step (h : Lists K s) (hrun : kernelAct K (.reap p) s = .ok (r, s')) :
    Lists K s' ∧ Private (heaps s) (.reap p, r) (heaps s') := by
  obtain ⟨rfl, ha, hst⟩ := memoryOp_run hrun
  have hI' := Memory.inv_step h.inv hst
  obtain ⟨hl, hx⟩ := Memory.inLife_run ha
  cases hx
  have hsp : Spares p s { s with life := update s.life p .free } :=
    ⟨fun q hq => update_of_ne hq _ _, fun _ _ _ => .refl⟩
  refine ⟨h.others hI' hsp fun hz => by simp at hz, ?_⟩
  exact .reap (heaps_dead (by rw [hl]; simp)) (heaps_dead (by simp)) hsp.elsewhere

theorem HeapOk.store (h : HeapOk strict t F A) (hva : ∀ q ∈ A ++ F, ¬ (q ≤ va ∧ va < q + PD)) :
    HeapOk strict { t with mem := update t.mem va b } F A := by
  refine ⟨h.lists.grow rfl (le_refl _) h.lists.blocks.top fun q hq f => ?_, h.top, h.le⟩
  rw [Flat.field, Flat.field]
  apply loadN_congr
  intro x h1 h2
  apply update_of_ne
  rintro rfl
  have hf := field_inside (f := f)
  exact hva q hq ⟨by omega, by omega⟩

theorem fault_same {s1 : St} (h : s1 = s ∨ (∃ a', Memory.Breaks K p (va / PGSIZE) a' s s1) ∨
    Memory.growStack p va s = .ok ((), s1)) : s1.life = s.life ∧ ∀ q, SameHeap (s.proc q) (s1.proc q) := by
  have hproc : (∃ lf d tb, s1.proc p = { s.proc p with leaf := lf, dirs := d, tabs := tb }) →
      (∀ q, q ≠ p → SameSpace (s.proc q) (s1.proc q)) → ∀ q, SameHeap (s.proc q) (s1.proc q) := by
    grind [sameHeap_of_rest, sameHeap_of_space]
  rcases h with rfl | ⟨a', hb⟩ | hg
  · exact ⟨rfl, fun q => ⟨rfl, rfl, rfl, rfl⟩⟩
  · exact ⟨hb.life, hproc hb.rest hb.others⟩
  · obtain ⟨hadds, -, -⟩ := Memory.growStack_run (K := K) hg
    exact ⟨hadds.life, hproc hadds.rest hadds.others⟩

theorem offset_inj {x : ℕ} (hv : x / PGSIZE = va / PGSIZE) : offset x = offset va ↔ x = va := by
  constructor
  · intro h
    have : x % PGSIZE = va % PGSIZE := congrArg Fin.val h
    simp only [PGSIZE] at *
    omega
  · rintro rfl
    rfl

theorem store_step {sp : ℕ} (h : Lists K s) (hc : Unshared s (.store p sp va b))
    (hrun : kernelAct K (.store p sp va b) s = .ok (r, s')) :
    Lists K s' ∧ Private (heaps s) (.store p sp va b, r) (heaps s') := by
  obtain ⟨rfl, ha, hst⟩ := memoryOp_run hrun
  have hI' := Memory.inv_step h.inv hst
  cases Memory.step_effect h.inv hst with
  | @store _ _ _ _ s1 _ a hl h1 hw =>
    have hva1 := (Memory.fault_heapAddr h1).2 hc.1
    have hviews := Memory.fault_view h1 h.inv.frames
    obtain ⟨hlife1, hsame1⟩ := fault_same h1
    have hI1 := Memory.fault_inv h1 h.inv hl
    have hk : a.kind = .heap := by
      obtain ⟨n, hn⟩ := (hI1.live p (by rw [hlife1, hl])).heap
      obtain ⟨a', ha', hk'⟩ := (hn.mapped _).2 (hn.heapAddr hva1)
      have hleaf := hw.leaf
      rw [leafAt, ha'] at hleaf
      cases hleaf
      exact hk'
    have hlife : ∀ q, s'.life q = s.life q := by
      intro q
      rw [hw.state]
      exact congrFun hlife1 q
    have hsame : ∀ q, SameHeap (s.proc q) (s'.proc q) := by
      intro q
      rw [hw.state]
      exact hsame1 q
    have hview : ∀ q v, (q, v) ≠ (p, va / PGSIZE) → heapView s' q v = heapView s q v :=
      fun q v hne => (hw.view_of_ne hI1.frames hk hne).trans (hviews q v)
    have hsp := spares_of_views h.inv hI' (p := p) (fun q _ => hlife q) fun q hq =>
      ⟨hsame q, fun v => hview q v fun e => hq (Prod.mk.inj e).1⟩
    have hself : Agree { heapOf s p with mem := update (heapOf s p).mem va b } (heapOf s' p) := by
      refine ⟨(hsame p).bottom, (hsame p).top, (hsame p).alloc, (hsame p).free, fun x hx1 hx2 => ?_⟩
      have hx : HeapAddr (s.proc p) x := ⟨hx1, hx2⟩
      have hx' : HeapAddr (s'.proc p) x := by
        unfold HeapAddr
        rw [(hsame p).bottom, (hsame p).top]
        exact hx
      obtain ⟨page, hpage, hload⟩ := h.inv.load hl hx
      obtain ⟨page', hpage', hload'⟩ := hI'.load ((hlife p).trans hl) hx'
      have hbyte : (heapOf s' p).mem x = page' (offset x) := by
        show (userLoad s' p x).getD 0 = _
        rw [hload']
        rfl
      have hold : (heapOf s p).mem x = page (offset x) := by
        show (userLoad s p x).getD 0 = _
        rw [hload]
        rfl
      rw [hbyte]
      by_cases hv : x / PGSIZE = va / PGSIZE
      · rw [hv, hw.view_self hk] at hpage'
        rw [hv, ← hviews p, Memory.heapView_of_heap hw.leaf hk] at hpage
        rw [← Option.some.inj hpage', Option.some.inj hpage]
        by_cases hxva : x = va
        · rw [hxva]
          simp
        · grind [heapOf, offset_inj]
      · rw [hview p _ fun e => hv (Prod.mk.inj e).2, hpage] at hpage'
        grind
    obtain ⟨F, A, hok⟩ := h.ok p hl
    have hheaders : ∀ q ∈ A ++ F, ¬ (q ≤ va ∧ va < q + PD) := by
      have := hc.2
      rwa [blocks, hok.allocBlocks_eq, hok.freeBlocks_eq] at this
    refine ⟨h.others hI' hsp fun _ => ⟨F, A, (hok.store hheaders).agree hself⟩, ?_⟩
    exact .store (heaps_live hl) (heaps_live ((hlife p).trans hl)) hself hsp.elsewhere

/-! ## Isolation -/

/-- a step of the kernel that meets the condition -/
def KernelStep (K : Machine) (s : St) (l : Act × ℕ) (s' : St) : Prop :=
  Unshared s l.1 ∧ kernelAct K l.1 s = .ok (l.2, s')

theorem kernel_private {l : Act × ℕ} (h : Lists K s) (hs : KernelStep K s l s') :
    Lists K s' ∧ Private (heaps s) l (heaps s') := by
  obtain ⟨op, r⟩ := l
  obtain ⟨hc, hrun⟩ := hs
  cases op with
  | spawn elf => exact spawn_step h hrun
  | fork P => exact fork_step h hrun
  | store p sp va b => exact store_step h hc hrun
  | exec p elf para => exact exec_step h hrun
  | reap p => exact reap_step h hrun
  | call p op => exact call_step h hc hrun
  | exit p => exact exit_step h hc hrun

theorem booted_lists (h : Booted K s) : Lists K s :=
  ⟨h.inv, fun p hl => by rw [h.life p] at hl; cases hl⟩

/-- **Heap isolation.** Every run of the kernel whose calls are made by processes that share no heap page is a run of
the private machine: the same calls return the same results, and every process sees the heap that it would have with a
private copy. -/
theorem heap_isolation {ls : List (Act × ℕ)} (h0 : Booted K s) (h : Steps (KernelStep K) s ls s') :
    Steps Private (heaps s) ls (heaps s') :=
  h.refine (fun _ _ _ hl hs => kernel_private hl hs) (booted_lists h0)

instance (s : St) (p : Slot) : Decidable (SharesNone s p) := by
  unfold SharesNone
  exact List.decidableBAll _ _

instance (s : St) (op : Act) : Decidable (Unshared s op) := by
  cases op <;> unfold Unshared <;> infer_instance

def apartCalls : List Act :=
  [.spawn [], .call 0 (.malloc 8), .fork 0, .store 1 0 0x400018 7, .call 1 (.malloc 8), .call 0 (.malloc 16),
    .call 1 (.free 0x400018), .exit 0, .reap 0]

def apartTrail : List (Act × ℕ) × St :=
  trail (kernelAct Memory.board) (fun s op => decide (Unshared s op)) Memory.bootState apartCalls

theorem heap_isolation_apartCalls :
    apartTrail.1.map Prod.snd = [0, 0x400018, 0, 0, 0x400038, 0x400038, 0, 0, 0] ∧
      Steps Private (heaps Memory.bootState) apartTrail.1 (heaps apartTrail.2) :=
  ⟨by decide +kernel, heap_isolation Memory.bootState_booted
    (trail_steps (C := Unshared) (fun _ _ => of_decide_eq_true) apartCalls Memory.bootState)⟩

def AnyStep (K : Machine) (s : St) (l : Act × ℕ) (s' : St) : Prop := True ∧ kernelAct K l.1 s = .ok (l.2, s')

def anyTrail (s : St) (ops : List Act) : List (Act × ℕ) × St := trail (kernelAct Memory.board) (fun _ _ => true) s ops

theorem anyTrail_steps (s : St) (ops : List Act) :
    Steps (AnyStep Memory.board) s (anyTrail s ops).1 (anyTrail s ops).2 :=
  trail_steps (C := fun _ _ => True) (fun _ _ _ => trivial) ops s

def forked : St := (anyTrail Memory.bootState [.spawn [], .call 0 (.malloc 8), .fork 0]).2

def childCall : List (Act × ℕ) × St := anyTrail forked [.call 1 (.malloc 8)]

/-- the size of the free block of the parent was 4040 and is 8 now: the header was written through the shared page -/
theorem fork_shares_headers :
    Steps (AnyStep Memory.board) Memory.bootState
        (anyTrail Memory.bootState [.spawn [], .call 0 (.malloc 8), .fork 0]).1 forked ∧
      Steps (AnyStep Memory.board) forked childCall.1 childCall.2 ∧ childCall.1.map Prod.snd = [0x400038] ∧
      HeapAddr (forked.proc 0) 0x400028 ∧ userLoad forked 0 0x400028 = some 0xC8 ∧
      userLoad childCall.2 0 0x400028 = some 8 := by
  refine ⟨anyTrail_steps _ _, anyTrail_steps _ _, ?_, ?_, ?_, ?_⟩ <;> decide +kernel

end RiscvPke.Heap
