/-
Copy-on-write refines eager copying.
-/
import RiscvPke.Memory.Invariant

namespace RiscvPke.Memory

open Function Run RiscvPke.System

variable {K : Machine} {s s' s1 : St} {p q P C : Slot} {v w f va : ℕ} {a b : Pte} {n : ℕ} {op : Op}

/-! ## The reference machine -/

abbrev Page := Fin PGSIZE → UInt8

abbrev Heaps := Slot → List Page

inductive HeapOp where
  | grow (p : Slot) (page : Page)
  | fork (parent child : Slot)
  | store (p : Slot) (va : ℕ) (byte : UInt8)
  | release (p : Slot)
  | skip

/-- the offset of an address in its page -/
def offset (va : ℕ) : Fin PGSIZE := ⟨va % PGSIZE, Nat.mod_lt va (by decide)⟩

def eagerStep (h : Heaps) : HeapOp → Heaps
  | .grow p page => update h p (h p ++ [page])
  | .fork parent child => update h child (h parent)
  | .store p va byte =>
    update h p ((h p).modify (va / PGSIZE - HEAP_VPN) fun page => update page (offset va) byte)
  | .release p => update h p []
  | .skip => h

def pageAt (h : Heaps) (p : Slot) (v : ℕ) : Option Page := if HEAP_VPN ≤ v then (h p)[v - HEAP_VPN]? else none

def eagerLoad (h : Heaps) (p : Slot) (va : ℕ) : Option UInt8 := (pageAt h p (va / PGSIZE)).map fun page =>
    page (offset va)

section Eager

variable {h : Heaps} {l : List Page} {page : Page} {byte : UInt8}

theorem pageAt_of_ne (hq : q ≠ p) : pageAt (update h p l) q v = pageAt h q v := by
  simp [pageAt, hq]

theorem pageAt_nil : pageAt (update h p []) p v = none := by
  simp [pageAt]

theorem pageAt_copy : pageAt (update h C (h P)) C v = pageAt h P v := by
  simp [pageAt]

theorem pageAt_append (hv : v ≠ HEAP_VPN + (h p).length) : pageAt (update h p (h p ++ [page])) p v = pageAt h p v := by
  grind [pageAt]

theorem pageAt_append_self : pageAt (update h p (h p ++ [page])) p (HEAP_VPN + (h p).length) = some page := by
  simp [pageAt]

theorem pageAt_store_of_ne (hv : v ≠ va / PGSIZE) (hva : HEAP_VPN ≤ va / PGSIZE) :
    pageAt (eagerStep h (.store p va byte)) p v = pageAt h p v := by
  unfold pageAt
  split
  · simp only [eagerStep]
    rw [update_self, List.getElem?_modify_ne _ _ (by omega : va / PGSIZE - HEAP_VPN ≠ v - HEAP_VPN)]
  · rfl

theorem pageAt_store_self (hp : pageAt h p (va / PGSIZE) = some page) :
    pageAt (eagerStep h (.store p va byte)) p (va / PGSIZE) = some (update page (offset va) byte) := by
  unfold pageAt at *
  split at hp
  · rename_i hle
    simp only [eagerStep]
    rw [if_pos hle, update_self, List.getElem?_modify_eq, hp]
    rfl
  · cases hp

end Eager

/-! ## What a process sees of its heap -/

def pageOf (mem : ℕ → UInt8) (f : ℕ) : Page := fun i => mem (f * PGSIZE + i)

def heapView (s : St) (p : Slot) (v : ℕ) : Option Page :=
  (leafAt s p v).bind fun a => if a.kind = .heap then some (pageOf s.mem a.ppn) else none

theorem heapView_of_heap (ha : leafAt s p v = some a) (hk : a.kind = .heap) :
    heapView s p v = some (pageOf s.mem a.ppn) := by
  simp [heapView, ha, hk]

theorem heapView_of_not (h : ¬ IsKind .heap (leafAt s p v)) : heapView s p v = none := by
  unfold heapView
  cases ha : leafAt s p v with
  | none => rfl
  | some a => exact if_neg fun hk => h ⟨a, ha, hk⟩

theorem heapView_eq_none : heapView s p v = none ↔ ¬ IsKind .heap (leafAt s p v) := by
  refine ⟨fun h hk => ?_, heapView_of_not⟩
  obtain ⟨a, ha, hk⟩ := hk
  rw [heapView_of_heap ha hk] at h
  cases h

theorem pageOf_congr {mem mem' : ℕ → UInt8} {g : ℕ} (h : ∀ x, x / PGSIZE = f → mem' x = mem (g * PGSIZE + x % PGSIZE)) :
    pageOf mem' f = pageOf mem g := by
  funext i
  have hdiv : (f * PGSIZE + i) / PGSIZE = f := by
    simp only [PGSIZE] at *
    omega
  have hmod : (f * PGSIZE + i) % PGSIZE = i := by
    simp only [PGSIZE] at *
    omega
  rw [pageOf, h _ hdiv, hmod, pageOf]

theorem pageOf_same {mem mem' : ℕ → UInt8} (h : ∀ x, x / PGSIZE = f → mem' x = mem x) :
    pageOf mem' f = pageOf mem f := by
  apply pageOf_congr
  intro x hx
  rw [h x hx, ← hx]
  congr 1
  simp only [PGSIZE]
  omega

theorem heapView_keep (hkind : ∀ k, IsKind k (leafAt s' p v) ↔ IsKind k (leafAt s p v))
    (h : ∀ a, leafAt s p v = some a → a.kind = .heap →
      ∃ a', leafAt s' p v = some a' ∧ a'.ppn = a.ppn ∧ ∀ x, x / PGSIZE = a.ppn → s'.mem x = s.mem x) :
    heapView s' p v = heapView s p v := by
  grind [IsKind, leafAt, heapView_of_heap, pageOf_same, heapView_of_not]

theorem heapView_same (hf : Frames K s) (hl : leafAt s' p v = leafAt s p v)
    (hm : ∀ x, x / PGSIZE ∉ s.free → s'.mem x = s.mem x) : heapView s' p v = heapView s p v := by
  apply heapView_keep
  · intro k
    rw [hl]
  · intro a ha hk
    refine ⟨a, hl.trans ha, rfl, fun x hx => hm x ?_⟩
    rw [hx]
    exact hf.notFree p v a ha (by simp [hk])

theorem HeapOk.view (h : HeapOk n (s.proc p)) : heapView s p v = none ↔ ¬ (HEAP_VPN ≤ v ∧ v < HEAP_VPN + n) := by
  rw [heapView_eq_none, ← h.mapped v]
  rfl

theorem Inv.view_dead (hI : Inv K s) (hl : s.life p ≠ .live) : heapView s p v = none := by
  apply heapView_of_not
  intro hk
  obtain ⟨a, ha, hk⟩ := hk
  exact hI.dead p hl v a ha hk

theorem LoadOk.view (h : LoadOk 0 (s.proc p)) : heapView s p v = none := h.heap.view.2 (by omega)

/-! ## Forks and faults -/

theorem Forked.view {N : ℕ → Pte → Prop} (h : Forked K N P C s s') (hI : Inv K s) (hl : s.life P = .live) :
    heapView s' P v = heapView s P v ∧ heapView s' C v = heapView s P v := by
  have hP := hI.live P hl
  have hmem : ∀ a, leafAt s P v = some a → a.kind = .heap → ∀ x, x / PGSIZE = a.ppn → s'.mem x = s.mem x := by
    intro a ha hk x hx
    apply h.loop.mem
    rw [hx]
    exact hI.frames.notFree P v a ha (by simp [hk])
  obtain ⟨h3, -⟩ | ⟨-, hs⟩ := h.loop.heap
  · have := hP.regions.total
    omega
  obtain ⟨n, hn, hnC⟩ := hs.heap
  have hnP : HeapOk n (s'.proc P) := h.loop.parent.heapOk hn
  by_cases hv : HEAP_VPN ≤ v ∧ v < HEAP_VPN + n
  · obtain ⟨a, ha, hk⟩ := (hn.mapped v).2 hv
    obtain ⟨hC, hP'⟩ := hs.pages v a ha hk
    rw [heapView_of_heap hC hk, heapView_of_heap hP' hk, heapView_of_heap ha hk]
    have : pageOf s'.mem a.ppn = pageOf s.mem a.ppn := pageOf_same (hmem a ha hk)
    exact ⟨congrArg some this, congrArg some this⟩
  · rw [hnP.view.2 hv, hnC.view.2 hv, hn.view.2 hv]
    exact ⟨rfl, rfl⟩

theorem Breaks.view (h : Breaks K p w a s s') (hf : Frames K s) : heapView s' q v = heapView s q v := by
  by_cases hq : q = p
  · subst hq
    by_cases hv : v = w
    · subst hv
      obtain ⟨f, hl, hbytes⟩ := h.page
      rw [heapView_of_heap hl h.leaf.2, heapView_of_heap h.leaf.1 h.leaf.2]
      exact congrArg some (pageOf_congr hbytes)
    · exact heapView_same hf (h.keep v hv) h.mem
  · exact heapView_same hf ((h.others q hq).leaf_eq v) h.mem

theorem Wrote.view_self {byte : UInt8} (h : Wrote K p va byte a s s') (hk : a.kind = .heap) :
    heapView s' p (va / PGSIZE) = some (update (pageOf s.mem a.ppn) (offset va) byte) := by
  have hl : leafAt s' p (va / PGSIZE) = some a := by
    rw [h.state]
    exact h.leaf
  have hmem : s'.mem = update s.mem (a.ppn * PGSIZE + va % PGSIZE) byte := by rw [h.state]
  rw [heapView_of_heap hl hk, hmem]
  refine congrArg some (funext fun i => ?_)
  by_cases hio : i = offset va
  · subst hio
    simp [pageOf, offset]
  · rw [update_of_ne hio, pageOf, update_of_ne]
    · rfl
    · intro e
      apply hio
      apply Fin.ext
      show (i : ℕ) = va % PGSIZE
      omega

theorem Wrote.view_of_ne {byte : UInt8} (h : Wrote K p va byte a s s') (hf : Frames K s) (hk : a.kind = .heap)
    (hne : (q, v) ≠ (p, va / PGSIZE)) : heapView s' q v = heapView s q v := by
  have hl : leafAt s' q v = leafAt s q v := by
    rw [h.state]
    rfl
  apply heapView_keep
  · intro k
    rw [hl]
  · intro b hb hbk
    refine ⟨b, hl.trans hb, rfl, fun x hx => ?_⟩
    rw [h.state]
    apply update_of_ne
    intro e
    -- the frame would have a second entry, but a writable heap page has only one
    have hpp : b.ppn = a.ppn := by
      rw [← hx, e]
      simp only [PGSIZE]
      omega
    have hone := hf.sole p _ a h.leaf hk h.writable.2
    exact hne (hf.eq_of_last h.leaf (by simp [hk, Kind.counted]) hone.le hb (by simp [hbk]) hpp)

/-! ## The simulation -/

/-- the step of the reference machine that goes with a step of the kernel -/
def label (s : St) : Op → HeapOp
  | .spawn _ => .skip
  | .fork parent =>
    match freeSlot s with
    | some child => .fork parent child
    | none => .skip
  | .grow p =>
    match s.free with
    | f :: _ => .grow p (pageOf s.mem f)
    | [] => .skip
  | .store p _ va byte => .store p va byte
  | .exec p _ _ => .release p
  | .exit p _ => .release p
  | .reap _ => .skip

/-- the address lies in [heap_bottom, heap_top) -/
def HeapAddr (pr : Proc) (va : ℕ) : Prop := pr.heap_bottom ≤ va ∧ va < pr.heap_top

instance (pr : Proc) (va : ℕ) : Decidable (HeapAddr pr va) := inferInstanceAs (Decidable (_ ∧ _))

def HeapStores (s : St) : Op → Prop
  | .store p _ va _ => HeapAddr (s.proc p) va
  | _ => True

instance (s : St) (op : Op) : Decidable (HeapStores s op) := by
  cases op <;> unfold HeapStores <;> infer_instance

theorem HeapOk.heapAddr {pr : Proc} (h : HeapOk n pr) (hva : HeapAddr pr va) :
    HEAP_VPN ≤ va / PGSIZE ∧ va / PGSIZE < HEAP_VPN + n := by
  obtain ⟨h1, h2⟩ := hva
  rw [h.bottom] at h1
  rw [h.top] at h2
  simp only [HEAP_VPN, USER_FREE_ADDRESS_START, PGSIZE] at *
  omega

def Views (s : St) (h : Heaps) : Prop := ∀ p v, heapView s p v = pageAt h p v

variable {h : Heaps}

theorem Views.length (hV : Views s h) (hn : HeapOk n (s.proc p)) : (h p).length = n := by
  have key : ∀ i, i < (h p).length ↔ i < n := by
    intro i
    have hv := hV p (HEAP_VPN + i)
    have hnone := hn.view (v := HEAP_VPN + i)
    grind [pageAt]
  have h1 := key n
  have h2 := key (h p).length
  omega

theorem Views.same (hV : Views s h) (hs : ∀ q v, heapView s' q v = heapView s q v) : Views s' h :=
  fun q v => (hs q v).trans (hV q v)

theorem Views.update {l : List Page} (hV : Views s h) (hs : ∀ q, q ≠ p → ∀ v, heapView s' q v = heapView s q v)
    (hp : ∀ v, heapView s' p v = pageAt (update h p l) p v) : Views s' (update h p l) := by
  intro q v
  by_cases hq : q = p
  · subst hq
    exact hp v
  · rw [hs q hq v, hV q v, pageAt_of_ne hq]

theorem Grown.views (hg : Grown K p n f s s') (hf : Frames K s) (hn : HeapOk n (s.proc p)) (hV : Views s h) :
    Views s' (update h p (h p ++ [pageOf s.mem f])) := by
  have hlen := hV.length hn
  refine hV.update (fun q hq v => heapView_same hf ((hg.builds.others q hq).leaf_eq v) hg.builds.mem) fun v => ?_
  by_cases hv : v = HEAP_VPN + n
  · subst hv
    rw [← hlen, pageAt_append_self, hlen, heapView_of_heap hg.leaf.2 rfl]
    exact congrArg some (pageOf_same (hg.bytes hf))
  · rw [pageAt_append (by rwa [hlen]), ← hV p v]
    refine heapView_same hf ?_ hg.builds.mem
    cases hl : leafAt s p v with
    | some a => exact hg.builds.old v a hl
    | none =>
      cases hl' : leafAt s' p v with
      | none => rfl
      | some a =>
        rcases hg.builds.new v a hl' with e | e
        · rw [hl] at e
          cases e
        · exact absurd e.1 hv

theorem Wrote.views {byte : UInt8} (hw : Wrote K p va byte a s s') (hI : Inv K s) (hl : s.life p = .live)
    (hva : HeapAddr (s.proc p) va) (hV : Views s h) : Views s' (eagerStep h (.store p va byte)) := by
  obtain ⟨n, hn⟩ := (hI.live p hl).heap
  have hin := hn.heapAddr hva
  have hk : a.kind = .heap := by
    obtain ⟨b, hb, hbk⟩ := (hn.mapped _).2 hin
    have ha := hw.leaf
    rw [leafAt, hb] at ha
    cases ha
    exact hbk
  refine hV.update (fun q hq v => hw.view_of_ne hI.frames hk fun e => hq (Prod.mk.inj e).1) fun v => ?_
  by_cases hv : v = va / PGSIZE
  · subst hv
    rw [hw.view_self hk]
    exact (pageAt_store_self ((hV p _).symm.trans (heapView_of_heap hw.leaf hk))).symm
  · rw [hw.view_of_ne hI.frames hk fun e => hv (Prod.mk.inj e).2, hV p v]
    exact (pageAt_store_of_ne hv hin.1).symm

theorem fault_view (h1 : s1 = s ∨ (∃ a', Breaks K p (va / PGSIZE) a' s s1) ∨ growStack p va s = .ok ((), s1))
    (hf : Frames K s) (q : Slot) (v : ℕ) : heapView s1 q v = heapView s q v := by
  rcases h1 with rfl | ⟨a', hb⟩ | hg
  · rfl
  · exact hb.view hf
  · obtain ⟨hadds, -, -⟩ := growStack_run (K := K) hg
    by_cases hq : q = p
    · subst hq
      cases hs : leafAt s q v with
      | some b => exact heapView_same hf ((hadds.old v b hs).trans hs.symm) hadds.mem
      | none =>
        -- a page of the stack is no heap page
        have hno : ¬ IsKind .heap (leafAt s1 q v) := by
          rintro ⟨b, hb, hk⟩
          rcases hadds.new v b hb with ho | ⟨-, -, hk' | hk'⟩
          · cases hs.symm.trans ho
          · cases hk.symm.trans hk'
          · cases hk.symm.trans hk'
        rw [heapView_of_not hno, heapView_of_not (by rw [hs]; exact fun ⟨_, h, _⟩ => nomatch h)]
    · exact heapView_same hf ((hadds.others q hq).leaf_eq v) hadds.mem

theorem fault_heapAddr (h1 : s1 = s ∨ (∃ a', Breaks K p (va / PGSIZE) a' s s1) ∨ growStack p va s = .ok ((), s1))
    {x : ℕ} :
    HeapAddr (s1.proc p) x ↔ HeapAddr (s.proc p) x := by
  rcases h1 with rfl | ⟨a', hb⟩ | hg
  · rfl
  · obtain ⟨lf, d, tb, e⟩ := hb.rest
    rw [e]
    rfl
  · obtain ⟨lf, d, tb, e⟩ := (growStack_run (K := K) hg).1.rest
    rw [e]
    rfl

/-- **One step of both machines.** If every process sees the heap that the eager machine gives it, it does so after a
step of the kernel and the same step of that machine. -/
theorem Effect.views (he : Effect K s op s') (hI : Inv K s) (hc : HeapStores s op) (hV : Views s h) :
    Views s' (eagerStep h (label s op)) := by
  have hI' := he.inv hI
  cases he with
  | @spawn elf p _ he =>
    refine hV.same fun q v => ?_
    by_cases hq : q = p
    · subst hq
      rw [he.space.view, hI.view_dead (by rw [he.slot]; simp)]
    · exact heapView_same hI.frames ((he.others q hq).leaf_eq v) he.mem
  | @fork P C _ hl hrun =>
    have hfk := hI.forked hl hrun (forkPages_any _)
    have hlabel : label s (.fork P) = .fork P C := by
      rw [label, hfk.first]
    rw [hlabel]
    refine hV.update (p := C) (fun q hq v => ?_) fun v => ?_
    · by_cases hqP : q = P
      · subst hqP
        exact (hfk.view hI hl).1
      · exact heapView_same hI.frames ((hfk.loop.others q hqP hq).leaf_eq v) hfk.loop.mem
    · rw [(hfk.view hI hl).2, hV P v, pageAt_copy]
  | @full p hl hnil =>
    have hlabel : label s (.grow p) = .skip := by
      rw [label, hnil]
    rw [hlabel]
    exact hV
  | @grow p n f _ hl hn hg =>
    have hlabel : label s (.grow p) = .grow p (pageOf s.mem f) := by
      obtain ⟨rest, hfree⟩ := List.head?_eq_some_iff.1 hg.head
      rw [label, hfree]
    rw [hlabel]
    exact hg.views hI.frames hn hV
  | @store p sp va byte s1 _ a hl h1 hw =>
    have hl1 : s1.life p = .live := by rw [fault_life h1, hl]
    exact hw.views (fault_inv h1 hI hl) hl1 ((fault_heapAddr h1).2 hc) (hV.same (fault_view h1 hI.frames))
  | @exec p elf para _ hl he =>
    refine hV.update (fun q hq v => ?_) fun v => by rw [he.space.view, pageAt_nil]
    apply heapView_keep
    · intro k
      rw [leafAt, (he.others q hq).leaf_eq v, leafAt]
    · intro b hb hbk
      exact ⟨b, ((he.others q hq).leaf_eq v).trans hb, rfl, he.mem q v b hq hb hbk⟩
  | @exit p order _ hl hu hgone =>
    have hlife : s'.life = update s.life p .zombie := hu.life
    refine hV.update (fun q hq v => ?_) fun v => ?_
    · have hq' : leafAt s' q v = leafAt s q v := by
        rw [leafAt, hu.others q hq, leafAt]
      apply heapView_keep
      · intro k
        rw [hq']
      · intro b hb hbk
        exact ⟨b, hq'.trans hb, rfl, hu.mem q v b (hq'.trans hb) (by simp [hbk])⟩
    · rw [hI'.view_dead (by rw [hlife, update_self]; simp), pageAt_nil]
  | reap hl => exact hV

theorem Inv.load (hI : Inv K s) (hl : s.life p = .live) (hva : HeapAddr (s.proc p) va) :
    ∃ page, heapView s p (va / PGSIZE) = some page ∧ userLoad s p va = some (page (offset va)) := by
  obtain ⟨n, hn⟩ := (hI.live p hl).heap
  obtain ⟨a, ha, hk⟩ := (hn.mapped _).2 (hn.heapAddr hva)
  obtain ⟨hr, hu, -⟩ := (hI.frames.bits p _ a ha).1 hk
  refine ⟨_, heapView_of_heap ha hk, ?_⟩
  have hmax : ¬ MAXVA ≤ va := by
    have hspan := hn.le_span hI.frames
    have htop := hva.2
    rw [hn.top] at htop
    grind
  rw [userLoad, if_neg hmax, ha]
  simp [hr, hu, pageOf, offset]

/-- **Copy-on-write refines eager copying.** The kernel and the reference machine have taken the same run, in which user
code stores to heap addresses only. Then a load from any heap address of any live process succeeds and gives the byte
that the reference machine gives. -/
theorem cow_refines_eager (hrun : Paired (step K) HeapStores (Booted K) eagerStep label (fun _ => []) s h)
    (hl : s.life p = .live) (hva : HeapAddr (s.proc p) va) :
    ∃ byte, userLoad s p va = some byte ∧ eagerLoad h p va = some byte := by
  have hsim : Inv K s ∧ Views s h := by
    refine hrun.sim (R := fun s h => Inv K s ∧ Views s h) ?_ ?_
    · intro s hb
      have hI := hb.inv
      exact ⟨hI, fun p v => by rw [hI.view_dead (by rw [hb.life]; simp)]; simp [pageAt]⟩
    · intro s op s' h hR hc hs
      have he := step_effect hR.1 hs
      exact ⟨he.inv hR.1, he.views hR.1 hc hR.2⟩
  obtain ⟨page, hview, hload⟩ := hsim.1.load hl hva
  refine ⟨_, hload, ?_⟩
  rw [eagerLoad, ← hsim.2 p, hview]
  rfl

def divergeOps : List Op :=
  [.spawn [], .grow 0, .store 0 0 0x400008 1, .fork 0, .store 1 0 0x400008 2, .store 0 0 0x400008 3]

def diverged : St := exec (step board) bootState divergeOps

def divergedEager : Heaps := execRef (step board) eagerStep label bootState (fun _ => []) divergeOps

theorem cow_refines_eager_diverged :
    ∃ byte, userLoad diverged 1 0x400008 = some byte ∧ eagerLoad divergedEager 1 0x400008 = some byte :=
  cow_refines_eager (K := board)
    (exec_paired (c := fun s op => decide (HeapStores s op)) (fun _ _ hc => of_decide_eq_true hc) divergeOps bootState _
      (.init bootState_booted) (by decide +kernel))
    (by decide +kernel) (by decide +kernel)

end RiscvPke.Memory
