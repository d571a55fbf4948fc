/-
The heap calls on the memory of the kernel. Every access to a header goes through `user_va_to_pa` to a physical page,
whoever else maps that page, and the fields of a header are looked for side by side there: of a header that does not lie
in one page the last ones are in the physical page that follows. If that is a last-level page table, a write to them is
a write to its entries. An access that ends in another page of the kernel, or in a free one, is not modelled
(`Stop.unmodelled`).
-/
import RiscvPke.Heap.Runs
import RiscvPke.Memory.Duplicate
import RiscvPke.Memory.Refinement

namespace RiscvPke.Heap

open Bytes Program Run Segment RiscvPke.System
open Memory (St Machine M Proc Pte Page Frames Space Unmaps Kind leafAt heapView offset pageOf HEAP_VPN
  growHeap modProc InHeap
  SameSpace Foreign userVaToPa lookupPa setLeaf userVmUnmap releaseHeap)

variable {K : Machine} {p q : Slot} {s s' s0 s1 : St} {t t' : Flat} {f : Field} {node v va n x : ℕ} {a b : Pte}
  {strict fails : Bool} {S : Stop → Prop} {F A l : List ℕ} {α : Type}

/-! ## The interface -/

def decodePte (word : ℕ) : Option Pte :=
  if word.testBit 0 then
    some
      { r := word.testBit 1
        w := word.testBit 2
        x := word.testBit 3
        u := word.testBit 4
        a := word.testBit 6
        d := word.testBit 7
        cow := word.testBit 8
        ppn := word / 2 ^ 10 % 2 ^ 52
        kind := .spill }
  else none

def tableEntry (s : St) (f : Field) (pa : ℕ) : Option (Slot × ℕ) :=
  match s.kept ((pa + f.offset) / PGSIZE) with
  | some (.table q t) =>
    if f.width = 8 ∧ (pa + f.offset) % 8 = 0 then some (q, t * 2 ^ 9 + (pa + f.offset) % PGSIZE / 8) else none
  | _ => none

def Strays (K : Machine) (s : St) (f : Field) (pa : ℕ) : Prop :=
  Foreign K s ((pa + f.offset) / PGSIZE) ∨ Foreign K s ((pa + f.offset + f.width - 1) / PGSIZE)

instance (K : Machine) (s : St) (f : Field) (pa : ℕ) : Decidable (Strays K s f pa) :=
  inferInstanceAs (Decidable (_ ∨ _))

def kernel (K : Machine) (p : Slot) : (c : Call) → StateT St Res (Ans c)
  | .get f node => do
    let s ← get
    let node_pa := userVaToPa (s.proc p) node
    if node_pa = 0 then throw .nullPointer
    else if Strays K s f node_pa then throw .unmodelled
    else return loadN s.mem (node_pa + f.offset) f.width
  | .set f node v => do
    let s ← get
    let node_pa := userVaToPa (s.proc p) node
    if node_pa = 0 then throw .nullPointer
    else match tableEntry s f node_pa with
      | some (q, vpn) => setLeaf q vpn (decodePte (v % 2 ^ 64))
      | none =>
        if Strays K s f node_pa then throw .unmodelled
        else set { s with mem := storeN s.mem (node_pa + f.offset) f.width v }
  | .freeList => return ((← get).proc p).free_list
  | .allocList => return ((← get).proc p).alloc_list
  | .setFreeList node => modProc p fun pr => { pr with free_list := node }
  | .setAllocList node => modProc p fun pr => { pr with alloc_list := node }
  | .heapTop => return ((← get).proc p).heap_top
  | .grow => growHeap p
  | .unmap va => userVmUnmap K p va PGSIZE true
  | .releaseHeap => releaseHeap K p []

/-! ## A heap in physical memory -/

/-- the heap pages of `p` that are mapped hold the bytes of `t` -/
structure Shadows (K : Machine) (p : Slot) (s : St) (t : Flat) : Prop where
  frames : Frames K s
  base : (s.proc p).heap_bottom = USER_FREE_ADDRESS_START
  bottom : t.heap_bottom = (s.proc p).heap_bottom
  top : t.heap_top = (s.proc p).heap_top
  kinds : ∀ v a, leafAt s p v = some a → (a.kind = .heap ↔ InHeap (s.proc p) v)
  bytes : ∀ va a, leafAt s p (va / PGSIZE) = some a → a.kind = .heap → t.mem va = s.mem (a.ppn * PGSIZE + va % PGSIZE)

/-- what others see of their heaps has not changed, and the page table of `p` has no entries but old ones and heap pages
-/
structure Beside (p : Slot) (s0 s : St) : Prop where
  life : s.life = s0.life
  others : ∀ q, q ≠ p → SameSpace (s0.proc q) (s.proc q)
  views : ∀ q, q ≠ p → ∀ v, heapView s q v = heapView s0 q v
  entries : ∀ v a, leafAt s p v = some a → leafAt s0 p v = some a ∨ ∃ f, a = ⟨Memory.DATA_FLAGS, f, .heap⟩

theorem Beside.trans (h1 : Beside p s0 s) (h2 : Beside p s s1) : Beside p s0 s1 :=
  ⟨h2.life.trans h1.life, fun q hq => (h1.others q hq).trans (h2.others q hq),
    fun q hq v => (h2.views q hq v).trans (h1.views q hq v), fun v a ha =>
      (h2.entries v a ha).elim (h1.entries v a) .inr⟩

theorem Shadows.inHeap (h : Shadows K p s t) (hn : t.HasHeader node) : InHeap (s.proc p) (node / PGSIZE) := by
  obtain ⟨h1, h2⟩ := hn
  rw [h.bottom] at h1
  rw [h.top] at h2
  have h3 := h.base
  refine ⟨?_, ?_⟩
  · grind
  · simp only [PGSIZE, PD] at *
    omega

theorem Shadows.pa (h : Shadows K p s t) (hn : t.HasHeader node) (h0 : userVaToPa (s.proc p) node ≠ 0) :
    ∃ a, leafAt s p (node / PGSIZE) = some a ∧ a.kind = .heap ∧
      userVaToPa (s.proc p) node = a.ppn * PGSIZE + node % PGSIZE := by
  have hl : lookupPa (s.proc p) node ≠ 0 := by
    intro hl
    rw [userVaToPa, if_pos hl] at h0
    exact h0 rfl
  cases ha : leafAt s p (node / PGSIZE) with
  | none =>
    rw [leafAt] at ha
    rw [lookupPa, ha] at hl
    split at hl <;> exact absurd rfl hl
  | some a =>
    refine ⟨a, rfl, (h.kinds _ a ha).2 (h.inHeap hn), ?_⟩
    rw [userVaToPa, if_neg hl, Memory.lookupPa_eq hl ha]

theorem field_inside : f.offset + f.width ≤ PD := by
  cases f <;> decide

theorem Shadows.owns (h : Shadows K p s t) (hn : t.HasHeader node) (hin : InPage node)
    (h0 : userVaToPa (s.proc p) node ≠ 0) {i : ℕ} (hi : i < PD) :
    ¬ Foreign K s ((userVaToPa (s.proc p) node + i) / PGSIZE) := by
  obtain ⟨a, ha, hk, hpa⟩ := h.pa hn h0
  have hin' : node % PGSIZE + PD ≤ PGSIZE := hin
  have hpage : (userVaToPa (s.proc p) node + i) / PGSIZE = a.ppn := by
    rw [hpa]
    simp only [PGSIZE, PD] at *
    omega
  rw [hpage]
  exact h.frames.not_foreign ha (by simp [hk]) (by simp [hk])

theorem Shadows.notEntry (h : Shadows K p s t) (hn : t.HasHeader node) (hin : InPage node)
    (h0 : userVaToPa (s.proc p) node ≠ 0) : tableEntry s f (userVaToPa (s.proc p) node) = none := by
  have hf := field_inside (f := f)
  have hw : 0 < f.width := by cases f <;> decide
  have hown := h.owns hn hin h0 (i := f.offset) (by omega)
  unfold tableEntry
  cases hkept : s.kept ((userVaToPa (s.proc p) node + f.offset) / PGSIZE) with
  | none => rfl
  | some k => exact absurd (.inr (.inr (.inr (by rw [hkept]; rfl)))) hown

theorem Shadows.get (h : Shadows K p s t) (hn : t.HasHeader node) (hin : InPage node) {r : ℕ}
    (hrun : kernel K p (.get f node) s = .ok (r, s')) : r = t.field f node ∧ s' = s := by
  rw [kernel, run_get_bind] at hrun
  obtain ⟨h0, hrun⟩ := run_guard hrun
  obtain ⟨-, hrun⟩ := run_guard hrun
  cases hrun
  obtain ⟨a, ha, hk, hpa⟩ := h.pa hn h0
  refine ⟨?_, rfl⟩
  rw [Flat.field, hpa]
  apply loadN_move
  intro i hi
  have hf := field_inside (f := f)
  have hin' : node % PGSIZE + PD ≤ PGSIZE := hin
  have hdiv : (node + f.offset + i) / PGSIZE = node / PGSIZE := by
    simp only [PGSIZE, PD] at *
    omega
  have hmod : (node + f.offset + i) % PGSIZE = node % PGSIZE + f.offset + i := by
    simp only [PGSIZE, PD] at *
    omega
  rw [h.bytes (node + f.offset + i) a (by rw [hdiv]; exact ha) hk, hmod]
  simp only [Nat.add_assoc]

/-! ## A process that shares no heap page -/

structure Follows (K : Machine) (p : Slot) (s0 s : St) (t : Flat) : Prop extends Shadows K p s t, Beside p s0 s where
  space : Space (s.proc p).total_mapped_region (s.proc p)
  own : ∀ v a, leafAt s p v = some a → a.kind = .heap → s.page_ref_count a.ppn = 1
  alloc : t.alloc_list = (s.proc p).alloc_list
  free : t.free_list = (s.proc p).free_list
  /-- growth by a page takes at most two pages for tables -/
  pages : 3 * t.pages ≤ s.free.length

theorem Follows.sole (h : Follows K p s0 s t) (ha : leafAt s p v = some a) (hk : a.kind = .heap)
    (hb : leafAt s q va = some b) (hbk : b.kind = .heap) (he : b.ppn = a.ppn) : (q, va) = (p, v) :=
  h.frames.eq_of_last ha (by simp [hk, Kind.counted]) (h.own v a ha hk).le hb (by simp [hbk]) he

theorem Follows.set (h : Follows K p s0 s t) (hn : t.HasHeader node) (hin : InPage node) {u : Unit}
    (hrun : kernel K p (.set f node v) s = .ok (u, s')) : Follows K p s0 s' (t.put f node v) := by
  rw [kernel, run_get_bind] at hrun
  obtain ⟨h0, hrun⟩ := run_guard hrun
  obtain ⟨a, ha, hk, hpa⟩ := h.pa hn h0
  rw [h.notEntry hn hin h0] at hrun
  obtain ⟨-, hrun⟩ := run_guard hrun
  cases hrun
  rw [hpa]
  have hf := field_inside (f := f)
  have hin' : node % PGSIZE + PD ≤ PGSIZE := hin
  -- the bytes that change are all in the frame of the header
  have hmem : ∀ b, b / PGSIZE ≠ a.ppn →
      storeN s.mem (a.ppn * PGSIZE + node % PGSIZE + f.offset) f.width v b = s.mem b := by
    intro b hb
    apply storeN_of_not
    intro hb'
    apply hb
    simp only [PGSIZE, PD] at *
    omega
  refine
    { h with
      frames := h.frames.congr (fun _ _ => rfl) rfl rfl rfl fun _ _ h => h
      bytes := ?_
      views := ?_ }
  · intro va b hb hbk
    by_cases hva : va / PGSIZE = node / PGSIZE
    · have hab : b = a := by
        have hb' : leafAt s p (va / PGSIZE) = some b := hb
        rw [hva, ha] at hb'
        cases hb'
        rfl
      subst hab
      refine storeN_move (h.bytes va b hb hbk) ?_
      simp only [PGSIZE] at *
      omega
    · have hne : b.ppn ≠ a.ppn := by
        intro he
        exact hva (Prod.mk.inj (h.sole ha hk (q := p) hb hbk he)).2
      show _ = storeN s.mem _ _ _ _
      rw [hmem _ (by simp only [PGSIZE]; omega), ← h.bytes va b hb hbk]
      apply storeN_of_not
      intro hb'
      apply hva
      simp only [PGSIZE, PD] at *
      omega
  · intro q hq w
    rw [← h.views q hq w]
    apply Memory.heapView_keep
    · exact fun _ => Iff.rfl
    · intro b hb hbk
      refine ⟨b, hb, rfl, fun x hx => hmem x ?_⟩
      rw [hx]
      intro he
      exact hq (Prod.mk.inj (h.sole ha hk hb hbk he)).1

variable {alloc free : ℕ}

theorem space_lists {pr : Proc} {t : ℕ} (h : Space t pr) :
    Space t { pr with free_list := free, alloc_list := alloc } where
  regions := { h.regions with }
  stack := ⟨h.stack.region, h.stack.mapped⟩
  heap := by
    obtain ⟨n, hn⟩ := h.heap
    exact ⟨n, { hn with }⟩

def withLists (s : St) (p : Slot) (free alloc : ℕ) : St :=
  { s with proc := Function.update s.proc p { s.proc p with free_list := free, alloc_list := alloc } }

theorem leafAt_withLists : leafAt (withLists s p free alloc) q v = leafAt s q v := by
  by_cases hq : q = p
  · subst hq
    simp [leafAt, withLists]
  · simp [leafAt, withLists, hq]

theorem withLists_self : (withLists s p free alloc).proc p =
    { s.proc p with free_list := free, alloc_list := alloc } := by
  simp [withLists]

theorem withLists_of_ne (hq : q ≠ p) : (withLists s p free alloc).proc q = s.proc q := by
  simp [withLists, hq]

theorem beside_withLists : Beside p s (withLists s p free alloc) where
  life := rfl
  others q hq := by
    rw [withLists_of_ne hq]
    exact .refl _
  views q hq v := by
    unfold heapView
    rw [leafAt_withLists]
    rfl
  entries v a ha := by
    rw [leafAt_withLists] at ha
    exact .inl ha

theorem frames_withLists (h : Frames K s) : Frames K (withLists s p free alloc) := by
  refine h.congr (fun _ _ => leafAt_withLists) rfl rfl rfl fun q v hq => ?_
  by_cases hqp : q = p
  · subst hqp
    rw [withLists_self]
    exact hq
  · rwa [withLists_of_ne hqp]

theorem Shadows.withLists (h : Shadows K p s t) :
    Shadows K p (withLists s p free alloc) { t with free_list := free, alloc_list := alloc } where
  frames := frames_withLists h.frames
  base := by
    rw [withLists_self]
    exact h.base
  bottom := by
    rw [withLists_self]
    exact h.bottom
  top := by
    rw [withLists_self]
    exact h.top
  kinds v a ha := by
    rw [leafAt_withLists] at ha
    rw [withLists_self]
    exact h.kinds v a ha
  bytes va a ha := by
    rw [leafAt_withLists] at ha
    exact h.bytes va a ha

theorem Follows.withLists (h : Follows K p s0 s t) :
    Follows K p s0 (withLists s p free alloc) { t with free_list := free, alloc_list := alloc } where
  toShadows := h.toShadows.withLists
  toBeside := h.toBeside.trans beside_withLists
  space := by
    rw [withLists_self]
    exact space_lists h.space
  own v a ha := by
    rw [leafAt_withLists] at ha
    exact h.own v a ha
  alloc := by rw [withLists_self]
  free := by rw [withLists_self]
  pages := h.pages

/-! ## Growth -/

theorem grow_takes {r : Bool} (h : growHeap p s = .ok (r, s')) (ha : (s.proc p).heap_top % PGSIZE = 0) :
    s.free.length ≤ s'.free.length + 3 := by
  rcases Memory.growHeap_parts h with ⟨-, rfl, -⟩ | ⟨-, f, s1, s2, -, hd, -, h2, rfl⟩
  · omega
  · have h1 := congrArg List.length hd.free
    rw [List.length_append, List.length_singleton] at h1
    have h3 : s1.free.length ≤ s2.free.length + 2 := Memory.takes_userVmMap ha _ _ _ h2
    show s.free.length ≤ s2.free.length + 3
    omega

theorem Follows.grow (h : Follows K p s0 s t) {r : Bool} (hrun : kernel K p .grow s = .ok (r, s')) :
    ∃ t', answer true .grow t r t' ∧ Follows K p s0 s' t' := by
  obtain ⟨n, hn⟩ := h.space.heap
  have htop : (s.proc p).heap_top % PGSIZE = 0 := by
    rw [hn.top]
    simp only [USER_FREE_ADDRESS_START, PGSIZE]
    omega
  have htake := grow_takes hrun htop
  have hpages := h.pages
  rcases Memory.growHeap_run (K := K) hrun h.space hn with ⟨hr, hs, hnil⟩ | ⟨hr, frame, hg⟩
  · rw [hr, hs]
    rw [hnil] at hpages
    simp only [List.length_nil] at hpages
    exact ⟨t, .inr ⟨rfl, rfl, by omega, rfl⟩, h⟩
  rw [hr]
  have hbound : t.heap_top = USER_FREE_ADDRESS_START + n * PGSIZE := h.top.trans hn.top
  have hvpn : t.heap_top = (HEAP_VPN + n) * PGSIZE := by
    rw [hbound]
    simp only [USER_FREE_ADDRESS_START, HEAP_VPN, PGSIZE]
    omega
  -- the heap after the call, with what is in the new page
  let t' : Flat :=
    { t with
      heap_top := t.heap_top + PGSIZE
      pages := t.pages - 1
      mem := fun b => if b / PGSIZE = HEAP_VPN + n then s'.mem (frame * PGSIZE + b % PGSIZE) else t.mem b }
  refine ⟨t', .inl ⟨rfl, ?_⟩, ?_⟩
  · refine ⟨?_, rfl, rfl, rfl, rfl, rfl, fun b hb => ?_⟩
    · have := hg.heap.le_span (hg.builds.frames h.frames)
      grind
    · grind
  · have hold : ∀ v a, leafAt s' p v = some a → v ≠ HEAP_VPN + n → leafAt s p v = some a :=
      fun v a ha hv => (hg.builds.new v a ha).resolve_right fun e => hv e.1
    have hnotFree : ∀ v a, leafAt s p v = some a → a.kind = .heap → a.ppn ∉ s.free :=
      fun v a ha hk => h.frames.notFree p v a ha (by simp [hk])
    exact
      { frames := hg.builds.frames h.frames
        base := hg.heap.bottom
        bottom := by
          rw [hg.heap.bottom, ← hn.bottom]
          exact h.bottom
        top := by
          rw [hg.heap.top]
          grind
        kinds := fun v a ha => by
          rw [hg.heap.inHeap, ← hg.heap.mapped v]
          constructor
          · intro hk
            exact ⟨a, ha, hk⟩
          · rintro ⟨b, hb, hbk⟩
            grind [leafAt]
        bytes := fun va a ha hk => by
          by_cases hva : va / PGSIZE = HEAP_VPN + n
          · have hab : a = ⟨Memory.DATA_FLAGS, frame, .heap⟩ := by
              have := hg.leaf.2
              rw [← hva, ha] at this
              exact Option.some.inj this
            grind
          · have ha' := hold _ a ha hva
            show (if va / PGSIZE = HEAP_VPN + n then _ else _) = _
            rw [if_neg hva, h.bytes va a ha' hk]
            symm
            apply hg.builds.mem
            grind
        life := hg.builds.life.trans h.life
        others := fun q hq => (h.others q hq).trans (hg.builds.others q hq)
        views := fun q hq v => by
          rw [← h.views q hq v]
          exact Memory.heapView_same h.frames ((hg.builds.others q hq).leaf_eq v) hg.builds.mem
        entries := fun v a ha => by
          rcases hg.builds.new v a ha with ho | ⟨-, e⟩
          · exact h.entries v a ho
          · exact .inr ⟨frame, e⟩
        space := hg.space
        own := fun v a ha hk => by
          by_cases hv : v = HEAP_VPN + n
          · have hw : a.w = true := by
              have := hg.leaf.2
              rw [← hv, ha] at this
              rw [Option.some.inj this]
              rfl
            exact (hg.builds.frames h.frames).sole p v a ha hk hw
          · have ha' := hold v a ha hv
            rw [hg.builds.ref a.ppn (hnotFree v a ha' hk)]
            exact h.own v a ha' hk
        alloc := by
          rw [hg.lists.1]
          exact h.alloc
        free := by
          rw [hg.lists.2]
          exact h.free
        pages := by
          show 3 * (t.pages - 1) ≤ _
          omega }

/-- **The kernel follows the device.** If the page tables and the memory hold the headers of the heap `t` of `p`, and no
page of that heap is shared, each call on the heap does in the kernel what it may do on `t`, and the pages hold the
headers of the new heap. -/
theorem kernel_follows (c : Call) {r : Ans c} (h : Follows K p s0 s t) (hok : (device true true).ok c t)
    (hrun : kernel K p c s = .ok (r, s')) : ∃ t', (device true true).answer c t r t' ∧ Follows K p s0 s' t' := by
  cases c with
  | get f node =>
    obtain ⟨hr, rfl⟩ := h.get hok.1 (hok.2 rfl) hrun
    exact ⟨t, ⟨hr, rfl⟩, h⟩
  | set f node v => exact ⟨_, rfl, h.set hok.1 (hok.2 rfl) hrun⟩
  | freeList =>
    cases hrun
    exact ⟨t, ⟨h.free.symm, rfl⟩, h⟩
  | allocList =>
    cases hrun
    exact ⟨t, ⟨h.alloc.symm, rfl⟩, h⟩
  | setFreeList node =>
    cases hrun
    refine ⟨_, rfl, ?_⟩
    have ht : t.setFree node = { t with free_list := node, alloc_list := (s.proc p).alloc_list } := by
      rw [← h.alloc]
      rfl
    rw [ht]
    exact h.withLists
  | setAllocList node =>
    cases hrun
    refine ⟨_, rfl, ?_⟩
    have ht : t.setAlloc node = { t with free_list := (s.proc p).free_list, alloc_list := node } := by
      rw [← h.free]
      rfl
    rw [ht]
    exact h.withLists
  | heapTop =>
    cases hrun
    exact ⟨t, ⟨h.top.symm, rfl⟩, h⟩
  | grow => exact h.grow hrun
  | unmap va => exact hok.elim
  | releaseHeap => exact hok.elim

/-- **A call of a process that shares no heap page** has an outcome that it could have with a heap of its own. -/
theorem call_follows {y : H α} {Q : α → Flat → Prop} (h : Follows K p s0 s t)
    (hwp : y.wp (device true true) S Q t) {r : α} (hrun : y.run (kernel K p) s = .ok (r, s')) :
    ∃ t', y.Exec (device true true) t r t' ∧ Follows K p s0 s' t' ∧ Q r t' :=
  simulate (fun c _ _ _ _ hf hok hc => kernel_follows c hf hok hc) h hwp hrun

/-! ## Exit: the blocks -/

theorem exitFrees_wp : ∀ (turns : ℕ) (A F : List ℕ) (t : Flat), A.length < turns → HeapOk strict t F A →
    (exitFrees turns).wp (device strict fails) S (fun _ t' => ∃ F', HeapOk strict t' F' []) t := by
  intro turns
  induction turns with
  | zero =>
    intro A F t hlen
    omega
  | succ turns ih =>
    intro A F t hlen h
    rw [exitFrees, wp_bind]
    apply wp_allocList
    cases A with
    | nil =>
      have h0 : t.alloc_list = 0 := h.lists.alloc
      rw [if_pos h0, wp_pure]
      exact ⟨F, h⟩
    | cons item A =>
      obtain ⟨hitem, h0, -⟩ := seg_cons.1 h.lists.alloc
      rw [if_neg (by rw [hitem]; exact h0), wp_bind, hitem]
      refine wp_mono (memFree_wp (fun hA => by simp at hA) (fun hA => absurd List.mem_cons_self hA) h) ?_
      intro _ t' ⟨F', A', hpost⟩
      refine ih A' F' t' ?_ hpost.ok
      have hsub : A' ⊆ A := by
        intro q hq
        obtain ⟨hq1, hq2⟩ := (hpost.rest q).1 hq
        exact (List.mem_cons.1 hq1).resolve_left hq2
      have := (List.subperm_of_subset hpost.ok.lists.alloc.nodup hsub).length_le
      simp only [List.length_cons] at hlen
      omega

theorem exitMerge_wp (h : HeapOk strict t F A) :
    exitMerge.wp (device strict fails) S (fun head t' => ∃ l, Seg (t'.field .next) head l 0 ∧ Nodes strict t' l) t := by
  have hlen := (h.lists.blocks.nodes.sub (List.subset_append_left A F)).length_lt h.lists.alloc.nodup
  rw [exitMerge, wp_bind]
  refine wp_mono (exitFrees_wp TURNS A F t hlen h) ?_
  intro _ t1 ⟨F1, h1⟩
  rw [wp_bind]
  apply wp_freeList
  rw [wp_bind]
  refine wp_mono (sortFreeListAscend_wp antisymm_pdFirstFitCmp h1.lists.blocks.nodes h1.lists.free) ?_
  intro head2 t2 ⟨l2, hs2, hk2, hr2⟩
  have hw2 : Wellformed strict t2 head2 0 l2 [] :=
    ⟨(hk2.merged hr2 h1.lists.blocks).blocks, hs2, rfl, by simp, by simp⟩
  rw [wp_bind]
  apply wp_setFreeList
  rw [wp_bind]
  apply wp_freeList
  rw [wp_bind]
  refine wp_mono (mergeFreeBlocks_wp antisymm_pdFirstFitCmp hw2.setFree.blocks hw2.setFree.free) ?_
  intro head3 t3 ⟨l3, hs3, hm3⟩
  have hw3 : Wellformed strict t3 head3 0 l3 [] := ⟨hm3.blocks, hs3, rfl, by simp, by simp⟩
  rw [wp_bind]
  apply wp_setFreeList
  apply wp_freeList
  exact ⟨l3, hw3.setFree.free, hw3.setFree.blocks.nodes⟩

/-! ## Exit: the pages -/

def leaving : Device Call Ans Flat where
  ok c t := match c with
    | .get _ node => Good true t node
    | .unmap va => Good true t va
    | .setFreeList _ => True
    | _ => False
  answer := answer true

theorem exitUnmaps_wp : ∀ (l : List ℕ) (turns item : ℕ) (t : Flat), l.length < turns → Seg (t.field .next) item l 0 →
    Nodes true t l → (exitUnmaps turns item).wp leaving S (fun _ _ => True) t := by
  intro l
  induction l with
  | nil =>
    intro turns item t hlen hs _
    obtain ⟨turns, rfl⟩ := Nat.exists_eq_succ_of_ne_zero (Nat.ne_of_gt hlen)
    obtain rfl : item = 0 := hs
    trivial
  | cons node l ih =>
    intro turns item t hlen hs hn
    obtain ⟨turns, rfl⟩ := Nat.exists_eq_succ_of_ne_zero (Nat.ne_zero_of_lt hlen)
    obtain ⟨rfl, h0, hs⟩ := seg_cons.1 hs
    have hgood := hn.good item List.mem_cons_self
    have hrest : (do
        ask (.setFreeList (t.field .next item))
        exitUnmaps turns (t.field .next item) : H Unit).wp leaving S (fun _ _ => True) t := by
      refine ⟨trivial, ?_⟩
      intro _ t' ht
      obtain rfl : t' = t.setFree _ := ht
      refine ih turns _ _ (by simp only [List.length_cons] at hlen; omega) (hs.congr fun _ _ => field_setFree) ?_
      exact ⟨(hn.sub (List.subset_cons_self _ _)).good, (hn.sub (List.subset_cons_self _ _)).spaced, hn.bottom, hn.top⟩
    rw [exitUnmaps, if_neg h0, wp_bind, getNext, getField, if_neg h0]
    refine ⟨hgood, ?_⟩
    rintro _ t1 ⟨hr1, ht1⟩
    rw [hr1, ht1, wp_ret, wp_bind, getSize, getField, if_neg h0]
    refine ⟨hgood, ?_⟩
    rintro size t2 ⟨_, ht2⟩
    rw [ht2, wp_ret]
    by_cases hc : (size + PD) % 2 ^ 64 ≤ PGSIZE
    · rw [if_pos hc, wp_bind]
      refine ⟨hgood, ?_⟩
      intro _ t3 ht3
      obtain rfl : t3 = t := ht3
      exact hrest
    · rw [if_neg hc]
      exact hrest

theorem unmaps_beside (hu : Unmaps K p s s') : Beside p s s' where
  life := hu.life
  others q hq := by
    rw [hu.others q hq]
    exact .refl _
  views q hq v := by
    have hl : leafAt s' q v = leafAt s q v := by rw [leafAt, hu.others q hq, leafAt]
    apply Memory.heapView_keep
    · intro k
      rw [hl]
    · intro b hb hbk
      exact ⟨b, hl.trans hb, rfl, hu.mem q v b (hl.trans hb) (by simp [hbk])⟩
  entries v a ha := .inl (hu.sub v a ha)

theorem Shadows.unmaps (h : Shadows K p s t) (hu : Unmaps K p s s') : Shadows K p s' t := by
  obtain ⟨lf, mi, hrest⟩ := hu.rest
  have hin : ∀ v, InHeap (s'.proc p) v ↔ InHeap (s.proc p) v := by
    intro v
    rw [hrest]
    rfl
  refine ⟨hu.frames, ?_, ?_, ?_, ?_, ?_⟩
  · rw [hrest]
    exact h.base
  · rw [hrest]
    exact h.bottom
  · rw [hrest]
    exact h.top
  · intro v a ha
    rw [hin]
    exact h.kinds v a (hu.sub v a ha)
  · intro va a ha hk
    rw [h.bytes va a (hu.sub _ a ha) hk]
    symm
    apply hu.mem p _ a ha (by simp [hk])
    simp only [PGSIZE]
    omega

/-- **Leaving.** The pages of an exiting process go one after the other; those that are left hold the headers. -/
theorem kernel_leaves (c : Call) {r : Ans c} (h : Shadows K p s t ∧ Beside p s0 s) (hok : leaving.ok c t)
    (hrun : kernel K p c s = .ok (r, s')) : ∃ t', leaving.answer c t r t' ∧ Shadows K p s' t' ∧ Beside p s0 s' := by
  cases c with
  | get f node =>
    obtain ⟨hr, rfl⟩ := h.1.get hok.1 (hok.2 rfl) hrun
    exact ⟨t, ⟨hr, rfl⟩, h⟩
  | unmap va =>
    have hu : Unmaps K p s s' := by
      have hheap := h.1.inHeap hok.1
      rw [kernel, userVmUnmap] at hrun
      obtain ⟨-, hrun⟩ := run_guard hrun
      refine (Memory.unmapPages_run hrun h.1.frames ?_).1
      intro v hv a ha
      rw [List.mem_range'_1] at hv
      have hvv : v = va / PGSIZE := by
        simp only [PGSIZE] at *
        omega
      rw [hvv] at ha
      show a.kind.counted = true
      rw [(h.1.kinds _ a ha).2 hheap]
      rfl
    exact ⟨t, rfl, h.1.unmaps hu, h.2.trans (unmaps_beside hu)⟩
  | setFreeList node =>
    cases hrun
    have hw : Shadows K p (withLists s p node (s.proc p).alloc_list)
      { t with free_list := node, alloc_list := (s.proc p).alloc_list } := h.1.withLists
    exact ⟨_, rfl, { hw with }, h.2.trans beside_withLists⟩
  | set f node v => exact hok.elim
  | freeList => exact hok.elim
  | allocList => exact hok.elim
  | setAllocList node => exact hok.elim
  | heapTop => exact hok.elim
  | grow => exact hok.elim
  | releaseHeap => exact hok.elim

/-- what exit leaves of a process -/
structure Left (K : Machine) (p : Slot) (s s' : St) : Prop extends Beside p s s' where
  frames : Frames K s'
  gone : ∀ v, InHeap (s'.proc p) v → leafAt s' p v = none
  kinds : ∀ v a, leafAt s' p v = some a → a.kind ≠ .heap

theorem exit_leaves (h : Follows K p s s t) (hok : HeapOk true t F A)
    (hrun : exitHeap.run (kernel K p) s = .ok ((), s')) :
    Left K p s s' := by
  obtain ⟨head, s1, h1, h2⟩ := run_seq.1 hrun
  obtain ⟨_, s2, h3, h4⟩ := run_seq.1 h2
  obtain ⟨t1, -, hf1, l, hs1, hn1⟩ := call_follows (S := fun _ => False) h (exitMerge_wp hok) h1
  obtain ⟨t2, -, ⟨hsh2, hb2⟩, -⟩ := simulate (S := fun _ => False) (R := fun s2 t2 => Shadows K p s2 t2 ∧ Beside p s s2)
    (fun c _ _ _ _ hr hok hc => kernel_leaves c hr hok hc) ⟨hf1.toShadows, hf1.toBeside⟩
    (exitUnmaps_wp l TURNS head t1 (hn1.length_lt hs1.nodup) hs1 hn1) h3
  obtain ⟨_, s3, h5, h6⟩ := run_bind.1 h4
  obtain ⟨-, rfl⟩ := run_pure.1 h6
  have hpages : ∀ v, v ∈ Memory.heapPages (s2.proc p) ↔ InHeap (s2.proc p) v := by
    intro v
    unfold Memory.heapPages InHeap
    rw [List.mem_range'_1, hsh2.base]
    simp only [USER_FREE_ADDRESS_START, PGSIZE]
    omega
  obtain ⟨hu, hgone⟩ := Memory.releaseHeap_run h5 hsh2.frames (fun v hv a ha => by
    rw [(hsh2.kinds v a ha).2 ((hpages v).1 hv)]
    rfl) (fun v hv => absurd hv List.not_mem_nil)
  have hsh := hsh2.unmaps hu
  obtain ⟨lf, mi, hrest⟩ := hu.rest
  have hin : ∀ v, InHeap (s3.proc p) v → leafAt s3 p v = none := by
    intro v hv
    rw [hrest] at hv
    exact hgone v ((hpages v).2 hv)
  refine { toBeside := hb2.trans (unmaps_beside hu), frames := hu.frames, gone := hin, kinds := fun v a ha hk => ?_ }
  rw [hin v ((hsh.kinds v a ha).1 hk)] at ha
  cases ha

end RiscvPke.Heap
