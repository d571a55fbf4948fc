/-
What one step of the machine does to the state: program start, heap growth, stores with their page faults, `do_exec` and
exit. (Forks are in `Memory.Fork`.) Each lemma inverts a successful run of one operation.
-/
import RiscvPke.Memory.Fork
import RiscvPke.Memory.Release

namespace RiscvPke.Memory

open Function Run

variable {K : Machine} {s s' s0 s1 s2 : St} {p q : Slot} {v w f g va : ℕ} {l m : List ℕ} {o : Option Pte} {a b : Pte}
  {N : ℕ → Pte → Prop} {t n i : ℕ}

/-! ## Program start -/

/-- a program has been started in the slot `p` -/
structure Spawned (K : Machine) (elf : List Phdr) (p : Slot) (s s' : St) : Prop where
  slot : s.life p = .free
  frames : Frames K s'
  life : s'.life = update s.life p .live
  others : ∀ q, q ≠ p → SameSpace (s.proc q) (s'.proc q)
  space : LoadOk 0 (s'.proc p)
  leaf : ∀ v a, leafAt s' p v = some a → BasePte v a ∨ LoadPte elf v a
  mem : ∀ b, b / PGSIZE ∉ s.free → s'.mem b = s.mem b

variable {elf : List Phdr}

theorem spawn_run (h1 : allocProcess K s = .ok (p, s1)) (h2 : elfLoad p elf s1 = .ok ((), s'))
    (hf : Frames K s) (hfree : Blank s) : Spawned K elf p s s' := by
  obtain ⟨hfirst, h1⟩ := allocProcess_run h1
  have hslot := freeSlot_free hfirst
  have ha := allocSpace_run h1 hf (hfree p hslot)
  obtain ⟨hr, hs, hh, -⟩ := ha.parts
  obtain ⟨hb, hl⟩ := elfLoad_run (K := K) h2 ⟨hr, hs, hh⟩
  refine
    { slot := hslot
      frames := hb.frames ha.frames
      life := hb.life.trans ha.life
      others := fun q hq => (ha.others q hq).trans (hb.others q hq)
      space := hl
      leaf := fun v a hv => ?_
      mem := fun b hb' => (hb.mem b fun hm => hb' (ha.free.subset hm)).trans (ha.mem b hb') }
  rcases hb.new v a hv with hv | hv
  · obtain ⟨tf, -, hg⟩ := ha.proc
    rcases hg.new v a hv with hv | hv
    · simp [newProc] at hv
    · exact .inl hv
  · exact .inr hv

/-! ## Heap growth -/

/-- the heap of `p` had `n` pages and has one more, on the frame `f` -/
structure Grown (K : Machine) (p : Slot) (n f : ℕ) (s s' : St) : Prop where
  builds : Builds K (fun v a => v = HEAP_VPN + n ∧ a = ⟨DATA_FLAGS, f, .heap⟩) p s s'
  head : s.free.head? = some f
  leaf : leafAt s p (HEAP_VPN + n) = none ∧ leafAt s' p (HEAP_VPN + n) = some ⟨DATA_FLAGS, f, .heap⟩
  heap : HeapOk (n + 1) (s'.proc p)
  lists : (s'.proc p).alloc_list = (s.proc p).alloc_list ∧ (s'.proc p).free_list = (s.proc p).free_list
  space : Space (s'.proc p).total_mapped_region (s'.proc p)
  bytes : Frames K s → ∀ b, b / PGSIZE = f → s'.mem b = s.mem b

def grownProc (pr : Proc) (top : ℕ) : Proc :=
  { pr with
    mapped_info := update pr.mapped_info 3
      { pr.mapped_info 3 with npages := ((pr.mapped_info 3).npages + 1) % 2 ^ 32 }
    heap_top := top + PGSIZE }

theorem growHeap_parts {r : Bool} (h : growHeap p s = .ok (r, s')) :
    (r = false ∧ s' = s ∧ s.free = []) ∨ r = true ∧ ∃ f s1 s2, s.free.head? = some f ∧ Draws [f] s s1 ∧
      (s1.mem = s.mem ∧ s1.kept = s.kept) ∧
      userVmMap p (s.proc p).heap_top PGSIZE f DATA_FLAGS .heap s1 = .ok ((), s2) ∧
      s' = { s2 with proc := update s2.proc p (grownProc (s2.proc p) (s.proc p).heap_top) } := by
  obtain ⟨r1, s1, h1, hx⟩ := run_bind.1 h
  rcases allocPage_run h1 with ⟨rfl, rfl, hnil⟩ | ⟨f, rfl, hhead, hd, hmem⟩
  · cases hx
    exact .inl ⟨rfl, rfl, hnil⟩
  · replace hx := of_get_bind hx
    obtain ⟨_, s2, h2, hx⟩ := run_bind.1 hx
    obtain ⟨_, s3, h3, hx⟩ := run_bind.1 hx
    cases hx
    have htop : (s1.proc p).heap_top = (s.proc p).heap_top := by
      obtain ⟨d, tb, -, -, e⟩ := hd.proc p
      rw [e]
    rw [htop] at h2 h3
    exact .inr ⟨rfl, f, s1, s2, hhead, hd, ⟨hmem, allocPage_kept h1⟩, h2, (run_modify.1 h3).symm⟩

theorem growHeap_run {r : Bool} (h : growHeap p s = .ok (r, s'))
    (hs : Space (s.proc p).total_mapped_region (s.proc p)) (hn : HeapOk n (s.proc p)) :
    (r = false ∧ s' = s ∧ s.free = []) ∨ r = true ∧ ∃ f, Grown K p n f s s' := by
  rcases growHeap_parts h with ⟨hr, rfl, hnil⟩ | ⟨hr, f, s1, s2, hhead, hd, ⟨hmem, hkept⟩, h2, rfl⟩
  · exact .inl ⟨hr, rfl, hnil⟩
  have htop : (s.proc p).heap_top % PGSIZE = 0 ∧ (s.proc p).heap_top / PGSIZE = HEAP_VPN + n := by
    rw [hn.top]
    simp only [HEAP_VPN, USER_FREE_ADDRESS_START, PGSIZE]
    omega
  have hm := userVmMap_page_run htop.1 h2
  rw [htop.2] at hm
  have hadds : Adds K (fun v a => v = HEAP_VPN + n ∧ a = ⟨DATA_FLAGS, f, .heap⟩) p s s2 :=
    hm.adds_fresh hd (by simp) hkept (by simp) ⟨fun _ => ⟨rfl, rfl, rfl⟩, fun e => absurd rfl e⟩ ⟨rfl, rfl⟩
  have hnone : leafAt s p (HEAP_VPN + n) = none := by
    rw [← hd.leaf_eq]
    exact hm.2.1
  have hself := hm.leafAt_self
  have hbound : (HEAP_VPN + n) * PGSIZE < MAXVA := hm.1
  obtain ⟨lf, d, tb, he⟩ := hadds.rest
  have hg := hadds.grows
  have hr2 := hg.regions hs.regions
  have hs2 := hg.stackOk hs.stack
  set pr := grownProc (s2.proc p) (s.proc p).heap_top with hpr
  have hleaf : ∀ q v, leafAt { s2 with proc := update s2.proc p pr } q v = leafAt s2 q v := by grind [leafAt, grownProc]
  have hproc : update s2.proc p pr p = pr := by simp
  have hother : ∀ k, k ≠ 3 → pr.mapped_info k = (s2.proc p).mapped_info k := by
    intro k hk
    simp [hpr, grownProc, hk]
  have hheap : HeapOk (n + 1) pr := by
    refine ⟨?_, ?_, ?_, fun v => ?_⟩
    · simp only [hpr, grownProc, he]
      exact hn.bottom
    · simp only [hpr, grownProc, hn.top, PGSIZE]
      omega
    · have h32 : n + 1 < 2 ^ 32 := by grind
      simp only [hpr, grownProc, he, update_self, hn.region, Nat.mod_eq_of_lt h32]
    · constructor
      · rintro ⟨a, ha, hk⟩
        rcases hadds.new v a ha with ha | ⟨rfl, -⟩
        · have := (hn.mapped v).1 ⟨a, ha, hk⟩
          omega
        · omega
      · intro hv
        by_cases hvn : v = HEAP_VPN + n
        · subst hvn
          exact ⟨_, hself, rfl⟩
        · exact hg.isKind ((hn.mapped v).2 ⟨hv.1, by omega⟩)
  refine .inr ⟨hr, f, ?_⟩
  exact
    { builds :=
        { hadds with
          frames := fun hf => (hadds.frames hf).congr hleaf rfl rfl rfl fun _ _ => hasTables_update rfl rfl
          others := fun q hq => by simpa [hq] using hadds.others q hq
          old := fun v a ha => (hleaf p v).trans (hadds.old v a ha)
          new := fun v a ha => hadds.new v a ((hleaf p v).symm.trans ha) }
      head := hhead
      leaf := ⟨hnone, (hleaf p _).trans hself⟩
      heap := by
        grind
      lists := by
        grind [grownProc]
      space := by
        show Space (update s2.proc p pr p).total_mapped_region (update s2.proc p pr p)
        rw [hproc]
        refine ⟨?_, ⟨by rw [hother 0 (by simp)]; exact hs2.region, hs2.mapped⟩, n + 1, hheap⟩
        have htot : pr.total_mapped_region = (s.proc p).total_mapped_region := by simp [hpr, grownProc, he]
        exact
          { context := by rw [hother 1 (by simp)]; exact hr2.context
            system := by rw [hother 2 (by simp)]; exact hr2.system
            total := htot ▸ hs.regions.total
            entry := fun k hk => by rw [hother k (by omega)]; exact hr2.entry k hk
            data := fun k v hk hd hc => by
              rw [hother k (by omega)] at hd hc
              exact hr2.data k v hk hd hc
            code := fun k v hk ht hd hc => by
              rw [hother k (by omega)] at hd hc
              exact hr2.code k v hk (htot ▸ ht) hd hc
            disjoint := fun j k v hj hk hc hc' => by
              rw [hother j (by omega)] at hc
              rw [hother k (by omega)] at hc'
              exact hr2.disjoint j k v hj hk hc hc' }
      bytes := fun hf b hb => by
        -- mapping the page takes other pages from the free list only
        obtain ⟨-, -, l, s3, hd3, -, rfl⟩ := hm
        rw [withLeaf_mem, hd3.mem_of_notMem, hmem]
        rw [hb]
        exact (hf.loose hd (List.mem_singleton_self f)).notFree }

/-! ## Stores and page faults -/

/-- the entry of a heap page after a copy-on-write fault -/
def Pte.own (a : Pte) (f : ℕ) : Pte := ⟨{ a.toFlags with cow := false, w := true }, f, a.kind⟩

/-- the copy-on-write branch of the fault handler for the heap page `v` of `p` -/
structure Breaks (K : Machine) (p : Slot) (v : ℕ) (a : Pte) (s s' : St) : Prop where
  leaf : leafAt s p v = some a ∧ a.kind = .heap
  frames : Frames K s'
  life : s'.life = s.life
  others : ∀ q, q ≠ p → SameSpace (s.proc q) (s'.proc q)
  rest : ∃ lf d tb, s'.proc p = { s.proc p with leaf := lf, dirs := d, tabs := tb }
  keep : ∀ w, w ≠ v → leafAt s' p w = leafAt s p w
  page : ∃ f, leafAt s' p v = some (a.own f) ∧ ∀ b, b / PGSIZE = f → s'.mem b = s.mem (a.ppn * PGSIZE + b % PGSIZE)
  mem : ∀ b, b / PGSIZE ∉ s.free → s'.mem b = s.mem b

theorem decPageRef_run (h : decPageRef K f s = .ok ((), s')) (hf : K.start ≤ f ∧ f < K.stop) :
    s' = { s with page_ref_count := update s.page_ref_count f (s.page_ref_count f - 1) } := by
  have := K.span
  unfold decPageRef at h
  rw [if_pos ⟨hf.1, by omega⟩] at h
  exact (run_modify.1 h).symm

theorem own_bits (hb : BitsOk a) (hk : a.kind = .heap) : BitsOk (a.own f) := by
  obtain ⟨hr, hu, -⟩ := hb.1 hk
  exact ⟨fun _ => ⟨hr, hu, rfl⟩, fun e => absurd hk e⟩

theorem withLeaf_withLeaf {o' : Option Pte} : (s.withLeaf p v o).withLeaf p v o' = s.withLeaf p v o' := by
  simp [St.withLeaf]

theorem unref_of_lt (h : 1 < s.page_ref_count f) :
    s.unref f = { s with page_ref_count := update s.page_ref_count f (s.page_ref_count f - 1) } := by
  rw [St.unref, if_pos h]

theorem breakCow_copy (hf : Frames K s) (hl : leafAt s p v = some a) (hk : a.kind = .heap) (hd : Draws [f] s s1)
    (hkept : s1.kept = s.kept) (hlt : 1 < s.page_ref_count a.ppn) :
    Frames K (({ s1 with page_ref_count := update s1.page_ref_count a.ppn (s1.page_ref_count a.ppn - 1) } :
      St).withLeaf p v (some (a.own f))) := by
  have hac : a.kind.counted = true := by simp [hk, Kind.counted]
  have hf1 := hf.draws hd
  have hl1 : leafAt s1 p v = some a := (hd.leaf_eq p v).trans hl
  have hloose := hf.loose hd (List.mem_singleton_self f)
  have hne : a.ppn ≠ f := hloose.unmapped p v a hl1 (by simp [hk])
  have hlt1 : 1 < s1.page_ref_count a.ppn := by
    rw [hd.ref a.ppn (by simpa using hne)]
    exact hlt
  -- the kernel's two changes are a release of the old page and a new entry for the copy
  have hf2 := hf1.release hl1 hac
  have hloose2 : Loose K ((s1.unref a.ppn).withLeaf p v none) f := by
    refine Loose.withLeaf ⟨hloose.range, ?_, fun q w b hb => ?_, ?_⟩ (by simp)
    · rw [unref_free_of_lt hlt1]
      exact hloose.notFree
    · rw [leafAt_unref] at hb
      exact hloose.unmapped q w b hb
    · rw [unref_ref_of_ne hne.symm]
      exact hloose.one
  have htab : HasTables (((s1.unref a.ppn).withLeaf p v none).proc p) v :=
    hasTables_withLeaf (by rw [unref_proc]; exact hf1.tables p v a hl1)
  have hnone : ((s1.unref a.ppn).withLeaf p v none).kept f = none := by
    rw [withLeaf_kept, unref_kept, hkept]
    exact hf.unkept f (hd.mem_free (List.mem_singleton_self f))
  have hf3 := hf2.add leafAt_withLeaf_self htab (.fresh (a := a.own f) hloose2 (by simp [Pte.own, hk]) (.inr hnone))
    (own_bits (hf.bits p v a hl) hk)
  rwa [withLeaf_withLeaf, unref_of_lt hlt1] at hf3

theorem breakCow_run (h : breakCow K p v a s = .ok ((), s')) (hf : Frames K s) (hl : leafAt s p v = some a)
    (hk : a.kind = .heap) : Breaks K p v a s s' := by
  have hac : a.kind.counted = true := by simp [hk, Kind.counted]
  have hrange := hf.inRange p v a hl (by simp [hk]) (by simp [hk])
  have hidx : hasIndex K a.ppn := ⟨hrange.1, by have := K.span; omega⟩
  replace h := of_get_bind h
  unfold getPageRef at h
  rw [if_pos hidx] at h
  split at h
  · rename_i hlt
    obtain ⟨f, s1, h1, h⟩ := run_bind.1 h
    obtain ⟨_, s2, h2, h⟩ := run_bind.1 h
    obtain ⟨_, s3, h3, h⟩ := run_bind.1 h
    obtain ⟨hd, hmem⟩ := allocPageUsed_run h1
    have hd2 := hd.copyPage (by simp) h2
    obtain rfl := decPageRef_run h3 hrange
    have hs' : s' = ({ s2 with page_ref_count := update s2.page_ref_count a.ppn (s2.page_ref_count a.ppn - 1) } :
      St).withLeaf p v (some (a.own f)) := (run_modify.1 h).symm
    subst hs'
    refine
      { leaf := ⟨hl, hk⟩
        frames := breakCow_copy hf hl hk hd2 ((copyPage_kept h2).trans (allocPageUsed_kept h1)) hlt
        life := hd2.life
        others := fun q hq => by
          rw [withLeaf_proc_of_ne hq]
          exact hd2.proc q
        rest := ?_
        keep := fun w hw => (leafAt_withLeaf_of_ne fun e => hw (Prod.mk.inj e).2).trans (hd2.leaf_eq p w)
        page := ⟨f, leafAt_withLeaf_self, fun b hb => ?_⟩
        mem := fun b hb => hd2.mem_of_notMem hb }
    · obtain ⟨d, tb, -, -, e⟩ := hd2.proc p
      grind [withLeaf_proc_self]
    · cases h2
      show copyBytes s1.mem f a.ppn b = _
      simp only [copyBytes, hb, if_true, hmem]
  · rename_i hle
    have hs' : s' = s.withLeaf p v (some (a.own a.ppn)) := (run_modify.1 h).symm
    subst hs'
    have hone : s.page_ref_count a.ppn = 1 := by
      have := (hf.count p v a hl hac).pos (countedAt_eq_some.2 ⟨a, hl, hac, rfl⟩)
      omega
    exact
      { leaf := ⟨hl, hk⟩
        frames := hf.reflag hl rfl rfl (own_bits (hf.bits p v a hl) hk) fun _ _ => hone
        life := rfl
        others := fun q hq => by
          rw [withLeaf_proc_of_ne hq]
          exact .refl _
        rest := ⟨_, _, _, withLeaf_proc_self⟩
        keep := fun w hw => leafAt_withLeaf_of_ne fun e => hw (Prod.mk.inj e).2
        page := ⟨a.ppn, leafAt_withLeaf_self, fun b hb => by
          rw [withLeaf_mem]
          congr 1
          simp only [PGSIZE] at *
          omega⟩
        mem := fun _ _ => rfl }

def StackPte (v w : ℕ) (a : Pte) : Prop := w = v ∧ a.toFlags = DATA_FLAGS ∧ (a.kind = .grown ∨ a.kind = .spill)

theorem growStack_run (h : growStack p va s = .ok ((), s')) :
    Adds K (StackPte (va / PGSIZE)) p s s' ∧ leafAt s p (va / PGSIZE) = none ∧
      (s.free ≠ [] → Adds K (fun w a => StackPte (va / PGSIZE) w a ∧ a.kind = .grown) p s s') := by
  obtain ⟨r, s1, h1, h⟩ := run_bind.1 h
  have hm := userVmMap_page_run (by simp [PGSIZE]) h
  rw [Nat.mul_div_cancel _ (by simp [PGSIZE])] at hm
  rcases allocPage_run h1 with ⟨rfl, rfl, hnil⟩ | ⟨f, rfl, -, hd, -⟩
  · refine ⟨hm.adds (fun _ => .spill rfl) (bitsOk_of rfl (by simp)) ⟨rfl, rfl, .inr rfl⟩, hm.2.1,
      fun hne => absurd hnil hne⟩
  · have hkept := allocPage_kept h1
    refine ⟨hm.adds_fresh hd (by simp) hkept (by simp) (bitsOk_of rfl (by simp)) ⟨rfl, rfl, .inl rfl⟩, ?_, fun _ =>
      hm.adds_fresh hd (by simp) hkept (by simp) (bitsOk_of rfl (by simp)) ⟨⟨rfl, rfl, .inl rfl⟩, rfl⟩⟩
    rw [← hd.leaf_eq]
    exact hm.2.1

/-- **The fault handler for stores** gives the process its own copy of a copy-on-write page, or maps a page for the
stack. -/
theorem handleUserPageFault_run {sp : ℕ} (h : handleUserPageFault K p sp va s = .ok ((), s')) (hf : Frames K s) :
    (∃ a, Breaks K p (va / PGSIZE) a s s') ∨ growStack p va s = .ok ((), s') := by
  obtain ⟨r, s1, h1, hx⟩ := run_bind.1 h
  rw [run_get_bind] at hx
  obtain ⟨rfl, -, hr⟩ := pageWalk_false_run h1
  have hgrow : handleUserPageFault.grow p sp va s1 = .ok ((), s') → growStack p va s1 = .ok ((), s') := by
    intro hx
    unfold handleUserPageFault.grow at hx
    split at hx
    · exact hx
    · cases hx
  cases hl : (s1.proc p).leaf (va / PGSIZE) with
  | none =>
    rw [hl, ite_self] at hx
    exact .inr (hgrow hx)
  | some a =>
    rw [hr (hf.tables p _ a hl), if_pos rfl, hl] at hx
    simp only at hx
    split at hx
    · rename_i hcow
      have hk : a.kind = .heap := by
        by_contra hk
        have := (hf.bits p _ a hl).2 hk
        rw [this] at hcow
        cases hcow
      exact .inl ⟨a, breakCow_run hx hf hl hk⟩
    · exact .inr (hgrow hx)

/-- a store through the entry `a` -/
structure Wrote (K : Machine) (p : Slot) (va : ℕ) (byte : UInt8) (a : Pte) (s s' : St) : Prop where
  leaf : leafAt s p (va / PGSIZE) = some a
  writable : a.u = true ∧ a.w = true
  own : ¬ Foreign K s a.ppn
  state : s' = { s with mem := update s.mem (a.ppn * PGSIZE + va % PGSIZE) byte }

theorem writeByte_run {byte : UInt8} {r : Bool} (h : writeByte K p va byte s = .ok (r, s')) :
    (r = false ∧ s' = s) ∨ r = true ∧ ∃ a, Wrote K p va byte a s s' := by
  replace h := of_get_bind h
  cases hp : storePte (s.proc p) va with
  | none =>
    rw [hp] at h
    cases h
    exact .inl ⟨rfl, rfl⟩
  | some a =>
    rw [hp] at h
    obtain ⟨hown, h⟩ := run_guard h
    obtain ⟨_, s1, h1, h⟩ := run_bind.1 h
    cases h
    unfold storePte at hp
    split at hp
    · cases hp
    · rw [Option.filter_eq_some_iff] at hp
      exact .inr ⟨rfl, a, hp.1, by simpa using hp.2, hown, (run_set.1 h1).symm⟩

/-- **A store of user code**: at most one page fault, and then the byte is written. -/
theorem userStore_run {sp : ℕ} {byte : UInt8} (h : userStore K p sp va byte s = .ok ((), s')) (hf : Frames K s) :
    ∃ s1 a, Wrote K p va byte a s1 s' ∧
      (s1 = s ∨ (∃ a', Breaks K p (va / PGSIZE) a' s s1) ∨ growStack p va s = .ok ((), s1)) := by
  obtain ⟨r, s1, h1, hx⟩ := run_bind.1 h
  grind [writeByte_run, handleUserPageFault_run]

/-! ## do_exec -/

variable {para : List UInt8}

theorem writeArgs_run (h : writeArgs p para s = .ok ((), s')) (hs : leafAt s p STACK_VPN = some a)
    (hr : a.r = true) : ∃ mem, s' = { s with mem := mem } ∧ ∀ b, b / PGSIZE ≠ a.ppn → mem b = s.mem b := by
  replace h := of_get_bind h
  -- an address in the stack page lies on the frame of the stack page
  have hpa : ∀ va, STACK_PAGE < va → va < USER_STACK_TOP → userVaToPa (s.proc p) va ≠ 0 →
      userVaToPa (s.proc p) va = a.ppn * PGSIZE + va % PGSIZE := by
    intro va h1 h2 h0
    have hvpn : va / PGSIZE = STACK_VPN := by
      simp only [STACK_VPN, STACK_PAGE, USER_STACK_TOP, PGSIZE] at *
      omega
    have hl : lookupPa (s.proc p) va = a.ppn :=
      lookupPa_of_leaf (by simp only [USER_STACK_TOP, MAXVA] at *; omega) (by rw [hvpn]; exact hs) hr
    unfold userVaToPa at h0 ⊢
    grind
  split at h
  · rename_i hc
    obtain ⟨-, h1, h2, h3, h4⟩ := hc
    cases h
    refine ⟨_, rfl, fun b hb => ?_⟩
    have hlt1 : USER_STACK_TOP - (para.length + 1 + 7) / 8 * 8 < USER_STACK_TOP := by
      omega
    have hlt2 : (USER_STACK_TOP - (para.length + 1 + 7) / 8 * 8 - 16) / 16 * 16 < USER_STACK_TOP := by
      omega
    rw [hpa _ h1 hlt1 h3, hpa _ h2 hlt2 h4]
    simp only [STACK_PAGE, USER_STACK_TOP, PGSIZE] at *
    rw [storeWord_other, storeWord_other, if_neg]
    · omega
    · simp only [PGSIZE]
      omega
    · simp only [PGSIZE]
      omega
    · simp only [PGSIZE]
      omega
    · simp only [PGSIZE]
      omega
  · cases h
    exact ⟨s.mem, rfl, fun _ _ => rfl⟩

theorem resetProc_regions {pr : Proc} (h : Regions t pr) : Regions t (resetProc pr) := by
  have hother : ∀ k, k ≠ 0 → k ≠ 3 → (resetProc pr).mapped_info k = pr.mapped_info k := by
    intro k h0 h3
    simp [resetProc, h0, h3]
  exact
    { context := by rw [hother 1 (by simp) (by simp)]; exact h.context
      system := by rw [hother 2 (by simp) (by simp)]; exact h.system
      total := le_refl 4
      entry := fun k hk => by rw [hother k (by omega) (by omega)]; exact h.entry k hk
      data := fun k v hk hd hc => by
        rw [hother k (by omega) (by omega)] at hd hc
        exact h.data k v hk hd hc
      code := fun k v hk ht hd hc => by
        rw [hother k (by omega) (by omega)] at hd hc
        exact h.code k v hk ht hd hc
      disjoint := fun j k v hj hk hc hc' => by
        rw [hother j (by omega) (by omega)] at hc
        rw [hother k (by omega) (by omega)] at hc'
        exact h.disjoint j k v hj hk hc hc' }

/-- the process `p` has a new program -/
structure Execed (K : Machine) (elf : List Phdr) (p : Slot) (s s' : St) : Prop where
  frames : Frames K s'
  life : s'.life = s.life
  others : ∀ q, q ≠ p → SameSpace (s.proc q) (s'.proc q)
  space : LoadOk 0 (s'.proc p)
  leaf : ∀ v a, leafAt s' p v = some a → leafAt s p v = some a ∨ BasePte v a ∨ LoadPte elf v a
  mem : ∀ q w b, q ≠ p → leafAt s q w = some b → b.kind = .heap → ∀ x, x / PGSIZE = b.ppn → s'.mem x = s.mem x

theorem Frames.stack_ne (hf : Frames K s) (ha : leafAt s p v = some a) (hk : a.kind = .stack)
    (hb : leafAt s q w = some b) (hbk : b.kind = .heap) : b.ppn ≠ a.ppn := by
  intro he
  have hne : (q, w) ≠ (p, v) := by grind
  have := (hf.excl q w b p v a hb ha (by simp [hbk]) (by simp [hk]) he hne).1
  rw [hbk, hk] at this
  cases this

def St.reset (s : St) (p : Slot) : St := { s with proc := update s.proc p (resetProc (s.proc p)) }

@[simp] theorem leafAt_reset : leafAt (s.reset p) q v = leafAt s q v := by
  by_cases hq : q = p
  · subst hq
    simp [leafAt, St.reset, resetProc]
  · simp [leafAt, St.reset, hq]

theorem doExec_stages (h : doExec K p elf para s = .ok ((), s')) :
    ∃ s1 page s2 s3 s5, (List.range (s.proc p).total_mapped_region).forM (dropRegion K p) s = .ok ((), s1) ∧
      allocPage s1 = .ok (page, s2) ∧
      userVmMap p STACK_PAGE PGSIZE (page.getD 0) (protToType true true false true)
        (if page.isSome then .stack else .spill) s2 =
        .ok ((), s3) ∧
      elfLoad p elf (s3.reset p) = .ok ((), s5) ∧ writeArgs p para s5 = .ok ((), s') := by
  replace h := of_get_bind h
  obtain ⟨_, s1, h1, h⟩ := run_bind.1 h
  obtain ⟨page, s2, h2, h⟩ := run_bind.1 h
  obtain ⟨_, s3, h3, h⟩ := run_bind.1 h
  obtain ⟨_, s4, h4, h⟩ := run_bind.1 h
  obtain ⟨_, s5, h5, h6⟩ := run_bind.1 h
  cases h4
  exact ⟨s1, page, s2, s3, s5, h1, h2, h3, h5, h6⟩

theorem exec_stack {page : Option ℕ} {s3 : St} (hu : Unmaps K p s s1) (hfree : s1.free ≠ [])
    (h2 : allocPage s1 = .ok (page, s2))
    (h3 : userVmMap p STACK_PAGE PGSIZE (page.getD 0) (protToType true true false true)
      (if page.isSome then .stack else .spill) s2 = .ok ((), s3)) :
    Adds K BasePte p s1 s3 ∧ Frames K (s3.reset p) ∧ ∃ f, leafAt s3 p STACK_VPN = some ⟨DATA_FLAGS, f, .stack⟩ := by
  rcases allocPage_run h2 with ⟨-, -, hnil⟩ | ⟨f, rfl, -, hd, -⟩
  · exact absurd hnil hfree
  have hm := userVmMap_page_run (by simp [STACK_PAGE, USER_STACK_TOP, PGSIZE]) h3
  have ha : Adds K BasePte p s1 s3 :=
    hm.adds_fresh hd (by simp) (allocPage_kept h2) (by simp) (bitsOk_of rfl (by simp)) (.inl ⟨rfl, rfl, rfl⟩)
  have hf3 : Frames K s3 := ha.frames hu.frames
  exact ⟨ha, hf3.congr (fun _ _ => leafAt_reset) rfl rfl rfl fun _ _ => hasTables_update rfl rfl, f, hm.leafAt_self⟩

theorem exec_loadOk {s3 : St} (hreg : Regions 0 (s1.proc p)) (hheap : ∀ v, ¬ IsKind .heap (leafAt s1 p v))
    (ha : Adds K BasePte p s1 s3) (hself : leafAt s3 p STACK_VPN = some ⟨DATA_FLAGS, f, .stack⟩) :
    LoadOk 0 ((s3.reset p).proc p) := by
  have hproc : (s3.reset p).proc p = resetProc (s3.proc p) := update_self _ _ _
  rw [hproc]
  refine ⟨resetProc_regions (ha.grows.regions hreg), ⟨by simp [resetProc], _, hself, rfl⟩,
    ⟨rfl, rfl, by simp [resetProc],
    fun v => ⟨?_, by omega⟩⟩⟩
  intro ⟨a, hv, hk⟩
  rcases ha.new v a hv with hv | ⟨-, hv, -⟩ | ⟨hv, -⟩
  · exact absurd ⟨a, hv, hk⟩ (hheap v)
  · rw [hv] at hk
    cases hk
  · rw [hv] at hk
    cases hk

/-- **`do_exec`** gives the process an empty heap and the pages of the new program; the heap pages of other processes
keep their bytes. -/
theorem doExec_run (h : doExec K p elf para s = .ok ((), s')) (hf : Frames K s)
    (hs : Space (s.proc p).total_mapped_region (s.proc p)) : Execed K elf p s s' := by
  obtain ⟨s1, page, s2, s3, s5, h1, h2, h3, h5, h6⟩ := doExec_stages h
  obtain ⟨hu, hreg, hstk, hfree, hheap⟩ := dropRegions_run h1 hf hs
  obtain ⟨ha, hf4, f, hself⟩ := exec_stack hu hfree h2 h3
  have hf3 : Frames K s3 := ha.frames hu.frames
  obtain ⟨hb, hl⟩ := elfLoad_run (K := K) h5 (exec_loadOk hreg hheap ha hself)
  have hstk5 : leafAt s5 p STACK_VPN = some ⟨DATA_FLAGS, f, .stack⟩ := hb.old _ _ (leafAt_reset.trans hself)
  have hf5 : Frames K s5 := hb.frames hf4
  obtain ⟨mem, rfl, hmem⟩ := writeArgs_run h6 hstk5 rfl
  have hothers : ∀ q, q ≠ p → SameSpace (s.proc q) (s5.proc q) := by
    intro q hq
    have h13 : SameSpace (s.proc q) (s3.proc q) := by
      rw [← hu.others q hq]
      exact ha.others q hq
    have h35 := hb.others q hq
    simp only [St.reset, update_of_ne hq] at h35
    exact h13.trans h35
  refine
    { frames := hf5.congr (fun _ _ => rfl) rfl rfl rfl fun _ _ h => h
      life := hb.life.trans (ha.life.trans hu.life)
      others := hothers
      space := hl
      leaf := fun v a hv => ?_
      mem := fun q w b hq hw hbk x hx => ?_ }
  · rcases hb.new v a hv with hv | hv
    · rcases ha.new v a (leafAt_reset.symm.trans hv) with hv | hv
      · exact .inl (hu.sub v a hv)
      · exact .inr (.inl hv)
    · exact .inr (.inr hv)
  · -- the page is on a frame that is never free, and never the stack page
    have hsp : ∀ {t : St}, SameSpace (s.proc q) (t.proc q) → leafAt t q w = some b := by
      intro t ht
      obtain ⟨d, tb, -, -, e⟩ := ht
      rw [leafAt, e]
      exact hw
    have hw1 : leafAt s1 q w = some b := by
      rw [leafAt, hu.others q hq]
      exact hw
    have hbs : b.kind ≠ .spill := by simp [hbk]
    have hw3 : leafAt s3 q w = some b := hsp (by rw [← hu.others q hq]; exact ha.others q hq)
    have hne := hf5.stack_ne hstk5 rfl (hsp (hothers q hq)) hbk
    calc mem x = s5.mem x := hmem x (by rw [hx]; exact hne)
      _ = s3.mem x := hb.mem x (by rw [hx]; exact hf3.notFree q w b hw3 hbs)
      _ = s1.mem x := ha.mem x (by rw [hx]; exact hu.frames.notFree q w b hw1 hbs)
      _ = s.mem x := hu.mem q w b hw1 hbs x hx

end RiscvPke.Memory
