/-
The address space of a forked child (`do_fork`, `do_fork_to_hart`).
-/
import RiscvPke.Memory.Load

namespace RiscvPke.Memory

open Function Run

variable {K : Machine} {s s' s0 s1 s2 : St} {p q P C : Slot} {v w f g va : ℕ} {l m : List ℕ}
  {o : Option Pte} {a b : Pte}
  {N : ℕ → Pte → Prop} {t n i : ℕ}

/-! ## The parent -/

def Pte.protect (a : Pte) : Pte := ⟨{ a.toFlags with w := false, cow := true }, a.ppn, a.kind⟩

@[simp] theorem protect_kind : a.protect.kind = a.kind := rfl

/-- the parent during a fork: some heap pages have become read-only -/
structure Protects (pr pr' : Proc) : Prop where
  rest : ∃ lf d tb, pr' = { pr with leaf := lf, dirs := d, tabs := tb }
  leaf : ∀ v, pr'.leaf v = pr.leaf v ∨ ∃ a, pr.leaf v = some a ∧ a.kind = .heap ∧ pr'.leaf v = some a.protect

variable {pr pr' : Proc}

theorem Protects.of_same (h : SameSpace pr pr') : Protects pr pr' := by
  obtain ⟨d, tb, -, -, rfl⟩ := h
  exact ⟨⟨pr.leaf, d, tb, rfl⟩, fun _ => .inl rfl⟩

theorem Protects.trans {pr1 pr2 : Proc} (h1 : Protects pr pr1) (h2 : Protects pr1 pr2) : Protects pr pr2 where
  rest := by
    obtain ⟨lf, d, tb, rfl⟩ := h1.rest
    obtain ⟨lf', d', tb', rfl⟩ := h2.rest
    exact ⟨lf', d', tb', rfl⟩
  leaf v := by
    rcases h2.leaf v with e2 | ⟨b, hb, hbk, e2⟩
    · rw [e2]
      exact h1.leaf v
    · rcases h1.leaf v with e1 | ⟨a, ha, hak, e1⟩
      · exact .inr ⟨b, e1 ▸ hb, hbk, e2⟩
      · rw [e1] at hb
        cases hb
        exact .inr ⟨a, ha, hak, e2⟩

section

variable (h : Protects pr pr')

include h

theorem Protects.some_of_some (ha : pr.leaf v = some a) :
    ∃ a', pr'.leaf v = some a' ∧ a'.kind = a.kind ∧ a'.ppn = a.ppn ∧ a'.r = a.r ∧ a'.u = a.u ∧
      a'.protect = a.protect := by
  rcases h.leaf v with e | ⟨b, hb, -, e⟩
  · exact ⟨a, e.trans ha, rfl, rfl, rfl, rfl, rfl⟩
  · rw [ha] at hb
    cases hb
    exact ⟨a.protect, e, rfl, rfl, rfl, rfl, rfl⟩

theorem Protects.isKind {k : Kind} : IsKind k (pr'.leaf v) ↔ IsKind k (pr.leaf v) := by
  rcases h.leaf v with e | ⟨b, hb, -, e⟩
  · rw [e]
  · rw [e, hb]
    simp [IsKind]

theorem Protects.mapped_info : pr'.mapped_info = pr.mapped_info := by
  obtain ⟨lf, d, tb, rfl⟩ := h.rest
  rfl

theorem Protects.heapOk (hh : HeapOk n pr) : HeapOk n pr' :=
  hh.of_kinds h.rest fun _ => h.isKind

theorem Protects.space (hs : Space t pr) : Space t pr' :=
  hs.of_kinds h.rest fun _ _ => h.isKind

theorem Protects.lookupPa
    (hr : ∀ v a, pr.leaf v = some a → a.kind = .heap → a.r = true) : lookupPa pr' va = lookupPa pr va := by
  unfold Memory.lookupPa
  rcases h.leaf (va / PGSIZE) with e | ⟨b, hb, hbk, e⟩
  · rw [e]
  · have hbr := hr _ b hb hbk
    rw [e, hb]
    simp [Pte.protect, hbr]

theorem Protects.codeKind
    (hr : ∀ v a, pr.leaf v = some a → a.kind = .heap → a.r = true) : codeKind pr' va = codeKind pr va := by
  unfold Memory.codeKind
  rw [h.lookupPa hr]
  rcases h.leaf (va / PGSIZE) with e | ⟨b, hb, -, e⟩
  · rw [e]
  · rw [e, hb]
    rfl

end

/-! ## Heap pages -/

/-- heap pages of `P` have been shared with `C` -/
structure Shares (K : Machine) (P C : Slot) (s s' : St) : Prop where
  frames : Frames K s'
  life : s'.life = s.life
  free : s'.free <:+ s.free
  others : ∀ q, q ≠ P → q ≠ C → SameSpace (s.proc q) (s'.proc q)
  parent : Protects (s.proc P) (s'.proc P)
  rest : ∃ lf d tb, s'.proc C = { s.proc C with leaf := lf, dirs := d, tabs := tb }
  old : ∀ v a, leafAt s C v = some a → leafAt s' C v = some a
  new : ∀ v a, leafAt s' C v = some a → leafAt s C v = some a ∨
    ∃ b, leafAt s P v = some b ∧ b.kind = .heap ∧ a = b.protect
  mem : ∀ b, b / PGSIZE ∉ s.free → s'.mem b = s.mem b

theorem Shares.refl (h : Frames K s) : Shares K P C s s where
  frames := h
  life := rfl
  free := List.suffix_refl _
  others _ _ _ := .refl _
  parent := .of_same (.refl _)
  rest := ⟨_, _, _, rfl⟩
  old _ _ h := h
  new _ _ h := .inl h
  mem _ _ := rfl

theorem Shares.trans (h1 : Shares K P C s s1) (h2 : Shares K P C s1 s2) : Shares K P C s s2 where
  frames := h2.frames
  life := h2.life.trans h1.life
  free := h2.free.trans h1.free
  others q hP hC := (h1.others q hP hC).trans (h2.others q hP hC)
  parent := h1.parent.trans h2.parent
  rest := by
    obtain ⟨lf, d, tb, e1⟩ := h1.rest
    obtain ⟨lf', d', tb', e2⟩ := h2.rest
    exact ⟨lf', d', tb', by rw [e2, e1]⟩
  old v a h := h2.old v a (h1.old v a h)
  new v a h := by
    rcases h2.new v a h with h | ⟨b, hb, hbk, rfl⟩
    · exact h1.new v a h
    · rcases h1.parent.leaf v with e | ⟨c, hc, hck, e⟩
      · exact .inr ⟨b, e.symm.trans hb, hbk, rfl⟩
      · rw [leafAt, e] at hb
        cases hb
        exact .inr ⟨c, hc, hck, rfl⟩
  mem b hb := (h2.mem b fun hm => hb (h1.free.subset hm)).trans (h1.mem b hb)

theorem withLeaf_comm {o' : Option Pte} (h : p ≠ q) :
    (s.withLeaf p v o).withLeaf q w o' = (s.withLeaf q w o').withLeaf p v o := by
  simp only [St.withLeaf, update_of_ne h, update_of_ne h.symm]
  rw [update_comm h]

theorem incPageRef_run (h : incPageRef K f s = .ok ((), s')) (hf : K.start ≤ f ∧ f < K.stop) : s' = s.incRef f := by
  have := K.span
  unfold incPageRef at h
  rw [if_pos ⟨hf.1, by omega⟩] at h
  exact (run_modify.1 h).symm

theorem shareHeapPage_parts (h : shareHeapPage K P C v s = .ok ((), s')) (hf : Frames K s) (ha : leafAt s P v = some a)
    (hk : a.kind = .heap) :
    leafAt s C v = none ∧ ∃ l s1, Draws l s s1 ∧ HasTables (s1.proc C) v ∧
      s' = ((s1.incRef a.ppn).withLeaf C v (some a.protect)).withLeaf P v (some a.protect) := by
  obtain ⟨r, t1, h1, hx⟩ := run_bind.1 h
  obtain ⟨rfl, -, hr⟩ := pageWalk_false_run h1
  rw [Nat.mul_div_cancel v (by simp [PGSIZE])] at hr
  rw [hr (hf.tables P v a ha)] at hx
  replace hx := of_get_bind hx
  have ha' : (t1.proc P).leaf v = some a := ha
  rw [ha'] at hx
  obtain ⟨_, t2, h2, hx⟩ := run_bind.1 hx
  obtain ⟨_, t3, h3, hx⟩ := run_bind.1 hx
  obtain rfl := incPageRef_run h2 (hf.inRange P v a ha (by simp [hk]) (by simp [hk]))
  have hm := userVmMap_page_run (by simp [PGSIZE]) h3
  rw [Nat.mul_div_cancel v (by simp [PGSIZE])] at hm
  obtain ⟨-, hn, l, t4, hd, htab, rfl⟩ := hm
  obtain ⟨t5, hd5, rfl⟩ := hd.incRef (hf.notFree P v a ha (by simp [hk]))
  exact ⟨hn, l, t5, hd5, htab, (run_modify.1 hx).symm⟩

/-- **One heap page.** Parent and child map the frame that the parent had, read-only and marked as copy on write. -/
theorem shareHeapPage_run (h : shareHeapPage K P C v s = .ok ((), s')) (hf : Frames K s) (hne : C ≠ P)
    (ha : leafAt s P v = some a) (hk : a.kind = .heap) :
    Shares K P C s s' ∧ leafAt s' C v = some a.protect ∧ leafAt s' P v = some a.protect := by
  obtain ⟨hn, l, s1, hd, htab, rfl⟩ := shareHeapPage_parts h hf ha hk
  have hf1 := hf.draws hd
  have ha1 : leafAt s1 P v = some a := (hd.leaf_eq P v).trans ha
  have hbits : BitsOk a.protect := by
    obtain ⟨hr, hu, -⟩ := (hf.bits P v a ha).1 hk
    exact ⟨fun _ => ⟨hr, hu, rfl⟩, fun e => absurd hk e⟩
  have hf2 : Frames K (s1.withLeaf P v (some a.protect)) :=
    hf1.reflag ha1 rfl rfl hbits fun _ e => by simp [Pte.protect] at e
  have hCP : (C, v) ≠ (P, v) := fun e => hne (Prod.mk.inj e).1
  have hn2 : leafAt (s1.withLeaf P v (some a.protect)) C v = none := by
    rw [leafAt_withLeaf_of_ne hCP, hd.leaf_eq, hn]
  have hf3 := hf2.share (a := a.protect) leafAt_withLeaf_self hk rfl hne hn2 (hasTables_withLeaf htab)
  have hstate : ((s1.withLeaf P v (some a.protect)).incRef a.protect.ppn).withLeaf C v (some a.protect) =
      ((s1.incRef a.ppn).withLeaf C v (some a.protect)).withLeaf P v (some a.protect) := by
    rw [withLeaf_comm hne]
    rfl
  rw [hstate] at hf3
  refine ⟨?_, ?_, leafAt_withLeaf_self⟩
  · exact
      { frames := hf3
        life := hd.life
        free := ⟨l, hd.free.symm⟩
        others := fun q hP hC => by
          rw [withLeaf_proc_of_ne hP, withLeaf_proc_of_ne hC]
          exact hd.proc q
        parent := by
          obtain ⟨d, tb, -, -, e⟩ := hd.proc P
          have hPC : ((s1.incRef a.ppn).withLeaf C v (some a.protect)).proc P = s1.proc P :=
            withLeaf_proc_of_ne hne.symm
          rw [withLeaf_proc_self, hPC, e]
          refine ⟨⟨_, d, tb, rfl⟩, fun w => ?_⟩
          by_cases hw : w = v
          · subst hw
            exact .inr ⟨a, ha, hk, by simp⟩
          · exact .inl (by simp [hw])
        rest := by
          obtain ⟨d, tb, -, -, e⟩ := hd.proc C
          grind [withLeaf_proc_of_ne, withLeaf_proc_self, incRef_proc]
        old := fun w b hb => by
          have hw : (C, w) ≠ (C, v) := by grind
          rw [leafAt_withLeaf_of_ne (fun e => hne (Prod.mk.inj e).1), leafAt_withLeaf_of_ne hw]
          exact (hd.leaf_eq C w).trans hb
        new := fun w b hb => by
          rw [leafAt_withLeaf_of_ne (fun e => hne (Prod.mk.inj e).1)] at hb
          rcases leafAt_withLeaf_some hb with ⟨e, hb⟩ | ⟨-, hb⟩
          · grind
          · exact .inl ((hd.leaf_eq C w).symm.trans hb)
        mem := fun b hb => hd.mem b fun hm => hb (hd.mem_free hm) }
  · rw [leafAt_withLeaf_of_ne hCP, leafAt_withLeaf_self]

/-- **The heap.** So it is with every heap page of the parent. -/
theorem shareHeap_run (h : (heapPages (s.proc P)).forM (shareHeapPage K P C) s = .ok ((), s')) (hf : Frames K s)
    (hne : C ≠ P) (hh : HeapOk n (s.proc P)) :
    Shares K P C s s' ∧ ∀ v a, leafAt s P v = some a → a.kind = .heap →
      leafAt s' C v = some a.protect ∧ leafAt s' P v = some a.protect := by
  have hmem : ∀ v, v ∈ heapPages (s.proc P) ↔ IsKind .heap (leafAt s P v) := by
    intro v
    rw [hh.heapPages, List.mem_range'_1]
    exact (hh.mapped v).symm
  have key := run_each (Shares K P C s) (fun v s1 => ∀ a, leafAt s P v = some a →
    leafAt s1 C v = some a.protect ∧ leafAt s1 P v = some a.protect) ?_ (.refl hf) h
  · exact ⟨key.1, fun v a ha hk => key.2 v ((hmem v).2 ⟨a, ha, hk⟩) a ha⟩
  · intro x hx s1 s2 hs hrun
    obtain ⟨a, ha, hk⟩ := (hmem x).1 hx
    obtain ⟨a', ha', hk', -, -, -, hpro⟩ := hs.parent.some_of_some ha
    obtain ⟨hs2, hpage⟩ := shareHeapPage_run hrun hs.frames hne ha' (hk'.trans hk)
    rw [hpro] at hpage
    refine ⟨hs.trans hs2, fun b hb => ?_, fun v _ hv b hb => ?_⟩
    · cases ha.symm.trans hb
      exact hpage
    · obtain ⟨h1, h2⟩ := hv b hb
      refine ⟨hs2.old v _ h1, ?_⟩
      rcases hs2.parent.leaf v with e | ⟨c, hc, -, e⟩
      · exact e.trans h2
      · cases hc.symm.trans h2
        exact e

/-! ## Code and data pages -/

def PagePte (va : ℕ) (fl : Flags) (Q : Pte → Prop) (v : ℕ) (a : Pte) : Prop :=
  a.toFlags = fl ∧ (v = va / PGSIZE ∧ Q a ∨ va % PGSIZE ≠ 0 ∧ v = va / PGSIZE + 1 ∧ a.kind = .spill)

def IsCode (pr : Proc) (va : ℕ) (a : Pte) : Prop := a.kind = codeKind pr va ∧ a.ppn = lookupPa pr va

theorem codeKind_cases (pr : Proc) (va : ℕ) : codeKind pr va = .spill ∨ codeKind pr va = .code ∧
    ∃ a, pr.leaf (va / PGSIZE) = some a ∧ a.kind = .code ∧ a.ppn = lookupPa pr va := by
  unfold codeKind
  cases hl : pr.leaf (va / PGSIZE) with
  | none => exact .inl rfl
  | some a =>
    grind [lookupPa]

theorem codeKind_ne_heap : codeKind pr va ≠ .heap := by
  rcases codeKind_cases pr va with h | ⟨h, -⟩
  · rw [h]
    simp
  · rw [h]
    simp

variable {fl : Flags}

theorem codeKind_title : Title K s ⟨fl, lookupPa (s.proc P) va, codeKind (s.proc P) va⟩ := by
  rcases codeKind_cases (s.proc P) va with h | ⟨h, a, ha, hk, hp⟩
  · exact .spill h
  · exact .code h (p := P) ha hk hp

theorem bitsOk_of {k : Kind} (hc : fl.cow = false) (hk : k ≠ .heap) : BitsOk ⟨fl, f, k⟩ :=
  ⟨fun e => absurd e hk, fun _ => hc⟩

theorem mapPages_page_run {k : Kind} {r : Bool} (hc : fl.cow = false)
    (h : mapPages p va PGSIZE f fl k s = .ok (r, s')) :
    (r = false ∧ ∃ l, Draws l s s') ∨
      ∃ s1, Mapped s p (va / PGSIZE) ⟨fl, f, k⟩ s1 ∧ Adds K (PagePte va fl fun _ => False) p s1 s' := by
  by_cases hal : va % PGSIZE = 0
  · rw [mapPages_aligned hal] at h
    rcases mapLoop_one_run h with ⟨hr, -, hd⟩ | ⟨-, hm⟩
    · exact .inl ⟨hr, hd⟩
    · exact .inr ⟨s', hm, .refl⟩
  · rw [mapPages_unaligned hal] at h
    rcases mapLoop_succ_run h with ⟨hr, -, hd⟩ | ⟨s1, hm, h1⟩
    · exact .inl ⟨hr, hd⟩
    · refine .inr ⟨s1, hm, ?_⟩
      rcases mapLoop_one_run h1 with ⟨-, -, l, hd⟩ | ⟨-, hm'⟩
      · exact hd.adds
      · exact hm'.adds (fun _ => .spill rfl) (bitsOk_of hc (by simp)) ⟨rfl, .inr ⟨hal, rfl, rfl⟩⟩

theorem PagePte.weaken {Q : Pte → Prop} (h : PagePte va fl (fun _ => False) v a) : PagePte va fl Q v a :=
  ⟨h.1, .inr (h.2.resolve_left fun h => h.2)⟩

/-- **One page of a CODE region** goes to the child on the frame of the parent, with all permissions; if its address
is not aligned, the page behind it too, on the next frame. -/
theorem shareCodePage_run (h : shareCodePage P C va s = .ok ((), s')) :
    Adds K (PagePte va CODE_FLAGS (IsCode (s.proc P) va)) C s s' := by
  replace h := of_get_bind h
  obtain ⟨r, s1, h1, h⟩ := run_bind.1 h
  cases h
  rcases mapPages_page_run (K := K) rfl h1 with ⟨-, l, hd⟩ | ⟨s2, hm, hadds⟩
  · exact hd.adds
  · have hfirst : Adds K (PagePte va CODE_FLAGS (IsCode (s.proc P) va)) C s s2 :=
      hm.adds (fun _ => codeKind_title) (bitsOk_of rfl codeKind_ne_heap) ⟨rfl, .inl ⟨rfl, rfl, rfl⟩⟩
    exact hfirst.trans (hadds.mono fun v a => PagePte.weaken)

/-- **One page of a DATA region.** The child's page is a frame that was free, with the bytes of the parent's page. -/
theorem copyDataPage_run (h : copyDataPage P C va s = .ok ((), s')) :
    Adds K (PagePte va DATA_FLAGS (·.kind = .data)) C s s' ∧ lookupPa (s.proc P) va ≠ 0 ∧
      ∃ f ∈ s.free, leafAt s' C (va / PGSIZE) = some ⟨DATA_FLAGS, f, .data⟩ ∧
        (Frames K s → ∀ b, b / PGSIZE = f → s'.mem b = s.mem (lookupPa (s.proc P) va * PGSIZE + b % PGSIZE)) := by
  obtain ⟨f, s1, h1, h⟩ := run_bind.1 h
  rw [run_get_bind] at h
  obtain ⟨hd, hmem⟩ := allocPageUsed_run h1
  have hpa : lookupPa (s1.proc P) va = lookupPa (s.proc P) va := by
    obtain ⟨d, tb, -, -, e⟩ := hd.proc P
    rw [e]
    rfl
  rw [hpa] at h
  split at h
  · cases h
  rename_i h0
  obtain ⟨_, s2, h2, h⟩ := run_bind.1 h
  have hd2 := hd.copyPage (by simp) h2
  have hkept : s2.kept = s.kept := (copyPage_kept h2).trans (allocPageUsed_kept h1)
  rcases mapPages_page_run (K := K) rfl (userVmMap_run h) with ⟨hr, -⟩ | ⟨s3, hm, hadds⟩
  · cases hr
  have hfirst : Adds K (PagePte va DATA_FLAGS (·.kind = .data)) C s s3 :=
    hm.adds_fresh hd2 (by simp) hkept (by simp) (bitsOk_of rfl (by simp)) ⟨rfl, .inl ⟨rfl, rfl⟩⟩
  refine ⟨hfirst.trans (hadds.mono fun v a => PagePte.weaken), h0, f, hd.mem_free (by simp),
    hadds.old _ _ hm.leafAt_self, fun hf b hb => ?_⟩
  -- the bytes are copied first, and the page is not free any more when it is mapped
  have hloose := hf.loose hd2 (List.mem_singleton_self f)
  have hnone : s2.kept f = none := by
    rw [hkept]
    exact hf.unkept f (hd.mem_free (List.mem_singleton_self f))
  have hm2 : Adds K (fun _ _ => True) C s2 s' :=
    (hm.adds (fun _ => .fresh hloose (by simp) (.inr hnone)) (bitsOk_of rfl (by simp)) trivial).trans
      (hadds.mono fun _ _ _ => trivial)
  rw [hm2.mem b (by rw [hb]; exact hloose.notFree)]
  cases h2
  simp only [copyBytes, hb, if_true, hmem]

/-! ## Regions -/

theorem SameSpace.lookupPa (h : SameSpace pr pr') : lookupPa pr' va = lookupPa pr va := by
  obtain ⟨d, tb, -, -, rfl⟩ := h
  rfl

theorem SameSpace.codeKind (h : SameSpace pr pr') : codeKind pr' va = codeKind pr va := by
  obtain ⟨d, tb, -, -, rfl⟩ := h
  rfl

variable {r : Region}

theorem Region.covers_of_mem_pages (h : va ∈ r.pages) : r.Covers (va / PGSIZE) := by
  simp only [Region.pages, List.mem_map, List.mem_range] at h
  obtain ⟨j, hj, rfl⟩ := h
  simp only [Region.Covers, PGSIZE]
  omega

theorem Region.exists_mem_pages (h : r.Covers v) : ∃ va ∈ r.pages, va / PGSIZE = v := by
  obtain ⟨h1, h2⟩ := h
  refine ⟨r.va + (v - r.va / PGSIZE) * PGSIZE, ?_, ?_⟩
  · simp only [Region.pages, List.mem_map, List.mem_range]
    exact ⟨v - r.va / PGSIZE, by omega, rfl⟩
  · simp only [PGSIZE] at *
    omega

/-- **The pages of a CODE region.** The child gets entries for these pages and for no other. -/
theorem shareCode_run {vas : List ℕ} (hne : C ≠ P) (h : vas.forM (shareCodePage P C) s = .ok ((), s')) :
    Adds K (fun v a => ∃ va ∈ vas, PagePte va CODE_FLAGS (IsCode (s.proc P) va) v a) C s s' := by
  refine run_forMem (Adds K _ C s) ?_ .refl h
  intro x hx s1 s2 hadds hrun
  have hsame := hadds.others P hne.symm
  refine hadds.trans ((shareCodePage_run (K := K) hrun).mono fun v a ha => ⟨x, hx, ?_⟩)
  unfold IsCode at ha ⊢
  rwa [hsame.lookupPa, hsame.codeKind] at ha

def Copied (P C : Slot) (s s' : St) (va : ℕ) : Prop :=
  lookupPa (s.proc P) va ≠ 0 ∧ ∃ f ∈ s.free, leafAt s' C (va / PGSIZE) = some ⟨DATA_FLAGS, f, .data⟩ ∧
    ∀ b, b / PGSIZE = f → s'.mem b = s.mem (lookupPa (s.proc P) va * PGSIZE + b % PGSIZE)

theorem mul_add_mod_div (f b : ℕ) : (f * PGSIZE + b % PGSIZE) / PGSIZE = f := by
  simp only [PGSIZE]
  omega

/-- **The pages of a DATA region.** The child gets entries for these pages and for no other, on new frames with the
bytes of the parent. -/
theorem copyData_run {vas : List ℕ} (hne : C ≠ P) (h : vas.forM (copyDataPage P C) s = .ok ((), s')) (hf : Frames K s)
    (hsrc : ∀ va ∈ vas, lookupPa (s.proc P) va ∉ s.free) :
    Adds K (fun v a => ∃ va ∈ vas, PagePte va DATA_FLAGS (·.kind = .data) v a) C s s' ∧ ∀ va ∈ vas,
      Copied P C s s' va := by
  refine run_each (Adds K _ C s) (fun va s1 => Copied P C s s1 va) ?_ .refl h
  intro x hx s1 s2 hadds hrun
  obtain ⟨hadds2, h0, f, hfree, hleaf, hbytes⟩ := copyDataPage_run (K := K) hrun
  have hpa : lookupPa (s1.proc P) x = lookupPa (s.proc P) x := (hadds.others P hne.symm).lookupPa
  refine ⟨hadds.trans (hadds2.mono fun v a ha => ⟨x, hx, ha⟩), ?_, fun va _ hdone => ?_⟩
  · refine ⟨hpa ▸ h0, f, hadds.free.subset hfree, hleaf, fun b hb => ?_⟩
    rw [hbytes (hadds.frames hf) b hb, hpa]
    apply hadds.mem
    rw [mul_add_mod_div]
    exact hsrc x hx
  · obtain ⟨hz, g, hg, hgl, hgb⟩ := hdone
    refine ⟨hz, g, hg, hadds2.old _ _ hgl, fun b hb => ?_⟩
    rw [hadds2.mem b ?_, hgb b hb]
    rw [hb]
    exact (hadds.frames hf).notFree C _ _ hgl (by simp)

def appended (pr : Proc) (r : Region) : Proc :=
  { pr with
    mapped_info := update pr.mapped_info pr.total_mapped_region r
    total_mapped_region := pr.total_mapped_region + 1 }

theorem appendRegion_run (h : appendRegion C r s = .ok ((), s')) :
    s' = { s with proc := update s.proc C (appended (s.proc C) r) } := by
  replace h := of_get_bind h
  split at h
  · cases h
  · exact (run_modify.1 h).symm

/-! ## The loop of do_fork -/

/-- what is known about the pages that a fork of `pr` makes, heap pages apart -/
structure ForkPages (N : ℕ → Pte → Prop) (pr : Proc) : Prop where
  base : ∀ v a, BasePte v a → N v a
  code : ∀ i va v a, i < pr.total_mapped_region → (pr.mapped_info i).seg_type = .code → va ∈ (pr.mapped_info i).pages →
    PagePte va CODE_FLAGS (IsCode pr va) v a → N v a
  data : ∀ i va v a, i < pr.total_mapped_region → (pr.mapped_info i).seg_type = .data → va ∈ (pr.mapped_info i).pages →
    PagePte va DATA_FLAGS (·.kind = .data) v a → N v a

/-- the child has the heap of the parent -/
structure HeapShared (P C : Slot) (s0 s : St) : Prop where
  heap : ∃ n, HeapOk n (s0.proc P) ∧ HeapOk n (s.proc C)
  pages : ∀ v a, leafAt s0 P v = some a → a.kind = .heap → leafAt s C v = some a.protect ∧ leafAt s P v = some a.protect
  lists : (s.proc C).alloc_list = (s0.proc P).alloc_list ∧ (s.proc C).free_list = (s0.proc P).free_list

/-- the state of a fork of `P` to `C` before it looks at region `i`; `s0` is the state before `alloc_process` -/
structure Forking (K : Machine) (N : ℕ → Pte → Prop) (P C : Slot) (s0 : St) (i : ℕ) (s : St) : Prop where
  frames : Frames K s
  life : s.life = update s0.life C .live
  free : s.free <:+ s0.free
  others : ∀ q, q ≠ P → q ≠ C → SameSpace (s0.proc q) (s.proc q)
  parent : Protects (s0.proc P) (s.proc P)
  mem : ∀ b, b / PGSIZE ∉ s0.free → s.mem b = s0.mem b
  stack : ∃ f ∈ s0.free, leafAt s C STACK_VPN = some ⟨DATA_FLAGS, f, .stack⟩
  stackRegion : (s.proc C).mapped_info 0 = ⟨STACK_PAGE, 1, .stack⟩
  regions : Regions (s.proc C).total_mapped_region (s.proc C)
  tail : ∀ k, 4 ≤ k → (s.proc C).total_mapped_region ≤ k → (s.proc C).mapped_info k = noRegion
  heap : i ≤ 3 ∧ HeapOk 0 (s.proc C) ∨ 3 < i ∧ HeapShared P C s0 s
  covers : ∀ k v, 4 ≤ k → ((s.proc C).mapped_info k).Covers v → ∃ j, 4 ≤ j ∧ j < i ∧
    ((s0.proc P).mapped_info j).Covers v
  new : ∀ v a, leafAt s C v = some a → a.kind ≠ .heap → N v a

theorem Forking.next (hI : Forking K N P C s0 i s) (hi : i ≠ 3) {mem : ℕ → UInt8}
    (hm : ∀ b, b / PGSIZE ∉ s0.free → mem b = s.mem b) : Forking K N P C s0 (i + 1) { s with mem := mem } :=
  { hI with
    frames := hI.frames.congr (fun _ _ => rfl) rfl rfl rfl fun _ _ h => h
    mem := fun b hb => (hm b hb).trans (hI.mem b hb)
    heap := by
      rcases hI.heap with ⟨h3, hh⟩ | ⟨h3, hh⟩
      · exact .inl ⟨by omega, hh⟩
      · exact .inr ⟨by omega, hh.1, hh.2, hh.3⟩
    covers := fun k v h4 hc => by
      obtain ⟨j, hj4, hji, hjc⟩ := hI.covers k v h4 hc
      exact ⟨j, hj4, by omega, hjc⟩ }

theorem lookupPa_of_leaf (hva : va < MAXVA) (hl : pr.leaf (va / PGSIZE) = some a) (hr : a.r = true) :
    lookupPa pr va = a.ppn := by
  unfold lookupPa
  rw [if_neg (by omega), hl]
  simp [hr]

theorem Forking.lookup_stack (hI : Forking K N P C s0 i s) : ∃ f ∈ s0.free,
    leafAt s C STACK_VPN = some ⟨DATA_FLAGS, f, .stack⟩ ∧ lookupPa (s.proc C) ((s.proc C).mapped_info 0).va = f := by
  obtain ⟨f, hf, hl⟩ := hI.stack
  refine ⟨f, hf, hl, ?_⟩
  rw [hI.stackRegion]
  exact lookupPa_of_leaf (by simp [STACK_PAGE, USER_STACK_TOP, PGSIZE, MAXVA]) hl rfl

theorem Forking.append (hI : Forking K N P C s0 i s) (hP : Space t (s0.proc P)) (hne : C ≠ P) (h4 : 4 ≤ i)
    (hr : r = (s0.proc P).mapped_info i) (hty : r.seg_type = .code ∨ r.seg_type = .data)
    {N' : ℕ → Pte → Prop} (hadds : Adds K N' C s s1) (hN : ∀ v a, N' v a → N v a ∧ a.kind ≠ .heap)
    (hdata : r.seg_type = .data → ∀ v, r.Covers v → IsKind .data (leafAt s1 C v)) :
    Forking K N P C s0 (i + 1) { s1 with proc := update s1.proc C (appended (s1.proc C) r) } := by
  have hg := hadds.grows
  have hreg1 := hg.regions hI.regions
  obtain ⟨lf, d, tb, he⟩ := hadds.rest
  have hinfo : (s1.proc C).mapped_info = (s.proc C).mapped_info := by rw [he]
  have htot : (s1.proc C).total_mapped_region = (s.proc C).total_mapped_region := by rw [he]
  have h4t : 4 ≤ (s1.proc C).total_mapped_region := htot ▸ hI.regions.total
  have hself : (appended (s1.proc C) r).mapped_info (s1.proc C).total_mapped_region = r := by simp [appended]
  have hother : ∀ k, k ≠ (s1.proc C).total_mapped_region →
      (appended (s1.proc C) r).mapped_info k = (s.proc C).mapped_info k := by
    intro k hk
    simp [appended, hk, hinfo]
  have htail : ∀ k, 4 ≤ k → (s1.proc C).total_mapped_region ≤ k → (s.proc C).mapped_info k = noRegion := by
    intro k hk hle
    exact hI.tail k hk (htot ▸ hle)
  have hleaf : ∀ q v, leafAt { s1 with proc := update s1.proc C (appended (s1.proc C) r) } q v = leafAt s1 q v := by
    grind [leafAt, appended]
  have hproc : update s1.proc C (appended (s1.proc C) r) C = appended (s1.proc C) r := by simp
  have hPar : update s1.proc C (appended (s1.proc C) r) P = s1.proc P := by simp [hne.symm]
  -- the new region does not overlap an older one, because the parent's regions do not overlap
  have hclash : ∀ k v, 4 ≤ k → ((s.proc C).mapped_info k).Covers v → ¬ r.Covers v := by
    intro k v hk hc hc'
    obtain ⟨j, hj4, hji, hjc⟩ := hI.covers k v hk hc
    have := hP.regions.disjoint j i v hj4 h4 hjc (hr ▸ hc')
    omega
  have hregs : Regions (appended (s1.proc C) r).total_mapped_region (appended (s1.proc C) r) := by
    refine
      { context := by rw [hother 1 (by omega)]; exact hI.regions.context
        system := by rw [hother 2 (by omega)]; exact hI.regions.system
        total := h4t.trans (Nat.le_succ _)
        entry := fun k hk => ?_
        data := fun k v hk hd hc => ?_
        code := fun k v hk ht hd hc => ?_
        disjoint := fun j k v hj hk hc hc' => ?_ }
    · by_cases hkt : k = (s1.proc C).total_mapped_region
      · rw [hkt, hself]
        exact hty.imp_right .inl
      · rw [hother k hkt]
        exact hI.regions.entry k hk
    · by_cases hkt : k = (s1.proc C).total_mapped_region
      · rw [hkt, hself] at hd hc
        exact hdata hd v hc
      · rw [hother k hkt] at hd hc
        exact hreg1.data k v hk (hinfo ▸ hd) (hinfo ▸ hc)
    · have hlt : (s1.proc C).total_mapped_region < k := ht
      rw [hother k (by omega), htail k hk hlt.le] at hc
      exact absurd hc (not_covers_of_empty rfl)
    · by_cases hjt : j = (s1.proc C).total_mapped_region
      · grind
      · by_cases hkt : k = (s1.proc C).total_mapped_region
        · grind
        · rw [hother j hjt] at hc
          rw [hother k hkt] at hc'
          exact hI.regions.disjoint j k v hj hk hc hc'
  refine
    { frames := (hadds.frames hI.frames).congr hleaf rfl rfl rfl fun _ _ => hasTables_update rfl rfl
      life := hadds.life.trans hI.life
      free := hadds.free.trans hI.free
      others := fun q hqP hqC => ?_
      parent := ?_
      mem := fun b hb => (hadds.mem b fun hm => hb (hI.free.subset hm)).trans (hI.mem b hb)
      stack := ?_
      stackRegion := ?_
      regions := ?_
      tail := fun k hk hle => ?_
      heap := ?_
      covers := fun k v hk hc => ?_
      new := fun v a ha hk => ?_ }
  · have := (hI.others q hqP hqC).trans (hadds.others q hqC)
    simpa [hqC] using this
  · show Protects (s0.proc P) (update s1.proc C (appended (s1.proc C) r) P)
    rw [hPar]
    exact hI.parent.trans (.of_same (hadds.others P hne.symm))
  · obtain ⟨f, hf, hl⟩ := hI.stack
    exact ⟨f, hf, (hleaf C _).trans (hadds.old _ _ hl)⟩
  · show (update s1.proc C (appended (s1.proc C) r) C).mapped_info 0 = _
    rw [hproc, hother 0 (by omega)]
    exact hI.stackRegion
  · grind [appended]
  · grind [appended]
  · refine .inr ⟨by omega, ?_⟩
    obtain ⟨-, ⟨n, hn, hnC⟩, hpages, hlists⟩ := hI.heap.resolve_left (by omega)
    have hC1 := hg.heapOk (fun v a ha => (hN v a ha).2) hnC
    refine ⟨⟨n, hn, ?_⟩, fun v a ha hk => ?_, ?_⟩
    · show HeapOk n (update s1.proc C (appended (s1.proc C) r) C)
      rw [hproc]
      exact ⟨hC1.bottom, hC1.top, by rw [hother 3 (by omega)]; exact hnC.region, hC1.mapped⟩
    · rw [hleaf, hleaf]
      obtain ⟨h1, h2⟩ := hpages v a ha hk
      obtain ⟨d', tb', -, -, e⟩ := hadds.others P hne.symm
      exact ⟨hadds.old v _ h1, by rw [leafAt, e]; exact h2⟩
    · grind [appended]
  · have hc' : ((appended (s1.proc C) r).mapped_info k).Covers v := by simpa using hc
    by_cases hkt : k = (s1.proc C).total_mapped_region
    · rw [hkt, hself] at hc'
      exact ⟨i, h4, by omega, hr ▸ hc'⟩
    · rw [hother k hkt] at hc'
      obtain ⟨j, hj4, hji, hjc⟩ := hI.covers k v hk hc'
      exact ⟨j, hj4, by omega, hjc⟩
  · rw [hleaf] at ha
    rcases hadds.new v a ha with ha | ha
    · exact hI.new v a ha hk
    · exact (hN v a ha).1

theorem Forking.isCode (hI : Forking K N P C s0 i s) (hf0 : Frames K s0) (va : ℕ) :
    lookupPa (s.proc P) va = lookupPa (s0.proc P) va ∧ codeKind (s.proc P) va = codeKind (s0.proc P) va := by
  have hr : ∀ v a, (s0.proc P).leaf v = some a → a.kind = .heap → a.r = true := fun v a ha hk =>
    ((hf0.bits P v a ha).1 hk).1
  exact ⟨hI.parent.lookupPa hr, hI.parent.codeKind hr⟩

theorem Forking.data_src (hI : Forking K N P C s0 i s) (hP : Space t (s0.proc P)) (h4 : 4 ≤ i)
    (hty : ((s0.proc P).mapped_info i).seg_type = .data) (hva : va ∈ ((s0.proc P).mapped_info i).pages)
    (h0 : lookupPa (s.proc P) va ≠ 0) : lookupPa (s.proc P) va ∉ s.free := by
  obtain ⟨a, ha, hk⟩ := hP.regions.data i _ h4 hty (Region.covers_of_mem_pages hva)
  obtain ⟨a', ha', hk', -⟩ := hI.parent.some_of_some ha
  have hpa : lookupPa (s.proc P) va = a'.ppn := by
    unfold lookupPa at h0 ⊢
    split at h0 <;> simp_all
  rw [hpa]
  exact hI.frames.notFree P _ a' ha' (by rw [hk', hk]; simp)

theorem Space.base_types (h : Space t pr) :
    (pr.mapped_info 0).seg_type = .stack ∧ (pr.mapped_info 1).seg_type = .context ∧
      (pr.mapped_info 2).seg_type = .system ∧ (pr.mapped_info 3).seg_type = .heap := by
  obtain ⟨n, hn⟩ := h.heap
  refine ⟨?_, h.regions.context.1, h.regions.system.1, ?_⟩
  · rw [h.stack.region]
  · rw [hn.region]

theorem Space.type_ne_heap (h : Space t pr) (hi : i ≠ 3) : (pr.mapped_info i).seg_type ≠ .heap := by
  have hb := h.base_types
  by_cases h4 : 4 ≤ i
  · rcases h.regions.entry i h4 with e | e | ⟨e, -⟩ <;> rw [e] <;> simp
  · grind

theorem Space.four_le (h : Space t pr)
    (hty : (pr.mapped_info i).seg_type = .code ∨ (pr.mapped_info i).seg_type = .data) : 4 ≤ i := by
  have hb := h.base_types
  grind

def withHeap (pr parent : Proc) : Proc :=
  { pr with
    mapped_info := update pr.mapped_info 3 ⟨(parent.mapped_info 3).va, (parent.mapped_info 3).npages, .heap⟩
    heap_top := parent.heap_top
    heap_bottom := parent.heap_bottom
    alloc_list := parent.alloc_list
    free_list := parent.free_list }

theorem Forking.heap_step (hI : Forking K N P C s0 3 s) (hP : Space t (s0.proc P)) (hne : C ≠ P)
    (h1 : (heapPages (s.proc P)).forM (shareHeapPage K P C) s = .ok ((), s1)) :
    Forking K N P C s0 4 { s1 with proc := update s1.proc C (withHeap (s1.proc C) (s.proc P)) } := by
  obtain ⟨n, hn⟩ := hP.heap
  obtain ⟨-, h0⟩ := hI.heap.resolve_right (by omega)
  have hnP := hI.parent.heapOk hn
  obtain ⟨hs, hpages⟩ := shareHeap_run h1 hI.frames hne hnP
  obtain ⟨lf, d, tb, he⟩ := hs.rest
  set pr : Proc := withHeap (s1.proc C) (s.proc P) with hpr
  have hleaf : ∀ q v, leafAt { s1 with proc := update s1.proc C pr } q v = leafAt s1 q v := by
    grind [leafAt, withHeap]
  have hproc : update s1.proc C pr C = pr := by simp
  have hPar : update s1.proc C pr P = s1.proc P := by simp [hne.symm]
  have htot : pr.total_mapped_region = (s.proc C).total_mapped_region := by simp [hpr, withHeap, he]
  have hother : ∀ k, k ≠ 3 → pr.mapped_info k = (s.proc C).mapped_info k := by
    intro k hk
    simp [hpr, withHeap, hk, he]
  have hgrow : ∀ v k, IsKind k ((s.proc C).leaf v) → IsKind k (pr.leaf v) := by
    rintro v k ⟨a, ha, hk⟩
    exact ⟨a, hs.old v a ha, hk⟩
  have hlists : (s.proc P).alloc_list = (s0.proc P).alloc_list ∧ (s.proc P).free_list = (s0.proc P).free_list := by
    obtain ⟨lf', d', tb', e⟩ := hI.parent.rest
    rw [e]
    exact ⟨rfl, rfl⟩
  refine
    { frames := hs.frames.congr hleaf rfl rfl rfl fun _ _ => hasTables_update rfl rfl
      life := hs.life.trans hI.life
      free := hs.free.trans hI.free
      others := fun q hqP hqC => by
        have := (hI.others q hqP hqC).trans (hs.others q hqP hqC)
        simpa [hqC] using this
      parent := ?_
      mem := fun b hb => (hs.mem b fun hm => hb (hI.free.subset hm)).trans (hI.mem b hb)
      stack := ?_
      stackRegion := ?_
      regions := ?_
      tail := fun k hk hle => ?_
      heap := .inr ⟨by omega, ⟨n, hn, ?_⟩, fun v a ha hk => ?_, ?_⟩
      covers := fun k v hk hc => ?_
      new := fun v a ha hk => ?_ }
  · show Protects (s0.proc P) (update s1.proc C pr P)
    rw [hPar]
    exact hI.parent.trans hs.parent
  · obtain ⟨f, hf, hl⟩ := hI.stack
    exact ⟨f, hf, (hleaf C _).trans (hs.old _ _ hl)⟩
  · show (update s1.proc C pr C).mapped_info 0 = _
    rw [hproc, hother 0 (by simp)]
    exact hI.stackRegion
  · show Regions (update s1.proc C pr C).total_mapped_region (update s1.proc C pr C)
    rw [hproc, htot]
    exact
      { context := by rw [hother 1 (by simp)]; exact hI.regions.context
        system := by rw [hother 2 (by simp)]; exact hI.regions.system
        total := htot ▸ hI.regions.total
        entry := fun k hk => by rw [hother k (by omega)]; exact hI.regions.entry k hk
        data := fun k v hk hd hc => by
          rw [hother k (by omega)] at hd hc
          exact hgrow v _ (hI.regions.data k v hk hd hc)
        code := fun k v hk ht hd hc => by
          rw [hother k (by omega)] at hd hc
          exact hgrow v _ (hI.regions.code k v hk ht hd hc)
        disjoint := fun j k v hj hk hc hc' => by
          rw [hother j (by omega)] at hc
          rw [hother k (by omega)] at hc'
          exact hI.regions.disjoint j k v hj hk hc hc' }
  · have hle' : (s.proc C).total_mapped_region ≤ k := by simpa [hproc, htot] using hle
    show (update s1.proc C pr C).mapped_info k = _
    rw [hproc, hother k (by omega)]
    exact hI.tail k hk hle'
  · show HeapOk n (update s1.proc C pr C)
    rw [hproc]
    refine ⟨hnP.bottom, hnP.top, by simp [hpr, withHeap, hnP.region], fun v => ?_⟩
    rw [← hn.mapped v]
    constructor
    · rintro ⟨a, ha, hk⟩
      rcases hs.new v a ha with ha | ⟨b, hb, hbk, -⟩
      · have := (h0.mapped v).1 ⟨a, ha, hk⟩
        omega
      · exact hI.parent.isKind.1 ⟨b, hb, hbk⟩
    · intro hv
      obtain ⟨b, hb, hbk⟩ := hI.parent.isKind.2 hv
      exact ⟨b.protect, (hpages v b hb hbk).1, hbk⟩
  · rw [hleaf, hleaf]
    obtain ⟨a', ha', hk', -, -, -, hpro⟩ := hI.parent.some_of_some ha
    rw [← hpro]
    exact hpages v a' ha' (hk'.trans hk)
  · show (update s1.proc C pr C).alloc_list = _ ∧ (update s1.proc C pr C).free_list = _
    rw [hproc]
    exact hlists
  · have hc' : (pr.mapped_info k).Covers v := by simpa using hc
    rw [hother k (by omega)] at hc'
    obtain ⟨j, hj4, hji, hjc⟩ := hI.covers k v hk hc'
    exact ⟨j, hj4, by omega, hjc⟩
  · rw [hleaf] at ha
    rcases hs.new v a ha with ha | ⟨b, -, hbk, rfl⟩
    · exact hI.new v a ha hk
    · exact absurd hbk hk

/-- one turn of the loop over the parent's regions -/
inductive RegionRun (K : Machine) (P C : Slot) (s : St) (r : Region) (s' : St) : Prop
  | skip (hty : r.seg_type = .context ∨ r.seg_type = .system) (hs : s' = s)
  | stack (hty : r.seg_type = .stack) (hsrc : lookupPa (s.proc P) r.va ≠ 0)
      (hs : s' =
        { s with
          mem := copyBytes s.mem (lookupPa (s.proc C) ((s.proc C).mapped_info 0).va) (lookupPa (s.proc P) r.va) })
  | heap (hty : r.seg_type = .heap) {s1 : St}
      (h1 : (heapPages (s.proc P)).forM (shareHeapPage K P C) s = .ok ((), s1))
      (hs : s' = { s1 with proc := update s1.proc C (withHeap (s1.proc C) (s.proc P)) })
  | code (hty : r.seg_type = .code) {s1 : St} (h1 : r.pages.forM (shareCodePage P C) s = .ok ((), s1))
      (hs : s' = { s1 with proc := update s1.proc C (appended (s1.proc C) r) })
  | data (hty : r.seg_type = .data) {s1 : St} (h1 : r.pages.forM (copyDataPage P C) s = .ok ((), s1))
      (hs : s' = { s1 with proc := update s1.proc C (appended (s1.proc C) r) })

theorem copyRegion_run (h : copyRegion K P C i s = .ok ((), s')) : RegionRun K P C s ((s.proc P).mapped_info i) s' := by
  unfold copyRegion at h
  split at h
  · cases h
  rw [run_get_bind] at h
  cases hty : ((s.proc P).mapped_info i).seg_type with
  | context =>
    simp only [hty] at h
    exact .skip (.inl hty) (run_pure.1 h).2.symm
  | system =>
    simp only [hty] at h
    exact .skip (.inr hty) (run_pure.1 h).2.symm
  | stack =>
    simp only [hty] at h
    split at h
    · cases h
    · rename_i h0
      rw [not_or] at h0
      exact .stack hty h0.2 (run_modify.1 h).symm
  | heap =>
    simp only [hty] at h
    obtain ⟨_, s1, h1, h⟩ := run_bind.1 h
    exact .heap hty h1 (run_modify.1 h).symm
  | code =>
    simp only [hty] at h
    obtain ⟨_, s1, h1, h⟩ := run_bind.1 h
    have hr : (⟨((s.proc P).mapped_info i).va, ((s.proc P).mapped_info i).npages, .code⟩ : Region) =
        (s.proc P).mapped_info i := by rw [← hty]
    rw [hr] at h
    exact .code hty h1 (appendRegion_run h)
  | data =>
    simp only [hty] at h
    obtain ⟨_, s1, h1, h⟩ := run_bind.1 h
    have hr : (⟨((s.proc P).mapped_info i).va, ((s.proc P).mapped_info i).npages, .data⟩ : Region) =
        (s.proc P).mapped_info i := by rw [← hty]
    rw [hr] at h
    exact .data hty h1 (appendRegion_run h)

theorem PagePte.ne_heap {Q : Pte → Prop} (h : PagePte va fl Q v a) (hQ : ∀ a, Q a → a.kind ≠ .heap) :
    a.kind ≠ .heap := by
  rcases h.2 with ⟨-, h⟩ | ⟨-, -, h⟩
  · exact hQ a h
  · rw [h]
    simp

theorem copyData_src (K : Machine) {vas : List ℕ} (hne : C ≠ P) (h : vas.forM (copyDataPage P C) s = .ok ((), s')) :
    ∀ va ∈ vas, lookupPa (s.proc P) va ≠ 0 := by
  induction vas generalizing s with
  | nil => simp
  | cons x xs ih =>
    obtain ⟨_, s1, h1, h⟩ := run_bind.1 h
    obtain ⟨hadds, h0, -⟩ := copyDataPage_run (K := K) h1
    intro va hva
    rcases List.mem_cons.1 hva with rfl | hva
    · exact h0
    · rw [← (hadds.others P hne.symm).lookupPa]
      exact ih h va hva

/-- **One region of the parent.** The turn for region `i` keeps what a fork keeps. -/
theorem Forking.step (hI : Forking K N P C s0 i s) (hN : ForkPages N (s0.proc P)) (hf0 : Frames K s0)
    (hP : Space t (s0.proc P)) (hne : C ≠ P) (hi : i < (s0.proc P).total_mapped_region)
    (h : copyRegion K P C i s = .ok ((), s')) : Forking K N P C s0 (i + 1) s' := by
  have hinfo : (s.proc P).mapped_info i = (s0.proc P).mapped_info i := by rw [hI.parent.mapped_info]
  have hrun := copyRegion_run h
  rw [hinfo] at hrun
  cases hrun with
  | skip hty hs =>
    subst hs
    have h3 : i ≠ 3 := fun e => by
      subst e
      rw [hP.base_types.2.2.2] at hty
      simp at hty
    exact hI.next h3 fun _ _ => rfl
  | stack hty hsrc hs =>
    subst hs
    refine hI.next (fun e => ?_) fun b hb => ?_
    · subst e
      rw [hP.base_types.2.2.2] at hty
      cases hty
    · obtain ⟨f, hf, -, hpa⟩ := hI.lookup_stack
      exact if_neg fun e => hb (by rw [e, hpa]; exact hf)
  | @heap hty s1 h1 hs =>
    subst hs
    have h3 : i = 3 := by
      by_contra h3
      exact hP.type_ne_heap h3 hty
    subst h3
    exact hI.heap_step hP hne h1
  | @code hty s1 h1 hs =>
    subst hs
    have h4 := hP.four_le (.inl hty)
    refine hI.append hP hne h4 rfl (.inl hty) (shareCode_run (K := K) hne h1) ?_ fun hd => ?_
    · rintro v a ⟨va, hva, hpte⟩
      refine ⟨hN.code i va v a hi hty hva ?_, hpte.ne_heap fun b hb => ?_⟩
      · obtain ⟨e1, e2⟩ := hI.isCode hf0 va
        unfold IsCode at hpte ⊢
        rwa [e1, e2] at hpte
      · rw [hb.1]
        exact codeKind_ne_heap
    · rw [hty] at hd
      cases hd
  | @data hty s1 h1 hs =>
    subst hs
    have h4 := hP.four_le (.inr hty)
    have hsrc := copyData_src K hne h1
    obtain ⟨hadds, hcopied⟩ := copyData_run hne h1 hI.frames fun va hva => hI.data_src hP h4 hty hva (hsrc va hva)
    refine hI.append hP hne h4 rfl (.inr hty) hadds ?_ fun _ v hc => ?_
    · rintro v a ⟨va, hva, hpte⟩
      refine ⟨hN.data i va v a hi hty hva hpte, hpte.ne_heap fun b hb => ?_⟩
      rw [hb]
      simp
    · obtain ⟨va, hva, rfl⟩ := Region.exists_mem_pages hc
      obtain ⟨-, f, -, hl, -⟩ := hcopied va hva
      exact ⟨_, hl, rfl⟩

theorem Allocated.forking (h : Allocated K C s0 s) (hne : C ≠ P) (hN : ∀ v a, BasePte v a → N v a) :
    Forking K N P C s0 0 s := by
  obtain ⟨hr, hs, hh, ht⟩ := h.parts
  exact
    { h with
      others := fun q _ hq => h.others q hq
      parent := .of_same (h.others P hne.symm)
      stackRegion := hs.region
      regions := hr.of_le (Nat.zero_le _)
      tail := fun k hk _ => h.mapped_info hk
      heap := .inl ⟨by omega, hh⟩
      covers := fun k v hk hc => by
        rw [h.mapped_info hk] at hc
        exact absurd hc (not_covers_of_empty rfl)
      new := fun v a ha _ => by
        obtain ⟨tf, -, hg⟩ := h.proc
        rcases hg.new v a ha with ha | ha
        · simp [newProc] at ha
        · exact hN v a ha }

theorem freeSlot_free (h : freeSlot s = some p) : s.life p = .free := by
  simpa using List.find?_some h

theorem allocProcess_run (h : allocProcess K s = .ok (p, s')) :
    freeSlot s = some p ∧ allocSpace K p s = .ok ((), s') := by
  replace h := of_get_bind h
  cases hs : freeSlot s with
  | none =>
    rw [hs] at h
    cases h
  | some q =>
    rw [hs] at h
    grind

/-- the state after a fork -/
structure Forked (K : Machine) (N : ℕ → Pte → Prop) (P C : Slot) (s s' : St) : Prop where
  first : freeSlot s = some C
  loop : Forking K N P C s (s.proc P).total_mapped_region s'

theorem Forked.slot (h : Forked K N P C s s') : s.life C = .free := freeSlot_free h.first

theorem Forked.ne (h : Forked K N P C s s') (hl : s.life P = .live) : C ≠ P := by
  rintro rfl
  rw [h.slot] at hl
  cases hl

abbrev Blank (s : St) : Prop := ∀ p, s.life p = .free → ∀ v a, leafAt s p v = some a → a.kind ≠ .heap

section

variable (h : doFork K P s = .ok (C, s')) (hN : ForkPages N (s.proc P)) (hf : Frames K s) (hP : Space t (s.proc P))
  (hlive : s.life P = .live) (hfree : Blank s)

include h hN hf hP hlive hfree

theorem doFork_loop (I : ℕ → St → Prop)
    (h0 : ∀ s1, allocSpace K C s = .ok ((), s1) → I 0 s1)
    (hI : ∀ i s1 s2, i < (s.proc P).total_mapped_region → Forking K N P C s i s1 → I i s1 →
      copyRegion K P C i s1 = .ok ((), s2) → I (i + 1) s2) :
    Forked K N P C s s' ∧ I (s.proc P).total_mapped_region s' := by
  obtain ⟨C', s1, h1, h⟩ := run_bind.1 h
  rw [run_get_bind] at h
  obtain ⟨_, s2, h2, h⟩ := run_bind.1 h
  obtain ⟨rfl, rfl⟩ := run_pure.1 h
  obtain ⟨hfirst, h1⟩ := allocProcess_run h1
  have hslot := freeSlot_free hfirst
  have hne : C' ≠ P := by
    rintro rfl
    rw [hslot] at hlive
    cases hlive
  have halloc := allocSpace_run h1 hf (hfree C' hslot)
  have htot : (s1.proc P).total_mapped_region = (s.proc P).total_mapped_region := by
    obtain ⟨d, tb, -, -, e⟩ := halloc.others P hne.symm
    rw [e]
  rw [htot] at h2
  have key := run_forRange (fun i s1 => Forking K N P C' s i s1 ∧ I i s1) ?_ ⟨halloc.forking hne hN.base, h0 s1 h1⟩ h2
  · exact ⟨⟨hfirst, key.1⟩, key.2⟩
  · intro i t1 t2 hi hi' hx
    exact ⟨hi'.1.step hN hf hP hne hi hx, hI i t1 t2 hi hi'.1 hi'.2 hx⟩

/-- **`do_fork` and `do_fork_to_hart`.** The child has entries for the heap of the parent, for its CODE and DATA regions
and for what `alloc_process` maps; other processes do not notice. -/
theorem doFork_run : Forked K N P C s s' :=
  (doFork_loop h hN hf hP hlive hfree (fun _ _ => True) (fun _ _ => trivial) fun _ _ _ _ _ _ _ => trivial).1

end

theorem Forked.space (h : Forked K N P C s s') (hP : Space t (s.proc P)) :
    Space (s'.proc C).total_mapped_region (s'.proc C) := by
  have h4 := hP.regions.total
  obtain ⟨f, -, hl⟩ := h.loop.stack
  obtain ⟨-, hh⟩ := h.loop.heap.resolve_left (by omega)
  obtain ⟨n, -, hn⟩ := hh.heap
  exact ⟨h.loop.regions, ⟨h.loop.stackRegion, _, hl, rfl⟩, n, hn⟩

end RiscvPke.Memory
