/-
New address spaces: `alloc_process` and `elf_load`.
-/
import RiscvPke.Memory.Spaces

namespace RiscvPke.Memory

open Function Run

variable {K : Machine} {s s' s1 s2 : St} {p q : Slot} {v w f g : ℕ} {l m : List ℕ} {o : Option Pte} {a b : Pte}
  {N : ℕ → Pte → Prop} {t : ℕ}

/-! ## alloc_process -/

/-- the permissions of the pages that a program writes, of its code, and of the code that a forked child gets -/
def DATA_FLAGS : Flags := protToType true true false true
def TEXT_FLAGS : Flags := protToType true false true true
def CODE_FLAGS : Flags := protToType true true true true

def BasePte (v : ℕ) (a : Pte) : Prop :=
  v = STACK_VPN ∧ a.kind = .stack ∧ a.toFlags = DATA_FLAGS ∨ a.kind = .sys ∧ a.u = false

structure Allocated (K : Machine) (p : Slot) (s s' : St) : Prop where
  frames : Frames K s'
  life : s'.life = update s.life p .live
  free : s'.free <:+ s.free
  others : ∀ q, q ≠ p → SameSpace (s.proc q) (s'.proc q)
  proc : ∃ trapframe, 0 < trapframe ∧ Grows BasePte (newProc K trapframe) (s'.proc p)
  stack : ∃ f ∈ s.free, leafAt s' p STACK_VPN = some ⟨DATA_FLAGS, f, .stack⟩
  ref : ∀ f, f ∉ s.free → s'.page_ref_count f = s.page_ref_count f
  mem : ∀ b, b / PGSIZE ∉ s.free → s'.mem b = s.mem b

theorem Loose.mapped (h : Loose K s f) (hm : Mapped s p v a s') (ha : a.ppn ≠ f) : Loose K s' f := by
  obtain ⟨-, -, l, s1, hd, -, rfl⟩ := hm
  apply (h.draws hd).withLeaf
  intro b hb _
  cases hb
  exact ha

variable {pr : Proc}

theorem Loose.clear (h : Loose K s f) (hpr : ∀ v, pr.leaf v = none) : Loose K (s.cleared p pr) f where
  __ := h
  unmapped q w a ha hk := by
    by_cases hq : q = p
    · subst hq
      simp [leafAt, St.cleared, hpr] at ha
    · refine h.unmapped q w a ?_ hk
      simpa [leafAt, St.cleared, hq] using ha

theorem allocSpace_pages (h : allocSpace K p s = .ok ((), s')) :
    ∃ tf stk l s1 s2 s3 s4 s5, tf ∈ l ∧ stk ∈ l ∧ (l.Nodup → stk ≠ tf ∧ s1.kept stk = s.kept stk) ∧ Draws l s s1 ∧
      s2 = s1.cleared p (newProc K tf) ∧ Mapped s2 p STACK_VPN ⟨DATA_FLAGS, stk, .stack⟩ s3 ∧
      Mapped s3 p tf ⟨protToType true true false false, tf, .sys⟩ s4 ∧
      Mapped s4 p K.trapSec ⟨protToType true false true false, K.trapSec, .sys⟩ s5 ∧
      ∃ pf s6, Draws [pf] s5 s6 ∧ s' = { s6 with life := update s6.life p .live } := by
  obtain ⟨tf, t1, h1, h⟩ := run_bind.1 h
  obtain ⟨_, t2, h2, h⟩ := run_bind.1 h
  obtain ⟨_, t2k, k2, h⟩ := run_bind.1 h
  obtain ⟨root, t3, h3, h⟩ := run_bind.1 h
  obtain ⟨_, t4, h4, h⟩ := run_bind.1 h
  obtain ⟨_, t4k, k4, h⟩ := run_bind.1 h
  obtain ⟨ks, t5, h5, h⟩ := run_bind.1 h
  obtain ⟨_, t5k, k5, h⟩ := run_bind.1 h
  obtain ⟨stk, t6, h6, h⟩ := run_bind.1 h
  obtain ⟨info, t7, h7, h⟩ := run_bind.1 h
  obtain ⟨_, t8, h8, h⟩ := run_bind.1 h
  obtain ⟨_, t8k, k8, h⟩ := run_bind.1 h
  obtain ⟨_, t9, h9, h⟩ := run_bind.1 h
  obtain ⟨_, t10, h10, h⟩ := run_bind.1 h
  obtain ⟨_, t11, h11, h⟩ := run_bind.1 h
  obtain ⟨_, t12, h12, h⟩ := run_bind.1 h
  obtain ⟨pf, t13, h13, h⟩ := run_bind.1 h
  obtain ⟨_, t13k, k13, h⟩ := run_bind.1 h
  have d1 := ((allocPageUsed_run h1).1.zeroPage (by simp) h2).keep (by simp) k2
  have d2 := ((allocPageUsed_run h3).1.zeroPage (by simp) h4).keep (by simp) k4
  have d3 := (allocPageUsed_run h5).1.keep (by simp) k5
  have d4 := (allocPageUsed_run h6).1
  have d5 := ((allocPageUsed_run h7).1.zeroPage (by simp) h8).keep (by simp) k8
  have hbefore := (d1.trans d2).trans d3
  have hd := (hbefore.trans d4).trans d5
  have m1 := userVmMap_page_run (by simp [STACK_PAGE, USER_STACK_TOP, PGSIZE]) h10
  have m2 := userVmMap_page_run (by simp [PGSIZE]) h11
  have m3 := userVmMap_page_run (by simp [PGSIZE]) h12
  rw [Nat.mul_div_cancel tf (by simp [PGSIZE])] at m2
  rw [Nat.mul_div_cancel K.trapSec (by simp [PGSIZE])] at m3
  refine ⟨tf, stk, _, t8k, t9, t10, t11, t12, ?_, ?_, ?_, hd, (run_modify.1 h9).symm, m1, m2, m3, pf, t13k,
    (allocPageUsed_run h13).1.keep (by simp) k13, (run_modify.1 h).symm⟩
  · simp
  · simp
  · intro hnd
    simp only [List.cons_append, List.nil_append, List.nodup_cons, List.mem_cons, List.not_mem_nil, or_false,
      not_or] at hnd
    obtain ⟨⟨-, -, htf, -⟩, ⟨-, hroot, -⟩, ⟨hks, -⟩, hinfo, -⟩ := hnd
    refine ⟨Ne.symm htf, ?_⟩
    -- the page of the stack is the only one that the kernel does not keep
    rw [d5.kept stk (by simpa using hinfo), allocPageUsed_kept h6]
    refine hbefore.kept stk ?_
    simp [Ne.symm htf, Ne.symm hroot, Ne.symm hks]

/-- **`alloc_process`** makes slot `p` live, with an empty heap and entries for the stack page, the trapframe and the
trap vector, and touches no other process and no page in use. -/
theorem allocSpace_run (h : allocSpace K p s = .ok ((), s')) (hf : Frames K s)
    (hp : ∀ v a, leafAt s p v = some a → a.kind ≠ .heap) : Allocated K p s s' := by
  obtain ⟨tf, stk, l, s1, s2, s3, s4, s5, htf, hstk, hne, hd, rfl, m1, m2, m3, pf, s6, hd6, rfl⟩ := allocSpace_pages h
  have hf1 := hf.draws hd
  have hnd : l.Nodup := by
    have := hf.nodup
    rw [hd.free] at this
    exact (List.nodup_append.1 this).1
  have ltf : Loose K (s1.cleared p (newProc K tf)) tf := (hf.loose hd htf).clear fun _ => rfl
  have lstk : Loose K (s1.cleared p (newProc K tf)) stk := (hf.loose hd hstk).clear fun _ => rfl
  have hstkKept : (s1.cleared p (newProc K tf)).kept stk = none := by
    show (s1.kept stk).map _ = none
    rw [(hne hnd).2, hf.unkept stk (hd.mem_free hstk)]
    rfl
  have hf2 : Frames K (s1.cleared p (newProc K tf)) :=
    hf1.clear (fun v a ha => hp v a (hd.leaf_eq p v ▸ ha)) fun _ => rfl
  have ltf3 := ltf.mapped m1 (hne hnd).1
  -- from the empty page table on, three entries are added
  have a1 : Adds K BasePte p _ s3 :=
    m1.adds (fun _ => .fresh lstk (by simp) (.inr hstkKept)) (by simp [BitsOk, DATA_FLAGS, protToType])
      (.inl ⟨rfl, rfl, rfl⟩)
  have a2 : Adds K BasePte p s3 s4 :=
    m2.adds (fun _ => .fresh ltf3 (by simp) (.inl rfl)) (by simp [BitsOk, protToType]) (.inr ⟨rfl, rfl⟩)
  have a3 : Adds K BasePte p s4 s5 :=
    m3.adds (fun _ => .trap rfl rfl) (by simp [BitsOk, protToType]) (.inr ⟨rfl, rfl⟩)
  have ha := ((a1.trans a2).trans a3).trans (hd6.adds (K := K) (N := BasePte) (p := p))
  have hstack : leafAt s6 p STACK_VPN = some ⟨DATA_FLAGS, stk, .stack⟩ :=
    ((a2.trans a3).trans hd6.adds).old _ _ m1.leafAt_self
  exact
    { frames := (ha.frames hf2).congr (fun _ _ => rfl) rfl rfl rfl fun _ _ h => h
      life := by
        have := ha.life.trans hd.life
        rw [this]
      free := ha.free.trans ⟨l, hd.free.symm⟩
      others := fun q hq => (hd.proc q).trans (by simpa [St.cleared, hq] using ha.others q hq)
      proc := ⟨tf, by have := ltf.range.1; have := K.trap_lt; omega, by simpa [St.cleared] using ha.grows⟩
      stack := ⟨stk, hd.mem_free hstk, hstack⟩
      ref := fun f hfr => (ha.ref f fun hm => hfr (hd.free_subset hm)).trans (hd.ref f fun hm => hfr (hd.mem_free hm))
      mem := fun b hb => (ha.mem b fun hm => hb (hd.free_subset hm)).trans (hd.mem b fun hm => hb (hd.mem_free hm)) }

theorem not_covers_of_empty {r : Region} (h : r.npages = 0) : ¬ r.Covers v := by
  intro hc
  unfold Region.Covers at hc
  omega

theorem baseInfo_of_le {tf k : ℕ} (hk : 4 ≤ k) : baseInfo K tf k = noRegion := by
  unfold baseInfo
  split <;> first | rfl | omega

theorem newProc_regions {tf : ℕ} (h : 0 < tf) : Regions 0 (newProc K tf) where
  context := ⟨rfl, by simp [newProc, baseInfo, PGSIZE]; omega⟩
  system := ⟨rfl, by have := K.trap_pos; simp [newProc, baseInfo, PGSIZE]; omega⟩
  total := le_refl 4
  entry k hk := .inr (.inr (by simp [newProc, baseInfo_of_le hk, noRegion]))
  data k v hk hd := by simp [newProc, baseInfo_of_le hk, noRegion] at hd
  code k v hk _ hd := by simp [newProc, baseInfo_of_le hk, noRegion] at hd
  disjoint j k v hj _ hc := by
    refine absurd hc (not_covers_of_empty ?_)
    simp [newProc, baseInfo_of_le hj, noRegion]

theorem newProc_heapOk {tf : ℕ} : HeapOk 0 (newProc K tf) where
  bottom := rfl
  top := rfl
  region := rfl
  mapped v := by
    constructor
    · rintro ⟨a, ha, -⟩
      simp [newProc] at ha
    · omega

theorem Allocated.mapped_info (h : Allocated K p s s') {k : ℕ} (hk : 4 ≤ k) : (s'.proc p).mapped_info k = noRegion := by
  obtain ⟨tf, -, hg⟩ := h.proc
  obtain ⟨lf, d, tb, he⟩ := hg.rest
  rw [he]
  exact baseInfo_of_le hk

theorem Allocated.parts (h : Allocated K p s s') :
    Regions 0 (s'.proc p) ∧ StackOk (s'.proc p) ∧ HeapOk 0 (s'.proc p) ∧ (s'.proc p).total_mapped_region = 4 := by
  obtain ⟨f, -, hstk⟩ := h.stack
  obtain ⟨tf, h0, hg⟩ := h.proc
  obtain ⟨lf, d, tb, he⟩ := hg.rest
  refine ⟨hg.regions (newProc_regions h0), ⟨?_, _, hstk, rfl⟩, hg.heapOk (fun v a ha hk => ?_) newProc_heapOk, ?_⟩
  · rw [he]
    rfl
  · rcases ha with ⟨-, h1, -⟩ | ⟨h1, -⟩
    · rw [h1] at hk
      cases hk
    · rw [h1] at hk
      cases hk
  · rw [he]
    rfl

/-! ## elf_load -/

variable {ph : Phdr}

theorem loadPage_run (h : loadPage p ph v s = .ok ((), s')) :
    ∃ f ∈ s.free, leafAt s p v = none ∧ leafAt s' p v = some ⟨ph.type, f, ph.kind⟩ ∧
      Adds K (fun w a => w = v ∧ a.toFlags = ph.type ∧ a.kind = ph.kind) p s s' := by
  obtain ⟨r, s1, h1, h⟩ := run_bind.1 h
  rcases allocPage_run h1 with ⟨rfl, -, -⟩ | ⟨f, rfl, -, hd, -⟩
  · cases h
  · obtain ⟨_, s2, h2, h⟩ := run_bind.1 h
    have hd2 := hd.zeroPage (by simp) h2
    have hkept : s2.kept = s.kept := (zeroPage_kept h2).trans (allocPage_kept h1)
    have hm := userVmMap_page_run (by simp [PGSIZE]) h
    rw [Nat.mul_div_cancel v (by simp [PGSIZE])] at hm
    have hk : ph.kind ≠ .spill ∧ ph.kind ≠ .heap := by
      unfold Phdr.kind
      split <;> simp
    refine ⟨f, hd.mem_free (by simp), ?_, hm.leafAt_self, hm.adds_fresh hd2 (by simp) hkept hk.1 ?_ ⟨rfl, rfl, rfl⟩⟩
    · rw [← hd2.leaf_eq]
      exact hm.2.1
    · exact ⟨fun e => absurd e hk.2, fun _ => rfl⟩

/-- the pages of a segment: they were not mapped, and now each has a frame that was free -/
def Loaded (p : Slot) (ph : Phdr) (s s' : St) (v : ℕ) : Prop :=
  leafAt s p v = none ∧ ∃ f ∈ s.free, leafAt s' p v = some ⟨ph.type, f, ph.kind⟩

theorem loadPages_run {vs : List ℕ} (h : vs.forM (loadPage p ph) s = .ok ((), s')) :
    Adds K (fun v a => v ∈ vs ∧ a.toFlags = ph.type ∧ a.kind = ph.kind) p s s' ∧ ∀ v ∈ vs, Loaded p ph s s' v := by
  refine run_each (Adds K _ p s) (fun v s1 => Loaded p ph s s1 v) ?_ .refl h
  intro x hx s1 s2 hadds1 hrun
  obtain ⟨f, hf, hnone, hself, hadds⟩ := loadPage_run (K := K) hrun
  refine ⟨hadds1.trans (hadds.mono fun v a ha => ⟨ha.1 ▸ hx, ha.2⟩), ?_, fun v _ hdone => ?_⟩
  · exact ⟨hadds1.none_of_none hnone, f, hadds1.free.subset hf, hself⟩
  · obtain ⟨h0, g, hg, h1⟩ := hdone
    exact ⟨h0, g, hg, hadds.old v _ h1⟩

theorem readPages_run {vs : List ℕ} {s0 : St} (hl : ∀ v ∈ vs, Loaded p ph s0 s v)
    (h : vs.forM (readPage p ph) s = .ok ((), s')) :
    ∃ mem, s' = { s with mem := mem } ∧ ∀ b, b / PGSIZE ∉ s0.free → mem b = s.mem b := by
  refine run_forMem (fun s1 => ∃ mem, s1 = { s with mem := mem } ∧ ∀ b, b / PGSIZE ∉ s0.free → mem b = s.mem b) ?_
    ⟨s.mem, rfl, fun _ _ => rfl⟩ h
  rintro x hv s1 s2 ⟨mem, rfl, hm⟩ hx
  replace hx := of_get_bind hx
  split at hx
  · cases hx
  rename_i hf0
  cases hx
  refine ⟨_, rfl, fun b hb => ?_⟩
  obtain ⟨-, f, hf, hleaf⟩ := hl x hv
  -- the frame that is written is the frame of the page
  have hpa : lookupPa (s.proc p) (x * PGSIZE) = f := by
    have hleaf' : (s.proc p).leaf (x * PGSIZE / PGSIZE) = some ⟨ph.type, f, ph.kind⟩ := by
      rw [Nat.mul_div_cancel x (by simp [PGSIZE])]
      exact hleaf
    simp only [lookupPa, hleaf'] at hf0 ⊢
    split at hf0 <;> simp_all
  grind

theorem filePages_subset (h : ph.filesz ≤ ph.memsz) : ∀ v ∈ ph.filePages, v ∈ List.range' ph.first ph.npages := by
  intro v hv
  unfold Phdr.filePages at hv
  split at hv
  · simp at hv
  · simp only [List.mem_range'_1, Phdr.first, Phdr.npages, PGSIZE] at hv ⊢
    omega

theorem freeRegion_va (h : freeRegion pr < NREGION) : (pr.mapped_info (freeRegion pr)).va = 0 := by
  unfold freeRegion at h ⊢
  cases hf : (List.range NREGION).find? fun j => (pr.mapped_info j).va = 0 with
  | none =>
    rw [hf] at h
    simp at h
  | some j => simpa using List.find?_some hf

/-- the record after a segment has been entered -/
def recorded (pr : Proc) (ph : Phdr) (ty : Seg) : Proc :=
  { pr with
    mapped_info := update pr.mapped_info (freeRegion pr) ⟨ph.vaddr, ph.npages % 2 ^ 32, ty⟩
    total_mapped_region := pr.total_mapped_region + 1 }

theorem recordSegment_run (h : recordSegment p ph s = .ok ((), s')) :
    freeRegion (s.proc p) < NREGION ∧ ∃ ty, ph.segType = some ty ∧
      s' = { s with proc := update s.proc p (recorded (s.proc p) ph ty) } := by
  replace h := of_get_bind h
  split at h
  · cases h
  · cases ht : ph.segType with
    | none =>
      rw [ht] at h
      cases h
    | some ty =>
      rw [ht] at h
      exact ⟨by omega, ty, rfl, (run_modify.1 h).symm⟩

variable {n : ℕ}

theorem freeRegion_ge (hr : Regions t pr) (hs : StackOk pr) (hh : HeapOk n pr)
    (hj : freeRegion pr < NREGION) : 4 ≤ freeRegion pr := by
  have h0 := freeRegion_va hj
  by_contra hlt
  have h3 : freeRegion pr = 0 ∨ freeRegion pr = 1 ∨ freeRegion pr = 2 ∨ freeRegion pr = 3 := by omega
  rcases h3 with e | e | e | e
  · rw [e, hs.region] at h0
    simp [STACK_PAGE, USER_STACK_TOP, PGSIZE] at h0
  · exact hr.context.2 (e ▸ h0)
  · exact hr.system.2 (e ▸ h0)
  · rw [e, hh.region] at h0
    simp [USER_FREE_ADDRESS_START, PGSIZE] at h0

theorem Regions.mapped {k : ℕ} (hr : Regions 0 pr) (hk : 4 ≤ k) (hc : (pr.mapped_info k).Covers v) :
    pr.leaf v ≠ none := by
  rcases hr.entry k hk with h | h | ⟨-, h⟩
  · obtain ⟨a, ha, -⟩ := hr.code k v hk (Nat.zero_le k) h hc
    simp [ha]
  · obtain ⟨a, ha, -⟩ := hr.data k v hk h hc
    simp [ha]
  · exact absurd hc (not_covers_of_empty h)

theorem segType_kind {ty : Seg} (h : ph.segType = some ty) :
    (ty = .code ∧ ph.kind = .code ∧ ph.type = TEXT_FLAGS) ∨ (ty = .data ∧ ph.kind = .data ∧ ph.type = DATA_FLAGS) := by
  unfold Phdr.segType at h
  unfold Phdr.kind
  grind [Phdr.type, TEXT_FLAGS, Phdr.readable, Phdr.writable, Phdr.executable, DATA_FLAGS]

theorem Regions.record {pr1 : Proc} {ty : Seg} (hr : Regions 0 pr) (hg : Grows N pr pr1)
    (hs : StackOk pr1) (hh : HeapOk n pr1) (hj : freeRegion pr1 < NREGION) (hty : ph.segType = some ty)
    (hl : ∀ v ∈ List.range' ph.first ph.npages, pr.leaf v = none ∧ IsKind ph.kind (pr1.leaf v)) :
    Regions 0 (recorded pr1 ph ty) := by
  have hr1 := hg.regions hr
  have h4 := freeRegion_ge hr1 hs hh hj
  have hinfo : pr1.mapped_info = pr.mapped_info := by
    obtain ⟨lf, d, tb, rfl⟩ := hg.rest
    rfl
  have hself : (recorded pr1 ph ty).mapped_info (freeRegion pr1) = ⟨ph.vaddr, ph.npages % 2 ^ 32, ty⟩ := by
    simp [recorded]
  have hother : ∀ k, k ≠ freeRegion pr1 → (recorded pr1 ph ty).mapped_info k = pr1.mapped_info k := by
    intro k hk
    simp [recorded, hk]
  have hcov : ∀ v, ((recorded pr1 ph ty).mapped_info (freeRegion pr1)).Covers v →
      v ∈ List.range' ph.first ph.npages := by
    grind [Region.Covers, Phdr.first]
  -- the pages of the other regions were mapped already
  have hclash : ∀ k v, 4 ≤ k → k ≠ freeRegion pr1 → ((recorded pr1 ph ty).mapped_info k).Covers v →
      ¬ ((recorded pr1 ph ty).mapped_info (freeRegion pr1)).Covers v := by
    intro k v hk hne hc hc'
    rw [hother k hne, hinfo] at hc
    exact hr.mapped hk hc (hl v (hcov v hc')).1
  have htypes := segType_kind hty
  refine
    { context := by rw [hother 1 (by omega)]; exact hr1.context
      system := by rw [hother 2 (by omega)]; exact hr1.system
      total := hr1.total.trans (Nat.le_succ _)
      entry := fun k hk => ?_
      data := fun k v hk hd hc => ?_
      code := fun k v hk _ hd hc => ?_
      disjoint := fun j k v hj' hk hc hc' => ?_ }
  · by_cases hne : k = freeRegion pr1
    · subst hne
      grind
    · rw [hother k hne]
      exact hr1.entry k hk
  · by_cases hne : k = freeRegion pr1
    · subst hne
      rw [hself] at hd
      rcases htypes with ⟨h, -⟩ | ⟨-, h, -⟩
      · rw [h] at hd
        cases hd
      · exact h ▸ (hl v (hcov v hc)).2
    · rw [hother k hne] at hd hc
      exact hr1.data k v hk hd hc
  · by_cases hne : k = freeRegion pr1
    · subst hne
      rw [hself] at hd
      rcases htypes with ⟨-, h, -⟩ | ⟨h, -⟩
      · exact h ▸ (hl v (hcov v hc)).2
      · rw [h] at hd
        cases hd
    · rw [hother k hne] at hd hc
      exact hr1.code k v hk (Nat.zero_le k) hd hc
  · by_cases hj1 : j = freeRegion pr1
    · grind [freeRegion]
    · by_cases hk1 : k = freeRegion pr1
      · exact absurd (hk1 ▸ hc') (hclash j v hj' hj1 hc)
      · rw [hother j hj1] at hc
        rw [hother k hk1] at hc'
        exact hr1.disjoint j k v hj' hk hc hc'

def LoadPte (elf : List Phdr) (v : ℕ) (a : Pte) : Prop :=
  (∃ ph ∈ elf, v ∈ List.range' ph.first ph.npages) ∧
    (a.kind = .code ∧ a.toFlags = TEXT_FLAGS ∨ a.kind = .data ∧ a.toFlags = DATA_FLAGS)

theorem LoadPte.mono {elf elf' : List Phdr} {a : Pte} (h : LoadPte elf v a) (hs : elf ⊆ elf') : LoadPte elf' v a := by
  obtain ⟨⟨ph, hph, hv⟩, hk⟩ := h
  exact ⟨⟨ph, hs hph, hv⟩, hk⟩

/-- what `elf_load` and each of its turns leave -/
structure LoadOk (n : ℕ) (pr : Proc) : Prop where
  regions : Regions 0 pr
  stack : StackOk pr
  heap : HeapOk n pr

theorem LoadOk.space (h : LoadOk n pr) : Space 0 pr := ⟨h.regions, h.stack, n, h.heap⟩

theorem loadSegment_run (h : loadSegment p ph s = .ok ((), s')) (hl : LoadOk n (s.proc p)) :
    Builds K (LoadPte [ph]) p s s' ∧ LoadOk n (s'.proc p) := by
  unfold loadSegment at h
  split at h
  · cases h
  rename_i hsz
  obtain ⟨_, s1, h1, h⟩ := run_bind.1 h
  obtain ⟨_, s2, h2, h⟩ := run_bind.1 h
  obtain ⟨hadds, hpages⟩ := loadPages_run (K := K) h1
  obtain ⟨mem, rfl, hmem⟩ := readPages_run (fun v hv => hpages v (filePages_subset (by omega) v hv)) h2
  obtain ⟨hj, ty, hty, rfl⟩ := recordSegment_run h
  have hgrows : Grows (LoadPte [ph]) (s.proc p) (s1.proc p) := by
    refine ⟨hadds.rest, hadds.old, fun v a ha => (hadds.new v a ha).imp_right ?_⟩
    rintro ⟨hv, hfl, hk⟩
    refine ⟨⟨ph, List.mem_singleton_self ph, hv⟩, (segType_kind hty).imp (fun h => ?_) fun h => ?_⟩
    · exact ⟨hk.trans h.2.1, hfl.trans h.2.2⟩
    · exact ⟨hk.trans h.2.1, hfl.trans h.2.2⟩
  have hN : ∀ v a, LoadPte [ph] v a → a.kind ≠ .heap := by grind [LoadPte]
  have hs1 := hgrows.stackOk hl.stack
  have hh1 := hgrows.heapOk hN hl.heap
  have h4 := freeRegion_ge (hgrows.regions hl.regions) hs1 hh1 hj
  have hleaf : ∀ q v, leafAt { s1 with mem := mem, proc := update s1.proc p (recorded (s1.proc p) ph ty) } q v =
      leafAt s1 q v := by
    grind [leafAt, recorded]
  refine ⟨?_, ?_⟩
  · exact
      { hadds with
        frames := fun hf => (hadds.frames hf).congr hleaf rfl rfl rfl fun _ _ => hasTables_update rfl rfl
        others := fun q hq => by simpa [hq] using hadds.others q hq
        old := fun v a ha => (hleaf p v).trans (hadds.old v a ha)
        new := fun v a ha => hgrows.new v a ((hleaf p v).symm.trans ha)
        mem := fun b hb => (hmem b hb).trans (hadds.mem b hb) }
  · have hproc : ({ s1 with mem := mem, proc := update s1.proc p (recorded (s1.proc p) ph ty) } : St).proc p =
        recorded (s1.proc p) ph ty := by simp
    rw [hproc]
    refine ⟨hl.regions.record hgrows hs1 hh1 hj hty fun v hv => ?_, ⟨?_, hs1.mapped⟩,
      ⟨hh1.bottom, hh1.top, ?_, hh1.mapped⟩⟩
    · obtain ⟨h0, f, -, h1⟩ := hpages v hv
      exact ⟨h0, _, h1, rfl⟩
    · rw [← hs1.region]
      simp [recorded, show (0 : ℕ) ≠ freeRegion (s1.proc p) by omega]
    · rw [← hh1.region]
      simp [recorded, show (3 : ℕ) ≠ freeRegion (s1.proc p) by omega]

/-- **`elf_load`** adds the pages of the segments to the page table and their regions behind the first four; no page in
use is touched. -/
theorem elfLoad_run {elf : List Phdr} (h : elfLoad p elf s = .ok ((), s')) (hl : LoadOk n (s.proc p)) :
    Builds K (LoadPte elf) p s s' ∧ LoadOk n (s'.proc p) := by
  refine run_forMem (fun s1 => Builds K (LoadPte elf) p s s1 ∧ LoadOk n (s1.proc p)) ?_ ⟨Adds.refl.toBuilds, hl⟩ h
  intro ph hph s1 s2 ⟨hb1, hl1⟩ hx
  obtain ⟨hb, hl2⟩ := loadSegment_run (K := K) hx hl1
  exact ⟨hb1.trans (hb.mono fun v a ha => ha.mono (by simpa using hph)), hl2⟩

end RiscvPke.Memory
