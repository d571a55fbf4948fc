/-
The free list and the reference counts of the page allocator agree over every run.
-/
import RiscvPke.Pmm.Model

namespace RiscvPke.Pmm

open Function Bytes Segment Run RiscvPke.System

variable {s s' s0 s1 : St} {l : List ℕ} {a b c i k n pa : ℕ} {op : Op}

/-! ## Pages and their numbers -/

def page (s : St) (k : ℕ) : ℕ := s.free_mem_start_addr + k * PGSIZE

def npages (s : St) : ℕ := freepages s.free_mem_start_addr s.free_mem_end_addr

/-- what `pmm_init` fixes for ever -/
structure Layout (s : St) : Prop where
  aligned : s.free_mem_start_addr % PGSIZE = 0
  pos : 0 < s.free_mem_start_addr
  span : s.free_mem_end_addr ≤ s.free_mem_start_addr + MAX_PAGES * PGSIZE
  small : s.free_mem_start_addr + MAX_PAGES * PGSIZE < 2 ^ 64

theorem roundup_aligned (h : a % PGSIZE = 0) (hpos : 0 < a) : ROUNDUP a PGSIZE = a := by
  unfold ROUNDUP
  simp only [PGSIZE] at *
  omega

theorem Layout.npages_eq (h : Layout s) : npages s = (s.free_mem_end_addr - s.free_mem_start_addr - 1) / PGSIZE := by
  rw [npages, freepages, roundup_aligned h.aligned h.pos]

theorem Layout.page_lt (h : Layout s) (hk : k < npages s) :
    page s k + PGSIZE < s.free_mem_end_addr ∧ k < MAX_PAGES := by
  have hs := h.span
  rw [h.npages_eq] at hk
  simp only [page, PGSIZE, MAX_PAGES] at *
  omega

theorem mem_managed : a ∈ managed s ↔ ∃ k, k < npages s ∧ page s k = a := by
  simp [managed, npages, page]

theorem Layout.index_eq (h : Layout s) (hlo : s.free_mem_start_addr ≤ pa) (hhi : pa < s.free_mem_end_addr) :
    indexOf s pa = some ((pa - s.free_mem_start_addr) / PGSIZE) := by
  have hspan := h.span
  have hdiv : ((pa : ℤ) - s.free_mem_start_addr) % 2 ^ 64 / 2 ^ PGSHIFT
      = ((pa - s.free_mem_start_addr) / PGSIZE : ℕ) := by
    simp only [PGSIZE, PGSHIFT, MAX_PAGES] at *
    omega
  have hlt : (pa - s.free_mem_start_addr) / PGSIZE < MAX_PAGES := by
    simp only [PGSIZE, MAX_PAGES] at *
    omega
  generalize (pa - s.free_mem_start_addr) / PGSIZE = j at hdiv hlt ⊢
  have hidx : getPageIndex s pa = (j : ℤ) := by
    unfold getPageIndex
    grind
  grind [indexOf]

theorem Layout.index_page (h : Layout s) (hk : k < npages s) : indexOf s (page s k) = some k := by
  have hlt := h.page_lt hk
  rw [h.index_eq (by simp only [page]; omega) (by omega)]
  simp only [page, PGSIZE]
  congr 1
  omega

theorem Layout.ref_page (h : Layout s) (hk : k < npages s) : getPageRef s (page s k) = s.page_ref_count k := by
  unfold getPageRef
  rw [h.index_page hk]

theorem page_injective : page s a = page s b ↔ a = b := by
  simp only [page, PGSIZE]
  omega

/-! ## The list in memory -/

def nextAt (s : St) (a : ℕ) : ℕ := loadN s.mem a 8

def Threaded (s : St) (l : List ℕ) : Prop := Seg (nextAt s) s.g_free_mem_list (l.map (page s)) 0

theorem Threaded.nodup (h : Threaded s l) : l.Nodup := List.Nodup.of_map _ (Seg.nodup h)

theorem nextAt_store (hne : a ≠ b) : loadN (storeN s.mem (page s a) 8 c) (page s b) 8 = nextAt s (page s b) := by
  apply loadN_storeN_of_disjoint
  simp only [page, PGSIZE]
  omega

theorem Threaded.push (h : Threaded s l) (hk : k ∉ l) (hpos : 0 < s.free_mem_start_addr)
    (hb : s.g_free_mem_list < 2 ^ 64) :
    Threaded { s with mem := storeN s.mem (page s k) 8 s.g_free_mem_list, g_free_mem_list := page s k } (k :: l) := by
  have hself : loadN (storeN s.mem (page s k) 8 s.g_free_mem_list) (page s k) 8 = s.g_free_mem_list :=
    loadN_storeN_self (by norm_num; exact hb)
  refine ⟨rfl, by simp only [page]; omega, ?_⟩
  show Seg _ (loadN (storeN s.mem (page s k) 8 s.g_free_mem_list) (page s k) 8) (l.map (page s)) 0
  rw [hself]
  apply Seg.congr h
  intro x hx
  obtain ⟨j, hj, rfl⟩ := List.mem_map.1 hx
  apply nextAt_store
  rintro rfl
  exact hk hj

/-! ## The invariant -/

structure Inv (s : St) (l : List ℕ) : Prop where
  layout : Layout s
  list : Threaded s l
  mem : ∀ k, k ∈ l ↔ k < npages s ∧ s.page_ref_count k = 0
  nonneg : ∀ k, 0 ≤ s.page_ref_count k
  beyond : ∀ k, npages s ≤ k → s.page_ref_count k = 0

theorem Inv.lt (h : Inv s l) (hk : 1 ≤ s.page_ref_count k) : k < npages s := by
  by_contra hn
  rw [h.beyond k (by omega)] at hk
  omega

theorem Inv.head_lt (h : Inv s l) : s.g_free_mem_list < 2 ^ 64 := by
  cases l with
  | nil =>
    have hz : s.g_free_mem_list = 0 := h.list
    omega
  | cons k l =>
    have hk := ((h.mem k).1 List.mem_cons_self).1
    have hlt := (h.layout.page_lt hk).1
    have hspan := h.layout.span
    have hsmall := h.layout.small
    rw [h.list.1]
    omega

theorem Inv.setCount (h : Inv s l) (hk : 1 ≤ s.page_ref_count k) {x : ℤ} (hx : 1 ≤ x) :
    Inv { s with page_ref_count := update s.page_ref_count k x } l := by
  have hlt := h.lt hk
  refine ⟨{ h.layout with }, h.list, fun j => ?_, fun j => ?_, fun j hj => ?_⟩
  · rw [h.mem j]
    by_cases hjk : j = k
    · grind
    · simp only [update_of_ne hjk]
      exact Iff.rfl
  · by_cases hjk : j = k
    · subst hjk
      simp only [update_self]
      omega
    · simp only [update_of_ne hjk]
      exact h.nonneg j
  · have hjk : j ≠ k := by
      have hn : npages s ≤ j := hj
      omega
    simp only [update_of_ne hjk]
    exact h.beyond j hj

def St.withCount (s : St) (k : ℕ) (x : ℤ) : St := { s with page_ref_count := update s.page_ref_count k x }

def St.released (s : St) (k : ℕ) : St :=
  { s.withCount k 0 with mem := storeN s.mem (page s k) 8 s.g_free_mem_list, g_free_mem_list := page s k }

def St.taken (s : St) (k : ℕ) : St := { s.withCount k 1 with g_free_mem_list := nextAt s (page s k) }

theorem taken_count : (s.taken k).page_ref_count k = 1 := update_self _ _ _

theorem Inv.release (h : Inv s l) (hk : k < npages s) (hl : k ∉ l) : Inv (s.released k) (k :: l) where
  layout := { h.layout with }
  list := h.list.push hl h.layout.pos h.head_lt
  mem j := by
    rw [List.mem_cons, h.mem j]
    by_cases hjk : j = k
    · subst hjk
      simp [St.released, St.withCount, npages] at *
      exact hk
    · simp [St.released, St.withCount, npages, hjk]
  nonneg j := by
    by_cases hjk : j = k
    · subst hjk
      simp [St.released, St.withCount]
    · simpa [St.released, St.withCount, hjk] using h.nonneg j
  beyond j hj := by
    by_cases hjk : j = k
    · subst hjk
      simp [St.released, St.withCount]
    · simpa [St.released, St.withCount, hjk] using h.beyond j hj

theorem Inv.take (h : Inv s (k :: l)) : Inv (s.taken k) l where
  layout := { h.layout with }
  list := h.list.2.2
  mem j := by
    have hnd := List.nodup_cons.1 h.list.nodup
    have hm := h.mem j
    rw [List.mem_cons] at hm
    by_cases hjk : j = k
    · subst hjk
      simp [St.taken, St.withCount, hnd.1]
    · simpa [St.taken, St.withCount, npages, hjk] using hm
  nonneg j := by
    by_cases hjk : j = k
    · subst hjk
      simp [St.taken, St.withCount]
    · simpa [St.taken, St.withCount, hjk] using h.nonneg j
  beyond j hj := by
    have hjk : j ≠ k := by
      rintro rfl
      have hlt := ((h.mem j).1 List.mem_cons_self).1
      have hn : npages s ≤ j := hj
      omega
    simpa [St.taken, St.withCount, hjk] using h.beyond j hj

theorem Inv.not_mem (h : Inv s l) (hk : 1 ≤ s.page_ref_count k) : k ∉ l := by
  intro hm
  have := ((h.mem k).1 hm).2
  omega

theorem Inv.write {m : ℕ → UInt8} (h : Inv s l) (hk : k ∉ l)
    (hmem : ∀ x, x < page s k ∨ page s k + PGSIZE ≤ x → m x = s.mem x) :
    Inv { s with mem := m } l := by
  refine ⟨{ h.layout with }, ?_, h.mem, h.nonneg, h.beyond⟩
  refine Seg.congr (l := l.map (page s)) h.list fun x hx => ?_
  obtain ⟨j, hj, rfl⟩ := List.mem_map.1 hx
  have hne : j ≠ k := by
    rintro rfl
    exact hk hj
  refine loadN_congr fun x h1 h2 => hmem x ?_
  simp only [page, PGSIZE] at *
  omega

/-! ## The functions -/

theorem allocPage_nil (h : Inv s []) : allocPage s = .ok (0, s) := by
  have hz : s.g_free_mem_list = 0 := h.list
  refine run_bind.2 ⟨s, s, run_get.2 ⟨rfl, rfl⟩, ?_⟩
  simp only [hz, if_true]
  exact run_pure.2 ⟨rfl, rfl⟩

theorem allocPage_cons (h : Inv s (k :: l)) : allocPage s = .ok (page s k, s.taken k) := by
  have hhead : s.g_free_mem_list = page s k := h.list.1
  have hne : page s k ≠ 0 := h.list.2.1
  have hidx := h.layout.index_page ((h.mem k).1 List.mem_cons_self).1
  refine run_bind.2 ⟨s, s, run_get.2 ⟨rfl, rfl⟩, ?_⟩
  simp only [hhead, if_neg hne]
  refine run_bind.2 ⟨(), { s with g_free_mem_list := nextAt s (page s k) }, run_set.2 rfl, ?_⟩
  rw [hidx]
  exact run_bind.2 ⟨(), _, run_modify.2 rfl, run_pure.2 ⟨rfl, rfl⟩⟩

section

variable (h : Layout s) (hk : k < npages s)

include h hk

theorem not_bad_page : ¬ (page s k % PGSIZE ≠ 0 ∨ page s k < s.free_mem_start_addr ∨
    s.free_mem_end_addr ≤ page s k) := by
  have hlt := (h.page_lt hk).1
  have hal := h.aligned
  simp only [page, PGSIZE] at *
  omega

omit h hk in
theorem allocPage_cases {pa : ℕ} {s' : St} (h : Inv s l) (hrun : allocPage s = .ok (pa, s')) (hpa : pa ≠ 0) :
    ∃ k l', pa = page s k ∧ s' = s.taken k ∧ Inv s' l' ∧ s.page_ref_count k = 0 := by
  cases l with
  | nil =>
    rw [allocPage_nil h] at hrun
    cases hrun
    exact absurd rfl hpa
  | cons k l =>
    rw [allocPage_cons h] at hrun
    cases hrun
    exact ⟨k, l, rfl, rfl, h.take, ((h.mem k).1 List.mem_cons_self).2⟩

theorem freePage_shared (hc : 1 < s.page_ref_count k) :
    freePage (page s k) s = .ok ((), s.withCount k (s.page_ref_count k - 1)) := by
  refine run_bind.2 ⟨s, s, run_get.2 ⟨rfl, rfl⟩, ?_⟩
  rw [if_neg (not_bad_page h hk), h.index_page hk]
  simp only [if_pos hc]
  exact run_modify.2 rfl

theorem freePage_last (hc : ¬ 1 < s.page_ref_count k) : freePage (page s k) s = .ok ((), s.released k) := by
  refine run_bind.2 ⟨s, s, run_get.2 ⟨rfl, rfl⟩, ?_⟩
  rw [if_neg (not_bad_page h hk), h.index_page hk]
  simp only [if_neg hc]
  exact run_bind.2 ⟨(), s.withCount k 0, run_modify.2 rfl, run_modify.2 rfl⟩

theorem incPageRef_run (hok : incPageRef (page s k) s = .ok ((), s')) :
    s' = s.withCount k (s.page_ref_count k + 1) := by
  have hx := of_get_bind hok
  rw [h.index_page hk] at hx
  simp only at hx
  split at hx
  · cases hx
  · exact (run_modify.1 hx).symm

theorem decPageRef_run (hc : 0 < s.page_ref_count k)
    (hok : decPageRef (page s k) s = .ok ((), s')) : s' = s.withCount k (s.page_ref_count k - 1) := by
  have hx := of_get_bind hok
  rw [h.index_page hk] at hx
  simp only [if_pos hc] at hx
  exact (run_modify.1 hx).symm

end

/-! ## pmm_init -/

/-- while the list is being built: the first `j` pages are in it -/
structure Building (j : ℕ) (s : St) : Prop where
  layout : Layout s
  count : ∀ k, s.page_ref_count k = 0
  list : ∃ l, Threaded s l ∧ ∀ k, k ∈ l ↔ k < j

theorem Building.head_lt {j : ℕ} (h : Building j s) (hj : j ≤ npages s) : s.g_free_mem_list < 2 ^ 64 := by
  obtain ⟨l, hl, hm⟩ := h.list
  cases l with
  | nil =>
    have hz : s.g_free_mem_list = 0 := hl
    omega
  | cons k l =>
    have hk := (hm k).1 List.mem_cons_self
    have hlt := (h.layout.page_lt (by omega : k < npages s)).1
    have hspan := h.layout.span
    have hsmall := h.layout.small
    rw [hl.1]
    omega

theorem Building.step {j : ℕ} (h : Building j s) (hj : j < npages s) (hok : addFreepage (page s j) s = .ok ((), s')) :
    Building (j + 1) s' ∧ s'.free_mem_start_addr = s.free_mem_start_addr ∧
      s'.free_mem_end_addr = s.free_mem_end_addr := by
  have hx := of_get_bind hok
  have href : getPageRef s (page s j) = 0 := (h.layout.ref_page hj).trans (h.count j)
  simp only [href] at hx
  obtain ⟨_, s1, h1, h2⟩ := run_bind.1 hx
  have hs1 : s1 = s := by
    have hc : update s.page_ref_count 0 0 = s.page_ref_count := by
      rw [← h.count 0, update_eq_self]
    rw [← run_modify.1 h1]
    simp only [Int.toNat_zero, hc]
  subst hs1
  obtain ⟨l, hl, hm⟩ := h.list
  have hnot : j ∉ l := fun hjl => absurd ((hm j).1 hjl) (lt_irrefl j)
  have hrel := freePage_last h.layout hj (by rw [h.count]; omega)
  rw [hrel] at h2
  cases h2
  refine ⟨⟨{ h.layout with }, fun k => ?_, j :: l, ?_, fun k => ?_⟩, rfl, rfl⟩
  · by_cases hk : k = j
    · subst hk
      simp [St.released, St.withCount]
    · simpa [St.released, St.withCount, hk] using h.count k
  · exact hl.push hnot h.layout.pos (h.head_lt (by omega))
  · rw [List.mem_cons, hm k]
    omega

theorem Building.inv (h : Building (npages s) s) : ∃ l, Inv s l := by
  obtain ⟨l, hl, hm⟩ := h.list
  refine ⟨l, h.layout, hl, fun k => ?_, fun k => (h.count k).ge, fun k _ => h.count k⟩
  rw [hm k, h.count k]
  simp

theorem createFreepageList_run (hL : Layout s) (hc : ∀ k, s.page_ref_count k = 0)
    (hok : createFreepageList s.free_mem_start_addr s.free_mem_end_addr s = .ok ((), s')) :
    (∃ l, Inv s' l) ∧ ∀ k, s'.page_ref_count k = 0 := by
  obtain ⟨_, _, ⟨⟩, h2⟩ := run_bind.1 hok
  rw [roundup_aligned hL.aligned hL.pos] at h2
  have key := run_forRange (fun j t => Building j t ∧ t.free_mem_start_addr = s.free_mem_start_addr ∧
    t.free_mem_end_addr = s.free_mem_end_addr) ?_ ?_ h2
  · obtain ⟨hb, hs, he⟩ := key
    have hn : freepages s.free_mem_start_addr s.free_mem_end_addr = npages s' := by rw [npages, hs, he]
    rw [hn] at hb
    exact ⟨hb.inv, hb.count⟩
  · intro j t t' hj ⟨hb, hs, he⟩ hx
    have hpage : page t j = s.free_mem_start_addr + j * PGSIZE := by rw [page, hs]
    have hn : npages t = freepages s.free_mem_start_addr s.free_mem_end_addr := by rw [npages, hs, he]
    rw [← hpage] at hx
    obtain ⟨hb', hs', he'⟩ := hb.step (by omega) hx
    exact ⟨hb', hs'.trans hs, he'.trans he⟩
  · refine ⟨⟨{ hL with }, hc, [], rfl, by simp⟩, rfl, rfl⟩

theorem initialized_inv (h : Initialized s) : (∃ l, Inv s l) ∧ ∀ k, s.page_ref_count k = 0 := by
  obtain ⟨s0, kernelEnd, memSize, hc, h64, hok⟩ := h
  obtain ⟨_, _, ⟨⟩, h2⟩ := run_bind.1 hok
  split at h2
  · cases h2
  · rename_i hsize
    obtain ⟨_, s2, h3, h4⟩ := run_bind.1 h2
    have hs2 := run_modify.1 h3
    rw [run_get_bind] at h4
    have hstart : s2.free_mem_start_addr = ROUNDUP kernelEnd PGSIZE := by rw [← hs2]
    have hstop : s2.free_mem_end_addr = min PKE_MAX_ALLOWABLE_RAM memSize + DRAM_BASE := by rw [← hs2]
    -- the kernel ends behind its start, or its size would be larger than the memory
    have hend : KERN_BASE ≤ kernelEnd ∧ kernelEnd ≤ KERN_BASE + min PKE_MAX_ALLOWABLE_RAM memSize := by
      simp only [KERN_BASE, PKE_MAX_ALLOWABLE_RAM] at *
      omega
    simp only [ROUNDUP, KERN_BASE, DRAM_BASE, PGSIZE, PKE_MAX_ALLOWABLE_RAM] at hstart hstop hend
    refine createFreepageList_run ⟨?_, ?_, ?_, ?_⟩ (by rw [← hs2]; exact hc) h4
    · rw [hstart]
      simp [PGSIZE]
    · omega
    · simp only [PGSIZE, MAX_PAGES]
      omega
    · simp only [PGSIZE, MAX_PAGES]
      omega

/-! ## Runs -/

/-- the references to each page, by page number, that were handed out and not given up -/
abbrev Refs := ℕ → ℤ

def Refs.add (r : Refs) (pa : ℕ) (d : ℤ) : Refs := update r (pa / PGSIZE) (r (pa / PGSIZE) + d)

/-- `alloc_page` hands out a reference to the page it returns, the first of the list -/
def record (s : St) (op : Op) (_s' : St) (r : Refs) : Refs :=
  match op with
  | .alloc => if s.g_free_mem_list = 0 then r else r.add s.g_free_mem_list 1
  | .free pa => r.add pa (-1)
  | .inc pa => r.add pa 1
  | .dec pa => r.add pa (-1)

/-- the counts are the references -/
def Counted (s : St) (r : Refs) : Prop := ∀ k, k < npages s → s.page_ref_count k = r (page s k / PGSIZE)

theorem Counted.add {r : Refs} (h : Counted s r) {d : ℤ} (hs : s'.free_mem_start_addr = s.free_mem_start_addr)
    (he : s'.free_mem_end_addr = s.free_mem_end_addr)
    (hc : s'.page_ref_count = update s.page_ref_count k (s.page_ref_count k + d)) (hk : k < npages s) :
    Counted s' (r.add (page s k) d) := by
  intro j hj
  have hn : npages s' = npages s := by rw [npages, npages, hs, he]
  have hp : page s' j = page s j := by rw [page, page, hs]
  rw [hn] at hj
  rw [hp, hc, Refs.add]
  by_cases hjk : j = k
  · subst hjk
    rw [update_self, update_self, h j hj]
  · have hne : page s j / PGSIZE ≠ page s k / PGSIZE := by
      simp only [page, PGSIZE] at *
      omega
    rw [update_of_ne hjk, update_of_ne hne, h j hj]

theorem step_run (h : step s op = .ok s') : act op s = .ok ((), s') := by
  unfold step at h
  cases ha : act op s with
  | error e => rw [ha] at h; cases h
  | ok r =>
    rw [ha] at h
    cases h
    rfl

/-- **Every call keeps list, counts and references together**: the free list holds the pages whose count is 0, once
each, and the count of a page is the number of references to it. -/
theorem inv_step {r : Refs} (h : Inv s l) (hr : Counted s r) (ha : Allowed s op) (hst : step s op = .ok s') :
    ∃ l', Inv s' l' ∧ Counted s' (record s op s' r) := by
  have hx := step_run hst
  cases op with
  | alloc =>
    obtain ⟨p, s1, h1, h2⟩ := run_bind.1 hx
    cases h2
    cases l with
    | nil =>
      rw [allocPage_nil h] at h1
      cases h1
      have hz : s.g_free_mem_list = 0 := h.list
      refine ⟨[], h, ?_⟩
      rw [record, if_pos hz]
      exact hr
    | cons k l =>
      rw [allocPage_cons h] at h1
      cases h1
      have hk := (h.mem k).1 List.mem_cons_self
      have hhead : s.g_free_mem_list = page s k := h.list.1
      refine ⟨l, h.take, ?_⟩
      rw [record, hhead, if_neg h.list.2.1]
      refine hr.add rfl rfl ?_ hk.1
      rw [hk.2]
      rfl
  | free pa =>
    obtain ⟨hm, hc⟩ := ha
    obtain ⟨k, hk, rfl⟩ := mem_managed.1 hm
    rw [h.layout.ref_page hk] at hc
    by_cases h1 : 1 < s.page_ref_count k
    · have hf : freePage (page s k) s = .ok ((), s') := hx
      rw [freePage_shared h.layout hk h1] at hf
      cases hf
      exact ⟨l, h.setCount hc (by omega), hr.add rfl rfl rfl hk⟩
    · have hf : freePage (page s k) s = .ok ((), s') := hx
      rw [freePage_last h.layout hk h1] at hf
      cases hf
      have hl : k ∉ l := by
        intro hkl
        have := ((h.mem k).1 hkl).2
        omega
      refine ⟨k :: l, h.release hk hl, hr.add rfl rfl ?_ hk⟩
      have hone : s.page_ref_count k + -1 = 0 := by omega
      rw [hone]
      rfl
  | inc pa =>
    obtain ⟨hm, hc⟩ := ha
    obtain ⟨k, hk, rfl⟩ := mem_managed.1 hm
    rw [h.layout.ref_page hk] at hc
    obtain rfl := incPageRef_run h.layout hk hx
    exact ⟨l, h.setCount hc (by omega), hr.add rfl rfl rfl hk⟩
  | dec pa =>
    obtain ⟨hm, hc⟩ := ha
    obtain ⟨k, hk, rfl⟩ := mem_managed.1 hm
    rw [h.layout.ref_page hk] at hc
    obtain rfl := decPageRef_run h.layout hk (by omega) hx
    exact ⟨l, h.setCount (by omega) (by omega), hr.add rfl rfl rfl hk⟩

theorem inv_reach {t : St × Refs} (hs : Reach (logged step record) (fun t op => Allowed t.1 op)
    (fun t => Initialized t.1 ∧ ∀ f, t.2 f = 0) t) : ∃ l, Inv t.1 l ∧ Counted t.1 t.2 := by
  refine Reach.inv (P := fun t => ∃ l, Inv t.1 l ∧ Counted t.1 t.2) ?_ ?_ hs
  · intro t ⟨hi, hz⟩
    obtain ⟨⟨l, hl⟩, hc⟩ := initialized_inv hi
    exact ⟨l, hl, fun k _ => (hc k).trans (hz _).symm⟩
  · intro t op t' ⟨l, hi, hr⟩ ha hst
    obtain ⟨hst, hlog⟩ := logged_ok.1 hst
    obtain ⟨l', hi', hr'⟩ := inv_step hi hr ha hst
    exact ⟨l', hi', hlog ▸ hr'⟩

/-! ## The allocator -/

/-- the free list: no page twice, and exactly the managed pages with count 0 -/
structure FreeList (s : St) (l : List ℕ) : Prop where
  chain : Seg (nextAt s) s.g_free_mem_list l 0
  nodup : l.Nodup
  mem : ∀ p, p ∈ l ↔ p ∈ managed s ∧ getPageRef s p = 0

theorem Inv.freeList (h : Inv s l) : FreeList s (l.map (page s)) where
  chain := h.list
  nodup := Seg.nodup h.list
  mem p := by
    rw [List.mem_map]
    constructor
    · intro ⟨k, hk, hp⟩
      obtain ⟨hlt, hc⟩ := (h.mem k).1 hk
      subst hp
      exact ⟨mem_managed.2 ⟨k, hlt, rfl⟩, (h.layout.ref_page hlt).trans hc⟩
    · intro ⟨hm, hc⟩
      obtain ⟨k, hlt, rfl⟩ := mem_managed.1 hm
      rw [h.layout.ref_page hlt] at hc
      exact ⟨k, (h.mem k).2 ⟨hlt, hc⟩, rfl⟩

/-- `alloc_page` returns 0 if and only if every managed page has a reference; otherwise a page that has none, which then
has one -/
def Allocates (s : St) : Prop :=
  ∃ r s', allocPage s = .ok (r, s') ∧ (r = 0 ↔ ∀ p ∈ managed s, 1 ≤ getPageRef s p) ∧
    (r ≠ 0 → r ∈ managed s ∧ getPageRef s r = 0 ∧ getPageRef s' r = 1 ∧ ∀ p ∈ managed s,
      p ≠ r → getPageRef s' p = getPageRef s p)

/-- `free_page` of the page `p` releases it if and only if its count was 1; `l` is the free list before -/
def Releases (s : St) (l : List ℕ) (p : ℕ) : Prop :=
  ∃ s' l', freePage p s = .ok ((), s') ∧ FreeList s' l' ∧ (p ∈ l' ↔ getPageRef s p = 1) ∧ ∀ x, x ≠ p → (x ∈ l' ↔ x ∈ l)

theorem withCount_ref (h : Layout s) {x : ℤ} {j : ℕ} (hj : j < npages s)
    (hs : s'.free_mem_start_addr = s.free_mem_start_addr) (he : s'.free_mem_end_addr = s.free_mem_end_addr)
    (hc : s'.page_ref_count = update s.page_ref_count k x) :
    getPageRef s' (page s j) = if j = k then x else getPageRef s (page s j) := by
  have hL : Layout s' := ⟨hs ▸ h.aligned, hs ▸ h.pos, by rw [hs, he]; exact h.span, hs ▸ h.small⟩
  have hp : page s' j = page s j := by rw [page, page, hs]
  have hn : npages s' = npages s := by rw [npages, npages, hs, he]
  rw [← hp, hL.ref_page (hn ▸ hj), hp, h.ref_page hj, hc, update_apply]

theorem Inv.allocates (h : Inv s l) : Allocates s := by
  cases l with
  | nil =>
    refine ⟨0, s, allocPage_nil h, ⟨fun _ p hp => ?_, fun _ => rfl⟩, fun h0 => absurd rfl h0⟩
    obtain ⟨k, hk, rfl⟩ := mem_managed.1 hp
    rw [h.layout.ref_page hk]
    have hne : s.page_ref_count k ≠ 0 := fun hz => List.not_mem_nil ((h.mem k).2 ⟨hk, hz⟩)
    have := h.nonneg k
    omega
  | cons k l =>
    obtain ⟨hk, hz⟩ := (h.mem k).1 List.mem_cons_self
    have hm : page s k ∈ managed s := mem_managed.2 ⟨k, hk, rfl⟩
    have hfree : getPageRef s (page s k) = 0 := (h.layout.ref_page hk).trans hz
    have href : ∀ j, j < npages s → getPageRef (s.taken k) (page s j) = if j = k then 1 else getPageRef s (page s j) :=
      fun j hj => withCount_ref h.layout hj rfl rfl rfl
    refine ⟨page s k, _, allocPage_cons h, ⟨fun h0 => absurd h0 h.list.2.1, fun hall => ?_⟩,
      fun _ => ⟨hm, hfree, ?_, ?_⟩⟩
    · have := hall _ hm
      omega
    · rw [href k hk, if_pos rfl]
    · grind [mem_managed]

theorem Inv.releases (h : Inv s l) (hk : k < npages s) (hc : 1 ≤ s.page_ref_count k) :
    Releases s (l.map (page s)) (page s k) := by
  have hl : k ∉ l := by
    intro hkl
    have := ((h.mem k).1 hkl).2
    omega
  have hmem : ∀ j, page s j ∈ l.map (page s) ↔ j ∈ l := fun j => List.mem_map_of_injective fun _ _ => page_injective.1
  rw [Releases, h.layout.ref_page hk]
  by_cases h1 : 1 < s.page_ref_count k
  · refine ⟨_, _, freePage_shared h.layout hk h1, (h.setCount hc (by omega)).freeList, ?_, fun x _ => Iff.rfl⟩
    constructor
    · intro hm
      exact absurd ((hmem k).1 hm) hl
    · intro hone
      omega
  · refine ⟨_, _, freePage_last h.layout hk h1, (h.release hk hl).freeList, ?_, fun x hx => ?_⟩
    · constructor
      · intro _
        omega
      · intro _
        exact List.mem_cons_self
    · show x ∈ page s k :: l.map (page s) ↔ _
      simp [hx]

/-- **The physical page allocator.** In every state of every run in which references are only taken and given up by
those who hold one: the free list holds each managed page without a reference once and nothing else, the counts are the
references that are held, and `alloc_page` and `free_page` do what they are for. -/
theorem page_allocator {t : St × Refs} (hs : Reach (logged step record) (fun t op => Allowed t.1 op)
    (fun t => Initialized t.1 ∧ ∀ f, t.2 f = 0) t) :
    ∃ l, FreeList t.1 l ∧ (∀ p ∈ managed t.1, getPageRef t.1 p = t.2 (p / PGSIZE)) ∧ Allocates t.1 ∧
      ∀ p ∈ managed t.1, 1 ≤ getPageRef t.1 p → Releases t.1 l p := by
  obtain ⟨l, hi, hr⟩ := inv_reach hs
  refine ⟨l.map (page t.1), hi.freeList, fun p hp => ?_, hi.allocates, fun p hp hc => ?_⟩
  · obtain ⟨k, hk, rfl⟩ := mem_managed.1 hp
    rw [hi.layout.ref_page hk, hr k hk]
  · obtain ⟨k, hk, rfl⟩ := mem_managed.1 hp
    rw [hi.layout.ref_page hk] at hc
    exact hi.releases hk hc

/-! ## A run -/

def bootState : St :=
  match pmmInit (KERN_BASE + PGSIZE + 12) (8 * PGSIZE) ⟨fun _ => 0, fun _ => 0, 0, 0, 0⟩ with
  | .ok (_, s) => s
  | .error _ => ⟨fun _ => 0, fun _ => 0, 0, 0, 0⟩

theorem bootState_initialized : Initialized bootState :=
  ⟨⟨fun _ => 0, fun _ => 0, 0, 0, 0⟩, KERN_BASE + PGSIZE + 12, 8 * PGSIZE, fun _ => rfl, by decide, by rfl⟩

def twoPages : List Op := [.alloc, .inc 0x80006000, .alloc, .free 0x80006000, .free 0x80006000]

def bootRefs : St × Refs := (bootState, fun _ => 0)

def oneTaken : St × Refs := exec (logged step record) bootRefs twoPages

theorem page_allocator_oneTaken : getPageRef oneTaken.1 0x80005000 = 1 ∧ Allocates oneTaken.1 ∧
    ∃ l, FreeList oneTaken.1 l ∧ 0x80006000 ∈ l ∧ Releases oneTaken.1 l 0x80005000 := by
  have hreach : Reach (logged step record) (fun t op => Allowed t.1 op) (fun t => Initialized t.1 ∧ ∀ f,
    t.2 f = 0) oneTaken :=
    reach_decide twoPages bootRefs
      (.init ⟨bootState_initialized, fun _ => rfl⟩) (by decide +kernel)
  have hone : getPageRef oneTaken.1 0x80005000 = 1 := by decide +kernel
  obtain ⟨l, hl, -, ha, hr⟩ := page_allocator hreach
  exact ⟨hone, ha, l, hl, (hl.mem _).2 ⟨by decide +kernel, by decide +kernel⟩,
    hr _ (by decide +kernel) (by rw [hone])⟩

end RiscvPke.Pmm
