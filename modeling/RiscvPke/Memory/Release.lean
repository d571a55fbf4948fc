/-
Giving pages back: `user_vm_unmap`, the loop of `do_exec` over the regions, and the release of the heap at exit.
-/
import RiscvPke.Memory.Load

namespace RiscvPke.Memory

open Function Run RiscvPke.Count

variable {K : Machine} {s s' s1 s2 : St} {p q : Slot} {v w f g : ℕ} {l m : List ℕ} {o : Option Pte} {a b : Pte}
  {t n : ℕ}

structure Unmaps (K : Machine) (p : Slot) (s s' : St) : Prop where
  frames : Frames K s'
  life : s'.life = s.life
  others : ∀ q, q ≠ p → s'.proc q = s.proc q
  rest : ∃ lf mi, s'.proc p = { s.proc p with leaf := lf, mapped_info := mi }
  sub : ∀ v a, leafAt s' p v = some a → leafAt s p v = some a
  free : s.free <:+ s'.free
  mem : ∀ q w b, leafAt s' q w = some b → b.kind ≠ .spill → ∀ x, x / PGSIZE = b.ppn → s'.mem x = s.mem x

theorem Unmaps.refl (h : Frames K s) : Unmaps K p s s where
  frames := h
  life := rfl
  others _ _ := rfl
  rest := ⟨_, _, rfl⟩
  sub _ _ h := h
  free := List.suffix_refl _
  mem _ _ _ _ _ _ _ := rfl

theorem Unmaps.leaf_of (h : Unmaps K p s s') (hb : leafAt s' q w = some b) : leafAt s q w = some b := by
  by_cases hq : q = p
  · subst hq
    exact h.sub w b hb
  · rw [leafAt, h.others q hq] at hb
    exact hb

theorem Unmaps.trans (h1 : Unmaps K p s s1) (h2 : Unmaps K p s1 s2) : Unmaps K p s s2 where
  frames := h2.frames
  life := h2.life.trans h1.life
  others q hq := (h2.others q hq).trans (h1.others q hq)
  rest := by
    obtain ⟨lf, mi, e1⟩ := h1.rest
    obtain ⟨lf', mi', e2⟩ := h2.rest
    exact ⟨lf', mi', by rw [e2, e1]⟩
  sub v a ha := h1.sub v a (h2.sub v a ha)
  free := h1.free.trans h2.free
  mem q w b hb hk x hx := (h2.mem q w b hb hk x hx).trans (h1.mem q w b (h2.leaf_of hb) hk x hx)

theorem Unmaps.none_of_none (h : Unmaps K p s s') (hn : leafAt s p v = none) : leafAt s' p v = none := by
  by_contra hne
  obtain ⟨a, ha⟩ := Option.ne_none_iff_exists'.1 hne
  rw [h.sub v a ha] at hn
  cases hn

def MayUnmap (free : Bool) (a : Pte) : Prop := if free then a.kind.counted = true else a.kind ≠ .heap

theorem unref_free_suffix : s.free <:+ (s.unref f).free := by
  grind [unref_free_of_lt, unref_free_of_le]

theorem Frames.ref_one (h : Frames K s) (ha : leafAt s p v = some a) (hc : a.kind.counted = true)
    (hk : a.kind ≠ .heap) :
    s.page_ref_count a.ppn = 1 := by
  have hcount := h.count p v a ha hc
  have hkey : Counted (countedAt s) a.ppn 1 := by
    refine ⟨{(p, v)}, fun k => ?_, rfl⟩
    rw [Finset.mem_singleton, countedAt_eq_some]
    constructor
    · grind
    · rintro ⟨b, hb, hbc, he⟩
      by_contra hne
      exact h.not_counted ha hk hb hbc (fun e => hne e.symm) (Kind.counted_ne_spill hc) he.symm
  exact hcount.unique hkey

theorem unmapPage_unmaps {free : Bool} (h : unmapPage K p free v s = .ok ((), s')) (hf : Frames K s)
    (hk : ∀ a, leafAt s p v = some a → MayUnmap free a) :
    Unmaps K p s s' ∧ leafAt s' p v = none ∧ (∀ w, w ≠ v → leafAt s' p w = leafAt s p w) ∧
      (s'.proc p).mapped_info = (s.proc p).mapped_info ∧
      (free = true → (∀ a, leafAt s p v = some a → a.kind ≠ .heap) → s'.free ≠ []) := by
  obtain ⟨a, ha, -, rfl⟩ := unmapPage_run h
  have hmay := hk a ha
  have hkeep : ∀ t : St, (∀ w, leafAt t p w = leafAt s p w) → ∀ w, w ≠ v →
      leafAt (t.withLeaf p v none) p w = leafAt s p w := by
    intro t ht w hw
    rw [leafAt_withLeaf_of_ne (fun e => hw (Prod.mk.inj e).2), ht]
  cases free with
  | false =>
    refine ⟨?_, leafAt_withLeaf_self, hkeep s fun _ => rfl, by simp, by simp⟩
    exact
      { frames := hf.drop fun b hb => by
          rw [ha] at hb
          cases hb
          exact hmay
        life := rfl
        others := fun q hq => withLeaf_proc_of_ne hq
        rest := ⟨_, _, withLeaf_proc_self⟩
        sub := fun w b hb => (leafAt_withLeaf_none hb).2
        free := List.suffix_refl _
        mem := fun _ _ _ _ _ _ _ => rfl }
  | true =>
    refine ⟨?_, leafAt_withLeaf_self, hkeep _ fun _ => leafAt_unref, by simp, ?_⟩
    · exact
        { frames := hf.release ha hmay
          life := unref_life
          others := fun q hq => (withLeaf_proc_of_ne hq).trans (by simp)
          rest := ⟨_, _, by rw [if_pos rfl, withLeaf_proc_self, unref_proc]⟩
          sub := fun w b hb => by
            have := (leafAt_withLeaf_none hb).2
            rwa [if_pos rfl, leafAt_unref] at this
          free := unref_free_suffix
          mem := fun q w b hb hbk x hx => by
            obtain ⟨hne, hb⟩ := leafAt_withLeaf_none hb
            rw [if_pos rfl, leafAt_unref] at hb
            rw [if_pos rfl, withLeaf_mem]
            by_cases he : b.ppn = a.ppn
            · -- another entry holds the page, so `free_page` only counts down
              have hlt : 1 < s.page_ref_count a.ppn := by
                by_contra hle
                exact hne (hf.eq_of_last ha hmay (by omega) hb hbk he)
              rw [St.unref, if_pos hlt]
            · exact unref_mem (by rw [hx]; exact he) }
    · intro _ hnh
      have hone := hf.ref_one ha hmay (hnh a ha)
      rw [if_pos rfl, withLeaf_free, unref_free_of_le hone.le]
      exact List.cons_ne_nil _ _

/-- **A loop of `user_vm_unmap` over the pages `vs`** removes their entries and no others, and leaves the region table
alone. If it frees pages and one of them was no heap page, the free list is not empty at the end. -/
theorem unmapPages_run {free : Bool} {vs : List ℕ} (h : vs.forM (unmapPage K p free) s = .ok ((), s')) (hf : Frames K s)
    (hk : ∀ v ∈ vs, ∀ a, leafAt s p v = some a → MayUnmap free a) :
    Unmaps K p s s' ∧ (∀ v ∈ vs, leafAt s' p v = none) ∧ (∀ v, v ∉ vs → leafAt s' p v = leafAt s p v) ∧
      (s'.proc p).mapped_info = (s.proc p).mapped_info ∧
      (free = true → (∃ v ∈ vs, ∀ a, leafAt s p v = some a → a.kind ≠ .heap) → s'.free ≠ []) := by
  induction vs generalizing s with
  | nil =>
    cases h
    exact ⟨.refl hf, by simp, fun _ _ => rfl, rfl, by simp⟩
  | cons x xs ih =>
    obtain ⟨_, s1, h1, h⟩ := run_bind.1 h
    obtain ⟨hu, hgone, hkeep, hinfo, hne⟩ := unmapPage_unmaps h1 hf (hk x List.mem_cons_self)
    obtain ⟨hu', hgone', hkeep', hinfo', hne'⟩ :=
      ih h hu.frames fun v hv a ha => hk v (List.mem_cons_of_mem x hv) a (hu.sub v a ha)
    refine ⟨hu.trans hu', fun v hv => ?_, fun v hv => ?_, hinfo'.trans hinfo, fun hfr hex => ?_⟩
    · grind
    · rw [List.mem_cons, not_or] at hv
      rw [hkeep' v hv.2, hkeep v hv.1]
    · obtain ⟨v, hv, hva⟩ := hex
      rcases List.mem_cons.1 hv with rfl | hv
      · exact hu'.free.ne_nil (hne hfr hva)
      · exact hne' hfr ⟨v, hv, fun a ha => hva a (hu.sub v a ha)⟩

/-! ## do_exec -/

def Drops (r : Region) : Prop :=
  (r.seg_type = .code ∨ r.seg_type = .data ∨ r.seg_type = .stack ∨ r.seg_type = .heap) ∧ 0 < r.npages

def dropPages (r : Region) : List ℕ := List.range' (r.va / PGSIZE) (r.npages % 2 ^ 20)

theorem covers_of_mem_dropPages {r : Region} (h : v ∈ dropPages r) : r.Covers v := by
  simp only [dropPages, List.mem_range'_1] at h
  exact ⟨h.1, by omega⟩

variable {i : ℕ}

theorem dropRegion_run (h : dropRegion K p i s = .ok ((), s')) (hf : Frames K s)
    {r : Region} (hr : (s.proc p).mapped_info i = r)
    (hk : Drops r → ∀ v ∈ dropPages r, ∀ a, leafAt s p v = some a → MayUnmap (r.seg_type ≠ .code) a) :
    (¬ Drops r ∧ s' = s) ∨ Drops r ∧ Unmaps K p s s' ∧ (∀ v ∈ dropPages r, leafAt s' p v = none) ∧
      (∀ v, v ∉ dropPages r → leafAt s' p v = leafAt s p v) ∧
      (s'.proc p).mapped_info = update (s.proc p).mapped_info i noRegion ∧
      (r.seg_type ≠ .code → (∃ v ∈ dropPages r, ∀ a, leafAt s p v = some a → a.kind ≠ .heap) → s'.free ≠ []) := by
  unfold dropRegion at h
  split at h
  · cases h
  rw [run_get_bind] at h
  simp only [hr] at h
  split at h
  · rename_i hd
    have hd' : Drops r := hd
    obtain ⟨_, s1, h1, h⟩ := run_bind.1 h
    unfold userVmUnmap at h1
    rw [if_neg (by simp [PGSIZE]), Nat.mul_div_cancel _ (by simp [PGSIZE])] at h1
    have hcnt : (r.npages * PGSIZE % 2 ^ 32 + PGSIZE - 1) / PGSIZE = r.npages % 2 ^ 20 := by
      simp only [PGSIZE]
      omega
    rw [hcnt] at h1
    obtain ⟨hu, hgone, hkeep, hinfo, hne⟩ := unmapPages_run h1 hf (hk hd')
    cases h
    have hleaf : ∀ q v, leafAt { s1 with proc := update s1.proc p { s1.proc p with
        mapped_info := update (s1.proc p).mapped_info i noRegion } } q v = leafAt s1 q v := by
      grind [leafAt]
    refine .inr ⟨hd', ?_, fun v hv => (hleaf p v).trans (hgone v hv), fun v hv => (hleaf p v).trans (hkeep v hv), ?_,
      fun hc => hne (by simpa using hc)⟩
    · exact
        { hu with
          frames := hu.frames.congr hleaf rfl rfl rfl fun _ _ => hasTables_update rfl rfl
          others := fun q hq => by simpa [hq] using hu.others q hq
          rest := by
            obtain ⟨lf, mi, e⟩ := hu.rest
            exact ⟨lf, update mi i noRegion, by simp [e]⟩
          sub := fun v a ha => hu.sub v a ((hleaf p v).symm.trans ha)
          mem := fun q w b hb => hu.mem q w b ((hleaf q w).symm.trans hb) }
    · simp [hinfo]
  · rename_i hd
    cases h
    exact .inl ⟨hd, rfl⟩

theorem Regions.cleared {pr pr' : Proc} (hr : Regions t pr) (h1 : i ≠ 1) (h2 : i ≠ 2)
    (hinfo : pr'.mapped_info = update pr.mapped_info i noRegion)
    (htotal : pr'.total_mapped_region = pr.total_mapped_region)
    (hkeep : ∀ k v, 4 ≤ k → k ≠ i → (pr.mapped_info k).Covers v →
      (IsKind .data (pr.leaf v) ∨ IsKind .code (pr.leaf v)) → pr'.leaf v = pr.leaf v) : Regions t pr' := by
  have hself : pr'.mapped_info i = noRegion := by rw [hinfo]; simp
  have hother : ∀ k, k ≠ i → pr'.mapped_info k = pr.mapped_info k := by
    intro k hk
    rw [hinfo]
    simp [hk]
  have hempty : ∀ v, ¬ (pr'.mapped_info i).Covers v := by
    intro v
    rw [hself]
    exact not_covers_of_empty rfl
  refine
    { context := by rw [hother 1 h1.symm]; exact hr.context
      system := by rw [hother 2 h2.symm]; exact hr.system
      total := htotal ▸ hr.total
      entry := fun k hk => ?_
      data := fun k v hk hd hc => ?_
      code := fun k v hk ht hd hc => ?_
      disjoint := fun j k v hj hk hc hc' => ?_ }
  · by_cases hne : k = i
    · subst hne
      rw [hself]
      exact .inr (.inr ⟨rfl, rfl⟩)
    · rw [hother k hne]
      exact hr.entry k hk
  · have hne : k ≠ i := fun e => hempty v (e ▸ hc)
    rw [hother k hne] at hd hc
    have hkind := hr.data k v hk hd hc
    rw [hkeep k v hk hne hc (.inl hkind)]
    exact hkind
  · have hne : k ≠ i := fun e => hempty v (e ▸ hc)
    rw [hother k hne] at hd hc
    have hkind := hr.code k v hk ht hd hc
    rw [hkeep k v hk hne hc (.inr hkind)]
    exact hkind
  · have hnj : j ≠ i := fun e => hempty v (e ▸ hc)
    have hnk : k ≠ i := fun e => hempty v (e ▸ hc')
    rw [hother j hnj] at hc
    rw [hother k hnk] at hc'
    exact hr.disjoint j k v hj hk hc hc'

/-- **The heap is smaller than the memory**, as its pages lie on different frames. -/
theorem HeapOk.le_span (h : HeapOk n (s.proc p)) (hf : Frames K s) : n ≤ MAX_PAGES := by
  have hleaf : ∀ i, i < n → ∃ a, leafAt s p (HEAP_VPN + i) = some a ∧ a.kind = .heap :=
    fun i hi => (h.mapped (HEAP_VPN + i)).2 ⟨by omega, by omega⟩
  choose! pte hpte hkind using hleaf
  have hcard := Finset.card_le_card_of_injOn (s := Finset.range n) (t := Finset.Ico K.start K.stop)
    (fun i => (pte i).ppn) ?_ ?_
  · have := K.span
    rw [Finset.card_range, Nat.card_Ico] at hcard
    omega
  · intro i hi
    have hi := Finset.mem_range.1 hi
    have := hf.inRange p _ _ (hpte i hi) (by simp [hkind i hi]) (by simp [hkind i hi])
    simpa using this
  · intro i hi j hj hij
    have hi := Finset.mem_range.1 hi
    have hj := Finset.mem_range.1 hj
    by_contra hne
    have hv : (p, HEAP_VPN + i) ≠ (p, HEAP_VPN + j) := fun e => hne (by have := (Prod.mk.inj e).2; omega)
    obtain ⟨-, h3⟩ := hf.excl p _ _ p _ _ (hpte i hi) (hpte j hj) (by simp [hkind i hi]) (by simp [hkind j hj]) hij hv
    grind

/-- the state of `do_exec` before it looks at region `i` -/
structure Dropping (K : Machine) (p : Slot) (s0 : St) (i : ℕ) (s : St) : Prop where
  unmaps : Unmaps K p s0 s
  regions : Regions (s0.proc p).total_mapped_region (s.proc p)
  stack : i = 0 ∧ StackOk (s.proc p) ∨ 0 < i ∧ leafAt s p STACK_VPN = none ∧ s.free ≠ []
  heap : i ≤ 3 ∧ (∃ n, HeapOk n (s.proc p)) ∨ 3 < i ∧ ∀ v, ¬ IsKind .heap (leafAt s p v)
  done : ∀ k, 4 ≤ k → k < i → ((s.proc p).mapped_info k).npages = 0

theorem Unmaps.total (h : Unmaps K p s s') : (s'.proc p).total_mapped_region = (s.proc p).total_mapped_region := by
  obtain ⟨lf, mi, e⟩ := h.rest
  rw [e]

theorem IsKind.unique {k k' : Kind} (h : IsKind k o) (h' : IsKind k' o) : k = k' := by
  obtain ⟨a, rfl, rfl⟩ := h
  obtain ⟨b, hb, rfl⟩ := h'
  cases hb
  rfl

theorem StackOk.dropPages {pr : Proc} (h : StackOk pr) : dropPages (pr.mapped_info 0) = [STACK_VPN] := by
  rw [h.region]
  rfl

theorem HeapOk.dropPages (h : HeapOk n (s.proc p)) (hf : Frames K s) :
    dropPages ((s.proc p).mapped_info 3) = List.range' HEAP_VPN n := by
  have hn := h.le_span hf
  rw [h.region]
  simp only [Memory.dropPages, HEAP_VPN]
  rw [Nat.mod_eq_of_lt (by simp only [MAX_PAGES] at hn; omega)]

variable {s0 : St}

theorem Dropping.mayUnmap (hI : Dropping K p s0 i s) (hd : Drops ((s.proc p).mapped_info i)) :
    ∀ v ∈ dropPages ((s.proc p).mapped_info i), ∀ a, leafAt s p v = some a →
      MayUnmap (((s.proc p).mapped_info i).seg_type ≠ .code) a := by
  intro v hv a ha
  have hcases : i = 0 ∨ i = 1 ∨ i = 2 ∨ i = 3 ∨ 4 ≤ i := by omega
  rcases hcases with rfl | rfl | rfl | rfl | hi
  · obtain ⟨-, hs⟩ := hI.stack.resolve_right (by simp)
    rw [hs.dropPages, List.mem_singleton] at hv
    subst hv
    obtain ⟨b, hb, hbk⟩ := hs.mapped
    rw [leafAt, hb] at ha
    cases ha
    simp [MayUnmap, hs.region, hbk, Kind.counted]
  · rw [Drops, hI.regions.context.1] at hd
    simp at hd
  · rw [Drops, hI.regions.system.1] at hd
    simp at hd
  · obtain ⟨-, n, hh⟩ := hI.heap.resolve_right (by simp)
    rw [hh.dropPages hI.unmaps.frames, List.mem_range'_1, ← hh.mapped v] at hv
    obtain ⟨b, hb, hbk⟩ := hv
    rw [leafAt, hb] at ha
    cases ha
    simp [MayUnmap, hh.region, hbk, Kind.counted]
  · obtain ⟨-, hh⟩ := hI.heap.resolve_left (by omega)
    have hcov := covers_of_mem_dropPages hv
    rcases hI.regions.entry i hi with e | e | ⟨-, e⟩
    · have : a.kind ≠ .heap := fun hk => hh v ⟨a, ha, hk⟩
      simpa [MayUnmap, e] using this
    · obtain ⟨b, hb, hbk⟩ := hI.regions.data i v hi e hcov
      rw [leafAt, hb] at ha
      cases ha
      simp [MayUnmap, e, hbk, Kind.counted]
    · exact absurd hcov (not_covers_of_empty e)

theorem Dropping.stack_step (hI : Dropping K p s0 0 s) (h : dropRegion K p 0 s = .ok ((), s')) :
    Dropping K p s0 1 s' := by
  obtain ⟨-, hs⟩ := hI.stack.resolve_right (by simp)
  obtain ⟨-, n, hh⟩ := hI.heap.resolve_right (by simp)
  obtain ⟨a, ha, hak⟩ := hs.mapped
  have hpages := hs.dropPages
  have hreg := hs.region
  rcases dropRegion_run h hI.unmaps.frames rfl hI.mayUnmap with ⟨hd, -⟩ | ⟨-, hu, hgone, hkeep, hinfo, hne⟩
  · rw [hreg] at hd
    exact absurd ⟨.inr (.inr (.inl rfl)), Nat.one_pos⟩ hd
  · rw [hpages] at hgone hkeep hne
    have hleaf : ∀ v k, k ≠ Kind.stack → IsKind k ((s.proc p).leaf v) → (s'.proc p).leaf v = (s.proc p).leaf v := by
      intro v k hk hv
      apply hkeep
      intro hm
      rw [List.mem_singleton] at hm
      subst hm
      exact hk (hv.unique hs.mapped)
    refine
      { unmaps := hI.unmaps.trans hu
        regions := hI.regions.cleared (by simp) (by simp) hinfo hu.total fun k v _ _ _ hkind => ?_
        stack := .inr ⟨Nat.one_pos, hgone _ (by simp), hne (by rw [hreg]; simp) ⟨STACK_VPN, by simp, fun b hb => ?_⟩⟩
        heap := .inl ⟨by omega, n, ?_⟩
        done := fun k h4 hk => by omega }
    · grind
    · grind [leafAt]
    · obtain ⟨lf, mi, e⟩ := hu.rest
      refine ⟨by rw [e]; exact hh.bottom, by rw [e]; exact hh.top, by rw [hinfo, ← hh.region]; simp, fun v => ?_⟩
      rw [← hh.mapped v]
      constructor
      · rintro ⟨b, hb, hbk⟩
        exact ⟨b, hu.sub v b hb, hbk⟩
      · intro hv
        rw [hleaf v _ (by simp) hv]
        exact hv

theorem Dropping.heap_step (hI : Dropping K p s0 3 s) (h : dropRegion K p 3 s = .ok ((), s')) :
    Dropping K p s0 4 s' := by
  obtain ⟨-, hs⟩ := hI.stack.resolve_left (by simp)
  obtain ⟨-, n, hh⟩ := hI.heap.resolve_right (by simp)
  have hreg := hh.region
  have hpages := hh.dropPages hI.unmaps.frames
  have hmem : ∀ v, v ∈ List.range' HEAP_VPN n ↔ IsKind .heap ((s.proc p).leaf v) := by
    intro v
    rw [hh.mapped v, List.mem_range'_1]
  rcases dropRegion_run h hI.unmaps.frames rfl hI.mayUnmap with ⟨hd, rfl⟩ | ⟨-, hu, hgone, hkeep, hinfo, -⟩
  · -- an empty heap
    have hn : n = 0 := by
      by_contra hn
      rw [hreg] at hd
      exact hd ⟨.inr (.inr (.inr rfl)), Nat.pos_of_ne_zero hn⟩
    refine { hI with
      stack := .inr ⟨by omega, hs⟩
      heap := .inr ⟨by omega, fun v hv => ?_⟩
      done := fun k h4 hk => by omega }
    have := (hh.mapped v).1 hv
    omega
  · rw [hpages] at hgone hkeep
    have hleaf : ∀ v k, k ≠ Kind.heap → IsKind k ((s.proc p).leaf v) → (s'.proc p).leaf v = (s.proc p).leaf v := by
      intro v k hk hv
      apply hkeep
      intro hm
      exact hk (hv.unique ((hmem v).1 hm))
    refine
      { unmaps := hI.unmaps.trans hu
        regions := hI.regions.cleared (by simp) (by simp) hinfo hu.total fun k v _ _ _ hkind => ?_
        stack := .inr ⟨by omega, hu.none_of_none hs.1, hu.free.ne_nil hs.2⟩
        heap := .inr ⟨by omega, fun v hv => ?_⟩
        done := fun k h4 hk => by omega }
    · grind
    · obtain ⟨b, hb, hbk⟩ := hv
      have hold := hu.sub v b hb
      rw [hgone v ((hmem v).2 ⟨b, hold, hbk⟩)] at hb
      cases hb

theorem Dropping.region_step (hi : 4 ≤ i) (hI : Dropping K p s0 i s)
    (h : dropRegion K p i s = .ok ((), s')) : Dropping K p s0 (i + 1) s' := by
  obtain ⟨-, hs⟩ := hI.stack.resolve_left (by omega)
  obtain ⟨-, hh⟩ := hI.heap.resolve_left (by omega)
  rcases dropRegion_run h hI.unmaps.frames rfl hI.mayUnmap with ⟨hd, rfl⟩ | ⟨-, hu, -, hkeep, hinfo, -⟩
  · refine { hI with stack := .inr ⟨by omega, hs⟩, heap := .inr ⟨by omega, hh⟩, done := fun k h4 hk => ?_ }
    by_cases hki : k = i
    · subst hki
      rcases hI.regions.entry k hi with e | e | e
      · by_contra hn
        exact hd ⟨.inl e, by omega⟩
      · by_contra hn
        exact hd ⟨.inr (.inl e), by omega⟩
      · exact e.2
    · exact hI.done k h4 (by omega)
  · refine
      { unmaps := hI.unmaps.trans hu
        regions := hI.regions.cleared (by omega) (by omega) hinfo hu.total fun k v h4 hne hc _ => ?_
        stack := .inr ⟨by omega, hu.none_of_none hs.1, hu.free.ne_nil hs.2⟩
        heap := .inr ⟨by omega, fun v hv => ?_⟩
        done := fun k h4 hk => ?_ }
    · apply hkeep
      intro hm
      exact hne (hI.regions.disjoint k i v h4 hi hc (covers_of_mem_dropPages hm))
    · obtain ⟨b, hb, hbk⟩ := hv
      exact hh v ⟨b, hu.sub v b hb, hbk⟩
    · rw [hinfo]
      by_cases hki : k = i
      · subst hki
        simp [noRegion]
      · rw [update_of_ne hki]
        exact hI.done k h4 (by omega)

theorem Dropping.base_step (hi : i = 1 ∨ i = 2) (hI : Dropping K p s0 i s)
    (h : dropRegion K p i s = .ok ((), s')) : Dropping K p s0 (i + 1) s' := by
  have hnd : ¬ Drops ((s.proc p).mapped_info i) := by
    rintro ⟨hty, -⟩
    rcases hi with rfl | rfl
    · rw [hI.regions.context.1] at hty
      simp at hty
    · rw [hI.regions.system.1] at hty
      simp at hty
  rcases dropRegion_run h hI.unmaps.frames rfl fun hd => absurd hd hnd with ⟨-, rfl⟩ | ⟨hd, -⟩
  · obtain ⟨-, hs⟩ := hI.stack.resolve_left (by omega)
    obtain ⟨-, hh⟩ := hI.heap.resolve_right (by omega)
    exact { hI with stack := .inr ⟨by omega, hs⟩, heap := .inl ⟨by omega, hh⟩, done := fun k h4 hk => by omega }
  · exact absurd hd hnd

theorem dropRegions_loop {k : ℕ} (h : (List.range k).forM (dropRegion K p) s = .ok ((), s'))
    (hf : Frames K s) (hs : Space (s.proc p).total_mapped_region (s.proc p)) (I : ℕ → St → Prop) (h0 : I 0 s)
    (hI : ∀ i s1 s2, Dropping K p s i s1 → I i s1 → dropRegion K p i s1 = .ok ((), s2) → I (i + 1) s2) :
    Dropping K p s k s' ∧ I k s' := by
  refine run_forRange (fun i s1 => Dropping K p s i s1 ∧ I i s1) (fun i s1 s2 _ hd hx => ⟨?_, hI i s1 s2 hd.1 hd.2 hx⟩)
    ⟨⟨.refl hf, hs.regions, .inl ⟨rfl, hs.stack⟩, .inl ⟨by omega, hs.heap⟩, fun k h4 hk => by omega⟩, h0⟩ h
  have hcases : i = 0 ∨ (i = 1 ∨ i = 2) ∨ i = 3 ∨ 4 ≤ i := by omega
  rcases hcases with rfl | hi | rfl | hi
  · exact hd.1.stack_step hx
  · exact hd.1.base_step hi hx
  · exact hd.1.heap_step hx
  · exact hd.1.region_step hi hx

/-- **The loop of `do_exec` over the regions** leaves an empty region table, no stack page and no heap page, and at
least one free page. -/
theorem dropRegions_run (h : (List.range (s.proc p).total_mapped_region).forM (dropRegion K p) s = .ok ((), s'))
    (hf : Frames K s) (hs : Space (s.proc p).total_mapped_region (s.proc p)) :
    Unmaps K p s s' ∧ Regions 0 (s'.proc p) ∧ leafAt s' p STACK_VPN = none ∧ s'.free ≠ [] ∧
      ∀ v, ¬ IsKind .heap (leafAt s' p v) := by
  have htot := hs.regions.total
  have hI := (dropRegions_loop h hf hs (fun _ _ => True) trivial fun _ _ _ _ _ _ => trivial).1
  obtain ⟨-, hstack, hfree⟩ := hI.stack.resolve_left (by omega)
  obtain ⟨-, hheap⟩ := hI.heap.resolve_left (by omega)
  refine ⟨hI.unmaps, { hI.regions with code := fun k v h4 _ hd hc => ?_ }, hstack, hfree, hheap⟩
  by_cases hk : k < (s.proc p).total_mapped_region
  · exact absurd hc (not_covers_of_empty (hI.done k h4 hk))
  · exact hI.regions.code k v h4 (by omega) hd hc

/-! ## sys_user_exit -/

theorem releaseHeapPage_run (h : releaseHeapPage K p v s = .ok ((), s')) (hf : Frames K s)
    (hk : ∀ a, leafAt s p v = some a → a.kind.counted = true) : Unmaps K p s s' ∧ leafAt s' p v = none := by
  obtain ⟨r, s1, h1, hx⟩ := run_bind.1 h
  obtain ⟨rfl, -, hr⟩ := pageWalk_false_run h1
  rw [Nat.mul_div_cancel v (by simp [PGSIZE])] at hr
  cases hl : leafAt s1 p v with
  | none =>
    have hs : s1 = s' := by grind [leafAt]
    subst hs
    exact ⟨.refl hf, hl⟩
  | some a =>
    rw [hr (hf.tables p v a hl)] at hx
    replace hx := of_get_bind hx
    have hl' := hl
    rw [leafAt] at hl'
    rw [hl'] at hx
    obtain ⟨hu, hn, -⟩ := unmapPage_unmaps hx hf fun b hb => by
      rw [hl] at hb
      cases hb
      exact hk a hl
    exact ⟨hu, hn⟩

theorem HeapOk.counted {pr : Proc} (h : HeapOk n pr) (hv : v ∈ Memory.heapPages pr) (ha : pr.leaf v = some a) :
    a.kind.counted = true := by
  rw [h.heapPages, List.mem_range'_1] at hv
  obtain ⟨b, hb, hbk⟩ := (h.mapped v).2 hv
  rw [ha] at hb
  cases hb
  simp [hbk, Kind.counted]

/-- **The heap pages of an exiting process** are all unmapped, in whatever order their blocks are met. -/
theorem releaseHeap_run {order : List ℕ} (h : releaseHeap K p order s = .ok ((), s')) (hf : Frames K s)
    (hkind : ∀ v ∈ heapPages (s.proc p), ∀ a, leafAt s p v = some a → a.kind.counted = true)
    (ho : ∀ v ∈ order, v ∈ heapPages (s.proc p)) :
    Unmaps K p s s' ∧ ∀ v ∈ heapPages (s.proc p), leafAt s' p v = none := by
  obtain ⟨_, s1, h1, h⟩ := run_bind.1 h
  rw [run_get_bind] at h
  obtain ⟨hu, -⟩ := unmapPages_run h1 hf fun v hv a ha => hkind v (ho v hv) a ha
  have hpages : heapPages (s1.proc p) = heapPages (s.proc p) := by
    obtain ⟨lf, mi, e⟩ := hu.rest
    simp only [heapPages, e]
  rw [hpages] at h
  refine run_each (Unmaps K p s) (fun v s2 => leafAt s2 p v = none) ?_ hu h
  intro x hx s2 s3 hu2 hrun
  obtain ⟨hu3, hn⟩ := releaseHeapPage_run hrun hu2.frames fun a ha => hkind x hx a (hu2.sub x a ha)
  exact ⟨hu2.trans hu3, hn, fun v _ hgone => hu3.none_of_none hgone⟩

end RiscvPke.Memory
