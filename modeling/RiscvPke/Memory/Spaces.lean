/-
Address spaces: how the page table of a process, its `mapped_info` and its heap manager fit together, and what the
functions that add pages to a page table do.
-/
import RiscvPke.Memory.Frames

namespace RiscvPke.Memory

open Run

variable {K : Machine} {s s' s1 s2 : St} {p q : Slot} {v w f g : ℕ} {l m : List ℕ} {o : Option Pte} {a b : Pte}
  {N : ℕ → Pte → Prop} {t : ℕ}

/-! ## Address spaces -/

def Region.Covers (r : Region) (v : ℕ) : Prop := r.va / PGSIZE ≤ v ∧ v < r.va / PGSIZE + r.npages

def IsKind (k : Kind) (o : Option Pte) : Prop := ∃ a, o = some a ∧ a.kind = k

def STACK_VPN : ℕ := STACK_PAGE / PGSIZE
def HEAP_VPN : ℕ := USER_FREE_ADDRESS_START / PGSIZE

/-- the regions behind the four base regions, and the two base regions that never change -/
structure Regions (t : ℕ) (pr : Proc) : Prop where
  context : (pr.mapped_info 1).seg_type = .context ∧ (pr.mapped_info 1).va ≠ 0
  system : (pr.mapped_info 2).seg_type = .system ∧ (pr.mapped_info 2).va ≠ 0
  total : 4 ≤ pr.total_mapped_region
  entry : ∀ k, 4 ≤ k → (pr.mapped_info k).seg_type = .code ∨ (pr.mapped_info k).seg_type = .data ∨
    (pr.mapped_info k).seg_type = .stack ∧ (pr.mapped_info k).npages = 0
  data : ∀ k v, 4 ≤ k → (pr.mapped_info k).seg_type = .data → (pr.mapped_info k).Covers v → IsKind .data (pr.leaf v)
  code : ∀ k v, 4 ≤ k → t ≤ k → (pr.mapped_info k).seg_type = .code → (pr.mapped_info k).Covers v →
    IsKind .code (pr.leaf v)
  disjoint : ∀ j k v, 4 ≤ j → 4 ≤ k → (pr.mapped_info j).Covers v → (pr.mapped_info k).Covers v → j = k

structure StackOk (pr : Proc) : Prop where
  region : pr.mapped_info 0 = ⟨STACK_PAGE, 1, .stack⟩
  mapped : IsKind .stack (pr.leaf STACK_VPN)

/-- a heap of `n` pages -/
structure HeapOk (n : ℕ) (pr : Proc) : Prop where
  bottom : pr.heap_bottom = USER_FREE_ADDRESS_START
  top : pr.heap_top = USER_FREE_ADDRESS_START + n * PGSIZE
  region : pr.mapped_info 3 = ⟨USER_FREE_ADDRESS_START, n, .heap⟩
  mapped : ∀ v, IsKind .heap (pr.leaf v) ↔ HEAP_VPN ≤ v ∧ v < HEAP_VPN + n

structure Space (t : ℕ) (pr : Proc) : Prop where
  regions : Regions t pr
  stack : StackOk pr
  heap : ∃ n, HeapOk n pr

variable {pr : Proc}

theorem HeapOk.heapPages {n : ℕ} (h : HeapOk n pr) : heapPages pr = List.range' HEAP_VPN n := by
  unfold Memory.heapPages
  rw [h.bottom, h.top]
  congr 1
  simp only [USER_FREE_ADDRESS_START, PGSIZE]
  omega

theorem Regions.of_le {t t' : ℕ} (h : Regions t pr) (ht : t ≤ t') : Regions t' pr :=
  { h with code := fun k v h4 hk => h.code k v h4 (ht.trans hk) }

theorem Space.of_le {t t' : ℕ} (h : Space t pr) (ht : t ≤ t') : Space t' pr :=
  { h with regions := h.regions.of_le ht }

variable {pr' : Proc}

theorem HeapOk.of_kinds {n : ℕ} (h : HeapOk n pr)
    (hrest : ∃ lf d tb, pr' = { pr with leaf := lf, dirs := d, tabs := tb })
    (hk : ∀ v, IsKind .heap (pr'.leaf v) ↔ IsKind .heap (pr.leaf v)) : HeapOk n pr' := by
  have hm := fun v => (hk v).trans (h.mapped v)
  obtain ⟨lf, d, tb, rfl⟩ := hrest
  exact ⟨h.bottom, h.top, h.region, hm⟩

theorem Space.of_kinds (h : Space t pr) (hrest : ∃ lf d tb, pr' = { pr with leaf := lf, dirs := d, tabs := tb })
    (hk : ∀ v k, IsKind k (pr'.leaf v) ↔ IsKind k (pr.leaf v)) : Space t pr' := by
  obtain ⟨n, hn⟩ := h.heap
  have hn' := hn.of_kinds hrest fun v => hk v _
  have hstack := (hk STACK_VPN _).2 h.stack.mapped
  obtain ⟨lf, d, tb, rfl⟩ := hrest
  exact
    { regions :=
        { h.regions with
          data := fun k v h4 hd hc => (hk v _).2 (h.regions.data k v h4 hd hc)
          code := fun k v h4 ht hd hc => (hk v _).2 (h.regions.code k v h4 ht hd hc) }
      stack := ⟨h.stack.region, hstack⟩
      heap := ⟨n, hn'⟩ }

/-- the same process record with more pages -/
structure Grows (N : ℕ → Pte → Prop) (pr pr' : Proc) : Prop where
  rest : ∃ lf d tb, pr' = { pr with leaf := lf, dirs := d, tabs := tb }
  old : ∀ v a, pr.leaf v = some a → pr'.leaf v = some a
  new : ∀ v a, pr'.leaf v = some a → pr.leaf v = some a ∨ N v a

theorem Grows.of_same (h : SameSpace pr pr') : Grows N pr pr' := by
  obtain ⟨d, tb, -, -, rfl⟩ := h
  exact ⟨⟨pr.leaf, d, tb, rfl⟩, fun v a h => h, fun v a h => .inl h⟩

theorem Grows.trans {pr1 pr2 : Proc} (h1 : Grows N pr pr1) (h2 : Grows N pr1 pr2) : Grows N pr pr2 where
  rest := by
    obtain ⟨lf, d, tb, rfl⟩ := h1.rest
    obtain ⟨lf', d', tb', rfl⟩ := h2.rest
    exact ⟨lf', d', tb', rfl⟩
  old v a h := h2.old v a (h1.old v a h)
  new v a h := by
    rcases h2.new v a h with h | h
    · exact h1.new v a h
    · exact .inr h

theorem Grows.isKind (h : Grows N pr pr') {k : Kind} (hk : IsKind k (pr.leaf v)) : IsKind k (pr'.leaf v) := by
  obtain ⟨a, ha, hk⟩ := hk
  exact ⟨a, h.old v a ha, hk⟩

theorem Grows.regions (h : Grows N pr pr') (hr : Regions t pr) : Regions t pr' := by
  have hk := fun (v : ℕ) (k : Kind) => @Grows.isKind v N pr pr' h k
  obtain ⟨lf, d, tb, rfl⟩ := h.rest
  exact
    { hr with
      data := fun k v h4 hd hc => hk v _ (hr.data k v h4 hd hc)
      code := fun k v h4 ht hd hc => hk v _ (hr.code k v h4 ht hd hc) }

theorem Grows.stackOk (h : Grows N pr pr') (hr : StackOk pr) : StackOk pr' := by
  have hm := h.isKind hr.mapped
  obtain ⟨lf, d, tb, rfl⟩ := h.rest
  exact ⟨hr.region, hm⟩

theorem Grows.heapOk {n : ℕ} (h : Grows N pr pr') (hN : ∀ v a, N v a → a.kind ≠ .heap) (hr : HeapOk n pr) :
    HeapOk n pr' := by
  have hm : ∀ v, IsKind .heap (pr'.leaf v) ↔ HEAP_VPN ≤ v ∧ v < HEAP_VPN + n := by
    intro v
    rw [← hr.mapped]
    constructor
    · rintro ⟨a, ha, hk⟩
      rcases h.new v a ha with ha | ha
      · exact ⟨a, ha, hk⟩
      · exact absurd hk (hN v a ha)
    · exact h.isKind
  obtain ⟨lf, d, tb, rfl⟩ := h.rest
  exact ⟨hr.bottom, hr.top, hr.region, hm⟩

theorem Grows.space (h : Grows N pr pr') (hN : ∀ v a, N v a → a.kind ≠ .heap) (hr : Space t pr) : Space t pr' := by
  obtain ⟨n, hn⟩ := hr.heap
  exact ⟨h.regions hr.regions, h.stackOk hr.stack, n, h.heapOk hN hn⟩

theorem SameSpace.space (h : SameSpace pr pr') (hr : Space t pr) : Space t pr' :=
  Grows.space (N := fun _ _ => False) (.of_same h) (fun _ _ h => h.elim) hr

/-! ## Adding pages -/

structure Builds (K : Machine) (N : ℕ → Pte → Prop) (p : Slot) (s s' : St) : Prop where
  frames : Frames K s → Frames K s'
  life : s'.life = s.life
  free : s'.free <:+ s.free
  others : ∀ q, q ≠ p → SameSpace (s.proc q) (s'.proc q)
  old : ∀ v a, leafAt s p v = some a → leafAt s' p v = some a
  new : ∀ v a, leafAt s' p v = some a → leafAt s p v = some a ∨ N v a
  ref : ∀ f, f ∉ s.free → s'.page_ref_count f = s.page_ref_count f
  mem : ∀ b, b / PGSIZE ∉ s.free → s'.mem b = s.mem b

/-- only the page table has changed -/
structure Adds (K : Machine) (N : ℕ → Pte → Prop) (p : Slot) (s s' : St) : Prop extends Builds K N p s s' where
  rest : ∃ lf d tb, s'.proc p = { s.proc p with leaf := lf, dirs := d, tabs := tb }

theorem Adds.grows (h : Adds K N p s s') : Grows N (s.proc p) (s'.proc p) := ⟨h.rest, h.old, h.new⟩

theorem Draws.adds (h : Draws l s s') : Adds K N p s s' where
  frames hf := hf.draws h
  life := h.life
  free := ⟨l, h.free.symm⟩
  others q _ := h.proc q
  old v a ha := (h.leaf_eq p v).trans ha
  new v a ha := .inl ((h.leaf_eq p v).symm.trans ha)
  ref f hf := h.ref f fun hm => hf (h.mem_free hm)
  mem b hb := h.mem b fun hm => hb (h.mem_free hm)
  rest := by
    obtain ⟨d, tb, -, -, he⟩ := h.proc p
    exact ⟨(s.proc p).leaf, d, tb, he⟩

theorem Adds.refl : Adds K N p s s := (Draws.refl s).adds

theorem Builds.trans (h1 : Builds K N p s s1) (h2 : Builds K N p s1 s2) : Builds K N p s s2 where
  frames hf := h2.frames (h1.frames hf)
  life := h2.life.trans h1.life
  free := h2.free.trans h1.free
  others q hq := (h1.others q hq).trans (h2.others q hq)
  old v a ha := h2.old v a (h1.old v a ha)
  new v a ha := by
    rcases h2.new v a ha with ha | ha
    · exact h1.new v a ha
    · exact .inr ha
  ref f hf := (h2.ref f fun hm => hf (h1.free.subset hm)).trans (h1.ref f hf)
  mem b hb := (h2.mem b fun hm => hb (h1.free.subset hm)).trans (h1.mem b hb)

theorem Adds.trans (h1 : Adds K N p s s1) (h2 : Adds K N p s1 s2) : Adds K N p s s2 where
  toBuilds := h1.toBuilds.trans h2.toBuilds
  rest := (h1.grows.trans h2.grows).rest

theorem Builds.mono {N' : ℕ → Pte → Prop} (h : Builds K N p s s') (hN : ∀ v a, N v a → N' v a) : Builds K N' p s s' :=
  { h with new := fun v a ha => (h.new v a ha).imp_right (hN v a) }

theorem Adds.mono {N' : ℕ → Pte → Prop} (h : Adds K N p s s') (hN : ∀ v a, N v a → N' v a) : Adds K N' p s s' :=
  { h.toBuilds.mono hN with rest := h.rest }

theorem Builds.isKind {k : Kind} (h : Builds K N p s s') (hk : IsKind k (leafAt s p v)) : IsKind k (leafAt s' p v) := by
  obtain ⟨a, ha, hk⟩ := hk
  exact ⟨a, h.old v a ha, hk⟩

theorem Builds.none_of_none (h : Builds K N p s s') (hn : leafAt s' p v = none) : leafAt s p v = none := by
  by_contra hne
  obtain ⟨a, ha⟩ := Option.ne_none_iff_exists'.1 hne
  rw [h.old v a ha] at hn
  cases hn

theorem Title.draws (h : Title K s a) (hd : Draws l s s') : Title K s' a := by
  cases h with
  | spill h => exact .spill h
  | fresh h hk hkept => exact .fresh (h.draws hd) hk (hkept.imp_right (h.kept hd).trans)
  | @code h p v b hb hk hp => exact .code h ((hd.leaf_eq p v).trans hb) hk hp
  | trap h hp => exact .trap h hp

theorem Draws.adds_leaf (hd : Draws l s s1) (hn : leafAt s p v = none) (htab : HasTables (s1.proc p) v)
    (ht : Frames K s → Title K s1 a) (hb : BitsOk a) (hN : N v a) : Adds K N p s (s1.withLeaf p v (some a)) := by
  have hn1 : leafAt s1 p v = none := by rw [hd.leaf_eq, hn]
  refine
    { frames := fun hf => (hf.draws hd).add hn1 htab (ht hf) hb
      life := hd.life
      free := ⟨l, hd.free.symm⟩
      others := fun q hq => ?_
      old := fun w b hw => ?_
      new := fun w b hw => ?_
      ref := fun f hf => hd.ref f fun hm => hf (hd.mem_free hm)
      mem := fun b hb => hd.mem b fun hm => hb (hd.mem_free hm)
      rest := ?_ }
  · rw [withLeaf_proc_of_ne hq]
    exact hd.proc q
  · have hne : (p, w) ≠ (p, v) := by
      intro e
      rw [(Prod.mk.inj e).2, hn] at hw
      cases hw
    rw [leafAt_withLeaf_of_ne hne, hd.leaf_eq, hw]
  · rcases leafAt_withLeaf_some hw with ⟨hk, e⟩ | ⟨-, hw⟩
    · cases e
      rw [(Prod.mk.inj hk).2]
      exact .inr hN
    · exact .inl (hd.leaf_eq p w ▸ hw)
  · obtain ⟨d, tb, -, -, he⟩ := hd.proc p
    exact ⟨Function.update (s.proc p).leaf v (some a), d, tb, by rw [withLeaf_proc_self, he]⟩

theorem Mapped.adds (h : Mapped s p v a s') (ht : Frames K s → Title K s a) (hb : BitsOk a) (hN : N v a) :
    Adds K N p s s' := by
  obtain ⟨-, hn, l, s1, hd, htab, rfl⟩ := h
  exact hd.adds_leaf hn htab (fun hf => (ht hf).draws hd) hb hN

theorem Mapped.adds_fresh (h : Mapped s1 p v a s') (hd : Draws l s s1) (hf : a.ppn ∈ l) (hkept : s1.kept = s.kept)
    (hk : a.kind ≠ .spill) (hb : BitsOk a) (hN : N v a) : Adds K N p s s' := by
  obtain ⟨-, hn, m, s2, hd', htab, rfl⟩ := h
  rw [hd.leaf_eq] at hn
  refine (hd.trans hd').adds_leaf hn htab (fun hfr => ?_) hb hN
  have hloose := hfr.loose hd hf
  refine .fresh (hloose.draws hd') hk (.inr ?_)
  rw [hloose.kept hd', hkept]
  exact hfr.unkept _ (hd.mem_free hf)

theorem Mapped.leafAt_self (h : Mapped s p v a s') : leafAt s' p v = some a := by
  obtain ⟨-, -, l, s1, -, -, rfl⟩ := h
  exact leafAt_withLeaf_self

end RiscvPke.Memory
