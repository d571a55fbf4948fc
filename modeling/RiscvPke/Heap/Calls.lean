/-
The heap calls: `sys_user_allocate_mem` and `sys_user_free_mem` keep a well-formed heap, from the specifications of
first fit.
-/
import RiscvPke.Heap.FirstFit

namespace RiscvPke.Heap

open Bytes Program Segment

variable {strict fails : Bool} {S : Stop → Prop} {t t' t1 t2 t3 : Flat} {f g : Field}
  {a b p q v n k size free alloc start i : ℕ} {more : ℤ} {l F F' A A' F1 : List ℕ}

/-! ## States -/

structure HeapOk (strict : Bool) (t : Flat) (F A : List ℕ) : Prop where
  lists : Wellformed strict t t.free_list t.alloc_list F A
  top : t.heap_top % PGSIZE = 0
  le : t.heap_bottom ≤ t.heap_top

def Tiled (t : Flat) (l : List ℕ) : Prop := ∀ a, t.heap_bottom ≤ a → a < t.heap_top → Covered t l a

theorem Wellformed.grow (h : Wellformed strict t free alloc F A) (hb : t'.heap_bottom = t.heap_bottom)
    (ht : t.heap_top ≤ t'.heap_top) (hmax : t'.heap_top ≤ MAXVA) (hf : ∀ q ∈ A ++ F, ∀ f, t'.field f q = t.field f q) :
    Wellformed strict t' free alloc F A := by
  have hfin : ∀ q ∈ A ++ F, t'.fin q = t.fin q := fun q hq => by rw [Flat.fin, Flat.fin, hf q hq]
  refine ⟨⟨?_, h.blocks.inPage, ?_, ?_, ?_, hmax⟩, ?_, ?_, h.apart, ?_⟩
  · intro q hq
    rw [hb, hfin q hq]
    exact ⟨(h.blocks.inside q hq).1, le_trans (h.blocks.inside q hq).2 ht⟩
  · intro p hp q hq
    rw [hfin p hp, hfin q hq]
    exact h.blocks.disj p hp q hq
  · intro q hq
    rw [hf q hq]
    exact h.blocks.aligned q hq
  · rw [hb]
    exact h.blocks.bottom
  · exact h.free.congr fun q hq => hf q (List.mem_append_right _ hq) .next
  · exact h.alloc.congr fun q hq => hf q (List.mem_append_left _ hq) .next
  · intro q hq
    rw [hf q (List.mem_append_left _ hq)]
    exact h.positive q hq

theorem Wellformed.setFree (h : Wellformed strict t free alloc F A) : Wellformed strict (t.setFree q) free alloc F A :=
  h.grow rfl (le_refl _) h.blocks.top fun _ _ _ => field_setFree

theorem Wellformed.setAlloc (h : Wellformed strict t free alloc F A) :
    Wellformed strict (t.setAlloc q) free alloc F A :=
  h.grow rfl (le_refl _) h.blocks.top fun _ _ _ => field_setAlloc

theorem Grown.field (h : Grown t t') (hp : p + PD ≤ t.heap_top) : t'.field f p = t.field f p := by
  rw [Flat.field, Flat.field]
  apply loadN_congr
  intro b h1 h2
  apply h.mem
  left
  simp only [PD] at hp
  cases f <;> simp only [Field.offset, Field.width] at * <;> omega

theorem Wellformed.grown (h : Wellformed strict t free alloc F A) (hg : Grown t t') :
    Wellformed strict t' free alloc F A := by
  refine h.grow hg.bottom (by rw [hg.top]; omega) (by rw [hg.top]; exact hg.room) fun q hq f => hg.field ?_
  exact (h.blocks.nodes.good q hq).1.2

/-! ## The lists of the process -/

theorem HeapOk.heads (h : HeapOk strict t F A) (hs : Same t t1) (hw : Wellformed strict t1 free alloc F' A') :
    HeapOk strict ((t1.setFree free).setAlloc alloc) F' A' := by
  refine ⟨hw.setFree.setAlloc, ?_, ?_⟩
  · rw [heap_top_setAlloc, heap_top_setFree, hs.top]
    exact h.top
  · rw [heap_top_setAlloc, heap_top_setFree, heap_bottom_setAlloc, heap_bottom_setFree, hs.top, hs.bottom]
    exact h.le

theorem Tiled.heads {l' : List ℕ} (h : Tiled t l) (hs : Same t t1) (hcov : ∀ a, Covered t l a → Covered t1 l' a) :
    Tiled ((t1.setFree free).setAlloc alloc) l' := by
  intro a h1 h2
  rw [covered_setAlloc, covered_setFree]
  refine hcov a (h a ?_ ?_)
  · rwa [← hs.bottom]
  · rwa [← hs.top]

/-- a call from `t` has come to `t'`: the heap is well formed, blocks that stay allocated have kept their size, and no
gap has come up if `alloc_page` does not fail -/
structure After (strict fails : Bool) (t : Flat) (F A : List ℕ) (t' : Flat) (F' A' : List ℕ) : Prop where
  ok : HeapOk strict t' F' A'
  keep : ∀ q ∈ A, q ∈ A' → t'.field .size q = t.field .size q
  bottom : t'.heap_bottom = t.heap_bottom
  tiled : fails = false → Tiled t (A ++ F) → Tiled t' (A' ++ F')

theorem After.refl (h : HeapOk strict t F A) : After strict fails t F A t F A :=
  ⟨h, fun _ _ _ => rfl, rfl, fun _ h => h⟩

def AllocPost (strict fails : Bool) (t : Flat) (n : ℕ) (F A : List ℕ) (r : ℕ) (t' : Flat) : Prop :=
  (r = 0 ∧ t' = t ∧ ∀ p ∈ F, Unfit t n p) ∨
  (r ≠ 0 ∧ ∃ F', After strict fails t F A t' F' (r :: A) ∧ t'.field .size r = n ∧ t'.heap_top = t.heap_top)

theorem memAlloc_wp (hn0 : n ≠ 0) (hn8 : n % 8 = 0) (hn64 : n + PD < 2 ^ 64)
    (hpage : strict = true → SplitsInPage t n F)
    (h : HeapOk strict t F A) : (memAlloc n).wp (device strict fails) S (AllocPost strict fails t n F A) t := by
  rw [memAlloc, wp_bind]
  apply wp_freeList
  rw [wp_bind]
  apply wp_allocList
  rw [wp_bind]
  apply wp_mono (firstFitAlloc_wp hn0 hn8 hn64 hpage h.lists)
  intro r t1 hr
  obtain ⟨rfl, rfl, hunfit⟩ | ⟨b, free', F', rfl, hb, hall⟩ := hr
  · simp only
    rw [wp_bind]
    apply wp_setFreeList
    rw [wp_bind]
    apply wp_setAllocList
    exact .inl ⟨rfl, rfl, hunfit⟩
  · simp only
    rw [wp_bind]
    apply wp_setFreeList
    rw [wp_bind]
    apply wp_setAllocList
    have hb0 : b ≠ 0 := h.lists.blocks.nodes.ne_zero (List.mem_append_right _ hb)
    refine .inr ⟨hb0, F', ⟨h.heads hall.same hall.heap, ?_, hall.same.bottom, ?_⟩, ?_, hall.same.top⟩
    · intro q hq _
      rw [field_setAlloc, field_setFree]
      exact hall.keep q hq
    · exact fun _ htile => htile.heads hall.same fun a => (hall.covered a).2
    · rw [field_setAlloc, field_setFree]
      exact hall.size

/-- there is room for a block beside the blocks of `l` -/
structure Room (strict : Bool) (t : Flat) (l : List ℕ) (b size : ℕ) : Prop where
  inside : t.heap_bottom ≤ b ∧ b + PD + size ≤ t.heap_top
  disj : ∀ q ∈ l, t.fin q ≤ b ∨ b + PD + size ≤ q
  aligned : b % 8 = 0 ∧ size % 8 = 0
  inPage : strict = true → InPage b

section

variable (h : Room strict t l b size)

include h

theorem Room.apart (hq : q ∈ l) : Apart b q := by
  have := h.disj q hq
  simp only [Apart, Flat.fin, PD] at *
  omega

theorem Room.notMem : b ∉ l := by
  intro hb
  have := h.apart hb
  simp only [Apart, PD] at this
  omega

theorem Room.good : Good strict t b := ⟨⟨h.inside.1, by have := h.inside.2; omega⟩, h.inPage⟩

theorem Room.ne_zero (hl : Blocks strict t l) : b ≠ 0 := by
  have := h.inside.1
  have := hl.bottom
  omega

theorem Room.size_lt (hl : Blocks strict t l) : size < 256 ^ Field.size.width := by
  have := h.inside.2
  have := hl.top
  simp only [Field.width, MAXVA, PD] at *
  omega

theorem Room.blocks (hl : Blocks strict t l) (ht : Touches b t t1) (hs : t1.field .size b = size) :
    Blocks strict t1 (b :: l) := by
  subst hs
  have hother : ∀ q ∈ l, t1.field .size q = t.field .size q := fun q hq => ht.other q .size (h.apart hq)
  refine (hl.congr ht.same hother).cons ?_ h.inPage (fun q hq => ?_) h.aligned
  · rw [ht.same.bottom, ht.same.top]
    exact h.inside
  · rw [Flat.fin, hother q hq]
    exact h.disj q hq

end

/-- the block at `b` has gone to the free list, which drops it if it has size 0 -/
structure Joined (strict : Bool) (t : Flat) (F A : List ℕ) (b size : ℕ) (t' : Flat) (F' : List ℕ) : Prop where
  lists : Wellformed strict t' t'.free_list t'.alloc_list F' A
  sub : F' ⊆ b :: F
  super : F ⊆ F'
  mem : size ≠ 0 → b ∈ F'
  size : t'.field .size b = size
  keep : ∀ q ∈ A ++ F, t'.field .size q = t.field .size q
  bottom : t'.heap_bottom = t.heap_bottom
  top : t'.heap_top = t.heap_top

theorem addFree_wp (h : Wellformed strict t t.free_list t.alloc_list F A) (hr : Room strict t (A ++ F) b size)
    (ht : Touches b t t1) (hsz : t1.field .size b = size) :
    (addFree b).wp (device strict fails) S (fun _ t' => ∃ F', Joined strict t F A b size t' F') t1 := by
  have hs1 := ht.same
  -- the block fits in beside the others
  have hw1 : Wellformed strict t1 t.free_list t.alloc_list F A :=
    h.grow hs1.bottom (le_of_eq hs1.top.symm) (by rw [hs1.top]; exact h.blocks.top) fun q hq f =>
      ht.other q f (hr.apart hq)
  have hblocks : Blocks strict t1 (b :: (A ++ F)) := hr.blocks h.blocks ht hsz
  have hsubF : b :: F ⊆ b :: (A ++ F) := by grind
  rw [addFree, wp_bind]
  apply wp_freeList
  rw [wp_bind, hs1.free]
  apply wp_mono (insertFreeBlock_wp antisymm_pdFirstFitCmp (hblocks.sub hsubF).nodes
    (fun hb => hr.notMem (List.mem_append_right _ hb)) hw1.free)
  rintro free' t2 ⟨F', hfree, hplaced, hrel⟩
  apply wp_setFreeList
  have hsub : A ++ F' ⊆ b :: (A ++ F) := by
    have := hplaced.sub
    grind
  have hsize2 : ∀ q ∈ b :: (A ++ F), t2.field .size q = t1.field .size q :=
    fun q hq => (hrel.sub hsubF).size_mem hblocks.nodes hq
  have hout : ∀ q ∈ A, q ∉ b :: F := by
    intro q hq hqf
    rcases List.mem_cons.1 hqf with rfl | hqf
    · exact hr.notMem (List.mem_append_left _ hq)
    · exact h.apart q hq hqf
  have hclear : ∀ q ∈ A, Clear (b :: F) q := fun q hq p hp =>
    hblocks.nodes.spaced p (hsubF hp) q (by simp [hq]) fun he => hout q hq (he ▸ hp)
  have hw2 : Wellformed strict t2 free' t.alloc_list F' A := by
    refine ⟨(hblocks.congr hrel.same hsize2).sub hsub, hfree, hrel.seg hw1.alloc hclear, ?_, ?_⟩
    · exact fun q hq hqf => hout q hq (hplaced.sub hqf)
    · intro q hq
      rw [hsize2 q (by simp [hq])]
      exact hw1.positive q hq
  refine ⟨F', ?_, hplaced.sub, hplaced.super, fun hz => hplaced.mem (by rwa [hsz]), ?_, ?_,
    hrel.same.bottom.trans hs1.bottom, hrel.same.top.trans hs1.top⟩
  · rw [free_list_setFree, alloc_list_setFree, hrel.same.alloc.trans hs1.alloc]
    exact hw2.setFree
  · rw [field_setFree, hsize2 b (by simp), hsz]
  · intro q hq
    rw [field_setFree, hsize2 q (List.mem_cons_of_mem b hq), ht.other q .size (hr.apart hq)]

theorem newFreeBlock_wp (h : Wellformed strict t t.free_list t.alloc_list F A) (hr : Room strict t (A ++ F) b size) :
    (newFreeBlock b size).wp (device strict fails) S (fun _ t' => ∃ F', Joined strict t F A b size t' F') t := by
  rw [newFreeBlock]
  apply header_wp (hr.ne_zero h.blocks) hr.good (by simp [Field.width]) (hr.size_lt h.blocks) (by simp [Field.width])
  intro t1 ht1 hsz _
  exact addFree_wp h hr ht1 hsz

theorem Joined.mem_iff (h : Joined strict t F A b size t' F') (hz : size ≠ 0) : q ∈ F' ↔ q = b ∨ q ∈ F := by
  constructor
  · intro hq
    exact List.mem_cons.1 (h.sub hq)
  · intro hq
    rcases hq with rfl | hq
    · exact h.mem hz
    · exact h.super hq

/-! ## Requests of at most a page -/

theorem After.trans {F2 A1 A2 : List ℕ} (h1 : After strict fails t F A t1 F1 A1)
    (h2 : After strict fails t1 F1 A1 t2 F2 A2)
    (hsub : ∀ q ∈ A, q ∈ A2 → q ∈ A1) : After strict fails t F A t2 F2 A2 where
  ok := h2.ok
  keep q hq hq2 := (h2.keep q (hsub q hq hq2) hq2).trans (h1.keep q hq (hsub q hq hq2))
  bottom := h2.bottom.trans h1.bottom
  tiled hf h := h2.tiled hf (h1.tiled hf h)

def MallocPost (strict fails : Bool) (t : Flat) (n : ℕ) (F A : List ℕ) (r : ℕ) (t' : Flat) : Prop :=
  ∃ F', (r = 0 ∧ After strict fails t F A t' F' A) ∨
    ∃ b, r = b + PD ∧ After strict fails t F A t' F' (b :: A) ∧ t'.field .size b = n

theorem AllocPost.malloc (h : AllocPost strict fails t n F A b t') (hb : b ≠ 0) :
    MallocPost strict fails t n F A ((b + PD) % 2 ^ 64) t' := by
  obtain ⟨h0, -⟩ | ⟨-, F', hafter, hsize, -⟩ := h
  · exact absurd h0 hb
  · have hlt := hafter.ok.lists.blocks.nodes.lt (p := b) (by simp)
    have hmod : (b + PD) % 2 ^ 64 = b + PD := by
      apply Nat.mod_eq_of_lt
      simp only [MAXVA, PD] at *
      omega
    rw [hmod]
    exact ⟨F', .inr ⟨b, rfl, hafter, hsize⟩⟩

theorem newPage_wp (h : HeapOk strict t F A) (hg : Grown t t1) :
    (newFreeBlock t.heap_top (PGSIZE - PD)).wp (device strict fails) S
      (fun _ t' => ∃ F', After strict fails t F A t' F' A ∧
      (∀ q, q ∈ F' ↔ q = t.heap_top ∨ q ∈ F) ∧ t'.field .size t.heap_top = PGSIZE - PD ∧
      ∀ q ∈ F, t'.field .size q = t.field .size q) t1 := by
  have hw : Wellformed strict t1 t1.free_list t1.alloc_list F A := by
    rw [hg.free, hg.alloc]
    exact h.lists.grown hg
  have hold : ∀ q ∈ A ++ F, t1.field .size q = t.field .size q :=
    fun q hq => hg.field (h.lists.blocks.nodes.good q hq).1.2
  have htop := h.top
  have hle := h.le
  have hr : Room strict t1 (A ++ F) t.heap_top (PGSIZE - PD) := by
    refine ⟨?_, fun q hq => .inl ?_, ⟨?_, rfl⟩, fun _ => ?_⟩
    · rw [hg.bottom, hg.top]
      simp only [PGSIZE, PD]
      omega
    · rw [Flat.fin, hold q hq]
      exact (h.lists.blocks.inside q hq).2
    · simp only [PGSIZE] at htop
      omega
    · simp only [InPage, PGSIZE, PD] at *
      omega
  apply wp_mono (newFreeBlock_wp hw hr)
  rintro _ t' ⟨F', hj⟩
  have hF' : ∀ q, q ∈ F' ↔ q = t.heap_top ∨ q ∈ F := fun q => hj.mem_iff (by simp [PGSIZE, PD])
  have hsize' : ∀ q ∈ A ++ F, t'.field .size q = t.field .size q := fun q hq => (hj.keep q hq).trans (hold q hq)
  refine ⟨F', ⟨⟨hj.lists, ?_, ?_⟩, ?_, hj.bottom.trans hg.bottom, ?_⟩, hF', hj.size,
    fun q hq => hsize' q (List.mem_append_right _ hq)⟩
  · rw [hj.top, hg.top, Nat.add_mod_right]
    exact htop
  · rw [hj.top, hg.top, hj.bottom, hg.bottom]
    omega
  · exact fun q hq _ => hsize' q (List.mem_append_left _ hq)
  · intro _ htile a h1 h2
    rw [hj.bottom, hg.bottom] at h1
    rw [hj.top, hg.top] at h2
    by_cases ha : a < t.heap_top
    · obtain ⟨q, hq, hqa, hqf⟩ := htile a h1 ha
      refine ⟨q, ?_, hqa, by rwa [Flat.fin, hsize' q hq]⟩
      grind
    · refine ⟨t.heap_top, List.mem_append_right _ ((hF' _).2 (.inl rfl)), by omega, ?_⟩
      rw [Flat.fin, hj.size]
      omega

theorem allocSmall_wp (hn0 : n ≠ 0) (hn8 : n % 8 = 0) (hsmall : n + PD ≤ PGSIZE)
    (hpage : strict = true → SplitsInPage t n F) (h : HeapOk strict t F A) :
    (allocSmall n).wp (device strict fails) S (MallocPost strict fails t n F A) t := by
  have hn64 : n + PD < 2 ^ 64 := by
    simp only [PGSIZE] at hsmall
    omega
  rw [allocSmall, wp_bind]
  apply wp_mono (memAlloc_wp hn0 hn8 hn64 hpage h)
  intro va t1 hva
  by_cases hva0 : va ≠ 0
  · rw [if_pos hva0, wp_pure]
    exact hva.malloc hva0
  · rw [if_neg hva0, wp_bind]
    push Not at hva0
    obtain ⟨-, rfl, -⟩ | ⟨hne, -⟩ := hva
    · apply wp_heapTop
      rw [wp_bind]
      apply wp_grow
      · -- there is a page: it becomes a free block, and the request is made again
        intro t2 hg
        rw [if_pos rfl, wp_bind]
        apply wp_mono (newPage_wp h hg)
        intro _ t3 ⟨F', hafter, hF', hsz, hsize⟩
        have hpage' : strict = true → SplitsInPage t3 n F' := by
          intro hst q hq hfit
          rcases (hF' q).1 hq with rfl | hq
          · have htop := h.top
            simp only [InPage, PGSIZE, PD] at *
            omega
          · rw [hsize q hq] at hfit
            exact hpage hst q hq hfit
        rw [wp_bind]
        apply wp_mono (memAlloc_wp hn0 hn8 hn64 hpage' hafter.ok)
        intro va' t4 hva'
        by_cases hva0' : va' ≠ 0
        · rw [if_pos hva0', wp_pure]
          obtain ⟨F4, hpost⟩ := hva'.malloc hva0'
          refine ⟨F4, ?_⟩
          obtain ⟨hz, h4⟩ | ⟨b, hb, h4, hs4⟩ := hpost
          · exact .inl ⟨hz, hafter.trans h4 fun _ _ hq => hq⟩
          · exact .inr ⟨b, hb, hafter.trans h4 fun _ hq _ => hq, hs4⟩
        · rw [if_neg hva0', wp_pure]
          push Not at hva0'
          obtain ⟨-, rfl, -⟩ | ⟨hne, -⟩ := hva'
          · exact ⟨F', .inl ⟨rfl, hafter⟩⟩
          · exact absurd hva0' hne
      · intro _ _
        exact ⟨F, .inl ⟨rfl, .refl h⟩⟩
    · exact absurd hva0 hne

/-! ## Requests of more than a page -/

def Supply (fails : Bool) (k : ℕ) (t : Flat) : Prop := fails = false ∨ k ≤ t.pages

theorem Supply.mono (h : Supply fails k t) (hv : v ≤ k) : Supply fails v t := h.imp_right fun hk => by omega

theorem wp_grow_supply {R : Bool → Flat → Prop} (hsup : Supply fails (k + 1) t)
    (h1 : ∀ t', Grown t t' → Supply fails k t' → R true t') : (ask .grow).wp (device strict fails) S R t := by
  apply wp_grow
  · intro t' hg
    refine h1 t' hg (hsup.imp_right fun hk => ?_)
    rw [hg.pages]
    omega
  · intro hf hp
    obtain hf' | hk := hsup
    · rw [hf'] at hf
      cases hf
    · omega

theorem highestLoop_wp (hn : Nodes strict t F) :
    ∀ (post : List ℕ) (turns h block : ℕ), post.length < turns → post ⊆ F → Seg (t.field .next) block post 0 →
      (h = 0 ∨ h ∈ F) →
      (highestLoop turns h block).wp (device strict fails) S (fun r t' => t' = t ∧ (r = 0 ∨ r ∈ F)) t := by
  intro post
  induction post with
  | nil =>
    intro turns h block hlt _ hs hh
    obtain _ | turns := turns
    · cases hlt
    obtain rfl : block = 0 := hs
    exact ⟨rfl, hh⟩
  | cons c post ih =>
    intro turns h block hlt hsub hs hh
    obtain _ | turns := turns
    · cases hlt
    obtain rfl : block = c := hs.1
    have hblock : block ∈ F := hsub List.mem_cons_self
    rw [highestLoop, if_neg hs.2.1]
    apply hn.get hblock
    refine ih turns _ _ (Nat.lt_of_succ_lt_succ hlt) (fun q hq => hsub (List.mem_cons_of_mem _ hq)) hs.2.2 ?_
    split
    · exact .inr hblock
    · exact hh

theorem highestBlock_wp (h : HeapOk strict t F A) :
    highestBlock.wp (device strict fails) S (fun r t' => t' = t ∧ (r = 0 ∨ (r ∈ F ∧ t.fin r = t.heap_top))) t := by
  have hN := h.lists.blocks.nodes.sub (List.subset_append_right A F)
  rw [highestBlock, wp_bind]
  apply wp_freeList
  rw [wp_bind]
  apply wp_mono (highestLoop_wp hN F TURNS 0 t.free_list (hN.length_lt h.lists.free.nodup) (List.Subset.refl _)
    h.lists.free (.inl rfl))
  intro r t1 ⟨ht1, hr⟩
  rw [ht1]
  by_cases hr0 : r = 0
  · grind [wp_bind, getSize, getField, wp_pure, wp_heapTop]
  · have hrF := hr.resolve_left hr0
    have hin := h.lists.blocks.inside r (List.mem_append_right _ hrF)
    have htop := h.lists.blocks.top
    apply hN.get hrF
    rw [wp_bind]
    apply wp_heapTop
    have hmod : (r + t.field .size r + PD) % 2 ^ 64 = t.fin r := by
      rw [Nat.add_right_comm]
      apply Nat.mod_eq_of_lt
      simp only [Flat.fin, MAXVA] at *
      omega
    rw [hmod]
    by_cases hlt : t.fin r < t.heap_top
    · rw [if_pos hlt]
      exact ⟨rfl, .inl rfl⟩
    · rw [if_neg hlt]
      exact ⟨rfl, .inr ⟨hrF, le_antisymm hin.2 (Nat.le_of_not_lt hlt)⟩⟩

/-- a block at `start` is about to be extended beyond the top of the heap: the other blocks are below it -/
structure Extending (strict : Bool) (t₀ : Flat) (F A : List ℕ) (t : Flat) (F1 : List ℕ) (start : ℕ) : Prop where
  lists : Wellformed strict t t.free_list t.alloc_list F1 A
  top : t.heap_top % PGSIZE = 0
  bottom : t.heap_bottom = t₀.heap_bottom
  room : t.heap_bottom ≤ start ∧ start + PD ≤ t.heap_top
  aligned : start % 8 = 0
  inPage : strict = true → InPage start
  below : ∀ q ∈ A ++ F1, t.fin q ≤ start
  keep : ∀ q ∈ A, t.field .size q = t₀.field .size q
  tiled : Tiled t₀ (A ++ F) → ∀ a, t.heap_bottom ≤ a → a < start → Covered t (A ++ F1) a

variable {t₀ : Flat}

theorem Extending.grown (h : Extending strict t₀ F A t F1 start) (hg : Grown t t') :
    Extending strict t₀ F A t' F1 start := by
  have hf : ∀ q ∈ A ++ F1, t'.field .size q = t.field .size q :=
    fun q hq => hg.field (h.lists.blocks.nodes.good q hq).1.2
  refine ⟨?_, ?_, hg.bottom.trans h.bottom, ?_, h.aligned, h.inPage, ?_, ?_, ?_⟩
  · rw [hg.free, hg.alloc]
    exact h.lists.grown hg
  · rw [hg.top, Nat.add_mod_right]
    exact h.top
  · have := h.room
    rw [hg.bottom, hg.top]
    omega
  · intro q hq
    rw [Flat.fin, hf q hq]
    exact h.below q hq
  · intro q hq
    rw [hf q (List.mem_append_left _ hq)]
    exact h.keep q hq
  · intro htile a h1 h2
    rw [covered_congr hf]
    rw [hg.bottom] at h1
    exact h.tiled htile a h1 h2

theorem extending_highest {l1 l2 : List ℕ} (h : HeapOk strict t (l1 ++ start :: l2) A) (hfin : t.fin start = t.heap_top)
    (hfree : Seg (t1.field .next) free (l1 ++ l2) 0) (hrel : Relinks l1 t t1) :
    Extending strict t (l1 ++ start :: l2) A (t1.setFree free) (l1 ++ l2) start ∧
      t1.field .size start = t.field .size start := by
  have hb := h.lists.blocks
  have hstart : start ∈ A ++ (l1 ++ start :: l2) := by simp
  obtain ⟨-, hi, hia⟩ := h.lists.split_nodup
  have hsub : A ++ (l1 ++ l2) ⊆ A ++ (l1 ++ start :: l2) := by grind
  have hne : ∀ q ∈ A ++ (l1 ++ l2), start ≠ q := by
    grind
  have hsize : ∀ q ∈ A ++ (l1 ++ start :: l2), t1.field .size q = t.field .size q := fun q hq =>
    (hrel.sub fun p hp => by simp [hp]).size_mem hb.nodes hq
  have hbelow : ∀ q ∈ A ++ (l1 ++ l2), t.fin q ≤ start := by
    intro q hq
    have h1 := hb.disj start hstart q (hsub hq) (hne q hq)
    have h2 := hb.inside q (hsub hq)
    simp only [Flat.fin, PD] at *
    omega
  have hw1 : Wellformed strict t1 free t.alloc_list (l1 ++ l2) A := by
    refine ⟨(hb.congr hrel.same hsize).sub hsub, hfree,
      hrel.seg h.lists.alloc fun q hq => h.lists.clear (by simp) hq, ?_, ?_⟩
    · intro q hq hqf
      exact h.lists.apart q hq (by simp only [List.mem_append, List.mem_cons] at *; tauto)
    · intro q hq
      rw [hsize q (List.mem_append_left _ hq)]
      exact h.lists.positive q hq
  refine ⟨⟨?_, ?_, hrel.same.bottom, ?_, (hb.aligned start hstart).1,
    fun hst => hb.inPage hst start hstart, ?_, ?_, ?_⟩,
    hsize start hstart⟩
  · rw [free_list_setFree, alloc_list_setFree, hrel.same.alloc]
    exact hw1.setFree
  · rw [heap_top_setFree, hrel.same.top]
    exact h.top
  · rw [heap_top_setFree, heap_bottom_setFree, hrel.same.top, hrel.same.bottom]
    exact (hb.nodes.good start hstart).1
  · intro q hq
    rw [fin_setFree, Flat.fin, hsize q (hsub hq)]
    exact hbelow q hq
  · intro q hq
    rw [field_setFree]
    exact hsize q (List.mem_append_left _ hq)
  · intro htile a h1 h2
    rw [heap_bottom_setFree, hrel.same.bottom] at h1
    rw [covered_setFree]
    have hlt : a < t.heap_top := by
      have := (hb.nodes.good start hstart).1.2
      omega
    obtain ⟨q, hq, hqa, hqf⟩ := htile a h1 hlt
    refine ⟨q, ?_, hqa, by rwa [Flat.fin, hsize q hq]⟩
    grind

theorem extending_top (h : HeapOk strict t F A) (hg : Grown t t1) :
    Extending strict t F A (t1.put .size t.heap_top (PGSIZE - PD)) F t.heap_top := by
  have hold : ∀ q ∈ A ++ F, q + PD ≤ t.heap_top := fun q hq => (h.lists.blocks.nodes.good q hq).1.2
  have hf : ∀ q ∈ A ++ F, ∀ f, (t1.put .size t.heap_top (PGSIZE - PD)).field f q = t.field f q := by
    intro q hq f
    rw [field_put_apart (.inr (hold q hq)), hg.field (hold q hq)]
  have htop := h.top
  have hle := h.le
  refine ⟨?_, ?_, hg.bottom, ?_, ?_, ?_, ?_, ?_, ?_⟩
  · show Wellformed strict _ t1.free_list t1.alloc_list F A
    rw [hg.free, hg.alloc]
    refine h.lists.grow hg.bottom ?_ ?_ hf
    · show t.heap_top ≤ t1.heap_top
      rw [hg.top]
      omega
    · show t1.heap_top ≤ MAXVA
      rw [hg.top]
      exact hg.room
  · show t1.heap_top % PGSIZE = 0
    rw [hg.top, Nat.add_mod_right]
    exact htop
  · show t1.heap_bottom ≤ t.heap_top ∧ t.heap_top + PD ≤ t1.heap_top
    rw [hg.bottom, hg.top]
    simp only [PGSIZE, PD]
    omega
  · simp only [PGSIZE] at htop
    omega
  · intro _
    simp only [InPage, PGSIZE, PD] at *
    omega
  · intro q hq
    rw [Flat.fin, hf q hq]
    exact (h.lists.blocks.inside q hq).2
  · exact fun q hq => hf q (List.mem_append_left _ hq) .size
  · intro htile a h1 h2
    rw [covered_congr fun q hq => hf q hq .size]
    rw [show (t1.put .size t.heap_top (PGSIZE - PD)).heap_bottom = t.heap_bottom from hg.bottom] at h1
    exact htile a h1 h2

/-- `i` pages have been added behind the block of `size` bytes at `start`; there is one at least for the first -/
structure Added (fails : Bool) (start size i : ℕ) (t : Flat) : Prop where
  bytes : t.field .size start = size
  top : start + PD + size + i * PGSIZE = t.heap_top
  first : i = 0 → Supply fails 1 t

def ExtendsInPage (t : Flat) (n : ℕ) (F : List ℕ) : Prop :=
  InPage (t.heap_top + PD + n) ∧ ∀ p ∈ F, t.fin p = t.heap_top → InPage (p + PD + n)

theorem extensionStart_wp (h : HeapOk strict t F A) (hsup : Supply fails 2 t) (hbig : PGSIZE < n + PD)
    (hn31 : n < 2 ^ 31) (hunfit : ∀ p ∈ F, Unfit t n p) (hpage : strict = true → ExtendsInPage t n F) :
    (extensionStart n).wp (device strict fails) S (fun r t' => ∃ start size more F1, r = some (start, more) ∧
      Extending strict t F A t' F1 start ∧ (t'.heap_top : ℤ) + more = start + PD + n ∧ -PD < more ∧ more ≤ n ∧
      (strict = true → InPage (start + PD + n)) ∧ Added fails start size 0 t') t := by
  rw [extensionStart, wp_bind]
  apply wp_mono (highestBlock_wp h)
  intro b t1 ⟨ht1, hb⟩
  rw [ht1]
  by_cases hb0 : b ≠ 0
  · obtain ⟨hbF, hfin⟩ := hb.resolve_left hb0
    have hN := h.lists.blocks.nodes.sub (List.subset_append_right A F)
    have hu := hunfit b hbF
    have hpg : strict = true → InPage (b + PD + n) := fun hst => (hpage hst).2 b hbF hfin
    rw [if_pos hb0, wp_bind]
    apply wp_freeList
    rw [wp_bind]
    apply wp_mono (removeFromPdList_wp hN h.lists.free hbF)
    intro free' t2 ⟨l1, l2, hF, hfree, hrel⟩
    rw [hF] at h
    obtain ⟨hext, hsize⟩ := extending_highest h hfin hfree hrel
    rw [wp_bind]
    apply wp_setFreeList
    rw [wp_bind]
    have hgood : Good strict t2 b := (hN.good b hbF).congr hrel.same
    apply wp_get hb0 (t := t2.setFree free') hgood
    rw [wp_pure, field_setFree, hsize]
    simp only [Unfit, PD] at hu
    have hbmod : Int.bmod ((n : ℤ) - (t.field .size b : ℕ)) (2 ^ 32) = (n : ℤ) - (t.field .size b : ℕ) :=
      Int.bmod_eq_of_le (by norm_num; omega) (by norm_num; omega)
    refine ⟨b, t.field .size b, _, l1 ++ l2, by rw [hbmod], ?_, ?_, by simp only [PD]; omega, by omega, hpg, ?_, ?_, ?_⟩
    · rw [hF]
      exact hext
    · rw [heap_top_setFree, hrel.same.top, ← hfin, Flat.fin]
      omega
    · rw [field_setFree, hsize]
    · rw [heap_top_setFree, hrel.same.top, ← hfin, Flat.fin, Nat.zero_mul, Nat.add_zero]
    · intro _
      exact (hsup.mono one_le_two).imp_right fun hk => by rwa [pages_setFree, hrel.same.pages]
  · rw [if_neg hb0, wp_bind]
    apply wp_heapTop
    rw [wp_bind]
    apply wp_grow_supply hsup
    intro t2 hg hsup2
    have htop0 : t.heap_top ≠ 0 := by
      have h1 := h.lists.blocks.bottom
      have h2 := h.le
      omega
    have htop := h.top
    have hgood : Good strict t2 t.heap_top := by
      refine ⟨⟨?_, ?_⟩, fun _ => ?_⟩
      · rw [hg.bottom]
        exact h.le
      · rw [hg.top]
        simp only [PGSIZE, PD]
        omega
      · simp only [InPage, PGSIZE, PD] at *
        omega
    rw [if_pos rfl, wp_bind]
    apply wp_set htop0 hgood (by simp [Field.width, PGSIZE, PD])
    refine ⟨t.heap_top, PGSIZE - PD, _, F, rfl, extending_top h hg, ?_, ?_, ?_, fun hst => (hpage hst).1, ?_,
      ?_, fun _ => hsup2⟩
    · rw [show (t2.put .size t.heap_top (PGSIZE - PD)).heap_top = t.heap_top + PGSIZE from hg.top]
      omega
    · simp only [PGSIZE, PD] at *
      omega
    · simp only [PGSIZE, PD] at *
      omega
    · exact field_put_self (by simp [Field.width, PGSIZE, PD])
    · rw [show (t2.put .size t.heap_top (PGSIZE - PD)).heap_top = t.heap_top + PGSIZE from hg.top]
      simp only [PGSIZE, PD]

theorem Added.grown (h : Extending strict t₀ F A t F1 start) (ha : Added fails start size i t) (hg : Grown t t') :
    Added fails start size (i + 1) t' := by
  refine ⟨?_, ?_, fun hi => absurd hi (Nat.succ_ne_zero i)⟩
  · rw [hg.field h.room.2]
    exact ha.bytes
  · rw [hg.top, ← ha.top, Nat.succ_mul, Nat.add_assoc _ (i * PGSIZE)]

theorem Added.pos (ha : Added fails start size i t) (hf : fails = true) (hp : t.pages = 0) : 0 < i := by
  rcases Nat.eq_zero_or_pos i with hi | hi
  · obtain hf' | hk := ha.first hi
    · rw [hf'] at hf
      cases hf
    · omega
  · exact hi

theorem growLoop_wp : ∀ (turns i : ℕ) (t : Flat), Extending strict t₀ F A t F1 start → Added fails start size i t →
      (growLoop turns i).wp (device strict fails) S (fun r t' => Extending strict t₀ F A t' F1 start ∧
        ∃ j, Added fails start size j t' ∧ (r = none ∧ j = i + turns ∨ r = some j ∧ 0 < j ∧ fails = true)) t := by
  intro turns
  induction turns with
  | zero =>
    intro i t h ha
    rw [growLoop, wp_pure]
    exact ⟨h, i, ha, .inl ⟨rfl, rfl⟩⟩
  | succ turns ih =>
    intro i t h ha
    rw [growLoop, wp_bind]
    apply wp_grow
    · intro t1 hg
      apply wp_mono (ih (i + 1) t1 (h.grown hg) (ha.grown h hg))
      intro r t' ⟨h', j, hj, hr⟩
      exact ⟨h', j, hj, hr.imp_left fun hr => ⟨hr.1, by omega⟩⟩
    · intro hf hp
      exact ⟨h, i, ha, .inr ⟨rfl, ha.pos hf hp, hf⟩⟩

theorem giveBack_wp (h : Extending strict t₀ F A t F1 start) (ha : Added fails start size i t) (hi : 0 < i)
    (hf : fails = true) :
    (giveBack start i).wp (device strict fails) S (MallocPost strict fails t₀ n F A) t := by
  obtain ⟨j, rfl⟩ : ∃ j, i = j + 1 := ⟨i - 1, by omega⟩
  have htop := ha.top
  have hal := h.aligned
  have hroom := h.room
  have hr : Room strict t (A ++ F1) start (j * PGSIZE + size) := by
    refine ⟨⟨hroom.1, ?_⟩, fun q hq => .inl (h.below q hq), ⟨hal, ?_⟩, h.inPage⟩
    · rw [Nat.succ_mul] at htop
      omega
    · have hmod := h.top
      simp only [PGSIZE, PD] at *
      omega
  have hs0 := hr.ne_zero h.lists.blocks
  have hlt := hr.size_lt h.lists.blocks
  rw [giveBack, wp_bind]
  apply wp_set hs0 hr.good (by simp [Field.width])
  rw [wp_bind]
  apply wp_get hs0 (hr.good.congr same_put)
  have hsize : ((((j + 1 : ℕ) : ℤ) - 1) * PGSIZE + ((t.put .flag start 0).field .size start : ℕ)) % 2 ^ 64 =
      ((j * PGSIZE + size : ℕ) : ℤ) := by
    rw [field_put_other (by decide), ha.bytes]
    simp only [Field.width] at hlt
    push_cast
    rw [add_sub_cancel_right]
    exact Int.emod_eq_of_lt (by positivity) (by exact_mod_cast hlt)
  rw [hsize, Int.toNat_natCast, wp_bind]
  apply wp_set hs0 (hr.good.congr same_put) hlt
  rw [wp_bind]
  apply wp_mono (addFree_wp h.lists hr touches_put.put (field_put_self hlt))
  rintro _ t' ⟨F', hj⟩
  refine ⟨F', .inl ⟨rfl, ⟨hj.lists, ?_, ?_⟩, ?_, hj.bottom.trans h.bottom, fun hf' => ?_⟩⟩
  · rw [hj.top]
    exact h.top
  · rw [hj.top, hj.bottom]
    omega
  · intro q hq _
    rw [hj.keep q (List.mem_append_left _ hq)]
    exact h.keep q hq
  · rw [hf'] at hf
    cases hf

theorem finishExtension_wp (h : Wellformed strict t t.free_list t.alloc_list F A)
    (hr : Room strict t (A ++ F) start n) (hn0 : n ≠ 0) :
    (finishExtension n start).wp (device strict fails) S (fun r t' => r = start + PD ∧
      Wellformed strict t' t'.free_list t'.alloc_list F (start :: A) ∧ t'.field .size start = n ∧
      (∀ q ∈ A ++ F, t'.field .size q = t.field .size q) ∧ t'.heap_bottom = t.heap_bottom ∧
      t'.heap_top = t.heap_top) t := by
  have hbig := hr.size_lt h.blocks
  have hs0 := hr.ne_zero h.blocks
  have halt := h.alloc_lt
  rw [finishExtension, wp_bind]
  apply wp_set hs0 hr.good (by simp [Field.width])
  rw [wp_bind]
  apply wp_set hs0 (hr.good.congr same_put) hbig
  have hs1 : Same t ((t.put .flag start 1).put .size start n) := same_put.trans same_put
  rw [wp_bind]
  apply wp_allocList
  rw [hs1.alloc, wp_bind]
  have hinsert : ∀ {R : ℕ → Flat → Prop},
    R start (((t.put .flag start 1).put .size start n).put .next start t.alloc_list) →
      (insertAllocBlock t.alloc_list start).wp (device strict fails) S R ((t.put .flag start 1).put .size start n) := by
    intro R hR
    rw [insertAllocBlock, if_neg (by simp [hs0])]
    by_cases ha : t.alloc_list = 0
    · rw [if_pos ha, wp_bind]
      apply wp_set hs0 (hr.good.congr hs1) (by simp [Field.width])
      rwa [ha] at hR
    · rw [if_neg ha, wp_bind]
      apply wp_set hs0 (hr.good.congr hs1) halt
      exact hR
  apply hinsert
  have ht2 : Touches start t (((t.put .flag start 1).put .size start n).put .next start t.alloc_list) :=
    touches_put.put.put
  have hsz : (((t.put .flag start 1).put .size start n).put .next start t.alloc_list).field .size start = n := by
    rw [field_put_other (by decide), field_put_self hbig]
  have hnext : (((t.put .flag start 1).put .size start n).put .next start t.alloc_list).field .next start
    = t.alloc_list :=
    field_put_self halt
  generalize ((t.put .flag start 1).put .size start n).put .next start t.alloc_list = t2 at *
  have hother : ∀ q ∈ A ++ F, ∀ f, t2.field f q = t.field f q := fun q hq f => ht2.other q f (hr.apart hq)
  rw [wp_bind]
  apply wp_setAllocList
  have hmod : (start + PD) % 2 ^ 64 = start + PD := by
    have htop := h.blocks.top
    have hin := hr.inside.2
    apply Nat.mod_eq_of_lt
    simp only [MAXVA] at htop
    omega
  refine ⟨hmod, ?_, ?_, ?_, ht2.same.bottom, ht2.same.top⟩
  · rw [free_list_setAlloc, alloc_list_setAlloc, ht2.same.free]
    refine Wellformed.setAlloc ⟨hr.blocks h.blocks ht2 hsz, ?_, ?_, ?_, ?_⟩
    · exact h.free.congr fun q hq => hother q (List.mem_append_right _ hq) .next
    · refine seg_cons.2 ⟨rfl, hs0, ?_⟩
      rw [hnext]
      exact h.alloc.congr fun q hq => hother q (List.mem_append_left _ hq) .next
    · exact List.forall_mem_cons.2 ⟨fun hqf => hr.notMem (List.mem_append_right _ hqf), h.apart⟩
    · refine List.forall_mem_cons.2 ⟨by rwa [hsz], fun q hq => ?_⟩
      rw [hother q (List.mem_append_left _ hq)]
      exact h.positive q hq
  · rw [field_setAlloc]
    exact hsz
  · intro q hq
    rw [field_setAlloc]
    exact hother q hq .size

theorem extension_after {F2 : List ℕ} (h : Extending strict t₀ F A t F1 start)
    (hw : Wellformed strict t1 t1.free_list t1.alloc_list F2 A) (hF2 : ∀ q ∈ F2, t1.fin q ≤ start ∨ start + PD + n ≤ q)
    (hF1 : F1 ⊆ F2) (hsize : ∀ q ∈ A ++ F1, t1.field .size q = t.field .size q) (hb : t1.heap_bottom = t.heap_bottom)
    (ht : t1.heap_top % PGSIZE = 0) (hin : start + PD + n ≤ t1.heap_top) (hn8 : n % 8 = 0) (hn0 : n ≠ 0)
    (hcov : ∀ a, start + PD + n ≤ a → a < t1.heap_top → Covered t1 F2 a) :
    (finishExtension n start).wp (device strict fails) S (MallocPost strict fails t₀ n F A) t1 := by
  have hroom := h.room
  have hdis : ∀ q ∈ A ++ F2, t1.fin q ≤ start ∨ start + PD + n ≤ q := by
    intro q hq
    rcases List.mem_append.1 hq with hq | hq
    · left
      rw [Flat.fin, hsize q (List.mem_append_left _ hq)]
      exact h.below q (List.mem_append_left _ hq)
    · exact hF2 q hq
  apply wp_mono (finishExtension_wp hw ⟨⟨by rw [hb]; exact hroom.1, hin⟩, hdis, ⟨h.aligned, hn8⟩, h.inPage⟩ hn0)
  rintro r t2 ⟨hr, hw2, hsz, hsize2, hb2, ht2⟩
  refine ⟨F2, .inr ⟨start, hr, ⟨⟨hw2, by rw [ht2]; exact ht, ?_⟩, ?_, ?_, ?_⟩, hsz⟩⟩
  · rw [hb2, ht2, hb]
    omega
  · intro q hq _
    rw [hsize2 q (List.mem_append_left _ hq), hsize q (List.mem_append_left _ hq)]
    exact h.keep q hq
  · rw [hb2, hb]
    exact h.bottom
  · intro _ htile a h1 h2
    rw [hb2, hb] at h1
    rw [ht2] at h2
    rw [List.cons_append, covered_cons, Flat.fin, hsz]
    by_cases ha : start ≤ a ∧ a < start + PD + n
    · exact .inl ha
    · right
      rw [covered_congr hsize2]
      by_cases hlow : a < start
      · have hc := h.tiled htile a h1 hlow
        rw [← covered_congr hsize] at hc
        refine hc.sub fun q hq => ?_
        grind
      · exact (hcov a (by omega) h2).sub (List.subset_append_right _ _)

theorem extend_wp (h : Extending strict t₀ F A t F1 start) (hmore : (t.heap_top : ℤ) + more = start + PD + n)
    (hlow : -PD < more) (hhigh : more ≤ n) (hn8 : n % 8 = 0) (hn0 : n ≠ 0)
    (hpage : strict = true → InPage (start + PD + n)) (ha : Added fails start size 0 t) :
    (extend n start more).wp (device strict fails) S (MallocPost strict fails t₀ n F A) t := by
  obtain ⟨i, hi⟩ : ∃ i : ℕ, i = ((more + PGSIZE - 1) / PGSIZE).toNat := ⟨_, rfl⟩
  rw [extend, ← hi, wp_bind]
  apply wp_mono (growLoop_wp i 0 t h ha)
  intro r t1 ⟨h1, j, hj, hr⟩
  obtain ⟨rfl, hji⟩ | ⟨rfl, hpos, hf⟩ := hr
  swap
  · exact giveBack_wp h1 hj hpos hf
  rw [Nat.zero_add] at hji
  rw [hji] at hj
  have htop1 : t1.heap_top = t.heap_top + i * PGSIZE := by
    rw [← hj.top, ← ha.top, Nat.zero_mul, Nat.add_zero]
  have hal := h1.aligned
  have htop := h1.top
  by_cases hexact : (i : ℤ) * PGSIZE ≠ more
  · rw [if_pos hexact, wp_bind]
    apply wp_heapTop
    rw [wp_bind]
    apply wp_grow
    swap
    · exact fun hf hp => giveBack_wp h1 hj (hj.pos hf hp) hf
    intro t2 hg
    have h2 := h1.grown hg
    have hmax := hg.room
    rw [if_pos rfl, wp_bind]
    have hva : (((t1.heap_top : ℤ) + (more - i * PGSIZE)) % 2 ^ 64).toNat = start + PD + n := by grind
    obtain ⟨size, hsize⟩ : ∃ size : ℕ, size = (((PGSIZE : ℕ) - (more - i * PGSIZE) - (PD : ℕ) : ℤ) % 2 ^ 64).toNat :=
      ⟨_, rfl⟩
    have hend : start + PD + n + PD + size = t2.heap_top ∧ PGSIZE - PD ≤ size := by
      rw [hg.top, htop1, hsize]
      simp only [PGSIZE, PD, MAXVA] at *
      omega
    rw [hva, ← hsize]
    have hin : t2.heap_bottom ≤ start + PD + n ∧ start + PD + n + PD + size ≤ t2.heap_top :=
      ⟨by have := h2.room; omega, le_of_eq hend.1⟩
    have hdis : ∀ q ∈ A ++ F1, t2.fin q ≤ start + PD + n ∨ start + PD + n + PD + size ≤ q := by
      intro q hq
      have := h2.below q hq
      left
      omega
    have hal2 : (start + PD + n) % 8 = 0 ∧ size % 8 = 0 := by grind
    have hz : size ≠ 0 := by
      simp only [PGSIZE, PD] at *
      omega
    apply wp_mono (newFreeBlock_wp h2.lists ⟨hin, hdis, hal2, hpage⟩)
    intro _ t3 ⟨F2, hj3⟩
    refine extension_after h2 hj3.lists ?_ hj3.super hj3.keep hj3.bottom (by rw [hj3.top]; exact h2.top)
      (by rw [hj3.top]; omega) hn8 hn0 ?_
    · intro q hq
      rcases List.mem_cons.1 (hj3.sub hq) with rfl | hq
      · exact .inr (le_refl _)
      · left
        rw [Flat.fin, hj3.keep q (List.mem_append_right _ hq)]
        exact h2.below q (List.mem_append_right _ hq)
    · intro a ha1 ha2
      have ht3 := hj3.top
      refine ⟨start + PD + n, hj3.mem hz, ha1, ?_⟩
      rw [Flat.fin, hj3.size]
      omega
  · rw [if_neg hexact]
    push Not at hexact
    have hend : start + PD + n = t1.heap_top := by grind
    refine extension_after h1 h1.lists ?_ (List.Subset.refl _) (fun _ _ => rfl) rfl h1.top (le_of_eq hend) hn8 hn0 ?_
    · exact fun q hq => .inl (h1.below q (List.mem_append_right _ hq))
    · intro a ha1 ha2
      omega

theorem allocLarge_wp (h : HeapOk strict t F A) (hn0 : n ≠ 0) (hn8 : n % 8 = 0) (hbig : PGSIZE < n + PD)
    (hn31 : n < 2 ^ 31) (hpage : strict = true → SplitsInPage t n F ∧ ExtendsInPage t n F) (hsup : Supply fails 2 t) :
    (allocLarge n).wp (device strict fails) S (MallocPost strict fails t n F A) t := by
  have hn64 : n + PD < 2 ^ 64 := by
    simp only [PD]
    omega
  rw [allocLarge, wp_bind]
  apply wp_mono (memAlloc_wp hn0 hn8 hn64 (fun hst => (hpage hst).1) h)
  intro va t1 hva
  by_cases hva0 : va ≠ 0
  · rw [if_pos hva0, wp_pure]
    exact hva.malloc hva0
  · rw [if_neg hva0, wp_bind]
    push Not at hva0
    obtain ⟨-, ht1, hunfit⟩ | ⟨hne, -⟩ := hva
    · rw [ht1]
      apply wp_mono (extensionStart_wp h hsup hbig hn31 hunfit fun hst => (hpage hst).2)
      intro r t2 ⟨start, size, more, F1, hr, hext, hmore, hlow, hhigh, hin, hadded⟩
      rw [hr]
      exact extend_wp hext hmore hlow hhigh hn8 hn0 hin hadded
    · exact absurd hva0 hne

/-! ## The calls -/

def HeadersInPage (t : Flat) (n : ℕ) (F : List ℕ) : Prop := SplitsInPage t n F ∧ (PGSIZE < n + PD → ExtendsInPage t n F)

theorem roundup8_pos {n : ℤ} (hn : 0 < n) : roundup8 n ≠ 0 ∧ roundup8 n % 8 = 0 ∧ n ≤ roundup8 n := by
  unfold roundup8
  omega

theorem sysUserAllocateMem_wp {n : ℤ} (hS : S .disabled) (h : HeapOk strict t F A)
    (hpage : strict = true → 0 < n → HeadersInPage t (roundup8 n) F)
    (hsup : PGSIZE < roundup8 n + PD → Supply fails 2 t) :
    (sysUserAllocateMem n).wp (device strict fails) S (MallocPost strict fails t (roundup8 n) F A) t := by
  rw [sysUserAllocateMem]
  by_cases hn : n ≤ 0
  · rw [if_pos hn, wp_pure]
    exact ⟨F, .inl ⟨rfl, .refl h⟩⟩
  · rw [if_neg hn]
    have hpos : 0 < n := by omega
    obtain ⟨hn0, hn8, -⟩ := roundup8_pos hpos
    by_cases hover : 2 ^ 31 ≤ roundup8 n
    · rw [if_pos hover, wp_stop]
      exact hS
    · rw [if_neg hover]
      by_cases hsmall : roundup8 n + PD ≤ PGSIZE
      · rw [if_pos hsmall]
        exact allocSmall_wp hn0 hn8 hsmall (fun hst => (hpage hst hpos).1) h
      · rw [if_neg hsmall]
        have hbig : PGSIZE < roundup8 n + PD := by omega
        exact allocLarge_wp h hn0 hn8 hbig (by omega) (fun hst => ⟨(hpage hst hpos).1, (hpage hst hpos).2 hbig⟩)
          (hsup hbig)

/-- the result of a release -/
structure FreePost (strict : Bool) (t : Flat) (F A : List ℕ) (addr : ℕ) (t' : Flat) (F' A' : List ℕ) : Prop where
  ok : HeapOk strict t' F' A'
  rest : ∀ q, q ∈ A' ↔ q ∈ A ∧ q ≠ addr
  keep : ∀ q ∈ A', t'.field .size q = t.field .size q
  bottom : t'.heap_bottom = t.heap_bottom
  tiled : (∀ p ∈ F, t.field .size p ≠ 0) → Tiled t (A ++ F) → Tiled t' (A' ++ F')

theorem memFree_wp {addr : ℕ} (hS1 : A = [] → S (.panic "free error: no allocated block.\n"))
    (hS : addr ∉ A → S (.panic "free error: cannot find the allocated block.\n")) (h : HeapOk strict t F A) :
    (memFree addr).wp (device strict fails) S (fun _ t' => ∃ F' A', FreePost strict t F A addr t' F' A') t := by
  rw [memFree, wp_bind]
  apply wp_freeList
  rw [wp_bind]
  apply wp_allocList
  rw [wp_bind]
  apply wp_mono (firstFitFree_wp hS1 hS h.lists)
  intro r t1 ⟨F', A', hrel⟩
  rw [wp_bind]
  apply wp_setFreeList
  apply wp_setAllocList
  refine ⟨F', A', h.heads hrel.same hrel.heap, hrel.rest, ?_, hrel.same.bottom, ?_⟩
  · intro q hq
    rw [field_setAlloc, field_setFree]
    exact hrel.keep q hq
  · exact fun hz htile => htile.heads hrel.same (hrel.full hz)

end RiscvPke.Heap
