/-
The region table of a process against its page table.
-/
import RiscvPke.Memory.Duplicate

namespace RiscvPke.Memory

open Function Run RiscvPke.System

variable {K : Machine} {s s' s0 s1 s2 : St} {p q P C : Slot} {v w f va i k n : ℕ} {a b : Pte} {pr pr' : Proc} {op : Op}
  {elf : List Phdr}

/-! ## Definitions -/

def Pte.Segment (a : Pte) : Prop := a.kind = .code ∨ a.kind = .data ∨ a.kind = .spill

def Entry (pr : Proc) (i : ℕ) : Prop := 4 ≤ i ∧ i < pr.total_mapped_region

/-- the table describes the pages of the program -/
structure Described (pr : Proc) : Prop where
  pages : ∀ v, (∃ a, pr.leaf v = some a ∧ a.Segment) ↔ ∃ i, Entry pr i ∧ (pr.mapped_info i).Covers v
  once : ∀ i j v, Entry pr i → Entry pr j → (pr.mapped_info i).Covers v → (pr.mapped_info j).Covers v → i = j

/-- the segments of a program have pages, and none starts at address 0 -/
def Proper (elf : List Phdr) : Prop := ∀ ph ∈ elf, ph.vaddr ≠ 0 ∧ 0 < ph.npages

/-- the condition on a step, in the state in which it is taken -/
def Describable (K : Machine) (s : St) : Op → Prop
  | .spawn elf => Proper elf
  | .exec _ elf _ => Proper elf
  | .fork P => AlignedRegions (s.proc P) ∧ forkNeed K s P ≤ s.free.length
  | .store p _ va _ => (s.proc p).leaf (va / PGSIZE) ≠ none ∨ s.free ≠ []
  | _ => True

instance (elf : List Phdr) : Decidable (Proper elf) :=
  inferInstanceAs (Decidable (∀ ph ∈ elf, ph.vaddr ≠ 0 ∧ 0 < ph.npages))

instance (s : St) : (op : Op) → Decidable (Describable K s op)
  | .spawn elf => inferInstanceAs (Decidable (Proper elf))
  | .fork _ => inferInstanceAs (Decidable (_ ∧ _))
  | .grow _ => isTrue trivial
  | .store _ _ _ _ => inferInstanceAs (Decidable (_ ∨ _))
  | .exec _ elf _ => inferInstanceAs (Decidable (Proper elf))
  | .exit _ _ => isTrue trivial
  | .reap _ => isTrue trivial

/-! ## The invariant -/

structure Table (pr : Proc) : Prop where
  filled : ∀ i, Entry pr i → (pr.mapped_info i).va ≠ 0 ∧ 0 < (pr.mapped_info i).npages ∧
    (pr.mapped_info i).npages ≤ MAX_PAGES ∧
    ((pr.mapped_info i).seg_type = .code ∨ (pr.mapped_info i).seg_type = .data)
  empty : ∀ i, 4 ≤ i → pr.total_mapped_region ≤ i → pr.mapped_info i = noRegion
  covered : ∀ v a, pr.leaf v = some a → a.Segment → ∃ i, Entry pr i ∧ (pr.mapped_info i).Covers v
  code : ∀ i v, Entry pr i → (pr.mapped_info i).seg_type = .code → (pr.mapped_info i).Covers v →
    IsKind .code (pr.leaf v)

theorem Table.described (h : Table pr) {t : ℕ} (hr : Regions t pr) : Described pr where
  pages v := by
    refine ⟨fun ⟨a, ha, hs⟩ => h.covered v a ha hs, fun ⟨i, hi, hc⟩ => ?_⟩
    rcases (h.filled i hi).2.2.2 with hty | hty
    · obtain ⟨a, ha, hk⟩ := h.code i v hi hty hc
      exact ⟨a, ha, .inl hk⟩
    · obtain ⟨a, ha, hk⟩ := hr.data i v hi.1 hty hc
      exact ⟨a, ha, .inr (.inl hk)⟩
  once i j v hi hj := hr.disjoint i j v hi.1 hj.1

theorem Table.of_kinds (h : Table pr) (hinfo : ∀ k, 4 ≤ k → pr'.mapped_info k = pr.mapped_info k)
    (htotal : pr'.total_mapped_region = pr.total_mapped_region)
    (hcode : ∀ v, IsKind .code (pr.leaf v) → IsKind .code (pr'.leaf v))
    (hseg : ∀ v a, pr'.leaf v = some a → a.Segment → ∃ b, pr.leaf v = some b ∧ b.Segment) : Table pr' := by
  have hentry : ∀ k, Entry pr' k ↔ Entry pr k := by
    intro k
    unfold Entry
    rw [htotal]
  refine ⟨fun i hi => ?_, fun i h4 hi => ?_, fun v a ha hs => ?_, fun i v hi hty hc => ?_⟩
  · rw [hinfo i hi.1]
    exact h.filled i ((hentry i).1 hi)
  · rw [hinfo i h4]
    exact h.empty i h4 (htotal ▸ hi)
  · obtain ⟨b, hb, hbs⟩ := hseg v a ha hs
    obtain ⟨i, hi, hc⟩ := h.covered v b hb hbs
    exact ⟨i, (hentry i).2 hi, by rwa [hinfo i hi.1]⟩
  · rw [hinfo i hi.1] at hty hc
    exact hcode v (h.code i v ((hentry i).1 hi) hty hc)

theorem SameSpace.table (h : SameSpace pr pr') (ht : Table pr) : Table pr' := by
  obtain ⟨d, tb, -, -, rfl⟩ := h
  exact ht.of_kinds (fun _ _ => rfl) rfl (fun _ h => h) fun v a ha hs => ⟨a, ha, hs⟩

/-! ## elf_load -/

theorem Table.freeRegion (h : Table pr) (hl : LoadOk n pr) (hj : freeRegion pr < NREGION) :
    freeRegion pr = pr.total_mapped_region := by
  have h4 := freeRegion_ge hl.regions hl.stack hl.heap hj
  have h0 := freeRegion_va hj
  have hge : pr.total_mapped_region ≤ Memory.freeRegion pr := by
    by_contra hlt
    exact (h.filled _ ⟨h4, by omega⟩).1 h0
  refine le_antisymm ?_ hge
  by_contra hlt
  -- the search would have stopped there
  have hfirst : (pr.mapped_info pr.total_mapped_region).va = 0 := by
    rw [h.empty _ hl.regions.total le_rfl]
    rfl
  unfold Memory.freeRegion at hlt hj
  cases hfind : (List.range NREGION).find? fun j => (pr.mapped_info j).va = 0 with
  | none =>
    rw [hfind] at hj
    exact absurd hj (lt_irrefl _)
  | some j =>
    rw [hfind, Option.getD_some] at hlt
    have hno := (List.find?_range_eq_some.1 hfind).2.2 pr.total_mapped_region (by omega)
    simp [hfirst] at hno

theorem loadPages_length {ph : Phdr} {vs : List ℕ} (h : vs.forM (loadPage p ph) s = .ok ((), s')) :
    vs.length ≤ s.free.length := by
  induction vs generalizing s with
  | nil => exact Nat.zero_le _
  | cons x xs ih =>
    obtain ⟨_, s1, h1, h2⟩ := run_bind.1 h
    obtain ⟨r, s2, h3, h4⟩ := run_bind.1 h1
    rcases allocPage_run h3 with ⟨rfl, -, -⟩ | ⟨f, rfl, -, hd, -⟩
    · cases h4
    obtain ⟨_, _, ⟨⟩, h6⟩ := run_bind.1 h4
    obtain ⟨-, -, l, s4, hd', -, rfl⟩ := userVmMap_page_run (by simp [PGSIZE]) h6
    have h1 := congrArg List.length hd.free
    have h2 := congrArg List.length hd'.free
    grind [withLeaf_free]

theorem Frames.length_free (h : Frames K s) : s.free.length ≤ MAX_PAGES := by
  have hsub : s.free.toFinset ⊆ Finset.Ico K.start K.stop := by
    intro f hf
    rw [List.mem_toFinset] at hf
    exact Finset.mem_Ico.2 (h.range f hf)
  have hcard := Finset.card_le_card hsub
  have := K.span
  rw [List.toFinset_card_of_nodup h.nodup, Nat.card_Ico] at hcard
  omega

variable {N : ℕ → Pte → Prop}

theorem Table.append {r : Region} (h : Table pr) (hg : Grows N pr pr') (h4 : 4 ≤ pr.total_mapped_region)
    (hfill : r.va ≠ 0 ∧ 0 < r.npages ∧ r.npages ≤ MAX_PAGES ∧ (r.seg_type = .code ∨ r.seg_type = .data))
    (hN : ∀ v a, N v a → a.Segment → r.Covers v)
    (hcode : r.seg_type = .code → ∀ v, r.Covers v → IsKind .code (pr'.leaf v)) : Table (appended pr' r) := by
  have hinfo : pr'.mapped_info = pr.mapped_info := by
    obtain ⟨lf, d, tb, rfl⟩ := hg.rest
    rfl
  have htotal := total_of_rest hg.rest
  have hself : (appended pr' r).mapped_info pr.total_mapped_region = r := by simp [appended, htotal]
  have hother : ∀ k, k ≠ pr.total_mapped_region → (appended pr' r).mapped_info k = pr.mapped_info k := by
    intro k hk
    simp [appended, htotal, hinfo, hk]
  have hentry : ∀ k, Entry (appended pr' r) k ↔ Entry pr k ∨ k = pr.total_mapped_region := by
    intro k
    simp only [Entry, appended, htotal]
    omega
  have hold : ∀ k, Entry pr k → (appended pr' r).mapped_info k = pr.mapped_info k := fun k hk => hother k hk.2.ne
  refine ⟨fun i hi => ?_, fun i h4 hi => ?_, fun v a ha hs => ?_, fun i v hi hty hc => ?_⟩
  · rcases (hentry i).1 hi with hi | rfl
    · rw [hold i hi]
      exact h.filled i hi
    · rw [hself]
      exact hfill
  · have hlt : pr.total_mapped_region < i := by
      simp only [appended, htotal] at hi
      omega
    rw [hother i hlt.ne']
    exact h.empty i h4 hlt.le
  · rcases hg.new v a ha with ha | ha
    · obtain ⟨i, hi, hc⟩ := h.covered v a ha hs
      exact ⟨i, (hentry i).2 (.inl hi), by rwa [hold i hi]⟩
    · exact ⟨_, (hentry _).2 (.inr rfl), by rw [hself]; exact hN v a ha hs⟩
  · rcases (hentry i).1 hi with hi | rfl
    · rw [hold i hi] at hty hc
      exact hg.isKind (h.code i v hi hty hc)
    · rw [hself] at hty hc
      exact hcode hty v hc

theorem loadSegment_table {ph : Phdr} (h : loadSegment p ph s = .ok ((), s')) (hf : Frames K s)
    (hl : LoadOk n (s.proc p))
    (ht : Table (s.proc p)) (h0 : ph.vaddr ≠ 0) (hpos : 0 < ph.npages) : Table (s'.proc p) := by
  unfold loadSegment at h
  split at h
  · cases h
  rename_i hsz
  obtain ⟨_, s1, h1, h⟩ := run_bind.1 h
  obtain ⟨_, s2, h2, h⟩ := run_bind.1 h
  obtain ⟨hadds, hpages⟩ := loadPages_run (K := K) h1
  obtain ⟨mem, rfl, -⟩ := readPages_run (fun v hv => hpages v (filePages_subset (by omega) v hv)) h2
  obtain ⟨hj, ty, hty, rfl⟩ := recordSegment_run h
  have hmax : ph.npages ≤ MAX_PAGES := by
    have := loadPages_length h1
    rw [List.length_range'] at this
    exact this.trans hf.length_free
  have hmod : ph.npages % 2 ^ 32 = ph.npages := Nat.mod_eq_of_lt (by simp only [MAX_PAGES] at hmax; omega)
  have hsame : freeRegion (s1.proc p) = freeRegion (s.proc p) := by
    obtain ⟨lf, d, tb, e⟩ := hadds.rest
    unfold freeRegion
    rw [e]
  have hfree : freeRegion (s1.proc p) = (s1.proc p).total_mapped_region := by
    rw [total_of_rest hadds.rest, hsame]
    exact ht.freeRegion hl (hsame ▸ hj)
  have hrec : recorded (s1.proc p) ph ty = appended (s1.proc p) ⟨ph.vaddr, ph.npages, ty⟩ := by
    simp only [recorded, appended, hfree, hmod]
  have hproc : ({ s1 with mem := mem, proc := update s1.proc p (recorded (s1.proc p) ph ty) } : St).proc p =
      appended (s1.proc p) ⟨ph.vaddr, ph.npages, ty⟩ := by simp [hrec]
  have hcovers : ∀ v, (⟨ph.vaddr, ph.npages, ty⟩ : Region).Covers v ↔ v ∈ List.range' ph.first ph.npages := by
    intro v
    rw [List.mem_range'_1]
    rfl
  rw [hproc]
  refine ht.append hadds.grows hl.regions.total ⟨h0, hpos, hmax, ?_⟩ (fun v a ha _ => (hcovers v).2 ha.1) fun hc v hv =>
    ?_
  · exact (segType_kind hty).imp And.left And.left
  · obtain ⟨-, f, -, hleaf⟩ := hpages v ((hcovers v).1 hv)
    refine ⟨_, hleaf, ?_⟩
    grind [segType_kind]

/-- **`elf_load`** enters the segments one behind the other. -/
theorem elfLoad_table (h : elfLoad p elf s = .ok ((), s')) (hf : Frames K s) (hl : LoadOk n (s.proc p))
    (ht : Table (s.proc p)) (hp : Proper elf) : Table (s'.proc p) := by
  have key := run_forMem (fun s1 => Frames K s1 ∧ LoadOk n (s1.proc p) ∧ Table (s1.proc p)) ?_ ⟨hf, hl, ht⟩ h
  · exact key.2.2
  intro ph hph s1 s2 ⟨hf1, hl1, ht1⟩ hx
  obtain ⟨hb, hl2⟩ := loadSegment_run (K := K) hx hl1
  obtain ⟨h0, hpos⟩ := hp ph hph
  exact ⟨hb.frames hf1, hl2, loadSegment_table hx hf1 hl1 ht1 h0 hpos⟩

theorem Table.fresh (htotal : pr.total_mapped_region = 4) (hinfo : ∀ k, 4 ≤ k → pr.mapped_info k = noRegion)
    (hleaf : ∀ v a, pr.leaf v = some a → ¬ a.Segment) : Table pr := by
  have hno : ∀ i, ¬ Entry pr i := by
    intro i hi
    have := hi.1
    have := hi.2
    omega
  exact ⟨fun i hi => absurd hi (hno i), fun i h4 _ => hinfo i h4, fun v a ha hs => absurd hs (hleaf v a ha),
    fun i v hi => absurd hi (hno i)⟩

theorem BasePte.not_segment (h : BasePte v a) : ¬ a.Segment := by
  intro hs
  rcases h with ⟨-, hk, -⟩ | ⟨hk, -⟩
  · rw [Pte.Segment, hk] at hs
    simp at hs
  · rw [Pte.Segment, hk] at hs
    simp at hs

theorem Allocated.table (h : Allocated K p s s') : Table (s'.proc p) := by
  refine .fresh h.parts.2.2.2 (fun k hk => h.mapped_info hk) fun v a ha => ?_
  obtain ⟨tf, -, hg⟩ := h.proc
  rcases hg.new v a ha with ha | ha
  · cases ha
  · exact ha.not_segment

/-! ## do_exec -/

/-- the loop of `do_exec` before the turn `i` -/
structure Emptying (p : Slot) (s0 : St) (i : ℕ) (s : St) : Prop where
  same : ∀ k, i ≤ k → (s.proc p).mapped_info k = (s0.proc p).mapped_info k
  done : ∀ k, k < i → Drops ((s0.proc p).mapped_info k) → (s.proc p).mapped_info k = noRegion ∧
    ∀ v ∈ dropPages ((s0.proc p).mapped_info k), leafAt s p v = none
  kept : ∀ v, (∀ k, k < i → Drops ((s0.proc p).mapped_info k) → v ∉ dropPages ((s0.proc p).mapped_info k)) →
    leafAt s p v = leafAt s0 p v

theorem Emptying.step (he : Emptying p s0 i s) (hI : Dropping K p s0 i s) (h : dropRegion K p i s = .ok ((), s')) :
    Emptying p s0 (i + 1) s' := by
  have hrun := dropRegion_run h hI.unmaps.frames rfl hI.mayUnmap
  rw [he.same i le_rfl] at hrun
  rcases hrun with ⟨hd, rfl⟩ | ⟨hd, hu, hgone, hkeep, hinfo, -⟩
  · refine ⟨fun k hk => he.same k (by omega), fun k hk hdk => ?_, fun v hv => he.kept v fun k hk => hv k (by omega)⟩
    have hne : k ≠ i := by
      intro e
      exact hd (e ▸ hdk)
    exact he.done k (by omega) hdk
  · refine ⟨fun k hk => ?_, fun k hk hdk => ?_, fun v hv => ?_⟩
    · rw [hinfo, update_of_ne (by omega)]
      exact he.same k (by omega)
    · by_cases hki : k = i
      · subst hki
        exact ⟨by rw [hinfo, update_self], hgone⟩
      · obtain ⟨hk1, hk2⟩ := he.done k (by omega) hdk
        exact ⟨by rw [hinfo, update_of_ne hki, hk1], fun v hv => hu.none_of_none (hk2 v hv)⟩
    · rw [hkeep v (hv i (by omega) hd)]
      exact he.kept v fun k hk => hv k (by omega)

theorem Table.drops (h : Table pr) (hi : Entry pr i) : Drops (pr.mapped_info i) ∧
    ∀ v, v ∈ dropPages (pr.mapped_info i) ↔ (pr.mapped_info i).Covers v := by
  obtain ⟨-, hpos, hmax, hty⟩ := h.filled i hi
  refine ⟨⟨hty.imp_right .inl, hpos⟩, fun v => ?_⟩
  rw [dropPages, Nat.mod_eq_of_lt (by simp only [MAX_PAGES] at hmax; omega), List.mem_range'_1]
  rfl

/-- what the loop over the regions leaves of the pages of a process -/
structure Emptied (p : Slot) (s s' : St) : Prop where
  segments : ∀ v a, leafAt s' p v = some a → ¬ a.Segment
  /-- pages that are neither of the program nor of the heap nor the stack page -/
  kept : ∀ v a, leafAt s p v = some a → ¬ a.Segment → a.kind ≠ .heap → v ≠ STACK_VPN → leafAt s' p v = some a

/-- **The loop of `do_exec`** unmaps the pages of the program and clears their entries. -/
theorem dropRegions_table (h : (List.range (s.proc p).total_mapped_region).forM (dropRegion K p) s = .ok ((), s'))
    (hf : Frames K s) (hs : Space (s.proc p).total_mapped_region (s.proc p)) (ht : Table (s.proc p)) :
    Emptied p s s' ∧ ∀ k, 4 ≤ k → (s'.proc p).mapped_info k = noRegion := by
  have h0 : Emptying p s 0 s := ⟨fun _ _ => rfl, fun k hk => by omega, fun _ _ => rfl⟩
  obtain ⟨hI, he⟩ := dropRegions_loop h hf hs (Emptying p s) h0 fun i s1 s2 hd hI hx => hI.step hd hx
  refine ⟨⟨fun v a ha hseg => ?_, fun v a ha hseg hheap hstk => ?_⟩, fun k h4 => ?_⟩
  · obtain ⟨i, hi, hc⟩ := ht.covered v a (hI.unmaps.sub v a ha) hseg
    obtain ⟨hd, hpages⟩ := ht.drops hi
    rw [(he.done i hi.2 hd).2 v ((hpages v).2 hc)] at ha
    cases ha
  · rw [he.kept v, ha]
    intro k hk hd hv
    have hcases : k = 0 ∨ k = 1 ∨ k = 2 ∨ k = 3 ∨ 4 ≤ k := by omega
    rcases hcases with rfl | rfl | rfl | rfl | h4
    · rw [hs.stack.dropPages, List.mem_singleton] at hv
      exact hstk hv
    · rw [Drops, hs.regions.context.1] at hd
      simp at hd
    · rw [Drops, hs.regions.system.1] at hd
      simp at hd
    · obtain ⟨n, hn⟩ := hs.heap
      rw [hn.dropPages hf, List.mem_range'_1, ← hn.mapped v] at hv
      obtain ⟨b, hb, hbk⟩ := hv
      rw [leafAt, hb] at ha
      cases ha
      exact hheap hbk
    · obtain ⟨b, hb, hbs⟩ := ((ht.described hs.regions).pages v).2 ⟨k, ⟨h4, hk⟩, covers_of_mem_dropPages hv⟩
      rw [leafAt, hb] at ha
      cases ha
      exact hseg hbs
  · by_cases hk : k < (s.proc p).total_mapped_region
    · exact (he.done k hk (ht.drops ⟨h4, hk⟩).1).1
    · rw [he.same k (by omega)]
      exact ht.empty k h4 (by omega)

theorem doExec_table {para : List UInt8} (h : doExec K p elf para s = .ok ((), s')) (hf : Frames K s)
    (hs : Space (s.proc p).total_mapped_region (s.proc p)) (ht : Table (s.proc p)) (hp : Proper elf) :
    Table (s'.proc p) := by
  obtain ⟨s1, page, s2, s3, s5, h1, h2, h3, h5, h6⟩ := doExec_stages h
  obtain ⟨hu, hreg, hstk, hfree, hheap⟩ := dropRegions_run h1 hf hs
  obtain ⟨hempty, hinfo⟩ := dropRegions_table h1 hf hs ht
  obtain ⟨ha, hf4, f, hself⟩ := exec_stack hu hfree h2 h3
  have hl := exec_loadOk hreg hheap ha hself
  have hproc : (s3.reset p).proc p = resetProc (s3.proc p) := update_self _ _ _
  have ht4 : Table ((s3.reset p).proc p) := by
    rw [hproc]
    refine .fresh rfl (fun k h4 => ?_) fun v a hv => ?_
    · obtain ⟨lf, d, tb, e⟩ := ha.rest
      rw [← hinfo k h4, e]
      simp [resetProc, show k ≠ 0 by omega, show k ≠ 3 by omega]
    · rcases ha.new v a hv with hv | hv
      · exact hempty.segments v a hv
      · exact hv.not_segment
  have ht5 := elfLoad_table h5 hf4 hl ht4 hp
  obtain ⟨hb, -⟩ := elfLoad_run (K := K) h5 hl
  obtain ⟨mem, rfl, -⟩ := writeArgs_run h6 (hb.old _ _ (leafAt_reset.trans hself)) rfl
  exact ht5

/-! ## Forks -/

/-- the loop of a fork before the turn `i` -/
structure Listing (P C : Slot) (s0 : St) (i : ℕ) (s : St) : Prop where
  table : Table (s.proc C)
  total : (s.proc C).total_mapped_region = max 4 i
  info : ∀ k, 4 ≤ k → k < i → (s.proc C).mapped_info k = (s0.proc P).mapped_info k

theorem shareCode_lt {vas : List ℕ} (h : vas.forM (shareCodePage P C) s = .ok ((), s')) :
    ∀ va ∈ vas, va % PGSIZE = 0 → va < MAXVA := by
  induction vas generalizing s with
  | nil => simp
  | cons x xs ih =>
    obtain ⟨_, s1, h1, h2⟩ := run_bind.1 h
    intro va hva hal
    rcases List.mem_cons.1 hva with rfl | hva
    · obtain ⟨_, _, hg, h1⟩ := run_bind.1 h1
      obtain ⟨r, s2, h3, -⟩ := run_bind.1 h1
      rw [mapPages_aligned hal] at h3
      obtain ⟨r', s3, h4, -⟩ := run_bind.1 h3
      have := (pageWalk_run h4).1
      simp only [PGSIZE] at *
      omega
    · exact ih h2 va hva hal

theorem Listing.base (hL : Listing P C s0 i s) (hi : i < 4) (ht : Table (s'.proc C))
    (htotal : (s'.proc C).total_mapped_region = (s.proc C).total_mapped_region) : Listing P C s0 (i + 1) s' where
  table := ht
  total := by
    rw [htotal, hL.total]
    omega
  info k h4 hk := by omega

theorem Listing.append {r : Region} (hL : Listing P C s0 i s) (hi : 4 ≤ i) (hr : r = (s0.proc P).mapped_info i)
    (hfill : r.va ≠ 0 ∧ 0 < r.npages ∧ r.npages ≤ MAX_PAGES ∧ (r.seg_type = .code ∨ r.seg_type = .data))
    (hadds : Adds K N C s s1) (hproc : s'.proc C = appended (s1.proc C) r) (hN : ∀ v a, N v a → a.Segment → r.Covers v)
    (hcode : r.seg_type = .code → ∀ v, r.Covers v → IsKind .code (leafAt s1 C v)) : Listing P C s0 (i + 1) s' := by
  have htot : (s.proc C).total_mapped_region = i := by
    rw [hL.total]
    omega
  have htot1 : (s1.proc C).total_mapped_region = i := by rw [total_of_rest hadds.rest, htot]
  refine ⟨?_, ?_, fun k h4 hk => ?_⟩
  · rw [hproc]
    exact hL.table.append hadds.grows (by omega) hfill hN hcode
  · rw [hproc]
    simp only [appended, htot1]
    omega
  · rw [hproc]
    simp only [appended, htot1]
    by_cases hki : k = i
    · subst hki
      rw [update_self, hr]
    · obtain ⟨lf, d, tb, e⟩ := hadds.rest
      rw [update_of_ne hki, e]
      exact hL.info k h4 (by omega)

theorem PagePte.covers {r : Region} {fl : Flags} {Q : Pte → Prop} (h : PagePte va fl Q v a) (hal : va % PGSIZE = 0)
    (hva : va ∈ r.pages) : r.Covers v := by
  rw [(h.of_aligned hal).2.1]
  exact Region.covers_of_mem_pages hva

/-- **One region of the parent.** The turn for region `i` enters the region in the table of the child, and its pages in
the page table. -/
theorem Listing.step (hL : Listing P C s0 i s) (hI : Forking K N P C s0 i s) (h0 : Inv K s0)
    (hl : s0.life P = .live) (hbits : ∀ v a, leafAt s0 P v = some a → KindBits a) (ht : Table (s0.proc P))
    (hal : AlignedRegions (s0.proc P)) (hp : Progress K P C s0 i s)
    (hroom : forkNeed K s0 P ≤ s0.free.length) (hne : C ≠ P)
    (hi : i < (s0.proc P).total_mapped_region) (h : copyRegion K P C i s = .ok ((), s')) :
    Listing P C s0 (i + 1) s' := by
  have hP := h0.live P hl
  have halign : ∀ va ∈ ((s0.proc P).mapped_info i).pages, ((s0.proc P).mapped_info i).seg_type = .code ∨
      ((s0.proc P).mapped_info i).seg_type = .data → va % PGSIZE = 0 :=
    fun va hva hty => Region.aligned_of_mem hva (hal i hi hty)
  -- the entries behind the base regions are CODE and DATA regions
  have hbase : ((s0.proc P).mapped_info i).seg_type ≠ .code → ((s0.proc P).mapped_info i).seg_type ≠ .data → i < 4 := by
    intro h1 h2
    by_contra h4
    exact (ht.filled i ⟨by omega, hi⟩).2.2.2.elim h1 h2
  have hlacks := (hp.step hI hP hne hi h).not_lacks hi hroom
  have hrun := copyRegion_run h
  rw [hI.parent.mapped_info] at hrun
  cases hrun with
  | skip hty hs =>
    have hlt : i < 4 :=
      hbase (by rcases hty with e | e <;> rw [e] <;> simp) (by rcases hty with e | e <;> rw [e] <;> simp)
    subst hs
    exact hL.base hlt hL.table rfl
  | stack hty hsrc hs =>
    have hlt : i < 4 := hbase (by rw [hty]; simp) (by rw [hty]; simp)
    subst hs
    exact hL.base hlt hL.table rfl
  | @heap hty s1 h1 hs =>
    have hlt : i < 4 := hbase (by rw [hty]; simp) (by rw [hty]; simp)
    obtain ⟨n, hn⟩ := hP.heap
    obtain ⟨hsh, -⟩ := shareHeap_run h1 hI.frames hne (hI.parent.heapOk hn)
    have hproc : s'.proc C = withHeap (s1.proc C) (s.proc P) := by simp [hs]
    obtain ⟨lf, d, tb, e⟩ := hsh.rest
    refine hL.base hlt (hL.table.of_kinds (fun k h4 => ?_) ?_ (fun v hv => ?_) fun v a ha hseg => ?_) ?_
    · rw [hproc, e]
      simp [withHeap, show k ≠ 3 by omega]
    · rw [hproc, e]
      rfl
    · obtain ⟨a, ha, hk⟩ := hv
      rw [hproc]
      exact ⟨a, hsh.old v a ha, hk⟩
    · rw [hproc] at ha
      rcases hsh.new v a ha with ha | ⟨b, -, hb, rfl⟩
      · exact ⟨a, ha, hseg⟩
      · rw [Pte.Segment, protect_kind, hb] at hseg
        simp at hseg
    · rw [hproc, e]
      rfl
  | @code hty s1 h1 hs =>
    have h4 := hP.four_le (.inl hty)
    have hadds := shareCode_run (K := K) hne h1
    have hproc : s'.proc C = appended (s1.proc C) ((s0.proc P).mapped_info i) := by simp [hs]
    refine hL.append h4 rfl (ht.filled i ⟨h4, hi⟩) hadds hproc (fun v a ha _ => ?_) fun _ v hv => ?_
    · obtain ⟨va, hva, hp⟩ := ha
      exact hp.covers (halign va hva (.inl hty)) hva
    · -- the parent's page is a code page, and the kernel finds its frame
      obtain ⟨va, hva, rfl⟩ := Region.exists_mem_pages hv
      have hal' := halign va hva (.inl hty)
      obtain ⟨a, ha, hk⟩ := ht.code i _ ⟨h4, hi⟩ hty hv
      have hpa : lookupPa (s0.proc P) va = a.ppn := by
        refine lookupPa_of_leaf (shareCode_lt h1 va hva hal') ha ?_
        have hb := hbits _ a ha
        unfold KindBits at hb
        rw [hk] at hb
        rcases hb with e | e <;> rw [e] <;> rfl
      have hrange := h0.frames.inRange P _ a ha (by simp [hk]) (by simp [hk])
      have hkind : codeKind (s.proc P) va = .code := by
        have := K.trap_lt
        rw [(hI.isCode h0.frames va).2]
        grind [codeKind]
      have hmapped := (shareCode_cases K hne h1 va hva).resolve_left fun hcase => by
        obtain ⟨hnil, w, hw, htab⟩ := hcase
        refine hlacks ⟨by rw [hs]; exact hnil, w, ⟨i, hi, hty, va, hva, hw⟩, ?_⟩
        rw [hproc]
        exact htab
      have hfirst := hmapped 0 (by rw [spans_aligned hal']; exact Nat.zero_lt_one)
      exact ⟨_, hfirst, hkind⟩
  | @data hty s1 h1 hs =>
    have h4 := hP.four_le (.inr hty)
    have hproc : s'.proc C = appended (s1.proc C) ((s0.proc P).mapped_info i) := by simp [hs]
    obtain ⟨hadds, -⟩ := copyData_run hne h1 hI.frames fun va hva =>
      hI.data_src hP h4 hty hva (copyData_src K hne h1 va hva)
    refine hL.append h4 rfl (ht.filled i ⟨h4, hi⟩) hadds hproc (fun v a ha _ => ?_) fun e => ?_
    · obtain ⟨va, hva, hp⟩ := ha
      exact hp.covers (halign va hva (.inr hty)) hva
    · rw [hty] at e
      cases e

/-- **A fork** gives the child the table of the parent. -/
theorem doFork_table (h : doFork K P s = .ok (C, s')) (hI : Inv K s) (hl : s.life P = .live)
    (hbits : ∀ v a, leafAt s P v = some a → KindBits a) (ht : Table (s.proc P)) (hal : AlignedRegions (s.proc P))
    (hroom : forkNeed K s P ≤ s.free.length) :
    Forked K (fun _ a => a.kind ≠ .heap) P C s s' ∧ Listing P C s (s.proc P).total_mapped_region s' := by
  have hP := hI.live P hl
  have hfk := hI.forked hl h (forkPages_any _)
  have hloop := doFork_loop h (forkPages_any _) hI.frames hP hl hI.blank
    (fun i s1 => Progress K P C s i s1 ∧ Listing P C s i s1) (fun s1 h1 => ?_)
    fun i s1 s2 hi hF hp hx =>
      ⟨hp.1.step hF hP (hfk.ne hl) hi hx, hp.2.step hF hI hl hbits ht hal hp.1 hroom (hfk.ne hl) hi hx⟩
  · exact ⟨hloop.1, hloop.2.2⟩
  · have hA := allocSpace_run h1 hI.frames (hI.blank C hfk.slot)
    exact ⟨allocSpace_progress h1, hA.table, hA.parts.2.2.2, fun k h4 hk => by omega⟩

/-! ## Runs -/

theorem Protects.table (h : Protects pr pr') (ht : Table pr) : Table pr' := by
  refine ht.of_kinds (fun _ _ => by rw [h.mapped_info]) (total_of_rest h.rest) (fun v hv => h.isKind.2 hv)
    fun v a ha hs => ?_
  rcases h.leaf v with e | ⟨b, hb, hbk, e⟩
  · exact ⟨a, e.symm.trans ha, hs⟩
  · rw [e] at ha
    cases ha
    exact ⟨b, hb, hs⟩

theorem Grows.table (h : Grows N pr pr') (hN : ∀ v a, N v a → ¬ a.Segment) (ht : Table pr) : Table pr' := by
  refine ht.of_kinds (fun _ _ => ?_) (total_of_rest h.rest) (fun v hv => h.isKind hv) fun v a ha hs => ?_
  · obtain ⟨lf, d, tb, rfl⟩ := h.rest
    rfl
  · rcases h.new v a ha with ha | ha
    · exact ⟨a, ha, hs⟩
    · exact absurd hs (hN v a ha)

theorem fault_table (h : s1 = s ∨ (∃ a', Breaks K p (va / PGSIZE) a' s s1) ∨ growStack p va s = .ok ((), s1))
    (hc : leafAt s p (va / PGSIZE) ≠ none ∨ s.free ≠ []) (ht : Table (s.proc p)) :
    Table (s1.proc p) ∧ s1.life = s.life ∧ ∀ q, q ≠ p → SameSpace (s.proc q) (s1.proc q) := by
  rcases h with rfl | ⟨a, h⟩ | h
  · exact ⟨ht, rfl, fun q _ => .refl _⟩
  · refine ⟨ht.of_kinds (fun k _ => ?_) (total_of_rest h.rest) (fun v hv => h.isKind.2 hv) fun v b hb hs => ?_,
      h.life, h.others⟩
    · obtain ⟨lf, d, tb, e⟩ := h.rest
      rw [e]
    · obtain ⟨c, hc, hk⟩ := h.isKind.1 ⟨b, hb, rfl⟩
      exact ⟨c, hc, by rwa [Pte.Segment, hk]⟩
  · obtain ⟨-, hnone, hgrown⟩ := growStack_run (K := K) h
    have hadds := hgrown (hc.resolve_left fun hne => hne hnone)
    refine ⟨hadds.grows.table (fun v a ha hs => ?_) ht, hadds.life, hadds.others⟩
    rw [Pte.Segment, ha.2] at hs
    simp at hs

theorem growHeap_table {r : Bool} (h : growHeap p s = .ok (r, s')) (hg : Grown K p n f s s') (hn : HeapOk n (s.proc p))
    (ht : Table (s.proc p)) : Table (s'.proc p) := by
  have hrest : (∀ k, k ≠ 3 → (s'.proc p).mapped_info k = (s.proc p).mapped_info k) ∧
      (s'.proc p).total_mapped_region = (s.proc p).total_mapped_region := by
    rcases growHeap_parts h with ⟨-, rfl, -⟩ | ⟨-, f, s1, s2, -, hd, -, hmap, rfl⟩
    · exact ⟨fun _ _ => rfl, rfl⟩
    have htop : (s.proc p).heap_top % PGSIZE = 0 := by
      rw [hn.top]
      simp [USER_FREE_ADDRESS_START, PGSIZE]
    obtain ⟨-, -, l, s3, hd', -, rfl⟩ := userVmMap_page_run htop hmap
    obtain ⟨d, tb, -, -, e⟩ := (hd.trans hd').proc p
    refine ⟨fun k hk => ?_, ?_⟩
    · simp [grownProc, hk, e]
    · simp [grownProc, e]
  refine ht.of_kinds (fun k h4 => hrest.1 k (by omega)) hrest.2 (fun v hv => hg.builds.isKind hv) fun v a ha hs => ?_
  rcases hg.builds.new v a ha with ha | ⟨-, rfl⟩
  · exact ⟨a, ha, hs⟩
  · simp [Pte.Segment] at hs

theorem table_others (ht : ∀ q, s.life q = .live → Table (s.proc q))
    (hsame : ∀ q, q ≠ p → SameSpace (s.proc q) (s'.proc q))
    (hlife : ∀ q, q ≠ p → s'.life q = s.life q) (hp : s'.life p = .live → Table (s'.proc p)) (hq : s'.life q = .live) :
    Table (s'.proc q) := by
  by_cases hqp : q = p
  · subst hqp
    exact hp hq
  · exact (hsame q hqp).table (ht q (hlife q hqp ▸ hq))

/-- **One step keeps the tables**: the regions of a live process still list its segments, after every step that meets
the condition. -/
theorem step_table (hI : Inv K s) (hbits : ∀ p v a, leafAt s p v = some a → KindBits a)
    (ht : ∀ q, s.life q = .live → Table (s.proc q)) (hc : Describable K s op) (hst : step K s op = .ok s')
    (hq : s'.life q = .live) : Table (s'.proc q) := by
  cases op with
  | spawn elf =>
    obtain ⟨p, s1, h1, h2⟩ := run_bind.1 (step_run hst)
    have hsp := spawn_run h1 h2 hI.frames hI.blank
    obtain ⟨hfirst, h1⟩ := allocProcess_run h1
    have hA := allocSpace_run h1 hI.frames (hI.blank p (freeSlot_free hfirst))
    obtain ⟨hr, hs, hh, -⟩ := hA.parts
    refine table_others ht hsp.others (fun q hqp => by rw [hsp.life, update_of_ne hqp]) (fun _ => ?_) hq
    exact elfLoad_table h2 hA.frames ⟨hr, hs, hh⟩ hA.table hc
  | fork P =>
    obtain ⟨hl, hx⟩ := inLife_run (step_run hst)
    obtain ⟨C, s1, h1, h2⟩ := run_bind.1 hx
    cases h2
    obtain ⟨hF, hL⟩ := doFork_table h1 hI hl (hbits P) (ht P hl) hc.1 hc.2
    by_cases hqC : q = C
    · subst hqC
      exact hL.table
    by_cases hqP : q = P
    · subst hqP
      exact hF.loop.parent.table (ht q hl)
    · rw [hF.loop.life, update_of_ne hqC] at hq
      exact (hF.loop.others q hqP hqC).table (ht q hq)
  | grow p =>
    obtain ⟨hl, hx⟩ := inLife_run (step_run hst)
    obtain ⟨r, s1, h1, h2⟩ := run_bind.1 hx
    cases h2
    obtain ⟨n, hn⟩ := (hI.live p hl).heap
    rcases growHeap_run (K := K) h1 (hI.live p hl) hn with ⟨-, rfl, -⟩ | ⟨-, f, hg⟩
    · exact ht q hq
    · exact table_others ht hg.builds.others (fun q _ => by rw [hg.builds.life]) (fun _ =>
        growHeap_table h1 hg hn (ht p hl)) hq
  | store p sp va byte =>
    cases step_effect hI hst with
    | store hl h1 hw =>
      obtain ⟨htp, hlife, hsame⟩ := fault_table h1 hc (ht p hl)
      rw [hw.state] at hq ⊢
      exact table_others ht hsame (fun q _ => by rw [hlife]) (fun _ => htp) hq
  | exec p elf para =>
    obtain ⟨hl, hx⟩ := inLife_run (step_run hst)
    have he := doExec_run hx hI.frames (hI.live p hl)
    exact table_others ht he.others (fun q _ => by rw [he.life])
      (fun _ => doExec_table hx hI.frames (hI.live p hl) (ht p hl) hc) hq
  | exit p order =>
    cases step_effect hI hst with
    | exit hl hu hgone =>
      refine table_others (p := p) ht (fun q hqp => ?_) (fun q hqp => ?_) (fun hp => ?_) hq
      · rw [hu.others q hqp]
        exact .refl _
      · rw [hu.life]
        exact update_of_ne hqp _ _
      · simp [hu.life] at hp
  | reap p =>
    cases step_effect hI hst with
    | reap hl => grind

theorem table_reachable (h : Reach (step K) (Describable K) (Booted K) s) (hl : s.life p = .live) :
    Table (s.proc p) := by
  induction h generalizing p with
  | init hb =>
    rw [hb.life p] at hl
    cases hl
  | step op h hc hst ih =>
    exact step_table (inv_reachable h) (fun _ _ _ ha => kindBits_reachable h ha) (fun _ hq => ih hq) hc hst hl

/-- the pages that have been mapped for code or data -/
def SegmentPage (s : St) (p : Slot) (v : ℕ) : Prop := ∃ a, leafAt s p v = some a ∧ a.Segment

def relisted : St := exec (step board) bootState [.spawn [codeHdr, dataHdr], .fork 0, .exec 1 [dataHdr] []]

def emptyHdr : Phdr where
  vaddr := 0x12000
  memsz := 0
  filesz := 0
  flags := 6
  data := fun _ => 0
  fits := by decide

def misplaced : St :=
  exec (step board) bootState [.spawn [codeHdr, emptyHdr, dataHdr], .exec 0 [codeHdr, dataHdr] []]

end RiscvPke.Memory
