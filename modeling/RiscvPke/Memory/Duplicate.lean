/-
What a fork copies: the user pages of the child against those of the parent.
-/
import RiscvPke.Memory.Sharing
import RiscvPke.Memory.PageNeed

namespace RiscvPke.Memory

open Run RiscvPke.System

variable {K : Machine} {s s' s0 s1 : St} {p q P C : Slot} {v w f va i : ℕ} {a b : Pte} {N : ℕ → Pte → Prop} {α : Type}

/-! ## The condition -/

def UserPage (s : St) (p : Slot) (v : ℕ) : Prop := ∃ a, leafAt s p v = some a ∧ a.u = true

/-- the same user pages, and every byte that `P` can read has the same value in `C` -/
structure SameUserSpace (s : St) (P C : Slot) : Prop where
  pages : ∀ v, UserPage s C v ↔ UserPage s P v
  bytes : ∀ va byte, userLoad s P va = some byte → userLoad s C va = some byte

def InRegion (pr : Proc) (v : ℕ) : Prop :=
  ∃ i < pr.total_mapped_region, ((pr.mapped_info i).seg_type = .code ∨ (pr.mapped_info i).seg_type = .data) ∧
    ∃ va ∈ (pr.mapped_info i).pages, v ∈ spans va

instance (pr : Proc) (v : ℕ) : Decidable (InRegion pr v) := inferInstanceAs (Decidable (∃ i < _, _ ∧ ∃ va ∈ _, _))

def stackSource (pr : Proc) : ℕ → ℕ
  | 0 => 0
  | n + 1 => if (pr.mapped_info n).seg_type = .stack then lookupPa pr (pr.mapped_info n).va else stackSource pr n

/-- the condition on the state before a fork of `P` -/
structure ForkReady (K : Machine) (s : St) (P : Slot) : Prop where
  /-- the user pages are the stack page, the heap and the recorded segments -/
  pages : ∀ v, UserPage s P v ↔ v = STACK_VPN ∨ InHeap (s.proc P) v ∨ InRegion (s.proc P) v
  /-- the page behind an unaligned code page is on the next frame -/
  code : ∀ i va, FromRegion (s.proc P) .code i va → va % PGSIZE ≠ 0 → ∀ a, leafAt s P (va / PGSIZE + 1) = some a →
    a.u = true → a.ppn = lookupPa (s.proc P) va + 1
  data : ∀ i va, FromRegion (s.proc P) .data i va → va % PGSIZE = 0
  stack : stackSource (s.proc P) (s.proc P).total_mapped_region ∉ s.free ∧ ∀ x < PGSIZE,
    s.mem (stackSource (s.proc P) (s.proc P).total_mapped_region * PGSIZE + x) =
      s.mem (lookupPa (s.proc P) STACK_PAGE * PGSIZE + x)
  room : forkNeed K s P ≤ s.free.length

/-- The parent has lost no code page to a fork that ran out of pages; behind an unaligned segment there is nothing but
the next frame of a code page, in the same table; and the frame that is copied to the stack last is not free. -/
structure Whole (s : St) (P : Slot) : Prop where
  code : ∀ i va, FromRegion (s.proc P) .code i va → UserPage s P (va / PGSIZE)
  behindCode : ∀ i va, FromRegion (s.proc P) .code i va → va % PGSIZE ≠ 0 →
    (va / PGSIZE + 1) / 2 ^ 9 = va / PGSIZE / 2 ^ 9 ∧ ∀ a, leafAt s P (va / PGSIZE + 1) = some a → a.u = true →
      a.ppn = lookupPa (s.proc P) va + 1
  behindData : ∀ i va, FromRegion (s.proc P) .data i va → va % PGSIZE ≠ 0 → ¬ UserPage s P (va / PGSIZE + 1)
  source : stackSource (s.proc P) (s.proc P).total_mapped_region ∉ s.free

/-! ## The loop -/

def DataCopied (P C : Slot) (s0 s : St) (va : ℕ) : Prop :=
  ∃ f, leafAt s C (va / PGSIZE) = some ⟨DATA_FLAGS, f, .data⟩ ∧
    ∀ x, x / PGSIZE = f → s.mem x = s0.mem (lookupPa (s0.proc P) va * PGSIZE + x % PGSIZE)

/-- what the child has got before the turn `i` -/
structure Copying (P C : Slot) (s0 : St) (i : ℕ) (s : St) : Prop where
  stack : 0 < i → stackSource (s0.proc P) i ∉ s0.free → ∀ a, leafAt s C STACK_VPN = some a → ∀ x, x / PGSIZE = a.ppn →
    s.mem x = s0.mem (stackSource (s0.proc P) i * PGSIZE + x % PGSIZE)
  code : ∀ j < i, ((s0.proc P).mapped_info j).seg_type = .code → ∀ va ∈ ((s0.proc P).mapped_info j).pages,
    CodeMapped (s0.proc P) C s va
  data : ∀ j < i, ((s0.proc P).mapped_info j).seg_type = .data → ∀ va ∈ ((s0.proc P).mapped_info j).pages,
    DataCopied P C s0 s va ∧ ∀ w ∈ spans va, UserPage s C w

/-- what a turn leaves of the pages that the child has already; `f` is the frame of its stack page -/
structure Keeps (C : Slot) (f : ℕ) (s s' : St) : Prop where
  leaf : ∀ v a, leafAt s C v = some a → leafAt s' C v = some a
  mem : ∀ x, x / PGSIZE ∉ s.free → x / PGSIZE ≠ f → s'.mem x = s.mem x

theorem DataCopied.keep (h : DataCopied P C s0 s va) (hf : Frames K s)
    (hstk : leafAt s C STACK_VPN = some ⟨DATA_FLAGS, f, .stack⟩) (hk : Keeps C f s s') : DataCopied P C s0 s' va := by
  obtain ⟨g, hl, hx⟩ := h
  refine ⟨g, hk.leaf _ _ hl, fun x hxg => ?_⟩
  rw [hk.mem x, hx x hxg]
  · rw [hxg]
    exact hf.notFree C _ _ hl (by simp)
  · -- a data page is on another frame than the stack page
    intro he
    have hgf : g = f := hxg.symm.trans he
    have hne : (C, va / PGSIZE) ≠ (C, STACK_VPN) := by
      intro e
      rw [(Prod.mk.inj e).2, hstk] at hl
      cases hl
    have := (hf.excl C _ _ C _ _ hl hstk (by simp) (by simp) hgf hne).1
    cases this

/-- what the child gets for one region -/
structure RegionCopied (P C : Slot) (s0 : St) (i : ℕ) (s : St) : Prop where
  code : ((s0.proc P).mapped_info i).seg_type = .code → ∀ va ∈ ((s0.proc P).mapped_info i).pages,
    CodeMapped (s0.proc P) C s va
  data : ((s0.proc P).mapped_info i).seg_type = .data → ∀ va ∈ ((s0.proc P).mapped_info i).pages,
    DataCopied P C s0 s va ∧ ∀ w ∈ spans va, UserPage s C w

theorem RegionCopied.of_type (hc : ((s0.proc P).mapped_info i).seg_type ≠ .code)
    (hd : ((s0.proc P).mapped_info i).seg_type ≠ .data) : RegionCopied P C s0 i s :=
  ⟨fun e => absurd e hc, fun e => absurd e hd⟩

theorem Copying.next (hc : Copying P C s0 i s) (hI : Forking K N P C s0 i s) (hk : Keeps C f s s')
    (hstk : leafAt s C STACK_VPN = some ⟨DATA_FLAGS, f, .stack⟩)
    (hstack : stackSource (s0.proc P) (i + 1) ∉ s0.free → ∀ x, x / PGSIZE = f →
      s'.mem x = s0.mem (stackSource (s0.proc P) (i + 1) * PGSIZE + x % PGSIZE))
    (hregion : RegionCopied P C s0 i s') : Copying P C s0 (i + 1) s' where
  stack _ hnf a ha x hx := by
    rw [hk.leaf _ _ hstk] at ha
    cases ha
    exact hstack hnf x hx
  code j hj hty va hva := by
    by_cases hji : j = i
    · subst hji
      exact hregion.code hty va hva
    · exact fun k hk' => hk.leaf _ _ (hc.code j (by omega) hty va hva k hk')
  data j hj hty va hva := by
    by_cases hji : j = i
    · subst hji
      exact hregion.data hty va hva
    · obtain ⟨hdata, hspans⟩ := hc.data j (by omega) hty va hva
      refine ⟨hdata.keep hI.frames hstk hk, fun w hw => ?_⟩
      obtain ⟨a, ha, hu⟩ := hspans w hw
      exact ⟨a, hk.leaf _ _ ha, hu⟩

theorem Copying.added (hc : Copying P C s0 i s) (hI : Forking K N P C s0 i s) (hi : 0 < i)
    (hty : ((s0.proc P).mapped_info i).seg_type ≠ .stack)
    (hleaf : ∀ v a, leafAt s C v = some a → leafAt s' C v = some a)
    (hmem : ∀ x, x / PGSIZE ∉ s.free → s'.mem x = s.mem x) (hregion : RegionCopied P C s0 i s') :
    Copying P C s0 (i + 1) s' := by
  obtain ⟨f, -, hstk, -⟩ := hI.lookup_stack
  refine hc.next hI ⟨hleaf, fun x hx _ => hmem x hx⟩ hstk (fun hnf x hx => ?_) hregion
  rw [stackSource, if_neg hty] at hnf ⊢
  rw [hmem x, hc.stack hi hnf _ hstk x hx]
  rw [hx]
  exact hI.frames.notFree C _ _ hstk (by simp)

theorem leafAt_update {pr : Proc} (h : pr.leaf = (s.proc p).leaf) :
    leafAt { s with proc := Function.update s.proc p pr } q v = leafAt s q v := by
  by_cases hq : q = p
  · subst hq
    simp [leafAt, h]
  · simp [leafAt, hq]

theorem Inv.lookup_stack (hI : Inv K s) (hl : s.life P = .live) (hbits : ∀ p v a, leafAt s p v = some a → KindBits a) :
    ∃ a, leafAt s P STACK_VPN = some a ∧ a.kind = .stack ∧ lookupPa (s.proc P) STACK_PAGE = a.ppn ∧ a.ppn ∉ s.free := by
  obtain ⟨a, ha, hk⟩ := (hI.live P hl).stack.mapped
  have hr : a.r = true := by
    have hb := hbits P _ a ha
    unfold KindBits at hb
    rw [hk] at hb
    rw [hb]
    rfl
  exact ⟨a, ha, hk, lookupPa_of_leaf (by simp [STACK_PAGE, USER_STACK_TOP, PGSIZE, MAXVA]) ha hr,
    hI.frames.notFree P _ a ha (by simp [hk])⟩

theorem Inv.data_src (hI : Inv K s) (hl : s.life P = .live) (hty : ((s.proc P).mapped_info i).seg_type = .data)
    (hva : va ∈ ((s.proc P).mapped_info i).pages) (h0 : lookupPa (s.proc P) va ≠ 0) :
    lookupPa (s.proc P) va ∉ s.free := by
  have hP := hI.live P hl
  obtain ⟨a, ha, hk⟩ := hP.regions.data i _ (hP.four_le (.inr hty)) hty (Region.covers_of_mem_pages hva)
  rw [lookupPa_eq h0 ha]
  exact hI.frames.notFree P _ a ha (by simp [hk])

/-- **One region of the parent.** With enough pages for the whole fork, the turn for region `i` gives the child the
pages of that region, and keeps those it has. -/
theorem Copying.step (hc : Copying P C s0 i s) (hI : Forking K N P C s0 i s) (h0 : Inv K s0) (hl : s0.life P = .live)
    (hp : Progress K P C s0 i s) (hroom : forkNeed K s0 P ≤ s0.free.length) (hne : C ≠ P)
    (hi : i < (s0.proc P).total_mapped_region) (h : copyRegion K P C i s = .ok ((), s')) :
    Copying P C s0 (i + 1) s' := by
  have hP := h0.live P hl
  have hinfo : (s.proc P).mapped_info i = (s0.proc P).mapped_info i := by rw [hI.parent.mapped_info]
  have hlookup : ∀ va, lookupPa (s.proc P) va = lookupPa (s0.proc P) va := fun va => (hI.isCode h0.frames va).1
  have hpos : ((s0.proc P).mapped_info i).seg_type ≠ .stack → 0 < i := by
    intro hty
    by_contra h0
    obtain rfl : i = 0 := by omega
    exact hty hP.base_types.1
  have hrun := copyRegion_run h
  rw [hinfo] at hrun
  cases hrun with
  | skip hty hs =>
    subst hs
    have hne : ((s0.proc P).mapped_info i).seg_type ≠ .stack ∧ ((s0.proc P).mapped_info i).seg_type ≠ .code ∧
        ((s0.proc P).mapped_info i).seg_type ≠ .data := by
      rcases hty with e | e
      · simp [e]
      · simp [e]
    exact hc.added hI (hpos hne.1) hne.1 (fun _ _ h => h) (fun _ _ => rfl) (.of_type hne.2.1 hne.2.2)
  | stack hty hsrc hs =>
    obtain ⟨f, -, hstk, hpa⟩ := hI.lookup_stack
    rw [hlookup, hpa] at hs
    subst hs
    refine hc.next hI ⟨fun _ _ h => h, fun x _ hx => if_neg hx⟩ hstk (fun hnf x hx => ?_)
      (.of_type (by simp [hty]) (by simp [hty]))
    rw [stackSource, if_pos hty] at hnf ⊢
    refine (if_pos hx).trans ?_
    apply hI.mem
    rwa [mul_add_mod_div]
  | @heap hty s1 h1 hs =>
    obtain ⟨n, hn⟩ := hP.heap
    obtain ⟨hsh, -⟩ := shareHeap_run h1 hI.frames hne (hI.parent.heapOk hn)
    subst hs
    have hty' : ((s0.proc P).mapped_info i).seg_type ≠ .stack := by simp [hty]
    refine hc.added hI (hpos hty') hty' (fun v a ha => ?_) hsh.mem (.of_type (by simp [hty]) (by simp [hty]))
    rw [leafAt_update (by rfl)]
    exact hsh.old v a ha
  | @code hty s1 h1 hs =>
    have hadds := shareCode_run (K := K) hne h1
    have hlacks := (hp.step hI hP hne hi h).not_lacks hi hroom
    subst hs
    have hty' : ((s0.proc P).mapped_info i).seg_type ≠ .stack := by simp [hty]
    refine hc.added hI (hpos hty') hty' (fun v a ha => ?_) hadds.mem ⟨fun _ va hva => ?_, fun e => ?_⟩
    · rw [leafAt_update (by rfl)]
      exact hadds.old v a ha
    · rcases shareCode_cases K hne h1 va hva with ⟨hnil, w, hw, htab⟩ | hmapped
      · refine absurd ⟨hnil, w, ⟨i, hi, hty, va, hva, hw⟩, ?_⟩ hlacks
        simpa [HasTables, appended] using htab
      · intro j hj
        rw [leafAt_update (by rfl), hmapped j hj, (hI.isCode h0.frames va).1, (hI.isCode h0.frames va).2]
    · rw [hty] at e
      cases e
  | @data hty s1 h1 hs =>
    have hsrc := copyData_src K hne h1
    have hnot : ∀ va ∈ ((s0.proc P).mapped_info i).pages, lookupPa (s0.proc P) va ∉ s0.free :=
      fun va hva => h0.data_src hl hty hva (hlookup va ▸ hsrc va hva)
    obtain ⟨hadds, hcopied⟩ := copyData_run hne h1 hI.frames fun va hva hm => by
      rw [hlookup] at hm
      exact hnot va hva (hI.free.subset hm)
    subst hs
    have hty' : ((s0.proc P).mapped_info i).seg_type ≠ .stack := by simp [hty]
    refine hc.added hI (hpos hty') hty' (fun v a ha => ?_) hadds.mem ⟨fun e => ?_, fun _ va hva => ⟨?_, fun w hw => ?_⟩⟩
    · rw [leafAt_update (by rfl)]
      exact hadds.old v a ha
    · rw [hty] at e
      cases e
    · obtain ⟨-, f, -, hleaf, hbytes⟩ := hcopied va hva
      refine ⟨f, ?_, fun x hx => ?_⟩
      · rw [leafAt_update (by rfl), hleaf]
      · rw [hbytes x hx, hlookup]
        apply hI.mem
        rw [mul_add_mod_div]
        exact hnot va hva
    · obtain ⟨a, ha, hfl⟩ := copyData_spans K h1 va hva w hw
      refine ⟨a, ?_, ?_⟩
      · rw [leafAt_update (by rfl), ha]
      · rw [hfl]
        rfl

theorem Copying.init : Copying P C s 0 s1 where
  stack h0 := absurd h0 (Nat.lt_irrefl 0)
  code j h0 := absurd h0 (Nat.not_lt_zero j)
  data j h0 := absurd h0 (Nat.not_lt_zero j)

/-! ## The result -/

theorem userLoad_eq (hva : va < MAXVA) (ha : leafAt s p (va / PGSIZE) = some a) (hu : a.u = true) (hr : a.r = true) :
    userLoad s p va = some (s.mem (a.ppn * PGSIZE + va % PGSIZE)) := by
  rw [leafAt] at ha
  rw [userLoad, if_neg (by omega), ha]
  simp [hu, hr]

theorem userLoad_some {byte : UInt8} (h : userLoad s p va = some byte) : va < MAXVA ∧ ∃ a,
    leafAt s p (va / PGSIZE) = some a ∧ a.u = true ∧ byte = s.mem (a.ppn * PGSIZE + va % PGSIZE) := by
  unfold userLoad at h
  split at h
  · cases h
  · rename_i hva
    refine ⟨by omega, ?_⟩
    cases ha : leafAt s p (va / PGSIZE) with
    | none =>
      rw [leafAt] at ha
      rw [ha] at h
      cases h
    | some a =>
      grind [leafAt]

def SameBytes (s : St) (c a : Pte) : Prop := ∀ x, x / PGSIZE = c.ppn → s.mem x = s.mem (a.ppn * PGSIZE + x % PGSIZE)

theorem sameBytes_of_eq (h : b.ppn = a.ppn) : SameBytes s b a := by
  intro x hx
  congr 1
  rw [← h, ← hx]
  simp only [PGSIZE]
  omega

theorem mem_spans : v ∈ spans va ↔ ∃ j < (spans va).length, v = va / PGSIZE + j := by
  rw [spans, List.mem_range'_1, List.length_range']
  constructor
  · intro h
    exact ⟨v - va / PGSIZE, by omega, by omega⟩
  · rintro ⟨j, hj, rfl⟩
    omega

theorem spans_length_le : (spans va).length ≤ 2 := by
  rw [spans, List.length_range']
  simp only [PGSIZE]
  omega

theorem spans_length_unaligned (h : va % PGSIZE ≠ 0) : (spans va).length = 2 := by
  rw [spans, List.length_range']
  simp only [PGSIZE] at *
  omega

theorem mem_spans_self : va / PGSIZE ∈ spans va := by
  rw [spans, List.mem_range'_1]
  simp only [PGSIZE]
  omega

theorem Forked.userPage (h : Forked K (ChildPte (s.proc P)) P C s s') (hI : Inv K s) (hl : s.life P = .live)
    (hC : UserPage s' C v) : v = STACK_VPN ∨ InHeap (s.proc P) v ∨ InRegion (s.proc P) v := by
  obtain ⟨a, ha, hu⟩ := hC
  by_cases hk : a.kind = .heap
  · obtain ⟨h3, -⟩ | ⟨-, hs⟩ := h.loop.heap
    · have := (hI.live P hl).regions.total
      omega
    obtain ⟨n, hn, hnC⟩ := hs.heap
    exact .inr (.inl (hn.inHeap.2 ((hnC.mapped v).1 ⟨a, ha, hk⟩)))
  · have hregion : ∀ i va ty fl Q, FromRegion (s.proc P) ty i va → ty = .code ∨ ty = .data → PagePte va fl Q v a →
        InRegion (s.proc P) v := by
      rintro i va ty fl Q hfr hty ⟨-, hv⟩
      refine ⟨i, hfr.lt, by rwa [hfr.type], va, hfr.mem, ?_⟩
      rcases hv with ⟨rfl, -⟩ | ⟨hal, rfl, -⟩
      · exact mem_spans_self
      · exact mem_spans.2 ⟨1, by rw [spans_length_unaligned hal]; decide, rfl⟩
    rcases h.loop.new v a ha hk with (⟨hv, -⟩ | ⟨-, hu'⟩) | ⟨i, va, hfr, hp⟩ | ⟨i, va, hfr, hp⟩
    · exact .inl hv
    · rw [hu] at hu'
      cases hu'
    · exact .inr (.inr (hregion i va _ _ _ hfr (.inl rfl) hp))
    · exact .inr (.inr (hregion i va _ _ _ hfr (.inr rfl) hp))

section

variable (hc : Copying P C s (s.proc P).total_mapped_region s')
  (hf : Forking K N P C s (s.proc P).total_mapped_region s')
  (hI : Inv K s) (hl : s.life P = .live)

include hc hf hI hl

theorem Copying.userPage (hv : v = STACK_VPN ∨ InHeap (s.proc P) v ∨ InRegion (s.proc P) v) : UserPage s' C v := by
  rcases hv with rfl | hv | ⟨i, hi, hty, va, hva, hv⟩
  · obtain ⟨f, -, hstk, -⟩ := hf.lookup_stack
    exact ⟨_, hstk, rfl⟩
  · obtain ⟨n, hn⟩ := (hI.live P hl).heap
    obtain ⟨h3, -⟩ | ⟨-, hs⟩ := hf.heap
    · have := (hI.live P hl).regions.total
      omega
    obtain ⟨b, hb, hk⟩ := (hn.mapped v).2 (hn.inHeap.1 hv)
    exact ⟨_, (hs.pages v b hb hk).1, ((hI.frames.bits P v b hb).1 hk).2.1⟩
  · rcases hty with hty | hty
    · obtain ⟨j, hj, rfl⟩ := mem_spans.1 hv
      exact ⟨_, hc.code i hi hty va hva j hj, rfl⟩
    · exact (hc.data i hi hty va hva).2 v hv

/-- **Every user page of the parent is there in the child**: readable for user code, with the same bytes at every
address below MAXVA. -/
theorem Copying.page (hbits : ∀ p v a, leafAt s p v = some a → KindBits a) (hr : ForkReady K s P)
    (ha : leafAt s P v = some a) (hu : a.u = true) :
    ∃ c, leafAt s' C v = some c ∧ c.u = true ∧ c.r = true ∧ (v * PGSIZE < MAXVA → SameBytes s' c a) := by
  have hP := hI.live P hl
  -- a copy of the bytes that the frame had before the fork
  have hcopy : ∀ c : Pte, a.ppn ∉ s.free →
      (∀ x, x / PGSIZE = c.ppn → s'.mem x = s.mem (a.ppn * PGSIZE + x % PGSIZE)) → SameBytes s' c a := by
    intro c hnf hx x hxc
    rw [hx x hxc]
    symm
    apply hf.mem
    rwa [mul_add_mod_div]
  rcases (hr.pages v).1 ⟨a, ha, hu⟩ with rfl | hv | ⟨i, hi, hty, va, hva, hv⟩
  · obtain ⟨f, -, hstk, -⟩ := hf.lookup_stack
    obtain ⟨b, hb, -, hsp, hnf⟩ := hI.lookup_stack hl hbits
    rw [ha] at hb
    cases hb
    have hpos : 0 < (s.proc P).total_mapped_region := Nat.lt_of_lt_of_le (by decide) hP.regions.total
    refine ⟨_, hstk, rfl, rfl, fun _ => hcopy _ hnf fun x hx => ?_⟩
    rw [hc.stack hpos hr.stack.1 _ hstk x hx, hr.stack.2 (x % PGSIZE) (Nat.mod_lt x (by decide)), hsp]
  · obtain ⟨n, hn⟩ := hP.heap
    obtain ⟨h3, -⟩ | ⟨-, hs⟩ := hf.heap
    · have := hP.regions.total
      omega
    obtain ⟨b, hb, hk⟩ := (hn.mapped v).2 (hn.inHeap.1 hv)
    rw [leafAt, hb] at ha
    cases ha
    obtain ⟨hbr, hbu, -⟩ := (hI.frames.bits P v a hb).1 hk
    exact ⟨_, (hs.pages v a hb hk).1, hbu, hbr, fun _ => sameBytes_of_eq rfl⟩
  · -- the frame that the kernel finds for the address of the page
    have hlookup : v = va / PGSIZE → v * PGSIZE < MAXVA → lookupPa (s.proc P) va = a.ppn := by
      rintro rfl hmax
      refine lookupPa_of_leaf ?_ ha ((hbits P _ a ha).readable hu)
      simp only [PGSIZE, MAXVA] at *
      omega
    rcases hty with hty | hty
    · obtain ⟨j, hj, rfl⟩ := mem_spans.1 hv
      refine ⟨_, hc.code i hi hty va hva j hj, rfl, rfl, fun hmax => sameBytes_of_eq ?_⟩
      have hj2 := hj.trans_le spans_length_le
      obtain rfl | rfl : j = 0 ∨ j = 1 := by omega
      · exact hlookup rfl hmax
      · have hal : va % PGSIZE ≠ 0 := by
          intro hal
          rw [spans_aligned hal] at hj
          exact absurd hj (Nat.lt_irrefl 1)
        exact (hr.code i va ⟨hi, hty, hva⟩ hal a ha hu).symm
    · have hal := hr.data i va ⟨hi, hty, hva⟩
      rw [spans_aligned hal, List.mem_singleton] at hv
      obtain ⟨⟨f, hleaf, hx⟩, -⟩ := hc.data i hi hty va hva
      rw [← hv] at hleaf
      refine ⟨_, hleaf, rfl, rfl, fun hmax => hcopy _ ?_ fun x hxf => ?_⟩
      · obtain ⟨b, hb, hk⟩ := hP.regions.data i _ (hP.four_le (.inr hty)) hty (Region.covers_of_mem_pages hva)
        rw [leafAt, hv, hb] at ha
        cases ha
        exact hI.frames.notFree P _ a hb (by simp [hk])
      · rw [hx x hxf, hlookup hv hmax]

end

theorem Protects.userPage (h : Protects (s.proc P) (s'.proc P)) : UserPage s' P v ↔ UserPage s P v := by
  constructor
  · rintro ⟨a, ha, hu⟩
    rcases h.leaf v with e | ⟨b, hb, -, e⟩
    · exact ⟨a, e.symm.trans ha, hu⟩
    · rw [leafAt, e] at ha
      cases ha
      exact ⟨b, hb, hu⟩
  · rintro ⟨a, ha, hu⟩
    obtain ⟨a', ha', -, -, -, hu', -⟩ := h.some_of_some ha
    exact ⟨a', ha', hu'.trans hu⟩

theorem doFork_copying (h : doFork K P s = .ok (C, s')) (hI : Inv K s) (hl : s.life P = .live)
    (hroom : forkNeed K s P ≤ s.free.length) : Copying P C s (s.proc P).total_mapped_region s' := by
  have hP := hI.live P hl
  have hne := (hI.forked hl h (forkPages_any _)).ne hl
  exact (doFork_loop h (forkPages_any _) hI.frames hP hl hI.blank (fun i s1 => Progress K P C s i s1 ∧
    Copying P C s i s1)
    (fun s1 h1 => ⟨allocSpace_progress h1, .init⟩)
    fun i s1 s2 hi hF hp hx => ⟨hp.1.step hF hP hne hi hx, hp.2.step hF hI hl hp.1 hroom hne hi hx⟩).2.2

theorem hasTables_of_div (h : w / 2 ^ 9 = v / 2 ^ 9) {pr : Proc} (ht : HasTables pr v) : HasTables pr w := by
  have hdir : ∀ u, u / 2 ^ 18 = u / 2 ^ 9 / 2 ^ 9 := fun u => (Nat.div_div_eq_div_mul u (2 ^ 9) (2 ^ 9)).symm
  refine ⟨?_, h ▸ ht.2⟩
  rw [hdir, h, ← hdir]
  exact ht.1

section

variable (hI : Inv K s) (hl : s.life P = .live) (hbits : ∀ p v a, leafAt s p v = some a → KindBits a)
  (hrun : doFork K P s = .ok (C, s'))

include hI hl hbits hrun

theorem ForkReady.sameUserSpace (hr : ForkReady K s P) : SameUserSpace s' P C := by
  have hfk := hI.forked hl hrun (forkPages_child _)
  have hc := doFork_copying hrun hI hl hr.room
  refine ⟨fun v => ?_, fun va byte hb => ?_⟩
  · rw [hfk.loop.parent.userPage, hr.pages]
    exact ⟨fun hC => hfk.userPage hI hl hC, fun hv => hc.userPage hfk.loop hI hl hv⟩
  · obtain ⟨hva, a, ha, hu, rfl⟩ := userLoad_some hb
    -- the entry of the parent before the fork has the same frame
    obtain ⟨a0, ha0, hu0, hpp⟩ : ∃ a0, leafAt s P (va / PGSIZE) = some a0 ∧ a0.u = true ∧ a.ppn = a0.ppn := by
      rcases hfk.loop.parent.leaf (va / PGSIZE) with e | ⟨b, hleaf, -, e⟩
      · exact ⟨a, e.symm.trans ha, hu, rfl⟩
      · rw [leafAt, e] at ha
        cases ha
        exact ⟨b, hleaf, hu, rfl⟩
    obtain ⟨c, hcl, hcu, hcr, hsame⟩ := hc.page hfk.loop hI hl hbits hr ha0 hu0
    have hmax : va / PGSIZE * PGSIZE < MAXVA := (Nat.div_mul_le_self va PGSIZE).trans_lt hva
    rw [userLoad_eq hva hcl hcu hcr, hsame hmax _ (mul_add_mod_div c.ppn va), hpp]
    simp [Nat.add_mod]

omit hbits in
theorem Whole.room (hw : Whole s P) (hsame : SameUserSpace s' P C) : forkNeed K s P ≤ s.free.length := by
  have hfk := hI.forked hl hrun (forkPages_child _)
  rcases doFork_progress hrun (forkPages_child _) hI.frames (hI.live P hl) hl hI.blank with
    hL | ⟨-, -, v, ⟨i, hi, hty, va, hva, hv⟩, htab⟩
  · rw [hL.count_eq, forkNeed]
    omega
  · -- the page that lacks a table is in the same table as the first page of its address, which the parent has
    exfalso
    obtain ⟨a, ha, -⟩ := (hsame.pages _).2 (hfk.loop.parent.userPage.2 (hw.code i va ⟨hi, hty, hva⟩))
    have hfirst := hfk.loop.frames.tables C _ a ha
    obtain ⟨j, hj, rfl⟩ := mem_spans.1 hv
    have hj2 := hj.trans_le spans_length_le
    obtain rfl | rfl : j = 0 ∨ j = 1 := by omega
    · exact htab hfirst
    · by_cases hal : va % PGSIZE = 0
      · rw [spans_aligned hal] at hj
        exact absurd hj (Nat.lt_irrefl 1)
      · exact htab (hasTables_of_div (hw.behindCode i va ⟨hi, hty, hva⟩ hal).1 hfirst)

theorem SameUserSpace.stack (hsame : SameUserSpace s' P C) (hc : Copying P C s (s.proc P).total_mapped_region s')
    (hnf : stackSource (s.proc P) (s.proc P).total_mapped_region ∉ s.free) {x : ℕ} (hx : x < PGSIZE) :
    s.mem (stackSource (s.proc P) (s.proc P).total_mapped_region * PGSIZE + x) =
      s.mem (lookupPa (s.proc P) STACK_PAGE * PGSIZE + x) := by
  have hfk := hI.forked hl hrun (forkPages_child _)
  have hpos : 0 < (s.proc P).total_mapped_region := Nat.lt_of_lt_of_le (by decide) (hI.live P hl).regions.total
  obtain ⟨a, ha, hk, hsp, hsf⟩ := hI.lookup_stack hl hbits
  obtain ⟨f, -, hstk, -⟩ := hfk.loop.lookup_stack
  obtain ⟨a', ha', -, hpp, hr', hu', -⟩ := hfk.loop.parent.some_of_some ha
  have hflags : a.toFlags = DATA_FLAGS := by
    have hb := hbits P _ a ha
    unfold KindBits at hb
    rw [hk] at hb
    exact hb
  -- the addresses of the stack page
  obtain ⟨hpage, hoff, hmax⟩ : (STACK_PAGE + x) / PGSIZE = STACK_VPN ∧ (STACK_PAGE + x) % PGSIZE = x ∧
    STACK_PAGE + x < MAXVA := by
    simp only [STACK_PAGE, STACK_VPN, USER_STACK_TOP, PGSIZE, MAXVA] at *
    omega
  have hparent : userLoad s' P (STACK_PAGE + x) = some (s'.mem (a'.ppn * PGSIZE + x)) := by
    rw [userLoad_eq hmax (hpage ▸ ha') (hu'.trans (congrArg Flags.u hflags)) (hr'.trans (congrArg Flags.r hflags)),
      hoff]
  have hchild : userLoad s' C (STACK_PAGE + x) = some (s'.mem (f * PGSIZE + x)) := by
    rw [userLoad_eq hmax (hpage ▸ hstk) rfl rfl, hoff]
  have hbyte : s'.mem (f * PGSIZE + x) = s'.mem (a'.ppn * PGSIZE + x) :=
    Option.some.inj (hchild.symm.trans (hsame.bytes _ _ hparent))
  have hdiv : ∀ g, (g * PGSIZE + x) / PGSIZE = g ∧ (g * PGSIZE + x) % PGSIZE = x := by
    intro g
    simp only [PGSIZE] at *
    omega
  have hcopied := hc.stack hpos hnf _ hstk (f * PGSIZE + x) (hdiv f).1
  rw [(hdiv f).2] at hcopied
  rw [← hcopied, hbyte, hpp, hsp]
  apply hfk.loop.mem
  rwa [(hdiv a.ppn).1]

theorem Whole.forkReady (hw : Whole s P) (hsame : SameUserSpace s' P C) : ForkReady K s P := by
  have hfk := hI.forked hl hrun (forkPages_child _)
  have hroom := hw.room hI hl hrun hsame
  have hc := doFork_copying hrun hI hl hroom
  refine ⟨fun v => ?_, fun i va hfr hal => (hw.behindCode i va hfr hal).2, fun i va hfr => ?_,
    ⟨hw.source, fun x hx => ?_⟩, hroom⟩
  · rw [← hfk.loop.parent.userPage, ← hsame.pages]
    exact ⟨fun hC => hfk.userPage hI hl hC, fun hv => hc.userPage hfk.loop hI hl hv⟩
  · by_contra hal
    apply hw.behindData i va hfr hal
    rw [← hfk.loop.parent.userPage, ← hsame.pages]
    exact (hc.data i hfr.lt hfr.type va hfr.mem).2 _ (mem_spans.2 ⟨1, by rw [spans_length_unaligned hal]; decide, rfl⟩)
  · exact hsame.stack hI hl hbits hrun hc hw.source hx

end

/-- **Fork duplicates the user address space.** In every reachable state, a fork that returns leaves a child with the
user pages of the parent, in which every byte that the parent can read has the same value, if the parent meets the
condition. A parent that has all its code pages, and nothing else behind an unaligned segment, meets the condition if
its fork does so. -/
theorem fork_duplicates (h : Reach (step K) (fun _ _ => True) (Booted K) s) (hl : s.life P = .live)
    (hrun : doFork K P s = .ok (C, s') ∨ doForkToHart K P s = .ok (C, s')) :
    (ForkReady K s P → SameUserSpace s' P C) ∧ (Whole s P → SameUserSpace s' P C → ForkReady K s P) := by
  have hI := inv_reachable h
  have hbits : ∀ p v a, leafAt s p v = some a → KindBits a := fun p v a ha => kindBits_reachable h ha
  have hrun' : doFork K P s = .ok (C, s') := hrun.elim id id
  exact ⟨fun hr => hr.sameUserSpace hI hl hbits hrun', fun hw hsame => hw.forkReady hI hl hbits hrun' hsame⟩

/-! ## A loaded program, and a grown stack -/

theorem Spawned.forkReady {elf : List Phdr} (h : Spawned K elf p s s')
    (hrec : ∀ ph ∈ elf, ∀ v ∈ List.range' ph.first ph.npages, InRegion (s'.proc p) v) (hal : AlignedRegions (s'.proc p))
    (hstk : stackSource (s'.proc p) (s'.proc p).total_mapped_region = lookupPa (s'.proc p) STACK_PAGE)
    (hnf : lookupPa (s'.proc p) STACK_PAGE ∉ s'.free) (hroom : forkNeed K s' p ≤ s'.free.length) :
    ForkReady K s' p := by
  have hbits : ∀ v a, leafAt s' p v = some a → KindBits a := by
    intro v a ha
    rcases h.leaf v a ha with hb | hb
    · exact hb.kindBits
    · exact hb.kindBits
  have huser : ∀ v k, IsKind k (leafAt s' p v) → k = .stack ∨ k = .code ∨ k = .data → UserPage s' p v := by
    intro v k hk hor
    obtain ⟨a, ha, rfl⟩ := hk
    refine ⟨a, ha, ?_⟩
    have hb := hbits v a ha
    unfold KindBits at hb
    rcases hor with e | e | e <;> rw [e] at hb
    · rw [hb]
      rfl
    · rcases hb with hb | hb <;> rw [hb] <;> rfl
    · rw [hb]
      rfl
  refine ⟨fun v => ⟨fun hu => ?_, fun hv => ?_⟩, fun i va hfr hun => absurd (hfr.aligned hal (.inl rfl)) hun,
    fun i va hfr => hfr.aligned hal (.inr rfl), by rw [hstk]; exact ⟨hnf, fun _ _ => rfl⟩, hroom⟩
  · obtain ⟨a, ha, hu⟩ := hu
    rcases h.leaf v a ha with (⟨hv, -⟩ | ⟨-, hu'⟩) | ⟨⟨ph, hph, hv⟩, -⟩
    · exact .inl hv
    · rw [hu] at hu'
      cases hu'
    · exact .inr (.inr (hrec ph hph v hv))
  · rcases hv with rfl | hv | ⟨i, hi, hty, va, hva, hv⟩
    · exact huser _ _ h.space.stack.mapped (.inl rfl)
    · have := h.space.heap.inHeap.1 hv
      omega
    · have h4 := h.space.space.four_le hty
      rw [spans_aligned (Region.aligned_of_mem hva (hal i hi hty)), List.mem_singleton] at hv
      have hcov : ((s'.proc p).mapped_info i).Covers v := hv ▸ Region.covers_of_mem_pages hva
      rcases hty with hty | hty
      · exact huser v _ (h.space.regions.code i v h4 (Nat.zero_le i) hty hcov) (.inr (.inl rfl))
      · exact huser v _ (h.space.regions.data i v h4 hty hcov) (.inr (.inr rfl))

theorem ForkReady.whole (h : ForkReady K s P) (hal : AlignedRegions (s.proc P)) : Whole s P where
  code i va hfr := (h.pages _).2 (.inr (.inr ⟨i, hfr.lt, .inl hfr.type, va, hfr.mem, mem_spans_self⟩))
  behindCode _ _ hfr hun := absurd (hfr.aligned hal (.inl rfl)) hun
  behindData _ _ hfr hun := absurd (hfr.aligned hal (.inr rfl)) hun
  source := h.stack.1

def dataHdr : Phdr where
  vaddr := 0x11000
  memsz := 16
  filesz := 1
  flags := 6
  data := fun _ => 7
  fits := by decide

/-- a process without segments: six pages, two directories and two tables -/
example : forkNeed board (exec (step board) { zeroed with free := List.range' 0x80100 22 } [.spawn []]) 0 = 10 := by
  decide +kernel

def program : St := exec (step board) bootState [.spawn [codeHdr, dataHdr]]

theorem program_spawned : Spawned board [codeHdr, dataHdr] 0 bootState program :=
  spawned_exec (by decide +kernel) (by decide +kernel)

theorem fork_duplicates_program : ∃ C s', doFork board 0 program = .ok (C, s') ∧ Whole program 0 ∧
    (SameUserSpace s' 0 C ↔ ForkReady board program 0) ∧ SameUserSpace s' 0 C := by
  have hok : (doFork board 0 program).isOk = true := by decide +kernel
  cases hrun : doFork board 0 program with
  | error e =>
    rw [hrun] at hok
    cases hok
  | ok r =>
    have hr : Reach (step board) (fun _ _ => True) (Booted board) program :=
      (Reach.init bootState_booted).exec_step trivial (by decide +kernel)
    have hal : AlignedRegions (program.proc 0) := by decide +kernel
    have hready : ForkReady board program 0 :=
      (program_spawned).forkReady (by decide +kernel) hal (by decide +kernel) (by decide +kernel) (by decide +kernel)
    have hwhole := hready.whole hal
    obtain ⟨henough, hneeded⟩ := fork_duplicates (C := r.1) hr (by decide +kernel) (.inl hrun)
    exact ⟨r.1, r.2, rfl, hwhole, ⟨hneeded hwhole, henough⟩, henough hready⟩

def grownForked : St :=
  exec (step board) bootState [.spawn [], .store 0 0x7fffe000 0x7fffd008 1, .fork 0]

theorem fork_loses_stack_page : Reach (step board) (fun _ _ => True) (Booted board) grownForked ∧
    ¬ SameUserSpace grownForked 0 1 := by
  refine ⟨reach_ops (c := fun _ _ => true) (fun _ _ _ => trivial) _ (by decide +kernel), fun h => ?_⟩
  have hparent : leafAt grownForked 0 0x7fffd = some ⟨DATA_FLAGS, 0x80145, .grown⟩ := by decide +kernel
  obtain ⟨a, ha, -⟩ := (h.pages 0x7fffd).2 ⟨_, hparent, rfl⟩
  have hchild : leafAt grownForked 1 0x7fffd = none := by decide +kernel
  rw [hchild] at ha
  cases ha

end RiscvPke.Memory
