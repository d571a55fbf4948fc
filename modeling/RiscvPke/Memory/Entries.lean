/-
Where the entries of page tables come from.
-/
import RiscvPke.Memory.Invariant

namespace RiscvPke.Memory

open Function Run RiscvPke.System

variable {K : Machine} {s s' s1 : St} {p q P C : Slot} {v w f va i : ℕ} {a b : Pte} {op : Op}

/-! ## Origins -/

/-- what `do_fork` of a process with the record `pr` makes of its regions -/
structure FromRegion (pr : Proc) (ty : Seg) (i va : ℕ) : Prop where
  lt : i < pr.total_mapped_region
  type : (pr.mapped_info i).seg_type = ty
  mem : va ∈ (pr.mapped_info i).pages

inductive Origin (s s' : St) (op : Op) (p : Slot) (v : ℕ) (a : Pte) : Prop
  | old (h : leafAt s p v = some a) (hl : s'.life p = .live → s.life p = .live)
  /-- a heap page of the parent, in its page table or in that of the child -/
  | shared {q : Slot} {b : Pte} (h : leafAt s q v = some b) (hk : b.kind = .heap) (he : a = b.protect)
  | owned {b : Pte} {f : ℕ} (h : leafAt s p v = some b) (hk : b.kind = .heap) (he : a = b.own f)
  | base (h : BasePte v a)
  | load {elf : List Phdr} (h : LoadPte elf v a)
  | heap {f : ℕ} (he : a = ⟨DATA_FLAGS, f, .heap⟩)
  | stack {sp va : ℕ} {byte : UInt8} (hop : op = .store p sp va byte) (hn : leafAt s p (va / PGSIZE) = none)
      (h : StackPte (va / PGSIZE) v a) (hk : s.free ≠ [] → a.kind = .grown)
  | code {P : Slot} {i va : ℕ} (hop : op = .fork P) (hc : freeSlot s = some p) (hr : FromRegion (s.proc P) .code i va)
      (h : PagePte va CODE_FLAGS (IsCode (s.proc P) va) v a)
  | data {P : Slot} {i va : ℕ} (hop : op = .fork P) (hr : FromRegion (s.proc P) .data i va)
      (h : PagePte va DATA_FLAGS (·.kind = .data) v a)

def ChildPte (pr : Proc) (v : ℕ) (a : Pte) : Prop :=
  BasePte v a ∨ (∃ i va, FromRegion pr .code i va ∧ PagePte va CODE_FLAGS (IsCode pr va) v a) ∨
    ∃ i va, FromRegion pr .data i va ∧ PagePte va DATA_FLAGS (·.kind = .data) v a

theorem forkPages_child (pr : Proc) : ForkPages (ChildPte pr) pr where
  base _ _ h := .inl h
  code i va _ _ hi hty hva h := .inr (.inl ⟨i, va, ⟨hi, hty, hva⟩, h⟩)
  data i va _ _ hi hty hva h := .inr (.inr ⟨i, va, ⟨hi, hty, hva⟩, h⟩)

theorem Forked.origin (h : Forked K (ChildPte (s.proc P)) P C s s') (hI : Inv K s) (hl : s.life P = .live)
    (ha : leafAt s' p v = some a) : Origin s s' (.fork P) p v a := by
  have hlife := h.loop.life
  by_cases hC : p = C
  · subst hC
    by_cases hk : a.kind = .heap
    · obtain ⟨h3, -⟩ | ⟨-, hs⟩ := h.loop.heap
      · have := (hI.live P hl).regions.total
        omega
      · obtain ⟨n, hn, hnC⟩ := hs.heap
        obtain ⟨b, hb, hbk⟩ := (hn.mapped v).2 ((hnC.mapped v).1 ⟨a, ha, hk⟩)
        have hab := (hs.pages v b hb hbk).1
        rw [ha] at hab
        exact .shared hb hbk (Option.some.inj hab)
    · rcases h.loop.new v a ha hk with hb | ⟨i, va, hr, hp⟩ | ⟨i, va, hr, hp⟩
      · exact .base hb
      · exact .code rfl h.first hr hp
      · exact .data rfl hr hp
  · have hkeep : s'.life p = .live → s.life p = .live := by
      rw [hlife, update_of_ne hC]
      exact id
    by_cases hP : p = P
    · subst hP
      rcases h.loop.parent.leaf v with e | ⟨b, hb, hbk, e⟩
      · exact .old (e.symm.trans ha) hkeep
      · rw [leafAt, e] at ha
        exact .shared hb hbk (Option.some.inj ha).symm
    · exact .old (((h.loop.others p hP hC).leaf_eq v).symm.trans ha) hkeep

theorem fault_origin {sp : ℕ} {byte : UInt8} (h1 : s1 = s ∨ (∃ a', Breaks K p (va / PGSIZE) a' s s1) ∨
    growStack p va s = .ok ((), s1)) (hl : s'.life = s.life) (ha : leafAt s1 q v = some a) :
    Origin s s' (.store p sp va byte) q v a := by
  have hkeep : s'.life q = .live → s.life q = .live := by
    rw [hl]
    exact id
  rcases h1 with rfl | ⟨a', hb⟩ | hg
  · exact .old ha hkeep
  · by_cases hq : q = p
    · subst hq
      by_cases hv : v = va / PGSIZE
      · subst hv
        obtain ⟨f, hf, -⟩ := hb.page
        rw [hf] at ha
        exact .owned hb.leaf.1 hb.leaf.2 (Option.some.inj ha).symm
      · exact .old ((hb.keep v hv).symm.trans ha) hkeep
    · exact .old (((hb.others q hq).leaf_eq v).symm.trans ha) hkeep
  · obtain ⟨hadds, hnone, hgrown⟩ := growStack_run (K := K) hg
    by_cases hq : q = p
    · subst hq
      rcases hadds.new v a ha with ho | hs
      · exact .old ho hkeep
      · refine .stack rfl hnone hs fun hfree => ?_
        rcases (hgrown hfree).new v a ha with ho | ⟨-, hk⟩
        · -- the page is the one that was not mapped
          rw [hs.1, hnone] at ho
          cases ho
        · exact hk
    · exact .old (((hadds.others q hq).leaf_eq v).symm.trans ha) hkeep

/-- **Origins.** Every entry after a step was there before, or comes from one of the operations that make entries:
sharing and copying of heap pages, `alloc_process`, `elf_load`, heap and stack growth, and the regions that a fork maps.
-/
theorem Effect.origin (he : Effect K s op s') (hI : Inv K s) (ha : leafAt s' q v = some a) : Origin s s' op q v a := by
  cases he with
  | @spawn elf p _ he =>
    by_cases hq : q = p
    · subst hq
      rcases he.leaf v a ha with hb | hb
      · exact .base hb
      · exact .load hb
    · refine .old (((he.others q hq).leaf_eq v).symm.trans ha) ?_
      rw [he.life, update_of_ne hq]
      exact id
  | fork hl hrun => exact (hI.forked hl hrun (forkPages_child _)).origin hI hl ha
  | full hl hnil => exact .old ha id
  | @grow p n f _ hl hn hg =>
    have hkeep : s'.life q = .live → s.life q = .live := by
      rw [hg.builds.life]
      exact id
    by_cases hq : q = p
    · subst hq
      rcases hg.builds.new v a ha with ho | ⟨-, e⟩
      · exact .old ho hkeep
      · exact .heap e
    · exact .old (((hg.builds.others q hq).leaf_eq v).symm.trans ha) hkeep
  | @store p sp va byte s1 _ a' hl h1 hw =>
    have hlife := fault_life h1
    have hs := hw.state
    subst hs
    exact fault_origin h1 hlife ha
  | @exec p elf para _ hl he =>
    have hkeep : s'.life q = .live → s.life q = .live := by
      rw [he.life]
      exact id
    by_cases hq : q = p
    · subst hq
      rcases he.leaf v a ha with ho | hb | hb
      · exact .old ho hkeep
      · exact .base hb
      · exact .load hb
    · exact .old (((he.others q hq).leaf_eq v).symm.trans ha) hkeep
  | @exit p order _ hl hu hgone =>
    have hlife : s'.life = update s.life p .zombie := hu.life
    refine .old (hu.leaf_of ha) ?_
    by_cases hq : q = p
    · subst hq
      intro _
      exact hl
    · rw [hlife, update_of_ne hq]
      exact id
  | @reap p hl =>
    refine .old ha ?_
    by_cases hq : q = p
    · subst hq
      simp
    · simp [hq]

/-! ## Permission bits -/

def KindBits (a : Pte) : Prop :=
  match a.kind with
  | .stack => a.toFlags = DATA_FLAGS
  | .grown => a.toFlags = DATA_FLAGS
  | .data => a.toFlags = DATA_FLAGS
  | .heap => a.r = true ∧ a.u = true ∧ a.x = false
  | .code => a.toFlags = TEXT_FLAGS ∨ a.toFlags = CODE_FLAGS
  | .sys => a.u = false
  | .spill => a.r = true

theorem kindBits_of_data (h : a.toFlags = DATA_FLAGS)
    (hk : a.kind = .stack ∨ a.kind = .grown ∨ a.kind = .data ∨ a.kind = .spill) :
    KindBits a := by
  unfold KindBits
  rcases hk with hk | hk | hk | hk <;> rw [hk]
  · exact h
  · exact h
  · exact h
  · rw [h]
    rfl

theorem KindBits.heap (h : KindBits b) (hk : b.kind = .heap) (hk' : a.kind = .heap)
    (hf : a.r = b.r ∧ a.u = b.u ∧ a.x = b.x) : KindBits a := by
  unfold KindBits at *
  rw [hk] at h
  rw [hk', hf.1, hf.2.1, hf.2.2]
  exact h

theorem BasePte.kindBits (h : BasePte v a) : KindBits a := by
  rcases h with ⟨-, hk, hf⟩ | ⟨hk, hu⟩
  · exact kindBits_of_data hf (.inl hk)
  · unfold KindBits
    rw [hk]
    exact hu

theorem LoadPte.kindBits {elf : List Phdr} (h : LoadPte elf v a) : KindBits a := by
  rcases h.2 with ⟨hk, hf⟩ | ⟨hk, hf⟩
  · unfold KindBits
    rw [hk]
    exact .inl hf
  · exact kindBits_of_data hf (.inr (.inr (.inl hk)))

theorem Origin.kindBits (h : Origin s s' op p v a) (hs : ∀ p v a, leafAt s p v = some a → KindBits a) : KindBits a := by
  cases h with
  | old h hl => exact hs p v a h
  | @shared q b h hk he =>
    subst he
    exact (hs q v b h).heap hk hk ⟨rfl, rfl, rfl⟩
  | @owned b f h hk he =>
    subst he
    exact (hs p v b h).heap hk hk ⟨rfl, rfl, rfl⟩
  | base h => exact h.kindBits
  | load h => exact h.kindBits
  | heap he =>
    subst he
    exact ⟨rfl, rfl, rfl⟩
  | stack hop hn h hk => exact kindBits_of_data h.2.1 (.inr (h.2.2.imp_right .inr))
  | @code P i va hop hc hr h =>
    obtain ⟨hf, ⟨-, hk, -⟩ | ⟨-, -, hk⟩⟩ := h
    · unfold KindBits
      rcases codeKind_cases (s.proc P) va with hc | ⟨hc, -⟩
      · rw [hk, hc, hf]
        rfl
      · rw [hk, hc]
        exact .inr hf
    · unfold KindBits
      rw [hk, hf]
      rfl
  | data hop hr h =>
    obtain ⟨hf, ⟨-, hk⟩ | ⟨-, -, hk⟩⟩ := h
    · exact kindBits_of_data hf (.inr (.inr (.inl hk)))
    · exact kindBits_of_data hf (.inr (.inr (.inr hk)))

theorem KindBits.readable (h : KindBits a) (hu : a.u = true) : a.r = true := by
  have hdata : a.toFlags = DATA_FLAGS → a.r = true := by
    intro e
    rw [e]
    rfl
  unfold KindBits at h
  cases hk : a.kind with
  | stack => rw [hk] at h; exact hdata h
  | grown => rw [hk] at h; exact hdata h
  | data => rw [hk] at h; exact hdata h
  | heap => rw [hk] at h; exact h.1
  | code =>
    rw [hk] at h
    rcases h with e | e <;> rw [e] <;> rfl
  | sys => rw [hk, hu] at h; cases h
  | spill => rw [hk] at h; exact h

/-- **Permission bits.** In a reachable state an entry for stack or data has the flags of data, one for code those of
`elf_load` or `do_fork`, a heap page may be read but not executed, and user code does not reach the pages of the system.
-/
theorem kindBits_reachable {D : St → Op → Prop} (h : Reach (step K) D (Booted K) s) (ha : leafAt s p v = some a) :
    KindBits a := by
  refine effect_reachable (R := fun s => ∀ p v a, leafAt s p v = some a → KindBits a) ?_ ?_ h p v a ha
  · intro s hb p v a ha
    rw [leafAt, hb.leaf p v] at ha
    cases ha
  · intro s op s' hI hs _ he p v a ha
    exact (he.origin hI ha).kindBits hs

end RiscvPke.Memory
