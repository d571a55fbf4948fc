/-
Writable sharing between address spaces.
-/
import RiscvPke.Memory.Entries

namespace RiscvPke.Memory

open Run RiscvPke.System

variable {K : Machine} {s s' : St} {p q P C : Slot} {v w f va i : ℕ} {a b : Pte} {op : Op} {elf : List Phdr}

/-! ## Definitions -/

def Pte.writable (a : Pte) : Bool := a.u && a.w

/-- no frame is mapped with PTE_U and PTE_W by two different live processes -/
def NoWritableSharing (s : St) : Prop :=
  ∀ p q v w a b, p ≠ q → s.life p = .live → s.life q = .live → leafAt s p v = some a → leafAt s q w = some b →
    a.writable = true → b.writable = true → a.ppn ≠ b.ppn

def AlignedRegions (pr : Proc) : Prop :=
  ∀ i < pr.total_mapped_region, ((pr.mapped_info i).seg_type = .code ∨ (pr.mapped_info i).seg_type = .data) →
    0 < (pr.mapped_info i).npages → (pr.mapped_info i).va % PGSIZE = 0

instance (pr : Proc) : Decidable (AlignedRegions pr) := by
  unfold AlignedRegions
  infer_instance

def Executable (pr : Proc) (va : ℕ) : Prop :=
  lookupPa pr va ≠ 0 ∧ ((pr.leaf (va / PGSIZE)).any fun a => a.u && a.x) = true

instance (pr : Proc) (va : ℕ) : Decidable (Executable pr va) := inferInstanceAs (Decidable (_ ∧ _))

/-- no live process may store to the frame -/
def Unwritten (s : St) (f : ℕ) : Prop :=
  ∀ q v a, s.life q = .live → leafAt s q v = some a → a.writable = true → a.ppn ≠ f

/-- CODE and DATA regions are aligned, and the pages of CODE regions are mapped for execution -/
structure Regular (pr : Proc) : Prop where
  aligned : AlignedRegions pr
  code : ∀ i < pr.total_mapped_region, (pr.mapped_info i).seg_type = .code → ∀ va ∈ (pr.mapped_info i).pages,
    Executable pr va

instance (pr : Proc) : Decidable (Regular pr) :=
  decidable_of_iff (AlignedRegions pr ∧ ∀ i < pr.total_mapped_region, (pr.mapped_info i).seg_type = .code →
    ∀ va ∈ (pr.mapped_info i).pages, Executable pr va) ⟨fun h => ⟨h.1, h.2⟩, fun h => ⟨h.1, h.2⟩⟩

def Titled (s : St) : Op → Prop
  | .fork P => Regular (s.proc P)
  | .store p _ va _ => (s.proc p).leaf (va / PGSIZE) ≠ none ∨ s.free ≠ []
  | .spawn _ | .grow _ | .exec _ _ _ | .exit _ _ | .reap _ => True

def Unwritable (s : St) : Op → Prop
  | .fork P => ∀ i < (s.proc P).total_mapped_region, ((s.proc P).mapped_info i).seg_type = .code →
      ∀ va ∈ ((s.proc P).mapped_info i).pages, Unwritten s (lookupPa (s.proc P) va)
  | .spawn _ | .grow _ | .store _ _ _ _ | .exec _ _ _ | .exit _ _ | .reap _ => True

/-! ## Titles -/

/-- every entry has the permission bits of its kind, and is for a page that the process has a title to -/
structure Clean (s : St) : Prop where
  bits : ∀ p v a, leafAt s p v = some a → KindBits a
  noSpill : ∀ p v a, leafAt s p v = some a → a.kind ≠ .spill

theorem KindBits.code_of_exec (h : KindBits a) (hu : a.u = true) (hx : a.x = true) (hk : a.kind ≠ .spill) :
    a.kind = .code := by
  have hdata : a.toFlags ≠ DATA_FLAGS := by
    intro e
    rw [e] at hx
    cases hx
  unfold KindBits at h
  cases hkind : a.kind with
  | stack => rw [hkind] at h; exact absurd h hdata
  | grown => rw [hkind] at h; exact absurd h hdata
  | data => rw [hkind] at h; exact absurd h hdata
  | sys => rw [hkind, hu] at h; cases h
  | heap => rw [hkind, hx] at h; cases h.2.2
  | code => rfl
  | spill => exact absurd hkind hk

theorem Region.aligned_of_mem {r : Region} (h : va ∈ r.pages) (ha : 0 < r.npages → r.va % PGSIZE = 0) :
    va % PGSIZE = 0 := by
  obtain ⟨j, hj, rfl⟩ := List.mem_map.1 h
  grind

theorem FromRegion.aligned {pr : Proc} {ty : Seg} (h : FromRegion pr ty i va) (ha : AlignedRegions pr)
    (hty : ty = .code ∨ ty = .data) : va % PGSIZE = 0 := by
  apply Region.aligned_of_mem h.mem
  apply ha i h.lt
  rw [h.type]
  exact hty

theorem PagePte.of_aligned {fl : Flags} {Q : Pte → Prop} (h : PagePte va fl Q v a) (ha : va % PGSIZE = 0) :
    a.toFlags = fl ∧ v = va / PGSIZE ∧ Q a := by
  obtain ⟨hf, h | h⟩ := h
  · exact ⟨hf, h⟩
  · exact absurd ha h.1

theorem Clean.codeKind (hs : Clean s) (he : Executable (s.proc P) va) : codeKind (s.proc P) va = .code := by
  obtain ⟨h0, hany⟩ := he
  unfold Memory.codeKind
  cases ha : (s.proc P).leaf (va / PGSIZE) with
  | none =>
    rw [ha] at hany
    cases hany
  | some a =>
    rw [ha, Option.any_some, Bool.and_eq_true] at hany
    have hk := (hs.bits P _ a ha).code_of_exec hany.1 hany.2 (hs.noSpill P _ a ha)
    exact if_pos ⟨hk, h0⟩

theorem Origin.noSpill (h : Origin s s' op p v a) (hc : Titled s op) (hs : Clean s) : a.kind ≠ .spill := by
  intro hk
  cases h with
  | old h _ => exact hs.noSpill p v a h hk
  | shared h hb he =>
    rw [he, protect_kind, hb] at hk
    cases hk
  | owned h hb he =>
    rw [he] at hk
    exact absurd (hb.symm.trans hk) (by simp)
  | base h =>
    rcases h with ⟨-, e, -⟩ | ⟨e, -⟩ <;> rw [e] at hk <;> cases hk
  | load h =>
    rcases h.2 with ⟨e, -⟩ | ⟨e, -⟩ <;> rw [e] at hk <;> cases hk
  | heap he =>
    rw [he] at hk
    cases hk
  | stack hop hn h hg =>
    subst hop
    rcases hc with hc | hc
    · exact hc hn
    · rw [hg hc] at hk
      cases hk
  | @code P i va hop hC hr h =>
    subst hop
    obtain ⟨-, -, he, -⟩ := h.of_aligned (hr.aligned hc.aligned (.inl rfl))
    rw [he, hs.codeKind (hc.code i hr.lt hr.type va hr.mem)] at hk
    cases hk
  | @data P i va hop hr h =>
    subst hop
    obtain ⟨-, -, he⟩ := h.of_aligned (hr.aligned hc.aligned (.inr rfl))
    rw [he] at hk
    cases hk

/-- **Titles are kept.** A step that meets the condition, and whose entries all have an origin, leaves no page in the
page tables that its process has no title to. -/
theorem Clean.step (hs : Clean s) (hc : Titled s op) (ho : ∀ p v a, leafAt s' p v = some a → Origin s s' op p v a) :
    Clean s' where
  bits p v a ha := (ho p v a ha).kindBits hs.bits
  noSpill p v a ha := (ho p v a ha).noSpill hc hs

theorem Booted.clean (h : Booted K s) : Clean s := by
  have hno : ∀ p v a, leafAt s p v ≠ some a := by
    intro p v a ha
    rw [leafAt, h.leaf p v] at ha
    cases ha
  exact ⟨fun p v a ha => absurd ha (hno p v a), fun p v a ha => absurd ha (hno p v a)⟩

/-! ## Code pages -/

/-- a code page that user code may store to belongs to one live process -/
structure Private (s : St) : Prop extends Clean s where
  code : ∀ p q v w a b, s.life p = .live → s.life q = .live → leafAt s p v = some a → leafAt s q w = some b →
    a.kind = .code → b.kind = .code → a.w = true → b.w = true → a.ppn = b.ppn → p = q

theorem Booted.private (h : Booted K s) : Private s where
  toClean := h.clean
  code p q v w a b _ _ ha := by
    rw [leafAt, h.leaf p v] at ha
    cases ha

theorem Origin.code_writable (h : Origin s s' op p v a) (ht : Titled s op) (hc : Unwritable s op)
    (hl : s'.life p = .live) (hk : a.kind = .code) (hw : a.w = true) :
    s.life p = .live ∧ leafAt s p v = some a ∨ freeSlot s = some p ∧ Unwritten s a.ppn := by
  cases h with
  | old h hl' => exact .inl ⟨hl' hl, h⟩
  | shared h hb he =>
    rw [he] at hw
    cases hw
  | owned h hb he =>
    rw [he] at hk
    exact absurd (hb.symm.trans hk) (by simp)
  | base h =>
    rcases h with ⟨-, e, -⟩ | ⟨e, -⟩ <;> rw [e] at hk <;> cases hk
  | load h =>
    rcases h.2 with ⟨-, e⟩ | ⟨e, -⟩
    · rw [e] at hw
      cases hw
    · rw [e] at hk
      cases hk
  | heap he =>
    rw [he] at hk
    cases hk
  | stack hop hn h hg =>
    rcases h.2.2 with e | e <;> rw [e] at hk <;> cases hk
  | @code P i va hop hC hr h =>
    subst hop
    obtain ⟨-, -, -, he⟩ := h.of_aligned (hr.aligned ht.aligned (.inl rfl))
    rw [he]
    exact .inr ⟨hC, hc i hr.lt hr.type va hr.mem⟩
  | data hop hr h =>
    obtain ⟨-, ⟨-, e⟩ | ⟨-, -, e⟩⟩ := h <;> rw [e] at hk <;> cases hk

theorem KindBits.writable_of_code (h : KindBits a) (hk : a.kind = .code) (hw : a.w = true) : a.writable = true := by
  unfold KindBits at h
  rw [hk] at h
  have hu : a.u = true := by
    rcases h with e | e <;> rw [e] <;> rfl
  simp [Pte.writable, hu, hw]

/-- **Steps that meet the conditions keep code private**: a code page that user code may store to belongs to one live
process, and no entry is without a title to its page. -/
theorem Private.step (hp : Private s) (ht : Titled s op) (hc : Unwritable s op)
    (ho : ∀ p v a, leafAt s' p v = some a → Origin s s' op p v a) : Private s' where
  toClean := hp.toClean.step ht ho
  code p q v w a b hlp hlq ha hb hka hkb hwa hwb hpp := by
    have hold : ∀ p v a, leafAt s p v = some a → a.kind = .code → a.w = true → a.writable = true :=
      fun p v a ha hk hw => (hp.bits p v a ha).writable_of_code hk hw
    rcases (ho p v a ha).code_writable ht hc hlp hka hwa with ⟨hlp', ha'⟩ | ⟨hC, hnone⟩
    · rcases (ho q w b hb).code_writable ht hc hlq hkb hwb with ⟨hlq', hb'⟩ | ⟨-, hnone⟩
      · exact hp.code p q v w a b hlp' hlq' ha' hb' hka hkb hwa hwb hpp
      · exact absurd hpp (hnone p v a hlp' ha' (hold p v a ha' hka hwa))
    · rcases (ho q w b hb).code_writable ht hc hlq hkb hwb with ⟨hlq', hb'⟩ | ⟨hC', -⟩
      · exact absurd hpp.symm (hnone q w b hlq' hb' (hold q w b hb' hkb hwb))
      · rw [hC] at hC'
        exact Option.some.inj hC'

theorem Private.noWritableSharing (hp : Private s) (hI : Inv K s) : NoWritableSharing s := by
  intro p q v w a b hne hlp hlq ha hb hwa hwb he
  simp only [Pte.writable, Bool.and_eq_true] at hwa hwb
  have hkey : (p, v) ≠ (q, w) := fun e => hne (Prod.mk.inj e).1
  have hsa := hp.noSpill p v a ha
  have hsb := hp.noSpill q w b hb
  obtain ⟨hkk, hk⟩ := hI.frames.excl p v a q w b ha hb hsa hsb he hkey
  rcases hk with hk | hk | ⟨hk, -⟩
  · exact hne (hp.code p q v w a b hlp hlq ha hb hk (hkk.symm.trans hk) hwa.2 hwb.2 he)
  · have hu := hp.bits p v a ha
    unfold KindBits at hu
    rw [hk, hwa.1] at hu
    cases hu
  · -- a writable heap page has one entry
    have hone := hI.frames.sole p v a ha hk hwa.2
    exact hkey (hI.frames.eq_of_last ha (by simp [hk, Kind.counted]) hone.le hb hsb he.symm).symm

/-! ## A program with one code page -/

theorem Spawned.unwritten (h : Spawned K elf p s s') (hother : ∀ q, q ≠ p → s.life q ≠ .live)
    (ha : leafAt s' p v = some a) (hk : a.kind = .code) : Unwritten s' a.ppn := by
  intro q w b hl hb hw he
  have hq : q = p := by
    by_contra hq
    rw [h.life, Function.update_of_ne hq] at hl
    exact hother q hq hl
  subst hq
  have hbk : b.kind = .stack ∨ b.kind = .data := by
    simp only [Pte.writable, Bool.and_eq_true] at hw
    rcases h.leaf w b hb with (⟨-, hk, -⟩ | ⟨-, hu⟩) | ⟨-, ⟨-, hf⟩ | ⟨hk, -⟩⟩
    · exact .inl hk
    · rw [hw.1] at hu
      cases hu
    · rw [hf] at hw
      cases hw.2
    · exact .inr hk
  have hkey : (q, w) ≠ (q, v) := by
    grind
  have hkk := (h.frames.excl q w b q v a hb ha (by rcases hbk with e | e <;> simp [e]) (by simp [hk]) he hkey).1
  rcases hbk with e | e <;> rw [hk, e] at hkk <;> cases hkk

theorem lookupPa_eq {pr : Proc} (h : lookupPa pr va ≠ 0) (ha : pr.leaf (va / PGSIZE) = some a) :
    lookupPa pr va = a.ppn := by
  unfold lookupPa at h ⊢
  split_ifs at h ⊢ <;> simp_all

theorem Spawned.unwritable (h : Spawned K elf p s s') (hother : ∀ q, q ≠ p → s.life q ≠ .live)
    (hreg : Regular (s'.proc p)) :
    Unwritable s' (.fork p) := by
  intro i hi hty va hva
  obtain ⟨h0, hany⟩ := hreg.code i hi hty va hva
  cases ha : (s'.proc p).leaf (va / PGSIZE) with
  | none =>
    rw [ha] at hany
    cases hany
  | some a =>
    rw [ha, Option.any_some, Bool.and_eq_true] at hany
    have hbits : KindBits a ∧ a.kind ≠ .spill := by
      rcases h.leaf _ a ha with hb | hb
      · exact ⟨hb.kindBits, by rcases hb with ⟨-, e, -⟩ | ⟨e, -⟩ <;> simp [e]⟩
      · exact ⟨hb.kindBits, by rcases hb.2 with ⟨e, -⟩ | ⟨e, -⟩ <;> simp [e]⟩
    rw [lookupPa_eq h0 ha]
    exact h.unwritten hother ha (hbits.1.code_of_exec hany.1 hany.2 hbits.2)

def codeHdr : Phdr where
  vaddr := 0x10000
  memsz := 8
  filesz := 0
  flags := 5
  data := fun _ => 0
  fits := by decide

def loaded : St := exec (step board) bootState [.spawn [codeHdr]]

theorem spawned_exec (hok : (step board bootState (.spawn elf)).isOk = true)
    (hlive : (exec (step board) bootState [.spawn elf]).life 0 = .live) :
    Spawned board elf 0 bootState (exec (step board) bootState [.spawn elf]) := by
  cases hst : step board bootState (.spawn elf) with
  | error e =>
    rw [hst] at hok
    cases hok
  | ok s' =>
    have he : exec (step board) bootState [.spawn elf] = s' := by simp only [exec, hst]
    rw [he] at hlive ⊢
    cases step_effect bootState_booted.inv hst with
    | @spawn _ p _ h =>
      have hp : p = 0 := by
        by_contra hp
        rw [h.life, Function.update_of_ne (Ne.symm hp)] at hlive
        cases hlive
      rwa [hp] at h

theorem loaded_unwritable : Unwritable loaded (.fork 0) := by
  have h : Spawned board [codeHdr] 0 bootState loaded := spawned_exec (by decide +kernel) (by decide +kernel)
  refine h.unwritable (fun q _ hq => ?_) (by decide +kernel)
  cases hq

end RiscvPke.Memory
