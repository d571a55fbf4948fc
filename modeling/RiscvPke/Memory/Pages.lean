/-
What each function of the page allocator and of the page table code does to the state, one lemma per function. The
proofs about processes above use these lemmas and never unfold the functions.
-/
import RiscvPke.Memory.Model

namespace RiscvPke.Memory

open Function Run

variable {K : Machine} {s s' s1 s2 : St} {p q : Slot} {v w f g : ℕ} {l m : List ℕ} {o : Option Pte}

/-! ## Leaf entries -/

def leafAt (s : St) (p : Slot) (v : ℕ) : Option Pte := (s.proc p).leaf v

def St.withLeaf (s : St) (p : Slot) (v : ℕ) (o : Option Pte) : St :=
  { s with proc := update s.proc p { s.proc p with leaf := update (s.proc p).leaf v o } }

def St.unref (s : St) (f : ℕ) : St :=
  if 1 < s.page_ref_count f then
    { s with page_ref_count := update s.page_ref_count f (s.page_ref_count f - 1) }
  else
    { s with
      page_ref_count := update s.page_ref_count f 0
      mem := storeWord s.mem (f * PGSIZE) (s.free.headD 0 * PGSIZE)
      free := f :: s.free }

@[simp] theorem withLeaf_free : (s.withLeaf p v o).free = s.free := rfl
@[simp] theorem withLeaf_ref : (s.withLeaf p v o).page_ref_count = s.page_ref_count := rfl
@[simp] theorem withLeaf_mem : (s.withLeaf p v o).mem = s.mem := rfl
@[simp] theorem withLeaf_kept : (s.withLeaf p v o).kept = s.kept := rfl

@[simp] theorem withLeaf_proc_self :
    (s.withLeaf p v o).proc p = { s.proc p with leaf := update (s.proc p).leaf v o } := by
  simp [St.withLeaf]

theorem withLeaf_proc_of_ne (h : q ≠ p) : (s.withLeaf p v o).proc q = s.proc q := by
  simp [St.withLeaf, h]

@[simp] theorem leafAt_withLeaf_self : leafAt (s.withLeaf p v o) p v = o := by
  simp [leafAt]

theorem leafAt_withLeaf_of_ne (h : (q, w) ≠ (p, v)) : leafAt (s.withLeaf p v o) q w = leafAt s q w := by
  by_cases hq : q = p
  · subst hq
    have hw : w ≠ v := fun e => h (by rw [e])
    simp [leafAt, hw]
  · rw [leafAt, withLeaf_proc_of_ne hq, leafAt]

@[simp] theorem unref_proc : (s.unref f).proc = s.proc := by
  unfold St.unref
  split <;> rfl

@[simp] theorem unref_life : (s.unref f).life = s.life := by
  unfold St.unref
  split <;> rfl

@[simp] theorem unref_kept : (s.unref f).kept = s.kept := by
  unfold St.unref
  split <;> rfl

@[simp] theorem leafAt_unref : leafAt (s.unref f) p v = leafAt s p v := by
  rw [leafAt, unref_proc, leafAt]

theorem storeWord_other {mem : ℕ → UInt8} {a n b : ℕ} (ha : a % PGSIZE ≤ PGSIZE - 8) (hb : b / PGSIZE ≠ a / PGSIZE) :
    storeWord mem a n b = mem b := by
  unfold storeWord
  rw [if_neg]
  simp only [PGSIZE] at *
  omega

theorem unref_mem {b : ℕ} (hb : b / PGSIZE ≠ f) : (s.unref f).mem b = s.mem b := by
  unfold St.unref
  split
  · rfl
  · exact storeWord_other (by simp [PGSIZE]) (by simpa [PGSIZE] using hb)

/-! ## Taking pages -/

/-- the page table has the tables on the way to the entry of the page -/
def HasTables (pr : Proc) (v : ℕ) : Prop := pr.dirs (v / 2 ^ 18) = true ∧ pr.tabs (v / 2 ^ 9) = true

def SameSpace (a b : Proc) : Prop :=
  ∃ d t, (∀ i, a.dirs i = true → d i = true) ∧ (∀ i, a.tabs i = true → t i = true) ∧ b = { a with dirs := d, tabs := t }

theorem SameSpace.refl (a : Proc) : SameSpace a a := ⟨a.dirs, a.tabs, fun _ h => h, fun _ h => h, rfl⟩

theorem SameSpace.trans {a b c : Proc} (h1 : SameSpace a b) (h2 : SameSpace b c) : SameSpace a c := by
  obtain ⟨d1, t1, hd1, ht1, rfl⟩ := h1
  obtain ⟨d2, t2, hd2, ht2, rfl⟩ := h2
  exact ⟨d2, t2, fun i h => hd2 i (hd1 i h), fun i h => ht2 i (ht1 i h), rfl⟩

theorem SameSpace.hasTables {a b : Proc} (h : SameSpace a b) (ht : HasTables a v) : HasTables b v := by
  obtain ⟨d, t, hd, ht', rfl⟩ := h
  exact ⟨hd _ ht.1, ht' _ ht.2⟩

theorem hasTables_update {procs : Slot → Proc} {pr : Proc} (hd : pr.dirs = (procs p).dirs)
    (ht : pr.tabs = (procs p).tabs) (h : HasTables (procs q) v) : HasTables (update procs p pr q) v := by
  by_cases hq : q = p
  · subst hq
    rw [update_self]
    exact ⟨hd ▸ h.1, ht ▸ h.2⟩
  · rwa [update_of_ne hq]

/-- the pages `l` have been taken from the free list; nothing else has changed but the bytes of these pages and the
upper levels of page tables -/
structure Draws (l : List ℕ) (s s' : St) : Prop where
  free : s.free = l ++ s'.free
  life : s'.life = s.life
  proc : ∀ p, SameSpace (s.proc p) (s'.proc p)
  one : ∀ f ∈ l, s'.page_ref_count f = 1
  ref : ∀ f, f ∉ l → s'.page_ref_count f = s.page_ref_count f
  mem : ∀ b, b / PGSIZE ∉ l → s'.mem b = s.mem b
  kept : ∀ f, f ∉ l → s'.kept f = s.kept f

theorem Draws.refl (s : St) : Draws [] s s where
  free := rfl
  life := rfl
  proc _ := .refl _
  one _ h := absurd h List.not_mem_nil
  ref _ _ := rfl
  mem _ _ := rfl
  kept _ _ := rfl

theorem Draws.trans (h1 : Draws l s s1) (h2 : Draws m s1 s2) : Draws (l ++ m) s s2 where
  free := by rw [h1.free, h2.free, List.append_assoc]
  life := h2.life.trans h1.life
  proc p := (h1.proc p).trans (h2.proc p)
  one f hf := by
    by_cases hm : f ∈ m
    · exact h2.one f hm
    · rw [h2.ref f hm]
      exact h1.one f ((List.mem_append.1 hf).resolve_right hm)
  ref f hf := by
    rw [List.mem_append, not_or] at hf
    rw [h2.ref f hf.2, h1.ref f hf.1]
  mem b hb := by
    rw [List.mem_append, not_or] at hb
    rw [h2.mem b hb.2, h1.mem b hb.1]
  kept f hf := by
    rw [List.mem_append, not_or] at hf
    rw [h2.kept f hf.2, h1.kept f hf.1]

theorem Draws.write (h : Draws l s s1) {mem : ℕ → UInt8} (hm : ∀ b, b / PGSIZE ∉ l → mem b = s1.mem b) :
    Draws l s { s1 with mem := mem } where
  __ := h
  mem b hb := (hm b hb).trans (h.mem b hb)

theorem Draws.keep {k : Keep} (h : Draws l s s1) (hf : f ∈ l) (hk : keep f k s1 = .ok ((), s')) : Draws l s s' := by
  cases hk
  refine { h with kept := fun g hg => (update_of_ne ?_ _ _).trans (h.kept g hg) }
  rintro rfl
  exact hg hf

theorem Draws.tables (h : Draws l s s1) {pr : Proc} (hp : SameSpace (s1.proc p) pr) :
    Draws l s { s1 with proc := update s1.proc p pr } where
  __ := h
  proc q := by
    by_cases hq : q = p
    · subst hq
      simpa using (h.proc q).trans hp
    · simpa [hq] using h.proc q

theorem Draws.leaf_eq (h : Draws l s s') (p : Slot) (v : ℕ) : leafAt s' p v = leafAt s p v := by
  obtain ⟨d, t, -, -, he⟩ := h.proc p
  simp only [leafAt, he]

theorem Draws.mem_free (h : Draws l s s') (hf : f ∈ l) : f ∈ s.free := by
  rw [h.free]
  exact List.mem_append_left _ hf

theorem Draws.free_subset (h : Draws l s s') (hf : f ∈ s'.free) : f ∈ s.free := by
  rw [h.free]
  exact List.mem_append_right _ hf

theorem Draws.mem_of_notMem (h : Draws l s s') {b : ℕ} (hb : b / PGSIZE ∉ s.free) : s'.mem b = s.mem b :=
  h.mem b fun hl => hb (h.mem_free hl)

theorem allocPage_run {r : Option ℕ} (h : allocPage s = .ok (r, s')) :
    (r = none ∧ s' = s ∧ s.free = []) ∨ ∃ f, r = some f ∧ s.free.head? = some f ∧ Draws [f] s s' ∧ s'.mem = s.mem := by
  replace h := of_get_bind h
  cases hf : s.free with
  | nil =>
    rw [hf] at h
    cases h
    exact .inl ⟨rfl, rfl, rfl⟩
  | cons f rest =>
    rw [hf] at h
    obtain ⟨_, _, hs, h⟩ := run_bind.1 h
    cases hs
    cases h
    refine .inr ⟨f, rfl, rfl, ⟨?_, rfl, fun _ => .refl _, ?_, ?_, fun _ _ => rfl, fun _ _ => rfl⟩, rfl⟩
    · simpa using hf
    · simp
    · intro g hg
      simp only [List.mem_singleton] at hg
      simp [hg]

theorem allocPage_kept {r : Option ℕ} (h : allocPage s = .ok (r, s')) : s'.kept = s.kept := by
  replace h := of_get_bind h
  cases hf : s.free with
  | nil =>
    rw [hf] at h
    cases h
    rfl
  | cons f rest =>
    rw [hf] at h
    obtain ⟨_, _, hs, h⟩ := run_bind.1 h
    cases hs
    cases h
    rfl

theorem allocPageUsed_kept (h : allocPageUsed s = .ok (f, s')) : s'.kept = s.kept := by
  obtain ⟨r, s1, h1, h2⟩ := run_bind.1 h
  cases r with
  | none => cases h2
  | some g =>
    cases h2
    exact allocPage_kept h1

theorem allocPageUsed_run (h : allocPageUsed s = .ok (f, s')) : Draws [f] s s' ∧ s'.mem = s.mem := by
  obtain ⟨r, s1, h1, h2⟩ := run_bind.1 h
  rcases allocPage_run h1 with ⟨rfl, -, -⟩ | ⟨g, rfl, -, hd, hm⟩
  · cases h2
  · cases h2
    exact ⟨hd, hm⟩

theorem zeroPage_kept (h : zeroPage f s = .ok ((), s')) : s'.kept = s.kept := by
  cases h
  rfl

theorem copyPage_kept (h : copyPage f g s = .ok ((), s')) : s'.kept = s.kept := by
  cases h
  rfl

theorem Draws.zeroPage (h : Draws l s s1) (hf : f ∈ l) (hz : zeroPage f s1 = .ok ((), s')) : Draws l s s' := by
  cases hz
  apply h.write
  intro b hb
  have hne : b / PGSIZE ≠ f := fun e => hb (e ▸ hf)
  exact if_neg hne

theorem Draws.copyPage (h : Draws l s s1) (hf : f ∈ l) (hz : copyPage f g s1 = .ok ((), s')) : Draws l s s' := by
  cases hz
  apply h.write
  intro b hb
  have hne : b / PGSIZE ≠ f := fun e => hb (e ▸ hf)
  exact if_neg hne

/-! ## Page tables -/

variable {r : Bool}

theorem walkLevel_run {has : Proc → Bool} {add : Proc → Proc} {k : Keep} {alloc : Bool}
    (hadd : ∀ pr, SameSpace pr (add pr)) (hhas : ∀ pr, has (add pr) = true)
    (h : walkLevel p has add k alloc s = .ok (r, s')) :
    ∃ l, Draws l s s' ∧ (alloc = false → s' = s) ∧ (alloc = true → r = false → s'.free = []) ∧
      (r = true → has (s'.proc p) = true) ∧ (has (s.proc p) = true → r = true) := by
  replace h := of_get_bind h
  split at h
  · rename_i hs
    cases h
    exact ⟨[], .refl _, fun _ => rfl, fun _ e => absurd e (by simp), fun _ => hs, fun _ => rfl⟩
  rename_i hs
  split at h
  · rename_i ha
    obtain ⟨r1, s1, h1, h2⟩ := run_bind.1 h
    rcases allocPage_run h1 with ⟨rfl, rfl, hnil⟩ | ⟨f, rfl, -, hd, -⟩
    · cases h2
      exact ⟨[], .refl _, fun _ => rfl, fun _ _ => hnil, fun e => absurd e (by simp), fun e => absurd e hs⟩
    · obtain ⟨_, s2, hz, h3⟩ := run_bind.1 h2
      obtain ⟨_, s3, hk, h4⟩ := run_bind.1 h3
      obtain ⟨_, s4, hm, h5⟩ := run_bind.1 h4
      cases h5
      cases hm
      exact ⟨[f], ((hd.zeroPage (by simp) hz).keep (by simp) hk).tables (hadd _), fun e => absurd ha (by simp [e]),
        fun _ e => absurd e (by simp), fun _ => by simpa using hhas _, fun _ => rfl⟩
  · rename_i ha
    cases h
    exact ⟨[], .refl _, fun _ => rfl, fun e => absurd e ha, fun e => absurd e (by simp), fun e => absurd e hs⟩

theorem sameSpace_dirs (pr : Proc) (i : ℕ) : SameSpace pr { pr with dirs := update pr.dirs i true } := by
  refine ⟨_, pr.tabs, fun j hj => ?_, fun _ h => h, rfl⟩
  by_cases hji : j = i
  · simp [hji]
  · simpa [hji] using hj

theorem sameSpace_tabs (pr : Proc) (i : ℕ) : SameSpace pr { pr with tabs := update pr.tabs i true } := by
  refine ⟨pr.dirs, _, fun _ h => h, fun j hj => ?_, rfl⟩
  by_cases hji : j = i
  · simp [hji]
  · simpa [hji] using hj

variable {va : ℕ}

theorem pageWalk_run {alloc : Bool} (h : pageWalk p va alloc s = .ok (r, s')) :
    va < MAXVA ∧ ∃ l, Draws l s s' ∧ (alloc = false → s' = s) ∧ (alloc = true → r = false → s'.free = []) ∧
      (r = true → HasTables (s'.proc p) (va / PGSIZE)) ∧ (HasTables (s.proc p) (va / PGSIZE) → r = true) := by
  unfold pageWalk at h
  split at h
  · cases h
  rename_i hva
  refine ⟨by omega, ?_⟩
  obtain ⟨r1, s1, h1, h⟩ := run_bind.1 h
  obtain ⟨l, hd, hs, hf, hr, hr'⟩ := walkLevel_run (fun pr => sameSpace_dirs pr _) (fun pr => by simp) h1
  cases r1 with
  | false =>
    cases h
    exact ⟨l, hd, hs, hf, fun e => absurd e (by simp), fun ht => hr' ht.1⟩
  | true =>
    rw [if_pos rfl] at h
    obtain ⟨m, hd', hs', hf', hr2, hr2'⟩ := walkLevel_run (fun pr => sameSpace_tabs pr _) (fun pr => by simp) h
    refine ⟨l ++ m, hd.trans hd', fun e => (hs' e).trans (hs e), hf', fun e => ⟨?_, hr2 e⟩, fun ht => hr2' ?_⟩
    · obtain ⟨d, t, hdm, -, he⟩ := hd'.proc p
      rw [he]
      exact hdm _ (hr rfl)
    · obtain ⟨d, t, -, htm, he⟩ := hd.proc p
      rw [he]
      exact htm _ ht.2

theorem pageWalk_false_run (h : pageWalk p va false s = .ok (r, s')) :
    s' = s ∧ va < MAXVA ∧ (HasTables (s.proc p) (va / PGSIZE) → r = true) := by
  obtain ⟨hva, _, -, hs, -, -, hr⟩ := pageWalk_run h
  exact ⟨hs rfl, hva, hr⟩

/-- one page has been mapped, at a place where there was none -/
def Mapped (s : St) (p : Slot) (v : ℕ) (pte : Pte) (s' : St) : Prop :=
  v * PGSIZE < MAXVA ∧ leafAt s p v = none ∧
    ∃ l s1, Draws l s s1 ∧ HasTables (s1.proc p) v ∧ s' = s1.withLeaf p v (some pte)

variable {fl : Flags} {k : Kind}

theorem mapLoop_succ_run {n : ℕ} (h : mapLoop p fl (n + 1) v f k s = .ok (r, s')) :
    (r = false ∧ s'.free = [] ∧ ∃ l, Draws l s s') ∨
      ∃ s1, Mapped s p v ⟨fl, f, k⟩ s1 ∧ mapLoop p fl n (v + 1) (f + 1) .spill s1 = .ok (r, s') := by
  obtain ⟨r1, s1, h1, h⟩ := run_bind.1 h
  obtain ⟨hva, l, hd, -, hf, ht, -⟩ := pageWalk_run h1
  rw [Nat.mul_div_cancel v (by simp [PGSIZE])] at ht
  cases r1 with
  | false => grind
  | true =>
    replace h := of_get_bind h
    split at h
    · cases h
    · rename_i hn
      have hnone : leafAt s1 p v = none := by simpa [leafAt] using hn
      exact .inr ⟨_, ⟨hva, by rw [← hd.leaf_eq, hnone], l, s1, hd, ht rfl, rfl⟩, h⟩

theorem mapLoop_one_run (h : mapLoop p fl 1 v f k s = .ok (r, s')) :
    (r = false ∧ s'.free = [] ∧ ∃ l, Draws l s s') ∨ (r = true ∧ Mapped s p v ⟨fl, f, k⟩ s') := by
  rcases mapLoop_succ_run h with h | ⟨s1, hm, h⟩
  · exact .inl h
  · cases h
    exact .inr ⟨rfl, hm⟩

theorem mapPages_aligned (ha : va % PGSIZE = 0) : mapPages p va PGSIZE f fl k = mapLoop p fl 1 (va / PGSIZE) f k := by
  unfold mapPages
  congr 1
  simp only [PGSIZE] at *
  omega

theorem mapPages_unaligned (ha : va % PGSIZE ≠ 0) : mapPages p va PGSIZE f fl k = mapLoop p fl 2 (va / PGSIZE) f k := by
  unfold mapPages
  congr 1
  simp only [PGSIZE] at *
  omega

theorem userVmMap_run {size : ℕ} (h : userVmMap p va size f fl k s = .ok ((), s')) :
    mapPages p va size f fl k s = .ok (true, s') := by
  obtain ⟨r, s1, h1, h⟩ := run_bind.1 h
  cases r with
  | false => cases h
  | true =>
    cases h
    exact h1

theorem userVmMap_page_run (ha : va % PGSIZE = 0)
    (h : userVmMap p va PGSIZE f fl k s = .ok ((), s')) : Mapped s p (va / PGSIZE) ⟨fl, f, k⟩ s' := by
  have h1 := userVmMap_run h
  rw [mapPages_aligned ha] at h1
  rcases mapLoop_one_run h1 with ⟨h, -⟩ | ⟨-, h⟩
  · exact absurd h (by simp)
  · exact h

theorem freePage_run (h : freePage K f s = .ok ((), s')) : K.start ≤ f ∧ f < K.stop ∧ s' = s.unref f := by
  unfold freePage at h
  split at h
  · cases h
  · rename_i hr
    cases h
    exact ⟨by omega, by omega, rfl⟩

theorem unmapPage_run {free : Bool} (h : unmapPage K p free v s = .ok ((), s')) :
    ∃ pte, leafAt s p v = some pte ∧ (free = true → K.start ≤ pte.ppn ∧ pte.ppn < K.stop) ∧
      s' = (if free then s.unref pte.ppn else s).withLeaf p v none := by
  obtain ⟨r, s1, h1, h⟩ := run_bind.1 h
  obtain ⟨rfl, -, -⟩ := pageWalk_false_run h1
  cases r with
  | false => cases h
  | true =>
    replace h := of_get_bind h
    cases hl : (s1.proc p).leaf v with
    | none => rw [hl] at h; cases h
    | some pte =>
      rw [hl] at h
      refine ⟨pte, hl, ?_⟩
      simp only at h
      split at h
      · cases h
      cases free with
      | false => exact ⟨by simp, (run_modify.1 h).symm⟩
      | true =>
        obtain ⟨_, s2, h2, h⟩ := run_bind.1 h
        obtain ⟨ha, hb, rfl⟩ := freePage_run h2
        exact ⟨fun _ => ⟨ha, hb⟩, (run_modify.1 h).symm⟩

end RiscvPke.Memory
