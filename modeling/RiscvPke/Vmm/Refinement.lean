/-
Page tables refine a partial map. The reference machine has a partial map from virtual page numbers to pairs of a
physical page number and permissions; `map_pages` and `user_vm_unmap` are assignments to a range of it.
-/
import RiscvPke.Vmm.Tables

namespace RiscvPke.Vmm

open Function Bytes Radix Run RiscvPke.System

variable {s s' s1 : St} {a b f g i j k n pa pt r root va v w size level ppn : ℕ} {perm : Perm}
  {node : List ℕ → Option ℕ} {leaf : List ℕ → ℕ} {free : Bool}

/-! ## The reference machine -/

abbrev Ref := ℕ → Option (ℕ × Perm)

/-- the `k` pages from `v` on, to consecutive physical pages -/
def Ref.map (m : Ref) (v k pa : ℕ) (perm : Perm) : Ref := fun w =>
  if v ≤ w ∧ w < v + k then some ((pa + (w - v) * PGSIZE) % 2 ^ 64 / PGSIZE, perm) else m w

def Ref.unmap (m : Ref) (v k : ℕ) : Ref := fun w => if v ≤ w ∧ w < v + k then none else m w

inductive RefOp where
  | map (v k pa : ℕ) (perm : Perm)
  | unmap (v k : ℕ)

def Ref.act (m : Ref) : RefOp → Ref
  | .map v k pa perm => m.map v k pa perm
  | .unmap v k => m.unmap v k

def Ref.lookup (m : Ref) (va : ℕ) : ℕ :=
  match m (va / PGSIZE) with
  | none => 0
  | some (ppn, perm) => if perm &&& PTE_R = 0 ∧ perm &&& PTE_W = 0 then 0 else ppn * PGSIZE

def Ref.translate (m : Ref) (va : ℕ) : ℕ := if m.lookup va = 0 then 0 else m.lookup va + va % PGSIZE

variable {m : Ref}

theorem Ref.map_zero : m.map v 0 pa perm = m := by
  funext w
  exact if_neg (by omega)

theorem Ref.map_succ (hpa : pa < 2 ^ 64) : m.map v (k + 1) pa perm =
      Ref.map (update m v (some (pa / PGSIZE, perm))) (v + 1) k ((pa + PGSIZE) % 2 ^ 64) perm := by
  funext w
  unfold Ref.map
  by_cases hw : w = v
  · grind
  · rw [update_of_ne hw]
    grind

theorem Ref.unmap_succ : m.unmap v (k + 1) = update (m.unmap v k) (v + k) none := by
  grind [Ref.unmap]

/-! ## The relation -/

/-- the word for an entry of the reference map -/
def code : Option (ℕ × Perm) → ℕ
  | none => 0
  | some (ppn, perm) => leafWord (ppn * PGSIZE) perm

theorem leafWord_page : leafWord (pa / PGSIZE * PGSIZE) perm = leafWord pa perm := by
  rw [leafWord_eq, leafWord_eq]
  simp only [PGSIZE]
  omega

def Ref.Fits (m : Ref) : Prop := ∀ v ppn perm, m v = some (ppn, perm) → v * PGSIZE < MAXVA ∧ ppn * PGSIZE < 2 ^ 64

variable {o : Option (ℕ × Perm)}

theorem Ref.Fits.update (h : m.Fits)
    (ho : ∀ ppn perm, o = some (ppn, perm) → v * PGSIZE < MAXVA ∧ ppn * PGSIZE < 2 ^ 64) :
    Ref.Fits (update m v o) := by
  intro w ppn perm hw
  by_cases hv : w = v
  · subst hv
    rw [update_self] at hw
    exact ho ppn perm hw
  · rw [update_of_ne hv] at hw
    exact h w ppn perm hw

theorem code_lt (ho : ∀ ppn perm, o = some (ppn, perm) → ppn * PGSIZE < 2 ^ 64) : code o < 2 ^ 64 := by
  cases o with
  | none =>
    rw [code]
    norm_num
  | some e => exact leafWord_lt (ho e.1 e.2 rfl)

theorem code_invalid : code o &&& PTE_V = 0 ↔ o = none := by
  cases o with
  | none => exact ⟨fun _ => rfl, fun _ => Nat.zero_and _⟩
  | some e => exact ⟨fun h => absurd h leafWord_valid, fun h => nomatch h⟩

def Reads (leaf : List ℕ → ℕ) (m : Ref) : Prop := ∀ a, a < MAXVA → leaf (key a) = code (m (a / PGSIZE))

structure Holds (root : ℕ) (s : St) (m : Ref) : Prop where
  rep : ∃ node leaf, Rep root s node leaf ∧ Reads leaf m
  fits : m.Fits

theorem Reads.update (h : Reads leaf m) (hva : va < MAXVA) :
    Reads (update leaf (key va) (code o)) (update m (va / PGSIZE) o) := by
  intro a ha
  by_cases hk : a / PGSIZE = va / PGSIZE
  · rw [key_page hk, hk, update_self, update_self]
  · rw [update_of_ne (fun hkey => hk (key_injective ha hva hkey)), update_of_ne hk]
    exact h a ha

theorem Rep.write (h : Rep root s node leaf) (hf : node (digits va 2) = some f) (ht : s'.tables = s.tables)
    (hm : s'.pmm.mem = storeN s.pmm.mem (f + 8 * PX 0 va) 8 w) (hw : w < 2 ^ 64) :
    Rep root s' node (update leaf (key va) w) where
  tree := by
    apply h.tree.write hf digits_length (words_store_self hm hw)
    intro q g j hq hj hne
    exact words_store hm (h.page _ _ hf).1.aligned (h.page _ _ hq).1.aligned px_lt hj hne
  root := h.root
  page p g hp := by
    rw [ht]
    exact h.page p g hp

theorem Rep.slot_eq_zero (h : Rep root s node leaf) :
    ((node (digits va 2)).elim 0 fun f => f + 8 * PX 0 va) = 0 ↔ node (digits va 2) = none := by
  cases hn : node (digits va 2) with
  | none => simp
  | some f =>
    have := (h.page _ _ hn).1.nonzero
    simp only [Option.elim, reduceCtorEq, iff_false]
    omega

theorem Holds.walk (h : Holds root s m) (hva : va < MAXVA) : ∃ p, pageWalk root va false s = .ok (p, s) ∧
      (if p = 0 then m (va / PGSIZE) = none else loadWord s p = code (m (va / PGSIZE))) := by
  obtain ⟨node, leaf, hrep, hreads⟩ := h.rep
  refine ⟨_, pageWalk_false hrep hva, ?_⟩
  cases hn : node (digits va 2) with
  | none =>
    rw [Option.elim, if_pos rfl, ← code_invalid, ← hreads va hva, hrep.leaf_none hn]
    rfl
  | some f =>
    have hne : f + 8 * PX 0 va ≠ 0 := by
      have := (hrep.page _ _ hn).1.nonzero
      omega
    rw [Option.elim, if_neg hne, hrep.leaf_word hn, hreads va hva]

/-! ## What the calls do -/

theorem pageWalk_ok {alloc : Bool} (h : pageWalk root va alloc s = .ok (r, s')) :
    va < MAXVA ∧ walkLoop va alloc 2 root s = .ok (r, s') := by
  unfold pageWalk at h
  split at h
  · cases h
  · exact ⟨by omega, h⟩

theorem mapLoop_ok : ∀ n first pa s m k, first % PGSIZE = 0 → pa < 2 ^ 64 → Holds root s m →
      mapLoop root perm n first pa s = .ok (k, s') → k ≤ n ∧ Holds root s' (m.map (first / PGSIZE) k pa perm) := by
  intro n
  induction n with
  | zero =>
    intro first pa s m k _ _ h hx
    cases hx
    rw [Ref.map_zero]
    exact ⟨le_refl 0, h⟩
  | succ n ih =>
    intro first pa s m k hal hpa h hx
    obtain ⟨p, s1, hwalk, h1⟩ := run_bind.1 hx
    obtain ⟨hva, hloop⟩ := pageWalk_ok hwalk
    obtain ⟨node, leaf, hrep, hreads⟩ := h.rep
    obtain ⟨node', hrep', rfl⟩ := walk_true 2 root s node (le_refl 2) hrep hrep.root hloop
    cases hn : node' (digits first 2) with
    | none =>
      -- no page for a table: the loop ends here
      rw [if_pos (hrep'.slot_eq_zero.2 hn)] at h1
      cases h1
      rw [Ref.map_zero]
      exact ⟨Nat.zero_le _, ⟨node', leaf, hrep', hreads⟩, h.fits⟩
    | some f =>
      rw [if_neg (fun hz => by rw [hrep'.slot_eq_zero.1 hz] at hn; cases hn)] at h1
      simp only [hn, Option.elim] at h1
      rw [run_get_bind] at h1
      split at h1
      · cases h1
      · obtain ⟨u, s4, hstore, h3⟩ := run_bind.1 h1
        obtain ⟨k', s5, hrest, h5⟩ := run_bind.1 h3
        cases h5
        have hs4 := run_modify.1 hstore
        have hpage : ∀ ppn p, some (pa / PGSIZE, perm) = some (ppn, p) → ppn * PGSIZE < 2 ^ 64 := by grind
        have hw4 : s4.pmm.mem = storeN s1.pmm.mem (f + 8 * PX 0 first) 8 (code (some (pa / PGSIZE, perm))) := by
          rw [← hs4, code, leafWord_page]
          rfl
        have hrep4 := hrep'.write hn (by rw [← hs4]) hw4 (code_lt hpage)
        have hbelow : first / PGSIZE * PGSIZE < MAXVA := lt_of_le_of_lt (Nat.div_mul_le_self _ _) hva
        have h4 : Holds root s4 (update m (first / PGSIZE) (some (pa / PGSIZE, perm))) :=
          ⟨⟨_, _, hrep4, hreads.update hva⟩, h.fits.update fun ppn p he => ⟨hbelow, hpage ppn p he⟩⟩
        obtain ⟨hk, hfinal⟩ := ih (first + PGSIZE) ((pa + PGSIZE) % 2 ^ 64) s4 _ k' (by simp only [PGSIZE] at *; omega)
          (Nat.mod_lt _ (by norm_num)) h4 hrest
        rw [Ref.map_succ hpa]
        have hnext : (first + PGSIZE) / PGSIZE = first / PGSIZE + 1 := by
          simp only [PGSIZE]
          omega
        rw [hnext] at hfinal
        exact ⟨by omega, hfinal⟩

theorem mapPages_ok (h : Holds root s m) (hpa : pa < 2 ^ 64) (hx : mapPages root va size pa perm s = .ok (k, s')) :
    k ≤ mapTurns va size ∧ Holds root s' (m.map (va / PGSIZE) k pa perm) := by
  have hal : ROUNDDOWN va PGSIZE % PGSIZE = 0 := Nat.mul_mod_left _ _
  have hdiv : ROUNDDOWN va PGSIZE / PGSIZE = va / PGSIZE := Nat.mul_div_cancel _ (by simp [PGSIZE])
  have := mapLoop_ok _ _ pa s m k hal hpa h hx
  rwa [hdiv] at this

theorem unmapPage_ok (h : Holds root s m)
    (hfree : free = true → ∀ ppn perm, m (a / PGSIZE) = some (ppn, perm) → ppn * PGSIZE ∉ s.tables)
    (hx : unmapPage root free a s = .ok ((), s')) :
    Holds root s' (update m (a / PGSIZE) none) ∧ s'.tables = s.tables := by
  obtain ⟨p, s1, hwalk, h1⟩ := run_bind.1 hx
  have hva := (pageWalk_ok hwalk).1
  obtain ⟨node, leaf, hrep, hreads⟩ := h.rep
  rw [pageWalk_false hrep hva] at hwalk
  cases hwalk
  cases hn : node (digits a 2) with
  | none =>
    rw [if_pos (hrep.slot_eq_zero.2 hn)] at h1
    cases h1
  | some f =>
    rw [if_neg (fun hz => by rw [hrep.slot_eq_zero.1 hz] at hn; cases hn)] at h1
    simp only [hn, Option.elim] at h1
    rw [run_get_bind] at h1
    simp only [hrep.leaf_word hn, hreads a hva] at h1
    split at h1
    · cases h1
    · rename_i hvalid
      split at h1
      · cases h1
      · -- the released page is no table, so the tree is still there
        have hkeep : ∃ s4, (Rep root s4 node leaf ∧ s4.tables = s.tables) ∧
          storeWord (f + 8 * PX 0 a) 0 s4 = .ok ((), s') := by
          cases free with
          | false => exact ⟨s, ⟨hrep, rfl⟩, h1⟩
          | true =>
            obtain ⟨u, s4, hrel, h3⟩ := run_bind.1 h1
            obtain ⟨q, hq, rfl⟩ := lift_ok hrel
            refine ⟨{ s with pmm := q }, ⟨hrep.congr rfl ?_, rfl⟩, h3⟩
            intro t ht htp x h5 h6
            cases hm : m (a / PGSIZE) with
            | none => exact absurd (code_invalid.2 hm) hvalid
            | some e =>
              rw [hm, code, pte2pa_leafWord (h.fits _ _ _ hm).2, Nat.mul_div_cancel _ (by simp [PGSIZE])] at hq
              obtain ⟨hal', hframe⟩ := Pmm.freePage_mem hq
              have hne : e.1 * PGSIZE ≠ t := fun he => hfree rfl e.1 e.2 hm (he ▸ ht)
              have hal := htp.aligned
              apply hframe
              simp only [PGSIZE] at *
              omega
        obtain ⟨s4, ⟨hrep4, htab⟩, h3⟩ := hkeep
        have hs' := run_modify.1 h3
        have ht' : s'.tables = s4.tables := by rw [← hs']
        have hm' : s'.pmm.mem = storeN s4.pmm.mem (f + 8 * PX 0 a) 8 (code none) := by
          rw [← hs']
          rfl
        have hrep' := hrep4.write hn ht' hm' (code_lt nofun)
        exact ⟨⟨⟨_, _, hrep', hreads.update hva⟩, h.fits.update nofun⟩, ht'.trans htab⟩

def ReleasesNoTable (s : St) (m : Ref) (va size : ℕ) (free : Bool) : Prop :=
  free = true → ∀ j, j < unmapTurns va size → ∀ ppn perm, m (va / PGSIZE + j) = some (ppn, perm) →
    ppn * PGSIZE ∉ s.tables

theorem userVmUnmap_aligned (hx : userVmUnmap root va size free s = .ok ((), s')) : va % PGSIZE = 0 := by
  unfold userVmUnmap at hx
  grind

theorem userVmUnmap_ok (h : Holds root s m) (hfree : ReleasesNoTable s m va size free)
    (hx : userVmUnmap root va size free s = .ok ((), s')) :
    Holds root s' (m.unmap (va / PGSIZE) (unmapTurns va size)) := by
  have hal := userVmUnmap_aligned hx
  unfold userVmUnmap at hx
  rw [if_neg (fun hne => hne hal)] at hx
  have hloop := run_forRange (fun j t => Holds root t (m.unmap (va / PGSIZE) j) ∧ t.tables = s.tables) ?_ ?_ hx
  · exact hloop.1
  · intro j t t' hj ⟨ht, htab⟩ hpage
    have hdiv : (va + j * PGSIZE) / PGSIZE = va / PGSIZE + j := Nat.add_mul_div_right _ _ (by simp [PGSIZE])
    have hstep := unmapPage_ok ht ?_ hpage
    · rw [hdiv, ← Ref.unmap_succ] at hstep
      exact ⟨hstep.1, hstep.2.trans htab⟩
    · intro hf ppn perm hm
      rw [hdiv, Ref.unmap, if_neg (by omega)] at hm
      rw [htab]
      exact hfree hf j hj ppn perm hm
  · refine ⟨?_, rfl⟩
    have hzero : m.unmap (va / PGSIZE) 0 = m := by
      funext w
      exact if_neg (by omega)
    rwa [hzero]

/-! ## Ranges -/

def Covers (va size v : ℕ) : Prop := ∃ a, va ≤ a ∧ a < va + size ∧ a / PGSIZE = v

theorem covers_iff : Covers va size v ↔ 0 < size ∧ va / PGSIZE ≤ v ∧ v * PGSIZE < va + size := by
  constructor
  · intro ⟨a, h1, h2, h3⟩
    grind
  · intro ⟨h1, h2, h3⟩
    refine ⟨max va (v * PGSIZE), by omega, by omega, ?_⟩
    simp only [PGSIZE] at *
    omega

def MapRange (va size : ℕ) : Prop := va + size ≤ 2 ^ 64 ∧ (size = 0 → va % PGSIZE = 0 ∧ va ≠ 0)

theorem mapTurns_covers (h : MapRange va size) :
    (va / PGSIZE ≤ v ∧ v < va / PGSIZE + mapTurns va size) ↔ Covers va size v := by
  obtain ⟨h1, h2⟩ := h
  have hlast : ((((va + size : ℕ) : ℤ) - 1) % 2 ^ 64).toNat = va + size - 1 := by omega
  rw [covers_iff, mapTurns, hlast]
  by_cases hle : ROUNDDOWN va PGSIZE ≤ ROUNDDOWN (va + size - 1) PGSIZE
  · rw [if_pos hle]
    simp only [ROUNDDOWN, PGSIZE] at *
    omega
  · rw [if_neg hle]
    simp only [ROUNDDOWN, PGSIZE] at *
    omega

theorem unmapTurns_covers (h : va + size < 2 ^ 64) (hal : va % PGSIZE = 0) :
    (va / PGSIZE ≤ v ∧ v < va / PGSIZE + unmapTurns va size) ↔ Covers va size v := by
  rw [covers_iff, unmapTurns, Nat.mod_eq_of_lt h]
  simp only [PGSIZE] at *
  omega

/-! ## Runs -/

inductive Op where
  | map (va size pa : ℕ) (perm : Perm)
  | unmap (va size : ℕ) (free : Bool)

def step (root : ℕ) (s : St) : Op → Except Pmm.Fault St
  | .map va size pa perm => (mapPages root va size pa perm s).map fun r => r.2
  | .unmap va size free => (userVmUnmap root va size free s).map fun r => r.2

def mapped (root : ℕ) (s : St) (va size pa : ℕ) (perm : Perm) : ℕ :=
  match mapPages root va size pa perm s with
  | .ok r => r.1
  | .error _ => 0

/-- the step of the reference machine that goes with a call -/
def label (root : ℕ) (s : St) : Op → RefOp
  | .map va size pa perm => .map (va / PGSIZE) (mapped root s va size pa perm) pa perm
  | .unmap va size _ => .unmap (va / PGSIZE) (unmapTurns va size)

def releases (root : ℕ) (s : St) (va size : ℕ) : List ℕ :=
  (List.range (unmapTurns va size)).filterMap fun j => (entry root s (va + j * PGSIZE)).map PTE2PA

/-- addresses are 64-bit numbers, and no table of the tree is released -/
def Allowed (root : ℕ) (s : St) : Op → Prop
  | .map _ _ pa _ => pa < 2 ^ 64
  | .unmap va size free => free = true → ∀ pa ∈ releases root s va size, pa ∉ s.tables

instance (root : ℕ) (s : St) (op : Op) : Decidable (Allowed root s op) :=
  match op with
  | .map _ _ pa _ => inferInstanceAs (Decidable (pa < 2 ^ 64))
  | .unmap _ _ _ => inferInstanceAs (Decidable (_ → _))

/-- a zeroed page directory -/
structure Fresh (root : ℕ) (s : St) : Prop where
  page : TablePage root
  zero : ∀ x, root ≤ x → x < root + PGSIZE → s.pmm.mem x = 0
  tables : s.tables = [root]

theorem Fresh.holds (h : Fresh root s) : Holds root s fun _ => none where
  rep := by
    refine ⟨_, _, ⟨tree_root (by norm_num) ?_, if_pos rfl, ?_⟩, fun _ _ => rfl⟩
    · intro i hi
      apply loadN_eq_zero
      intro x h1 h2
      apply h.zero
      · omega
      · simp only [PGSIZE]
        omega
    · intro p f hp
      rw [h.tables]
      split at hp
      · cases hp
        exact ⟨h.page, List.mem_singleton_self _⟩
      · cases hp
  fits _ _ _ h := nomatch h

/-- the states and the reference maps of the runs -/
abbrev Runs (root : ℕ) : St → Ref → Prop :=
  Paired (step root) (Allowed root) (Fresh root) Ref.act (label root) fun _ => none

theorem Holds.entry_eq (h : Holds root s m) (hva : va < MAXVA) :
    entry root s va = (m (va / PGSIZE)).map fun e => leafWord (e.1 * PGSIZE) e.2 := by
  obtain ⟨p, hwalk, hp⟩ := h.walk hva
  rw [entry, hwalk]
  split at hp
  · rename_i hz
    simp [hz, hp]
  · rename_i hnz
    simp only [hnz, false_or, hp, code_invalid]
    cases hm : m (va / PGSIZE) with
    | none => rfl
    | some e => rfl

theorem Holds.releasesNoTable (h : Holds root s m) (ha : Allowed root s (.unmap va size free)) (hal : va % PGSIZE = 0) :
    ReleasesNoTable s m va size free := by
  intro hf j hj ppn perm hm
  have hfits := h.fits _ _ _ hm
  have hpage : va + j * PGSIZE = (va / PGSIZE + j) * PGSIZE := by
    simp only [PGSIZE] at *
    omega
  apply ha hf
  rw [releases, List.mem_filterMap]
  refine ⟨j, List.mem_range.2 hj, ?_⟩
  rw [hpage, h.entry_eq hfits.1, Nat.mul_div_cancel _ (by simp [PGSIZE]), hm]
  simp only [Option.map_some, pte2pa_leafWord hfits.2, Nat.mul_div_cancel ppn (show 0 < PGSIZE by simp [PGSIZE])]

theorem holds_step {op : Op} (h : Holds root s m) (ha : Allowed root s op) (hst : step root s op = .ok s') :
    Holds root s' (m.act (label root s op)) := by
  cases op with
  | map va size pa perm =>
    obtain ⟨r, hx, rfl⟩ := map_ok hst
    have := (mapPages_ok h ha hx).2
    simpa only [Ref.act, label, mapped, hx] using this
  | unmap va size free =>
    obtain ⟨r, hx, rfl⟩ := map_ok hst
    exact userVmUnmap_ok h (h.releasesNoTable ha (userVmUnmap_aligned hx)) hx

theorem leafWord_and_read : leafWord pa perm &&& PTE_R = (perm : ℕ) &&& PTE_R := by
  rw [leafWord_and (by norm_num), Nat.and_or_distrib_right]
  exact Nat.or_zero _

theorem leafWord_and_write : leafWord pa perm &&& PTE_W = (perm : ℕ) &&& PTE_W := by
  rw [leafWord_and (by norm_num), Nat.and_or_distrib_right]
  exact Nat.or_zero _

theorem Holds.lookup_eq (h : Holds root s m) (hva : va < MAXVA) : lookupPa root va s = .ok (m.lookup va, s) := by
  obtain ⟨p, hwalk, hp⟩ := h.walk hva
  rw [lookupPa, if_neg (by omega)]
  refine run_bind.2 ⟨p, s, hwalk, run_bind.2 ⟨s, s, run_get.2 ⟨rfl, rfl⟩, ?_⟩⟩
  rw [Ref.lookup]
  by_cases hz : p = 0
  · grind
  · rw [if_neg hz] at hp
    simp only [hz, false_or, hp, code_invalid]
    cases hm : m (va / PGSIZE) with
    | none => exact run_pure.2 ⟨rfl, rfl⟩
    | some e =>
      have hpa : PTE2PA (leafWord (e.1 * PGSIZE) e.2) = e.1 * PGSIZE := by
        rw [pte2pa_leafWord (h.fits _ _ _ hm).2, Nat.mul_div_cancel _ (by simp [PGSIZE])]
      grind [code, leafWord_and_read, leafWord_and_write]

theorem Holds.lookup_page (h : Holds root s m) (va : ℕ) : m.lookup va % PGSIZE = 0 ∧ m.lookup va < 2 ^ 64 := by
  unfold Ref.lookup
  cases hm : m (va / PGSIZE) with
  | none => exact ⟨rfl, by norm_num⟩
  | some e =>
    simp only
    split
    · exact ⟨rfl, by norm_num⟩
    · exact ⟨Nat.mul_mod_left _ _, (h.fits _ _ _ hm).2⟩

theorem Holds.translate_eq (h : Holds root s m) (hva : va < MAXVA) :
    userVaToPa root va s = .ok (m.translate va, s) := by
  refine run_bind.2 ⟨_, s, h.lookup_eq hva, ?_⟩
  rw [Ref.translate]
  by_cases hz : m.lookup va = 0
  · rw [if_pos hz, if_pos hz]
    exact run_pure.2 ⟨rfl, rfl⟩
  · obtain ⟨hal, hlt⟩ := h.lookup_page va
    have hoff : va &&& ((1 <<< 12) - 1) = va % PGSIZE := Nat.and_two_pow_sub_one_eq_mod va 12
    grind

theorem holds_runs (h : Runs root s m) : Holds root s m :=
  h.sim (fun _ hs => hs.holds) fun _ _ _ _ hR hC hst => holds_step hR hC hst

/-! ## The results -/

def Maps (root : ℕ) (s : St) (va pa : ℕ) (perm : Perm) : Prop :=
  ∃ w, entry root s va = some w ∧ PTE2PA w = pa ∧ PTE_FLAGS w = (perm : ℕ) ||| PTE_V

theorem Holds.maps (h : Holds root s m) (hva : va < MAXVA) (hm : m (va / PGSIZE) = some (ppn, perm)) :
    Maps root s va (ppn * PGSIZE) perm := by
  refine ⟨leafWord (ppn * PGSIZE) perm, ?_, ?_, pteFlags_leafWord⟩
  · rw [h.entry_eq hva, hm]
    rfl
  · rw [pte2pa_leafWord (h.fits _ _ _ hm).2, Nat.mul_div_cancel _ (by simp [PGSIZE])]

structure RefinesMap (root : ℕ) (s : St) (m : Ref) : Prop where
  mapped : ∀ va ppn perm, va < MAXVA → m (va / PGSIZE) = some (ppn, perm) → Maps root s va (ppn * PGSIZE) perm
  unmapped : ∀ va, va < MAXVA → m (va / PGSIZE) = none → entry root s va = none
  lookup : ∀ va, va < MAXVA → lookupPa root va s = .ok (m.lookup va, s)
  translate : ∀ va, va < MAXVA → userVaToPa root va s = .ok (m.translate va, s)
  /-- `map_pages` changes only the pages it covers, and when it ends without an error they are mapped -/
  map : ∀ va size pa perm k s', MapRange va size → pa < 2 ^ 64 → mapPages root va size pa perm s = .ok (k, s') →
    (∀ a, a < MAXVA → ¬ Covers va size (a / PGSIZE) → entry root s' a = entry root s a) ∧
    (k = mapTurns va size → ∀ a, a < MAXVA → Covers va size (a / PGSIZE) →
      Maps root s' a ((pa + (a / PGSIZE - va / PGSIZE) * PGSIZE) % 2 ^ 64 / PGSIZE * PGSIZE) perm)
  /-- `user_vm_unmap` unmaps the pages it covers and changes no other -/
  unmap : ∀ va size free s', va + size < 2 ^ 64 → Allowed root s (.unmap va size free) →
    userVmUnmap root va size free s = .ok ((), s') → ∀ a, a < MAXVA →
    (Covers va size (a / PGSIZE) → entry root s' a = none) ∧
    (¬ Covers va size (a / PGSIZE) → entry root s' a = entry root s a)

theorem Holds.map_frame (h : Holds root s m) (hr : MapRange va size) (hpa : pa < 2 ^ 64)
    (hx : mapPages root va size pa perm s = .ok (k, s')) :
    (∀ a, a < MAXVA → ¬ Covers va size (a / PGSIZE) → entry root s' a = entry root s a) ∧
    (k = mapTurns va size → ∀ a, a < MAXVA → Covers va size (a / PGSIZE) →
      Maps root s' a ((pa + (a / PGSIZE - va / PGSIZE) * PGSIZE) % 2 ^ 64 / PGSIZE * PGSIZE) perm) := by
  obtain ⟨hk, h'⟩ := mapPages_ok h hpa hx
  constructor
  · intro a ha hout
    have hnot : ¬ (va / PGSIZE ≤ a / PGSIZE ∧ a / PGSIZE < va / PGSIZE + k) := by
      intro hin
      exact hout ((mapTurns_covers hr).1 ⟨hin.1, by omega⟩)
    rw [h'.entry_eq ha, h.entry_eq ha, Ref.map, if_neg hnot]
  · intro hall a ha hin
    apply h'.maps ha
    rw [hall]
    exact if_pos ((mapTurns_covers hr).2 hin)

theorem Holds.unmap_frame (h : Holds root s m) (hr : va + size < 2 ^ 64) (hok : Allowed root s (.unmap va size free))
    (hx : userVmUnmap root va size free s = .ok ((), s')) (ha : a < MAXVA) :
    (Covers va size (a / PGSIZE) → entry root s' a = none) ∧
    (¬ Covers va size (a / PGSIZE) → entry root s' a = entry root s a) := by
  have hal := userVmUnmap_aligned hx
  have h' := userVmUnmap_ok h (h.releasesNoTable hok hal) hx
  constructor
  · intro hin
    rw [h'.entry_eq ha, Ref.unmap, if_pos ((unmapTurns_covers hr hal).2 hin)]
    rfl
  · intro hout
    rw [h'.entry_eq ha, h.entry_eq ha, Ref.unmap, if_neg (fun hin => hout ((unmapTurns_covers hr hal).1 hin))]

/-- **Page tables refine a partial map.** The three-level tables answer every lookup and translation below MAXVA as the
map from page numbers to frames and permissions does; `map_pages` and `user_vm_unmap` change the pages that they cover
and no other. -/
theorem page_tables_refine_map (h : Runs root s m) : RefinesMap root s m where
  mapped _ _ _ hva hm := (holds_runs h).maps hva hm
  unmapped va hva hm := by
    rw [(holds_runs h).entry_eq hva, hm]
    rfl
  lookup _ hva := (holds_runs h).lookup_eq hva
  translate _ hva := (holds_runs h).translate_eq hva
  map _ _ _ _ _ _ hr hpa hx := (holds_runs h).map_frame hr hpa hx
  unmap _ _ _ _ hr hok hx _ ha := (holds_runs h).unmap_frame hr hok hx ha

/-! ## Runs -/

def board : St where
  pmm :=
    { mem := storeN (storeN (fun _ => 0) 0x80003000 8 0x80002000) 0x80002000 8 0x80001000
      page_ref_count := fun i => if i = 3 then 1 else 0
      free_mem_start_addr := 0x80001000
      free_mem_end_addr := 0x80006000
      g_free_mem_list := 0x80003000 }
  tables := [0x80004000]

theorem board_fresh : Fresh 0x80004000 board where
  page := ⟨rfl, by norm_num [PGSIZE], by norm_num⟩
  zero x h1 h2 := by
    have hx : board.pmm.mem x = storeN (storeN (fun _ => 0) 0x80003000 8 0x80002000) 0x80002000 8 0x80001000 x := rfl
    rw [hx, storeN_of_not (by omega), storeN_of_not (by omega)]
  tables := rfl

def mapTwo : List Op := [.map 0x1000 0x1000 0x80005000 2, .map 0x3000 0x800 0x80001000 8, .unmap 0x1000 0x1000 false]

theorem page_tables_refine_map_mapTwo :
    RefinesMap 0x80004000 (exec (step 0x80004000) board mapTwo)
      (execRef (step 0x80004000) Ref.act (label 0x80004000) board (fun _ => none) mapTwo) :=
  page_tables_refine_map (exec_paired (c := fun s op => decide (Allowed 0x80004000 s op))
    (fun _ _ => of_decide_eq_true) mapTwo board (fun _ => none) (.init board_fresh) (by decide +kernel))

def mapExecutable : List Op := [.map 0x1000 0x1000 0x80005000 8]

def mapNothing : List Op := [.map 0x1800 0 0x80005000 2]

def releaseDirectory : List Op :=
  [.map 0x2000 0x1000 0x80005000 2, .map 0x1000 0x1000 0x80004000 2, .unmap 0x1000 0x1000 true]

def runsTo (ops : List Op) : Bool := meets (step 0x80004000) (fun _ _ => true) board ops

/-- **Not for every run.** A page without read or write permission is mapped, but `lookup_pa` and `user_va_to_pa` do not
find it; an empty range maps the page it lies in; releasing the page directory unmaps another page. -/
theorem map_unmap_not_partial_map :
    (runsTo mapExecutable = true ∧ Maps 0x80004000 (exec (step 0x80004000) board mapExecutable) 0x1000 0x80005000 8 ∧
      (lookupPa 0x80004000 0x1000 (exec (step 0x80004000) board mapExecutable)).toOption.map (fun r => r.1) = some 0 ∧
      (userVaToPa 0x80004000 0x1000 (exec (step 0x80004000) board mapExecutable)).toOption.map
        (fun r => r.1) = some 0) ∧
    (runsTo mapNothing = true ∧ entry 0x80004000 board 0x1000 = none ∧ ¬ Covers 0x1800 0 (0x1000 / PGSIZE) ∧
      Maps 0x80004000 (exec (step 0x80004000) board mapNothing) 0x1000 0x80005000 2) ∧
    (runsTo releaseDirectory = true ∧
      Maps 0x80004000 (exec (step 0x80004000) board (releaseDirectory.take 2)) 0x2000 0x80005000 2 ∧
      ¬ Covers 0x1000 0x1000 (0x2000 / PGSIZE) ∧
      entry 0x80004000 (exec (step 0x80004000) board releaseDirectory) 0x2000 = none) := by
  have hmaps : ∀ (s : St) (va pa : ℕ) (perm : Perm), entry 0x80004000 s va = some (leafWord pa perm) → pa < 2 ^ 64 →
      Maps 0x80004000 s va (pa / PGSIZE * PGSIZE) perm :=
    fun s va pa perm he hpa => ⟨_, he, pte2pa_leafWord hpa, pteFlags_leafWord⟩
  refine ⟨⟨?_, hmaps _ _ 0x80005000 8 ?_ (by norm_num), ?_, ?_⟩, ⟨?_, ?_, ?_, hmaps _ _ 0x80005000 2 ?_ (by norm_num)⟩,
    ?_, hmaps _ _ 0x80005000 2 ?_ (by norm_num), ?_, ?_⟩
  · decide +kernel
  · decide +kernel
  · decide +kernel
  · decide +kernel
  · decide +kernel
  · decide +kernel
  · rw [covers_iff]
    decide
  · decide +kernel
  · decide +kernel
  · decide +kernel
  · rw [covers_iff]
    decide
  · decide +kernel

end RiscvPke.Vmm
