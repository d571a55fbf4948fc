/-
The page need of a fork: how many pages `do_fork` and `do_fork_to_hart` take from the free list.
-/
import RiscvPke.Memory.Fork

namespace RiscvPke.Memory

open Function Run

variable {K : Machine} {s s' s0 s1 : St} {p q P C : Slot} {v w f va i k m n N t : ℕ} {A B L L' : Finset ℕ} {fl : Flags}
  {kind : Kind} {r : Bool} {pr : Proc} {has : Proc → Bool} {add g : Proc → Proc} {keeps : Keep}
    {alloc : Bool} {α : Type}
  {R : ℕ → Pte → Prop}

/-! ## Tables -/

def tableCount (L : Finset ℕ) : ℕ := (L.image (· / 2 ^ 18)).card + (L.image (· / 2 ^ 9)).card

theorem tableCount_mono (h : L ⊆ L') : tableCount L ≤ tableCount L' :=
  Nat.add_le_add (Finset.card_le_card (Finset.image_subset_image h)) (Finset.card_le_card (Finset.image_subset_image h))

/-- Of `N` free pages, `n` and the tables of `C` have been taken. `A` and `B` are the tables of the two levels below the
root. -/
structure Ledger (C : Slot) (N : ℕ) (A B : Finset ℕ) (n : ℕ) (s : St) : Prop where
  dirs : ∀ d, (s.proc C).dirs d = true ↔ d ∈ A
  tabs : ∀ t, (s.proc C).tabs t = true ↔ t ∈ B
  count : N = s.free.length + n + (A.card + B.card)

abbrev Booked (C : Slot) (N : ℕ) (L : Finset ℕ) (n : ℕ) (s : St) : Prop :=
  Ledger C N (L.image (· / 2 ^ 18)) (L.image (· / 2 ^ 9)) n s

theorem Booked.count_eq (h : Booked C N L n s) : N = s.free.length + n + tableCount L := h.count

theorem Booked.hasTables (h : Booked C N L n s) (hv : v ∈ L) : HasTables (s.proc C) v :=
  ⟨(h.dirs _).2 (Finset.mem_image_of_mem _ hv), (h.tabs _).2 (Finset.mem_image_of_mem _ hv)⟩

theorem Ledger.congr (h : Ledger C N A B n s) (hfree : s'.free.length = s.free.length)
    (hdirs : (s'.proc C).dirs = (s.proc C).dirs) (htabs : (s'.proc C).tabs = (s.proc C).tabs) :
    Ledger C N A B n s' where
  dirs d := by rw [hdirs, h.dirs]
  tabs t := by rw [htabs, h.tabs]
  count := by rw [hfree, h.count]

theorem allocPage_proc {o : Option ℕ} (h : allocPage s = .ok (o, s')) : s'.proc = s.proc := by
  replace h := of_get_bind h
  cases hfree : s.free with
  | nil =>
    rw [hfree] at h
    cases h
    rfl
  | cons f rest =>
    rw [hfree] at h
    cases h
    rfl

theorem walkLevel_cases (h : walkLevel p has add keeps true s = .ok (r, s')) :
    (has (s.proc p) = true ∧ r = true ∧ s' = s) ∨
    (has (s.proc p) = false ∧ r = false ∧ s' = s ∧ s.free = []) ∨
      (has (s.proc p) = false ∧ r = true ∧ s'.proc p = add (s.proc p) ∧ s.free.length = s'.free.length + 1) := by
  replace h := of_get_bind h
  cases hhas : has (s.proc p) with
  | true =>
    rw [hhas] at h
    cases h
    exact .inl ⟨rfl, rfl, rfl⟩
  | false =>
    rw [hhas, if_neg Bool.false_ne_true, if_pos rfl] at h
    obtain ⟨o, s1, h1, h2⟩ := run_bind.1 h
    rcases allocPage_run h1 with ⟨rfl, rfl, hnil⟩ | ⟨f, rfl, -, hd, -⟩
    · cases h2
      exact .inr (.inl ⟨rfl, rfl, rfl, hnil⟩)
    · obtain ⟨_, s2, hz, h3⟩ := run_bind.1 h2
      obtain ⟨_, s3, hk, h4⟩ := run_bind.1 h3
      obtain ⟨_, s4, hm, h5⟩ := run_bind.1 h4
      cases hz
      cases hk
      cases hm
      cases h5
      refine .inr (.inr ⟨rfl, rfl, ?_, ?_⟩)
      · rw [← allocPage_proc h1]
        exact update_self ..
      · have hlen := congrArg List.length hd.free
        rw [List.length_append, List.length_singleton, Nat.add_comm] at hlen
        exact hlen

/-- One level of `page_walk` over its tables: the one of `d` is there afterwards, and its page has come from the free
list unless it was there before. -/
theorem walkLevel_insert {level : Proc → ℕ → Bool} {d : ℕ} (hA : ∀ e, level (s.proc C) e = true ↔ e ∈ A)
    (hadd : ∀ pr, level (add pr) = update (level pr) d true)
    (h : walkLevel C (fun pr => level pr d) add keeps true s = .ok (r, s')) :
    (r = true ∧ (∀ e, level (s'.proc C) e = true ↔ e ∈ insert d A) ∧
      (s'.proc C = s.proc C ∨ s'.proc C = add (s.proc C)) ∧
      s'.free.length + (insert d A).card = s.free.length + A.card) ∨
    (r = false ∧ s' = s ∧ s.free = [] ∧ d ∉ A) := by
  have hnot (hhas : level (s.proc C) d = false) : d ∉ A := fun hd => by
    rw [(hA d).2 hd] at hhas
    cases hhas
  rcases walkLevel_cases h with ⟨hhas, rfl, rfl⟩ | ⟨hhas, rfl, rfl, hnil⟩ | ⟨hhas, rfl, hproc, hlen⟩
  · rw [Finset.insert_eq_of_mem ((hA d).1 hhas)]
    exact .inl ⟨rfl, hA, .inl rfl, rfl⟩
  · exact .inr ⟨rfl, rfl, hnil, hnot hhas⟩
  · refine .inl ⟨rfl, fun e => ?_, .inr hproc, ?_⟩
    · rw [hproc, hadd, Finset.mem_insert, ← hA]
      by_cases he : e = d
      · simp [he]
      · simp [he]
    · rw [Finset.card_insert_of_notMem (hnot hhas)]
      omega

theorem Ledger.walk_dirs {d : ℕ} (hL : Ledger C N A B n s)
    (h : walkLevel C (·.dirs d) (fun pr => { pr with dirs := update pr.dirs d true }) keeps true s = .ok (r, s')) :
    (r = true ∧ Ledger C N (insert d A) B n s') ∨ (r = false ∧ s' = s ∧ s.free = [] ∧ d ∉ A) := by
  have hcount := hL.count
  rcases walkLevel_insert hL.dirs (fun _ => rfl) h with ⟨rfl, hdirs, hproc | hproc, hcard⟩ | hnone
  · exact .inl ⟨rfl, hdirs, fun e => by rw [hproc, hL.tabs], by omega⟩
  · exact .inl ⟨rfl, hdirs, fun e => by rw [hproc, ← hL.tabs], by omega⟩
  · exact .inr hnone

theorem Ledger.walk_tabs (hL : Ledger C N A B n s)
    (h : walkLevel C (·.tabs t) (fun pr => { pr with tabs := update pr.tabs t true }) keeps true s = .ok (r, s')) :
    (r = true ∧ Ledger C N A (insert t B) n s') ∨ (r = false ∧ s' = s ∧ s.free = [] ∧ t ∉ B) := by
  have hcount := hL.count
  rcases walkLevel_insert hL.tabs (fun _ => rfl) h with ⟨rfl, htabs, hproc | hproc, hcard⟩ | hnone
  · exact .inl ⟨rfl, fun e => by rw [hproc, hL.dirs], htabs, by omega⟩
  · exact .inl ⟨rfl, fun e => by rw [hproc, ← hL.dirs], htabs, by omega⟩
  · exact .inr hnone

/-- **`page_walk`** takes the pages for the missing tables, or there are fewer. -/
theorem Booked.walk (hL : Booked C N L n s) (h : pageWalk C (v * PGSIZE) true s = .ok (r, s')) :
    (r = true ∧ Booked C N (insert v L) n s') ∨ (r = false ∧ N < n + tableCount (insert v L)) := by
  unfold pageWalk at h
  obtain ⟨-, h⟩ := run_guard h
  rw [Nat.mul_div_cancel v (by decide)] at h
  obtain ⟨r1, s1, h1, h2⟩ := run_bind.1 h
  unfold Booked tableCount
  rw [Finset.image_insert, Finset.image_insert]
  have hcount := hL.count
  rcases hL.walk_dirs h1 with ⟨rfl, hL1⟩ | ⟨rfl, rfl, hnil, hd⟩
  · rcases hL1.walk_tabs h2 with ⟨rfl, hL2⟩ | ⟨rfl, rfl, hnil, ht⟩
    · exact .inl ⟨rfl, hL2⟩
    · refine .inr ⟨rfl, ?_⟩
      have hcount1 := hL1.count
      rw [hnil, List.length_nil] at hcount1
      rw [Finset.card_insert_of_notMem ht]
      omega
  · cases h2
    refine .inr ⟨rfl, ?_⟩
    have htabs := Finset.card_le_card (Finset.subset_insert (v / 2 ^ 9) (L.image (· / 2 ^ 9)))
    rw [hnil, List.length_nil] at hcount
    rw [Finset.card_insert_of_notMem hd]
    omega

/-- **The loop of `map_pages`** takes a page for each table that the mapped pages lack, or there are fewer pages than
that. -/
theorem Booked.loop (hL : Booked C N L n s) (h : mapLoop C fl m v f kind s = .ok (r, s')) :
    (r = true ∧ Booked C N (L ∪ (List.range' v m).toFinset) n s') ∨
      (r = false ∧ N < n + tableCount (L ∪ (List.range' v m).toFinset)) := by
  induction m generalizing s L v f kind with
  | zero =>
    cases h
    refine .inl ⟨rfl, ?_⟩
    rwa [List.range'_zero, List.toFinset_nil, Finset.union_empty]
  | succ m ih =>
    obtain ⟨r1, s1, h1, h2⟩ := run_bind.1 h
    have hunion : L ∪ (List.range' v (m + 1)).toFinset = insert v L ∪ (List.range' (v + 1) m).toFinset := by
      rw [List.range'_succ, List.toFinset_cons, Finset.union_insert, Finset.insert_union]
    rw [hunion]
    rcases hL.walk h1 with ⟨rfl, hL1⟩ | ⟨rfl, hlt⟩
    · replace h2 := of_get_bind h2
      obtain ⟨-, h2⟩ := run_guard h2
      obtain ⟨_, s2, h3, h4⟩ := run_bind.1 h2
      cases h3
      refine ih (hL1.congr ?_ ?_ ?_) h4
      · rfl
      · simp
      · simp
    · cases h2
      exact .inr ⟨rfl, hlt.trans_le (Nat.add_le_add_left (tableCount_mono Finset.subset_union_left) n)⟩

def spans (va : ℕ) : List ℕ := List.range' (va / PGSIZE) ((va + PGSIZE - 1) / PGSIZE + 1 - va / PGSIZE)

theorem Booked.map (hL : Booked C N L n s) (h : userVmMap C va PGSIZE f fl kind s = .ok ((), s')) :
    Booked C N (L ∪ (spans va).toFinset) n s' := by
  rcases hL.loop (userVmMap_run h) with ⟨-, hL1⟩ | ⟨hr, -⟩
  · exact hL1
  · cases hr

theorem spans_aligned (ha : va % PGSIZE = 0) : spans va = [va / PGSIZE] := by
  have hone : (va + PGSIZE - 1) / PGSIZE + 1 - va / PGSIZE = 1 := by
    simp only [PGSIZE] at *
    omega
  rw [spans, hone]
  rfl

theorem Booked.map_page (hL : Booked C N L n s) (h : userVmMap C (v * PGSIZE) PGSIZE f fl kind s = .ok ((), s')) :
    Booked C N (insert v L) n s' := by
  have hL1 := hL.map h
  rwa [spans_aligned (Nat.mul_mod_left v PGSIZE), Nat.mul_div_cancel v (by decide), List.toFinset_cons,
    List.toFinset_nil,
    Finset.union_insert, Finset.union_empty] at hL1

theorem Ledger.take (hL : Ledger C N A B n s) (h : allocPageUsed s = .ok (f, s')) : Ledger C N A B (n + 1) s' := by
  have hfree := congrArg List.length (allocPageUsed_run h).1.free
  obtain ⟨o, s1, h1, h2⟩ := run_bind.1 h
  have hproc : s'.proc = s.proc := by
    cases o with
    | none => cases h2
    | some g =>
      cases h2
      exact allocPage_proc h1
  refine ⟨fun d => ?_, fun t => ?_, ?_⟩
  · rw [hproc, hL.dirs]
  · rw [hproc, hL.tabs]
  · rw [hL.count, hfree]
    simp only [List.length_append, List.length_singleton]
    omega

/-! ## Without pages -/

def Dry (T : Slot → (ℕ → Bool) × (ℕ → Bool)) (s : St) : Prop :=
  s.free = [] ∧ ∀ p, ((s.proc p).dirs, (s.proc p).tabs) = T p

variable {T : Slot → (ℕ → Bool) × (ℕ → Bool)}

theorem dry_allocPage : Yields (Dry T) allocPage (· = none) := by
  intro s r s' hs h
  simp only [allocPage, run_get_bind, hs.1] at h
  cases h
  exact ⟨hs, rfl⟩

theorem dry_allocPageUsed : Yields (Dry T) allocPageUsed fun _ => False := by
  refine (dry_allocPage).bind fun r hr => ?_
  subst hr
  exact yields_throw

theorem dry_modProc (hd : ∀ pr, (g pr).dirs = pr.dirs) (ht : ∀ pr, (g pr).tabs = pr.tabs) :
    Stays (Dry T) (modProc p g) := by
  refine yields_modify fun s hs => ⟨hs.1, fun q => ?_⟩
  rw [← hs.2 q]
  grind

theorem dry_setLeaf {o : Option Pte} : Stays (Dry T) (setLeaf p v o) := dry_modProc (fun _ => rfl) fun _ => rfl

theorem dry_walkLevel : Stays (Dry T) (walkLevel p has add keeps alloc) := by
  refine yields_get_bind fun s hs => ?_
  split_ifs
  · exact yields_pure trivial
  · refine (dry_allocPage).bind fun r hr => ?_
    subst hr
    exact yields_pure trivial
  · exact yields_pure trivial

theorem dry_pageWalk : Stays (Dry T) (pageWalk p va alloc) := by
  grind [pageWalk, dry_walkLevel]

theorem dry_mapLoop {n : ℕ} : Stays (Dry T) (mapLoop p fl n v f kind) := by
  induction n generalizing v f kind with
  | zero => exact yields_pure trivial
  | succ n ih =>
    refine (dry_pageWalk).bind fun r _ => ?_
    cases r with
    | false => exact yields_pure trivial
    | true => grind [dry_setLeaf]

theorem dry_userVmMap {size : ℕ} : Stays (Dry T) (userVmMap p va size f fl kind) := by
  refine (dry_mapLoop).bind fun r _ => ?_
  cases r with
  | false => exact yields_throw
  | true => exact yields_pure trivial

theorem dry_shareHeapPage : Stays (Dry T) (shareHeapPage K P C v) := by
  refine (dry_pageWalk).bind fun r _ => ?_
  cases r with
  | false => exact yields_pure trivial
  | true =>
    refine yields_get_bind fun s _ => ?_
    split
    · exact yields_pure trivial
    · refine Yields.bind (Q := fun _ => True) ?_ fun _ _ => (dry_userVmMap).bind fun _ _ => dry_setLeaf
      unfold incPageRef
      split_ifs
      · exact yields_modify fun s hs => hs
      · exact yields_pure trivial

theorem dry_shareCodePage : Stays (Dry T) (shareCodePage P C va) :=
  yields_get_bind fun _ _ => (dry_mapLoop).bind fun _ _ => yields_pure trivial

theorem dry_copyDataPage : Stays (Dry T) (copyDataPage P C va) :=
  (dry_allocPageUsed).bind fun _ h => h.elim

theorem dry_appendRegion {r : Region} : Stays (Dry T) (appendRegion C r) := by
  refine yields_get_bind fun s _ => ?_
  dsimp only
  split_ifs
  · exact yields_throw
  · exact dry_modProc (fun _ => rfl) fun _ => rfl

theorem dry_copyRegion {i : ℕ} : Stays (Dry T) (copyRegion K P C i) := by
  unfold copyRegion
  split_ifs
  · exact yields_throw
  refine yields_get_bind fun s _ => ?_
  dsimp only
  split
  · exact yields_pure trivial
  · exact yields_pure trivial
  · split_ifs
    · exact yields_throw
    · exact yields_modify fun s hs => hs
  · exact (yields_forM fun _ _ => dry_shareHeapPage).bind fun _ _ => dry_modProc (fun _ => rfl) fun _ => rfl
  · exact (yields_forM fun _ _ => dry_shareCodePage).bind fun _ _ => dry_appendRegion
  · exact (yields_forM fun _ _ => dry_copyDataPage).bind fun _ _ => dry_appendRegion

theorem tables_of_dry {x : M α} {a : α} (hx : ∀ T, Stays (Dry T) x) (hfree : s.free = []) (h : x s = .ok (a, s')) :
    s'.free = [] ∧ ∀ p v, HasTables (s'.proc p) v → HasTables (s.proc p) v := by
  obtain ⟨⟨hfree', hsame⟩, -⟩ := hx _ s a s' ⟨hfree, fun _ => rfl⟩ h
  refine ⟨hfree', fun p v ht => ?_⟩
  have htables := Prod.mk.inj (hsame p)
  exact ⟨htables.1 ▸ ht.1, htables.2 ▸ ht.2⟩

/-! ## The code pages -/

/-- the page is one that `map_pages` has to map for a CODE region -/
def CodePage (pr : Proc) (v : ℕ) : Prop :=
  ∃ i < pr.total_mapped_region, (pr.mapped_info i).seg_type = .code ∧
    ∃ va ∈ (pr.mapped_info i).pages, v ∈ spans va

def Lacks (parent : Proc) (C : Slot) (s : St) : Prop :=
  s.free = [] ∧ ∃ v, CodePage parent v ∧ ¬ HasTables (s.proc C) v

theorem lacks_of_dry {x : M α} (hx : ∀ T, Stays (Dry T) x) : Stays (Lacks pr C) x := by
  intro s r s' ⟨hfree, v, hv, htab⟩ h
  obtain ⟨hfree', htables⟩ := tables_of_dry hx hfree h
  exact ⟨⟨hfree', v, hv, fun ht => htab (htables C v ht)⟩, trivial⟩

/-! ## What `map_pages` maps -/

theorem walkLevel_fails (h : walkLevel p has add keeps true s = .ok (false, s')) :
    s'.free = [] ∧ has (s'.proc p) = false := by
  rcases walkLevel_cases h with ⟨-, hr, -⟩ | ⟨hhas, -, rfl, hnil⟩ | ⟨-, hr, -⟩
  · cases hr
  · exact ⟨hnil, hhas⟩
  · cases hr

theorem pageWalk_fails (h : pageWalk p (v * PGSIZE) true s = .ok (false, s')) :
    s'.free = [] ∧ ¬ HasTables (s'.proc p) v := by
  unfold pageWalk at h
  obtain ⟨-, h⟩ := run_guard h
  rw [Nat.mul_div_cancel v (by decide)] at h
  obtain ⟨r1, s1, h1, h2⟩ := run_bind.1 h
  cases r1 with
  | false =>
    cases h2
    obtain ⟨hnil, hdir⟩ := walkLevel_fails h1
    exact ⟨hnil, fun ht => Bool.false_ne_true (hdir.symm.trans ht.1)⟩
  | true =>
    rw [if_pos rfl] at h2
    obtain ⟨hnil, htab⟩ := walkLevel_fails h2
    exact ⟨hnil, fun ht => Bool.false_ne_true (htab.symm.trans ht.2)⟩

variable {a : Pte}

theorem Mapped.old (h : Mapped s p v a s') {b : Pte} (hb : leafAt s p w = some b) : leafAt s' p w = some b := by
  obtain ⟨-, hnone, l, s1, hd, -, rfl⟩ := h
  have hne : (p, w) ≠ (p, v) := by
    intro e
    rw [(Prod.mk.inj e).2, hnone] at hb
    cases hb
  rw [leafAt_withLeaf_of_ne hne, hd.leaf_eq, hb]

theorem mapLoop_old (h : mapLoop p fl m v f kind s = .ok (r, s')) (ha : leafAt s p w = some a) :
    leafAt s' p w = some a := by
  induction m generalizing s v f kind with
  | zero =>
    cases h
    exact ha
  | succ m ih =>
    rcases mapLoop_succ_run h with ⟨-, -, l, hd⟩ | ⟨s1, hm, h1⟩
    · rw [hd.leaf_eq, ha]
    · exact ih h1 (hm.old ha)

theorem mapLoop_cases (h : mapLoop p fl m v f kind s = .ok (r, s')) :
    (r = false ∧ s'.free = [] ∧ ∃ w ∈ List.range' v m, ¬ HasTables (s'.proc p) w) ∨
      (r = true ∧ ∀ j < m, leafAt s' p (v + j) = some ⟨fl, f + j, if j = 0 then kind else .spill⟩) := by
  induction m generalizing s v f kind with
  | zero =>
    cases h
    exact .inr ⟨rfl, fun j hj => absurd hj (Nat.not_lt_zero j)⟩
  | succ m ih =>
    obtain ⟨r1, s1, h1, h2⟩ := run_bind.1 h
    cases r1 with
    | false =>
      cases h2
      obtain ⟨hnil, htab⟩ := pageWalk_fails h1
      exact .inl ⟨rfl, hnil, v, List.mem_range'_1.2 ⟨le_rfl, by omega⟩, htab⟩
    | true =>
      replace h2 := of_get_bind h2
      obtain ⟨-, h2⟩ := run_guard h2
      obtain ⟨_, s2, h3, h4⟩ := run_bind.1 h2
      cases h3
      rcases ih h4 with ⟨rfl, hnil, w, hw, htab⟩ | ⟨rfl, hpages⟩
      · refine .inl ⟨rfl, hnil, w, ?_, htab⟩
        rw [List.mem_range'_1] at hw ⊢
        omega
      · refine .inr ⟨rfl, fun j hj => ?_⟩
        cases j with
        | zero => exact mapLoop_old h4 leafAt_withLeaf_self
        | succ j =>
          have hpage := hpages j (by omega)
          rw [ite_self] at hpage
          rw [if_neg (Nat.succ_ne_zero j), show v + (j + 1) = v + 1 + j by omega, show f + (j + 1) = f + 1 + j by omega]
          exact hpage

def CodeMapped (pr : Proc) (C : Slot) (s : St) (va : ℕ) : Prop :=
  ∀ j < (spans va).length,
    leafAt s C (va / PGSIZE + j) = some ⟨CODE_FLAGS, lookupPa pr va + j, if j = 0 then codeKind pr va else .spill⟩

def Starved (C : Slot) (va : ℕ) (s : St) : Prop := s.free = [] ∧ ∃ w ∈ spans va, ¬ HasTables (s.proc C) w

theorem shareCodePage_cases (h : shareCodePage P C va s = .ok ((), s')) :
    Starved C va s' ∨ CodeMapped (s.proc P) C s' va := by
  replace h := of_get_bind h
  obtain ⟨r, s1, h1, h2⟩ := run_bind.1 h
  cases h2
  rcases mapLoop_cases h1 with ⟨-, hnil, hw⟩ | ⟨-, hpages⟩
  · exact .inl ⟨hnil, hw⟩
  · refine .inr fun j hj => hpages j ?_
    rwa [spans, List.length_range'] at hj

/-- **The pages of a CODE region** are mapped, or there is no page for one of their tables. -/
theorem shareCode_cases {vas : List ℕ} (K : Machine) (hne : C ≠ P) (h : vas.forM (shareCodePage P C) s = .ok ((), s')) :
    ∀ va ∈ vas, Starved C va s' ∨ CodeMapped (s.proc P) C s' va := by
  refine (run_each (Adds K (fun _ _ => True) C s) (fun va s1 => Starved C va s1 ∨
    CodeMapped (s.proc P) C s1 va) ?_ .refl h).2
  intro x _ s1 s2 hadds hrun
  have hadds2 : Adds K (fun _ _ => True) C s1 s2 := (shareCodePage_run hrun).mono fun _ _ _ => trivial
  have hsame := hadds.others P hne.symm
  refine ⟨hadds.trans hadds2, (shareCodePage_cases hrun).imp_right fun hx => ?_, fun va _ hdone => ?_⟩
  · intro j hj
    rw [hx j hj, hsame.lookupPa, hsame.codeKind]
  · rcases hdone with ⟨hnil, w, hw, htab⟩ | hleaf
    · obtain ⟨hnil', htables⟩ := tables_of_dry (fun T => dry_shareCodePage) hnil hrun
      exact .inl ⟨hnil', w, hw, fun ht => htab (htables C w ht)⟩
    · exact .inr fun j hj => hadds2.old _ _ (hleaf j hj)

/-! ## The turns of the loop -/

theorem Booked.heap_page (hL : Booked C N L n s) (hf : Frames K s) (ha : leafAt s P v = some a)
    (h : shareHeapPage K P C v s = .ok ((), s')) : Booked C N (insert v L) n s' := by
  obtain ⟨r, s1, h1, hx⟩ := run_bind.1 h
  obtain ⟨rfl, -, hr⟩ := pageWalk_false_run h1
  rw [Nat.mul_div_cancel v (by decide)] at hr
  rw [hr (hf.tables P v a ha)] at hx
  replace hx := of_get_bind hx
  have ha' : (s1.proc P).leaf v = some a := ha
  rw [ha'] at hx
  obtain ⟨_, s2, h2, hx⟩ := run_bind.1 hx
  obtain ⟨_, s3, h3, hx⟩ := run_bind.1 hx
  have hL2 : Booked C N L n s2 := by
    unfold incPageRef at h2
    split at h2
    · cases h2
      exact hL.congr rfl rfl rfl
    · cases h2
      exact hL
  cases hx
  refine (hL2.map_page h3).congr rfl ?_ ?_
  · by_cases hCP : C = P
    · simp [hCP]
    · simp [hCP]
  · by_cases hCP : C = P
    · simp [hCP]
    · simp [hCP]

theorem Booked.heap {vs : List ℕ} (hL : Booked C N L n s) (hf : Frames K s) (hne : C ≠ P)
    (hheap : ∀ v ∈ vs, IsKind .heap (leafAt s P v)) (h : vs.forM (shareHeapPage K P C) s = .ok ((), s')) :
    Booked C N (L ∪ vs.toFinset) n s' := by
  induction vs generalizing s L with
  | nil =>
    cases h
    rwa [List.toFinset_nil, Finset.union_empty]
  | cons v vs ih =>
    obtain ⟨_, s1, h1, h2⟩ := run_bind.1 h
    obtain ⟨a, ha, hk⟩ := hheap v List.mem_cons_self
    have hs := (shareHeapPage_run h1 hf hne ha hk).1
    rw [List.toFinset_cons, Finset.union_insert, ← Finset.insert_union]
    refine ih (hL.heap_page hf ha h1) hs.frames (fun w hw => ?_) h2
    exact hs.parent.isKind.2 (hheap w (List.mem_cons_of_mem v hw))

theorem Booked.code {vas : List ℕ} (hL : Booked C N L n s) (h : vas.forM (shareCodePage P C) s = .ok ((), s')) :
    Booked C N (L ∪ (vas.flatMap spans).toFinset) n s' ∨
      (N < n + tableCount (L ∪ (vas.flatMap spans).toFinset) ∧ ∃ va ∈ vas, Starved C va s') := by
  induction vas generalizing s L with
  | nil =>
    cases h
    left
    rwa [List.flatMap_nil, List.toFinset_nil, Finset.union_empty]
  | cons va vas ih =>
    obtain ⟨_, s1, h1, h2⟩ := run_bind.1 h
    rw [List.flatMap_cons, List.toFinset_append, ← Finset.union_assoc]
    replace h1 := of_get_bind h1
    obtain ⟨r, s2, h3, h4⟩ := run_bind.1 h1
    cases h4
    rcases hL.loop h3 with ⟨-, hL1⟩ | ⟨hr, hlt⟩
    · rcases ih hL1 h2 with hL2 | ⟨hlt, x, hx, hst⟩
      · exact .inl hL2
      · exact .inr ⟨hlt, x, List.mem_cons_of_mem va hx, hst⟩
    · -- the loop goes on without pages
      refine .inr ⟨hlt.trans_le (Nat.add_le_add_left (tableCount_mono Finset.subset_union_left) n), va,
        List.mem_cons_self, ?_⟩
      rcases mapLoop_cases h3 with ⟨-, hnil, w, hw, htab⟩ | ⟨hr', -⟩
      · obtain ⟨hnil', htables⟩ := tables_of_dry (fun T => yields_forM fun _ _ => dry_shareCodePage) hnil h2
        exact ⟨hnil', w, hw, fun ht => htab (htables C w ht)⟩
      · rw [hr] at hr'
        cases hr'

theorem Booked.data {vas : List ℕ} (hL : Booked C N L n s) (h : vas.forM (copyDataPage P C) s = .ok ((), s')) :
    Booked C N (L ∪ (vas.flatMap spans).toFinset) (n + vas.length) s' := by
  induction vas generalizing s L n with
  | nil =>
    cases h
    rwa [List.flatMap_nil, List.toFinset_nil, Finset.union_empty]
  | cons va vas ih =>
    obtain ⟨_, s1, h1, h2⟩ := run_bind.1 h
    rw [List.flatMap_cons, List.toFinset_append, ← Finset.union_assoc, List.length_cons, Nat.add_comm vas.length 1,
      ← Nat.add_assoc]
    refine ih ?_ h2
    obtain ⟨f, s2, h3, h4⟩ := run_bind.1 h1
    replace h4 := of_get_bind h4
    obtain ⟨-, h4⟩ := run_guard h4
    obtain ⟨_, s3, h5, h6⟩ := run_bind.1 h4
    cases h5
    have hL2 : Booked C N L (n + 1) s2 := hL.take h3
    refine Booked.map (hL2.congr ?_ ?_ ?_) h6
    · rfl
    · rfl
    · rfl

theorem allocPageUsed_free (h : allocPageUsed s = .ok (f, s')) : s.free = f :: s'.free := (allocPageUsed_run h).1.free

/-- **`alloc_process`** takes six pages, and the tables for the stack page, the trapframe and the trap vector. -/
theorem allocSpace_booked (h : allocSpace K C s = .ok ((), s')) :
    Booked C s.free.length {K.trapSec, s.free.headD 0, STACK_VPN} 6 s' := by
  obtain ⟨trapframe, t1, h1, h⟩ := run_bind.1 h
  obtain ⟨_, _, hx, h⟩ := run_bind.1 h
  cases hx
  obtain ⟨_, _, hx, h⟩ := run_bind.1 h
  cases hx
  obtain ⟨pagetable, t2, h2, h⟩ := run_bind.1 h
  obtain ⟨_, _, hx, h⟩ := run_bind.1 h
  cases hx
  obtain ⟨_, _, hx, h⟩ := run_bind.1 h
  cases hx
  obtain ⟨kstack, t3, h3, h⟩ := run_bind.1 h
  obtain ⟨_, _, hx, h⟩ := run_bind.1 h
  cases hx
  obtain ⟨userStack, t4, h4, h⟩ := run_bind.1 h
  obtain ⟨info, t5, h5, h⟩ := run_bind.1 h
  obtain ⟨_, _, hx, h⟩ := run_bind.1 h
  cases hx
  obtain ⟨_, _, hx, h⟩ := run_bind.1 h
  cases hx
  obtain ⟨_, t6, h6, h⟩ := run_bind.1 h
  have hfree1 := allocPageUsed_free h1
  have hlen : s.free.length = t5.free.length + 5 := by
    have hfree2 : t1.free = pagetable :: t2.free := (allocPageUsed_free h2 :)
    have hfree3 : t2.free = kstack :: t3.free := (allocPageUsed_free h3 :)
    have hfree4 : t3.free = userStack :: t4.free := (allocPageUsed_free h4 :)
    have hfree5 : t4.free = info :: t5.free := (allocPageUsed_free h5 :)
    rw [hfree1, hfree2, hfree3, hfree4, hfree5]
    rfl
  -- the page table is empty now
  have hL6 : Booked C s.free.length ∅ 5 t6 := by
    cases h6
    refine ⟨fun d => ?_, fun t => ?_, ?_⟩
    · simp [St.cleared, newProc]
    · simp [St.cleared, newProc]
    · rw [hlen]
      rfl
  obtain ⟨_, t7, h7, h⟩ := run_bind.1 h
  obtain ⟨_, t8, h8, h⟩ := run_bind.1 h
  obtain ⟨_, t9, h9, h⟩ := run_bind.1 h
  obtain ⟨pfiles, t10, h10, h⟩ := run_bind.1 h
  obtain ⟨_, _, hx, h⟩ := run_bind.1 h
  cases hx
  cases h
  have hL7 : Booked C s.free.length {STACK_VPN} 5 t7 := hL6.map_page (v := STACK_VPN) h7
  have hL9 := ((hL7.map_page h8).map_page h9).take h10
  rw [hfree1] at hL9 ⊢
  refine hL9.congr ?_ ?_ ?_
  · rfl
  · rfl
  · rfl

/-! ## The need of a fork -/

theorem Region.length_pages (r : Region) : r.pages.length = r.npages := by
  simp [Region.pages]

def Region.added (r : Region) (pr : Proc) : List ℕ :=
  match r.seg_type with
  | .heap => heapPages pr
  | .code => r.pages.flatMap spans
  | .data => r.pages.flatMap spans
  | _ => []

def Region.copies (r : Region) : ℕ := if r.seg_type = .data then r.npages else 0

def childPages (K : Machine) (s : St) (P : Slot) (i : ℕ) : Finset ℕ :=
  {K.trapSec, s.free.headD 0, STACK_VPN} ∪
    ((List.range i).flatMap fun j => ((s.proc P).mapped_info j).added (s.proc P)).toFinset

def copyCount (pr : Proc) (i : ℕ) : ℕ := ((List.range i).map fun j => (pr.mapped_info j).copies).sum

def forkNeed (K : Machine) (s : St) (P : Slot) : ℕ :=
  6 + copyCount (s.proc P) (s.proc P).total_mapped_region +
    tableCount (childPages K s P (s.proc P).total_mapped_region)

theorem childPages_succ (i : ℕ) :
    childPages K s P (i + 1) = childPages K s P i ∪ (((s.proc P).mapped_info i).added (s.proc P)).toFinset := by
  simp only [childPages, List.range_succ, List.flatMap_append, List.flatMap_singleton, List.toFinset_append,
    Finset.union_assoc]

theorem copyCount_succ (pr : Proc) (i : ℕ) : copyCount pr (i + 1) = copyCount pr i + (pr.mapped_info i).copies := by
  simp [copyCount, List.range_succ]

theorem childPages_mono : Monotone (childPages K s P) :=
  monotone_nat_of_le_succ fun i => by
    rw [childPages_succ]
    exact Finset.subset_union_left

theorem copyCount_mono (pr : Proc) : Monotone (copyCount pr) :=
  monotone_nat_of_le_succ fun i => by
    rw [copyCount_succ]
    exact Nat.le_add_right _ _

def Progress (K : Machine) (P C : Slot) (s0 : St) (i : ℕ) (s : St) : Prop :=
  Booked C s0.free.length (childPages K s0 P i) (6 + copyCount (s0.proc P) i) s ∨
    (s0.free.length < forkNeed K s0 P ∧ Lacks (s0.proc P) C s)

theorem Progress.of_booked {l : List ℕ} {c : ℕ} (hadded : ((s0.proc P).mapped_info i).added (s0.proc P) = l)
    (hcopies : ((s0.proc P).mapped_info i).copies = c)
    (hL : Booked C s0.free.length (childPages K s0 P i ∪ l.toFinset) (6 + copyCount (s0.proc P) i + c) s) :
    Progress K P C s0 (i + 1) s := by
  left
  rwa [childPages_succ, copyCount_succ, hadded, hcopies, ← Nat.add_assoc]

theorem Progress.of_starved (hi : i < (s0.proc P).total_mapped_region)
    (hty : ((s0.proc P).mapped_info i).seg_type = .code)
    (hlt : s0.free.length < 6 + copyCount (s0.proc P) i + tableCount (childPages K s0 P (i + 1)))
    (hva : va ∈ ((s0.proc P).mapped_info i).pages) (hst : Starved C va s) : Progress K P C s0 (i + 1) s := by
  obtain ⟨hnil, w, hw, htab⟩ := hst
  refine .inr ⟨?_, hnil, w, ⟨i, hi, hty, va, hva, hw⟩, htab⟩
  have htables : tableCount (childPages K s0 P (i + 1)) ≤ tableCount
    (childPages K s0 P (s0.proc P).total_mapped_region) :=
    tableCount_mono (childPages_mono hi)
  have hcopies := copyCount_mono (s0.proc P) hi.le
  unfold forkNeed
  omega

/-- **One region of the parent.** The turn for region `i` takes what the region needs, or the pages do not suffice. -/
theorem Progress.step (hp : Progress K P C s0 i s) (hI : Forking K R P C s0 i s)
    (hP : Space t (s0.proc P)) (hne : C ≠ P)
    (hi : i < (s0.proc P).total_mapped_region) (h : copyRegion K P C i s = .ok ((), s')) :
    Progress K P C s0 (i + 1) s' := by
  rcases hp with hL | ⟨hlt, hlacks⟩
  swap
  · exact .inr ⟨hlt, (lacks_of_dry (fun T => dry_copyRegion) s _ s' hlacks h).1⟩
  have hidle : Booked C s0.free.length (childPages K s0 P i ∪ [].toFinset) (6 + copyCount (s0.proc P) i + 0) s := by
    rwa [List.toFinset_nil, Finset.union_empty]
  have hrun := copyRegion_run h
  rw [hI.parent.mapped_info] at hrun
  cases hrun with
  | skip hty hs =>
    subst hs
    refine .of_booked ?_ ?_ hidle
    · rcases hty with e | e
      · rw [Region.added, e]
      · rw [Region.added, e]
    · rcases hty with e | e
      · rw [Region.copies, e]
        rfl
      · rw [Region.copies, e]
        rfl
  | stack hty hsrc hs =>
    subst hs
    refine .of_booked (l := []) (c := 0) (by rw [Region.added, hty]) (by rw [Region.copies, hty]; rfl)
      (hidle.congr ?_ ?_ ?_)
    · rfl
    · rfl
    · rfl
  | @heap hty s1 h1 hs =>
    subst hs
    obtain ⟨n, hn⟩ := hP.heap
    have hn' := hI.parent.heapOk hn
    have hpages : ∀ v ∈ heapPages (s.proc P), IsKind .heap (leafAt s P v) := by
      intro v hv
      rw [hn'.heapPages, List.mem_range'_1] at hv
      exact (hn'.mapped v).2 hv
    have hL1 := hL.heap hI.frames hne hpages h1
    rw [hn'.heapPages, ← hn.heapPages] at hL1
    refine .of_booked (c := 0) (by rw [Region.added, hty]) (by rw [Region.copies, hty]; rfl) (hL1.congr ?_ ?_ ?_)
    · rfl
    · simp [withHeap]
    · simp [withHeap]
  | @code hty s1 h1 hs =>
    subst hs
    have hadded : ((s0.proc P).mapped_info i).added (s0.proc P) = ((s0.proc P).mapped_info i).pages.flatMap spans := by
      rw [Region.added, hty]
    rcases hL.code h1 with hL1 | ⟨hlt, va, hva, hnil, w, hw, htab⟩
    · refine .of_booked (c := 0) hadded (by rw [Region.copies, hty]; rfl) (hL1.congr ?_ ?_ ?_)
      · rfl
      · simp [appended]
      · simp [appended]
    · rw [← hadded, ← childPages_succ] at hlt
      refine .of_starved hi hty hlt hva ⟨hnil, w, hw, ?_⟩
      simpa [HasTables, appended] using htab
  | @data hty s1 h1 hs =>
    subst hs
    have hL1 := hL.data h1
    rw [Region.length_pages] at hL1
    refine .of_booked (by rw [Region.added, hty]) (by rw [Region.copies, hty]; rfl) (hL1.congr ?_ ?_ ?_)
    · rfl
    · simp [appended]
    · simp [appended]

theorem allocSpace_progress (h : allocSpace K C s = .ok ((), s1)) : Progress K P C s 0 s1 := by
  left
  have hL := allocSpace_booked h
  simpa [childPages, copyCount] using hL

theorem CodePage.mem_childPages (h : CodePage (s.proc P) v) : v ∈ childPages K s P (s.proc P).total_mapped_region := by
  obtain ⟨i, hi, hty, va, hva, hv⟩ := h
  apply Finset.mem_union_right
  rw [List.mem_toFinset, List.mem_flatMap]
  refine ⟨i, List.mem_range.2 hi, ?_⟩
  rw [Region.added, hty]
  exact List.mem_flatMap.2 ⟨va, hva, hv⟩

theorem Booked.of_tableCount (hL : Booked C N L n s) (hsub : L ⊆ L') (hle : tableCount L' ≤ tableCount L) :
    Booked C N L' n s := by
  have hA := Finset.image_subset_image (f := (· / 2 ^ 18)) hsub
  have hB := Finset.image_subset_image (f := (· / 2 ^ 9)) hsub
  have hA' := Finset.card_le_card hA
  have hB' := Finset.card_le_card hB
  unfold tableCount at hle
  unfold Booked
  rwa [← Finset.eq_of_subset_of_card_le hA (by omega), ← Finset.eq_of_subset_of_card_le hB (by omega)]

theorem Progress.not_lacks (hp : Progress K P C s0 i s) (hi : i ≤ (s0.proc P).total_mapped_region)
    (hroom : forkNeed K s0 P ≤ s0.free.length) : ¬ Lacks (s0.proc P) C s := by
  rintro ⟨hnil, v, hcode, htab⟩
  rcases hp with hL | ⟨hlt, -⟩
  · -- all pages that the fork needs have been taken already, so that the tables are there
    have hcount := hL.count_eq
    have hcopies := copyCount_mono (s0.proc P) hi
    rw [hnil, List.length_nil] at hcount
    unfold forkNeed at hroom
    exact htab ((hL.of_tableCount (childPages_mono hi) (by omega)).hasTables hcode.mem_childPages)
  · omega

/-! ## Forks -/

theorem copyData_spans {vas : List ℕ} (K : Machine) (h : vas.forM (copyDataPage P C) s = .ok ((), s')) :
    ∀ va ∈ vas, ∀ w ∈ spans va, ∃ a, leafAt s' C w = some a ∧ a.toFlags = DATA_FLAGS := by
  refine (run_each (fun _ => True) (fun va s1 => ∀ w ∈ spans va, ∃ a, leafAt s1 C w = some a ∧
    a.toFlags = DATA_FLAGS) ?_
    trivial h).2
  intro x _ s1 s2 _ hrun
  refine ⟨trivial, fun w hw => ?_, fun va _ hdone w hw => ?_⟩
  · obtain ⟨f, s3, h3, h4⟩ := run_bind.1 hrun
    replace h4 := of_get_bind h4
    obtain ⟨-, h4⟩ := run_guard h4
    obtain ⟨_, s4, -, h6⟩ := run_bind.1 h4
    rcases mapLoop_cases (userVmMap_run h6) with ⟨hr, -⟩ | ⟨-, hpages⟩
    · cases hr
    · obtain ⟨h1, h2⟩ := List.mem_range'_1.1 hw
      have hpage := hpages (w - x / PGSIZE) (by omega)
      rw [Nat.add_sub_cancel' h1] at hpage
      exact ⟨_, hpage, rfl⟩
  · obtain ⟨a, ha, hfl⟩ := hdone w hw
    exact ⟨a, (copyDataPage_run (K := K) hrun).1.old _ _ ha, hfl⟩

/-- **The page need.** A fork that returns has taken exactly what it needs, or there were fewer pages and the child
lacks a table for a code page. -/
theorem doFork_progress (h : doFork K P s = .ok (C, s')) (hR : ForkPages R (s.proc P)) (hf : Frames K s)
    (hP : Space t (s.proc P)) (hlive : s.life P = .live) (hfree : Blank s) :
    Progress K P C s (s.proc P).total_mapped_region s' := by
  have hne := (doFork_run h hR hf hP hlive hfree).ne hlive
  exact (doFork_loop h hR hf hP hlive hfree (Progress K P C s) (fun s1 h1 => allocSpace_progress h1)
    fun i s1 s2 hi hF hp hx => hp.step hF hP hne hi hx).2

/-! ## A bound for one mapping -/

abbrev Takes (n : ℕ) (x : M α) : Prop := Costs (fun s : St => s.free.length) n x

theorem takes_walkLevel : Takes 1 (walkLevel p has add keeps true) := by
  intro s r s' h
  rcases walkLevel_cases h with ⟨-, -, rfl⟩ | ⟨-, -, rfl, -⟩ | ⟨-, -, -, hlen⟩
  · exact Nat.le_add_right _ _
  · exact Nat.le_add_right _ _
  · exact hlen.le

theorem takes_userVmMap (ha : va % PGSIZE = 0) : Takes 2 (userVmMap p va PGSIZE f fl kind) := by
  have hwalk : Takes 2 (pageWalk p (va / PGSIZE * PGSIZE) true) := by
    unfold pageWalk
    split_ifs
    · exact costs_throw
    · refine (takes_walkLevel).bind (n := 1) fun r => ?_
      split_ifs
      · exact takes_walkLevel
      · exact costs_pure
  have hloop : Takes 2 (mapLoop p fl 1 (va / PGSIZE) f kind) := by
    refine hwalk.bind (n := 0) fun r => ?_
    split_ifs
    · refine costs_get.bind (n := 0) fun s => ?_
      split_ifs
      · exact costs_throw
      · have hset : Takes 0 (setLeaf p (va / PGSIZE) (some ⟨fl, f, kind⟩)) := costs_modify fun _ => rfl
        exact hset.bind (n := 0) fun _ => costs_pure
    · exact costs_pure
  have hmap : Takes 2 (mapPages p va PGSIZE f fl kind) := by rwa [mapPages_aligned ha]
  refine hmap.bind (n := 0) fun r => ?_
  split_ifs
  · exact costs_pure
  · exact costs_throw

end RiscvPke.Memory
