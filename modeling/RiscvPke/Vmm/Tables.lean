/-
The page tables of a process are a radix tree in memory (`Core.Radix`): three levels of 512 entries each, keyed by the
three nine-bit digits of a page number.
-/
import RiscvPke.Vmm.Model
import RiscvPke.Core.Radix

namespace RiscvPke.Vmm

open Function Bytes Radix Run

variable {s s' s1 : St} {a b f g i j k n pa pt r root va v w level : ℕ} {perm : Perm}

/-! ## Entries -/

def leafWord (pa : ℕ) (perm : Perm) : ℕ := PA2PTE pa ||| perm ||| PTE_V

def tableWord (pt : ℕ) : ℕ := PA2PTE pt ||| PTE_V

theorem pa2pte_or (hb : b < 2 ^ 10) : PA2PTE pa ||| b = 2 ^ 10 * (pa / 2 ^ 12) + b := by
  rw [PA2PTE, Nat.shiftLeft_eq, Nat.shiftRight_eq_div_pow, Nat.mul_comm, Nat.two_pow_add_eq_or_of_lt hb]

theorem perm_or_lt : (perm : ℕ) ||| PTE_V < 2 ^ 10 := Nat.or_lt_two_pow perm.isLt (by norm_num)

theorem leafWord_eq : leafWord pa perm = 2 ^ 10 * (pa / 2 ^ 12) + ((perm : ℕ) ||| PTE_V) := by
  rw [leafWord, Nat.or_assoc, pa2pte_or perm_or_lt]

theorem tableWord_eq : tableWord pt = 2 ^ 10 * (pt / 2 ^ 12) + 1 := pa2pte_or (by norm_num)

theorem leafWord_lt (hpa : pa < 2 ^ 64) : leafWord pa perm < 2 ^ 64 := by
  have := @perm_or_lt perm
  rw [leafWord_eq]
  omega

theorem tableWord_lt (hpt : pt < 2 ^ 64) : tableWord pt < 2 ^ 64 := by
  rw [tableWord_eq]
  omega

theorem and_valid : w &&& PTE_V = w % 2 := Nat.and_one_is_mod w

theorem leafWord_valid : leafWord pa perm &&& PTE_V ≠ 0 := by
  have h1 : ((perm : ℕ) ||| PTE_V) % 2 = 1 := by
    rw [Nat.or_mod_two_eq_one]
    right
    rfl
  rw [and_valid, leafWord_eq]
  omega

theorem tableWord_valid : tableWord pt &&& PTE_V ≠ 0 := by
  rw [and_valid, tableWord_eq]
  omega

theorem pte2pa_eq : PTE2PA w = w / 2 ^ 10 * 2 ^ 12 % 2 ^ 64 := by
  rw [PTE2PA, Nat.shiftLeft_eq, Nat.shiftRight_eq_div_pow]

theorem pte2pa_tableWord (hal : pt % PGSIZE = 0) (hpt : pt < 2 ^ 64) : PTE2PA (tableWord pt) = pt := by
  rw [pte2pa_eq, tableWord_eq]
  simp only [PGSIZE] at *
  omega

theorem pte2pa_leafWord (hpa : pa < 2 ^ 64) : PTE2PA (leafWord pa perm) = pa / PGSIZE * PGSIZE := by
  have := @perm_or_lt perm
  rw [pte2pa_eq, leafWord_eq]
  simp only [PGSIZE] at *
  omega

theorem pteFlags_leafWord : PTE_FLAGS (leafWord pa perm) = (perm : ℕ) ||| PTE_V := by
  have hlt := @perm_or_lt perm
  have hmod : PTE_FLAGS (leafWord pa perm) = leafWord pa perm % 2 ^ 10 := Nat.and_two_pow_sub_one_eq_mod _ 10
  rw [hmod, leafWord_eq, Nat.mul_add_mod, Nat.mod_eq_of_lt hlt]

theorem leafWord_and {m : ℕ} (hm : m < 2 ^ 10) : leafWord pa perm &&& m = ((perm : ℕ) ||| PTE_V) &&& m := by
  have hand : ∀ x, x &&& m = (x % 2 ^ 10) &&& m := by
    intro x
    have hm' : (2 ^ 10 - 1) &&& m = m := by rw [Nat.and_comm, Nat.and_two_pow_sub_one_eq_mod, Nat.mod_eq_of_lt hm]
    rw [← Nat.and_two_pow_sub_one_eq_mod, Nat.and_assoc, hm']
  have hflags : leafWord pa perm % 2 ^ 10 = ((perm : ℕ) ||| PTE_V) % 2 ^ 10 := by
    rw [leafWord_eq, Nat.mul_add_mod]
  rw [hand, hflags, ← hand]

/-! ## Digits -/

theorem px_eq : PX level va = va / 2 ^ 12 / 2 ^ (9 * level) % 512 := by
  have hand : PX level va = (va >>> PXSHIFT level) % 2 ^ 9 := Nat.and_two_pow_sub_one_eq_mod _ 9
  rw [hand, Nat.shiftRight_eq_div_pow, PXSHIFT, pow_add, Nat.div_div_eq_div_mul]
  rfl

theorem px_lt : PX level va < 512 := by
  rw [px_eq]
  exact Nat.mod_lt _ (by norm_num)

def digits (va k : ℕ) : List ℕ := (List.range k).map fun j => PX (2 - j) va

theorem digits_succ : digits va (k + 1) = digits va k ++ [PX (2 - k) va] := by
  rw [digits, List.range_succ, List.map_append]
  rfl

theorem digits_length : (digits va k).length = k := by simp [digits]

def key (va : ℕ) : List ℕ := digits va 3

theorem key_page (h : a / PGSIZE = b / PGSIZE) : key a = key b := by
  grind [PX, px_eq, key, digits]

theorem key_injective (ha : a < MAXVA) (hb : b < MAXVA) (h : key a = key b) : a / PGSIZE = b / PGSIZE := by
  simp only [key, digits, List.range_succ, List.range_zero, List.nil_append, List.cons_append,
    List.map_cons, List.map_nil,
    List.cons.injEq, and_true, px_eq] at h
  simp only [MAXVA, PGSIZE] at *
  omega

/-! ## Words of tables -/

def words (s : St) (f i : ℕ) : ℕ := loadWord s (f + 8 * i)

theorem words_congr (h : ∀ x, f ≤ x → x < f + PGSIZE → s'.pmm.mem x = s.pmm.mem x) (hi : i < 512) :
    words s' f i = words s f i := by
  apply loadN_congr
  intro x h1 h2
  apply h
  · omega
  · simp only [PGSIZE]
    omega

theorem words_store (hs : s'.pmm.mem = storeN s.pmm.mem (f + 8 * i) 8 w) (hf : f % PGSIZE = 0) (hg : g % PGSIZE = 0)
    (hi : i < 512) (hj : j < 512) (hne : (g, j) ≠ (f, i)) : words s' g j = words s g j := by
  rw [words, loadWord, hs]
  apply loadN_storeN_of_disjoint
  grind

theorem words_store_self (hs : s'.pmm.mem = storeN s.pmm.mem (f + 8 * i) 8 w) (hw : w < 2 ^ 64) : words s' f i = w := by
  rw [words, loadWord, hs]
  exact loadN_storeN_self (by norm_num; exact hw)

/-! ## The tree of tables -/

/-- a page that can hold a table -/
structure TablePage (f : ℕ) : Prop where
  aligned : f % PGSIZE = 0
  fits : f + PGSIZE ≤ 2 ^ 64
  nonzero : f ≠ 0

/-- the tables below `root`, and what the entries at the bottom hold -/
structure Rep (root : ℕ) (s : St) (node : List ℕ → Option ℕ) (leaf : List ℕ → ℕ) : Prop where
  tree : Tree 512 2 tableWord (words s) node leaf
  root : node [] = some root
  page : ∀ p f, node p = some f → TablePage f ∧ f ∈ s.tables

variable {node : List ℕ → Option ℕ} {leaf : List ℕ → ℕ}

section

variable (h : Rep root s node leaf)

include h

theorem Rep.congr (ht : s'.tables = s.tables)
    (hm : ∀ f, f ∈ s.tables → TablePage f → ∀ x, f ≤ x → x < f + PGSIZE → s'.pmm.mem x = s.pmm.mem x) :
    Rep root s' node leaf where
  tree := by
    apply h.tree.congr
    intro p f i hp hi
    obtain ⟨hpage, hmem⟩ := h.page p f hp
    exact words_congr (hm f hmem hpage) hi
  root := h.root
  page p f hp := by
    rw [ht]
    exact h.page p f hp

theorem Rep.word {p : List ℕ} (hp : node p = some pt) (hlen : p.length < 2) (hi : i < 512) :
    loadWord s (pt + 8 * i) = (node (p ++ [i])).elim 0 tableWord := h.tree.inner p pt i hp hlen hi

theorem Rep.below {p : List ℕ} (hp : node p = some f) (hw : loadWord s a = tableWord f) :
    loadWord s a &&& PTE_V ≠ 0 ∧ PTE2PA (loadWord s a) = f := by
  obtain ⟨⟨hal, hfit, -⟩, -⟩ := h.page p f hp
  rw [hw]
  refine ⟨tableWord_valid, pte2pa_tableWord hal ?_⟩
  simp only [PGSIZE] at hfit
  omega

omit h in
theorem digits_level (hle : level + 1 ≤ 2) :
    digits va (2 - level) = digits va (2 - (level + 1)) ++ [PX (level + 1) va] := by
  have h1 : 2 - level = 2 - (level + 1) + 1 := by omega
  have h2 : 2 - (2 - (level + 1)) = level + 1 := by omega
  rw [h1, digits_succ, h2]

theorem Rep.none_bottom (hle : level ≤ 2) (hn : node (digits va (2 - level)) = none) : node (digits va 2) = none := by
  have hsplit : ∃ l, digits va 2 = digits va (2 - level) ++ l := by
    obtain rfl | rfl | rfl : level = 0 ∨ level = 1 ∨ level = 2 := by omega
    · exact ⟨[], by simp⟩
    · exact ⟨_, digits_succ⟩
    · exact ⟨_, (List.nil_append _).symm⟩
  obtain ⟨l, hl⟩ := hsplit
  rw [hl]
  exact h.tree.none_append hn l

/-- **`page_walk` without allocation reads the tree**: it returns the address of the entry if the tree has the table for
it, and 0 otherwise, and changes nothing. -/
theorem walk_false : ∀ level pt, level ≤ 2 → node (digits va (2 - level)) = some pt →
      walkLoop va false level pt s = .ok (((node (digits va 2)).elim 0 fun f => f + 8 * PX 0 va), s) := by
  intro level
  -- level by level downwards: the table of the next level is the one that the digit selects
  induction level with
  | zero =>
    intro pt _ hpt
    rw [walkLoop, show digits va 2 = digits va (2 - 0) from rfl, hpt]
    rfl
  | succ level ih =>
    intro pt hle hpt
    have hlen : (digits va (2 - (level + 1))).length < 2 := by
      rw [digits_length]
      omega
    have hword := h.word hpt hlen (@px_lt va (level + 1))
    rw [← digits_level hle] at hword
    show (if loadWord s (pt + 8 * PX (level + 1) va) &&& PTE_V ≠ 0 then _ else _ : M ℕ) s = _
    cases hn : node (digits va (2 - level)) with
    | none =>
      rw [hn] at hword
      rw [hword, h.none_bottom (by omega) hn]
      rfl
    | some f =>
      rw [hn] at hword
      obtain ⟨hv, hpa⟩ := h.below hn hword
      rw [if_pos hv, hpa]
      exact ih f (by omega) hn

theorem pageWalk_false (hva : va < MAXVA) :
    pageWalk root va false s = .ok (((node (digits va 2)).elim 0 fun f => f + 8 * PX 0 va), s) := by
  rw [pageWalk, if_neg (by omega)]
  exact walk_false h 2 root (le_refl 2) h.root

theorem Rep.leaf_word (hf : node (digits va 2) = some f) : loadWord s (f + 8 * PX 0 va) = leaf (key va) := by
  have := h.tree.outer _ f (PX 0 va) hf digits_length px_lt
  rwa [show digits va 2 ++ [PX 0 va] = key va from digits_succ.symm] at this

theorem Rep.leaf_none (hf : node (digits va 2) = none) : leaf (key va) = 0 := by
  have := h.tree.bare _ (PX 0 va) hf digits_length
  rwa [show digits va 2 ++ [PX 0 va] = key va from digits_succ.symm] at this

end

/-! ## New tables -/

theorem lift_ok {α : Type} {x : Pmm.M α} {y : α} (h : lift x s = .ok (y, s')) :
    ∃ p, x s.pmm = .ok (y, p) ∧ s' = { s with pmm := p } := by
  unfold lift at h
  cases hx : x s.pmm with
  | error e =>
    rw [hx] at h
    cases h
  | ok r =>
    rw [hx] at h
    cases h
    exact ⟨r.2, rfl, rfl⟩

theorem allocTable_ok (h : allocTable s = .ok (n, s')) : s'.pmm.mem = s.pmm.mem ∧
      ((n = 0 ∧ s'.tables = s.tables) ∨ (TablePage n ∧ n ∉ s.tables ∧ s'.tables = n :: s.tables)) := by
  obtain ⟨x, s1, h1, h2⟩ := run_bind.1 h
  obtain ⟨p, hp, rfl⟩ := lift_ok h1
  have hmem : p.mem = s.pmm.mem := Pmm.allocPage_mem hp
  split at h2
  · grind
  · rename_i hx0
    rw [run_get_bind] at h2
    split at h2
    · cases h2
    · rename_i hok
      obtain ⟨u, s4, hset, h4⟩ := run_bind.1 h2
      cases hset
      cases h4
      push Not at hok
      exact ⟨hmem, .inr ⟨⟨hok.1, hok.2.1, hx0⟩, hok.2.2, rfl⟩⟩

theorem TablePage.disjoint (hf : TablePage f) (hg : TablePage g) (hne : f ≠ g) {x : ℕ} (h1 : f ≤ x)
    (h2 : x < f + PGSIZE) :
    ¬ (g ≤ x ∧ x < g + PGSIZE) := by
  have := hf.aligned
  have := hg.aligned
  simp only [PGSIZE] at *
  omega

theorem Rep.attach (h : Rep root s node leaf) {p : List ℕ} (hp : node p = some pt) (hlen : p.length < 2) (hi : i < 512)
    (hnone : node (p ++ [i]) = none) (hn : TablePage n) (hfresh : n ∉ s.tables) (ht : s'.tables = n :: s.tables)
    (hm : s'.pmm.mem = storeN (fun x => if n ≤ x ∧
      x < n + PGSIZE then 0 else s.pmm.mem x) (pt + 8 * i) 8 (tableWord n)) :
    Rep root s' (update node (p ++ [i]) (some n)) leaf where
  tree := by
    have hother : ∀ q f, node q = some f → f ≠ n := by
      intro q f hq he
      exact hfresh (he ▸ (h.page q f hq).2)
    let s1 : St := { s with pmm := { s.pmm with mem := fun x => if n ≤ x ∧ x < n + PGSIZE then 0 else s.pmm.mem x } }
    have hm1 : s'.pmm.mem = storeN s1.pmm.mem (pt + 8 * i) 8 (tableWord n) := hm
    have hpt := (h.page p pt hp).1
    have hsmall : n < 2 ^ 64 := by
      have := hn.fits
      simp only [PGSIZE] at this
      omega
    apply h.tree.attach hp hlen hnone
    · intro q hq
      exact hother q n hq rfl
    · exact words_store_self hm1 (tableWord_lt hsmall)
    · intro j hj
      rw [words_store hm1 hpt.aligned hn.aligned hi hj (by
        intro he
        exact hother p pt hp (Prod.mk.inj he).1.symm)]
      apply loadN_eq_zero
      intro x h1 h2
      apply if_pos
      simp only [PGSIZE]
      omega
    · intro q f j hq hj hne
      have hf := (h.page q f hq).1
      rw [words_store hm1 hpt.aligned hf.aligned hi hj hne]
      apply words_congr _ hj
      intro x h1 h2
      exact if_neg (hf.disjoint hn (hother q f hq) h1 h2)
  root := by
    rw [update_of_ne (by simp)]
    exact h.root
  page q f hq := by
    rw [ht]
    by_cases hqp : q = p ++ [i]
    · grind
    · rw [update_of_ne hqp] at hq
      exact ⟨(h.page q f hq).1, List.mem_cons_of_mem _ (h.page q f hq).2⟩

/-- **`page_walk` with allocation** adds tables, keeps the contents, and finds what a walk without allocation then
finds. -/
theorem walk_true : ∀ level pt s node, level ≤ 2 → Rep root s node leaf → node (digits va (2 - level)) = some pt →
      walkLoop va true level pt s = .ok (r, s') →
      ∃ node', Rep root s' node' leaf ∧ r = (node' (digits va 2)).elim 0 fun f => f + 8 * PX 0 va := by
  intro level
  induction level with
  | zero =>
    intro pt s node _ h hpt hx
    cases hx
    grind
  | succ level ih =>
    intro pt s node hle h hpt hx
    have hlen : (digits va (2 - (level + 1))).length < 2 := by
      rw [digits_length]
      omega
    have hword := h.word hpt hlen (@px_lt va (level + 1))
    rw [← digits_level hle] at hword
    have h1 := of_get_bind hx
    cases hn : node (digits va (2 - level)) with
    | some f =>
      rw [hn] at hword
      obtain ⟨hv, hpa⟩ := h.below hn hword
      rw [if_pos hv, hpa] at h1
      exact ih f s node (by omega) h hn h1
    | none =>
      rw [hn] at hword
      have hv : ¬ (loadWord s (pt + 8 * PX (level + 1) va) &&& PTE_V ≠ 0) := by
        rw [hword]
        decide
      rw [if_neg hv, if_pos rfl] at h1
      obtain ⟨t, s3, halloc, h2⟩ := run_bind.1 h1
      obtain ⟨hmem, ⟨rfl, ht⟩ | ⟨htp, hfresh, ht⟩⟩ := allocTable_ok halloc
      · cases h2
        refine ⟨node, h.congr ht (fun f _ _ x _ _ => by rw [hmem]), ?_⟩
        rw [h.none_bottom (by omega) hn]
        rfl
      · rw [if_neg htp.nonzero] at h2
        obtain ⟨u, s4, hzero, h3⟩ := run_bind.1 h2
        obtain ⟨u', s5, hstore, h4⟩ := run_bind.1 h3
        have ht5 : s5.tables = t :: s.tables := by
          rw [← run_modify.1 hstore, ← run_modify.1 hzero]
          exact ht
        have hm5 : s5.pmm.mem = storeN (fun x => if t ≤ x ∧ x < t + PGSIZE then 0 else s.pmm.mem x)
            (pt + 8 * PX (level + 1) va) 8 (tableWord t) := by
          rw [← run_modify.1 hstore, ← run_modify.1 hzero, ← hmem]
          rfl
        rw [digits_level hle] at hn
        -- the walk goes on in the table that was hooked in
        refine ih t s5 _ (by omega) (h.attach hpt hlen px_lt hn htp hfresh ht5 hm5) ?_ h4
        rw [digits_level hle, update_self]

end RiscvPke.Vmm
