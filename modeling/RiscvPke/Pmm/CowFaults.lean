/-
Copy-on-write faults of several harts at once (kernel/strap.c, kernel/pmm.c): `get_page_ref`, `alloc_page` with the
copy, `dec_page_ref`, `free_page` and the writes of a page table entry are single steps, and the handlers and the exits
of different processes interleave.
-/
import RiscvPke.Core.Count
import RiscvPke.Pmm.FreeList

namespace RiscvPke.CowFaults

open Function RiscvPke.Count RiscvPke.System
open Pmm (page getPageRef npages indexOf managed)

/-! ## The model -/

/-- a page table entry of the heap: valid, and `PTE_COW` or `PTE_W` -/
structure Pte where
  pa : ℕ
  cow : Bool
deriving DecidableEq

/-- where a process is in the kernel, with the virtual page and the addresses it has read -/
inductive Pc where
  | idle
  /-- `get_page_ref` gave more than 1 -/
  | copying (v old : ℕ)
  | copied (v old new : ℕ)
  /-- after `dec_page_ref` -/
  | installing (v old new : ℕ)
  /-- `get_page_ref` gave 1 -/
  | keeping (v old : ℕ)
  /-- after `free_page` in `user_vm_unmap` -/
  | clearing (v pa : ℕ)
deriving DecidableEq

structure St where
  pmm : Pmm.St
  /-- by process and virtual page -/
  ptes : ℕ × ℕ → Option Pte
  pc : ℕ → Pc
  own : ℕ → Option ℕ

inductive Op where
  | test (p v : ℕ)
  | copy (p : ℕ)
  | dec (p : ℕ)
  | install (p : ℕ)
  | free (p v : ℕ)
  | clear (p : ℕ)
deriving DecidableEq

def St.goto (t : St) (p : ℕ) (c : Pc) : St := { t with pc := update t.pc p c }

def St.setPte (t : St) (p v : ℕ) (e : Option Pte) : St := { t with ptes := update t.ptes (p, v) e }

def copyPage (new old : ℕ) (s : Pmm.St) : Pmm.St :=
  { s with mem := fun x => if new ≤ x ∧ x < new + PGSIZE then s.mem (old + (x - new)) else s.mem x }

/-- `handle_user_page_fault` at an entry with `PTE_COW`, and `user_vm_unmap` of a page, step by step -/
def step (t : St) : Op → Except Pmm.Fault St
  | .test p v =>
    match t.pc p, t.ptes (p, v) with
    | .idle, some e =>
      if e.cow then .ok (t.goto p (if 1 < getPageRef t.pmm e.pa then .copying v e.pa else .keeping v e.pa))
      else .error (.stop .disabled)
    | _, _ => .error (.stop .disabled)
  | .copy p =>
    match t.pc p with
    | .copying v old =>
      (Pmm.allocPage t.pmm).bind fun (new, pmm) =>
        if new = 0 then .error (.stop .nullPointer) else
          .ok ({ t with pmm := copyPage new old pmm }.goto p (.copied v old new))
    | _ => .error (.stop .disabled)
  | .dec p =>
    match t.pc p with
    | .copied v old new => (Pmm.decPageRef old t.pmm).map fun (_, pmm) =>
      { t with pmm := pmm }.goto p (.installing v old new)
    | _ => .error (.stop .disabled)
  | .install p =>
    match t.pc p with
    | .installing v _ new => .ok ((t.setPte p v (some ⟨new, false⟩)).goto p .idle)
    | .keeping v old => .ok ((t.setPte p v (some ⟨old, false⟩)).goto p .idle)
    | _ => .error (.stop .disabled)
  | .free p v =>
    match t.pc p, t.ptes (p, v) with
    | .idle, some e => (Pmm.freePage e.pa t.pmm).map fun (_, pmm) => { t with pmm := pmm }.goto p (.clearing v e.pa)
    | _, _ => .error (.stop .disabled)
  | .clear p =>
    match t.pc p with
    | .clearing v _ => .ok ((t.setPte p v none).goto p .idle)
    | _ => .error (.stop .disabled)

/-! ## The condition -/

def Pc.pending : Pc → Option ℕ
  | .copying _ old => some old
  | .copied _ old _ => some old
  | _ => none

/-- no handler is between its test and its decrement at the page of an entry -/
def Alone (t : St) (p v : ℕ) : Prop := ∀ e, t.ptes (p, v) = some e → ∀ q, (t.pc q).pending ≠ some e.pa

def Allowed (t : St) : Op → Prop
  | .test p v => Alone t p v
  | .free p v => Alone t p v
  | _ => True

/-! ## Who holds a page -/

def Pc.gone : Pc → ℕ → Bool
  | .installing v _ _, w => v == w
  | .clearing v _, w => v == w
  | _, _ => false

def Pc.fresh : Pc → Option ℕ
  | .copied _ _ new => some new
  | .installing _ _ new => some new
  | _ => none

abbrev Holder := (ℕ × ℕ) ⊕ ℕ ⊕ ℕ

def ref (t : St) : Holder → Option ℕ
  | .inl (p, v) => if (t.pc p).gone v then none else (t.ptes (p, v)).map (·.pa)
  | .inr (.inl p) => (t.pc p).fresh
  | .inr (.inr j) => t.own j

/-- the counts of the page allocator are the numbers of the holders -/
structure Held (t : St) : Prop where
  pages : ∃ l, Pmm.Inv t.pmm l
  counts : ∀ k < npages t.pmm, ∃ n : ℕ, t.pmm.page_ref_count k = n ∧ Counted (ref t) (page t.pmm k) n
  managed : ∀ x pa, ref t x = some pa → ∃ k < npages t.pmm, pa = page t.pmm k

def Quiet (t : St) : Prop := ∀ p, t.pc p = .idle

def Start (t : St) : Prop := Held t ∧ Quiet t

variable {t t' : St} {p q v w k n pa new old : ℕ} {c : Pc} {e : Option Pte} {cow : Bool} {x : Holder} {s : Pmm.St}
  {l : List ℕ} {op : Op}

theorem ref_step (hpc : t'.pc = update t.pc p c) (hptes : t'.ptes = update t.ptes (p, v) e) (hown : t'.own = t.own)
    (hgone : ∀ w, w ≠ v → c.gone w = (t.pc p).gone w) :
    ref t' = update (update (ref t) (.inr (.inl p)) c.fresh) (.inl (p,
      v)) (if c.gone v then none else e.map (·.pa)) := by
  funext x
  match x with
  | .inr (.inr j) => simp [ref, hown]
  | .inr (.inl q) =>
    by_cases hq : q = p
    · subst hq
      simp [ref, hpc]
    · simp [ref, hpc, hq]
  | .inl (q, w) =>
    by_cases hq : q = p
    · subst hq
      by_cases hw : w = v
      · subst hw
        simp [ref, hpc, hptes]
      · simp [ref, hpc, hptes, hw, hgone w hw]
    · simp [ref, hpc, hptes, hq]

def Pc.at : Pc → Option (ℕ × ℕ)
  | .copying v old => some (v, old)
  | .copied v old _ => some (v, old)
  | .keeping v old => some (v, old)
  | _ => none

/-- what a handler knows of its entry, and of the page it is going to decrement -/
structure Sound (t : St) : Prop where
  held : Held t
  entry : ∀ p v old, (t.pc p).at = some (v, old) → ∃ cow, t.ptes (p, v) = some ⟨old, cow⟩
  pending : ∀ p pa, (t.pc p).pending = some pa → 2 ≤ getPageRef t.pmm pa ∧ ∀ q, (t.pc q).pending = some pa → q = p

theorem Held.entry (h : Held t) (hx : ref t x = some pa) : ∃ k < npages t.pmm, ∃ n : ℕ, pa = page t.pmm k ∧
    t.pmm.page_ref_count k = n ∧ 0 < n ∧ Counted (ref t) pa n := by
  obtain ⟨k, hk, rfl⟩ := h.managed x pa hx
  obtain ⟨n, hcount, hn⟩ := h.counts k hk
  exact ⟨k, hk, n, rfl, hcount, hn.pos hx, hn⟩

theorem Held.same (h : Held t) (hpmm : t'.pmm = t.pmm) (href : ref t' = ref t) : Held t' := by
  refine ⟨?_, ?_, ?_⟩
  · rw [hpmm]
    exact h.pages
  · rw [hpmm, href]
    exact h.counts
  · rw [hpmm, href]
    exact h.managed

theorem Held.add (h : Held t) (hinv : ∃ l, Pmm.Inv t'.pmm l) (hnew : ref t x = none) (hk : k < npages t.pmm)
    (hzero : t.pmm.page_ref_count k = 0) (hpages : npages t'.pmm = npages t.pmm ∧ ∀ j, page t'.pmm j = page t.pmm j)
    (hcount : t'.pmm.page_ref_count = update t.pmm.page_ref_count k 1)
    (href : ref t' = update (ref t) x (some (page t.pmm k))) : Held t' := by
  refine ⟨hinv, fun j hj => ?_, fun y pa hy => ?_⟩
  · rw [hpages.1] at hj
    rw [hpages.2, href, hcount]
    obtain ⟨n, hn, hcounted⟩ := h.counts j hj
    by_cases hjk : j = k
    · subst hjk
      obtain rfl : n = 0 := by omega
      rw [update_self]
      exact ⟨1, rfl, hcounted.add (by rw [hnew]; exact nofun)⟩
    · rw [update_of_ne hjk]
      refine ⟨n, hn, hcounted.other (by rw [hnew]; exact nofun) ?_⟩
      intro he
      exact hjk (Pmm.page_injective.1 (Option.some.inj he)).symm
  · rw [hpages.1]
    simp only [hpages.2]
    rw [href] at hy
    by_cases hyx : y = x
    · grind
    · rw [update_of_ne hyx] at hy
      exact h.managed y pa hy

theorem Held.remove (h : Held t) (hinv : ∃ l, Pmm.Inv t'.pmm l) (hx : ref t x = some (page t.pmm k))
    (hpages : npages t'.pmm = npages t.pmm ∧ ∀ j, page t'.pmm j = page t.pmm j)
    (hcount : t'.pmm.page_ref_count = update t.pmm.page_ref_count k (t.pmm.page_ref_count k - 1))
    (href : ref t' = update (ref t) x none) : Held t' := by
  refine ⟨hinv, fun j hj => ?_, fun y pa hy => ?_⟩
  · rw [hpages.1] at hj
    rw [hpages.2, href, hcount]
    obtain ⟨n, hn, hcounted⟩ := h.counts j hj
    by_cases hjk : j = k
    · subst hjk
      have hpos := hcounted.pos hx
      rw [update_self]
      exact ⟨n - 1, by omega, hcounted.remove hx nofun⟩
    · rw [update_of_ne hjk]
      refine ⟨n, hn, hcounted.other ?_ nofun⟩
      rw [hx]
      intro he
      exact hjk (Pmm.page_injective.1 (Option.some.inj he)).symm
  · rw [hpages.1]
    simp only [hpages.2]
    rw [href] at hy
    by_cases hyx : y = x
    · subst hyx
      rw [update_self] at hy
      cases hy
    · rw [update_of_ne hyx] at hy
      exact h.managed y pa hy

theorem Held.pass {y : Holder} (h : Held t) (hpmm : t'.pmm = t.pmm) (hx : ref t x = some pa) (hy : ref t y = none)
    (href : ref t' = update (update (ref t) x none) y (some pa)) : Held t' := by
  have hne : y ≠ x := ne_of_none hx hy
  refine ⟨by rw [hpmm]; exact h.pages, fun j hj => ?_, fun z pa' hz => ?_⟩
  · rw [hpmm] at hj ⊢
    rw [href]
    obtain ⟨n, hn, hcounted⟩ := h.counts j hj
    refine ⟨n, hn, ?_⟩
    by_cases hj' : pa = page t.pmm j
    · subst hj'
      have hpos := hcounted.pos hx
      have hless := hcounted.remove hx (show (none : Option ℕ) ≠ some (page t.pmm j) from nofun)
      have hmore := hless.add (k := y) (by rw [update_of_ne hne, hy]; exact nofun)
      rwa [Nat.sub_add_cancel hpos] at hmore
    · have hless := hcounted.other (k := x) (o := none) (by rw [hx]; exact fun he => hj' (Option.some.inj he)) nofun
      exact hless.other (by rw [update_of_ne hne, hy]; exact nofun) fun he => hj' (Option.some.inj he)
  · rw [hpmm]
    rw [href] at hz
    by_cases hzy : z = y
    · subst hzy
      rw [update_self] at hz
      cases hz
      exact h.managed x _ hx
    · rw [update_of_ne hzy] at hz
      by_cases hzx : z = x
      · subst hzx
        rw [update_self] at hz
        cases hz
      · rw [update_of_ne hzx] at hz
        exact h.managed z _ hz

/-! ## Steps -/

theorem Sound.step_of (h : Sound t) (hpc : t'.pc = update t.pc p c) (hptes : t'.ptes = update t.ptes (p, v) e)
    (hheld : Held t') (hentry : ∀ w old, c.at = some (w, old) → ∃ cow, t'.ptes (p, w) = some ⟨old, cow⟩)
    (hself : ∀ pa, c.pending = some pa → 2 ≤ getPageRef t'.pmm pa ∧ ∀ q, q ≠ p → (t.pc q).pending ≠ some pa)
    (hothers : ∀ q, q ≠ p → ∀ pa, (t.pc q).pending = some pa → 2 ≤ getPageRef t'.pmm pa) : Sound t' := by
  have hp : t'.pc p = c := by rw [hpc, update_self]
  have hq : ∀ q, q ≠ p → t'.pc q = t.pc q := fun q hne => by rw [hpc, update_of_ne hne]
  refine ⟨hheld, fun q w old hat => ?_, fun q pa hpa => ?_⟩
  · by_cases hqp : q = p
    · subst hqp
      rw [hp] at hat
      exact hentry w old hat
    · rw [hq q hqp] at hat
      rw [hptes, update_of_ne (fun he => hqp (Prod.ext_iff.1 he).1)]
      exact h.entry q w old hat
  · by_cases hqp : q = p
    · subst hqp
      grind
    · rw [hq q hqp] at hpa
      refine ⟨hothers q hqp pa hpa, fun q' hq' => ?_⟩
      by_cases hq'p : q' = p
      · grind
      · rw [hq q' hq'p] at hq'
        exact (h.pending q pa hpa).2 q' hq'

theorem ref_fresh (hpc : t.pc p = c) : ref t (.inr (.inl p)) = c.fresh := congrArg Pc.fresh hpc

theorem ref_entry (hgone : (t.pc p).gone v = false) (hpte : t.ptes (p, v) = some ⟨pa, cow⟩) :
    ref t (.inl (p, v)) = some pa := by
  simp [ref, hgone, hpte]

theorem ref_goto (v : ℕ) (hgone : ∀ w, w ≠ v → c.gone w = (t.pc p).gone w) : ref ({ t with pmm := s }.goto p c) =
    update (update (ref t) (.inr (.inl p)) c.fresh) (.inl (p,
      v)) (if c.gone v then none else (t.ptes (p, v)).map (·.pa)) :=
  ref_step rfl (update_eq_self _ _).symm rfl hgone

theorem ref_setPte (hgone : ∀ w, w ≠ v → c.gone w = (t.pc p).gone w) : ref ((t.setPte p v e).goto p c) =
    update (update (ref t) (.inr (.inl p)) c.fresh) (.inl (p, v)) (if c.gone v then none else e.map (·.pa)) :=
  ref_step rfl rfl rfl hgone

theorem Sound.page_of (h : Sound t) (hpa : (t.pc q).pending = some pa) : ∃ j < npages t.pmm, pa = page t.pmm j := by
  have hat : ∃ v, (t.pc q).at = some (v, pa) ∧ (t.pc q).gone v = false := by
    cases hpc : t.pc q <;> rw [hpc] at hpa <;> cases hpa
    · exact ⟨_, rfl, rfl⟩
    · exact ⟨_, rfl, rfl⟩
  obtain ⟨v, hat, hgone⟩ := hat
  obtain ⟨cow, hpte⟩ := h.entry q v pa hat
  exact h.held.managed _ _ (ref_entry hgone hpte)

theorem Sound.test (h : Sound t) (hpc : t.pc p = .idle) (hpte : t.ptes (p, v) = some ⟨pa, cow⟩) (halone : Alone t p v) :
    Sound (t.goto p (if 1 < getPageRef t.pmm pa then .copying v pa else .keeping v pa)) := by
  have hentry : ref t (.inl (p, v)) = some pa := ref_entry (by rw [hpc]; rfl) hpte
  have hfresh : ref t (.inr (.inl p)) = none := ref_fresh hpc
  have hheld : ∀ c : Pc, c.fresh = none → (∀ w, c.gone w = false) → Held (t.goto p c) := by
    intro c hc hgone
    refine h.held.same rfl ((ref_goto (s := t.pmm) v fun w _ => by rw [hgone, hpc]; rfl).trans ?_)
    grind
  have halone' : ∀ q, (t.pc q).pending ≠ some pa := halone _ hpte
  have hothers : ∀ q, q ≠ p → ∀ pa, (t.pc q).pending = some pa → 2 ≤ getPageRef t.pmm pa :=
    fun q _ pa hpa => (h.pending q pa hpa).1
  split_ifs with hshared
  · refine h.step_of (v := v) rfl (update_eq_self _ _).symm (hheld _ rfl fun _ => rfl) (fun w old hat => ?_)
      (fun pa' hpa' => ?_) hothers
    · cases hat
      exact ⟨cow, hpte⟩
    · cases hpa'
      exact ⟨hshared, fun q _ => halone' q⟩
  · refine h.step_of (v := v) rfl (update_eq_self _ _).symm (hheld _ rfl fun _ => rfl) (fun w old hat => ?_)
      (fun pa' hpa' => nomatch hpa') hothers
    cases hat
    exact ⟨cow, hpte⟩

theorem two_le_of_count {s' : Pmm.St} (hstart : s'.free_mem_start_addr = s.free_mem_start_addr) {i : ℤ}
    (hcount : s'.page_ref_count = update s.page_ref_count k i) (htwo : 2 ≤ getPageRef s pa)
    (hne : indexOf s pa ≠ some k) :
    2 ≤ getPageRef s' pa := by
  have hindex : indexOf s' pa = indexOf s pa := by
    unfold indexOf Pmm.getPageIndex
    rw [hstart]
  unfold getPageRef at htwo ⊢
  rw [hindex]
  cases hi : indexOf s pa with
  | none =>
    rw [hi] at htwo
    exact htwo
  | some j =>
    rw [hi] at htwo hne
    have hjk : j ≠ k := fun he => hne (by rw [he])
    show 2 ≤ s'.page_ref_count j
    rw [hcount, update_of_ne hjk]
    exact htwo

theorem Sound.others {s' : Pmm.St} {i : ℤ} (h : Sound t) (hstart : s'.free_mem_start_addr = t.pmm.free_mem_start_addr)
    (hcount : s'.page_ref_count = update t.pmm.page_ref_count k i) (hne : pa ≠ page t.pmm k)
    (hpa : (t.pc q).pending = some pa) :
    2 ≤ getPageRef s' pa := by
  obtain ⟨l, hinv⟩ := h.held.pages
  obtain ⟨j, hj, rfl⟩ := h.page_of hpa
  refine two_le_of_count hstart hcount (h.pending q _ hpa).1 ?_
  rw [hinv.layout.index_page hj]
  intro he
  exact hne (by rw [Option.some.inj he])

theorem Sound.copy (h : Sound t) (hpc : t.pc p = .copying v old) (halloc : Pmm.allocPage t.pmm = .ok (new, s))
    (hnew : new ≠ 0) :
    Sound ({ t with pmm := copyPage new old s }.goto p (.copied v old new)) := by
  obtain ⟨l, hinv⟩ := h.held.pages
  obtain ⟨k, l', rfl, rfl, hinv', hzero⟩ := Pmm.allocPage_cases hinv halloc hnew
  have hk : k < npages t.pmm := hinv'.lt (show 1 ≤ (t.pmm.taken k).page_ref_count k from Pmm.taken_count.ge)
  have hwrite : Pmm.Inv (copyPage (page t.pmm k) old (t.pmm.taken k)) l' := by
    refine hinv'.write (k := k) (hinv'.not_mem Pmm.taken_count.ge) fun x hx => if_neg ?_
    have hx : x < page t.pmm k ∨ page t.pmm k + PGSIZE ≤ x := hx
    omega
  have hfresh : ref t (.inr (.inl p)) = none := ref_fresh hpc
  obtain ⟨cow, hpte⟩ := h.entry p v old (by rw [hpc]; rfl)
  have hentry : ref t (.inl (p, v)) = some old := ref_entry (by rw [hpc]; rfl) hpte
  have hheld : Held ({ t with pmm := copyPage (page t.pmm k) old (t.pmm.taken k) }.goto p
    (.copied v old (page t.pmm k))) := by
    refine h.held.add ⟨l', hwrite⟩ hfresh hk hzero ⟨rfl,
      fun _ => rfl⟩ rfl ((ref_goto v fun w _ => by rw [hpc]; rfl).trans ?_)
    rw [hpte]
    refine update_eq_self_iff.2 ?_
    rw [update_of_ne Sum.inl_ne_inr, hentry]
    rfl
  have htwo : ∀ q pa, (t.pc q).pending = some pa → 2 ≤ getPageRef (copyPage (page t.pmm k) old (t.pmm.taken k)) pa := by
    intro q pa hpa
    have htwo := (h.pending q pa hpa).1
    refine two_le_of_count (s := t.pmm) (k := k) rfl rfl htwo fun hi => ?_
    unfold getPageRef at htwo
    grind
  refine h.step_of (v := v) rfl (update_eq_self _ _).symm hheld (fun w old' hat => ?_) (fun pa hpa => ?_) fun q _ =>
    htwo q
  · cases hat
    exact ⟨cow, hpte⟩
  · cases hpa
    have hp : (t.pc p).pending = some old := by rw [hpc]; rfl
    exact ⟨htwo p old hp, fun q hq hpa => hq ((h.pending p old hp).2 q hpa)⟩

theorem Sound.dec (h : Sound t) (hpc : t.pc p = .copied v old new) (hdec : Pmm.decPageRef old t.pmm = .ok ((), s)) :
    Sound ({ t with pmm := s }.goto p (.installing v old new)) := by
  obtain ⟨l, hinv⟩ := h.held.pages
  obtain ⟨cow, hpte⟩ := h.entry p v old (by rw [hpc]; rfl)
  have hentry : ref t (.inl (p, v)) = some old := ref_entry (by rw [hpc]; rfl) hpte
  have hfresh : ref t (.inr (.inl p)) = some new := ref_fresh hpc
  have hp : (t.pc p).pending = some old := by rw [hpc]; rfl
  obtain ⟨htwo, hunique⟩ := h.pending p old hp
  obtain ⟨k, hk, rfl⟩ := h.held.managed _ _ hentry
  rw [hinv.layout.ref_page hk] at htwo
  obtain rfl := Pmm.decPageRef_run hinv.layout hk (by omega) hdec
  have hheld : Held ({ t with pmm := t.pmm.withCount k (t.pmm.page_ref_count k - 1) }.goto p
    (.installing v (page t.pmm k) new)) := by
    refine h.held.remove ⟨l, hinv.setCount (by omega) (by omega)⟩ hentry ⟨rfl, fun _ => rfl⟩ rfl
      ((ref_goto v fun w hw => by rw [hpc]; simp [Pc.gone, hw.symm]).trans ?_)
    have hsame : update (ref t) (.inr (.inl p)) (Pc.installing v (page t.pmm k) new).fresh = ref t :=
      update_eq_self_iff.2 hfresh.symm
    rw [hsame]
    simp [Pc.gone]
  refine h.step_of (v := v) rfl (update_eq_self _ _).symm hheld (fun w old' hat => nomatch hat)
    (fun pa hpa => nomatch hpa)
    fun q hq pa hpa => h.others rfl rfl (fun he => hq (hunique q (he ▸ hpa))) hpa

theorem Sound.install (h : Sound t) (hpc : t.pc p = .installing v old new) :
    Sound ((t.setPte p v (some ⟨new, false⟩)).goto p .idle) := by
  have hfresh : ref t (.inr (.inl p)) = some new := ref_fresh hpc
  have hgone : ref t (.inl (p, v)) = none := by simp [ref, hpc, Pc.gone]
  have hheld : Held ((t.setPte p v (some ⟨new, false⟩)).goto p .idle) :=
    h.held.pass rfl hfresh hgone (ref_setPte fun w hw => by rw [hpc]; simp [Pc.gone, hw.symm])
  exact h.step_of rfl rfl hheld (fun w old' hat => nomatch hat) (fun pa hpa => nomatch hpa) fun q _ pa hpa =>
    (h.pending q pa hpa).1

theorem Sound.keep (h : Sound t) (hpc : t.pc p = .keeping v old) :
    Sound ((t.setPte p v (some ⟨old, false⟩)).goto p .idle) := by
  obtain ⟨cow, hpte⟩ := h.entry p v old (by rw [hpc]; rfl)
  have hentry : ref t (.inl (p, v)) = some old := ref_entry (by rw [hpc]; rfl) hpte
  have hheld : Held ((t.setPte p v (some ⟨old, false⟩)).goto p .idle) := by
    refine h.held.same rfl ((ref_setPte fun w hw => by rw [hpc]; rfl).trans ?_)
    have hfresh : (Pc.idle).fresh = ref t (.inr (.inl p)) := (ref_fresh hpc).symm
    rw [hfresh, update_eq_self]
    exact update_eq_self_iff.2 hentry.symm
  exact h.step_of rfl rfl hheld (fun w old' hat => nomatch hat) (fun pa hpa => nomatch hpa) fun q _ pa hpa =>
    (h.pending q pa hpa).1

theorem Sound.free (h : Sound t) (hpc : t.pc p = .idle) (hpte : t.ptes (p, v) = some ⟨pa, cow⟩) (halone : Alone t p v)
    (hfree : Pmm.freePage pa t.pmm = .ok ((), s)) : Sound ({ t with pmm := s }.goto p (.clearing v pa)) := by
  obtain ⟨l, hinv⟩ := h.held.pages
  have hentry : ref t (.inl (p, v)) = some pa := ref_entry (by rw [hpc]; rfl) hpte
  obtain ⟨k, hk, n, rfl, hn, hpos, -⟩ := h.held.entry hentry
  -- the page loses one holder, and goes to the free list with the last one
  have hs : (∃ l', Pmm.Inv s l') ∧ s.page_ref_count = update t.pmm.page_ref_count k (t.pmm.page_ref_count k - 1) ∧
      s.free_mem_start_addr = t.pmm.free_mem_start_addr ∧ s.free_mem_end_addr = t.pmm.free_mem_end_addr := by
    by_cases hshared : 1 < t.pmm.page_ref_count k
    · rw [Pmm.freePage_shared hinv.layout hk hshared] at hfree
      cases hfree
      exact ⟨⟨l, hinv.setCount (by omega) (by omega)⟩, rfl, rfl, rfl⟩
    · rw [Pmm.freePage_last hinv.layout hk hshared] at hfree
      cases hfree
      refine ⟨⟨k :: l, hinv.release hk (hinv.not_mem (by omega))⟩, ?_, rfl, rfl⟩
      rw [show t.pmm.page_ref_count k - 1 = 0 by omega]
      rfl
  obtain ⟨hinv', hcount, hstart, hend⟩ := hs
  have hpages : npages s = npages t.pmm ∧ ∀ j, page s j = page t.pmm j := by
    unfold npages page
    rw [hstart, hend]
    exact ⟨rfl, fun _ => rfl⟩
  have hfresh : (Pc.clearing v (page t.pmm k)).fresh = ref t (.inr (.inl p)) := (ref_fresh hpc).symm
  have hheld : Held ({ t with pmm := s }.goto p (.clearing v (page t.pmm k))) := by
    refine h.held.remove hinv' hentry hpages hcount
      ((ref_goto v fun w hw => by rw [hpc]; simp [Pc.gone, hw.symm]).trans ?_)
    rw [hfresh, update_eq_self]
    simp [Pc.gone]
  refine h.step_of (v := v) rfl (update_eq_self _ _).symm hheld (fun w old' hat => nomatch hat)
    (fun pa hpa => nomatch hpa)
    fun q hq pa hpa => h.others hstart hcount ?_ hpa
  rintro rfl
  exact halone _ hpte q hpa

theorem Sound.clear (h : Sound t) (hpc : t.pc p = .clearing v pa) : Sound ((t.setPte p v none).goto p .idle) := by
  have hheld : Held ((t.setPte p v none).goto p .idle) := by
    refine h.held.same rfl ((ref_setPte fun w hw => by rw [hpc]; simp [Pc.gone, hw.symm]).trans ?_)
    have hfresh : (Pc.idle).fresh = ref t (.inr (.inl p)) := (ref_fresh hpc).symm
    grind [ref, Pc.gone]
  exact h.step_of rfl rfl hheld (fun w old' hat => nomatch hat) (fun pa hpa => nomatch hpa) fun q _ pa hpa =>
    (h.pending q pa hpa).1

/-! ## Runs -/

/-- what a step can do -/
inductive Steps (t : St) : Op → St → Prop
  | test {p v : ℕ} {e : Pte} (hpc : t.pc p = .idle) (hpte : t.ptes (p, v) = some e) :
    Steps t (.test p v) (t.goto p (if 1 < getPageRef t.pmm e.pa then .copying v e.pa else .keeping v e.pa))
  | copy {p v old new : ℕ} {s : Pmm.St} (hpc : t.pc p = .copying v old) (halloc : Pmm.allocPage t.pmm = .ok (new,
    s)) (hnew : new ≠ 0) :
    Steps t (.copy p) ({ t with pmm := copyPage new old s }.goto p (.copied v old new))
  | dec {p v old new : ℕ} {s : Pmm.St} (hpc : t.pc p = .copied v old new)
    (hdec : Pmm.decPageRef old t.pmm = .ok ((), s)) :
    Steps t (.dec p) ({ t with pmm := s }.goto p (.installing v old new))
  | install {p v old new : ℕ} (hpc : t.pc p = .installing v old new) :
    Steps t (.install p) ((t.setPte p v (some ⟨new, false⟩)).goto p .idle)
  | keep {p v old : ℕ} (hpc : t.pc p = .keeping v old) :
    Steps t (.install p) ((t.setPte p v (some ⟨old, false⟩)).goto p .idle)
  | free {p v : ℕ} {e : Pte} {s : Pmm.St} (hpc : t.pc p = .idle) (hpte : t.ptes (p, v) = some e)
    (hfree : Pmm.freePage e.pa t.pmm = .ok ((), s)) :
    Steps t (.free p v) ({ t with pmm := s }.goto p (.clearing v e.pa))
  | clear {p v pa : ℕ} (hpc : t.pc p = .clearing v pa) : Steps t (.clear p) ((t.setPte p v none).goto p .idle)

theorem step_cases (hstep : step t op = .ok t') : Steps t op t' := by
  cases op with
  | test p v =>
    cases hpc : t.pc p <;> cases hpte : t.ptes (p, v) <;> simp only [step, hpc, hpte] at hstep <;> try cases hstep
    rename_i e
    by_cases hcow : e.cow = true
    · rw [if_pos hcow] at hstep
      cases hstep
      exact .test hpc hpte
    · rw [if_neg hcow] at hstep
      cases hstep
  | copy p =>
    cases hpc : t.pc p <;> simp only [step, hpc] at hstep <;> try cases hstep
    cases halloc : Pmm.allocPage t.pmm with
    | error e =>
      rw [halloc] at hstep
      cases hstep
    | ok r =>
      simp only [halloc, Except.bind] at hstep
      split_ifs at hstep with hnew
      cases hstep
      exact .copy hpc halloc hnew
  | dec p =>
    cases hpc : t.pc p <;> simp only [step, hpc] at hstep <;> try cases hstep
    obtain ⟨⟨⟨⟩, s⟩, hdec, rfl⟩ := map_ok hstep
    exact .dec hpc hdec
  | install p =>
    cases hpc : t.pc p <;> simp only [step, hpc] at hstep <;> cases hstep
    · exact .install hpc
    · exact .keep hpc
  | free p v =>
    cases hpc : t.pc p <;> cases hpte : t.ptes (p, v) <;> simp only [step, hpc, hpte] at hstep <;> try cases hstep
    obtain ⟨⟨⟨⟩, s⟩, hfree, rfl⟩ := map_ok hstep
    exact .free hpc hpte hfree
  | clear p =>
    cases hpc : t.pc p <;> simp only [step, hpc] at hstep <;> cases hstep
    exact .clear hpc

theorem Sound.step (h : Sound t) (hallowed : Allowed t op) (hstep : step t op = .ok t') : Sound t' := by
  cases step_cases hstep with
  | test hpc hpte => exact h.test hpc hpte hallowed
  | copy hpc halloc hnew => exact h.copy hpc halloc hnew
  | dec hpc hdec => exact h.dec hpc hdec
  | install hpc => exact h.install hpc
  | keep hpc => exact h.keep hpc
  | free hpc hpte hfree => exact h.free hpc hpte hallowed hfree
  | clear hpc => exact h.clear hpc

theorem sound_start (h : Start t) : Sound t := by
  obtain ⟨hheld, hquiet⟩ := h
  refine ⟨hheld, fun p v old hat => ?_, fun p pa hpa => ?_⟩
  · rw [hquiet p] at hat
    cases hat
  · rw [hquiet p] at hpa
    cases hpa

/-- **Copy-on-write faults.** A page is in the free list exactly when its count is 0, and while no handler and no exit
is at work the count of a heap page is the number of the entries that point to it. -/
theorem cow_faults_keep_pages {t : St} (h : Reach step Allowed Start t) :
    (∃ l, Pmm.FreeList t.pmm l ∧ ∀ pa ∈ Pmm.managed t.pmm, Pmm.getPageRef t.pmm pa = 0 → pa ∈ l) ∧
    (Quiet t → ∀ pa ∈ Pmm.managed t.pmm, (∀ j, t.own j ≠ some pa) →
      ∃ n : ℕ, Pmm.getPageRef t.pmm pa = n ∧ Counted (fun x => (t.ptes x).map (·.pa)) pa n) := by
  have hsound : Sound t := h.inv (fun t ht => sound_start ht) fun t op t' hsound hallowed hstep =>
    hsound.step hallowed hstep
  obtain ⟨⟨l, hinv⟩, hcounts, -⟩ := hsound.held
  refine ⟨⟨_, hinv.freeList, fun pa hpa hzero => (hinv.freeList.mem pa).2 ⟨hpa, hzero⟩⟩, fun hquiet pa hpa hheap => ?_⟩
  obtain ⟨k, hk, rfl⟩ := Pmm.mem_managed.1 hpa
  obtain ⟨n, hn, hcounted⟩ := hcounts k hk
  have hptes : (fun x => (t.ptes x).map (·.pa)) = ref t ∘ Sum.inl := by
    funext x
    obtain ⟨p, v⟩ := x
    simp [ref, hquiet p, Pc.gone]
  refine ⟨n, by rw [hinv.layout.ref_page hk]; exact hn, ?_⟩
  rw [hptes]
  refine hcounted.comap Sum.inl_injective fun x hx => ?_
  match x with
  | .inl x => exact ⟨x, rfl⟩
  | .inr (.inl p) =>
    have hx : (t.pc p).fresh = some _ := hx
    rw [hquiet p] at hx
    cases hx
  | .inr (.inr j) => exact absurd hx (hheap j)

/-! ## Two processes that share a page -/

def bootPages : Pmm.St × Pmm.Refs := exec (logged Pmm.step Pmm.record) Pmm.bootRefs [.alloc, .inc 0x80006000]

def shared : St where
  pmm := bootPages.1
  ptes x := if x = (0, 0) ∨ x = (1, 0) then some ⟨0x80006000, true⟩ else none
  pc _ := .idle
  own _ := none

theorem ref_shared : ref shared x = some pa ↔ (x = .inl (0, 0) ∨ x = .inl (1, 0)) ∧ pa = 0x80006000 := by
  match x with
  | .inl (p, v) =>
    by_cases hx : (p, v) = (0, 0) ∨ (p, v) = (1, 0)
    · simp only [ref, shared, Pc.gone, Sum.inl.injEq, hx, true_and]
      exact ⟨fun h => (Option.some.inj h).symm, fun h => by rw [h]; rfl⟩
    · simp only [ref, shared, Pc.gone, Sum.inl.injEq, hx, false_and, iff_false]
      exact nofun
  | .inr (.inl p) => simp [ref, shared, Pc.fresh]
  | .inr (.inr j) => simp [ref, shared]

theorem shared_start : Start shared := by
  have hreach : Reach (logged Pmm.step Pmm.record) (fun t op => Pmm.Allowed t.1 op) (fun t => Pmm.Initialized t.1 ∧ ∀ f,
    t.2 f = 0) bootPages :=
    reach_decide _ Pmm.bootRefs
      (.init ⟨Pmm.bootState_initialized, fun _ => rfl⟩) (by decide +kernel)
  obtain ⟨l, hinv, -⟩ := Pmm.inv_reach hreach
  have hcounts : ∀ k < npages shared.pmm, shared.pmm.page_ref_count k = if page shared.pmm k = 0x80006000 then 2 else
    0 := by
    decide +kernel
  refine ⟨⟨⟨l, hinv⟩, fun k hk => ?_, fun x pa hx => ?_⟩, fun _ => rfl⟩
  · rw [hcounts k hk]
    split_ifs with hpage
    · refine ⟨2, rfl, {.inl (0, 0), .inl (1, 0)}, fun x => ?_, rfl⟩
      rw [ref_shared, Finset.mem_insert, Finset.mem_singleton]
      simp [hpage]
    · refine ⟨0, rfl, counted_zero fun x hx => hpage (ref_shared.1 hx).2⟩
  · obtain ⟨-, rfl⟩ := ref_shared.1 hx
    exact (Pmm.mem_managed.1 (show 0x80006000 ∈ managed shared.pmm by decide +kernel)).imp fun k hk => ⟨hk.1, hk.2.symm⟩

def Op.proc : Op → ℕ
  | .test p _ => p
  | .copy p => p
  | .dec p => p
  | .install p => p
  | .free p _ => p
  | .clear p => p

theorem step_pc (hstep : step t op = .ok t') (hq : q ≠ op.proc) : t'.pc q = t.pc q := by
  cases step_cases hstep <;> exact update_of_ne hq _ _

theorem exec_pc {ops : List Op} (hops : ∀ op ∈ ops, q ≠ op.proc) (t : St) : (exec step t ops).pc q = t.pc q :=
  exec_keeps (f := fun t => t.pc q) (P := fun op => q ≠ op.proc) (fun _ _ _ hq hstep => step_pc hstep hq) hops t

theorem exec_own (ops : List Op) (t : St) : (exec step t ops).own = t.own :=
  exec_keeps (f := St.own) (P := fun _ => True) (fun _ _ _ _ hstep => by cases step_cases hstep <;> rfl)
    (fun _ _ => trivial) t

def copiedOnce : St := exec step (exec step shared [.test 0 0]) [.copy 0, .dec 0, .install 0]

def separated : St := exec step (exec step copiedOnce [.test 1 0]) [.install 1]

theorem copiedOnce_quiet : Quiet copiedOnce := by
  intro q
  by_cases hq : q = 0
  · subst hq
    decide +kernel
  · unfold copiedOnce
    rw [exec_pc (by simp [Op.proc, hq]), exec_pc (by simp [Op.proc, hq])]
    rfl

theorem quiet_allowed (h : Quiet t) : Allowed t op := by
  have hnone : ∀ p v, Alone t p v := by
    intro p v e _ q
    rw [h q]
    exact nofun
  cases op with
  | test p v => exact hnone p v
  | free p v => exact hnone p v
  | copy p => trivial
  | dec p => trivial
  | install p => trivial
  | clear p => trivial

def untested : Op → Bool
  | .test _ _ => false
  | .free _ _ => false
  | _ => true

theorem allowed_untested (h : untested op = true) : Allowed t op := by
  cases op <;> trivial

theorem cow_faults_keep_pages_separated : Quiet separated ∧ Pmm.getPageRef separated.pmm 0x80006000 = 1 ∧
    Counted (fun x => (separated.ptes x).map (·.pa)) 0x80006000 1 := by
  have hone : Reach step Allowed Start (exec step shared [.test 0 0]) :=
    (Reach.init shared_start).exec_step (quiet_allowed shared_start.2) (by decide +kernel)
  have hcopied : Reach step Allowed Start copiedOnce :=
    reach_exec (c := fun _ op => untested op) (fun _ _ => allowed_untested) _ _ hone (by decide +kernel)
  have hreach : Reach step Allowed Start separated :=
    reach_exec (c := fun _ op => untested op) (fun _ _ => allowed_untested) _ _
      (hcopied.exec_step (quiet_allowed copiedOnce_quiet) (by decide +kernel)) (by decide +kernel)
  have hquiet : Quiet separated := by
    intro q
    by_cases hq : q = 1
    · subst hq
      decide +kernel
    · unfold separated
      rw [exec_pc (by simp [Op.proc, hq]), exec_pc (by simp [Op.proc, hq])]
      exact copiedOnce_quiet q
  have hcount : Pmm.getPageRef separated.pmm 0x80006000 = 1 := by decide +kernel
  have hown : ∀ j, separated.own j ≠ some 0x80006000 := by
    simp only [separated, copiedOnce, exec_own]
    exact nofun
  obtain ⟨n, hn, hcounted⟩ := (cow_faults_keep_pages hreach).2 hquiet 0x80006000 (by decide +kernel) hown
  rw [hcount] at hn
  obtain rfl : n = 1 := by omega
  exact ⟨hquiet, hcount, hcounted⟩

def bothCopied : St :=
  exec step shared [.test 0 0, .test 1 0, .copy 0, .copy 1, .dec 0, .dec 1, .install 0, .install 1]

/-- No entry points to the page, its count is 0, and it is not in the free list. -/
theorem both_copied : Reach step (fun _ _ => True) Start bothCopied ∧ 0x80006000 ∈ Pmm.managed bothCopied.pmm ∧
    Pmm.getPageRef bothCopied.pmm 0x80006000 = 0 ∧
    ∃ l, Segment.Seg (Pmm.nextAt bothCopied.pmm) bothCopied.pmm.g_free_mem_list l 0 ∧ 0x80006000 ∉ l := by
  refine ⟨reach_decide _ shared (.init shared_start) (by decide +kernel),
    by decide +kernel, by decide +kernel, [0x80003000, 0x80002000], ?_, by decide⟩
  simp only [Segment.seg_cons, Segment.seg_nil]
  decide +kernel

end RiscvPke.CowFaults
