/-
Blocks of the heap: a block is its header and the bytes behind it. `Blocks t l`: the blocks of the headers `l` are
disjoint, aligned and inside the heap. `Covered t l a`: the address `a` is in a block of `l`.
-/
import RiscvPke.Heap.Lists

namespace RiscvPke.Heap

open Bytes Program Segment

variable {strict fails : Bool} {S : Stop → Prop} {t t' t1 t2 : Flat} {f g : Field} {a b p q v n head item prev cur : ℕ}
  {l l' l1 l2 m r : List ℕ} {cmp : Cmp}

/-! ## Disjoint blocks -/

def Flat.fin (t : Flat) (p : ℕ) : ℕ := p + PD + t.field .size p

def Covered (t : Flat) (l : List ℕ) (a : ℕ) : Prop := ∃ p ∈ l, p ≤ a ∧ a < t.fin p

structure Blocks (strict : Bool) (t : Flat) (l : List ℕ) : Prop where
  inside : ∀ p ∈ l, t.heap_bottom ≤ p ∧ t.fin p ≤ t.heap_top
  inPage : strict = true → ∀ p ∈ l, InPage p
  disj : ∀ p ∈ l, ∀ q ∈ l, p ≠ q → t.fin p ≤ q ∨ t.fin q ≤ p
  aligned : ∀ p ∈ l, p % 8 = 0 ∧ t.field .size p % 8 = 0
  bottom : 0 < t.heap_bottom
  top : t.heap_top ≤ MAXVA

theorem Blocks.nodes (h : Blocks strict t l) : Nodes strict t l where
  good p hp := by
    have := h.inside p hp
    refine ⟨⟨this.1, ?_⟩, fun hs => h.inPage hs p hp⟩
    simp only [Flat.fin] at this
    omega
  spaced p hp q hq hne := by
    have := h.disj p hp q hq hne
    simp only [Flat.fin, Apart] at *
    omega
  __ := h

theorem Blocks.sub (h : Blocks strict t l) (hsub : l' ⊆ l) : Blocks strict t l' where
  inside p hp := h.inside p (hsub hp)
  inPage hs p hp := h.inPage hs p (hsub hp)
  disj p hp q hq := h.disj p (hsub hp) q (hsub hq)
  aligned p hp := h.aligned p (hsub hp)
  __ := h

theorem Blocks.shrink (h : Blocks strict t l) (hs : Same t t') (hle : ∀ p ∈ l, t'.field .size p ≤ t.field .size p)
    (hal : ∀ p ∈ l, t'.field .size p % 8 = 0) : Blocks strict t' l := by
  have hfin : ∀ p ∈ l, t'.fin p ≤ t.fin p := fun p hp => Nat.add_le_add_left (hle p hp) _
  refine ⟨fun p hp => ?_, h.inPage, fun p hp q hq hne => ?_, fun p hp => ⟨(h.aligned p hp).1, hal p hp⟩, ?_, ?_⟩
  · rw [hs.bottom, hs.top]
    exact ⟨(h.inside p hp).1, (hfin p hp).trans (h.inside p hp).2⟩
  · exact (h.disj p hp q hq hne).imp (hfin p hp).trans (hfin q hq).trans
  · rw [hs.bottom]
    exact h.bottom
  · rw [hs.top]
    exact h.top

theorem Blocks.congr (h : Blocks strict t l) (hs : Same t t') (hsize : ∀ p ∈ l, t'.field .size p = t.field .size p) :
    Blocks strict t' l := by
  refine h.shrink hs (fun p hp => (hsize p hp).le) fun p hp => ?_
  rw [hsize p hp]
  exact (h.aligned p hp).2

theorem Blocks.cons (h : Blocks strict t l) (hin : t.heap_bottom ≤ b ∧ t.fin b ≤ t.heap_top)
    (hpage : strict = true → InPage b)
    (hdis : ∀ q ∈ l, t.fin q ≤ b ∨ t.fin b ≤ q) (hal : b % 8 = 0 ∧ t.field .size b % 8 = 0) :
    Blocks strict t (b :: l) := by
  refine ⟨List.forall_mem_cons.2 ⟨hin, h.inside⟩, fun hst => List.forall_mem_cons.2 ⟨hpage hst, h.inPage hst⟩, ?_,
    List.forall_mem_cons.2 ⟨hal, h.aligned⟩, h.bottom, h.top⟩
  intro p hp q hq hne
  rcases List.mem_cons.1 hp with rfl | hpl
  · exact (hdis q ((List.mem_cons.1 hq).resolve_left (Ne.symm hne))).symm
  · rcases List.mem_cons.1 hq with rfl | hql
    · exact hdis p hpl
    · exact h.disj p hpl q hql hne

theorem covered_congr (hsize : ∀ p ∈ l, t'.field .size p = t.field .size p) : Covered t' l a ↔ Covered t l a := by
  constructor
  · intro ⟨p, hp, h1, h2⟩
    rw [Flat.fin, hsize p hp] at h2
    exact ⟨p, hp, h1, h2⟩
  · intro ⟨p, hp, h1, h2⟩
    rw [Flat.fin, ← hsize p hp] at h2
    exact ⟨p, hp, h1, h2⟩

theorem Covered.sub (h : Covered t l a) (hsub : l ⊆ l') : Covered t l' a := by
  obtain ⟨p, hp, h1, h2⟩ := h
  exact ⟨p, hsub hp, h1, h2⟩

theorem covered_cons : Covered t (p :: l) a ↔ (p ≤ a ∧ a < t.fin p) ∨ Covered t l a := by
  constructor
  · intro ⟨q, hq, h⟩
    rcases List.mem_cons.1 hq with rfl | hq
    · exact .inl h
    · exact .inr ⟨q, hq, h⟩
  · intro h
    rcases h with h | ⟨q, hq, h⟩
    · exact ⟨p, List.mem_cons_self, h⟩
    · exact ⟨q, List.mem_cons_of_mem p hq, h⟩

@[simp] theorem fin_setFree : (t.setFree q).fin p = t.fin p := by rw [Flat.fin, Flat.fin, field_setFree]
@[simp] theorem covered_setFree : Covered (t.setFree q) l a ↔ Covered t l a := covered_congr fun _ _ => field_setFree
@[simp] theorem covered_setAlloc : Covered (t.setAlloc q) l a ↔ Covered t l a := covered_congr fun _ _ => field_setAlloc

theorem disj_of_covered (hab : a < b) (hdis : ∀ p ∈ l, t.fin p ≤ a ∨ b ≤ p) (hp : p ∈ l) (hp' : p ∈ l')
    (hcov : ∀ x, Covered t' l' x → Covered t l x) : t'.fin p ≤ a ∨ b ≤ p := by
  by_contra hcon
  push Not at hcon
  have hpa : p < a := by
    have := hdis p hp
    simp only [Flat.fin, PD] at this
    omega
  obtain ⟨q, hq, h1, h2⟩ := hcov a ⟨p, hp', by omega, hcon.1⟩
  have := hdis q hq
  omega

/-! ## Merging -/

/-- what `merge_free_blocks` does to a list of blocks -/
structure Merged (strict : Bool) (t : Flat) (l : List ℕ) (t' : Flat) (l' : List ℕ) : Prop where
  same : Same t t'
  sub : l' ⊆ l
  blocks : Blocks strict t' l'
  covered : ∀ a, Covered t' l' a → Covered t l a
  full : (∀ p ∈ l, t.field .size p ≠ 0) → ∀ a, Covered t l a → Covered t' l' a
  positive : (∀ p ∈ l, t.field .size p ≠ 0) → ∀ p ∈ l', t'.field .size p ≠ 0
  frame : ∀ q f, Clear l q → f ≠ .flag → t'.field f q = t.field f q

theorem Merged.refl (h : Blocks strict t l) : Merged strict t l t l :=
  ⟨.refl, List.Subset.refl _, h, fun _ h => h, fun _ _ h => h, fun h => h, fun _ _ _ _ => rfl⟩

theorem Merged.trans (h1 : Merged strict t l t1 l1) (h2 : Merged strict t1 l1 t2 l2) : Merged strict t l t2 l2 where
  same := h1.same.trans h2.same
  sub := List.Subset.trans h2.sub h1.sub
  blocks := h2.blocks
  covered a ha := h1.covered a (h2.covered a ha)
  full hz a ha := h2.full (h1.positive hz) a (h1.full hz a ha)
  positive hz := h2.positive (h1.positive hz)
  frame q f hq hf := (h2.frame q f (fun p hp => hq p (h1.sub hp)) hf).trans (h1.frame q f hq hf)

theorem Kept.merged (hk : Kept t l l') (hr : Relinks l t t') (h : Blocks strict t l) : Merged strict t l t' l' := by
  have hsize : ∀ p ∈ l, t'.field .size p = t.field .size p := fun p hp => hr.size_mem h.nodes hp
  refine ⟨hr.same, hk.sub, (h.congr hr.same hsize).sub hk.sub, ?_, ?_, ?_, ?_⟩
  · intro a ha
    exact (covered_congr hsize).1 (ha.sub hk.sub)
  · intro hz a ⟨p, hp, h1, h2⟩
    refine ⟨p, hk.mem p hp (hz p hp), h1, ?_⟩
    rwa [Flat.fin, hsize p hp]
  · intro hz p hp
    rw [hsize p (hk.sub hp)]
    exact hz p (hk.sub hp)
  · intro q f hq hf
    cases f with
    | flag => exact absurd rfl hf
    | size => exact hr.size q fun p hp => .inr (hq p hp)
    | next => exact hr.next q hq

theorem merged_join (h : Blocks strict t (cur :: b :: r)) (hnd : (cur :: b :: r).Nodup) (hadj : t.fin cur = b) :
    Merged strict t (cur :: b :: r)
      ((t.put .size cur (t.field .size cur + PD + t.field .size b)).put .next cur v) (cur :: r) := by
  have hcur := h.inside cur (by simp)
  have hb := h.inside b (by simp)
  have htop := h.top
  have hlt : t.field .size cur + PD + t.field .size b < 256 ^ Field.size.width := by
    simp only [Flat.fin, Field.width, MAXVA] at *
    omega
  set t2 := (t.put .size cur (t.field .size cur + PD + t.field .size b)).put .next cur v with ht2
  have hself : t2.field .size cur = t.field .size cur + PD + t.field .size b := by
    rw [ht2, field_put_other (by decide), field_put_self hlt]
  have htouch : Touches cur t t2 := touches_put.put
  have hcr : ∀ q ∈ r, cur ≠ q := by
    rintro q hq rfl
    exact (List.nodup_cons.1 hnd).1 (by simp [hq])
  have hbr : ∀ q ∈ r, b ≠ q := by grind
  have hsize : ∀ q ∈ r, t2.field .size q = t.field .size q := fun q hq =>
    htouch.other q .size (h.nodes.spaced cur (by simp) q (by simp [hq]) (hcr q hq))
  -- the new block ends where the second one ended
  have hfin : t2.fin cur = t.fin b := by
    simp only [Flat.fin] at *
    omega
  have hfinr : ∀ q ∈ r, t2.fin q = t.fin q := fun q hq => by rw [Flat.fin, Flat.fin, hsize q hq]
  have hsub : cur :: r ⊆ cur :: b :: r := by
    intro q hq
    simp only [List.mem_cons] at *
    tauto
  have hblocks : Blocks strict t2 (cur :: r) := by
    refine ((h.sub fun q hq => by simp [hq]).congr htouch.same hsize).cons ?_ (fun hs =>
      h.inPage hs cur (by simp)) ?_ ?_
    · rw [hfin]
      exact ⟨hcur.1, hb.2⟩
    · intro q hq
      have h1 := h.disj cur (by simp) q (by simp [hq]) (hcr q hq)
      have h2 := h.disj b (by simp) q (by simp [hq]) (hbr q hq)
      rw [hfin, hfinr q hq]
      simp only [Flat.fin, PD] at *
      omega
    · have h1 := h.aligned cur (by simp)
      have h2 := h.aligned b (by simp)
      rw [hself]
      simp only [PD]
      omega
  refine ⟨htouch.same, hsub, hblocks, ?_, ?_, ?_, ?_⟩
  · grind [covered_cons, covered_congr]
  · intro _ a ha
    grind [covered_cons, Flat.fin, covered_congr]
  · grind
  · exact fun q f hq _ => htouch.other q f (hq cur (by simp))

theorem Merged.cons (h : Blocks strict t (cur :: l)) (hc : cur ∉ l) (hm : Merged strict t l t' l') :
    Merged strict t (cur :: l) t' (cur :: l') := by
  have hclear : Clear l cur := fun p hp =>
    h.nodes.spaced p (List.mem_cons_of_mem _ hp) cur List.mem_cons_self fun he => hc (he ▸ hp)
  have hsize : t'.field .size cur = t.field .size cur := hm.frame cur .size hclear (by decide)
  have hfin : t'.fin cur = t.fin cur := by rw [Flat.fin, Flat.fin, hsize]
  have hpos : cur < t.fin cur := by
    simp only [Flat.fin, PD]
    omega
  have hbeside : ∀ p ∈ l', t'.fin p ≤ cur ∨ t'.fin cur ≤ p := by
    intro p hp
    rw [hfin]
    refine disj_of_covered hpos (fun q hq => ?_) (hm.sub hp) hp hm.covered
    exact (h.disj cur List.mem_cons_self q (List.mem_cons_of_mem _ hq) fun he => hc (he ▸ hq)).symm
  have hblocks : Blocks strict t' (cur :: l') := by
    refine hm.blocks.cons ?_ (fun hs => h.inPage hs cur List.mem_cons_self) hbeside ?_
    · rw [hfin, hm.same.bottom, hm.same.top]
      exact h.inside cur List.mem_cons_self
    · rw [hsize]
      exact h.aligned cur List.mem_cons_self
  refine ⟨hm.same, List.cons_subset_cons _ hm.sub, hblocks, ?_, ?_, ?_, ?_⟩
  · intro a ha
    rw [covered_cons, hfin] at ha
    rw [covered_cons]
    exact ha.imp_right (hm.covered a)
  · intro hz a ha
    rw [covered_cons] at ha
    rw [covered_cons, hfin]
    exact ha.imp_right (hm.full (fun p hp => hz p (List.mem_cons_of_mem _ hp)) a)
  · intro hz p hp
    rcases List.mem_cons.1 hp with rfl | hp
    · rw [hsize]
      exact hz p List.mem_cons_self
    · exact hm.positive (fun p hp => hz p (List.mem_cons_of_mem _ hp)) p hp
  · exact fun q f hq hf => hm.frame q f (fun p hp => hq p (List.mem_cons_of_mem _ hp)) hf

theorem Merged.append (h : Blocks strict t (m ++ l)) (hnd : m.Nodup) (hml : ∀ q ∈ m, q ∉ l)
    (hm : Merged strict t l t' l') :
    Merged strict t (m ++ l) t' (m ++ l') := by
  induction m with
  | nil => exact hm
  | cons c m ih =>
    obtain ⟨hc, hnd⟩ := List.nodup_cons.1 hnd
    have hrest := ih (h.sub (List.subset_cons_self _ _)) hnd fun q hq => hml q (List.mem_cons_of_mem _ hq)
    grind [Merged.cons]

theorem mergeLoop_wp :
    ∀ (k : ℕ) (l : List ℕ) (turns cur : ℕ) (t : Flat), l.length ≤ k → l.length < turns → Blocks strict t l →
      Seg (t.field .next) cur l 0 →
      (mergeLoop turns cur).wp (device strict fails) S (fun _ t' => ∃ l',
        Seg (t'.field .next) cur l' 0 ∧ Merged strict t l t' l') t := by
  intro k
  -- a turn goes to the next block or makes the list shorter
  induction k with
  | zero =>
    intro l turns cur t hk hlt h hs
    obtain _ | turns := turns
    · cases hlt
    obtain rfl : l = [] := List.eq_nil_of_length_eq_zero (by omega)
    obtain rfl : cur = 0 := hs
    exact ⟨[], rfl, .refl h⟩
  | succ k ih =>
    intro l turns cur t hk hlt h hs
    obtain _ | turns := turns
    · cases hlt
    cases l with
    | nil =>
      obtain rfl : cur = 0 := hs
      exact ⟨[], rfl, .refl h⟩
    | cons c l =>
      obtain rfl : cur = c := hs.1
      have hN := h.nodes
      rw [mergeLoop]
      apply hN.get List.mem_cons_self
      cases l with
      | nil =>
        have hnext : t.field .next cur = 0 := hs.2.2
        rw [hnext, if_pos (.inr rfl), wp_pure]
        exact ⟨[cur], hs, .refl h⟩
      | cons b r =>
        have hnext : t.field .next cur = b := hs.2.2.1
        have hc : cur ∉ b :: r := (List.nodup_cons.1 hs.nodup).1
        have hap : ∀ q ∈ b :: r, Apart cur q := fun q hq => hN.apart hc hq
        have hin := h.inside cur (by simp)
        have hinb := h.inside b (by simp)
        have htop := h.top
        have hrest := hs.2.2
        rw [hnext] at hrest ⊢
        rw [if_neg (by simp [hs.2.1, hrest.2.1])]
        apply hN.get List.mem_cons_self
        have hmod : (cur + PD + t.field .size cur) % 2 ^ 64 = t.fin cur := by
          apply Nat.mod_eq_of_lt
          simp only [Flat.fin, MAXVA] at *
          omega
        rw [hmod]
        by_cases hadj : t.fin cur = b ∧ getPageHash cur = getPageHash b
        · rw [if_pos hadj]
          apply hN.get (by simp)
          have hlt' : t.field .size cur + PD + t.field .size b < 256 ^ Field.size.width := by
            simp only [Flat.fin, Field.width, MAXVA] at *
            omega
          apply hN.set List.mem_cons_self hlt'
          apply (hN.congr same_put).get (by simp)
          apply (hN.congr same_put).set List.mem_cons_self field_lt
          rw [field_put_apart (hap b List.mem_cons_self)]
          have hjoin := merged_join (v := t.field .next b) h hs.nodup hadj.1
          have hseg : Seg (((t.put .size cur (t.field .size cur + PD + t.field .size b)).put .next cur
              (t.field .next b)).field .next) cur (cur :: r) 0 := by
            refine seg_cons.2 ⟨rfl, hs.2.1, ?_⟩
            rw [field_put_self field_lt]
            exact hrest.2.2.congr fun q hq => touches_put.put.other q .next (hap q (List.mem_cons_of_mem b hq))
          apply wp_mono (ih (cur :: r) turns cur _ (Nat.le_of_succ_le_succ hk)
            (Nat.lt_of_succ_lt_succ hlt) hjoin.blocks hseg)
          rintro _ t' ⟨l', hs', hm⟩
          exact ⟨l', hs', hjoin.trans hm⟩
        · rw [if_neg hadj]
          apply wp_mono (ih (b :: r) turns b t (Nat.le_of_succ_le_succ hk) (Nat.lt_of_succ_lt_succ hlt)
            (h.sub (List.subset_cons_self _ _)) hrest)
          rintro _ t' ⟨l', hs', hm⟩
          refine ⟨cur :: l', seg_cons.2 ⟨rfl, hs.2.1, ?_⟩, hm.cons h hc⟩
          rw [hm.frame cur .next (fun p hp => (hap p hp).symm) (by decide), hnext]
          exact hs'

theorem mergeFreeBlocks_wp (hcmp : Antisymm cmp) (h : Blocks strict t l) (hs : Seg (t.field .next) head l 0) :
    (mergeFreeBlocks head cmp).wp (device strict fails) S (fun h' t' => ∃ l',
      Seg (t'.field .next) h' l' 0 ∧ Merged strict t l t' l') t := by
  by_cases h0 : head = 0
  · subst h0
    obtain rfl := hs.eq_nil
    exact ⟨[], rfl, .refl h⟩
  · rw [mergeFreeBlocks, if_neg h0, wp_bind]
    apply wp_mono (sortFreeListAscend_wp antisymm_pdFirstFitCmp h.nodes hs)
    intro h1 t1 ⟨l1, hs1, hk1, hr1⟩
    have hm1 := hk1.merged hr1 h
    rw [wp_bind]
    apply wp_mono (mergeLoop_wp l1.length l1 TURNS h1 t1 (le_refl _)
      (hm1.blocks.nodes.length_lt hs1.nodup) hm1.blocks hs1)
    intro _ t2 ⟨l2, hs2, hm2⟩
    apply wp_mono (sortFreeListAscend_wp hcmp hm2.blocks.nodes hs2)
    intro h3 t3 ⟨l3, hs3, hk3, hr3⟩
    exact ⟨l3, hs3, (hm1.trans hm2).trans (hk3.merged hr3 hm2.blocks)⟩

end RiscvPke.Heap
