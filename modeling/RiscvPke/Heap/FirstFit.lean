/-
First fit: `first_fit_alloc` and `first_fit_free` on a well-formed heap.
-/
import RiscvPke.Heap.Blocks

namespace RiscvPke.Heap

open Bytes Program Segment

variable {strict fails : Bool} {S : Stop → Prop} {t t' t1 t2 t3 : Flat} {f g : Field}
  {a b p q v n free alloc head item prev node x : ℕ} {l l' l1 l2 m r pre post F F' A A' : List ℕ}

structure Wellformed (strict : Bool) (t : Flat) (free alloc : ℕ) (F A : List ℕ) : Prop where
  blocks : Blocks strict t (A ++ F)
  free : Seg (t.field .next) free F 0
  alloc : Seg (t.field .next) alloc A 0
  apart : ∀ q ∈ A, q ∉ F
  positive : ∀ q ∈ A, t.field .size q ≠ 0

theorem put_field (hn : Nodes strict t l) (hp : p ∈ l) (hq : q ∈ l) (hf : f ≠ g) :
    (t.put f p v).field g q = t.field g q := by
  by_cases he : p = q
  · subst he
    exact field_put_other hf
  · exact field_put_apart (hn.spaced p hp q hq he)

theorem Wellformed.clear (h : Wellformed strict t free alloc F A) (hsub : l ⊆ F) (hq : q ∈ A) : Clear l q := by
  intro p hp
  refine h.blocks.nodes.spaced p (List.mem_append_right _ (hsub hp)) q (List.mem_append_left _ hq) ?_
  rintro rfl
  exact h.apart p hq (hsub hp)

/-! ## Allocation -/

def AtEnd (prev : ℕ) (pre : List ℕ) : Prop := (pre = [] ∧ prev = 0) ∨ ∃ init, pre = init ++ [prev]

theorem relink_wp (hprev : AtEnd prev pre) (hn : Nodes strict t (pre ++ m)) (hnd : (pre ++ m).Nodup)
    (hpre : Seg (t.field .next) free pre x) (hm : Seg (t.field .next) node m 0) (hlt : node < 256 ^ Field.next.width) :
    (relink free prev node).wp (device strict fails) S (fun free' t' =>
      Seg (t'.field .next) free' (pre ++ m) 0 ∧ Relinks pre t t') t := by
  obtain ⟨rfl, rfl⟩ | ⟨init, rfl⟩ := hprev
  · rw [relink, if_neg (by simp), wp_pure]
    exact ⟨hm, .refl⟩
  · have hprev : prev ∈ init ++ [prev] ++ m := by simp
    have hp0 := hn.ne_zero hprev
    rw [relink, if_pos hp0]
    apply hn.set hprev hlt
    refine ⟨?_, relinks_put (by simp)⟩
    have hap : ∀ q ∈ init ++ m, Apart prev q := by
      intro q hq
      refine hn.spaced prev hprev q (by simp only [List.mem_append, List.mem_singleton] at *; tauto) ?_
      grind
    obtain ⟨y, h1, hy, -, -⟩ := seg_append.1 hpre
    rw [hy] at h1
    rw [List.append_assoc]
    refine seg_append.2 ⟨prev, seg_put h1 fun q hq => hap q (List.mem_append_left _ hq), rfl, hp0, ?_⟩
    rw [field_put_self hlt]
    exact seg_put hm fun q hq => hap q (List.mem_append_right _ hq)

/-- what an allocation leaves: the block is the first of the alloc list -/
structure Allocated (strict : Bool) (t : Flat) (n : ℕ) (F A : List ℕ) (block free' : ℕ) (t' : Flat)
    (F' : List ℕ) : Prop where
  heap : Wellformed strict t' free' block F' (block :: A)
  size : t'.field .size block = n
  keep : ∀ q ∈ A, t'.field .size q = t.field .size q
  covered : ∀ a, Covered t' (block :: A ++ F') a ↔ Covered t (A ++ F) a
  same : Same t t'

theorem Wellformed.split_nodup (h : Wellformed strict t free alloc (pre ++ item :: post) A) :
    (pre ++ post).Nodup ∧ item ∉ pre ++ post ∧ item ∉ A := by
  have hnd := List.perm_middle.nodup h.free.nodup
  obtain ⟨h1, h2⟩ := List.nodup_cons.1 hnd
  exact ⟨h2, h1, fun hA => h.apart item hA (by simp)⟩

theorem Wellformed.alloc_lt (h : Wellformed strict t free alloc F A) : alloc < 256 ^ Field.next.width :=
  head_lt (h.blocks.nodes.sub (List.subset_append_left A F)) h.alloc

theorem allocated_of (h : Wellformed strict t free alloc (pre ++ item :: post) A) (hs : Same t t') (hn0 : n ≠ 0)
    (hb : Blocks strict t' (item :: A ++ F')) (hfree : Seg (t'.field .next) b F' 0)
    (hnext : t'.field .next item = alloc)
    (hA : ∀ q ∈ A, t'.field .next q = t.field .next q ∧ t'.field .size q = t.field .size q)
    (hap : ∀ q ∈ item :: A, q ∉ F') (hsize : t'.field .size item = n)
    (hcov : ∀ a, Covered t' (item :: A ++ F') a ↔ Covered t (A ++ (pre ++ item :: post)) a) :
    Allocated strict t n (pre ++ item :: post) A item b t' F' where
  heap := by
    refine ⟨hb, hfree, seg_cons.2 ⟨rfl, hb.nodes.ne_zero (by simp), ?_⟩, hap, ?_⟩
    · rw [hnext]
      exact h.alloc.congr fun q hq => (hA q hq).1
    · intro q hq
      rcases List.mem_cons.1 hq with rfl | hq
      · rwa [hsize]
      · rw [(hA q hq).2]
        exact h.positive q hq
  size := hsize
  keep q hq := (hA q hq).2
  covered := hcov
  same := hs

theorem takeBlock_wp (h : Wellformed strict t free alloc (pre ++ item :: post) A) (hprev : AtEnd prev pre) (hn0 : n ≠ 0)
    (hsize : t.field .size item = n) :
    (takeBlock n free alloc prev item).wp (device strict fails) S (fun r t' => ∃ free', r = (item, free', item) ∧
      Allocated strict t n (pre ++ item :: post) A item free' t' (pre ++ post)) t := by
  obtain ⟨hnd, hif, hia⟩ := h.split_nodup
  have hN := h.blocks.nodes
  have hitem : item ∈ A ++ (pre ++ item :: post) := by simp
  have hnlt : n < 256 ^ Field.size.width := hsize ▸ field_lt
  obtain ⟨y, hpre, -, -, hpost⟩ := seg_append.1 h.free
  have hsub : pre ++ post ⊆ A ++ (pre ++ item :: post) := by grind
  have hpre' : pre ⊆ A ++ (pre ++ item :: post) := fun q hq => by simp [hq]
  have hap : ∀ q ∈ A ++ (pre ++ item :: post), q ≠ item → Apart item q :=
    fun q hq hne => hN.spaced item hitem q hq (Ne.symm hne)
  rw [takeBlock]
  apply hN.set hitem (by simp [Field.width])
  apply (hN.congr same_put).set hitem (by simp [Field.width])
  have h2 : Touches item t ((t.put .flag item 1).put .size item 0) := touches_put.put
  have hnext2 : ∀ q ∈ A ++ (pre ++ item :: post),
    ((t.put .flag item 1).put .size item 0).field .next q = t.field .next q := by
    intro q hq
    rw [put_field (hN.congr same_put) hitem hq (by decide), put_field hN hitem hq (by decide)]
  generalize (t.put .flag item 1).put .size item 0 = t2 at *
  apply (hN.congr h2.same).get hitem
  rw [wp_bind]
  apply wp_mono (relink_wp hprev ((hN.sub hsub).congr h2.same) hnd (hpre.congr fun q hq =>
    hnext2 q (hsub (by simp [hq])))
    (by rw [hnext2 item hitem]; exact hpost.congr fun q hq => hnext2 q (hsub (by simp [hq]))) field_lt)
  rintro free' t3 ⟨hfree, hrel⟩
  have hN3 := hN.congr (h2.same.trans hrel.same)
  apply hN3.set hitem h.alloc_lt
  apply (hN3.congr same_put).set hitem hnlt
  refine ⟨free', rfl, ?_⟩
  have h5 : Touches item t3 ((t3.put .next item alloc).put .size item n) := touches_put.put
  have hnext5 : ((t3.put .next item alloc).put .size item n).field .next item = alloc := by
    rw [field_put_other (by decide), field_put_self h.alloc_lt]
  have hitem5 : ((t3.put .next item alloc).put .size item n).field .size item = n := field_put_self hnlt
  generalize (t3.put .next item alloc).put .size item n = t5 at *
  have hs5 : Same t t5 := (h2.same.trans hrel.same).trans h5.same
  -- only the item and the node before it have changed
  have hsize5 : ∀ q ∈ A ++ (pre ++ item :: post), t5.field .size q = t.field .size q := by
    intro q hq
    by_cases hqi : q = item
    · rw [hqi, hitem5, hsize]
    · rw [h5.other q .size (hap q hq hqi), (hrel.sub hpre').size_mem (hN.congr h2.same) hq,
        h2.other q .size (hap q hq hqi)]
  have hperm : item :: A ++ (pre ++ post) ⊆ A ++ (pre ++ item :: post) := by grind
  have hperm' : A ++ (pre ++ item :: post) ⊆ item :: A ++ (pre ++ post) := by grind
  apply allocated_of h hs5 hn0 ((h.blocks.congr hs5 hsize5).sub hperm)
  · exact hfree.congr fun q hq => h5.other q .next (hap q (hsub hq) fun he => hif (he ▸ hq))
  · exact hnext5
  · intro q hq
    refine ⟨?_, hsize5 q (by simp [hq])⟩
    rw [h5.other q .next (hap q (by simp [hq]) fun he => hia (he ▸ hq)), hrel.next q (h.clear (by simp) hq),
      hnext2 q (by simp [hq])]
  · intro q hq hqf
    rcases List.mem_cons.1 hq with rfl | hq
    · exact hif hqf
    · exact h.apart q hq (by simp only [List.mem_append, List.mem_cons] at *; tauto)
  · exact hitem5
  · intro a
    rw [covered_congr fun p hp => hsize5 p (hperm hp)]
    exact ⟨fun hc => hc.sub hperm, fun hc => hc.sub hperm'⟩

theorem Blocks.nodes_cons (h : Blocks strict t l) (hitem : item ∈ l) (hlow : item + PD ≤ a)
    (hhigh : a + PD ≤ t.fin item) (hpage : strict = true → InPage a) : Nodes strict t (a :: l) ∧ a ∉ l := by
  have hap : ∀ q ∈ l, Apart a q := by
    intro q hq
    by_cases hqi : q = item
    · subst hqi
      exact .inr hlow
    · have := h.disj item hitem q hq (Ne.symm hqi)
      simp only [Flat.fin, Apart, PD] at *
      omega
  have hin := h.inside item hitem
  refine ⟨⟨?_, ?_, h.bottom, h.top⟩, ?_⟩
  · intro p hp
    rcases List.mem_cons.1 hp with rfl | hpl
    · refine ⟨⟨?_, ?_⟩, hpage⟩
      · omega
      · omega
    · exact h.nodes.good p hpl
  · intro p hp q hq hne
    rcases List.mem_cons.1 hp with rfl | hpl
    · grind
    · rcases List.mem_cons.1 hq with rfl | hql
      · exact (hap p hpl).symm
      · exact h.nodes.spaced p hpl q hql hne
  · intro ha
    have := hap a ha
    simp only [Apart, PD] at this
    omega

theorem Blocks.cut (h : Blocks strict t l) (hs : Same t t') (hitem : item ∈ l) (hn8 : n % 8 = 0)
    (hfit : n + PD ≤ t.field .size item) (hpage : strict = true → InPage (item + PD + n))
    (h1 : t'.field .size item = n) (h2 : t'.field .size (item + PD + n) = t.field .size item - n - PD)
    (h3 : ∀ q ∈ l, q ≠ item → t'.field .size q = t.field .size q) :
    Blocks strict t' ((item + PD + n) :: l) ∧ ∀ a, Covered t' ((item + PD + n) :: l) a ↔ Covered t l a := by
  have hin := h.inside item hitem
  have hal := h.aligned item hitem
  have hf1 : t'.fin item = item + PD + n := by rw [Flat.fin, h1]
  have hf2 : t'.fin (item + PD + n) = t.fin item := by
    rw [Flat.fin, h2, Flat.fin]
    omega
  have hf3 : ∀ q ∈ l, q ≠ item → t'.fin q = t.fin q := fun q hq hne => by rw [Flat.fin, Flat.fin, h3 q hq hne]
  have hsizes : ∀ q ∈ l, t'.field .size q ≤ t.field .size q ∧ t'.field .size q % 8 = 0 := by
    intro q hq
    by_cases hqi : q = item
    · subst hqi
      rw [h1]
      exact ⟨by omega, hn8⟩
    · rw [h3 q hq hqi]
      exact ⟨le_refl _, (h.aligned q hq).2⟩
  -- the new block is inside the old one
  have hblocks : Blocks strict t' ((item + PD + n) :: l) := by
    refine (h.shrink hs (fun q hq => (hsizes q hq).1) fun q hq => (hsizes q hq).2).cons ?_ hpage (fun q hq => ?_) ?_
    · rw [hs.bottom, hs.top, hf2]
      exact ⟨by omega, hin.2⟩
    · by_cases hqi : q = item
      · subst hqi
        exact .inl (le_of_eq hf1)
      · rw [hf2, hf3 q hq hqi]
        have := h.disj item hitem q hq (Ne.symm hqi)
        omega
    · rw [h2]
      simp only [PD] at *
      omega
  refine ⟨hblocks, fun a => ⟨?_, ?_⟩⟩
  · intro hc
    rcases covered_cons.1 hc with hc | ⟨p, hp, hpa, hpf⟩
    · rw [hf2] at hc
      exact ⟨item, hitem, by omega, hc.2⟩
    · by_cases hpi : p = item
      · subst hpi
        refine ⟨p, hp, hpa, ?_⟩
        rw [Flat.fin]
        omega
      · rw [hf3 p hp hpi] at hpf
        exact ⟨p, hp, hpa, hpf⟩
  · rintro ⟨p, hp, hpa, hpf⟩
    by_cases hpi : p = item
    · subst hpi
      rw [covered_cons, hf2]
      by_cases ha : p + PD + n ≤ a
      · exact .inl ⟨ha, hpf⟩
      · exact .inr ⟨p, hp, hpa, by rw [hf1]; omega⟩
    · exact ⟨p, List.mem_cons_of_mem _ hp, hpa, by rwa [hf3 p hp hpi]⟩

theorem allocated_split (h : Wellformed strict t free alloc (pre ++ item :: post) A) (hn0 : n ≠ 0) (hn8 : n % 8 = 0)
    (hfit : n + PD ≤ t.field .size item) (hpage : strict = true → InPage (item + PD + n)) (hs : Same t t')
    (hfree : Seg (t'.field .next) b (pre ++ (item + PD + n) :: post) 0) (hnext : t'.field .next item = alloc)
    (h1 : t'.field .size item = n) (h2 : t'.field .size (item + PD + n) = t.field .size item - n - PD)
    (h3 : ∀ q ∈ A ++ (pre ++ item :: post), q ≠ item → t'.field .size q = t.field .size q)
    (h4 : ∀ q ∈ A, t'.field .next q = t.field .next q) :
    Allocated strict t n (pre ++ item :: post) A item b t' (pre ++ (item + PD + n) :: post) := by
  obtain ⟨-, hif, hia⟩ := h.split_nodup
  have hitem : item ∈ A ++ (pre ++ item :: post) := by simp
  obtain ⟨-, hnew⟩ := h.blocks.nodes_cons (a := item + PD + n) hitem (by omega) (by rw [Flat.fin]; omega) hpage
  obtain ⟨hcut, hcov⟩ := h.blocks.cut hs hitem hn8 hfit hpage h1 h2 h3
  have hperm : item :: A ++ (pre ++ (item + PD + n) :: post) ⊆ (item + PD + n) :: (A ++ (pre ++ item :: post)) := by
    intro q hq
    simp only [List.cons_append, List.mem_append, List.mem_cons] at *
    tauto
  have hperm' : (item + PD + n) :: (A ++ (pre ++ item :: post)) ⊆ item :: A ++ (pre ++ (item + PD + n) :: post) := by
    intro q hq
    simp only [List.cons_append, List.mem_append, List.mem_cons] at *
    tauto
  apply allocated_of h hs hn0 (hcut.sub hperm) hfree hnext
  · exact fun q hq => ⟨h4 q hq, h3 q (List.mem_append_left _ hq) fun he => hia (he ▸ hq)⟩
  · intro q hq hqf
    have hqF : q ∈ pre ++ post ∨ q = item + PD + n := by
      simp only [List.mem_append, List.mem_cons] at *
      tauto
    obtain hqF | rfl := hqF
    · rcases List.mem_cons.1 hq with rfl | hqA
      · exact hif hqF
      · exact h.apart q hqA (by simp only [List.mem_append, List.mem_cons] at *; tauto)
    · apply hnew
      rcases List.mem_cons.1 hq with he | hqA
      · rw [he]
        exact hitem
      · exact List.mem_append_left _ hqA
  · exact h1
  · intro a
    rw [← hcov a]
    exact ⟨fun hc => hc.sub hperm, fun hc => hc.sub hperm'⟩

theorem splitBlock_wp (h : Wellformed strict t free alloc (pre ++ item :: post) A)
    (hprev : AtEnd prev pre) (hn0 : n ≠ 0)
    (hn8 : n % 8 = 0) (hfit : n + PD ≤ t.field .size item) (hpage : strict = true → InPage (item + PD + n)) :
    (splitBlock n (t.field .size item) free alloc prev item).wp (device strict fails) S (fun r t' =>
      ∃ free', r = (item, free', item) ∧
        Allocated strict t n (pre ++ item :: post) A item free' t' (pre ++ (item + PD + n) :: post)) t := by
  obtain ⟨hnd, hif, hia⟩ := h.split_nodup
  have hN := h.blocks.nodes
  have hitem : item ∈ A ++ (pre ++ item :: post) := by simp
  obtain ⟨y, hpre, -, -, hpost⟩ := seg_append.1 h.free
  -- the new header
  have hmod : (item + PD + n) % 2 ^ 64 = item + PD + n := by
    have hin := h.blocks.inside item hitem
    have htop := h.blocks.top
    apply Nat.mod_eq_of_lt
    simp only [Flat.fin, MAXVA] at *
    omega
  have hlt : t.field .size item < 256 ^ Field.size.width := field_lt
  obtain ⟨hN', hnew⟩ := h.blocks.nodes_cons (a := item + PD + n) hitem (by omega) (by rw [Flat.fin]; omega) hpage
  obtain ⟨b, hbdef⟩ : ∃ b, b = item + PD + n := ⟨_, rfl⟩
  rw [splitBlock]
  apply hN.get hitem
  simp only [hmod]
  rw [← hbdef] at hN' hnew ⊢
  have hb : b ∈ b :: (A ++ (pre ++ item :: post)) := List.mem_cons_self
  have hap : ∀ q ∈ A ++ (pre ++ item :: post), Apart b q := fun q hq => hN'.apart hnew hq
  apply header_wp (hN'.ne_zero hb) (hN'.good b hb) (by simp [Field.width]) (lt_of_le_of_lt (by omega) hlt) field_lt
  intro t3 h3 hsize3 hnext3
  have hsub : pre ++ b :: post ⊆ b :: (A ++ (pre ++ item :: post)) := by
    intro q hq
    simp only [List.mem_append, List.mem_cons] at *
    tauto
  have hnd' : (pre ++ b :: post).Nodup := by
    refine (List.perm_middle.nodup_iff).2 (List.nodup_cons.2 ⟨fun hbm => hnew ?_, hnd⟩)
    simp only [List.mem_append, List.mem_cons] at *
    tauto
  have hpost3 : Seg (t3.field .next) b (b :: post) 0 := by
    refine seg_cons.2 ⟨rfl, hN'.ne_zero hb, ?_⟩
    rw [hnext3]
    exact hpost.congr fun q hq => h3.other q .next (hap q (by simp [hq]))
  rw [wp_bind]
  apply wp_mono (relink_wp hprev ((hN'.sub hsub).congr h3.same) hnd'
    (hpre.congr fun q hq => h3.other q .next (hap q (by simp [hq]))) hpost3 (hN'.lt_next hb))
  rintro free' t4 ⟨hfree, hrel⟩
  have hN4 := hN.congr (h3.same.trans hrel.same)
  apply header_wp (hN4.ne_zero hitem) (hN4.good item hitem) (by simp [Field.width])
    (lt_of_le_of_lt (by omega) hlt) h.alloc_lt
  intro t7 h7 hsize7 hnext7
  refine ⟨free', rfl, ?_⟩
  have hapi : ∀ q ∈ b :: (A ++ (pre ++ item :: post)), q ≠ item → Apart item q := fun q hq hne =>
    hN'.spaced item (List.mem_cons_of_mem _ hitem) q hq (Ne.symm hne)
  have hbi : b ≠ item := fun he => hnew (he ▸ hitem)
  -- the passed nodes have been relinked only
  have hsize4 : ∀ q ∈ b :: (A ++ (pre ++ item :: post)), t4.field .size q = t3.field .size q := fun q hq =>
    (hrel.sub fun p hp => by simp [hp]).size_mem (hN'.congr h3.same) hq
  subst hbdef
  apply allocated_split h hn0 hn8 hfit hpage ((h3.same.trans hrel.same).trans h7.same)
  · refine hfree.congr fun q hq => h7.other q .next (hapi q (hsub hq) ?_)
    rintro rfl
    rcases List.mem_append.1 hq with hq | hq
    · exact hif (List.mem_append_left _ hq)
    · rcases List.mem_cons.1 hq with he | hq
      · exact hbi he.symm
      · exact hif (List.mem_append_right _ hq)
  · exact hnext7
  · exact hsize7
  · rw [h7.other _ .size (hapi _ hb hbi), hsize4 _ hb, hsize3]
  · intro q hq hne
    rw [h7.other q .size (hapi q (List.mem_cons_of_mem _ hq) hne), hsize4 q (List.mem_cons_of_mem _ hq),
      h3.other q .size (hap q hq)]
  · intro q hq
    rw [h7.other q .next (hapi q (by simp [hq]) fun he => hia (he ▸ hq)), hrel.next q (h.clear (by simp) hq),
      h3.other q .next (hap q (by simp [hq]))]

def Unfit (t : Flat) (n p : ℕ) : Prop := t.field .size p ≠ n ∧ t.field .size p < n + PD

def FitPost (strict : Bool) (t : Flat) (n free alloc : ℕ) (F A : List ℕ) (r : ℕ × ℕ × ℕ) (t' : Flat) : Prop :=
  (r = (0, free, alloc) ∧ t' = t ∧ ∀ p ∈ F, Unfit t n p) ∨
  ∃ b free' F', r = (b, free', b) ∧ b ∈ F ∧ Allocated strict t n F A b free' t' F'

def SplitsInPage (t : Flat) (n : ℕ) (F : List ℕ) : Prop := ∀ p ∈ F, n + PD ≤ t.field .size p → InPage (p + PD + n)

theorem allocLoop_wp (hn0 : n ≠ 0) (hn8 : n % 8 = 0) (hn64 : n + PD < 2 ^ 64)
    (hpage : strict = true → SplitsInPage t n F) (h : Wellformed strict t free alloc F A) :
    ∀ (post pre : List ℕ) (turns prev item : ℕ), post.length < turns → F = pre ++ post →
      Seg (t.field .next) item post 0 → AtEnd prev pre → (∀ p ∈ pre, Unfit t n p) →
      (allocLoop n free alloc turns prev item).wp (device strict fails) S (FitPost strict t n free alloc F A) t := by
  intro post
  induction post with
  | nil =>
    intro pre turns prev item hlt hF hs _ hunfit
    obtain _ | turns := turns
    · cases hlt
    obtain rfl : item = 0 := hs
    refine .inl ⟨rfl, rfl, ?_⟩
    rwa [hF, List.append_nil]
  | cons c post ih =>
    intro pre turns prev item hlt hF hs hprev hunfit
    obtain _ | turns := turns
    · cases hlt
    obtain rfl : item = c := hs.1
    have hitem : item ∈ F := by simp [hF]
    have hN := h.blocks.nodes
    rw [allocLoop, if_neg hs.2.1]
    apply hN.get (List.mem_append_right _ hitem)
    rw [Nat.mod_eq_of_lt hn64]
    by_cases heq : t.field .size item = n
    · rw [if_pos heq]
      rw [hF] at h ⊢
      apply wp_mono (takeBlock_wp h hprev hn0 heq)
      intro r t' ⟨free', hr, hall⟩
      exact .inr ⟨item, free', _, hr, by simp, hall⟩
    · rw [if_neg heq]
      by_cases hsmall : t.field .size item < n + PD
      · rw [if_pos hsmall]
        apply hN.get (List.mem_append_right _ hitem)
        refine ih (pre ++ [item]) turns item _ (Nat.lt_of_succ_lt_succ hlt) (by simp [hF]) hs.2.2
          (.inr ⟨pre, rfl⟩) ?_
        intro p hp
        rcases List.mem_append.1 hp with hp | hp
        · exact hunfit p hp
        · rw [List.mem_singleton] at hp
          subst hp
          exact ⟨heq, hsmall⟩
      · rw [if_neg hsmall]
        have hfit : n + PD ≤ t.field .size item := by omega
        have hin : strict = true → InPage (item + PD + n) := fun hst => hpage hst item hitem hfit
        rw [hF] at h ⊢
        apply wp_mono (splitBlock_wp h hprev hn0 hn8 hfit hin)
        intro r t' ⟨free', hr, hall⟩
        exact .inr ⟨item, free', _, hr, by simp, hall⟩

theorem firstFitAlloc_wp (hn0 : n ≠ 0) (hn8 : n % 8 = 0) (hn64 : n + PD < 2 ^ 64)
    (hpage : strict = true → SplitsInPage t n F) (h : Wellformed strict t free alloc F A) :
    (firstFitAlloc n free alloc).wp (device strict fails) S (FitPost strict t n free alloc F A) t := by
  by_cases hf : free = 0 ∨ n = 0
  · obtain rfl : free = 0 := hf.resolve_right hn0
    obtain rfl := h.free.eq_nil
    exact .inl ⟨rfl, rfl, by simp⟩
  · rw [firstFitAlloc, if_neg hf]
    have hlen := (h.blocks.nodes.sub (List.subset_append_right A F)).length_lt h.free.nodup
    exact allocLoop_wp hn0 hn8 hn64 hpage h F [] TURNS 0 free hlen rfl h.free (.inl ⟨rfl, rfl⟩) (by simp)

/-! ## Release -/

theorem Placed.kept (h : Placed t item l l') : Kept t (item :: l) l' := by
  refine ⟨h.sub, ?_⟩
  intro q hq hz
  rcases List.mem_cons.1 hq with rfl | hq
  · exact h.mem hz
  · exact h.super hq

theorem release_wp (h : Blocks strict t (item :: F)) (hi : item ∉ F) (hs : Seg (t.field .next) free F 0) :
    (release item free).wp (device strict fails) S (fun free' t' => ∃ F',
      Seg (t'.field .next) free' F' 0 ∧ Merged strict t (item :: F) t' F') t := by
  have hN := h.nodes
  rw [release]
  apply hN.set List.mem_cons_self (head_lt (hN.sub (List.subset_cons_self item F)) hs)
  have hput : Relinks (item :: F) t (t.put .next item free) := relinks_put List.mem_cons_self
  have hm0 : Merged strict t (item :: F) (t.put .next item free) (item :: F) :=
    Kept.merged ⟨List.Subset.refl _, fun _ hq _ => hq⟩ hput h
  rw [wp_bind]
  apply wp_mono (sortHead_wp antisymm_pdFirstFitCmp hm0.blocks.nodes hi (seg_front hN hi hs))
  intro h1 t1 ⟨l1, hs1, hplaced, hrel⟩
  have hm1 := hm0.trans (hplaced.kept.merged hrel hm0.blocks)
  apply wp_mono (mergeFreeBlocks_wp antisymm_pdFirstFitCmp hm1.blocks hs1)
  intro h2 t2 ⟨l2, hs2, hm2⟩
  exact ⟨l2, hs2, hm1.trans hm2⟩

/-- what a release leaves -/
structure Released (strict : Bool) (t : Flat) (F A : List ℕ) (addr free' alloc' : ℕ) (t' : Flat)
    (F' A' : List ℕ) : Prop where
  heap : Wellformed strict t' free' alloc' F' A'
  rest : ∀ q, q ∈ A' ↔ q ∈ A ∧ q ≠ addr
  keep : ∀ q ∈ A', t'.field .size q = t.field .size q
  covered : ∀ a, Covered t' (A' ++ F') a → Covered t (A ++ F) a
  full : (∀ p ∈ F, t.field .size p ≠ 0) → ∀ a, Covered t (A ++ F) a → Covered t' (A' ++ F') a
  same : Same t t'

theorem released_of {A1 A2 : List ℕ} (h : Wellformed strict t free alloc F (A1 ++ item :: A2)) (hs1 : Same t t1)
    (hsize : ∀ q ∈ A1 ++ item :: A2 ++ F, t1.field .size q = t.field .size q)
    (halloc : Seg (t1.field .next) b (A1 ++ A2) 0) (hfree : Seg (t'.field .next) a F' 0)
    (hm : Merged strict t1 (item :: F) t' F') :
    Released strict t F (A1 ++ item :: A2) item a b t' F' (A1 ++ A2) := by
  obtain ⟨hi, hnd⟩ := List.nodup_cons.1 (List.perm_middle.nodup h.alloc.nodup)
  have hsub : A1 ++ A2 ++ item :: F ⊆ A1 ++ item :: A2 ++ F := by grind
  have hsub' : A1 ++ item :: A2 ++ F ⊆ A1 ++ A2 ++ item :: F := by grind
  have hsubA : ∀ q ∈ A1 ++ A2, q ∈ A1 ++ item :: A2 := by grind
  have hout : ∀ q ∈ A1 ++ A2, q ∉ item :: F := by
    intro q hq hqf
    rcases List.mem_cons.1 hqf with rfl | hqf
    · exact hi hq
    · exact h.apart q (hsubA q hq) hqf
  have hb1 := h.blocks.congr hs1 hsize
  have happ := Merged.append (hb1.sub hsub) hnd hout hm
  have hclear : ∀ q ∈ A1 ++ A2, Clear (item :: F) q := by
    intro q hq p hp
    refine hb1.nodes.spaced p (hsub (List.mem_append_right _ hp)) q (hsub (List.mem_append_left _ hq)) ?_
    rintro rfl
    exact hout p hq hp
  have hkeep : ∀ q ∈ A1 ++ A2, t'.field .size q = t.field .size q := by
    intro q hq
    rw [hm.frame q .size (hclear q hq) (by decide), hsize q (hsub (List.mem_append_left _ hq))]
  refine ⟨⟨happ.blocks, hfree, ?_, ?_, ?_⟩, ?_, hkeep, ?_, ?_, hs1.trans hm.same⟩
  · exact halloc.congr fun q hq => hm.frame q .next (hclear q hq) (by decide)
  · exact fun q hq hqf => hout q hq (hm.sub hqf)
  · intro q hq
    rw [hkeep q hq]
    exact h.positive q (hsubA q hq)
  · grind
  · intro x hx
    exact (covered_congr hsize).1 ((happ.covered x hx).sub hsub)
  · intro hz x hx
    apply happ.full
    · intro p hp
      rw [hsize p (hsub hp)]
      rcases List.mem_append.1 hp with hp | hp
      · exact h.positive p (hsubA p hp)
      · rcases List.mem_cons.1 hp with rfl | hp
        · exact h.positive p (by simp)
        · exact hz p hp
    · exact ((covered_congr hsize).2 hx).sub hsub'

theorem freeLoop_wp {addr : ℕ} (hS : addr ∉ A → S (.panic "free error: cannot find the allocated block.\n"))
    (h : Wellformed strict t free alloc F A) :
    ∀ (post pre : List ℕ) (turns prev item : ℕ), post.length < turns → A = pre ++ prev :: post →
      Seg (t.field .next) item post 0 → addr ∉ pre ++ [prev] →
      (freeLoop addr free alloc turns prev item).wp (device strict fails) S (fun r t' => ∃ F' A',
        Released strict t F A addr r.2.1 r.2.2 t' F' A') t := by
  intro post
  induction post with
  | nil =>
    intro pre turns prev item hlt hA hs hnot
    obtain _ | turns := turns
    · cases hlt
    obtain rfl : item = 0 := hs
    apply hS
    rwa [hA]
  | cons c post ih =>
    intro pre turns prev item hlt hA hs hnot
    obtain _ | turns := turns
    · cases hlt
    obtain rfl : item = c := hs.1
    have hitem : item ∈ A ++ F := by simp [hA]
    have hN := h.blocks.nodes
    rw [freeLoop, if_neg hs.2.1]
    apply hN.get hitem
    by_cases he : addr = item
    · subst he
      have hprev : prev ∈ A ++ F := by simp [hA]
      rw [if_pos rfl]
      apply hN.set hitem (by simp [Field.width])
      have hs1 : Same t (t.put .flag addr 0) := same_put
      have hnext1 : ∀ q ∈ A ++ F, (t.put .flag addr 0).field .next q = t.field .next q := fun q hq =>
        put_field hN hitem hq (by decide)
      apply (hN.congr hs1).get hitem
      apply (hN.congr hs1).set hprev field_lt
      rw [wp_bind]
      set t1 := (t.put .flag addr 0).put .next prev ((t.put .flag addr 0).field .next addr) with ht1
      have hs2 : Same t t1 := hs1.trans same_put
      have hsize : ∀ q ∈ A ++ F, t1.field .size q = t.field .size q := fun q hq => by
        rw [ht1, put_field (hN.congr hs1) hprev hq (by decide), put_field hN hitem hq (by decide)]
      have hallocN : Nodes strict (t.put .flag addr 0) (pre ++ prev :: addr :: post) :=
        (hN.sub (hA ▸ List.subset_append_left A F)).congr hs1
      have halloc0 : Seg ((t.put .flag addr 0).field .next) alloc (pre ++ prev :: addr :: post) 0 := by
        rw [← hA]
        exact h.alloc.congr fun q hq => hnext1 q (List.mem_append_left _ hq)
      have halloc1 : Seg (t1.field .next) alloc (pre ++ prev :: post) 0 := seg_unlink hallocN halloc0
      have hfree1 : Seg (t1.field .next) free F 0 := by
        refine h.free.congr fun q hq => ?_
        rw [ht1, field_put_apart, hnext1 q (List.mem_append_right _ hq)]
        refine hN.spaced prev hprev q (List.mem_append_right _ hq) ?_
        rintro rfl
        exact h.apart prev (by simp [hA]) hq
      have hif : addr ∉ F := h.apart addr (by simp [hA])
      have hb1 : Blocks strict t1 (addr :: F) := (h.blocks.congr hs2 hsize).sub (by
        intro q hq
        rcases List.mem_cons.1 hq with rfl | hq
        · exact hitem
        · exact List.mem_append_right _ hq)
      apply wp_mono (release_wp hb1 hif hfree1)
      rintro free' t' ⟨F', hfree', hm⟩
      have hsplit : A = (pre ++ [prev]) ++ addr :: post := by simp [hA]
      rw [hsplit] at h hsize ⊢
      refine ⟨F', _, released_of h hs2 hsize ?_ hfree' hm⟩
      rw [List.append_assoc]
      exact halloc1
    · rw [if_neg he]
      apply hN.get hitem
      refine ih (pre ++ [prev]) turns item _ (Nat.lt_of_succ_lt_succ hlt) (by simp [hA]) hs.2.2 ?_
      grind

theorem firstFitFree_wp {addr : ℕ} (hS1 : A = [] → S (.panic "free error: no allocated block.\n"))
    (hS : addr ∉ A → S (.panic "free error: cannot find the allocated block.\n"))
    (h : Wellformed strict t free alloc F A) :
    (firstFitFree addr free alloc).wp (device strict fails) S (fun r t' => ∃ F' A',
      Released strict t F A addr r.2.1 r.2.2 t' F' A') t := by
  cases A with
  | nil =>
    obtain rfl : alloc = 0 := h.alloc
    exact hS1 rfl
  | cons c A =>
    obtain rfl : alloc = c := h.alloc.1
    have hN := h.blocks.nodes
    have halloc : alloc ∈ alloc :: A ++ F := by simp
    rw [firstFitFree, if_neg (hN.ne_zero halloc)]
    apply hN.get halloc
    by_cases he : addr = alloc
    · subst he
      rw [if_pos rfl]
      apply hN.set halloc (by simp [Field.width])
      have hs1 : Same t (t.put .flag addr 0) := same_put
      have hnext1 : ∀ q ∈ addr :: A ++ F, (t.put .flag addr 0).field .next q = t.field .next q := fun q hq =>
        put_field hN halloc hq (by decide)
      have hsize : ∀ q ∈ addr :: A ++ F, (t.put .flag addr 0).field .size q = t.field .size q := fun q hq =>
        put_field hN halloc hq (by decide)
      apply (hN.congr hs1).get halloc
      rw [hnext1 addr halloc, wp_bind]
      have hif : addr ∉ F := h.apart addr (by simp)
      have hb1 : Blocks strict (t.put .flag addr 0) (addr :: F) := (h.blocks.congr hs1 hsize).sub (by
        intro q hq
        simp only [List.cons_append, List.mem_append, List.mem_cons] at *
        tauto)
      apply wp_mono (release_wp hb1 hif (h.free.congr fun q hq => hnext1 q (List.mem_append_right _ hq)))
      rintro free' t' ⟨F', hfree', hm⟩
      have h' : Wellformed strict t free addr F ([] ++ addr :: A) := h
      refine ⟨F', A, released_of h' hs1 hsize ?_ hfree' hm⟩
      exact h.alloc.2.2.congr fun q hq => hnext1 q (by simp [hq])
    · rw [if_neg he]
      apply hN.get halloc
      have hlen := (hN.sub (List.subset_append_left (alloc :: A) F)).length_lt h.alloc.nodup
      exact freeLoop_wp hS h A [] TURNS alloc _ (Nat.lt_of_succ_lt hlen) rfl h.alloc.2.2 (by simpa using he)

end RiscvPke.Heap
