/-
The block lists in memory: what the functions of kernel/process.c that only change links do to a list.
-/
import RiscvPke.Heap.Model
import RiscvPke.Core.Segment

namespace RiscvPke.Heap

open Bytes Program Segment

variable {strict fails : Bool} {S : Stop → Prop} {t t' t1 t2 : Flat} {f g : Field} {a b p q v head item prev cur : ℕ}
  {l l' l1 l2 m r : List ℕ} {α : Type}

/-! ## Fields -/

def Apart (p q : ℕ) : Prop := p + PD ≤ q ∨ q + PD ≤ p

theorem Apart.symm (h : Apart p q) : Apart q p := Or.symm h

theorem field_put_self (hv : v < 256 ^ f.width) : (t.put f p v).field f p = v := by
  rw [Flat.field]
  exact loadN_storeN_self hv

theorem field_put_other (h : f ≠ g) : (t.put f p v).field g p = t.field g p := by
  rw [Flat.field, Flat.field]
  apply loadN_storeN_of_disjoint
  cases f <;> cases g <;> simp_all [Field.offset, Field.width]

theorem field_put_apart (h : Apart p q) : (t.put f p v).field g q = t.field g q := by
  rw [Flat.field, Flat.field]
  apply loadN_storeN_of_disjoint
  simp only [Apart, PD] at h
  cases f <;> cases g <;> simp only [Field.offset, Field.width] <;> omega

theorem field_lt : t.field f p < 256 ^ f.width := by
  rw [Flat.field]
  exact loadN_lt

/-- everything but the memory -/
structure Same (t t' : Flat) : Prop where
  bottom : t'.heap_bottom = t.heap_bottom
  top : t'.heap_top = t.heap_top
  alloc : t'.alloc_list = t.alloc_list
  free : t'.free_list = t.free_list
  pages : t'.pages = t.pages

theorem Same.refl : Same t t := ⟨rfl, rfl, rfl, rfl, rfl⟩

theorem Same.trans (h1 : Same t t1) (h2 : Same t1 t2) : Same t t2 :=
  ⟨h2.bottom.trans h1.bottom, h2.top.trans h1.top, h2.alloc.trans h1.alloc, h2.free.trans h1.free,
    h2.pages.trans h1.pages⟩

theorem same_put : Same t (t.put f p v) := ⟨rfl, rfl, rfl, rfl, rfl⟩

/-- only the header at `b` differs -/
structure Touches (b : ℕ) (t t' : Flat) : Prop where
  same : Same t t'
  other : ∀ q f, Apart b q → t'.field f q = t.field f q

theorem touches_put : Touches b t (t.put f b v) := ⟨same_put, fun _ _ hq => field_put_apart hq⟩

theorem Touches.put (h : Touches b t t') : Touches b t (t'.put f b v) :=
  ⟨h.same.trans same_put, fun q g hq => (field_put_apart hq).trans (h.other q g hq)⟩

def Flat.setFree (t : Flat) (p : ℕ) : Flat := { t with free_list := p }

def Flat.setAlloc (t : Flat) (p : ℕ) : Flat := { t with alloc_list := p }

theorem field_mem (h : t'.mem = t.mem) : t'.field f p = t.field f p := by rw [Flat.field, Flat.field, h]

@[simp] theorem field_setFree : (t.setFree q).field f p = t.field f p := field_mem rfl
@[simp] theorem field_setAlloc : (t.setAlloc q).field f p = t.field f p := field_mem rfl
@[simp] theorem heap_top_setFree : (t.setFree q).heap_top = t.heap_top := rfl
@[simp] theorem heap_top_setAlloc : (t.setAlloc q).heap_top = t.heap_top := rfl
@[simp] theorem heap_bottom_setFree : (t.setFree q).heap_bottom = t.heap_bottom := rfl
@[simp] theorem heap_bottom_setAlloc : (t.setAlloc q).heap_bottom = t.heap_bottom := rfl
@[simp] theorem pages_setFree : (t.setFree q).pages = t.pages := rfl
@[simp] theorem free_list_setFree : (t.setFree q).free_list = q := rfl
@[simp] theorem free_list_setAlloc : (t.setAlloc q).free_list = t.free_list := rfl
@[simp] theorem alloc_list_setFree : (t.setFree q).alloc_list = t.alloc_list := rfl
@[simp] theorem alloc_list_setAlloc : (t.setAlloc q).alloc_list = q := rfl

/-! ## The device -/

/-- the header is inside one page -/
def InPage (p : ℕ) : Prop := p % PGSIZE + PD ≤ PGSIZE

instance (p : ℕ) : Decidable (InPage p) := inferInstanceAs (Decidable (_ ≤ _))

def Good (strict : Bool) (t : Flat) (p : ℕ) : Prop := t.HasHeader p ∧ (strict = true → InPage p)

theorem Good.congr (h : Good strict t p) (hs : Same t t') : Good strict t' p := by
  unfold Good Flat.HasHeader at *
  rwa [hs.bottom, hs.top]

/-- one page more, with any contents; `pages` counts pages that are there for sure -/
structure Grown (t t' : Flat) : Prop where
  room : t.heap_top + PGSIZE ≤ MAXVA
  bottom : t'.heap_bottom = t.heap_bottom
  top : t'.heap_top = t.heap_top + PGSIZE
  alloc : t'.alloc_list = t.alloc_list
  free : t'.free_list = t.free_list
  pages : t'.pages = t.pages - 1
  mem : ∀ b, b < t.heap_top ∨ t.heap_top + PGSIZE ≤ b → t'.mem b = t.mem b

def answer (fails : Bool) : (c : Call) → Flat → Ans c → Flat → Prop
  | .get f p, t, r, t' => r = t.field f p ∧ t' = t
  | .set f p v, t, _, t' => t' = t.put f p v
  | .freeList, t, r, t' => r = t.free_list ∧ t' = t
  | .allocList, t, r, t' => r = t.alloc_list ∧ t' = t
  | .setFreeList p, t, _, t' => t' = t.setFree p
  | .setAllocList p, t, _, t' => t' = t.setAlloc p
  | .heapTop, t, r, t' => r = t.heap_top ∧ t' = t
  | .grow, t, r, t' => (r = true ∧ Grown t t') ∨ (fails = true ∧ r = false ∧ t.pages = 0 ∧ t' = t)
  | .unmap _, t, _, t' => t' = t
  | .releaseHeap, t, _, t' => t' = t

def device (strict fails : Bool) : Device Call Ans Flat where
  ok c t := match c with
    | .get _ p => Good strict t p
    | .set _ p _ => Good strict t p
    -- only exit gives pages back, see `leaving`
    | .unmap _ => False
    | .releaseHeap => False
    | _ => True
  answer := answer fails

/-! ## Rules -/

section Rules

variable {Q : ℕ → Flat → Prop} {R : Unit → Flat → Prop}

theorem wp_get (h0 : p ≠ 0) (hg : Good strict t p) (hQ : Q (t.field f p) t) :
    (getField f p).wp (device strict fails) S Q t := by
  rw [getField, if_neg h0]
  refine ⟨hg, ?_⟩
  intro r t' ⟨hr, ht⟩
  rw [hr, ht]
  exact hQ

theorem wp_set (h0 : p ≠ 0) (hg : Good strict t p) (hv : v < 256 ^ f.width) (hR : R () (t.put f p v)) :
    (setField f p v).wp (device strict fails) S R t := by
  rw [setField, if_neg h0, Nat.mod_eq_of_lt hv]
  refine ⟨hg, ?_⟩
  intro r t' ht
  obtain rfl : t' = _ := ht
  exact hR

theorem wp_freeList (hQ : Q t.free_list t) : (ask .freeList).wp (device strict fails) S Q t := by
  refine ⟨trivial, ?_⟩
  intro r t' ⟨hr, ht⟩
  rw [hr, ht]
  exact hQ

theorem wp_allocList (hQ : Q t.alloc_list t) : (ask .allocList).wp (device strict fails) S Q t := by
  refine ⟨trivial, ?_⟩
  intro r t' ⟨hr, ht⟩
  rw [hr, ht]
  exact hQ

theorem wp_heapTop (hQ : Q t.heap_top t) : (ask .heapTop).wp (device strict fails) S Q t := by
  refine ⟨trivial, ?_⟩
  intro r t' ⟨hr, ht⟩
  rw [hr, ht]
  exact hQ

theorem wp_setFreeList (hR : R () (t.setFree p)) : (ask (.setFreeList p)).wp (device strict fails) S R t := by
  refine ⟨trivial, ?_⟩
  intro r t' ht
  obtain rfl : t' = _ := ht
  exact hR

theorem wp_setAllocList (hR : R () (t.setAlloc p)) : (ask (.setAllocList p)).wp (device strict fails) S R t := by
  refine ⟨trivial, ?_⟩
  intro r t' ht
  obtain rfl : t' = _ := ht
  exact hR

theorem wp_grow {R : Bool → Flat → Prop} (h1 : ∀ t', Grown t t' → R true t')
    (h2 : fails = true → t.pages = 0 → R false t) : (ask .grow).wp (device strict fails) S R t := by
  refine ⟨trivial, ?_⟩
  intro r t' hr
  obtain ⟨rfl, hg⟩ | ⟨hf, rfl, hp, rfl⟩ := hr
  · exact h1 t' hg
  · exact h2 hf hp

end Rules

/-! ## Nodes -/

/-- no header of `l` has a byte of the header at `q` -/
def Clear (l : List ℕ) (q : ℕ) : Prop := ∀ p ∈ l, Apart p q

/-- the headers of `l` can be used side by side -/
structure Nodes (strict : Bool) (t : Flat) (l : List ℕ) : Prop where
  good : ∀ p ∈ l, Good strict t p
  spaced : ∀ p ∈ l, ∀ q ∈ l, p ≠ q → Apart p q
  bottom : 0 < t.heap_bottom
  top : t.heap_top ≤ MAXVA

theorem Nodes.sub (h : Nodes strict t l) (hsub : l' ⊆ l) : Nodes strict t l' :=
  ⟨fun p hp => h.good p (hsub hp), fun p hp q hq => h.spaced p (hsub hp) q (hsub hq), h.bottom, h.top⟩

theorem Nodes.congr (h : Nodes strict t l) (hs : Same t t') : Nodes strict t' l :=
  ⟨fun p hp => (h.good p hp).congr hs, h.spaced, by rw [hs.bottom]; exact h.bottom, by rw [hs.top]; exact h.top⟩

theorem Nodes.ne_zero (h : Nodes strict t l) (hp : p ∈ l) : p ≠ 0 := by
  have h1 := (h.good p hp).1.1
  have h2 := h.bottom
  omega

theorem Nodes.lt (h : Nodes strict t l) (hp : p ∈ l) : p < MAXVA := by
  have h1 := (h.good p hp).1.2
  have h2 := h.top
  simp only [PD] at h1
  omega

theorem Nodes.lt_next (h : Nodes strict t l) (hp : p ∈ l) : p < 256 ^ Field.next.width := by
  have := h.lt hp
  simp only [Field.width, MAXVA] at *
  omega

theorem Nodes.apart (h : Nodes strict t (a :: l)) (ha : a ∉ l) (hq : q ∈ l) : Apart a q :=
  h.spaced a List.mem_cons_self q (List.mem_cons_of_mem a hq) fun he => ha (he ▸ hq)

section Rules

variable {Q : α → Flat → Prop}

theorem Nodes.get {k : ℕ → H α} (h : Nodes strict t l) (hp : p ∈ l)
    (hQ : (k (t.field f p)).wp (device strict fails) S Q t) :
    (getField f p >>= k).wp (device strict fails) S Q t := wp_bind.2 (wp_get (h.ne_zero hp) (h.good p hp) hQ)

theorem Nodes.set {k : Unit → H α} (h : Nodes strict t l) (hp : p ∈ l) (hv : v < 256 ^ f.width)
    (hQ : (k ()).wp (device strict fails) S Q (t.put f p v)) : (setField f p v >>= k).wp (device strict fails) S Q t :=
  wp_bind.2 (wp_set (h.ne_zero hp) (h.good p hp) hv hQ)

theorem header_wp {flag size next : ℕ} {k : Unit → H α} (h0 : b ≠ 0) (hg : Good strict t b)
    (hf : flag < 256 ^ Field.flag.width) (hs : size < 256 ^ Field.size.width) (hn : next < 256 ^ Field.next.width)
    (hQ : ∀ t', Touches b t t' → t'.field .size b = size → t'.field .next b = next →
      (k ()).wp (device strict fails) S Q t') :
    (setFlag b flag >>= fun _ => setSize b size >>= fun _ => setNext b next >>= k).wp (device strict fails) S Q t := by
  rw [wp_bind]
  apply wp_set h0 hg hf
  rw [wp_bind]
  apply wp_set h0 (hg.congr same_put) hs
  rw [wp_bind]
  apply wp_set h0 (hg.congr (same_put.trans same_put)) hn
  refine hQ _ touches_put.put.put ?_ (field_put_self hn)
  rw [field_put_other (by decide), field_put_self hs]

end Rules

theorem Nodes.length_lt (h : Nodes strict t l) (hn : l.Nodup) : l.length < TURNS := by
  have hsub : l.toFinset ⊆ Finset.range MAXVA := by
    intro p hp
    exact Finset.mem_range.2 (h.lt (List.mem_toFinset.1 hp))
  have hcard := Finset.card_le_card hsub
  rw [List.toFinset_card_of_nodup hn, Finset.card_range] at hcard
  simp only [TURNS, MAXVA] at *
  omega

/-! ## Changes of links -/

/-- only `next` fields of headers of `l` differ -/
structure Relinks (l : List ℕ) (t t' : Flat) : Prop where
  same : Same t t'
  size : ∀ q, (∀ p ∈ l, p = q ∨ Apart p q) → t'.field .size q = t.field .size q
  next : ∀ q, Clear l q → t'.field .next q = t.field .next q

theorem Relinks.refl : Relinks l t t := ⟨.refl, fun _ _ => rfl, fun _ _ => rfl⟩

theorem Relinks.trans (h1 : Relinks l t t1) (h2 : Relinks l t1 t2) : Relinks l t t2 :=
  ⟨h1.same.trans h2.same, fun q hq => (h2.size q hq).trans (h1.size q hq),
    fun q hq => (h2.next q hq).trans (h1.next q hq)⟩

theorem Relinks.sub (h : Relinks l t t') (hsub : l ⊆ l') : Relinks l' t t' :=
  ⟨h.same, fun q hq => h.size q fun p hp => hq p (hsub hp), fun q hq => h.next q fun p hp => hq p (hsub hp)⟩

theorem relinks_put (hp : p ∈ l) : Relinks l t (t.put .next p v) where
  same := same_put
  size q hq := by
    obtain rfl | hap := hq p hp
    · exact field_put_other (by decide)
    · exact field_put_apart hap
  next q hq := field_put_apart (hq p hp)

theorem Relinks.size_mem (h : Relinks l t t') (hn : Nodes strict t l) (hq : q ∈ l) :
    t'.field .size q = t.field .size q := by
  apply h.size q
  intro p hp
  by_cases he : p = q
  · exact .inl he
  · exact .inr (hn.spaced p hp q hq he)

theorem Relinks.seg (h : Relinks l t t') (hs : Seg (t.field .next) a m b) (hm : ∀ q ∈ m, Clear l q) :
    Seg (t'.field .next) a m b := hs.congr fun q hq => h.next q (hm q hq)

theorem seg_put (hs : Seg (t.field .next) a m b) (hm : ∀ q ∈ m, Apart p q) :
    Seg ((t.put .next p v).field .next) a m b :=
  hs.congr fun q hq => field_put_apart (hm q hq)

/-! ## Putting a block into a list -/

theorem head_lt (hn : Nodes strict t l) (hs : Seg (t.field .next) head l 0) : head < 256 ^ Field.next.width := by
  cases l with
  | nil =>
    obtain rfl : head = 0 := hs
    simp [Field.width]
  | cons c l =>
    obtain rfl : head = c := hs.1
    exact hn.lt_next List.mem_cons_self

theorem seg_front (hn : Nodes strict t (item :: l)) (hi : item ∉ l) (hs : Seg (t.field .next) head l 0) :
    Seg ((t.put .next item head).field .next) item (item :: l) 0 := by
  refine seg_cons.2 ⟨rfl, hn.ne_zero List.mem_cons_self, ?_⟩
  rw [field_put_self (head_lt (hn.sub (List.subset_cons_self item l)) hs)]
  exact seg_put hs fun q hq => hn.apart hi hq

def Antisymm (cmp : Cmp) : Prop := ∀ a b, 0 < cmp a b → cmp b a < 0

theorem antisymm_pdFirstFitCmp : Antisymm pdFirstFitCmp := by
  intro a b h
  simp only [pdFirstFitCmp, Int.bmod] at *
  omega

variable {cmp : Cmp}

theorem advance_wp : ∀ (post pre : List ℕ) (turns prev cur : ℕ), post.length < turns → Nodes strict t (cur :: post) →
      Seg (t.field .next) cur (cur :: post) 0 → (pre = [] ∨ ∃ init, pre = init ++ [prev]) →
      (advance cmp item turns prev cur).wp (device strict fails) S (fun r t' => t' = t ∧ ∃ pre' post',
        pre ++ cur :: post = pre' ++ r.2 :: post' ∧
          ((pre' = [] ∧ pre = [] ∧ r.2 = cur) ∨ ∃ init, pre' = init ++ [r.1]) ∧
        (post' = [] ∨ ¬ cmp r.2 item < 0)) t := by
  intro post
  induction post with
  | nil =>
    intro pre turns prev cur hlt hn hs hpre
    obtain _ | turns := turns
    · cases hlt
    rw [advance]
    apply hn.get List.mem_cons_self
    have hnext : t.field .next cur = 0 := hs.2.2
    grind [wp_pure]
  | cons c post ih =>
    intro pre turns prev cur hlt hn hs hpre
    obtain _ | turns := turns
    · cases hlt
    rw [advance]
    apply hn.get List.mem_cons_self
    have hnext : t.field .next cur = c := hs.2.2.1
    rw [hnext]
    by_cases hc : c ≠ 0 ∧ cmp cur item < 0
    · rw [if_pos hc]
      have hstep := ih (pre ++ [cur]) turns cur c (Nat.lt_of_succ_lt_succ hlt)
        (hn.sub (List.subset_cons_self _ _)) (hnext ▸ hs.2.2) (.inr ⟨pre, rfl⟩)
      grind
    · rw [if_neg hc, wp_pure]
      refine ⟨rfl, pre, c :: post, rfl, ?_, .inr fun hlt' => hc ⟨hs.2.2.2.1, hlt'⟩⟩
      grind

theorem seg_link (hn : Nodes strict t (item :: (l1 ++ a :: l2))) (hi : item ∉ l1 ++ a :: l2)
    (hs : Seg (t.field .next) head (l1 ++ a :: l2) 0) (hv : t.field .next a = v) :
    Seg (((t.put .next a item).put .next item v).field .next) head (l1 ++ a :: item :: l2) 0 := by
  have ha : a ∈ l1 ++ a :: l2 := by simp
  have hnodup := hs.nodup
  have hkeep : ∀ q ∈ l1 ++ a :: l2,
    q ≠ a → ((t.put .next a item).put .next item v).field .next q = t.field .next q := by
    intro q hq hqa
    rw [field_put_apart (hn.apart hi hq),
      field_put_apart (hn.spaced a (List.mem_cons_of_mem _ ha) q (List.mem_cons_of_mem _ hq) (Ne.symm hqa))]
  rw [List.nodup_append, List.nodup_cons] at hnodup
  obtain ⟨-, ⟨ha2, -⟩, hdis⟩ := hnodup
  have hvlt : v < 256 ^ Field.next.width := hv ▸ field_lt
  refine hs.insert (fun q hq => hkeep q (by simp [hq]) ?_) (fun q hq => hkeep q (by simp [hq]) ?_) ?_
    (hn.ne_zero List.mem_cons_self) ?_
  · exact hdis q hq a List.mem_cons_self
  · exact fun he => ha2 (he ▸ hq)
  · rw [field_put_apart (hn.apart hi ha), field_put_self (hn.lt_next List.mem_cons_self)]
  · rw [field_put_self hvlt, hv]

def Placed (t : Flat) (item : ℕ) (l l' : List ℕ) : Prop := l'.Perm (item :: l) ∨ (t.field .size item = 0 ∧ l' = l)

section

variable (hcmp : Antisymm cmp) (hn : Nodes strict t (item :: l)) (hi : item ∉ l)

include hcmp hn hi

theorem putBack_wp (hs : Seg (t.field .next) head l 0) :
    (putBack cmp head head item).wp (device strict fails) S (fun h' t' => ∃ l',
      Seg (t'.field .next) h' l' 0 ∧ Placed t item l l' ∧ Relinks (item :: l) t t') t := by
  have hilt := hn.lt_next List.mem_cons_self
  rw [putBack]
  apply hn.get List.mem_cons_self
  by_cases hz : t.field .size item = 0
  · rw [if_pos hz, wp_pure]
    exact ⟨l, hs, .inr ⟨hz, rfl⟩, .refl⟩
  rw [if_neg hz]
  by_cases hle : head = 0 ∨ cmp item head ≤ 0
  · rw [if_pos hle]
    apply hn.set List.mem_cons_self (head_lt (hn.sub (List.subset_cons_self item l)) hs)
    exact ⟨item :: l, seg_front hn hi hs, .inl (.refl _), relinks_put List.mem_cons_self⟩
  rw [if_neg hle, wp_bind]
  push Not at hle
  cases l with
  | nil => exact absurd hs hle.1
  | cons c l =>
    obtain rfl : head = c := hs.1
    have hnl := hn.sub (List.subset_cons_self item (head :: l))
    apply wp_mono (advance_wp l [] TURNS head head (Nat.lt_of_succ_lt (hnl.length_lt hs.nodup)) hnl hs (.inl rfl))
    intro ⟨prev, cur⟩ t1 ⟨ht1, pre, post, hsplit, hpre, hstop⟩
    rw [ht1]
    simp only [List.nil_append] at hsplit hpre hstop
    rw [hsplit] at hs hn hi hnl ⊢
    have hcur : cur ∈ pre ++ cur :: post := by simp
    obtain ⟨x, -, hx⟩ := seg_append.1 hs
    apply hnl.get hcur
    by_cases hend : t.field .next cur = 0 ∧ cmp cur item < 0
    · -- the item comes behind the last node
      have hpost : post = [] := by grind
      subst hpost
      rw [if_pos hend]
      apply hnl.set hcur hilt
      apply (hn.congr same_put).set List.mem_cons_self (by simp [Field.width])
      refine ⟨pre ++ [cur, item], seg_link hn hi hs hend.1, Or.inl ?_, ?_⟩
      · grind
      · exact (relinks_put (by simp)).trans (relinks_put (by simp))
    · -- the item comes between two nodes: the walk has left the first one
      have hinit : ∃ init, pre = init ++ [prev] := by
        obtain ⟨rfl, -, rfl⟩ | hinit := hpre
        · exfalso
          have hlt := hcmp item cur hle.2
          obtain rfl | hstop := hstop
          · exact hend ⟨hx.2.2, hlt⟩
          · exact hstop hlt
        · exact hinit
      obtain ⟨init, rfl⟩ := hinit
      rw [List.append_assoc] at hs hn hi
      have hnext : t.field .next prev = cur := by
        obtain ⟨y, -, hy⟩ := seg_append.1 hs
        exact hy.2.2.1
      rw [if_neg hend]
      apply hnl.set (by simp) hilt
      apply (hn.congr same_put).set List.mem_cons_self (hnl.lt_next hcur)
      refine ⟨init ++ prev :: item :: cur :: post, seg_link hn hi hs hnext, Or.inl ?_, ?_⟩
      · grind
      · exact (relinks_put (by simp)).trans (relinks_put (by simp))

theorem sortHead_wp (hs : Seg (t.field .next) item (item :: l) 0) :
    (sortPdListAscend item item cmp).wp (device strict fails) S (fun h' t' => ∃ l',
      Seg (t'.field .next) h' l' 0 ∧ Placed t item l l' ∧ Relinks (item :: l) t t') t := by
  rw [sortPdListAscend, if_neg (by simp [hs.2.1]), if_pos rfl]
  apply hn.get List.mem_cons_self
  exact putBack_wp hcmp hn hi hs.2.2

theorem insertFreeBlock_wp (hs : Seg (t.field .next) head l 0) :
    (insertFreeBlock head item cmp).wp (device strict fails) S (fun h' t' => ∃ l',
      Seg (t'.field .next) h' l' 0 ∧ Placed t item l l' ∧ Relinks (item :: l) t t') t := by
  have hhead := head_lt (hn.sub (List.subset_cons_self item l)) hs
  have hput : Relinks (item :: l) t (t.put .next item head) := relinks_put List.mem_cons_self
  rw [insertFreeBlock, if_neg (by simp [hn.ne_zero List.mem_cons_self])]
  by_cases h0 : head = 0
  · subst h0
    obtain rfl := hs.eq_nil
    rw [if_pos rfl]
    apply hn.set List.mem_cons_self hhead
    exact ⟨[item], seg_front hn hi hs, .inl (.refl _), hput⟩
  · rw [if_neg h0]
    apply hn.set List.mem_cons_self hhead
    apply wp_mono (sortHead_wp hcmp (hn.congr hput.same) hi (seg_front hn hi hs))
    intro h' t' ⟨l', hs', hplaced, hrel⟩
    refine ⟨l', hs', ?_, hput.trans hrel⟩
    rwa [Placed, hput.size_mem hn List.mem_cons_self] at hplaced

end

theorem Placed.sub (h : Placed t item l l') : l' ⊆ item :: l := by
  obtain hp | ⟨-, rfl⟩ := h
  · exact hp.subset
  · exact List.subset_cons_self _ _

theorem Placed.super (h : Placed t item l l') : l ⊆ l' := by
  obtain hp | ⟨-, rfl⟩ := h
  · exact fun q hq => hp.symm.subset (List.mem_cons_of_mem item hq)
  · exact List.Subset.refl _

theorem Placed.mem (h : Placed t item l l') (hz : t.field .size item ≠ 0) : item ∈ l' := by
  obtain hp | ⟨hz', -⟩ := h
  · exact hp.symm.subset List.mem_cons_self
  · exact absurd hz' hz

/-! ## Sorting -/

/-- what is left of a list after sorting: blocks of size 0 may be lost -/
structure Kept (t : Flat) (l l' : List ℕ) : Prop where
  sub : l' ⊆ l
  mem : ∀ q ∈ l, t.field .size q ≠ 0 → q ∈ l'

theorem sortLoop_wp (hcmp : Antisymm cmp) :
    ∀ (r m : List ℕ) (turns sorted cur : ℕ) (t : Flat), r.length < turns → Nodes strict t (m ++ r) → (m ++ r).Nodup →
      Seg (t.field .next) sorted m 0 → Seg (t.field .next) cur r 0 →
      (sortLoop cmp turns sorted cur).wp (device strict fails) S (fun h' t' => ∃ l',
        Seg (t'.field .next) h' l' 0 ∧ m ⊆ l' ∧ Kept t (m ++ r) (m ++ l') ∧ Relinks (m ++ r) t t') t := by
  intro r
  -- the sorted part grows by the nodes of the rest, one at a time
  induction r with
  | nil =>
    intro m turns sorted cur t hlt hn hnd hm hr
    obtain _ | turns := turns
    · cases hlt
    obtain rfl : cur = 0 := hr
    exact ⟨m, hm, List.Subset.refl _, ⟨by simp, fun q hq _ => by simpa using hq⟩, .refl⟩
  | cons c r ih =>
    intro m turns sorted cur t hlt hn hnd hm hr
    obtain _ | turns := turns
    · cases hlt
    obtain ⟨rfl, hc0, hr⟩ := hr
    have hcur : cur ∈ m ++ cur :: r := by simp
    obtain ⟨hcm, hnd'⟩ := List.nodup_cons.1 (List.perm_middle.nodup hnd)
    rw [List.mem_append, not_or] at hcm
    have hsub : cur :: m ⊆ m ++ cur :: r := by grind
    rw [sortLoop, if_neg hc0]
    apply hn.get hcur
    rw [wp_bind]
    apply wp_mono (insertFreeBlock_wp hcmp (hn.sub hsub) hcm.1 hm)
    intro h1 t1 ⟨m1, hm1, hplaced, hrel⟩
    have hclear : ∀ q ∈ r, Clear (cur :: m) q := by
      intro q hq p hp
      apply hn.spaced p (hsub hp) q (by simp [hq])
      grind
    have hsub1 : m1 ++ r ⊆ m ++ cur :: r := by
      intro q hq
      rcases List.mem_append.1 hq with hq | hq
      · exact hsub (hplaced.sub hq)
      · simp [hq]
    have hnd1 : (m1 ++ r).Nodup := by
      obtain hp | ⟨-, rfl⟩ := hplaced
      · exact ((hp.append_right r).trans List.perm_middle.symm).symm.nodup hnd
      · exact hnd'
    have hstep := ih m1 turns h1 _ t1 (Nat.lt_of_succ_lt_succ hlt)
      ((hn.sub hsub1).congr hrel.same) hnd1 hm1 (hrel.seg hr hclear)
    apply wp_mono hstep
    intro h' t' ⟨l', hs', hml, hkept, hrel'⟩
    refine ⟨l', hs', fun q hq => hml (hplaced.super hq), ⟨?_, ?_⟩, (hrel.sub hsub).trans (hrel'.sub hsub1)⟩
    · intro q hq
      rcases List.mem_append.1 hq with hq | hq
      · simp [hq]
      · exact hsub1 (hkept.sub (List.mem_append_right _ hq))
    · intro q hq hz
      have hz1 : t1.field .size q ≠ 0 := by rwa [(hrel.sub hsub).size_mem hn hq]
      rcases List.mem_append.1 hq with hq | hq
      · exact List.mem_append_left _ hq
      · apply List.mem_append_right
        rcases List.mem_cons.1 hq with rfl | hq
        · exact hml (hplaced.mem hz)
        · rcases List.mem_append.1 (hkept.mem q (List.mem_append_right _ hq) hz1) with h | h
          · exact hml h
          · exact h

theorem sortFreeListAscend_wp (hcmp : Antisymm cmp) (hn : Nodes strict t l) (hs : Seg (t.field .next) head l 0) :
    (sortFreeListAscend head cmp).wp (device strict fails) S (fun h' t' => ∃ l',
      Seg (t'.field .next) h' l' 0 ∧ Kept t l l' ∧ Relinks l t t') t := by
  by_cases h0 : head = 0
  · subst h0
    obtain rfl := hs.eq_nil
    exact ⟨[], rfl, ⟨List.Subset.refl _, fun _ hq _ => hq⟩, .refl⟩
  · rw [sortFreeListAscend, if_neg h0]
    apply wp_mono (sortLoop_wp hcmp l [] TURNS 0 head t (hn.length_lt hs.nodup) hn hs.nodup rfl hs)
    grind

/-! ## Taking a block out -/

theorem findPrev_wp : ∀ (post : List ℕ) (turns prev : ℕ), post.length < turns → Nodes strict t (prev :: post) →
      Seg (t.field .next) prev (prev :: post) 0 → item ∈ post →
      (findPrev item turns prev).wp (device strict fails) S (fun r t' => t' = t ∧ ∃ l1 l2,
        prev :: post = l1 ++ r :: item :: l2) t := by
  intro post
  induction post with
  | nil =>
    intro turns prev _ _ _ hmem
    exact absurd hmem List.not_mem_nil
  | cons c post ih =>
    intro turns prev hlt hn hs hmem
    obtain _ | turns := turns
    · cases hlt
    have hnext : t.field .next prev = c := hs.2.2.1
    rw [findPrev, if_neg hs.2.1]
    apply hn.get List.mem_cons_self
    rw [hnext]
    by_cases hc : c = item
    · rw [if_pos hc, wp_pure]
      exact ⟨rfl, [], post, by rw [hc]; rfl⟩
    · rw [if_neg hc]
      have hs2 := hs.2.2
      rw [hnext] at hs2
      have hmem' : item ∈ post := by grind
      apply wp_mono (ih turns c (Nat.lt_of_succ_lt_succ hlt) (hn.sub (List.subset_cons_self _ _)) hs2 hmem')
      grind

theorem seg_unlink (hn : Nodes strict t (l1 ++ a :: b :: l2)) (hs : Seg (t.field .next) head (l1 ++ a :: b :: l2) 0) :
    Seg ((t.put .next a (t.field .next b)).field .next) head (l1 ++ a :: l2) 0 := by
  have hnodup := hs.nodup
  rw [List.nodup_append, List.nodup_cons] at hnodup
  obtain ⟨-, ⟨ha2, -⟩, hdis⟩ := hnodup
  have ha : a ∈ l1 ++ a :: b :: l2 := by simp
  refine hs.remove (fun q hq => ?_) (fun q hq => ?_) (field_put_self field_lt)
  · exact field_put_apart (hn.spaced a ha q (by simp [hq]) (Ne.symm (hdis q hq a List.mem_cons_self)))
  · exact field_put_apart (hn.spaced a ha q (by simp [hq]) fun he => ha2 (by simp [he, hq]))

theorem removeFromPdList_wp (hn : Nodes strict t l) (hs : Seg (t.field .next) head l 0) (hi : item ∈ l) :
    (removeFromPdList head item).wp (device strict fails) S (fun h' t' => ∃ l1 l2, l = l1 ++ item :: l2 ∧
      Seg (t'.field .next) h' (l1 ++ l2) 0 ∧ Relinks l1 t t') t := by
  have hi0 := hn.ne_zero hi
  cases l with
  | nil => exact absurd hi List.not_mem_nil
  | cons c l =>
    obtain rfl : head = c := hs.1
    rw [removeFromPdList, if_neg (by simp [hi0, hs.2.1])]
    by_cases he : head = item
    · subst he
      rw [if_pos rfl]
      apply wp_get hi0 (hn.good head hi)
      exact ⟨[], l, rfl, hs.2.2, .refl⟩
    · rw [if_neg he, wp_bind]
      have hmem : item ∈ l := by grind
      apply wp_mono (findPrev_wp l TURNS head (Nat.lt_of_succ_lt (hn.length_lt hs.nodup)) hn hs hmem)
      intro prev t1 ⟨ht1, l1, l2, hsplit⟩
      rw [ht1]
      rw [hsplit] at hs hn ⊢
      have hprev : prev ∈ l1 ++ prev :: item :: l2 := by simp
      rw [if_neg (hn.ne_zero hprev)]
      apply hn.get (by simp)
      apply hn.set hprev field_lt
      refine ⟨l1 ++ [prev], l2, by simp, ?_, relinks_put (by simp)⟩
      rw [List.append_assoc]
      exact seg_unlink hn hs

end RiscvPke.Heap
