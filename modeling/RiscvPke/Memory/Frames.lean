/-
Who holds which frame. `Frames K s` relates the leaf entries of all page tables to the free list and to
`page_ref_count`:
-/
import RiscvPke.Memory.Pages

namespace RiscvPke.Memory

open Function RiscvPke.Count

variable {K : Machine} {s s' s1 s2 : St} {p q : Slot} {v w f g : ℕ} {l m : List ℕ} {o : Option Pte} {a b : Pte}

/-! ## Definitions -/

def Kind.counted : Kind → Bool
  | .stack => true
  | .grown => true
  | .data => true
  | .heap => true
  | .sys => false
  | .code => false
  | .spill => false

def frameOf (o : Option Pte) : Option ℕ := o.bind fun a => if a.kind.counted then some a.ppn else none

def countedAt (s : St) (k : Slot × ℕ) : Option ℕ := frameOf (leafAt s k.1 k.2)

def BitsOk (a : Pte) : Prop :=
  (a.kind = .heap → a.r = true ∧ a.u = true ∧ a.cow = !a.w) ∧ (a.kind ≠ .heap → a.cow = false)

structure Frames (K : Machine) (s : St) : Prop where
  nodup : s.free.Nodup
  range : ∀ f ∈ s.free, K.start ≤ f ∧ f < K.stop
  unkept : ∀ f ∈ s.free, s.kept f = none
  apart : ∀ p v a, leafAt s p v = some a → a.kind ≠ .spill → a.kind ≠ .sys → s.kept a.ppn = none
  notFree : ∀ p v a, leafAt s p v = some a → a.kind ≠ .spill → a.ppn ∉ s.free
  inRange : ∀ p v a, leafAt s p v = some a → a.kind ≠ .spill → a.kind ≠ .sys → K.start ≤ a.ppn ∧ a.ppn < K.stop
  excl : ∀ p v a q w b, leafAt s p v = some a → leafAt s q w = some b → a.kind ≠ .spill → b.kind ≠ .spill →
    a.ppn = b.ppn → (p, v) ≠ (q, w) → a.kind = b.kind ∧ (a.kind = .code ∨ a.kind = .sys ∨ a.kind = .heap ∧ v = w)
  count : ∀ p v a, leafAt s p v = some a → a.kind.counted = true → Counted (countedAt s) a.ppn (s.page_ref_count a.ppn)
  bits : ∀ p v a, leafAt s p v = some a → BitsOk a
  sole : ∀ p v a, leafAt s p v = some a → a.kind = .heap → a.w = true → s.page_ref_count a.ppn = 1
  tables : ∀ p v a, leafAt s p v = some a → HasTables (s.proc p) v

/-- a page that has been taken from the free list and is not mapped yet -/
structure Loose (K : Machine) (s : St) (f : ℕ) : Prop where
  range : K.start ≤ f ∧ f < K.stop
  notFree : f ∉ s.free
  unmapped : ∀ p v a, leafAt s p v = some a → a.kind ≠ .spill → a.ppn ≠ f
  one : s.page_ref_count f = 1

/-- the grounds on which an entry may be added to a page table -/
inductive Title (K : Machine) (s : St) (a : Pte) : Prop
  /-- no ground at all, and the entry is marked so -/
  | spill (h : a.kind = .spill) : Title K s a
  /-- a page that has just been taken; of those that the kernel keeps, the trapframe -/
  | fresh (h : Loose K s a.ppn) (hk : a.kind ≠ .spill) (hkept : a.kind = .sys ∨ s.kept a.ppn = none) : Title K s a
  /-- a code page of some process -/
  | code (h : a.kind = .code) {p : Slot} {v : ℕ} {b : Pte} (hb : leafAt s p v = some b) (hk : b.kind = .code)
      (hp : b.ppn = a.ppn) : Title K s a
  | trap (h : a.kind = .sys) (hp : a.ppn = K.trapSec) : Title K s a

theorem Kind.counted_ne_spill {k : Kind} (h : k.counted = true) : k ≠ .spill := by
  rintro rfl
  simp [Kind.counted] at h

theorem frameOf_eq_some : frameOf o = some f ↔ ∃ a, o = some a ∧ a.kind.counted = true ∧ a.ppn = f := by
  cases o with
  | none => simp [frameOf]
  | some a => by_cases h : a.kind.counted = true <;> simp [frameOf, h]

theorem countedAt_eq_some :
    countedAt s (p, v) = some f ↔ ∃ a, leafAt s p v = some a ∧ a.kind.counted = true ∧ a.ppn = f := frameOf_eq_some

theorem countedAt_withLeaf : countedAt (s.withLeaf p v o) = update (countedAt s) (p, v) (frameOf o) := by
  funext k
  by_cases hk : k = (p, v)
  · subst hk
    simp [countedAt]
  · rw [update_of_ne hk, countedAt, countedAt, leafAt_withLeaf_of_ne hk]

theorem hasTables_withLeaf (h : HasTables (s.proc q) w) : HasTables ((s.withLeaf p v o).proc q) w := by
  by_cases hq : q = p
  · subst hq
    rw [withLeaf_proc_self]
    exact h
  · rwa [withLeaf_proc_of_ne hq]

theorem leafAt_withLeaf_some (h : leafAt (s.withLeaf p v o) q w = some b) :
    (q, w) = (p, v) ∧ o = some b ∨ (q, w) ≠ (p, v) ∧ leafAt s q w = some b := by
  grind [leafAt_withLeaf_self, leafAt_withLeaf_of_ne]

/-! ## Taking pages -/

theorem Frames.draws (h : Frames K s) (hd : Draws l s s') : Frames K s' := by
  have hleaf : leafAt s' = leafAt s := by
    funext p v
    exact hd.leaf_eq p v
  have hcount : countedAt s' = countedAt s := by
    funext k
    rw [countedAt, hleaf, countedAt]
  -- a frame that is mapped was not free, so its count has not changed
  have href : ∀ p v a, leafAt s p v = some a → a.kind ≠ .spill → s'.page_ref_count a.ppn = s.page_ref_count a.ppn :=
    fun p v a ha hk => hd.ref _ fun hm => h.notFree p v a ha hk (hd.mem_free hm)
  have hnd := h.nodup
  rw [hd.free] at hnd
  exact
    { nodup := (List.nodup_append.1 hnd).2.1
      range := fun f hf => h.range f (hd.free_subset hf)
      unkept := fun f hf => by
        rw [hd.kept f fun hl => (List.nodup_append.1 hnd).2.2 f hl f hf rfl]
        exact h.unkept f (hd.free_subset hf)
      apart := fun p v a ha hk hs => by
        rw [hleaf] at ha
        rw [hd.kept a.ppn fun hm => h.notFree p v a ha hk (hd.mem_free hm)]
        exact h.apart p v a ha hk hs
      notFree := fun p v a ha hk hf => h.notFree p v a (hleaf ▸ ha) hk (hd.free_subset hf)
      inRange := hleaf ▸ h.inRange
      excl := hleaf ▸ h.excl
      count := fun p v a ha hc => by
        rw [hleaf] at ha
        rw [hcount, href p v a ha (Kind.counted_ne_spill hc)]
        exact h.count p v a ha hc
      bits := hleaf ▸ h.bits
      sole := fun p v a ha hk hw => by
        rw [hleaf] at ha
        rw [href p v a ha (by simp [hk])]
        exact h.sole p v a ha hk hw
      tables := fun p v a ha => (hd.proc p).hasTables (h.tables p v a (hleaf ▸ ha)) }

theorem Frames.loose (h : Frames K s) (hd : Draws l s s') (hf : f ∈ l) : Loose K s' f where
  range := h.range f (hd.mem_free hf)
  notFree := by
    have hnd := h.nodup
    rw [hd.free] at hnd
    exact fun hm => (List.nodup_append.1 hnd).2.2 f hf f hm rfl
  unmapped p v a ha hk e := by
    rw [hd.leaf_eq] at ha
    exact h.notFree p v a ha hk (e ▸ hd.mem_free hf)
  one := hd.one f hf

theorem Loose.draws (h : Loose K s f) (hd : Draws l s s') : Loose K s' f where
  range := h.range
  notFree hf := h.notFree (hd.free_subset hf)
  unmapped p v a ha hk := h.unmapped p v a (hd.leaf_eq p v ▸ ha) hk
  one := (hd.ref f fun hm => h.notFree (hd.mem_free hm)).trans h.one

theorem Loose.kept (h : Loose K s f) (hd : Draws l s s') : s'.kept f = s.kept f :=
  hd.kept f fun hl => h.notFree (hd.mem_free hl)

theorem Loose.withLeaf (h : Loose K s f) (ho : ∀ a, o = some a → a.kind ≠ .spill → a.ppn ≠ f) :
    Loose K (s.withLeaf p v o) f where
  __ := h
  unmapped q w a ha hk := by
    rcases leafAt_withLeaf_some ha with ⟨-, e⟩ | ⟨-, ha⟩
    · exact ho a e hk
    · exact h.unmapped q w a ha hk

/-! ## New entries -/

section

variable (h : Frames K s) (ht : Title K s a) (ha : a.kind ≠ .spill)

include h ht ha

theorem Title.others (hb : leafAt s q w = some b)
    (hkb : b.kind ≠ .spill) (he : a.ppn = b.ppn) : a.kind = b.kind ∧ (a.kind = .code ∨ a.kind = .sys) := by
  cases ht with
  | spill hk => exact absurd hk ha
  | fresh hl hk hkept => exact absurd he.symm (hl.unmapped q w b hb hkb)
  | @code hk p v c hc hkc hp =>
    refine ⟨?_, .inl hk⟩
    by_cases hkey : (p, v) = (q, w)
    · grind
    · have := h.excl p v c q w b hc hb (by simp [hkc]) hkb (hp.trans he) hkey
      rw [hk, ← this.1, hkc]
  | trap hk hp =>
    refine ⟨?_, .inr hk⟩
    by_contra hne
    have := h.inRange q w b hb hkb (fun e => hne (by rw [hk, e]))
    have := K.trap_lt
    omega

theorem Title.notFree : a.ppn ∉ s.free := by
  cases ht with
  | spill hk => exact absurd hk ha
  | fresh hl hk hkept => exact hl.notFree
  | @code hk p v c hc hkc hp => exact hp ▸ h.notFree p v c hc (by simp [hkc])
  | trap hk hp =>
    intro hm
    have := (h.range _ hm).1
    have := K.trap_lt
    omega

theorem Title.inRange (hs : a.kind ≠ .sys) : K.start ≤ a.ppn ∧ a.ppn < K.stop := by
  cases ht with
  | spill hk => exact absurd hk ha
  | fresh hl hk hkept => exact hl.range
  | @code hk p v c hc hkc hp => exact hp ▸ h.inRange p v c hc (by simp [hkc]) (by simp [hkc])
  | trap hk hp => exact absurd hk hs

theorem Title.apart (hs : a.kind ≠ .sys) : s.kept a.ppn = none := by
  cases ht with
  | spill hk => exact absurd hk ha
  | fresh hl hk hkept => exact hkept.resolve_left hs
  | @code hk p v c hc hkc hp => exact hp ▸ h.apart p v c hc (by simp [hkc]) (by simp [hkc])
  | trap hk hp => exact absurd hk hs

end

theorem Title.loose (ht : Title K s a) (ha : a.kind.counted = true) : Loose K s a.ppn := by
  cases ht with
  | spill hk => simp [hk, Kind.counted] at ha
  | fresh hl hk hkept => exact hl
  | code hk => simp [hk, Kind.counted] at ha
  | trap hk => simp [hk, Kind.counted] at ha

/-- **An entry with a title can be added**: for a page that has just been taken, for a code page of some process or for
the trap vector, or without any ground if it is marked so. -/
theorem Frames.add (h : Frames K s) (hn : leafAt s p v = none) (htab : HasTables (s.proc p) v) (ht : Title K s a)
    (hb : BitsOk a) : Frames K (s.withLeaf p v (some a)) where
  __ := h
  apart q w b hl hk hs := by
    rcases leafAt_withLeaf_some hl with ⟨-, e⟩ | ⟨-, hl'⟩
    · cases e
      rw [withLeaf_kept]
      exact Title.apart h ht hk hs
    · exact h.apart q w b hl' hk hs
  notFree q w b hl hk := by
    rcases leafAt_withLeaf_some hl with ⟨-, e⟩ | ⟨-, hl'⟩
    · cases e
      rw [withLeaf_free]
      exact Title.notFree h ht hk
    · exact h.notFree q w b hl' hk
  inRange q w b hl hk hs := by
    rcases leafAt_withLeaf_some hl with ⟨-, e⟩ | ⟨-, hl⟩
    · cases e
      exact Title.inRange h ht hk hs
    · exact h.inRange q w b hl hk hs
  excl q1 w1 b1 q2 w2 b2 h1 h2 hk1 hk2 he hne := by
    rcases leafAt_withLeaf_some h1 with ⟨e1, e⟩ | ⟨-, h1⟩
    · cases e
      rcases leafAt_withLeaf_some h2 with ⟨e2, e⟩ | ⟨-, h2⟩
      · exact absurd (e1.trans e2.symm) hne
      · obtain ⟨hk, h⟩ := Title.others h ht hk1 h2 hk2 he
        exact ⟨hk, h.imp_right .inl⟩
    · rcases leafAt_withLeaf_some h2 with ⟨-, e⟩ | ⟨-, h2⟩
      · cases e
        obtain ⟨hk, h⟩ := Title.others h ht hk2 h1 hk1 he.symm
        exact ⟨hk.symm, hk ▸ h.imp_right .inl⟩
      · exact h.excl q1 w1 b1 q2 w2 b2 h1 h2 hk1 hk2 he hne
  count q w b hl hc := by
    have hnone : countedAt s (p, v) = none := by rw [countedAt, hn]; rfl
    rw [countedAt_withLeaf, withLeaf_ref]
    rcases leafAt_withLeaf_some hl with ⟨-, e⟩ | ⟨-, hl⟩
    · cases e
      have hloose := ht.loose hc
      have hzero : Counted (countedAt s) a.ppn 0 := by
        apply counted_zero
        intro k hk
        obtain ⟨c, hc, hcc, he⟩ := countedAt_eq_some.1 hk
        exact hloose.unmapped _ _ c hc (Kind.counted_ne_spill hcc) he
      rw [hloose.one, frameOf_eq_some.2 ⟨a, rfl, hc, rfl⟩]
      exact hzero.add (by simp [hnone])
    · refine (h.count q w b hl hc).other (by simp [hnone]) fun e => ?_
      obtain ⟨c, hc1, hc2, hc3⟩ := frameOf_eq_some.1 e
      cases hc1
      exact (ht.loose hc2).unmapped q w b hl (Kind.counted_ne_spill hc) hc3.symm
  bits q w b hl := by
    rcases leafAt_withLeaf_some hl with ⟨-, e⟩ | ⟨-, hl⟩
    · cases e
      exact hb
    · exact h.bits q w b hl
  sole q w b hl hk hw := by
    rcases leafAt_withLeaf_some hl with ⟨-, e⟩ | ⟨-, hl⟩
    · cases e
      exact (ht.loose (by simp [hk, Kind.counted])).one
    · exact h.sole q w b hl hk hw
  tables q w b hl := by
    rcases leafAt_withLeaf_some hl with ⟨e, -⟩ | ⟨-, hl⟩
    · obtain ⟨rfl, rfl⟩ := Prod.mk.inj e
      exact hasTables_withLeaf htab
    · exact hasTables_withLeaf (h.tables q w b hl)

/-! ## Removed entries -/

theorem Frames.not_counted (h : Frames K s) (ha : leafAt s p v = some a) (hk : a.kind ≠ .heap)
    (hb : leafAt s q w = some b)
    (hc : b.kind.counted = true) (hne : (p, v) ≠ (q, w)) (hs : a.kind ≠ .spill) : a.ppn ≠ b.ppn := by
  intro he
  obtain ⟨hkk, h3⟩ := h.excl p v a q w b ha hb hs (Kind.counted_ne_spill hc) he hne
  grind [Kind.counted]

theorem Frames.shrink (h : Frames K s) (hsub : ∀ q w b, leafAt s' q w = some b → leafAt s q w = some b)
    (hfree : s'.free = s.free) (hkept : ∀ f, s.kept f = none → s'.kept f = none)
    (href : s'.page_ref_count = s.page_ref_count)
    (htab : ∀ q w b, leafAt s' q w = some b → HasTables (s.proc q) w → HasTables (s'.proc q) w)
    (hgone : ∀ q w b, leafAt s' q w = some b → b.kind.counted = true → ∀ p v a, leafAt s p v = some a →
      a.kind.counted = true → a.ppn = b.ppn → leafAt s' p v = some a) : Frames K s' where
  nodup := hfree ▸ h.nodup
  range := hfree ▸ h.range
  unkept f hf := hkept f (h.unkept f (hfree ▸ hf))
  apart q w b hl hk hs := hkept _ (h.apart q w b (hsub q w b hl) hk hs)
  notFree q w b hl := hfree ▸ h.notFree q w b (hsub q w b hl)
  inRange q w b hl := h.inRange q w b (hsub q w b hl)
  excl q1 w1 b1 q2 w2 b2 h1 h2 := h.excl q1 w1 b1 q2 w2 b2 (hsub _ _ _ h1) (hsub _ _ _ h2)
  count q w b hl hc := by
    rw [href]
    refine (h.count q w b (hsub q w b hl) hc).congr fun k => ?_
    obtain ⟨p, v⟩ := k
    rw [countedAt_eq_some, countedAt_eq_some]
    constructor
    · rintro ⟨a, ha, hac, he⟩
      exact ⟨a, hsub p v a ha, hac, he⟩
    · rintro ⟨a, ha, hac, he⟩
      exact ⟨a, hgone q w b hl hc p v a ha hac he, hac, he⟩
  bits q w b hl := h.bits q w b (hsub q w b hl)
  sole q w b hl := href ▸ h.sole q w b (hsub q w b hl)
  tables q w b hl := htab q w b hl (h.tables q w b (hsub q w b hl))

theorem Frames.congr (h : Frames K s) (hl : ∀ q v, leafAt s' q v = leafAt s q v) (hfree : s'.free = s.free)
    (hkept : s'.kept = s.kept) (href : s'.page_ref_count = s.page_ref_count)
    (htab : ∀ q v, HasTables (s.proc q) v → HasTables (s'.proc q) v) : Frames K s' :=
  h.shrink (fun q w _ hb => hl q w ▸ hb) hfree (fun _ hf => hkept ▸ hf) href (fun q w _ _ => htab q w)
    fun _ _ _ _ _ p v _ ha _ _ => (hl p v).trans ha

theorem Frames.not_foreign (h : Frames K s) (ha : leafAt s p v = some a) (hk : a.kind ≠ .spill) (hsys : a.kind ≠ .sys) :
    ¬ Foreign K s a.ppn := by
  obtain ⟨h1, h2⟩ := h.inRange p v a ha hk hsys
  rintro (hf | hf | hf | hf)
  · omega
  · omega
  · exact h.notFree p v a ha hk hf
  · rw [h.apart p v a ha hk hsys] at hf
    cases hf

theorem leafAt_withLeaf_none (h : leafAt (s.withLeaf p v none) q w = some b) :
    (q, w) ≠ (p, v) ∧ leafAt s q w = some b :=
  (leafAt_withLeaf_some h).resolve_left fun h => absurd h.2 (by simp)

theorem Frames.drop (h : Frames K s) (ha : ∀ a, leafAt s p v = some a → a.kind ≠ .heap) :
    Frames K (s.withLeaf p v none) := by
  refine h.shrink (fun q w b hl => (leafAt_withLeaf_none hl).2) rfl (fun _ hk => hk) rfl (fun _ _ _ _ =>
    hasTables_withLeaf)
    fun q w b hl hc p' v' a ha' hac he => ?_
  obtain ⟨hne, hl'⟩ := leafAt_withLeaf_none hl
  by_cases hk : (p', v') = (p, v)
  · obtain ⟨rfl, rfl⟩ := Prod.mk.inj hk
    exact absurd he (h.not_counted ha' (ha a ha') hl' hc hne.symm (Kind.counted_ne_spill hac))
  · rw [leafAt_withLeaf_of_ne hk, ha']

theorem Frames.clear (h : Frames K s) (ha : ∀ v a, leafAt s p v = some a → a.kind ≠ .heap) {pr : Proc}
    (hpr : ∀ v, pr.leaf v = none) : Frames K (s.cleared p pr) := by
  have hself : ∀ v, leafAt (s.cleared p pr) p v = none := by
    intro v
    simp [leafAt, St.cleared, hpr]
  have hother : ∀ q v, q ≠ p → leafAt (s.cleared p pr) q v = leafAt s q v := by
    intro q v hq
    simp [leafAt, St.cleared, hq]
  have hsub : ∀ q w b, leafAt (s.cleared p pr) q w = some b → q ≠ p := by
    rintro q w b hl rfl
    rw [hself] at hl
    cases hl
  refine h.shrink (fun q w b hl => ?_) rfl (fun f hf => ?_) rfl (fun q w b hl ht => ?_)
    fun q w b hl hc p' v' a ha' hac he => ?_
  · rw [← hother q w (hsub q w b hl), hl]
  · simp [St.cleared, hf]
  · simpa [St.cleared, hsub q w b hl] using ht
  · by_cases hk : p' = p
    · subst hk
      have hq := hsub q w b hl
      rw [hother q w hq] at hl
      have hne : (p', v') ≠ (q, w) := fun e => hq (Prod.mk.inj e).1.symm
      exact absurd he (h.not_counted ha' (ha v' a ha') hl hc hne (Kind.counted_ne_spill hac))
    · rw [hother p' v' hk, ha']

theorem Frames.eq_of_last (h : Frames K s) (ha : leafAt s p v = some a) (hc : a.kind.counted = true)
    (h1 : s.page_ref_count a.ppn ≤ 1) (hb : leafAt s q w = some b) (hk : b.kind ≠ .spill) (he : b.ppn = a.ppn) :
    (q, w) = (p, v) := by
  by_contra hne
  have hcount := h.count p v a ha hc
  have hone : s.page_ref_count a.ppn = 1 := by
    have := hcount.pos (countedAt_eq_some.2 ⟨a, ha, hc, rfl⟩)
    omega
  have hkk := (h.excl q w b p v a hb ha hk (Kind.counted_ne_spill hc) he hne).1
  rw [hone] at hcount
  exact hne (hcount.eq_of_one (countedAt_eq_some.2 ⟨b, hb, hkk ▸ hc, he⟩) (countedAt_eq_some.2 ⟨a, ha, hc, rfl⟩))

theorem unref_free_of_lt (h : 1 < s.page_ref_count f) : (s.unref f).free = s.free := by
  rw [St.unref, if_pos h]

theorem unref_ref_of_ne (h : g ≠ f) : (s.unref f).page_ref_count g = s.page_ref_count g := by
  unfold St.unref
  split <;> simp [h]

theorem unref_ref_self_of_lt (h : 1 < s.page_ref_count f) : (s.unref f).page_ref_count f = s.page_ref_count f - 1 := by
  rw [St.unref, if_pos h]
  simp

theorem unref_free_of_le (h : s.page_ref_count f ≤ 1) : (s.unref f).free = f :: s.free := by
  rw [St.unref, if_neg (by omega)]

/-- **Release.** `free_page` on the frame of a counted entry, together with the removal of the entry, keeps the counts
equal to the entries. -/
theorem Frames.release (h : Frames K s) (ha : leafAt s p v = some a) (hc : a.kind.counted = true) :
    Frames K ((s.unref a.ppn).withLeaf p v none) := by
  have hs := Kind.counted_ne_spill hc
  have hold : ∀ q w b, leafAt ((s.unref a.ppn).withLeaf p v none) q w = some b →
      (q, w) ≠ (p, v) ∧ leafAt s q w = some b := by
    intro q w b hl
    obtain ⟨hne, hl⟩ := leafAt_withLeaf_none hl
    exact ⟨hne, by rwa [leafAt_unref] at hl⟩
  have hcount : countedAt ((s.unref a.ppn).withLeaf p v none) = update (countedAt s) (p, v) none := by
    rw [countedAt_withLeaf]
    congr 1
    funext k
    simp [countedAt]
  have hak : countedAt s (p, v) = some a.ppn := countedAt_eq_some.2 ⟨a, ha, hc, rfl⟩
  -- the frame is pushed only if no entry but the removed one maps it
  have hfree : ∀ g, g ∈ (s.unref a.ppn).free → g ∈ s.free ∨ g = a.ppn ∧ s.page_ref_count a.ppn ≤ 1 := by
    intro g hg
    grind [unref_free_of_lt, unref_free_of_le]
  have hother : ∀ q w b, (q, w) ≠ (p, v) → leafAt s q w = some b → b.kind ≠ .spill → b.ppn = a.ppn →
      1 < s.page_ref_count a.ppn := by
    intro q w b hne hl hk he
    by_contra hlt
    exact hne (h.eq_of_last ha hc (by omega) hl hk he)
  exact
    { nodup := by
        rw [withLeaf_free]
        by_cases hlt : 1 < s.page_ref_count a.ppn
        · rw [unref_free_of_lt hlt]
          exact h.nodup
        · rw [unref_free_of_le (by omega)]
          exact List.nodup_cons.2 ⟨h.notFree p v a ha hs, h.nodup⟩
      range := by
        intro g hg
        rcases hfree g hg with hg | ⟨rfl, -⟩
        · exact h.range g hg
        · exact h.inRange p v a ha hs (by rintro e; simp [e, Kind.counted] at hc)
      unkept := by
        intro g hg
        rw [withLeaf_kept, unref_kept]
        rcases hfree g hg with hg | ⟨rfl, -⟩
        · exact h.unkept g hg
        · exact h.apart p v a ha hs (by rintro e; simp [e, Kind.counted] at hc)
      apart := by
        intro q w b hl
        rw [withLeaf_kept, unref_kept]
        exact h.apart q w b (hold q w b hl).2
      notFree := by
        intro q w b hl hk hg
        obtain ⟨hne, hl⟩ := hold q w b hl
        rcases hfree _ hg with hg | ⟨he, hle⟩
        · exact h.notFree q w b hl hk hg
        · have := hother q w b hne hl hk he
          omega
      inRange := fun q w b hl => h.inRange q w b (hold q w b hl).2
      excl := fun q1 w1 b1 q2 w2 b2 h1 h2 => h.excl q1 w1 b1 q2 w2 b2 (hold _ _ _ h1).2 (hold _ _ _ h2).2
      count := by
        intro q w b hl hbc
        obtain ⟨hne, hl⟩ := hold q w b hl
        rw [hcount, withLeaf_ref]
        by_cases he : b.ppn = a.ppn
        · have hlt := hother q w b hne hl (Kind.counted_ne_spill hbc) he
          rw [he, unref_ref_self_of_lt hlt]
          exact (h.count p v a ha hc).remove hak (by simp)
        · rw [unref_ref_of_ne he]
          exact (h.count q w b hl hbc).other (by rw [hak]; simpa using fun e => he e.symm) (by simp)
      bits := fun q w b hl => h.bits q w b (hold q w b hl).2
      sole := by
        intro q w b hl hk hw
        obtain ⟨hne, hl⟩ := hold q w b hl
        have hone := h.sole q w b hl hk hw
        rw [withLeaf_ref, unref_ref_of_ne, hone]
        grind
      tables := fun q w b hl => hasTables_withLeaf (by
        rw [unref_proc]
        exact h.tables q w b (hold q w b hl).2) }

/-! ## Heap pages -/

theorem Frames.reflag (h : Frames K s) (ha : leafAt s p v = some a) (hk : b.kind = a.kind) (hp : b.ppn = a.ppn)
    (hb : BitsOk b) (hw : b.kind = .heap → b.w = true → s.page_ref_count b.ppn = 1) :
    Frames K (s.withLeaf p v (some b)) := by
  have hcount : countedAt (s.withLeaf p v (some b)) = countedAt s := by
    rw [countedAt_withLeaf]
    grind [frameOf, countedAt]
  -- every entry stands for an old one at the same place, with the same frame and kind
  have hold : ∀ q w c, leafAt (s.withLeaf p v (some b)) q w = some c →
      ∃ c', leafAt s q w = some c' ∧ c'.kind = c.kind ∧ c'.ppn = c.ppn := by
    intro q w c hl
    rcases leafAt_withLeaf_some hl with ⟨hkey, e⟩ | ⟨-, hl⟩
    · grind
    · exact ⟨c, hl, rfl, rfl⟩
  exact
    { h with
      apart := by
        intro q w c hl hs hs'
        obtain ⟨c', hl, hk, hp⟩ := hold q w c hl
        rw [withLeaf_kept, ← hp]
        exact h.apart q w c' hl (hk ▸ hs) (hk ▸ hs')
      notFree := by
        intro q w c hl hs
        obtain ⟨c', hl, hk, hp⟩ := hold q w c hl
        exact hp ▸ h.notFree q w c' hl (hk ▸ hs)
      inRange := by
        intro q w c hl hs hs'
        obtain ⟨c', hl, hk, hp⟩ := hold q w c hl
        exact hp ▸ h.inRange q w c' hl (hk ▸ hs) (hk ▸ hs')
      excl := by
        intro q1 w1 c1 q2 w2 c2 h1 h2 hs1 hs2 he hne
        obtain ⟨c1', h1, hk1, hp1⟩ := hold q1 w1 c1 h1
        obtain ⟨c2', h2, hk2, hp2⟩ := hold q2 w2 c2 h2
        rw [← hk1, ← hk2]
        exact h.excl q1 w1 c1' q2 w2 c2' h1 h2 (hk1 ▸ hs1) (hk2 ▸ hs2) (by rw [hp1, hp2, he]) hne
      count := by
        intro q w c hl hc
        obtain ⟨c', hl, hk, hp⟩ := hold q w c hl
        rw [hcount, withLeaf_ref, ← hp]
        exact h.count q w c' hl (hk ▸ hc)
      bits := by
        intro q w c hl
        rcases leafAt_withLeaf_some hl with ⟨-, e⟩ | ⟨-, hl⟩
        · cases e
          exact hb
        · exact h.bits q w c hl
      sole := by
        intro q w c hl hk hw'
        rcases leafAt_withLeaf_some hl with ⟨-, e⟩ | ⟨-, hl⟩
        · cases e
          exact hw hk hw'
        · exact h.sole q w c hl hk hw'
      tables := by
        intro q w c hl
        obtain ⟨c', hl, -, -⟩ := hold q w c hl
        exact hasTables_withLeaf (h.tables q w c' hl) }

def St.incRef (s : St) (f : ℕ) : St :=
  { s with page_ref_count := update s.page_ref_count f (s.page_ref_count f + 1) }

@[simp] theorem incRef_proc : (s.incRef f).proc = s.proc := rfl

theorem Draws.incRef (h : Draws l (s.incRef f) s1) (hf : f ∉ s.free) : ∃ s2, Draws l s s2 ∧ s1 = s2.incRef f := by
  have hfl : f ∉ l := fun hm => hf (h.mem_free hm)
  have hs1 : s1.page_ref_count f = s.page_ref_count f + 1 := by
    rw [h.ref f hfl]
    simp [St.incRef]
  refine ⟨{ s1 with page_ref_count := update s1.page_ref_count f (s.page_ref_count f) },
    ⟨h.free, h.life, h.proc, fun g hg => ?_, fun g hg => ?_, h.mem, h.kept⟩, ?_⟩
  · have hne : g ≠ f := fun e => hfl (e ▸ hg)
    simpa [hne] using h.one g hg
  · by_cases hne : g = f
    · subst hne
      simp
    · have := h.ref g hg
      simp only [St.incRef, update_of_ne hne] at this ⊢
      exact this
  · simp [St.incRef, ← hs1]

/-- **A read-only heap page is shared with one more process, at the same address.** -/
theorem Frames.share (h : Frames K s) (ha : leafAt s p v = some a) (hk : a.kind = .heap) (hw : a.w = false) (hq : q ≠ p)
    (hn : leafAt s q v = none) (htab : HasTables (s.proc q) v) : Frames K ((s.incRef a.ppn).withLeaf q v (some a)) := by
  have hac : a.kind.counted = true := by simp [hk, Kind.counted]
  have hcount : countedAt ((s.incRef a.ppn).withLeaf q v (some a)) =
      update (countedAt s) (q, v) (some a.ppn) := by
    rw [countedAt_withLeaf, frameOf_eq_some.2 ⟨a, rfl, hac, rfl⟩]
    rfl
  have hnone : countedAt s (q, v) = none := by rw [countedAt, hn]; rfl
  -- a place of the new state whose frame is `a.ppn`, and an old place with the same entry
  have hold : ∀ q' w b, leafAt ((s.incRef a.ppn).withLeaf q v (some a)) q' w = some b →
      (q', w) = (q, v) ∧ b = a ∨ (q', w) ≠ (q, v) ∧ leafAt s q' w = some b := by
    intro q' w b hl
    rcases leafAt_withLeaf_some hl with ⟨hkey, e⟩ | ⟨hkey, hl⟩
    · cases e
      exact .inl ⟨hkey, rfl⟩
    · exact .inr ⟨hkey, hl⟩
  have hsame : ∀ q' w b, (q', w) ≠ (q, v) → leafAt s q' w = some b → b.kind ≠ .spill → b.ppn = a.ppn →
      b.kind = .heap ∧ w = v := by
    intro q' w b hne hl hs he
    by_cases hkey : (q', w) = (p, v)
    · grind
    · obtain ⟨hkk, h3⟩ := h.excl q' w b p v a hl ha hs (by simp [hk]) he hkey
      grind
  exact
    { h with
      apart := by
        intro q' w b hl hs hs'
        rcases hold q' w b hl with ⟨-, rfl⟩ | ⟨-, hl⟩
        · exact h.apart p v b ha hs hs'
        · exact h.apart q' w b hl hs hs'
      notFree := by
        intro q' w b hl hs
        rcases hold q' w b hl with ⟨-, rfl⟩ | ⟨-, hl⟩
        · exact h.notFree p v b ha hs
        · exact h.notFree q' w b hl hs
      inRange := by
        intro q' w b hl hs hs'
        rcases hold q' w b hl with ⟨-, rfl⟩ | ⟨-, hl⟩
        · exact h.inRange p v b ha hs hs'
        · exact h.inRange q' w b hl hs hs'
      excl := by
        intro q1 w1 b1 q2 w2 b2 h1 h2 hs1 hs2 he hne
        rcases hold q1 w1 b1 h1 with ⟨e1, e⟩ | ⟨hn1, h1⟩
        · grind
        · rcases hold q2 w2 b2 h2 with ⟨e2, e⟩ | ⟨hn2, h2⟩
          · rw [e] at he ⊢
            grind
          · exact h.excl q1 w1 b1 q2 w2 b2 h1 h2 hs1 hs2 he hne
      count := by
        intro q' w b hl hbc
        have hbp : b.ppn = a.ppn → Counted (countedAt ((s.incRef a.ppn).withLeaf q v (some a))) b.ppn
            (((s.incRef a.ppn).withLeaf q v (some a)).page_ref_count b.ppn) := by
          intro he
          rw [hcount, he, withLeaf_ref]
          have := (h.count p v a ha hac).add (k := (q, v)) (by simp [hnone])
          simpa [St.incRef] using this
        rcases hold q' w b hl with ⟨-, rfl⟩ | ⟨-, hl⟩
        · exact hbp rfl
        · by_cases he : b.ppn = a.ppn
          · exact hbp he
          · have := (h.count q' w b hl hbc).other (k := (q, v)) (o := some a.ppn) (by simp [hnone])
              (by simpa using fun e => he e.symm)
            rw [hcount, withLeaf_ref]
            simpa [St.incRef, he] using this
      bits := by
        intro q' w b hl
        rcases hold q' w b hl with ⟨-, rfl⟩ | ⟨-, hl⟩
        · exact h.bits p v b ha
        · exact h.bits q' w b hl
      sole := by
        intro q' w b hl hbk hbw
        rcases hold q' w b hl with ⟨-, rfl⟩ | ⟨-, hl⟩
        · simp [hw] at hbw
        · have hone := h.sole q' w b hl hbk hbw
          have hne : b.ppn ≠ a.ppn := by
            intro he
            -- the only entry of a writable page would be the read-only one
            have hkey := h.eq_of_last hl (by simp [hbk, Kind.counted]) hone.le ha (by simp [hk]) he.symm
            grind
          simpa [St.incRef, hne] using hone
      tables := by
        intro q' w b hl
        rcases hold q' w b hl with ⟨e, -⟩ | ⟨-, hl⟩
        · obtain ⟨rfl, rfl⟩ := Prod.mk.inj e
          exact hasTables_withLeaf htab
        · exact hasTables_withLeaf (h.tables q' w b hl) }

end RiscvPke.Memory
