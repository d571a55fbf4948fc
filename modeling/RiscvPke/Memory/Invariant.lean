/-
The invariant of the memory system over whole runs: any number of processes, program starts, forks, heap growth, stores
with their page faults, `do_exec`, exit and reuse of slots, in any order, with and without free pages.
-/
import RiscvPke.Memory.Ops

namespace RiscvPke.Memory

open Function Run RiscvPke.System RiscvPke.Count

variable {K : Machine} {s s' s0 s1 s2 : St} {p q P C : Slot} {v w f g va : ℕ} {a b : Pte} {n i : ℕ} {op : Op}

/-- the page lies in [heap_bottom, heap_top) -/
def InHeap (pr : Proc) (v : ℕ) : Prop := pr.heap_bottom ≤ v * PGSIZE ∧ v * PGSIZE < pr.heap_top

instance (pr : Proc) (v : ℕ) : Decidable (InHeap pr v) := inferInstanceAs (Decidable (_ ∧ _))

structure Inv (K : Machine) (s : St) : Prop where
  frames : Frames K s
  live : ∀ p, s.life p = .live → Space (s.proc p).total_mapped_region (s.proc p)
  gone : ∀ p, s.life p = .zombie → ∀ v, InHeap (s.proc p) v → leafAt s p v = none
  dead : ∀ p, s.life p ≠ .live → ∀ v a, leafAt s p v = some a → a.kind ≠ .heap

/-! ## What a step does -/

inductive Effect (K : Machine) (s : St) : Op → St → Prop
  | spawn {elf : List Phdr} {p : Slot} {s' : St} (h : Spawned K elf p s s') : Effect K s (.spawn elf) s'
  | fork {P C : Slot} {s' : St} (hl : s.life P = .live) (h : doFork K P s = .ok (C, s')) : Effect K s (.fork P) s'
  /-- heap growth without a free page -/
  | full {p : Slot} (hl : s.life p = .live) (hnil : s.free = []) : Effect K s (.grow p) s
  | grow {p : Slot} {n f : ℕ} {s' : St} (hl : s.life p = .live) (hn : HeapOk n (s.proc p)) (h : Grown K p n f s s') :
      Effect K s (.grow p) s'
  | store {p : Slot} {sp va : ℕ} {byte : UInt8} {s1 s' : St} {a : Pte} (hl : s.life p = .live)
      (h1 : s1 = s ∨ (∃ a', Breaks K p (va / PGSIZE) a' s s1) ∨ growStack p va s = .ok ((), s1))
      (hw : Wrote K p va byte a s1 s') : Effect K s (.store p sp va byte) s'
  | exec {p : Slot} {elf : List Phdr} {para : List UInt8} {s' : St} (hl : s.life p = .live) (h : Execed K elf p s s') :
      Effect K s (.exec p elf para) s'
  | exit {p : Slot} {order : List ℕ} {s' : St} (hl : s.life p = .live)
      (hu : Unmaps K p { s with life := update s.life p .zombie } s')
      (hgone : ∀ v ∈ heapPages (s.proc p), leafAt s' p v = none) : Effect K s (.exit p order) s'
  | reap {p : Slot} (hl : s.life p = .zombie) :
      Effect K s (.reap p) { s with life := update s.life p .free }

theorem inLife_run {l : Life} {x : M Unit} (h : inLife p l x s = .ok ((), s')) : s.life p = l ∧ x s = .ok ((), s') := by
  obtain ⟨_, _, hg, h⟩ := run_bind.1 h
  grind

theorem step_run (h : step K s op = .ok s') : act K op s = .ok ((), s') := by
  obtain ⟨r, ha, rfl⟩ := map_ok h
  exact ha

theorem Inv.blank (hI : Inv K s) : Blank s := fun p hp => hI.dead p (by rw [hp]; simp)

/-- **What a step does.** A step that ends well in a state of the invariant has the effect that its operation may have.
-/
theorem step_effect (hI : Inv K s) (h : step K s op = .ok s') : Effect K s op s' := by
  have ha := step_run h
  cases op with
  | spawn elf =>
    obtain ⟨p, s1, h1, h2⟩ := run_bind.1 ha
    exact .spawn (spawn_run h1 h2 hI.frames hI.blank)
  | fork P =>
    obtain ⟨hl, hx⟩ := inLife_run ha
    obtain ⟨C, s1, h1, h2⟩ := run_bind.1 hx
    cases h2
    exact .fork hl h1
  | grow p =>
    obtain ⟨hl, hx⟩ := inLife_run ha
    obtain ⟨r, s1, h1, h2⟩ := run_bind.1 hx
    cases h2
    obtain ⟨n, hn⟩ := (hI.live p hl).heap
    rcases growHeap_run (K := K) h1 (hI.live p hl) hn with ⟨-, rfl, hnil⟩ | ⟨-, f, hg⟩
    · exact .full hl hnil
    · exact .grow hl hn hg
  | store p sp va byte =>
    obtain ⟨hl, hx⟩ := inLife_run ha
    obtain ⟨s1, a, hw, h1⟩ := userStore_run hx hI.frames
    exact .store hl h1 hw
  | exec p elf para =>
    obtain ⟨hl, hx⟩ := inLife_run ha
    exact .exec hl (doExec_run hx hI.frames (hI.live p hl))
  | exit p order =>
    obtain ⟨hl, hx⟩ := inLife_run ha
    rw [run_get_bind] at hx
    split at hx
    · rename_i ho
      obtain ⟨_, _, ⟨⟩, h2⟩ := run_bind.1 hx
      obtain ⟨n, hn⟩ := (hI.live p hl).heap
      obtain ⟨hu, hgone⟩ := releaseHeap_run h2 (hI.frames.congr (fun _ _ => rfl) rfl rfl rfl fun _ _ h => h)
        (fun v hv a ha => hn.counted hv ha) ho
      exact .exit hl hu hgone
    · cases hx
  | reap p =>
    obtain ⟨hl, hx⟩ := inLife_run ha
    cases hx
    exact .reap hl

/-! ## The invariant -/

variable {pr pr' : Proc}

theorem SameSpace.inHeap (h : SameSpace pr pr') : InHeap pr' v ↔ InHeap pr v := by
  obtain ⟨d, tb, -, -, rfl⟩ := h
  rfl

theorem HeapOk.inHeap (h : HeapOk n pr) : InHeap pr v ↔ HEAP_VPN ≤ v ∧ v < HEAP_VPN + n := by
  unfold InHeap
  rw [h.bottom, h.top]
  simp only [HEAP_VPN, USER_FREE_ADDRESS_START, PGSIZE]
  omega

theorem SameSpace.leaf_eq (h : SameSpace pr pr') (v : ℕ) : pr'.leaf v = pr.leaf v := by
  obtain ⟨d, tb, -, -, rfl⟩ := h
  rfl

theorem SameSpace.total (h : SameSpace pr pr') : pr'.total_mapped_region = pr.total_mapped_region := by
  obtain ⟨d, tb, -, -, rfl⟩ := h
  rfl

/-- what the invariant says of one process -/
structure Kept (s : St) (p : Slot) : Prop where
  live : s.life p = .live → Space (s.proc p).total_mapped_region (s.proc p)
  gone : s.life p = .zombie → ∀ v, InHeap (s.proc p) v → leafAt s p v = none
  dead : s.life p ≠ .live → ∀ v a, leafAt s p v = some a → a.kind ≠ .heap

theorem kept_of_live (hl : s.life p = .live) (hsp : Space (s.proc p).total_mapped_region (s.proc p)) : Kept s p :=
  ⟨fun _ => hsp, fun h => (by rw [hl] at h; cases h), fun h => absurd hl h⟩

theorem Inv.others (hI : Inv K s) (X : Slot → Prop) (hf : Frames K s')
    (hsame : ∀ q, ¬ X q → SameSpace (s.proc q) (s'.proc q) ∧ s'.life q = s.life q)
    (hX : ∀ q, X q → Kept s' q) : Inv K s' := by
  have hkept : ∀ q, Kept s' q := by
    intro q
    by_cases hq : X q
    · exact hX q hq
    · obtain ⟨hsp, hlife⟩ := hsame q hq
      refine ⟨fun h => ?_, fun h v hv => ?_, fun h v a ha => ?_⟩
      · rw [hsp.total]
        exact hsp.space (hI.live q (hlife ▸ h))
      · rw [hsp.inHeap] at hv
        exact (hsp.leaf_eq v).trans (hI.gone q (hlife ▸ h) v hv)
      · exact hI.dead q (hlife ▸ h) v a ((hsp.leaf_eq v).symm.trans ha)
  exact ⟨hf, fun q => (hkept q).live, fun q => (hkept q).gone, fun q => (hkept q).dead⟩

theorem Inv.running (hI : Inv K s) (hf : Frames K s') (hl : s.life p = .live) (hlife : s'.life = s.life)
    (hsame : ∀ q, q ≠ p → SameSpace (s.proc q) (s'.proc q))
    (hsp : Space (s'.proc p).total_mapped_region (s'.proc p)) : Inv K s' :=
  hI.others (· = p) hf (fun q hq => ⟨hsame q hq, by rw [hlife]⟩) fun q hq => hq ▸ kept_of_live (by rw [hlife, hl]) hsp

theorem Inv.bytes (hI : Inv K s) (mem : ℕ → UInt8) : Inv K { s with mem := mem } :=
  { hI with frames := hI.frames.congr (fun _ _ => rfl) rfl rfl rfl fun _ _ h => h }

theorem Breaks.isKind (h : Breaks K p v a s s') {k : Kind} : IsKind k (leafAt s' p w) ↔ IsKind k (leafAt s p w) := by
  by_cases hw : w = v
  · subst hw
    obtain ⟨f, hf, -⟩ := h.page
    rw [hf, h.leaf.1]
    simp [IsKind, Pte.own]
  · rw [h.keep w hw]

theorem total_of_rest (h : ∃ lf d tb, pr' = { pr with leaf := lf, dirs := d, tabs := tb }) :
    pr'.total_mapped_region = pr.total_mapped_region := by
  obtain ⟨lf, d, tb, rfl⟩ := h
  rfl

theorem Breaks.inv (h : Breaks K p v a s s') (hI : Inv K s) (hl : s.life p = .live) : Inv K s' := by
  refine hI.running h.frames hl h.life h.others ?_
  rw [total_of_rest h.rest]
  exact (hI.live p hl).of_kinds h.rest fun w k => h.isKind

theorem growStack_inv (h : growStack p va s = .ok ((), s')) (hI : Inv K s) (hl : s.life p = .live) : Inv K s' := by
  obtain ⟨hadds, -, -⟩ := growStack_run (K := K) h
  refine hI.running (hadds.frames hI.frames) hl hadds.life hadds.others ?_
  rw [total_of_rest hadds.rest]
  refine hadds.grows.space ?_ (hI.live p hl)
  rintro v a ⟨-, -, h | h⟩ <;> rw [h] <;> simp

theorem fault_life (h : s1 = s ∨ (∃ a', Breaks K p (va / PGSIZE) a' s s1) ∨ growStack p va s = .ok ((), s1)) :
    s1.life = s.life := by
  rcases h with rfl | ⟨a', hb⟩ | hg
  · rfl
  · exact hb.life
  · exact (growStack_run (K := K) hg).1.life

theorem fault_inv (h : s1 = s ∨ (∃ a', Breaks K p (va / PGSIZE) a' s s1) ∨ growStack p va s = .ok ((), s1))
    (hI : Inv K s) (hl : s.life p = .live) : Inv K s1 := by
  rcases h with rfl | ⟨a', h⟩ | h
  · exact hI
  · exact h.inv hI hl
  · exact growStack_inv h hI hl

theorem forkPages_any (pr : Proc) : ForkPages (fun _ a => a.kind ≠ .heap) pr where
  base := by
    rintro v a (⟨-, h, -⟩ | ⟨h, -⟩) <;> rw [h] <;> simp
  code i va v a _ _ _ h := h.ne_heap fun b hb => by
    rw [hb.1]
    exact codeKind_ne_heap
  data i va v a _ _ _ h := h.ne_heap fun b hb => by
    rw [hb]
    simp

theorem Inv.forked (hI : Inv K s) (hl : s.life P = .live) (h : doFork K P s = .ok (C, s')) {N : ℕ → Pte → Prop}
    (hN : ForkPages N (s.proc P)) : Forked K N P C s s' :=
  doFork_run h hN hI.frames (hI.live P hl) hl hI.blank

theorem Forked.inv {N : ℕ → Pte → Prop} (h : Forked K N P C s s') (hI : Inv K s)
    (hl : s.life P = .live) : Inv K s' := by
  refine hI.others (fun q => q = P ∨ q = C) h.loop.frames (fun q hq => ?_) fun q hq => ?_
  · obtain ⟨hqP, hqC⟩ := not_or.1 hq
    exact ⟨h.loop.others q hqP hqC, by rw [h.loop.life, update_of_ne hqC]⟩
  · by_cases hqC : q = C
    · subst hqC
      exact kept_of_live (by rw [h.loop.life, update_self]) (h.space (hI.live P hl))
    · obtain rfl := hq.resolve_right hqC
      refine kept_of_live (by rw [h.loop.life, update_of_ne hqC, hl]) ?_
      rw [total_of_rest h.loop.parent.rest]
      exact h.loop.parent.space (hI.live q hl)

/-- **Every step keeps the invariant**: frames have the owners that the counts say, and address spaces the layout that
their regions say. -/
theorem Effect.inv (h : Effect K s op s') (hI : Inv K s) : Inv K s' := by
  cases h with
  | @spawn elf p _ h =>
    refine hI.others (· = p) h.frames (fun q hq => ⟨h.others q hq, by rw [h.life, update_of_ne hq]⟩) fun q hq => ?_
    subst hq
    exact kept_of_live (by rw [h.life, update_self]) (h.space.space.of_le (Nat.zero_le _))
  | fork hl h => exact (hI.forked hl h (forkPages_any _)).inv hI hl
  | full hl hnil => exact hI
  | grow hl hn h => exact hI.running (h.builds.frames hI.frames) hl h.builds.life h.builds.others h.space
  | store hl h1 hw =>
    rw [hw.state]
    exact (fault_inv h1 hI hl).bytes _
  | exec hl h => exact hI.running h.frames hl h.life h.others (h.space.space.of_le (Nat.zero_le _))
  | @exit p order _ hl hu hgone =>
    have hlife : s'.life = update s.life p .zombie := hu.life
    have hz : s'.life p = .zombie := by rw [hlife, update_self]
    obtain ⟨n, hn⟩ := (hI.live p hl).heap
    have hgone' : ∀ v, HEAP_VPN ≤ v ∧ v < HEAP_VPN + n → leafAt s' p v = none := by
      intro v hv
      apply hgone
      rwa [hn.heapPages, List.mem_range'_1]
    refine hI.others (· = p) hu.frames (fun q hq => ⟨?_, ?_⟩) fun q hq =>
      hq ▸ ⟨fun h => ?_, fun _ v hv => ?_, fun _ v a ha hk => ?_⟩
    · rw [hu.others q hq]
      exact .refl _
    · rw [hlife, update_of_ne hq]
    · rw [hz] at h
      cases h
    · apply hgone'
      obtain ⟨lf, mi, e⟩ := hu.rest
      rw [e] at hv
      exact hn.inHeap.1 hv
    · -- a heap page would be one of [heap_bottom, heap_top)
      rw [hgone' v ((hn.mapped v).1 ⟨a, hu.sub v a ha, hk⟩)] at ha
      cases ha
  | @reap p hl =>
    refine hI.others (· = p) (hI.frames.congr (fun _ _ => rfl) rfl rfl rfl fun _ _ h => h) (fun q hq => ⟨.refl _,
      update_of_ne hq _ _⟩)
      fun q hq => hq ▸ ⟨fun h => by simp at h, fun h => by simp at h, fun _ => hI.dead q (by rw [hq, hl]; simp)⟩

theorem inv_step (hI : Inv K s) (h : step K s op = .ok s') : Inv K s' := (step_effect hI h).inv hI

theorem Booted.inv (h : Booted K s) : Inv K s := by
  have hno : ∀ p v a, leafAt s p v ≠ some a := by
    intro p v a ha
    rw [leafAt, h.leaf p v] at ha
    cases ha
  exact
    { frames :=
        { h with
          apart := fun p v a ha => absurd ha (hno p v a)
          notFree := fun p v a ha => absurd ha (hno p v a)
          inRange := fun p v a ha => absurd ha (hno p v a)
          excl := fun p v a _ _ _ ha => absurd ha (hno p v a)
          count := fun p v a ha => absurd ha (hno p v a)
          bits := fun p v a ha => absurd ha (hno p v a)
          sole := fun p v a ha => absurd ha (hno p v a)
          tables := fun p v a ha => absurd ha (hno p v a) }
      live := fun p hp => by rw [h.life p] at hp; cases hp
      gone := fun p hp => by rw [h.life p] at hp; cases hp
      dead := fun p _ v a ha => absurd ha (hno p v a) }

theorem createFreepageList_booted (h : createFreepageList K zeroed = .ok ((), s)) : Booted K s := by
  -- the pages below `i` are in the list
  have key := run_forM (F := freePage K) (fun xs t => ((∀ f, t.page_ref_count f = 0) ∧ (∀ f, t.kept f = none) ∧
      t.life = zeroed.life ∧ t.proc = zeroed.proc) ∧ t.free.Nodup ∧ (∀ f ∈ t.free, K.start ≤ f ∧ f < K.stop) ∧
    ∃ i, xs = List.range' i xs.length ∧ i + xs.length = K.start + (K.stop - K.start - 1) ∧
      (∀ f ∈ t.free, f < i) ∧ ∀ f, K.start ≤ f → f < i → f ∈ t.free) ?_ _ zeroed s ?_ h
  · obtain ⟨⟨-, hkept, hlife, hproc⟩, hnd, hrange, i, -, hi, -, hall⟩ := key
    refine ⟨hnd, hrange, fun f _ => hkept f, fun f h1 h2 hf => absurd (hall f h1 ?_) hf, fun p => ?_, fun p v => ?_⟩
    · simp only [List.length_nil] at hi
      omega
    · rw [hlife]
      rfl
    · rw [hproc]
      rfl
  · rintro x xs t1 t2 ⟨⟨href, hkept, hlife, hproc⟩, hnd, hrange, i, hxs, hi, hlt, hall⟩ hx
    obtain ⟨hx1, hx2, rfl⟩ := freePage_run hx
    obtain ⟨rfl, hxs⟩ := List.cons.inj hxs
    have hfr := unref_free_of_le (s := t1) (f := x) (by rw [href]; omega)
    have hnm : x ∉ t1.free := fun hm => absurd (hlt x hm) (lt_irrefl x)
    refine ⟨⟨fun f => ?_, by simpa using hkept, by simpa using hlife, by simpa using hproc⟩, ?_, fun f hf => ?_, x + 1,
      hxs, ?_, fun f hf => ?_, fun f h1 h2 => ?_⟩
    · by_cases hfx : f = x
      · subst hfx
        rw [St.unref, if_neg (by rw [href]; omega)]
        simp
      · rw [unref_ref_of_ne hfx, href]
    · rw [hfr]
      exact List.nodup_cons.2 ⟨hnm, hnd⟩
    · rw [hfr, List.mem_cons] at hf
      rcases hf with rfl | hf
      · exact ⟨hx1, hx2⟩
      · exact hrange f hf
    · rw [List.length_cons] at hi
      omega
    · grind
    · rw [hfr, List.mem_cons]
      by_cases hfx : f = x
      · exact .inl hfx
      · exact .inr (hall f h1 (by omega))
  · refine ⟨⟨fun _ => rfl, fun _ => rfl, rfl, rfl⟩, List.nodup_nil, by simp [zeroed], K.start, by simp, by simp,
      by simp [zeroed], fun f h1 h2 => by omega⟩

variable {D : St → Op → Prop}

/-- **Every reachable state satisfies the invariant**, whatever the steps were. -/
theorem inv_reachable (h : Reach (step K) D (Booted K) s) : Inv K s :=
  h.inv (fun _ => Booted.inv) fun _ _ _ hI _ hs => inv_step hI hs

theorem effect_reachable {R : St → Prop} (h0 : ∀ s, Booted K s → R s)
    (hs : ∀ s op s', Inv K s → R s → D s op → Effect K s op s' → R s') (h : Reach (step K) D (Booted K) s) : R s := by
  have key : Inv K s ∧ R s := by
    refine h.inv (P := fun s => Inv K s ∧ R s) (fun s hb => ⟨hb.inv, h0 s hb⟩) ?_
    intro s op s' hI hD hst
    have he := step_effect hI.1 hst
    exact ⟨he.inv hI.1, hs s op s' hI.1 hI.2 hD he⟩
  exact key.2

/-! ## Reference counts -/

/-- the entry of a heap page: an entry for an address in [heap_bottom, heap_top) of a process that is not free -/
def heapPte (s : St) (p : Slot) (v : ℕ) : Option Pte :=
  if s.life p ≠ .free ∧ InHeap (s.proc p) v then leafAt s p v else none

theorem heapPte_eq (hI : Inv K s) : heapPte s p v = some a ↔ leafAt s p v = some a ∧ a.kind = .heap := by
  unfold heapPte
  constructor
  · intro h
    split at h
    · rename_i hc
      refine ⟨h, ?_⟩
      cases hlife : s.life p with
      | free => exact absurd hlife hc.1
      | zombie =>
        rw [hI.gone p hlife v hc.2] at h
        cases h
      | live =>
        obtain ⟨n, hn⟩ := (hI.live p hlife).heap
        obtain ⟨b, hb, hbk⟩ := (hn.mapped v).2 (hn.inHeap.1 hc.2)
        rw [leafAt, hb] at h
        cases h
        exact hbk
    · cases h
  · rintro ⟨h, hk⟩
    have hl : s.life p = .live := by
      by_contra hl
      exact hI.dead p hl v a h hk
    obtain ⟨n, hn⟩ := (hI.live p hl).heap
    rw [if_pos ⟨by simp [hl], hn.inHeap.2 ((hn.mapped v).1 ⟨a, h, hk⟩)⟩, h]

/-- the frames that heap entries point to -/
def heapFrame (s : St) (k : Slot × ℕ) : Option ℕ := (heapPte s k.1 k.2).map Pte.ppn

theorem heapFrame_iff (hI : Inv K s) (ha : leafAt s p v = some a) (hk : a.kind = .heap) (k : Slot × ℕ) :
    heapFrame s k = some a.ppn ↔ countedAt s k = some a.ppn := by
  obtain ⟨q, w⟩ := k
  simp only [heapFrame, Option.map_eq_some_iff, heapPte_eq hI, countedAt_eq_some]
  constructor
  · rintro ⟨b, ⟨hb, hbk⟩, he⟩
    exact ⟨b, hb, by simp [hbk, Kind.counted], he⟩
  · rintro ⟨b, hb, hbc, he⟩
    refine ⟨b, ⟨hb, ?_⟩, he⟩
    by_cases hkey : (q, w) = (p, v)
    · grind
    · rw [(hI.frames.excl q w b p v a hb ha (Kind.counted_ne_spill hbc) (by simp [hk]) he hkey).1, hk]

/-- **The reference-count invariant.** In every reachable state: a frame with a heap entry has a `page_ref_count` that
is the number of heap entries pointing to it, over all page tables; with two or more of them all are read-only and
copy-on-write; it is not free; and no entry of any page table is both writable and copy-on-write. -/
theorem reference_counts (h : Reach (step K) (fun _ _ => True) (Booted K) s) :
    (∀ p v a, heapPte s p v = some a → Counted (heapFrame s) a.ppn (s.page_ref_count a.ppn) ∧
      (2 ≤ s.page_ref_count a.ppn → a.w = false ∧ a.cow = true) ∧ a.ppn ∉ s.free) ∧
    ∀ p v a, leafAt s p v = some a → ¬ (a.w = true ∧ a.cow = true) := by
  have hI := inv_reachable h
  refine ⟨fun p v a ha => ?_, fun p v a ha => ?_⟩
  · obtain ⟨hl, hk⟩ := (heapPte_eq hI).1 ha
    have hbits := ((hI.frames.bits p v a hl).1 hk).2.2
    refine ⟨?_, fun h2 => ?_, hI.frames.notFree p v a hl (by simp [hk])⟩
    · have hc := hI.frames.count p v a hl (by simp [hk, Kind.counted])
      exact hc.congr fun k => heapFrame_iff hI hl hk k
    · have hw : a.w = false := by
        by_contra hw
        have := hI.frames.sole p v a hl hk (by simpa using hw)
        omega
      exact ⟨hw, by rw [hbits, hw]; rfl⟩
  · rintro ⟨hw, hc⟩
    obtain ⟨h1, h2⟩ := hI.frames.bits p v a ha
    grind

def board : Machine where
  start := 0x80100
  stop := 0x88000
  trapSec := 0x80003
  trap_pos := by decide
  trap_lt := by decide
  span := by decide

def bootState : St :=
  { zeroed with
    free := (List.range' 0x80100 80).reverse
    kept := fun f => if 0x80150 ≤ f then some .other else none }

theorem bootState_booted : Booted board bootState where
  nodup := by decide +kernel
  range := by decide +kernel
  unkept := by decide +kernel
  taken f h1 _ hf := by
    simp only [bootState, List.mem_reverse, List.mem_range'_1, board] at h1 hf
    exact if_pos (by omega)
  life _ := rfl
  leaf _ _ := rfl

theorem reach_ops {c : St → Op → Bool} (hc : ∀ s op, c s op = true → D s op) (ops : List Op)
    (h : meets (step board) c bootState ops = true) :
    Reach (step board) D (Booted board) (exec (step board) bootState ops) :=
  reach_exec hc ops bootState (.init bootState_booted) h

def shareHeapOps : List Op := [.spawn [], .grow 0, .fork 0]

def sharedHeap : St := exec (step board) bootState shareHeapOps

theorem sharedHeap_reach : Reach (step board) (fun _ _ => True) (Booted board) sharedHeap :=
  reach_ops (c := fun _ _ => true) (fun _ _ _ => trivial) shareHeapOps (by decide +kernel)

theorem reference_counts_sharedHeap : sharedHeap.page_ref_count 0x80145 = 2 ∧
    Counted (heapFrame sharedHeap) 0x80145 (sharedHeap.page_ref_count 0x80145) ∧ 0x80145 ∉ sharedHeap.free := by
  have hp : heapPte sharedHeap 0 0x400 = some ⟨⟨true, false, false, true, true, true, true⟩, 0x80145, .heap⟩ := by
    decide +kernel
  obtain ⟨h1, -, h3⟩ := (reference_counts sharedHeap_reach).1 0 0x400 _ hp
  dsimp only at h1 h3
  exact ⟨by decide +kernel, h1, h3⟩

theorem Frames.second (hf : Frames K s) (ha : leafAt s p v = some a) (hk : a.kind ≠ .spill) (hb : leafAt s q w = some b)
    (hkb : b.kind ≠ .spill) (hppn : b.ppn = a.ppn) (hne : (q, w) ≠ (p, v)) :
    a.kind = .code ∨ a.kind = .sys ∨ a.kind = .heap ∧ w = v ∧ q ≠ p ∧ a.w = false := by
  obtain ⟨hkind, hcode | hsys | ⟨hheap, rfl⟩⟩ := hf.excl q w b p v a hb ha hkb hk hppn hne
  · exact .inl (hkind.symm.trans hcode)
  · exact .inr (.inl (hkind.symm.trans hsys))
  · refine .inr (.inr ⟨hkind.symm.trans hheap, rfl, fun he => hne (by rw [he]), Bool.eq_false_iff.2 fun hw => ?_⟩)
    -- a writable heap page has the count 1
    have hcount := hf.count p w a ha (by rw [← hkind, hheap]; rfl)
    rw [hf.sole p w a ha (hkind.symm.trans hheap) hw] at hcount
    exact hne (hcount.eq_of_one (countedAt_eq_some.2 ⟨b, hb, by rw [hheap]; rfl, hppn⟩)
      (countedAt_eq_some.2 ⟨a, ha, by rw [← hkind, hheap]; rfl, rfl⟩))

/-! ## The heap region -/

theorem walkLevel_find {has : Proc → Bool} {add : Proc → Proc} {k : Keep} :
    walkLevel p has add k false s = .ok (has (s.proc p), s) := by
  unfold walkLevel
  rw [run_get_bind]
  cases has (s.proc p) <;> rfl

theorem unmapPage_heap (hf : Frames K s) (ha : leafAt s p v = some a) (hk : a.kind = .heap) (hv : v * PGSIZE < MAXVA) :
    unmapPage K p true v s = .ok ((), (s.unref a.ppn).withLeaf p v none) := by
  obtain ⟨hr, -⟩ := (hf.bits p v a ha).1 hk
  obtain ⟨hlow, hhigh⟩ := hf.inRange p v a ha (by simp [hk]) (by simp [hk])
  obtain ⟨hdir, htab⟩ := hf.tables p v a ha
  have hwalk : pageWalk p (v * PGSIZE) false s = .ok (true, s) := by
    unfold pageWalk
    rw [if_neg (by omega), Nat.mul_div_cancel _ (by simp [PGSIZE]), run_step walkLevel_find, if_pos hdir,
      walkLevel_find, htab]
  have hfree : freePage K a.ppn s = .ok ((), s.unref a.ppn) := by
    unfold freePage
    rw [if_neg (by omega)]
    rfl
  have hflags : a.toFlags ≠ noFlags := by
    intro he
    rw [he] at hr
    cases hr
  unfold unmapPage
  rw [run_step hwalk, if_pos rfl, run_get_bind, show (s.proc p).leaf v = some a from ha]
  dsimp only
  rw [if_neg hflags, if_pos rfl, run_step hfree]
  rfl

def Elsewhere (s : St) (p : Slot) (v f : ℕ) : Prop :=
  ∃ q, q ≠ p ∧ ∃ b, leafAt s q v = some b ∧ b.kind = .heap ∧ b.ppn = f

theorem mayUnmap_heap (h : IsKind .heap (leafAt s p v)) (ha : leafAt s p v = some a) : MayUnmap true a := by
  obtain ⟨b, hb, hk⟩ := h
  cases ha.symm.trans hb
  simp [MayUnmap, hk, Kind.counted]

theorem unmapHeap_run {vs : List ℕ} (hf : Frames K s) (hnd : vs.Nodup)
    (hvs : ∀ v ∈ vs, v * PGSIZE < MAXVA ∧ IsKind .heap (leafAt s p v)) :
    ∃ s', vs.forM (unmapPage K p true) s = .ok ((), s') ∧
      ∀ v ∈ vs, ∀ a, leafAt s p v = some a → a.ppn ∈ s'.free ∨ Elsewhere s' p v a.ppn := by
  induction vs generalizing s with
  | nil => exact ⟨s, rfl, by simp⟩
  | cons x xs ih =>
    obtain ⟨hx, hnd⟩ := List.nodup_cons.1 hnd
    obtain ⟨hlt, a, ha, hk⟩ := hvs x List.mem_cons_self
    have hrun := unmapPage_heap hf ha hk hlt
    obtain ⟨hu, -, hkeep, -⟩ := unmapPage_unmaps hrun hf fun b => mayUnmap_heap ⟨a, ha, hk⟩
    have hxs : ∀ v ∈ xs, leafAt ((s.unref a.ppn).withLeaf p x none) p v = leafAt s p v :=
      fun v hv => hkeep v fun he => hx (he ▸ hv)
    obtain ⟨s', hloop, hreleased⟩ := ih hu.frames hnd fun v hv => by
      rw [hxs v hv]
      exact hvs v (List.mem_cons_of_mem x hv)
    obtain ⟨hu', -⟩ := unmapPages_run hloop hu.frames fun v hv b hb => by
      rw [hxs v hv] at hb
      exact mayUnmap_heap (hvs v (List.mem_cons_of_mem x hv)).2 hb
    refine ⟨s', (run_step hrun).trans hloop, fun v hv b hb => ?_⟩
    rcases List.mem_cons.1 hv with rfl | hv
    · cases ha.symm.trans hb
      by_cases hone : s.page_ref_count a.ppn ≤ 1
      · refine .inl (hu'.free.subset ?_)
        rw [withLeaf_free, unref_free_of_le hone]
        exact List.mem_cons_self
      · obtain ⟨S, hS, hcard⟩ := hf.count p v a ha (by simp [hk, Kind.counted])
        obtain ⟨⟨q, w⟩, hmem, hne⟩ := Finset.exists_mem_ne (by omega : 1 < S.card) (p, v)
        obtain ⟨c, hc, hcc, he⟩ := countedAt_eq_some.1 ((hS _).1 hmem)
        obtain ⟨hck, hsame⟩ := hf.excl q w c p v a hc ha (Kind.counted_ne_spill hcc) (by simp [hk]) he hne
        rw [hck, hk] at hsame
        obtain rfl : w = v := by simpa using hsame
        have hq : q ≠ p := fun e => hne (by rw [e])
        refine .inr ⟨q, hq, c, ?_, hck.trans hk, he⟩
        rw [leafAt, hu'.others q hq, hu.others q hq]
        exact hc
    · exact hreleased v hv b ((hxs v hv).trans hb)

theorem heapRegion_dropped (hf : Frames K s) (hn : HeapOk n (s.proc p)) : ∃ s', dropRegion K p 3 s = .ok ((), s') ∧
    ∀ v a, leafAt s p v = some a → a.kind = .heap → leafAt s' p v = none ∧
      (a.ppn ∈ s'.free ∨ Elsewhere s' p v a.ppn) := by
  have hlt := hn.le_span hf
  have hmem : ∀ v, v ∈ List.range' HEAP_VPN n ↔ IsKind .heap ((s.proc p).leaf v) := by
    intro v
    rw [hn.mapped v, List.mem_range'_1]
  obtain ⟨s1, hloop, hreleased⟩ := unmapHeap_run (p := p) hf (List.nodup_range' (s := HEAP_VPN) (n := n)) fun v hv => by
    refine ⟨?_, (hmem v).1 hv⟩
    rw [List.mem_range'_1] at hv
    simp only [HEAP_VPN, PGSIZE, MAXVA, MAX_PAGES, USER_FREE_ADDRESS_START] at *
    omega
  obtain ⟨-, hgone, -⟩ := unmapPages_run hloop hf fun v hv a => mayUnmap_heap ((hmem v).1 hv)
  unfold dropRegion
  rw [if_neg (by decide), run_get_bind, hn.region]
  by_cases hzero : n = 0
  · subst hzero
    refine ⟨s, rfl, fun v a ha hk => ?_⟩
    have := (hn.mapped v).1 ⟨a, ha, hk⟩
    omega
  · have hunmap : userVmUnmap K p (USER_FREE_ADDRESS_START / PGSIZE * PGSIZE) (n * PGSIZE % 2 ^ 32) true s = .ok ((),
      s1) := by
      unfold userVmUnmap
      have hcount : (n * PGSIZE % 2 ^ 32 + PGSIZE - 1) / PGSIZE = n := by
        simp only [PGSIZE, MAX_PAGES] at *
        omega
      rw [if_neg (by decide), hcount]
      exact hloop
    rw [if_pos ⟨by simp, Nat.pos_of_ne_zero hzero⟩, show decide (Seg.heap ≠ Seg.code) = true from rfl, run_step hunmap]
    refine ⟨_, rfl, fun v a ha hk => ?_⟩
    have hv := (hmem v).2 ⟨a, ha, hk⟩
    have hleaf : ∀ q w, leafAt { s1 with proc := update s1.proc p { s1.proc p with
        mapped_info := update (s1.proc p).mapped_info 3 noRegion } } q w = leafAt s1 q w := by
      grind [leafAt]
    refine ⟨(hleaf p v).trans (hgone v hv), (hreleased v hv a ha).imp id fun hother => ?_⟩
    obtain ⟨q, hq, b, hb, hbk⟩ := hother
    exact ⟨q, hq, b, (hleaf q v).trans hb, hbk⟩

/-- the turn of `do_exec` for the heap returns and gives every page of [heap_bottom, heap_top) back: its entry is gone,
and its frame is free or held by another process -/
def ReleasesHeap (K : Machine) (p : Slot) (s : St) : Prop :=
  ∀ s1, (List.range 3).forM (dropRegion K p) s = .ok ((), s1) → ∃ s2, dropRegion K p 3 s1 = .ok ((), s2) ∧
    ∀ v, InHeap (s.proc p) v →
      ∃ a, leafAt s p v = some a ∧ leafAt s2 p v = none ∧ (a.ppn ∈ s2.free ∨ Elsewhere s2 p v a.ppn)

/-- **The heap region.** The fields of a live process agree with each other and with its page table, and `do_exec` gets
through its heap region. -/
theorem Inv.heapRegion (hI : Inv K s) (hl : s.life p = .live) :
    (s.proc p).heap_bottom = USER_FREE_ADDRESS_START ∧
    (s.proc p).heap_top = (s.proc p).heap_bottom + PGSIZE * ((s.proc p).mapped_info 3).npages ∧
    (∀ v, IsKind .heap (leafAt s p v) ↔ InHeap (s.proc p) v) ∧ ReleasesHeap K p s := by
  obtain ⟨n, hn⟩ := (hI.live p hl).heap
  refine ⟨hn.bottom, ?_, fun v => (hn.mapped v).trans hn.inHeap.symm, fun s1 hrun => ?_⟩
  · rw [hn.top, hn.bottom, hn.region, Nat.mul_comm]
  · obtain ⟨hd, -⟩ := dropRegions_loop hrun hI.frames (hI.live p hl) (fun _ _ => True) trivial fun _ _ _ _ _ _ =>
      trivial
    obtain ⟨-, m, hm⟩ := hd.heap.resolve_right (by simp)
    obtain ⟨s2, hdrop, hgone⟩ := heapRegion_dropped hd.unmaps.frames hm
    refine ⟨s2, hdrop, fun v hv => ?_⟩
    have hv1 : InHeap (s1.proc p) v := by
      obtain ⟨lf, mi, e⟩ := hd.unmaps.rest
      rw [e]
      exact hv
    obtain ⟨a, ha, hk⟩ := (hm.mapped v).2 (hm.inHeap.1 hv1)
    exact ⟨a, hd.unmaps.sub v a ha, hgone v a ha hk⟩

/-! ## The stack region -/

variable {sp stval : ℕ}

/-- a page from the top of the heap to the top of the stack -/
def InStackRegion (pr : Proc) (v : ℕ) : Prop := pr.heap_top ≤ v * PGSIZE ∧ v * PGSIZE < USER_STACK_TOP

/-- an entry that a store fault changes is a copy on write, or it is new and lies in the stack region -/
def StackStays (K : Machine) (p : Slot) (sp stval : ℕ) (s : St) : Prop :=
  ∀ s', handleUserPageFault K p sp stval s = .ok ((), s') → ∀ v, leafAt s' p v ≠ leafAt s p v →
    (∃ a, leafAt s p v = some a ∧ a.cow = true) ∨ leafAt s p v = none ∧ InStackRegion (s.proc p) v

/-- the handler takes the address for one of the stack -/
def TakenForStack (pr : Proc) (sp stval : ℕ) : Prop :=
  stval < MAXVA ∧ pr.leaf (stval / PGSIZE) = none ∧ (sp + 2 ^ 64 - PGSIZE) % 2 ^ 64 ≤ stval

theorem breakCow_leaf (h : breakCow K p v a s = .ok ((), s')) (hw : w ≠ v) : leafAt s' p w = leafAt s p w := by
  unfold breakCow at h
  rw [run_get_bind] at h
  split at h
  · obtain ⟨f, s1, h1, h⟩ := run_bind.1 h
    obtain ⟨hd, -⟩ := allocPageUsed_run h1
    rw [← hd.leaf_eq]
    unfold copyPage decPageRef at h
    split at h <;> cases h <;> simp [leafAt, hw]
  · cases h
    simp [leafAt, hw]

theorem growStack_leaf (h : growStack p stval s = .ok ((), s')) (hv : leafAt s' p v ≠ leafAt s p v) :
    v = stval / PGSIZE := by
  obtain ⟨hadds, -, -⟩ := growStack_run (K := board) h
  cases hb : leafAt s' p v with
  | none =>
    cases ha : leafAt s p v with
    | none => exact absurd (hb.trans ha.symm) hv
    | some a => cases hb.symm.trans (hadds.old v a ha)
  | some b => exact ((hadds.new v b hb).resolve_left fun ha => hv (hb.trans ha.symm)).1

theorem handleUserPageFault_leaf (h : handleUserPageFault K p sp stval s = .ok ((), s'))
    (hv : leafAt s' p v ≠ leafAt s p v) :
    v = stval / PGSIZE ∧ ((∃ a, leafAt s p v = some a ∧ a.cow = true) ∨ TakenForStack (s.proc p) sp stval) := by
  obtain ⟨found, s1, h1, hx⟩ := run_bind.1 h
  rw [run_get_bind] at hx
  obtain ⟨rfl, hlt, -⟩ := pageWalk_false_run h1
  have hgrow : handleUserPageFault.grow p sp stval s1 = .ok ((), s') →
      v = stval / PGSIZE ∧ ((∃ a, leafAt s1 p v = some a ∧ a.cow = true) ∨ TakenForStack (s1.proc p) sp stval) := by
    intro hg
    unfold handleUserPageFault.grow at hg
    split at hg
    · rename_i hsp
      exact ⟨growStack_leaf hg hv, .inr ⟨hlt, (growStack_run (K := K) hg).2.1, hsp⟩⟩
    · cases hg
  generalize hl : (if found then (s1.proc p).leaf (stval / PGSIZE) else none) = entry at hx
  cases entry with
  | none => exact hgrow hx
  | some a =>
    dsimp only at hx
    split at hx
    · rename_i hcow
      obtain rfl : v = stval / PGSIZE := by
        by_contra hne
        exact hv (breakCow_leaf hx hne)
      refine ⟨rfl, .inl ⟨a, ?_, hcow⟩⟩
      split at hl
      · exact hl
      · cases hl
    · exact hgrow hx

theorem allocPage_ok {n : ℕ} (hf : n + 1 ≤ s.free.length) :
    ∃ f s', allocPage s = .ok (some f, s') ∧ s'.proc = s.proc ∧ n ≤ s'.free.length := by
  obtain ⟨f, l, hl⟩ := List.exists_cons_of_length_pos (show 0 < s.free.length by omega)
  rw [hl, List.length_cons] at hf
  unfold allocPage
  rw [run_get_bind, hl]
  exact ⟨f, _, rfl, rfl, by simpa using hf⟩

theorem walkLevel_ok {n : ℕ} (has : Proc → Bool) (add : Proc → Proc) (k : Keep) (hadd : ∀ pr, (add pr).leaf = pr.leaf)
    (hf : n + 1 ≤ s.free.length) :
    ∃ s', walkLevel p has add k true s = .ok (true, s') ∧ leafAt s' p = leafAt s p ∧ n ≤ s'.free.length := by
  unfold walkLevel
  rw [run_get_bind]
  split
  · exact ⟨s, rfl, rfl, by omega⟩
  · obtain ⟨f, s1, h1, hproc, hn⟩ := allocPage_ok hf
    rw [if_pos rfl, run_step h1]
    refine ⟨_, rfl, ?_, hn⟩
    funext w
    simp [leafAt, hadd, hproc]

theorem pageWalk_ok {va : ℕ} (hva : va < MAXVA) (hf : 2 ≤ s.free.length) :
    ∃ s', pageWalk p va true s = .ok (true, s') ∧ leafAt s' p = leafAt s p := by
  unfold pageWalk
  rw [if_neg (by omega)]
  obtain ⟨s1, h1, hl1, hf1⟩ := walkLevel_ok (p := p) (·.dirs (va / PGSIZE / 2 ^ 18))
    (fun pr => { pr with dirs := update pr.dirs (va / PGSIZE / 2 ^ 18) true }) .other (fun _ => rfl) hf
  obtain ⟨s2, h2, hl2, -⟩ := walkLevel_ok (p := p) (·.tabs (va / PGSIZE / 2 ^ 9))
    (fun pr => { pr with tabs := update pr.tabs (va / PGSIZE / 2 ^ 9) true }) (.table p (va / PGSIZE / 2 ^ 9))
    (fun _ => rfl) hf1
  rw [run_step h1]
  exact ⟨s2, h2, hl2.trans hl1⟩

theorem pageWalk_find {va : ℕ} (hva : va < MAXVA) : ∃ found, pageWalk p va false s = .ok (found, s) := by
  unfold pageWalk
  rw [if_neg (by omega), run_step walkLevel_find]
  split
  · exact ⟨_, walkLevel_find⟩
  · exact ⟨false, rfl⟩

theorem handleUserPageFault_grows (h : TakenForStack (s.proc p) sp stval) (hf : 3 ≤ s.free.length) :
    ∃ s' a, handleUserPageFault K p sp stval s = .ok ((), s') ∧ leafAt s' p (stval / PGSIZE) = some a := by
  obtain ⟨hlt, hnone, hsp⟩ := h
  have hdiv : stval / PGSIZE * PGSIZE / PGSIZE = stval / PGSIZE := Nat.mul_div_cancel _ (by simp [PGSIZE])
  have hone : (stval / PGSIZE * PGSIZE + PGSIZE - 1) / PGSIZE + 1 - stval / PGSIZE = 1 := by
    simp only [PGSIZE]
    omega
  obtain ⟨f, s1, h1, hproc, hf1⟩ := allocPage_ok hf
  obtain ⟨s2, h2, hl2⟩ :=
    pageWalk_ok (p := p) (show stval / PGSIZE * PGSIZE < MAXVA by simp only [PGSIZE, MAXVA] at *; omega) hf1
  have hfree : leafAt s2 p (stval / PGSIZE) = none := by rw [hl2, leafAt, hproc, hnone]
  have hloop : mapLoop p (protToType true true false true) 1 (stval / PGSIZE) f .grown s1 =
      .ok (true, s2.withLeaf p (stval / PGSIZE) (some ⟨protToType true true false true, f, .grown⟩)) := by
    unfold mapLoop
    rw [run_step h2, if_pos rfl, run_get_bind, if_neg (by rw [← leafAt, hfree]; simp)]
    rfl
  have hmap : growStack p stval s = .ok ((),
    s2.withLeaf p (stval / PGSIZE) (some ⟨protToType true true false true, f, .grown⟩)) := by
    unfold growStack userVmMap mapPages
    rw [run_step h1, hdiv, hone]
    exact run_step hloop
  have hgrow : handleUserPageFault.grow p sp stval s = growStack p stval s := by
    unfold handleUserPageFault.grow
    rw [if_pos hsp]
  obtain ⟨found, h0⟩ := pageWalk_find (p := p) (s := s) hlt
  refine ⟨s2.withLeaf p (stval / PGSIZE) (some ⟨protToType true true false true, f, .grown⟩), _, ?_,
    leafAt_withLeaf_self⟩
  unfold handleUserPageFault
  rw [run_step h0, run_get_bind, hnone, ite_self]
  exact hgrow.trans hmap

theorem TakenForStack.region (h : TakenForStack (s.proc p) sp stval) (hf : 3 ≤ s.free.length)
    (hs : StackStays K p sp stval s) : InStackRegion (s.proc p) (stval / PGSIZE) := by
  have hnone : leafAt s p (stval / PGSIZE) = none := h.2.1
  obtain ⟨s', a, hrun, ha⟩ := handleUserPageFault_grows (K := K) h hf
  obtain ⟨b, hb, -⟩ | ⟨-, hregion⟩ := hs s' hrun (stval / PGSIZE) (by simp [ha, hnone])
  · cases hb.symm.trans hnone
  · exact hregion

/-- **Stack growth.** For a process with the record `pr`, whatever the rest of the state is, a store fault changes only
copy-on-write entries and unmapped pages of the stack region, exactly if the faulting address lies in the stack region
whenever the handler takes it for one of the stack. -/
theorem stack_stays (K : Machine) (p : Slot) (pr : Proc) (sp stval : ℕ) :
    (∀ s, s.proc p = pr → StackStays K p sp stval s) ↔
    (TakenForStack pr sp stval → InStackRegion pr (stval / PGSIZE)) := by
  constructor
  · intro h ht
    let s : St := { zeroed with proc := fun _ => pr, free := [0, 1, 2] }
    exact TakenForStack.region (s := s) ht (by simp [s]) (h s rfl)
  · intro h s hs s' hrun v hv
    subst hs
    obtain ⟨rfl, hcow | ht⟩ := handleUserPageFault_leaf hrun hv
    · exact .inl hcow
    · exact .inr ⟨ht.2.1, h ht⟩

/-- with its stack pointer just below the top of the stack, a process gets a page at the kernel's first address -/
theorem stack_takes_kernel_address : Reach (step board) (fun _ _ => True) (Booted board) sharedHeap ∧
    ¬ StackStays board 0 0x7fffeff0 0x80000000 sharedHeap := by
  refine ⟨sharedHeap_reach, fun h => ?_⟩
  have ht : TakenForStack (sharedHeap.proc 0) 0x7fffeff0 0x80000000 := by
    refine ⟨by decide, ?_, by decide⟩
    have hnone : (sharedHeap.proc 0).leaf (0x80000000 / PGSIZE) = none := by decide +kernel
    exact hnone
  have hfree : 3 ≤ sharedHeap.free.length := by decide +kernel
  have hlt := (ht.region hfree h).2
  simp [PGSIZE, USER_STACK_TOP] at hlt

end RiscvPke.Memory
