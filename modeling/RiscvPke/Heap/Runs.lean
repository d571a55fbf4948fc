/-
Runs of heap calls of one process.
-/
import RiscvPke.Core.Count
import RiscvPke.Heap.Calls

namespace RiscvPke.Heap

open Bytes RiscvPke.Count Program Run Segment RiscvPke.System

variable {strict fails : Bool} {S : Stop → Prop} {t t' t1 t2 : Flat} {a b p q va : ℕ} {n : ℤ} {op : Op}
  {l F F' A A' : List ℕ} {α : Type}

/-! ## The machine follows the device -/

def NoMemory (e : Stop) : Prop := e = .disabled ∨ e = .panic "page_walk"

theorem handle_answer (c : Call) (h : (device strict fails).ok c t) :
    Ends NoMemory (handle fails c t) fun r => ∃ t', (device strict fails).answer c t r.1 t' ∧ r.2 = t' := by
  cases c with
  | get f p =>
    have hp : t.HasHeader p := h.1
    have hrun : handle fails (.get f p) t = .ok (t.field f p, t) := by
      rw [handle, run_get_bind, if_pos hp]
      rfl
    rw [hrun]
    exact ⟨t, ⟨rfl, rfl⟩, rfl⟩
  | set f p v =>
    have hp : t.HasHeader p := h.1
    have hrun : handle fails (.set f p v) t = .ok ((), t.put f p v) := by
      rw [handle, run_get_bind, if_pos hp]
      rfl
    rw [hrun]
    exact ⟨t.put f p v, rfl, rfl⟩
  | freeList => exact ⟨t, ⟨rfl, rfl⟩, rfl⟩
  | allocList => exact ⟨t, ⟨rfl, rfl⟩, rfl⟩
  | setFreeList p => exact ⟨t.setFree p, rfl, rfl⟩
  | setAllocList p => exact ⟨t.setAlloc p, rfl, rfl⟩
  | heapTop => exact ⟨t, ⟨rfl, rfl⟩, rfl⟩
  | grow =>
    rcases Nat.eq_zero_or_pos t.pages with hp | hp
    · cases fails with
      | false =>
        have hrun : handle false .grow t = .error .disabled := by
          rw [handle, run_get_bind, if_pos hp]
          rfl
        rw [hrun]
        exact .inl rfl
      | true =>
        have hrun : handle true .grow t = .ok (false, t) := by
          rw [handle, run_get_bind, if_pos hp]
          rfl
        rw [hrun]
        exact ⟨t, .inr ⟨rfl, rfl, hp, rfl⟩, rfl⟩
    · rcases Nat.lt_or_ge MAXVA (t.heap_top + PGSIZE) with hmax | hmax
      · have hrun : handle fails .grow t = .error (.panic "page_walk") := by
          rw [handle, run_get_bind, if_neg (Nat.ne_of_gt hp), if_pos hmax]
          rfl
        rw [hrun]
        exact .inr rfl
      · have hrun : handle fails .grow t = .ok (true, t.grown) := by
          rw [handle, run_get_bind, if_neg (Nat.ne_of_gt hp), if_neg (Nat.not_lt_of_ge hmax)]
          rfl
        rw [hrun]
        exact ⟨t.grown, .inl ⟨rfl, ⟨hmax, rfl, rfl, rfl, rfl, rfl, fun _ _ => rfl⟩⟩, rfl⟩
  | unmap va => exact h.elim
  | releaseHeap => exact h.elim

theorem act_ends {x : H α} {Q : α → Flat → Prop} (hwp : x.wp (device strict fails) S Q t) :
    Ends (fun e => S e ∨ NoMemory e) (x.run (handle fails) t) fun r => Q r.1 r.2 := by
  have h : Ends (fun e => S e ∨ NoMemory e) (x.run (handle fails) t) fun r => ∃ t', r.2 = t' ∧ Q r.1 t' := by
    refine run_ends (fun c s t hst hok => ?_) rfl hwp
    subst hst
    exact handle_answer c hok
  refine h.mono ?_
  intro r ⟨t', hr, hQ⟩
  rw [hr]
  exact hQ

theorem step_run (h : step fails t op = .ok t') : (act op).run (handle fails) t = .ok (returned fails t op, t') := by
  obtain ⟨r, hx, rfl⟩ := map_ok h
  rw [returned, hx]

/-! ## The lists as values -/

def freeBlocks (t : Flat) : List ℕ := nodes (t.field .next) TURNS t.free_list

def allocBlocks (t : Flat) : List ℕ := nodes (t.field .next) TURNS t.alloc_list

theorem HeapOk.freeBlocks_eq (h : HeapOk strict t F A) : freeBlocks t = F :=
  h.lists.free.nodes_eq (Nat.le_of_lt
    ((h.lists.blocks.nodes.sub (List.subset_append_right A F)).length_lt h.lists.free.nodup))

theorem HeapOk.allocBlocks_eq (h : HeapOk strict t F A) : allocBlocks t = A :=
  h.lists.alloc.nodes_eq (Nat.le_of_lt
    ((h.lists.blocks.nodes.sub (List.subset_append_left A F)).length_lt h.lists.alloc.nodup))

theorem Empty.ok (h : Empty t) : HeapOk strict t [] [] := by
  refine ⟨⟨⟨by simp, by simp, by simp, by simp, ?_, ?_⟩, ?_, ?_, by simp, by simp⟩, ?_, ?_⟩
  · rw [h.bottom]
    norm_num [USER_FREE_ADDRESS_START, PGSIZE]
  · rw [h.top]
    norm_num [USER_FREE_ADDRESS_START, PGSIZE, MAXVA]
  · exact h.free
  · exact h.alloc
  · rw [h.top]
    rfl
  · rw [h.top, h.bottom]

/-! ## Representation -/

/-- the pointers that were handed out and not released, with the sizes of the requests -/
abbrev Live := List (ℕ × ℤ)

def record (t : Flat) (op : Op) (_t' : Flat) (live : Live) : Live :=
  match op with
  | .malloc n => if returned false t op = 0 then live else (returned false t op, n) :: live
  | .free va => live.filter fun x => x.1 ≠ va

/-- requests of up to the size of the memory, releases of live pointers -/
def Proper (s : Flat × Live) : Op → Prop
  | .malloc n => 0 < n ∧ n ≤ 128 * 1024 * 1024
  | .free va => ∃ x ∈ s.2, x.1 = va

instance (s : Flat × Live) (op : Op) : Decidable (Proper s op) :=
  match op with
  | .malloc _ => inferInstanceAs (Decidable (_ ∧ _))
  | .free _ => inferInstanceAs (Decidable (∃ x ∈ _, _))

structure Represents (t : Flat) (live : Live) : Prop where
  /-- the lists end, and so meet no node twice -/
  free : Seg (t.field .next) t.free_list (freeBlocks t) 0 ∧ (freeBlocks t).Nodup
  alloc : Seg (t.field .next) t.alloc_list (allocBlocks t) 0 ∧ (allocBlocks t).Nodup
  share : ∀ q ∈ allocBlocks t, q ∉ freeBlocks t
  disjoint : ∀ p ∈ allocBlocks t ++ freeBlocks t, ∀ q ∈ allocBlocks t ++ freeBlocks t, p ≠ q → t.fin p ≤ q ∨ t.fin q ≤ p
  aligned : ∀ p ∈ allocBlocks t ++ freeBlocks t, p % 8 = 0 ∧ t.field .size p % 8 = 0
  inside : ∀ p ∈ allocBlocks t ++ freeBlocks t, t.heap_bottom ≤ p ∧ t.fin p ≤ t.heap_top
  /-- a live pointer stands behind the header of an allocated block that has the bytes of the request -/
  owns : ∀ x ∈ live, ∃ b ∈ allocBlocks t, x.1 = b + PD ∧ (x.1 : ℤ) + x.2 ≤ t.fin b ∧
    ∀ q ∈ allocBlocks t ++ freeBlocks t, q ≠ b → t.fin q ≤ x.1 ∨ (x.1 : ℤ) + x.2 ≤ q
  /-- no pointer is handed out twice -/
  once : (live.map Prod.fst).Nodup

/-- what a run keeps -/
structure LiveInv (s : Flat × Live) (F A : List ℕ) : Prop where
  ok : HeapOk false s.1 F A
  owns : ∀ x ∈ s.2, ∃ b ∈ A, x.1 = b + PD ∧ x.2 ≤ s.1.field .size b
  once : (s.2.map Prod.fst).Nodup

variable {s : Flat × Live}

theorem LiveInv.represents (h : LiveInv s F A) : Represents s.1 s.2 := by
  have hl := h.ok.lists
  have hF := h.ok.freeBlocks_eq
  have hA := h.ok.allocBlocks_eq
  constructor
  · rw [hF]
    exact ⟨hl.free, hl.free.nodup⟩
  · rw [hA]
    exact ⟨hl.alloc, hl.alloc.nodup⟩
  · rw [hF, hA]
    exact hl.apart
  · rw [hF, hA]
    exact hl.blocks.disj
  · rw [hF, hA]
    exact hl.blocks.aligned
  · rw [hF, hA]
    exact hl.blocks.inside
  · rw [hF, hA]
    intro x hx
    obtain ⟨b, hb, hxb, hsize⟩ := h.owns x hx
    have hend : (x.1 : ℤ) + x.2 ≤ s.1.fin b := by
      rw [hxb, Flat.fin]
      omega
    refine ⟨b, hb, hxb, hend, fun q hq hne => ?_⟩
    have := hl.blocks.disj b (List.mem_append_left _ hb) q hq (Ne.symm hne)
    omega
  · exact h.once

/-- the reasons for which a call of a proper run may stop: no page, no address, or a request beyond the largest `int` -/
def OutOfMemory (e : Stop) : Prop := e = .disabled ∨ NoMemory e

theorem malloc_ends (h : HeapOk strict t F A) (hpage : strict = true → 0 < n → HeadersInPage t (roundup8 n) F)
    (hsup : PGSIZE < roundup8 n + PD → Supply fails 2 t) :
    Ends OutOfMemory ((act (.malloc n)).run (handle fails) t) fun r =>
      MallocPost strict fails t (roundup8 n) F A r.1 r.2 :=
  act_ends (sysUserAllocateMem_wp (S := fun e => e = .disabled) rfl h hpage hsup)

def headerOf (va : ℕ) : ℕ := (((va : ℤ) - PD) % 2 ^ 64).toNat

theorem free_wp (h : HeapOk strict t F A) (hS : headerOf va ∉ A → ∀ msg, S (.panic msg)) :
    (act (.free va)).wp (device strict fails) S
      (fun _ t' => ∃ F' A', FreePost strict t F A (headerOf va) t' F' A') t := by
  rw [act, wp_bind, sysUserFreeMem]
  refine wp_mono (memFree_wp (fun hA => ?_) (fun hA => hS hA _) h) fun _ t' ht' => ht'
  apply hS
  rw [hA]
  exact List.not_mem_nil

theorem free_ends (h : HeapOk strict t F A) (hmem : headerOf va ∈ A) :
    Ends OutOfMemory ((act (.free va)).run (handle fails) t) fun r =>
      ∃ F' A', FreePost strict t F A (headerOf va) r.2 F' A' :=
  act_ends (free_wp (S := fun e => e = .disabled) h fun hA => absurd hmem hA)

theorem free_ok {r : ℕ} (h : HeapOk strict t F A) (hrun : (act (.free va)).run (handle fails) t = .ok (r, t')) :
    ∃ F' A', FreePost strict t F A (headerOf va) t' F' A' :=
  (act_ends (free_wp (S := fun _ => True) h fun _ _ => trivial)).of_ok hrun

theorem headerOf_pointer (hb : b < MAXVA) : headerOf (b + PD) = b := by
  simp only [headerOf, PD, MAXVA] at *
  omega

theorem LiveInv.malloc {live : Live} (h : LiveInv (t, live) F A) (hn : 0 < n) {r : ℕ}
    (hpost : MallocPost false fails t (roundup8 n) F A r t') :
    ∃ F' A', LiveInv (t', if r = 0 then live else (r, n) :: live) F' A' := by
  obtain ⟨F', ⟨rfl, hafter⟩ | ⟨b, rfl, hafter, hsize⟩⟩ := hpost
  · refine ⟨F', A, hafter.ok, ?_, h.once⟩
    intro x hx
    obtain ⟨b, hb, hxb, hle⟩ := h.owns x hx
    exact ⟨b, hb, hxb, by rw [hafter.keep b hb hb]; exact hle⟩
  · have hbA : b ∉ A := (List.nodup_cons.1 hafter.ok.lists.alloc.nodup).1
    refine ⟨F', b :: A, hafter.ok, ?_, ?_⟩
    · intro x hx
      rcases List.mem_cons.1 hx with rfl | hx
      · grind [roundup8_pos]
      · obtain ⟨c, hc, hxc, hle⟩ := h.owns x hx
        refine ⟨c, List.mem_cons_of_mem _ hc, hxc, ?_⟩
        rw [hafter.keep c hc (List.mem_cons_of_mem _ hc)]
        exact hle
    · refine List.nodup_cons.2 ⟨fun hmem => hbA ?_, h.once⟩
      obtain ⟨x, hx, hxe⟩ := List.mem_map.1 hmem
      obtain ⟨c, hc, hxc, -⟩ := h.owns x hx
      obtain rfl : b = c := by omega
      exact hc

theorem LiveInv.free {live : Live} (h : LiveInv (t, live) F A) (hpost : FreePost false t F A b t' F' A') :
    LiveInv (t', live.filter fun x => x.1 ≠ b + PD) F' A' := by
  refine ⟨hpost.ok, ?_, ?_⟩
  · intro x hx
    obtain ⟨hx, hne⟩ := List.mem_filter.1 hx
    obtain ⟨c, hc, hxc, hle⟩ := h.owns x hx
    have hcb : c ≠ b := by
      rintro rfl
      exact absurd hxc (of_decide_eq_true hne)
    have hcA := (hpost.rest c).2 ⟨hc, hcb⟩
    exact ⟨c, hcA, hxc, by rw [hpost.keep c hcA]; exact hle⟩
  · exact h.once.sublist (List.filter_sublist.map _)

theorem LiveInv.live {live : Live} (h : LiveInv (t, live) F A) (hva : ∃ x ∈ live, x.1 = va) :
    ∃ b ∈ A, va = b + PD ∧ headerOf va = b := by
  obtain ⟨x, hx, rfl⟩ := hva
  obtain ⟨b, hb, hxb, -⟩ := h.owns x hx
  refine ⟨b, hb, hxb, ?_⟩
  rw [hxb]
  exact headerOf_pointer (h.ok.lists.blocks.nodes.lt (List.mem_append_left _ hb))

theorem liveInv_step {s' : Flat × Live} (h : LiveInv s F A) (hc : Proper s op)
    (hst : logged (step false) record s op = .ok s') : ∃ F' A', LiveInv s' F' A' := by
  obtain ⟨hstep, hlog⟩ := logged_ok.1 hst
  have hrun := step_run hstep
  obtain ⟨t', live'⟩ := s'
  simp only at hlog hrun
  rw [hlog]
  cases op with
  | malloc n => exact h.malloc hc.1 ((malloc_ends h.ok (fun h => nomatch h) fun _ => .inl rfl).of_ok hrun)
  | free va =>
    obtain ⟨b, hb, hvb, hhead⟩ := h.live hc
    obtain ⟨F', A', hpost⟩ := free_ok h.ok hrun
    rw [hhead] at hpost
    rw [record, hvb]
    exact ⟨F', A', h.free hpost⟩

theorem liveInv_reach (h : Reach (logged (step false) record) Proper (fun s => Empty s.1 ∧ s.2 = []) s) :
    ∃ F A, LiveInv s F A := by
  refine h.inv (P := fun s => ∃ F A, LiveInv s F A) ?_ ?_
  · intro s ⟨hs, hl⟩
    refine ⟨[], [], hs.ok, ?_, ?_⟩
    · rw [hl]
      simp
    · rw [hl]
      exact List.nodup_nil
  · intro s op s' ⟨F, A, hi⟩ hc hst
    exact liveInv_step hi hc hst

/-- **Heap representation.** After any requests and releases of live pointers both lists end and share no node, the
blocks are aligned, disjoint and inside the heap, and every live pointer has the bytes that it was given for. A call
stops for lack of memory only. -/
theorem heap_representation
    (h : Reach (logged (step false) record) Proper (fun s => Empty s.1 ∧ s.2 = []) s) :
    Represents s.1 s.2 ∧ ∀ op, Proper s op → Ends OutOfMemory (step false s.1 op) fun _ => True := by
  obtain ⟨F, A, hi⟩ := liveInv_reach h
  refine ⟨hi.represents, fun op hc => ?_⟩
  have hends : Ends OutOfMemory ((act op).run (handle false) s.1) fun _ => True := by
    cases op with
    | malloc n => exact (malloc_ends hi.ok (fun h => nomatch h) fun _ => .inl rfl).mono fun _ _ => trivial
    | free va =>
      obtain ⟨b, hb, -, hhead⟩ := hi.live hc
      exact (free_ends hi.ok (by rwa [hhead])).mono fun _ _ => trivial
  unfold step
  cases hx : (act op).run (handle false) s.1 with
  | error e =>
    rw [hx] at hends
    exact hends
  | ok r => trivial

def fresh : Flat where
  mem := fun _ => 0
  heap_bottom := USER_FREE_ADDRESS_START
  heap_top := USER_FREE_ADDRESS_START
  alloc_list := 0
  free_list := 0
  pages := 64

theorem fresh_empty : Empty fresh := ⟨rfl, rfl, rfl, rfl⟩

def mixedCalls : List Op :=
  [.malloc 100, .malloc 3920, .free 0x400018, .malloc 8152, .malloc 1, .free 0x400098, .malloc 4096]

theorem heap_representation_mixedCalls :
    Represents (exec (logged (step false) record) (fresh, []) mixedCalls).1
        (exec (logged (step false) record) (fresh, []) mixedCalls).2 ∧
      ∀ op, Proper (exec (logged (step false) record) (fresh, []) mixedCalls) op →
        Ends OutOfMemory (step false (exec (logged (step false) record) (fresh, []) mixedCalls).1 op) fun _ => True :=
  heap_representation (reach_decide
    mixedCalls (fresh, []) (.init ⟨fresh_empty, rfl⟩) (by decide +kernel))

/-! ## Tiling -/

/-- the blocks of both lists, in the order of the lists -/
def blocks (t : Flat) : List ℕ := allocBlocks t ++ freeBlocks t

structure Tiles (t : Flat) : Prop where
  gapless : ∀ a, t.heap_bottom ≤ a → a < t.heap_top → ∃ p ∈ blocks t, p ≤ a ∧ a < p + (PD + t.field .size p)
  disjoint : ∀ p ∈ blocks t, ∀ q ∈ blocks t, p ≠ q → p + (PD + t.field .size p) ≤ q ∨ q + (PD + t.field .size q) ≤ p
  sum : ((blocks t).map fun p => PD + t.field .size p).sum = t.heap_top - t.heap_bottom

theorem Tiled.tiles (h : HeapOk strict t F A) (ht : Tiled t (A ++ F)) : Tiles t := by
  have hblocks : blocks t = A ++ F := by rw [blocks, h.allocBlocks_eq, h.freeBlocks_eq]
  have hfin : ∀ p, p + (PD + t.field .size p) = t.fin p := fun p => (Nat.add_assoc p PD _).symm
  have hnd : (A ++ F).Nodup :=
    List.nodup_append.2 ⟨h.lists.alloc.nodup, h.lists.free.nodup, fun p hp q hq hpq => h.lists.apart p hp (hpq ▸ hq)⟩
  have hgap : ∀ a, t.heap_bottom ≤ a → a < t.heap_top → ∃ p ∈ A ++ F, p ≤ a ∧ a < p + (PD + t.field .size p) := by
    intro a h1 h2
    obtain ⟨p, hp, hpa, hap⟩ := ht a h1 h2
    exact ⟨p, hp, hpa, by rwa [hfin]⟩
  have hdisj : ∀ p ∈ A ++ F, ∀ q ∈ A ++ F, p ≠ q →
      p + (PD + t.field .size p) ≤ q ∨ q + (PD + t.field .size q) ≤ p := by
    intro p hp q hq hne
    rw [hfin, hfin]
    exact h.lists.blocks.disj p hp q hq hne
  refine ⟨?_, ?_, ?_⟩
  · rwa [hblocks]
  · rwa [hblocks]
  · rw [hblocks]
    refine sum_intervals hnd hdisj (fun p hp => ?_) hgap
    rw [hfin]
    exact h.lists.blocks.inside p hp

/-- a request puts no header at the end of a page; no block is released while there is a free block of size 0 -/
def NoneLost (t : Flat) : Op → Prop
  | .malloc n => 0 < n → HeadersInPage t (roundup8 n) (freeBlocks t)
  | .free _ => ∀ p ∈ freeBlocks t, t.field .size p ≠ 0

theorem tiled_step (hi : HeapOk true t F A ∧ Tiled t (A ++ F)) (hc : NoneLost t op) (hst : step false t op = .ok t') :
    ∃ F' A', HeapOk true t' F' A' ∧ Tiled t' (A' ++ F') := by
  obtain ⟨h, ht⟩ := hi
  have hrun := step_run hst
  cases op with
  | malloc n =>
    have hpage : true = true → 0 < n → HeadersInPage t (roundup8 n) F := by
      intro _ hn
      rw [← h.freeBlocks_eq]
      exact hc hn
    obtain ⟨F', ⟨-, hafter⟩ | ⟨b, -, hafter, -⟩⟩ := (malloc_ends h hpage fun _ => .inl rfl).of_ok hrun
    · exact ⟨F', A, hafter.ok, hafter.tiled rfl ht⟩
    · exact ⟨F', b :: A, hafter.ok, hafter.tiled rfl ht⟩
  | free va =>
    obtain ⟨F', A', hpost⟩ := free_ok h hrun
    refine ⟨F', A', hpost.ok, hpost.tiled ?_ ht⟩
    rw [← h.freeBlocks_eq]
    exact hc

theorem Empty.tiled (h : Empty t) : Tiled t ([] ++ []) := by
  intro a h1 h2
  rw [h.bottom] at h1
  rw [h.top] at h2
  omega

/-- **Tiling.** While no request puts a header at the end of a page and no block is released while there is a free block
of size 0, the allocated and free blocks cover the heap from `heap_bottom` to `heap_top` without gap or overlap, and
their sizes with the headers add up to its length. -/
theorem heap_tiled (h : Reach (step false) NoneLost Empty t) : Tiles t := by
  obtain ⟨F, A, hok, ht⟩ := h.inv (P := fun t => ∃ F A, HeapOk true t F A ∧ Tiled t (A ++ F))
    (fun s hs => ⟨[], [], hs.ok, hs.tiled⟩) fun s op s' ⟨_, _, hi⟩ hc hst => tiled_step hi hc hst
  exact Tiled.tiles hok ht

def reuseCalls : List Op := [.malloc 104, .malloc 200, .free 0x400018, .malloc 64]

instance (t : Flat) (n : ℕ) (F : List ℕ) : Decidable (HeadersInPage t n F) := by
  unfold HeadersInPage SplitsInPage ExtendsInPage
  infer_instance

instance (t : Flat) (op : Op) : Decidable (NoneLost t op) :=
  match op with
  | .malloc _ => inferInstanceAs (Decidable (_ → _))
  | .free _ => inferInstanceAs (Decidable (∀ p ∈ _, _))

theorem heap_tiled_reuseCalls : Tiles (exec (step false) fresh reuseCalls) :=
  heap_tiled (reach_decide
    reuseCalls fresh (.init fresh_empty) (by decide +kernel))

def splitCalls : List Op := [.malloc 104, .malloc 3920, .free 0x400018]

theorem heap_gap : Reach (step false) (fun _ _ => True) Empty (exec (step false) fresh splitCalls) ∧
    ¬ Tiles (exec (step false) fresh splitCalls) := by
  refine ⟨reach_decide splitCalls fresh (.init fresh_empty)
    (by decide +kernel), fun h => ?_⟩
  have hsum := h.sum
  revert hsum
  decide +kernel

/-! ## Headers and pages -/

/-- the headers that a call reads or writes -/
def headers (t : Flat) (op : Op) : List ℕ :=
  ((act op).trace (handle true) t).filterMap fun c =>
    match c with
    | .get _ p => some p
    | .set _ p _ => some p
    | _ => none

/-- a request puts no header at the end of a page, and a request for several pages finds at least two: one for the start
of the block and the one behind it. Later on it may fail -/
def WithinPages (t : Flat) : Op → Prop
  | .malloc n => 0 < n → HeadersInPage t (roundup8 n) (freeBlocks t) ∧
      (PGSIZE < roundup8 n + PD → 2 ≤ t.pages)
  | .free _ => True

theorem WithinPages.wp (hS : S .disabled) (hpanic : ∀ msg, S (.panic msg)) (h : HeapOk true t F A)
    (hc : WithinPages t op) :
    (act op).wp (device true true) S (fun _ t' => ∃ F' A', HeapOk true t' F' A') t := by
  cases op with
  | malloc n =>
    have hpage : true = true → 0 < n → HeadersInPage t (roundup8 n) F := by
      intro _ hn
      rw [← h.freeBlocks_eq]
      exact (hc hn).1
    have hsup : PGSIZE < roundup8 n + PD → Supply true 2 t := by
      intro hbig
      refine .inr ((hc ?_).2 hbig)
      simp only [PGSIZE, PD, roundup8] at hbig
      omega
    refine wp_mono (sysUserAllocateMem_wp hS h hpage hsup) ?_
    intro r t' ⟨F', hpost⟩
    obtain ⟨-, hafter⟩ | ⟨b, -, hafter, -⟩ := hpost
    · exact ⟨F', A, hafter.ok⟩
    · exact ⟨F', b :: A, hafter.ok⟩
  | free va =>
    refine wp_mono (free_wp h fun _ => hpanic) ?_
    intro r t' ⟨F', A', hpost⟩
    exact ⟨F', A', hpost.ok⟩

theorem handle_ok {c : Call} {r : Ans c} (hok : (device strict fails).ok c t) (h : handle fails c t = .ok (r, t')) :
    (device strict fails).answer c t r t' := by
  obtain ⟨t1, ha, rfl⟩ := (handle_answer c hok).of_ok h
  exact ha

theorem accesses_inPage (h : HeapOk true t F A) (hc : WithinPages t op) : ∀ p ∈ headers t op, InPage p := by
  intro p hp
  obtain ⟨c, hmem, hcp⟩ := List.mem_filterMap.1 hp
  obtain ⟨t1, hok⟩ := trace_ok (R := fun s t => s = t) (fun o s t r s' hst hok hh => by
    subst hst
    exact ⟨s', handle_ok hok hh, rfl⟩) rfl (WithinPages.wp (S := fun _ => True) trivial (fun _ => trivial) h hc) hmem
  cases c with
  | get f q =>
    obtain rfl : q = p := by simpa using hcp
    exact hok.2 rfl
  | set f q v =>
    obtain rfl : q = p := by simpa using hcp
    exact hok.2 rfl
  | _ => simp at hcp

/-- **Headers inside a page.** While no request puts a header at the end of a page, and one for several pages finds two,
every header that a call reads or writes lies inside one page, so that the one translation by `user_va_to_pa` reaches
all of its fields. -/
theorem headers_in_page (h : Reach (step true) WithinPages Empty t) (hc : WithinPages t op) :
    ∀ p ∈ headers t op, InPage p := by
  obtain ⟨F, A, hok⟩ := h.inv (P := fun t => ∃ F A, HeapOk true t F A) (fun s hs => ⟨[], [], hs.ok⟩) (by
    intro s op s' ⟨F, A, hi⟩ hc hst
    exact (act_ends (WithinPages.wp (S := fun _ => True) trivial (fun _ => trivial) hi hc)).of_ok (step_run hst))
  exact accesses_inPage hok hc

instance (t : Flat) (op : Op) : Decidable (WithinPages t op) :=
  match op with
  | .malloc _ => inferInstanceAs (Decidable (_ → _))
  | .free _ => inferInstanceAs (Decidable True)

theorem headers_in_page_reuseCalls : headers (exec (step true) fresh reuseCalls) (.malloc 8000) ≠ [] ∧
    ∀ p ∈ headers (exec (step true) fresh reuseCalls) (.malloc 8000), InPage p := by
  refine ⟨by decide +kernel, ?_⟩
  exact headers_in_page (reach_decide
    reuseCalls fresh (.init fresh_empty) (by decide +kernel)) (by decide +kernel)

/-- the rest of a request of 8152 bytes begins 16 bytes before the end of a page -/
theorem header_straddles : Empty fresh ∧ 0x401FF0 ∈ headers fresh (.malloc 8152) ∧ ¬ InPage 0x401FF0 := by
  refine ⟨fresh_empty, ?_, ?_⟩ <;> decide +kernel

end RiscvPke.Heap
