/-
The heads of the block lists of a process: which operations change them. Page tables, program loading and page faults do
not; a new process and `do_exec` start with empty lists, and a forked child has the heads of its parent (`fork_heads`).
-/
import RiscvPke.Memory.Invariant

namespace RiscvPke.Memory

open Function Run

variable {K : Machine} {s s' s1 : St} {p q P C : Slot} {v f va i : ℕ} {n : ℕ}

def heads (p : Slot) (s : St) : ℕ × ℕ := ((s.proc p).alloc_list, (s.proc p).free_list)

/-! ## Page tables -/

section Outside

variable {γ : Type} {view : Proc → γ}

/-- a part of the record that is not the page table -/
def Outside (view : Proc → γ) : Prop := ∀ pr lf d tb, view { pr with leaf := lf, dirs := d, tabs := tb } = view pr

def part (view : Proc → γ) (p : Slot) (s : St) : γ := view (s.proc p)

theorem keeps_modProc {g : Proc → Proc} (hg : p ≠ q ∨ ∀ pr, view (g pr) = view pr) :
    Keeps (part view p) (modProc q g) := by
  refine keeps_modify fun s => ?_
  by_cases hp : p = q
  · subst hp
    simp [part, hg.resolve_left (absurd rfl)]
  · simp [part, update_of_ne hp]

variable (hv : Outside view)

include hv

theorem keeps_allocPage : Keeps (part view p) allocPage := by
  intro s r s' h
  rcases allocPage_run h with ⟨-, rfl, -⟩ | ⟨f, -, -, hd, -⟩
  · rfl
  · obtain ⟨d, tb, -, -, e⟩ := hd.proc p
    rw [part, e]
    exact hv _ _ _ _

theorem keeps_allocPageUsed : Keeps (part view p) allocPageUsed :=
  (keeps_allocPage hv).bind fun r => by
    cases r with
    | none => exact keeps_throw
    | some f => exact keeps_pure

omit hv in
theorem keeps_zeroPage : Keeps (part view p) (zeroPage f) := keeps_modify fun _ => rfl

omit hv in
theorem keeps_keep {k : Keep} : Keeps (part view p) (keep f k) := keeps_modify fun _ => rfl

theorem keeps_walkLevel {has : Proc → Bool} {add : Proc → Proc} {k : Keep} {alloc : Bool}
    (hg : ∀ pr, view (add pr) = view pr) : Keeps (part view p) (walkLevel q has add k alloc) := by
  refine keeps_get.bind fun s => ?_
  split_ifs
  · exact keeps_pure
  · refine (keeps_allocPage hv).bind fun r => ?_
    cases r with
    | none => exact keeps_pure
    | some f =>
      exact keeps_zeroPage.bind fun _ => keeps_keep.bind fun _ => (keeps_modProc (.inr hg)).bind fun _ => keeps_pure
  · exact keeps_pure

theorem keeps_pageWalk {alloc : Bool} : Keeps (part view p) (pageWalk q va alloc) := by
  unfold pageWalk
  split_ifs
  · exact keeps_throw
  · apply Keeps.bind
    · exact keeps_walkLevel hv fun _ => hv _ _ _ _
    · intro r
      split_ifs
      · exact keeps_walkLevel hv fun _ => hv _ _ _ _
      · exact keeps_pure

theorem keeps_setLeaf {o : Option Pte} : Keeps (part view p) (setLeaf q v o) := keeps_modProc (.inr fun _ => hv _ _ _ _)

theorem keeps_mapLoop {fl : Flags} {k : Kind} : Keeps (part view p) (mapLoop q fl n v f k) := by
  induction n generalizing v f k with
  | zero => exact keeps_pure
  | succ n ih =>
    refine (keeps_pageWalk hv).bind fun r => ?_
    split_ifs
    · refine keeps_get.bind fun s => ?_
      split_ifs
      · exact keeps_throw
      · exact (keeps_setLeaf hv).bind fun _ => ih
    · exact keeps_pure

theorem keeps_userVmMap {size : ℕ} {fl : Flags} {k : Kind} : Keeps (part view p) (userVmMap q va size f fl k) := by
  refine (keeps_mapLoop hv).bind fun r => ?_
  split_ifs
  · exact keeps_pure
  · exact keeps_throw

theorem keeps_shareHeapPage : Keeps (part view p) (shareHeapPage K P C v) := by
  refine (keeps_pageWalk hv).bind fun r => ?_
  split_ifs
  · refine keeps_get.bind fun s => ?_
    cases (s.proc P).leaf v with
    | none => exact keeps_pure
    | some pte =>
      refine Keeps.bind ?_ fun _ => (keeps_userVmMap hv).bind fun _ => keeps_setLeaf hv
      unfold incPageRef
      split_ifs
      · exact keeps_modify fun _ => rfl
      · exact keeps_pure
  · exact keeps_pure

theorem keeps_shareCodePage : Keeps (part view p) (shareCodePage P C va) :=
  keeps_get.bind fun _ => (keeps_mapLoop hv).bind fun _ => keeps_pure

theorem keeps_copyDataPage : Keeps (part view p) (copyDataPage P C va) := by
  refine (keeps_allocPageUsed hv).bind fun childPa => keeps_get.bind fun s => ?_
  dsimp only
  split_ifs
  · exact keeps_throw
  · exact Keeps.bind (keeps_modify fun _ => rfl) fun _ => keeps_userVmMap hv

omit hv in
theorem keeps_appendRegion {r : Region}
    (h : p ≠ C ∨ ∀ pr mi m, view { pr with mapped_info := mi, total_mapped_region := m } = view pr) :
    Keeps (part view p) (appendRegion C r) := by
  refine keeps_get.bind fun s => ?_
  dsimp only
  split_ifs
  · exact keeps_throw
  · exact keeps_modProc (h.imp id fun h pr => h _ _ _)

end Outside

theorem heads_outside : Outside fun pr => (pr.alloc_list, pr.free_list) := fun _ _ _ _ => rfl

/-! ## Programs -/

theorem keeps_loadPage {ph : Phdr} : Keeps (heads p) (loadPage q ph v) :=
  (keeps_allocPage heads_outside).bind fun r => by
    cases r with
    | none => exact keeps_throw
    | some f => exact keeps_zeroPage.bind fun _ => keeps_userVmMap heads_outside

theorem keeps_readPage {ph : Phdr} : Keeps (heads p) (readPage q ph v) := by
  refine keeps_get_bind fun s r s' h => ?_
  split_ifs at h
  · cases h
  · cases h
    rfl

theorem keeps_recordSegment {ph : Phdr} : Keeps (heads p) (recordSegment q ph) := by
  refine keeps_get.bind fun s => ?_
  dsimp only
  split_ifs
  · exact keeps_throw
  · cases ph.segType with
    | none => exact keeps_throw
    | some t => exact @keeps_modProc p q _ (fun pr => (pr.alloc_list, pr.free_list)) _ (.inr fun _ => rfl)

variable {elf : List Phdr}

theorem keeps_elfLoad : Keeps (heads p) (elfLoad q elf) := by
  refine keeps_forM fun ph _ => ?_
  unfold loadSegment
  split_ifs
  · exact keeps_throw
  · exact (keeps_forM fun _ _ => keeps_loadPage).bind fun _ => (keeps_forM fun _ _ => keeps_readPage).bind fun _ =>
      keeps_recordSegment

theorem keeps_writeArgs {para : List UInt8} : Keeps (heads p) (writeArgs q para) := by
  refine keeps_get_bind fun s r s' h => ?_
  split_ifs at h
  · cases h
    rfl
  · cases h
    rfl

theorem leaves_allocSpace : Leaves (heads p) (0, 0) (allocSpace K p) := by
  refine Leaves.last fun trapframe => Leaves.last fun _ => Leaves.last fun _ => Leaves.last fun pagetable =>
    Leaves.last fun _ => Leaves.last fun _ => Leaves.last fun kstack => Leaves.last fun _ =>
      Leaves.last fun userStack =>
    Leaves.last fun info => Leaves.last fun _ => Leaves.last fun _ => ?_
  have hnew : Leaves (heads p) (0, 0) (modify fun s => s.cleared p (newProc K trapframe) : M Unit) :=
    leaves_modify fun s => by simp [heads, St.cleared, newProc]
  refine hnew.bind fun _ => (keeps_userVmMap heads_outside).bind fun _ => (keeps_userVmMap heads_outside).bind fun _ =>
    (keeps_userVmMap heads_outside).bind fun _ => (keeps_allocPageUsed heads_outside).bind fun _ =>
    Keeps.bind (keeps_modify fun _ => rfl) fun _ => keeps_modify fun _ => rfl

theorem spawn_heads (h1 : allocProcess K s = .ok (p, s1)) (h2 : elfLoad p elf s1 = .ok ((), s')) :
    heads p s' = (0, 0) :=
  (keeps_elfLoad s1 _ s' h2).trans (leaves_allocSpace s _ s1 (allocProcess_run h1).2)

theorem exec_heads {para : List UInt8} (h : doExec K p elf para s = .ok ((), s')) : heads p s' = (0, 0) := by
  have hreset : Leaves (heads p) (0, 0) (modProc p resetProc) := leaves_modify fun s => by simp [heads, resetProc]
  have hexec : Leaves (heads p) (0, 0) (doExec K p elf para) :=
    Leaves.last fun s => Leaves.last fun _ => Leaves.last fun page => Leaves.last fun _ =>
      hreset.bind fun _ => keeps_elfLoad.bind fun _ => keeps_writeArgs
  exact hexec s _ s' h

/-! ## Forks -/

theorem copyRegion_heads (h : copyRegion K P C i s = .ok ((), s')) (hne : P ≠ C) : heads P s' = heads P s ∧
      heads C s' = if ((s.proc P).mapped_info i).seg_type = .heap then heads P s else heads C s := by
  unfold copyRegion at h
  split_ifs at h
  · cases h
  rw [run_get_bind] at h
  dsimp only at h
  cases hty : ((s.proc P).mapped_info i).seg_type with
  | context =>
    rw [hty] at h
    cases h
    exact ⟨rfl, rfl⟩
  | system =>
    rw [hty] at h
    cases h
    exact ⟨rfl, rfl⟩
  | stack =>
    rw [hty] at h
    split_ifs at h
    · cases h
    · cases h
      exact ⟨rfl, rfl⟩
  | heap =>
    rw [hty] at h
    obtain ⟨_, s1, h1, h2⟩ := run_bind.1 h
    cases h2
    have hP : heads P s1 = heads P s := keeps_forM (fun _ _ => keeps_shareHeapPage heads_outside) s _ s1 h1
    refine ⟨?_, ?_⟩
    · rw [← hP]
      simp [heads, hne]
    · rw [if_pos rfl]
      simp [heads]
  | code =>
    rw [hty] at h
    have hk : ∀ p, heads p s' = heads p s := fun p =>
      (Keeps.bind (keeps_forM fun _ _ => keeps_shareCodePage heads_outside) fun _ =>
        keeps_appendRegion (.inr fun _ _ _ => rfl)) s _ s' h
    exact ⟨hk P, hk C⟩
  | data =>
    rw [hty] at h
    have hk : ∀ p, heads p s' = heads p s := fun p =>
      (Keeps.bind (keeps_forM fun _ _ => keeps_copyDataPage heads_outside) fun _ =>
        keeps_appendRegion (.inr fun _ _ _ => rfl)) s _ s' h
    exact ⟨hk P, hk C⟩

/-- **A forked child has the lists of its parent.** -/
theorem fork_heads (h : doFork K P s = .ok (C, s')) (hI : Inv K s) (hl : s.life P = .live) :
    heads C s' = heads P s := by
  have hP := hI.live P hl
  obtain ⟨n, hn⟩ := hP.heap
  have hne : P ≠ C := ((hI.forked hl h (forkPages_any _)).ne hl).symm
  refine (doFork_loop h (forkPages_any _) hI.frames hP hl hI.blank
    (fun i s1 => 3 < i → heads C s1 = heads P s) (fun s1 _ h3 => by omega) ?_).2 (by have := hP.regions.total; omega)
  intro i s1 s2 _ hf ih hrun h3
  obtain ⟨lf, d, tb, hrest⟩ := hf.parent.rest
  obtain ⟨-, h2⟩ := copyRegion_heads hrun hne
  have hPs : heads P s1 = heads P s := by
    rw [heads, hrest]
    rfl
  have hinfo : (s1.proc P).mapped_info = (s.proc P).mapped_info := by rw [hrest]
  rw [hinfo, hPs] at h2
  rcases Nat.lt_or_ge 3 i with hi | hi
  · have hty : ((s.proc P).mapped_info i).seg_type ≠ .heap := by
      rcases hP.regions.entry i (by omega) with h | h | ⟨h, -⟩ <;> rw [h] <;> simp
    rw [h2, if_neg hty]
    exact ih hi
  · obtain rfl : i = 3 := by omega
    rw [h2, if_pos (by rw [hn.region])]

end RiscvPke.Memory
