/-
Buffers across a page boundary.
-/
import RiscvPke.Syscall.Access

namespace RiscvPke.Syscall

open Program Memory RiscvPke.System

variable {W : World} {K : Machine} {p : Slot} {s : St} {pr : Proc} {w : Bool} {va pa k : ℕ} {u : Use} {o : Op}

/-! ## The byte at a virtual address -/

/-- an access goes to the byte at the user address that it stands for -/
def Exact (pr : Proc) : Op → Prop
  | .load va pa => lookupPa pr va ≠ 0 ∧ pa = userVaToPa pr va
  | .store va pa _ => lookupPa pr va ≠ 0 ∧ pa = userVaToPa pr va
  | .reload _ _ _ _ => True

def mappedRule : Rule where
  may _ e := (e.r || e.w) = true
  may_load _ h := h
  given _ _ := True

theorem lookupPa_ne_zero : lookupPa pr va ≠ 0 ↔
    va < MAXVA ∧ ∃ e, pr.leaf (va / PGSIZE) = some e ∧ e.ppn ≠ 0 ∧ (e.r || e.w) = true ∧ lookupPa pr va = e.ppn := by
  unfold lookupPa
  by_cases hva : MAXVA ≤ va
  · rw [if_pos hva]
    exact iff_of_false (fun h => h rfl) fun h => absurd h.1 (Nat.not_lt.2 hva)
  · rw [if_neg hva]
    cases pr.leaf (va / PGSIZE) with
    | none =>
      refine iff_of_false (fun h => h rfl) fun h => ?_
      obtain ⟨-, e, he, -⟩ := h
      cases he
    | some e =>
      dsimp only
      split_ifs with hrw
      · exact ⟨fun h => ⟨Nat.lt_of_not_le hva, e, rfl, h, hrw, rfl⟩, fun h => by
          obtain ⟨-, e', he, h0, -⟩ := h
          cases he
          exact h0⟩
      · refine iff_of_false (fun h => h rfl) fun h => ?_
        obtain ⟨-, e', he, -, h', -⟩ := h
        cases he
        exact hrw h'

theorem through_mapped : Through mappedRule pr w va pa ↔ lookupPa pr va ≠ 0 ∧ pa = userVaToPa pr va := by
  constructor
  · intro ⟨hva, e, he, h0, hm, hpa⟩
    have hl : lookupPa pr va = e.ppn := by
      unfold lookupPa
      rw [if_neg (Nat.not_le.2 hva), he]
      exact if_pos hm
    have hne : lookupPa pr va ≠ 0 := by rwa [hl]
    refine ⟨hne, ?_⟩
    rw [base_userVaToPa.mapped hne, hl]
    exact hpa
  · intro ⟨hne, hpa⟩
    obtain ⟨hva, e, he, h0, hm, hl⟩ := lookupPa_ne_zero.1 hne
    rw [base_userVaToPa.mapped hne, hl] at hpa
    exact ⟨hva, e, he, h0, hm, hpa⟩

theorem exact_iff_allowed : Exact pr o ↔ Allowed mappedRule pr o := by
  cases o with
  | load va pa => exact through_mapped.symm
  | store va pa b => exact through_mapped.symm
  | reload => exact iff_of_true trivial ⟨trivial, trivial⟩

/-! ## Mapped buffers -/

def Use.pointer : Use → ℕ
  | .bytes va _ => va
  | .str va => va
  | .given va => va

def Use.Touches (s : St) (p : Slot) : Use → ℕ → Prop
  | .bytes _ parts, k => ∃ x ∈ parts, x.lo ≤ k ∧ k < x.hi
  | .str va, k => k < (userString s p va).length + 1
  | .given _, _ => False

/-- every page of the buffer is mapped; a string ends in a zero -/
def Use.Mapped (s : St) (p : Slot) (u : Use) : Prop :=
  (∀ k, u.Touches s p k → lookupPa (s.proc p) u.pointer ≠ 0 ∧ lookupPa (s.proc p) (u.pointer + k) ≠ 0) ∧
    ∀ va, u = .str va → userByte s p (va + (userString s p va).length) = 0

/-- the frame of each page of the buffer is as far behind the first frame as the page is behind the first page -/
def Use.Consecutive (s : St) (p : Slot) (u : Use) : Prop :=
  ∀ k, u.Touches s p k →
    lookupPa (s.proc p) (u.pointer + k) = lookupPa (s.proc p) u.pointer +
      ((u.pointer + k) / PGSIZE - u.pointer / PGSIZE)

theorem held_mapped (h0 : lookupPa pr va ≠ 0) (hk : lookupPa pr (va + k) ≠ 0) :
    Held mappedRule pr w va k ↔ lookupPa pr (va + k) = lookupPa pr va + ((va + k) / PGSIZE - va / PGSIZE) := by
  obtain ⟨hva, e, he, -, hm, hl⟩ := lookupPa_ne_zero.1 hk
  rw [hl]
  constructor
  · intro ⟨_, _, e', he', _, hp⟩
    cases he.symm.trans he'
    exact hp
  · intro hp
    exact ⟨h0, hva, e, he, hm, hp⟩

theorem ok_iff_consecutive (hm : u.Mapped s p) : u.Ok mappedRule s p ↔ u.Consecutive s p := by
  cases u with
  | bytes va parts =>
    constructor
    · intro h k hk
      obtain ⟨h0, h1⟩ := hm.1 k hk
      obtain ⟨x, hx, hlo, hhi⟩ := hk
      exact (held_mapped h0 h1).1 (h x hx k hlo hhi)
    · intro h x hx k hlo hhi
      have hk : (Use.bytes va parts).Touches s p k := ⟨x, hx, hlo, hhi⟩
      obtain ⟨h0, h1⟩ := hm.1 k hk
      exact (held_mapped h0 h1).2 (h k hk)
  | str va =>
    constructor
    · intro h k hk
      obtain ⟨h0, h1⟩ := hm.1 k hk
      exact (held_mapped h0 h1).1 (h.2 k hk)
    · intro h
      refine ⟨hm.2 va rfl, fun k hk => ?_⟩
      obtain ⟨h0, h1⟩ := hm.1 k hk
      exact (held_mapped h0 h1).2 (h k hk)
  | given va => exact iff_of_true trivial fun k hk => hk.elim

theorem stat_mapped (h : ∀ k < 20, lookupPa (s.proc p) (va + k) ≠ 0) :
    ∀ u ∈ uses quiet s p (.stat 0 va), u.Mapped s p := by
  intro u hu
  obtain rfl : u = .whole true va 20 := List.mem_singleton.1 hu
  refine ⟨fun k hk => ?_, fun v hv => by cases hv⟩
  obtain ⟨x, hx, -, hhi⟩ := hk
  obtain rfl := List.mem_singleton.1 hx
  exact ⟨h 0 (by decide), h k hhi⟩

def secondHeap : St :=
  exec (step board) bootState [.spawn [], .grow 0, .grow 0, .grow 0, .grow 0, .exec 0 [] [], .grow 0, .grow 0]

def twoHeapPages : St := exec (step board) bootState [.spawn [], .grow 0, .grow 0]

end RiscvPke.Syscall
