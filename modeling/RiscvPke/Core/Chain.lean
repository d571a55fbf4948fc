/-
Singly linked chains threaded through a `next` field, over an arbitrary type of nodes.
-/
import Mathlib.Tactic

namespace RiscvPke.Chain

open Function

variable {α : Type}

/-- following `next` from `h` meets exactly the nodes of `l`, in order, and ends in null -/
def Links (next : α → Option α) : Option α → List α → Prop
  | h, [] => h = none
  | h, a :: l => h = some a ∧ Links next (next a) l

variable {next next' : α → Option α} {h : Option α} {l l' : List α} {a b x : α}

@[simp] theorem links_nil : Links next h [] ↔ h = none := Iff.rfl

@[simp] theorem links_cons : Links next h (a :: l) ↔ h = some a ∧ Links next (next a) l := Iff.rfl

theorem Links.unique (h1 : Links next h l) (h2 : Links next h l') : l = l' := by
  induction l generalizing h l' with
  | nil =>
    cases l' with
    | nil => rfl
    | cons b l' => rw [h1] at h2; simp at h2
  | cons a l ih =>
    cases l' with
    | nil => rw [h2] at h1; simp at h1
    | cons b l' =>
      obtain ⟨rfl, h1⟩ := h1
      obtain ⟨hb, h2⟩ := h2
      cases hb
      rw [ih h1 h2]

theorem Links.suffix (hl : Links next h (l ++ a :: l')) : Links next (next a) l' := by
  induction l generalizing h with
  | nil => exact hl.2
  | cons b l ih => exact ih hl.2

theorem Links.nodup (hl : Links next h l) : l.Nodup := by
  induction l generalizing h with
  | nil => exact List.nodup_nil
  | cons a l ih =>
    refine List.nodup_cons.2 ⟨fun ha => ?_, ih hl.2⟩
    -- from a second occurrence of `a` the same nodes would follow, in a strictly shorter list
    obtain ⟨l1, l2, rfl⟩ := List.append_of_mem ha
    have hshort := hl.2.suffix.unique hl.2
    have := congrArg List.length hshort
    simp only [List.length_append, List.length_cons] at this
    omega

theorem Links.head_mem (hl : Links next (some a) l) : a ∈ l := by
  cases l with
  | nil => exact absurd hl (by simp)
  | cons b l => cases hl.1; exact List.mem_cons_self

theorem Links.eq_nil (hl : Links next none l) : l = [] := by
  cases l with
  | nil => rfl
  | cons b l => exact absurd hl.1 (by simp)

/-! ## Frame -/

theorem Links.congr (hn : ∀ a ∈ l, next' a = next a) (hl : Links next h l) : Links next' h l := by
  induction l generalizing h with
  | nil => exact hl
  | cons a l ih =>
    refine ⟨hl.1, ?_⟩
    rw [hn a List.mem_cons_self]
    exact ih (fun b hb => hn b (List.mem_cons_of_mem a hb)) hl.2

theorem Links.length_le [Fintype α] (hl : Links next h l) : l.length ≤ Fintype.card α :=
  hl.nodup.length_le_card

section Update

variable [DecidableEq α]

theorem Links.update_of_notMem {v : Option α} (hx : x ∉ l) (hl : Links next h l) : Links (update next x v) h l :=
  hl.congr fun _ ha => update_of_ne (ne_of_mem_of_not_mem ha hx) v next

/-! ## Adding and removing nodes -/

theorem Links.snoc (hl : Links next h (l ++ [b])) (hx : x ∉ l ++ [b]) :
    Links (update (update next b (some x)) x none) h (l ++ [b] ++ [x]) := by
  induction l generalizing h with
  | nil =>
    have hxb : b ≠ x := fun e => hx (by simp [e])
    refine ⟨hl.1, ?_⟩
    rw [update_of_ne hxb, update_self]
    exact ⟨rfl, by simp⟩
  | cons a l ih =>
    have hnd := hl.nodup
    simp only [List.cons_append, List.nodup_cons, List.mem_append, List.mem_singleton, not_or] at hnd
    have hax : a ≠ x := fun e => hx (by simp [e])
    refine ⟨hl.1, ?_⟩
    rw [update_of_ne hax, update_of_ne hnd.1.2]
    exact ih hl.2 fun hm => hx (List.mem_cons_of_mem a hm)

theorem links_singleton (next : α → Option α) (x : α) : Links (update next x none) (some x) [x] :=
  ⟨rfl, by simp⟩

theorem Links.erase_head {v : Option α} (hl : Links next h (a :: l)) : Links (update next a v) (next a) l :=
  hl.2.update_of_notMem (List.nodup_cons.1 hl.nodup).1

theorem Links.erase_mid {v : Option α} (hl : Links next h (l ++ b :: a :: l')) :
    Links (update (update next b (next a)) a v) h (l ++ b :: l') := by
  induction l generalizing h with
  | nil =>
    have hnd := hl.nodup
    simp only [List.nil_append, List.nodup_cons, List.mem_cons, not_or] at hnd
    refine ⟨hl.1, ?_⟩
    rw [update_of_ne hnd.1.1, update_self]
    exact (hl.2.2.update_of_notMem hnd.1.2).update_of_notMem hnd.2.1
  | cons c l ih =>
    have hnd := hl.nodup
    simp only [List.cons_append, List.nodup_cons, List.mem_append, List.mem_cons, not_or] at hnd
    refine ⟨hl.1, ?_⟩
    rw [update_of_ne hnd.1.2.2.1, update_of_ne hnd.1.2.1]
    exact ih hl.2

end Update

/-! ## Loops over a chain -/

/-- how a walk to the tail that looks for a node ends -/
inductive Scan (α : Type) where
  | found
  | tail (last : α)
deriving DecidableEq, Repr

def scan [DecidableEq α] (next : α → Option α) (x : α) : ℕ → α → Option (Scan α)
  | 0, _ => none
  | n + 1, p =>
    if p = x then some .found
    else match next p with
      | none => some (.tail p)
      | some q => scan next x n q

/-- `prev = NULL; p = head; while (p != NULL) { if (hit(p)) return; prev = p; p = p->next; }`: the node found and the
one before it; the outer `none` when the fuel does not reach the end -/
def find (next : α → Option α) (hit : α → Bool) : ℕ → Option α → Option α → Option (Option (Option α × α))
  | _, _, none => some none
  | 0, _, some _ => none
  | n + 1, prev, some p => if hit p then some (some (prev, p)) else find next hit n (some p) (next p)

variable {n : ℕ}

theorem scan_mem [DecidableEq α] (hl : Links next (some a) l) (hx : x ∈ l) (hn : l.length ≤ n) :
    scan next x n a = some .found := by
  induction l generalizing a n with
  | nil => cases hx
  | cons b l ih =>
    obtain ⟨m, rfl⟩ := Nat.exists_eq_add_of_lt hn
    obtain ⟨hab, hnext⟩ := hl
    cases hab
    by_cases hbx : b = x
    · simp [scan, hbx]
    · have hx' : x ∈ l := (List.mem_cons.1 hx).resolve_left (Ne.symm hbx)
      cases hq : next b with
      | none =>
        rw [hq] at hnext
        rw [hnext.eq_nil] at hx'
        cases hx'
      | some q =>
        rw [hq] at hnext
        simp only [scan, hbx, if_false, hq]
        exact ih hnext hx' (Nat.le_of_succ_le_succ hn)

theorem scan_eq [DecidableEq α] (hl : Links next (some a) (l ++ [b])) (hx : x ∉ l ++ [b]) (hn : l.length < n) :
    scan next x n a = some (.tail b) := by
  induction l generalizing a n with
  | nil =>
    obtain ⟨m, rfl⟩ := Nat.exists_eq_add_of_lt hn
    obtain ⟨hab, hnext⟩ := hl
    cases hab
    have hbx : b ≠ x := fun e => hx (by simp [e])
    simp only [links_nil] at hnext
    simp [scan, hbx, hnext]
  | cons c l ih =>
    obtain ⟨m, rfl⟩ := Nat.exists_eq_add_of_lt hn
    obtain ⟨hac, hnext⟩ := hl
    cases hac
    have hcx : c ≠ x := fun e => hx (by simp [e])
    obtain ⟨q, hq⟩ : ∃ q, next c = some q := by
      cases hq : next c with
      | some q => exact ⟨q, rfl⟩
      | none => rw [hq] at hnext; simpa using hnext.eq_nil
    simp only [scan, hcx, if_false, hq]
    rw [hq] at hnext
    exact ih hnext (fun hm => hx (List.mem_cons_of_mem c hm)) (Nat.le_of_succ_le_succ hn)

theorem find_eq {hit : α → Bool} {prev : Option α} (hl : Links next h (l ++ a :: l')) (hno : ∀ c ∈ l, hit c = false)
    (ha : hit a = true) (hn : l.length < n) :
    find next hit n prev h = some (some ((l.getLast?.or prev), a)) := by
  induction l generalizing h n prev with
  | nil =>
    obtain ⟨m, rfl⟩ := Nat.exists_eq_add_of_lt hn
    obtain ⟨rfl, _⟩ := hl
    simp [find, ha]
  | cons c l ih =>
    obtain ⟨m, rfl⟩ := Nat.exists_eq_add_of_lt hn
    obtain ⟨rfl, hnext⟩ := hl
    simp only [find, hno c List.mem_cons_self, Bool.false_eq_true, if_false]
    rw [ih hnext (fun d hd => hno d (List.mem_cons_of_mem c hd)) (Nat.le_of_succ_le_succ hn)]
    cases hlast : l.getLast? with
    | none => rw [List.getLast?_eq_none_iff.1 hlast]; simp
    | some d => simp [List.getLast?_cons, hlast]

def nodes (next : α → Option α) : ℕ → Option α → List α
  | 0, _ => []
  | _ + 1, none => []
  | n + 1, some p => p :: nodes next n (next p)

theorem nodes_eq (hl : Links next h l) (hn : l.length ≤ n) : nodes next n h = l := by
  induction l generalizing h n with
  | nil =>
    cases hl
    cases n <;> rfl
  | cons a l ih =>
    obtain ⟨m, rfl⟩ := Nat.exists_eq_add_of_lt hn
    obtain ⟨rfl, hnext⟩ := hl
    rw [nodes, ih hnext (Nat.le_of_succ_le_succ hn)]

theorem find_none {hit : α → Bool} {prev : Option α} (hl : Links next h l) (hno : ∀ c ∈ l, hit c = false)
    (hn : l.length ≤ n) : find next hit n prev h = some none := by
  induction l generalizing h n prev with
  | nil => cases hl; cases n <;> rfl
  | cons c l ih =>
    obtain ⟨m, rfl⟩ := Nat.exists_eq_add_of_lt hn
    obtain ⟨rfl, hnext⟩ := hl
    simp only [find, hno c List.mem_cons_self, Bool.false_eq_true, if_false]
    exact ih hnext (fun d hd => hno d (List.mem_cons_of_mem c hd)) (Nat.le_of_succ_le_succ hn)

end RiscvPke.Chain
