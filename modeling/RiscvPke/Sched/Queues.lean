/-
The queues of the scheduler as lists. `Rep s q`: the chain of `queue_next` from each head is the list that `q` gives for
it. For queues that share no process (`Apart`) the queue functions of kernel/sched.c act on these lists:
-/
import RiscvPke.Sched.Model

namespace RiscvPke.Sched

open Function Chain

/-- the queues as lists of processes -/
abbrev Lists := Queue → List Slot

def push (q : Lists) (k : Queue) (p : Slot) : Lists := update q k (q k ++ [p])

def cut (q : Lists) (k : Queue) (p : Slot) : Lists := update q k ((q k).erase p)

def Rep (next : Slot → Option Slot) (head : Queue → Option Slot) (q : Lists) : Prop := ∀ k, Links next (head k) (q k)

def Apart (q : Lists) : Prop := ∀ k k' p, p ∈ q k → p ∈ q k' → k = k'

theorem mem_push {q : Lists} {k k' : Queue} {p x : Slot} : x ∈ push q k p k' ↔ x ∈ q k' ∨ (k' = k ∧ x = p) := by
  unfold push
  by_cases hk : k' = k
  · subst hk; simp
  · simp [hk]

theorem mem_cut {q : Lists} {k k' : Queue} {p x : Slot} (hn : (q k).Nodup) :
    x ∈ cut q k p k' ↔ x ∈ q k' ∧ ¬ (k' = k ∧ x = p) := by
  unfold cut
  by_cases hk : k' = k
  · subst hk
    rw [update_self, hn.mem_erase_iff]
    simp only [true_and, ne_eq]
    exact and_comm
  · simp [hk]

variable {s : St} {q : Lists} {k : Queue} {p : Slot}

theorem Apart.cut (ha : Apart q) (hn : (q k).Nodup) : Apart (cut q k p) := by
  intro k1 k2 x h1 h2
  exact ha k1 k2 x ((mem_cut hn).1 h1).1 ((mem_cut hn).1 h2).1

theorem Apart.notMem_cut (ha : Apart q) (hn : (q k).Nodup) (hp : p ∈ q k) : ∀ k', p ∉ Sched.cut q k p k' := by
  intro k' hm
  obtain ⟨hm', hne⟩ := (mem_cut hn).1 hm
  exact hne ⟨ha _ _ _ hm' hp, rfl⟩

theorem rep_length {next : Slot → Option Slot} {head : Queue → Option Slot} (hr : Rep next head q) (k : Queue) :
    (q k).length ≤ NPROC := by
  have := (hr k).length_le
  rwa [Fintype.card_fin] at this

/-! ## Insertion -/

/-- **Insertion appends.** A process that is in no queue goes to the end of queue `k`. -/
theorem enqueue_eq (hr : Rep s.queue_next s.head q) (ha : Apart q) (hp : ∀ k, p ∉ q k) (st : Status) :
    ∃ n hd, enqueue s k p st = .ok { s with
        status := update s.status p st
        queue_next := n
        head := hd } ∧ Rep n hd (push q k p) := by
  cases hh : s.head k with
  | none =>
    have hk : q k = [] := (hh ▸ hr k).eq_nil
    refine ⟨_, _, by simp only [enqueue, hh]; rfl, fun k' => ?_⟩
    unfold push
    by_cases hkk : k' = k
    · subst hkk
      rw [update_self, update_self, hk]
      exact links_singleton _ p
    · rw [update_of_ne hkk, update_of_ne hkk]
      exact (hr k').update_of_notMem (hp k')
  | some a =>
    have hk : Links s.queue_next (some a) (q k) := hh ▸ hr k
    have hne : q k ≠ [] := List.ne_nil_of_mem hk.head_mem
    obtain ⟨l, b, hlb⟩ : ∃ l b, q k = l ++ [b] := ⟨_, _, (List.dropLast_append_getLast hne).symm⟩
    rw [hlb] at hk
    have hlen := rep_length hr k
    have hscan : scan s.queue_next p NPROC a = some (.tail b) := by
      apply scan_eq hk (hlb ▸ hp k)
      rw [hlb, List.length_append, List.length_singleton] at hlen
      omega
    refine ⟨_, s.head, by simp only [enqueue, hh, hscan]; rfl, fun k' => ?_⟩
    unfold push
    by_cases hkk : k' = k
    · subst hkk
      rw [update_self, hlb, hh]
      exact hk.snoc (hlb ▸ hp k')
    · rw [update_of_ne hkk]
      have hb : b ∉ q k' := fun hb => hkk (ha k' k b hb (by simp [hlb]))
      exact ((hr k').update_of_notMem hb).update_of_notMem (hp k')

/-! ## Removal -/

theorem erase_split {l l' : List Slot} (hp : p ∉ l) : (l ++ p :: l').erase p = l ++ l' := by
  rw [List.erase_append_right _ hp, List.erase_cons_head]

/-- **Removal deletes.** A process of queue `k` is found and unlinked. -/
theorem takeFrom_mem {hit : Slot → Bool} (hhit : ∀ x, hit x = true ↔ x = p) (hr : Rep s.queue_next s.head q)
    (ha : Apart q) (hp : p ∈ q k) :
    ∃ n hd, takeFrom s k hit = .ok ({ s with queue_next := n, head := hd }, some p) ∧ Rep n hd (cut q k p) := by
  obtain ⟨l, l', hl⟩ := List.append_of_mem hp
  have hk : Links s.queue_next (s.head k) (l ++ p :: l') := hl ▸ hr k
  have hpl : p ∉ l := fun hm => (List.nodup_append.1 hk.nodup).2.2 p hm p List.mem_cons_self rfl
  have hno : ∀ c ∈ l, hit c = false := fun c hc => by
    rw [Bool.eq_false_iff, ne_eq, hhit]
    rintro rfl
    exact hpl hc
  have hlen := rep_length hr k
  rw [hl, List.length_append, List.length_cons] at hlen
  have hfind : find s.queue_next hit NPROC none (s.head k) = some (some (l.getLast?.or none, p)) :=
    find_eq hk hno ((hhit p).2 rfl) (by omega)
  -- the links of the other queues do not pass through nodes of this one
  have hother : ∀ {k' : Queue} {x : Slot}, k' ≠ k → x ∈ q k → x ∉ q k' := fun hkk hx hx' => hkk (ha _ _ _ hx' hx)
  cases hlast : l.getLast? with
  | none =>
    have hnil : l = [] := List.getLast?_eq_none_iff.1 hlast
    subst hnil
    refine ⟨_, _, by simp only [takeFrom, hfind, unlink]; rfl, fun k' => ?_⟩
    unfold cut
    by_cases hkk : k' = k
    · subst hkk
      rw [update_self, update_self, hl, erase_split hpl]
      exact hk.erase_head
    · rw [update_of_ne hkk, update_of_ne hkk]
      exact (hr k').update_of_notMem (hother hkk hp)
  | some b =>
    rw [hlast] at hfind
    obtain ⟨l0, rfl⟩ := List.getLast?_eq_some_iff.1 hlast
    refine ⟨_, s.head, by simp only [takeFrom, hfind, unlink]; rfl, fun k' => ?_⟩
    unfold cut
    by_cases hkk : k' = k
    · subst hkk
      rw [update_self, hl, erase_split hpl]
      rw [List.append_assoc] at hk ⊢
      exact hk.erase_mid
    · rw [update_of_ne hkk]
      exact ((hr k').update_of_notMem (hother hkk (by simp [hl]))).update_of_notMem (hother hkk hp)

section

variable (hr : Rep s.queue_next s.head q)

include hr

theorem takeFrom_notMem {hit : Slot → Bool} (hno : ∀ x ∈ q k, hit x = false) : takeFrom s k hit = .ok (s, none) := by
  simp only [takeFrom, find_none (hr k) hno (rep_length hr k)]

theorem pick_eq {rest : List Slot} (ha : Apart q) (hq : q k = p :: rest) :
    ∃ n hd, pickAndRemoveFromBlockQueue s k = .ok ({ s with queue_next := n, head := hd }, some p) ∧
      Rep n hd (cut q k p) := by
  have hh : s.head k = some p := (hq ▸ hr k : Links _ _ (p :: rest)).1
  unfold pickAndRemoveFromBlockQueue removeFromBlockQueue
  rw [hh]
  exact takeFrom_mem (fun x => by simp) hr ha (by simp [hq])

theorem pick_nil (hq : q k = []) : pickAndRemoveFromBlockQueue s k = .ok (s, none) :=
  takeFrom_notMem hr (by simp [hq])

/-! ## The search of `sys_user_exit` -/

theorem wakeFrom_mem {h : Hart} {c par : Slot} (ha : Apart q) (hpar : s.parent c = some par) (hp : par ∈ q (.block h)) :
    ∃ n hd, wakeFromBlockQueue s h c = .ok ({ s with queue_next := n, head := hd }, some par) ∧
      Rep n hd (cut q (.block h) par) := by
  obtain ⟨a, hh⟩ : ∃ a, s.head (.block h) = some a := by
    cases hh : s.head (.block h) with
    | some a => exact ⟨a, rfl⟩
    | none =>
      have hnil : q (.block h) = [] := Links.eq_nil (hh ▸ hr (.block h))
      simp [hnil] at hp
  simp only [wakeFromBlockQueue, hh, hpar]
  exact takeFrom_mem (fun x => by simp) hr ha hp

theorem wakeFrom_notMem {h : Hart} {c par : Slot} (hpar : s.parent c = some par)
    (hp : par ∉ q (.block h)) : wakeFromBlockQueue s h c = .ok (s, none) := by
  cases hh : s.head (.block h) with
  | none => simp only [wakeFromBlockQueue, hh]
  | some a =>
    simp only [wakeFromBlockQueue, hh, hpar]
    exact takeFrom_notMem hr fun x hx => decide_eq_false (ne_of_mem_of_not_mem hx hp)

theorem wakeParent_mem {h : Hart} {c par : Slot} (ha : Apart q) (hpar : s.parent c = some par)
    (hp : par ∈ q (.block h)) :
    ∀ hs : List Hart, h ∈ hs → ∃ n hd,
      wakeParent s c hs = .ok ({ s with queue_next := n, head := hd }, some (par, h)) ∧
        Rep n hd (cut q (.block h) par) := by
  intro hs
  induction hs with
  | nil => intro hm; simp at hm
  | cons g gs ih =>
    intro hm
    by_cases hg : par ∈ q (.block g)
    · have hgh : g = h := by simpa using ha _ _ _ hg hp
      subst hgh
      obtain ⟨n, hd, he, hrep⟩ := wakeFrom_mem hr ha hpar hp
      exact ⟨n, hd, by simp only [wakeParent, he]; rfl, hrep⟩
    · have hne : h ≠ g := fun e => hg (e ▸ hp)
      obtain ⟨n, hd, he, hrep⟩ := ih ((List.mem_cons.1 hm).resolve_left hne)
      refine ⟨n, hd, ?_, hrep⟩
      simp only [wakeParent, wakeFrom_notMem hr hpar hg]
      exact he

theorem wakeParent_none {c : Slot} (hno : ∀ par, s.parent c = some par → ∀ h, par ∉ q (.block h)) :
    ∀ hs : List Hart, wakeParent s c hs = .ok (s, none) ∨
      (s.parent c = none ∧ wakeParent s c hs = .error .nullPointer) := by
  intro hs
  induction hs with
  | nil => exact Or.inl rfl
  | cons g gs ih =>
    have hcase : wakeFromBlockQueue s g c = .ok (s, none) ∨
        (s.parent c = none ∧ wakeFromBlockQueue s g c = .error .nullPointer) := by
      cases hpar : s.parent c with
      | some par => exact Or.inl (wakeFrom_notMem hr hpar (hno par hpar g))
      | none => cases hh : s.head (.block g) <;> simp [wakeFromBlockQueue, hh, hpar]
    rcases hcase with he | ⟨hpar, he⟩
    · simp only [wakeParent, he]
      exact ih
    · exact Or.inr ⟨hpar, by simp only [wakeParent, he]; rfl⟩

end

end RiscvPke.Sched
