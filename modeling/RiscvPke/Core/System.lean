/-
Labelled transition systems whose step function may stop (`Except ε`): reachability, invariants and runs.
-/
import Mathlib.Tactic

namespace RiscvPke.System

variable {σ ι ε α β : Type} {x : Except ε α} {f : α → Except ε β}

theorem bind_ok {b : β} : (x >>= f) = .ok b ↔ ∃ a, x = .ok a ∧ f a = .ok b := by
  cases x <;> simp [bind, Except.bind]

/-- `x` ends in a result that satisfies `Q`, or stops for a reason that satisfies `E` -/
def Ends {α : Type} (E : ε → Prop) (x : Except ε α) (Q : α → Prop) : Prop :=
  match x with
  | .ok a => Q a
  | .error e => E e

variable {E : ε → Prop} {Q : α → Prop}

theorem Ends.mono {Q' : α → Prop} (h : Ends E x Q) (hQ : ∀ a, Q a → Q' a) : Ends E x Q' := by
  cases x with
  | ok a => exact hQ a h
  | error e => exact h

theorem Ends.bind {R : β → Prop} (h : Ends E x Q) (hf : ∀ a, Q a → Ends E (f a) R) : Ends E (x >>= f) R := by
  cases x with
  | ok a => exact hf a h
  | error e => exact h

theorem Ends.bind_eq {a : α} {R : β → Prop} (hx : x = .ok a) (hf : Ends E (f a) R) : Ends E (x >>= f) R := by
  subst hx
  exact hf

theorem Ends.of_ok {a : α} (h : Ends E x Q) (hx : x = .ok a) : Q a := by
  subst hx
  exact h

/-! ## Reachability under a side condition -/

inductive Reach (step : σ → ι → Except ε σ) (C : σ → ι → Prop) (I : σ → Prop) : σ → Prop
  | init {s : σ} (h : I s) : Reach step C I s
  | step {s s' : σ} (l : ι) (h : Reach step C I s) (hc : C s l) (hs : step s l = .ok s') : Reach step C I s'

variable {step : σ → ι → Except ε σ} {C D : σ → ι → Prop} {I P : σ → Prop} {s : σ}

theorem Reach.inv (h0 : ∀ s, I s → P s) (hs : ∀ s l s', P s → C s l → step s l = .ok s' → P s') {s : σ}
    (h : Reach step C I s) : P s := by
  induction h with
  | init h => exact h0 _ h
  | step l _ hc hst ih => exact hs _ l _ ih hc hst

theorem Reach.mono (hCD : ∀ s l, C s l → D s l) (h : Reach step C I s) : Reach step D I s := by
  induction h with
  | init h => exact .init h
  | step l _ hc hst ih => exact .step l ih (hCD _ _ hc) hst

theorem Reach.trans {s' : σ} (h' : Reach step C (· = s) s') (h : Reach step C I s) : Reach step C I s' := by
  induction h' with
  | init he => exact he ▸ h
  | step l _ hc hst ih => exact .step l ih hc hst

/-! ## Runs on a list of labels -/

def exec (step : σ → ι → Except ε σ) : σ → List ι → σ
  | s, [] => s
  | s, l :: ls =>
    match step s l with
    | .ok s' => exec step s' ls
    | .error _ => s

def meets (step : σ → ι → Except ε σ) (C : σ → ι → Bool) : σ → List ι → Bool
  | _, [] => true
  | s, l :: ls =>
    C s l && match step s l with
      | .ok s' => meets step C s' ls
      | .error _ => false

variable {c : σ → ι → Bool}

/-- the first step of a list that meets its test -/
theorem meets_cons {s : σ} {l : ι} {ls : List ι} (hm : meets step c s (l :: ls) = true) :
    ∃ s', step s l = .ok s' ∧ c s l = true ∧ meets step c s' ls = true := by
  simp only [meets, Bool.and_eq_true] at hm
  cases hst : step s l with
  | error e => rw [hst] at hm; simp at hm
  | ok s' =>
    rw [hst] at hm
    exact ⟨s', rfl, hm⟩

theorem reach_exec (hc : ∀ s l, c s l = true → C s l) (ls : List ι) (s : σ)
    (h : Reach step C I s) (hm : meets step c s ls = true) : Reach step C I (exec step s ls) := by
  induction ls generalizing s with
  | nil => exact h
  | cons l ls ih =>
    obtain ⟨s', hst, hl, hrest⟩ := meets_cons hm
    simp only [exec, hst]
    exact ih s' (.step l h (hc _ _ hl) hst) hrest

theorem reach_decide [∀ s l, Decidable (C s l)] (ls : List ι) (s : σ) (h : Reach step C I s)
    (hm : meets step (fun s l => decide (C s l)) s ls = true) : Reach step C I (exec step s ls) :=
  reach_exec (fun _ _ => of_decide_eq_true) ls s h hm

theorem Reach.exec_step {l : ι} (h : Reach step C I s) (hc : C s l) (hok : (step s l).isOk = true) :
    Reach step C I (exec step s [l]) := by
  cases hst : step s l with
  | error e => rw [hst] at hok; cases hok
  | ok s' =>
    have he : exec step s [l] = s' := by simp only [exec, hst]
    rw [he]
    exact .step l h hc hst

theorem exec_keeps {f : σ → α} {P : ι → Prop} (hstep : ∀ s l s', P l → step s l = .ok s' → f s' = f s)
    {ls : List ι} (hls : ∀ l ∈ ls, P l) (s : σ) : f (exec step s ls) = f s := by
  induction ls generalizing s with
  | nil => rfl
  | cons l ls ih =>
    rw [exec]
    cases hst : step s l with
    | error e => rfl
    | ok s' =>
      exact (ih (fun l hl => hls l (List.mem_cons_of_mem _ hl)) s').trans (hstep s l s' (hls l List.mem_cons_self) hst)

theorem map_ok {f : α → β} {b : β} (h : x.map f = .ok b) : ∃ a, x = .ok a ∧ f a = b := by
  cases x with
  | error e => cases h
  | ok a => exact ⟨a, rfl, Except.ok.inj h⟩

theorem of_find? {P : α → Prop} [DecidablePred P] {l : List α} {a : α} (h : l.find? (fun x => P x) = some a) : P a := by
  simpa using List.find?_some h

theorem ne_of_none {κ : Type} {f : κ → Option β} {k x : κ} {b : β} (hk : f k = some b) (hx : f x = none) : x ≠ k := by
  rintro rfl
  cases hk.symm.trans hx

/-! ## Runs with a log -/

section Logged

variable {η : Type} {record : σ → ι → σ → η → η} {t t' : σ × η} {l : ι}

def logged (step : σ → ι → Except ε σ) (record : σ → ι → σ → η → η) (t : σ × η) (l : ι) : Except ε (σ × η) :=
  (step t.1 l).map fun s' => (s', record t.1 l s' t.2)

theorem logged_ok : logged step record t l = .ok t' ↔ step t.1 l = .ok t'.1 ∧ t'.2 = record t.1 l t'.1 t.2 := by
  unfold logged
  cases hst : step t.1 l with
  | error e => simp [Except.map]
  | ok s' =>
    simp only [Except.map, Except.ok.injEq]
    constructor
    · intro h
      subst h
      exact ⟨rfl, rfl⟩
    · intro h
      obtain ⟨rfl, h2⟩ := h
      exact Prod.ext rfl h2.symm

end Logged

/-! ## Runs beside a reference machine -/

section Paired

variable {τ κ : Type} {ref : τ → κ → τ} {label : σ → ι → κ} {t₀ : τ}

/-- the states of both machines after the same run: `label s l` is the step of the reference machine that goes with the
step `l` in the state `s` -/
inductive Paired (step : σ → ι → Except ε σ) (C : σ → ι → Prop) (I : σ → Prop) (ref : τ → κ → τ) (label : σ → ι → κ)
    (t₀ : τ) : σ → τ → Prop
  | init {s : σ} (h : I s) : Paired step C I ref label t₀ s t₀
  | step {s s' : σ} {t : τ} (l : ι) (h : Paired step C I ref label t₀ s t) (hc : C s l) (hs : step s l = .ok s') :
      Paired step C I ref label t₀ s' (ref t (label s l))

theorem Paired.sim {R : σ → τ → Prop} (h0 : ∀ s, I s → R s t₀)
    (hs : ∀ s l s' t, R s t → C s l → step s l = .ok s' → R s' (ref t (label s l))) {t : τ}
    (h : Paired step C I ref label t₀ s t) : R s t := by
  induction h with
  | init h => exact h0 _ h
  | step l _ hc hst ih => exact hs _ l _ _ ih hc hst

def execRef (step : σ → ι → Except ε σ) (ref : τ → κ → τ) (label : σ → ι → κ) : σ → τ → List ι → τ
  | _, t, [] => t
  | s, t, l :: ls =>
    match step s l with
    | .ok s' => execRef step ref label s' (ref t (label s l)) ls
    | .error _ => t

theorem exec_paired (hc : ∀ s l, c s l = true → C s l) (ls : List ι) (s : σ) (t : τ)
    (h : Paired step C I ref label t₀ s t) (hm : meets step c s ls = true) :
    Paired step C I ref label t₀ (exec step s ls) (execRef step ref label s t ls) := by
  induction ls generalizing s t with
  | nil => exact h
  | cons l ls ih =>
    obtain ⟨s', hst, hl, hrest⟩ := meets_cons hm
    simp only [exec, execRef, hst]
    exact ih s' _ (.step l h (hc _ _ hl) hst) hrest

end Paired

/-! ## Runs of relations -/

section Steps

variable {τ ρ κ : Type}

inductive Steps (R : σ → κ → σ → Prop) : σ → List κ → σ → Prop
  | nil {s : σ} : Steps R s [] s
  | cons {s s1 s' : σ} {l : κ} {ls : List κ} (h1 : R s l s1) (h2 : Steps R s1 ls s') : Steps R s (l :: ls) s'

theorem Steps.refine {R : σ → κ → σ → Prop} {R' : τ → κ → τ → Prop} {f : σ → τ} {P : σ → Prop}
    (hR : ∀ s l s', P s → R s l s' → P s' ∧ R' (f s) l (f s')) {s' : σ} {ls : List κ} (h : Steps R s ls s') (hP : P s) :
    Steps R' (f s) ls (f s') := by
  induction h with
  | nil => exact .nil
  | cons h1 _ ih =>
    obtain ⟨hP1, h1'⟩ := hR _ _ _ hP h1
    exact .cons h1' (ih hP1)

def trail (act : ι → σ → Except ε (ρ × σ)) (c : σ → ι → Bool) : σ → List ι → List (ι × ρ) × σ
  | s, [] => ([], s)
  | s, i :: is =>
    if c s i then
      match act i s with
      | .ok (r, s') => ((i, r) :: (trail act c s' is).1, (trail act c s' is).2)
      | .error _ => ([], s)
    else ([], s)

theorem trail_steps {act : ι → σ → Except ε (ρ × σ)} (hc : ∀ s i, c s i = true → C s i) (is : List ι) (s : σ) :
    Steps (fun s l s' => C s l.1 ∧ act l.1 s = .ok (l.2, s')) s (trail act c s is).1 (trail act c s is).2 := by
  induction is generalizing s with
  | nil => exact .nil
  | cons i is ih =>
    rw [trail]
    by_cases hi : c s i = true
    · rw [if_pos hi]
      cases ha : act i s with
      | error e => exact .nil
      | ok rs => exact .cons ⟨hc s i hi, ha⟩ (ih rs.2)
    · rw [if_neg hi]
      exact .nil

end Steps

end RiscvPke.System
