/-
Programs over an interface. `Prog Op Ans ε α` is a program that makes the calls `o : Op`, gets an answer of type `Ans o`
for each, and returns an `α` or stops with an `ε`. It says nothing of the state that the calls work on, so that one
program can be run on several machines.
-/
import RiscvPke.Core.Run

namespace RiscvPke.Program

open Run

inductive Prog (Op : Type) (Ans : Op → Type) (ε α : Type) : Type
  | ret (a : α)
  | stop (e : ε)
  | call (o : Op) (k : Ans o → Prog Op Ans ε α)

variable {Op : Type} {Ans : Op → Type} {ε α β σ τ : Type}

def Prog.bind (x : Prog Op Ans ε α) (f : α → Prog Op Ans ε β) : Prog Op Ans ε β :=
  match x with
  | .ret a => f a
  | .stop e => .stop e
  | .call o k => .call o fun r => (k r).bind f

instance : Monad (Prog Op Ans ε) where
  pure := .ret
  bind := .bind

variable {f : α → Prog Op Ans ε β} {x : Prog Op Ans ε α}

theorem prog_bind_assoc {γ : Type} {g : β → Prog Op Ans ε γ} : (x >>= f) >>= g = x >>= fun a => f a >>= g := by
  induction x with
  | ret a => rfl
  | stop e => rfl
  | call o k ih => exact congrArg (Prog.call o) (funext ih)

variable {a : α}

theorem prog_pure_bind : (pure a : Prog Op Ans ε α) >>= f = f a := rfl

theorem prog_map {f : α → β} : f <$> x = x >>= fun a => pure (f a) := rfl

def perform (o : Op) : Prog Op Ans ε (Ans o) := .call o .ret

/-! ## State machines -/

def Prog.run (handle : (o : Op) → StateT σ (Except ε) (Ans o)) : Prog Op Ans ε α → StateT σ (Except ε) α
  | .ret a => pure a
  | .stop e => throw e
  | .call o k => do
    let r ← handle o
    (k r).run handle

variable {handle : (o : Op) → StateT σ (Except ε) (Ans o)}

theorem run_seq {s : σ} {r : β × σ} :
    (x >>= f).run handle s = .ok r ↔ ∃ a s1, x.run handle s = .ok (a, s1) ∧ (f a).run handle s1 = .ok r := by
  induction x generalizing s with
  | ret a =>
    constructor
    · intro h
      exact ⟨a, s, rfl, h⟩
    · intro ⟨b, s1, h1, h2⟩
      obtain ⟨rfl, rfl⟩ := run_pure.1 h1
      exact h2
  | stop e =>
    constructor
    · intro h
      cases h
    · intro ⟨b, s1, h1, _⟩
      cases h1
  | call o k ih =>
    constructor
    · intro h
      obtain ⟨b, s1, h1, h2⟩ := run_bind.1 h
      obtain ⟨a, s2, h3, h4⟩ := (ih b).1 h2
      exact ⟨a, s2, run_bind.2 ⟨b, s1, h1, h3⟩, h4⟩
    · intro ⟨a, s2, h1, h2⟩
      obtain ⟨b, s1, h3, h4⟩ := run_bind.1 h1
      exact run_bind.2 ⟨b, s1, h3, (ih b).2 ⟨a, s2, h4, h2⟩⟩

def Prog.trace (handle : (o : Op) → StateT σ (Except ε) (Ans o)) : Prog Op Ans ε α → σ → List Op
  | .ret _, _ => []
  | .stop _, _ => []
  | .call o k, s =>
    o :: match handle o s with
      | .ok (r, s') => (k r).trace handle s'
      | .error _ => []

section Respects

variable {handle : (o : Op) → StateT σ (Except ε) (Ans o)} {P : Op → Prop} {s : σ}

def Prog.Respects (handle : (o : Op) → StateT σ (Except ε) (Ans o)) (P : Op → Prop) (x : Prog Op Ans ε α)
    (s : σ) : Prop :=
  ∀ o ∈ x.trace handle s, P o

@[simp] theorem respects_pure : (pure a : Prog Op Ans ε α).Respects handle P s := fun _ ho => absurd ho List.not_mem_nil

@[simp] theorem respects_ret : (Prog.ret a : Prog Op Ans ε α).Respects handle P s :=
  fun _ ho => absurd ho List.not_mem_nil

@[simp] theorem respects_stop {e : ε} : (Prog.stop e : Prog Op Ans ε α).Respects handle P s :=
  fun _ ho => absurd ho List.not_mem_nil

theorem respects_call {o : Op} {k : Ans o → Prog Op Ans ε α} :
    (Prog.call o k).Respects handle P s ↔ P o ∧ ∀ r s', handle o s = .ok (r, s') → (k r).Respects handle P s' := by
  unfold Prog.Respects
  rw [Prog.trace, List.forall_mem_cons]
  refine and_congr_right fun _ => ?_
  cases handle o s with
  | error e => simp
  | ok rs =>
    constructor
    · intro h r s' he
      cases he
      exact h
    · intro h
      exact h rs.1 rs.2 rfl

theorem respects_bind : (x >>= f).Respects handle P s ↔
      x.Respects handle P s ∧ ∀ a s', x.run handle s = .ok (a, s') → (f a).Respects handle P s' := by
  induction x generalizing s with
  | ret a =>
    constructor
    · intro h
      refine ⟨respects_ret, fun b s' hr => ?_⟩
      obtain ⟨rfl, rfl⟩ := run_pure.1 hr
      exact h
    · intro h
      exact h.2 a s rfl
  | stop e =>
    constructor
    · intro _
      exact ⟨respects_stop, fun b s' hr => (run_throw.1 hr).elim⟩
    · intro _
      exact respects_stop
  | call o k ih =>
    show (Prog.call o fun r => k r >>= f).Respects handle P s ↔ _
    rw [respects_call, respects_call, and_assoc]
    refine and_congr_right fun _ => ?_
    constructor
    · intro h
      refine ⟨fun r s' hr => ((ih r).1 (h r s' hr)).1, fun a s' hrun => ?_⟩
      obtain ⟨r, s1, h1, h2⟩ := run_bind.1 hrun
      exact ((ih r).1 (h r s1 h1)).2 a s' h2
    · intro h r s' hr
      exact (ih r).2 ⟨h.1 r s' hr, fun a s2 h2 => h.2 a s2 (run_bind.2 ⟨r, s', hr, h2⟩)⟩

theorem respects_perform_bind {o : Op} {f : Ans o → Prog Op Ans ε β} {r : Ans o} {s' : σ}
    (h : P o → handle o s = .ok (r, s')) :
    (perform o >>= f).Respects handle P s ↔ P o ∧ (f r).Respects handle P s' := by
  show (Prog.call o f).Respects handle P s ↔ _
  rw [respects_call]
  refine and_congr_right fun hP => ?_
  constructor
  · intro hf
    exact hf r s' (h hP)
  · intro hf r' s2 h2
    rw [h hP] at h2
    cases h2
    exact hf

end Respects

/-! ## Calls of a program -/

def Prog.Calls (P : Op → Prop) : Prog Op Ans ε α → Prop
  | .ret _ => True
  | .stop _ => True
  | .call o k => P o ∧ ∀ r, (k r).Calls P

theorem calls_bind {P : Op → Prop} (hx : x.Calls P) (hf : ∀ a, (f a).Calls P) : (x >>= f).Calls P := by
  induction x with
  | ret a => exact hf a
  | stop e => trivial
  | call o k ih => exact ⟨hx.1, fun r => ih r (hx.2 r)⟩

theorem calls_perform {P : Op → Prop} {o : Op} (ho : P o) : (perform o : Prog Op Ans ε (Ans o)).Calls P :=
  ⟨ho, fun _ => trivial⟩

/-! ## Devices -/

/-- the calls of a device: what a call asks for, and how it may be answered -/
structure Device (Op : Type) (Ans : Op → Type) (τ : Type) where
  ok : Op → τ → Prop
  answer : (o : Op) → τ → Ans o → τ → Prop

variable {D : Device Op Ans τ}

inductive Prog.Exec (D : Device Op Ans τ) : Prog Op Ans ε α → τ → α → τ → Prop
  | ret {a : α} {t : τ} : Exec D (.ret a) t a t
  | call {o : Op} {k : Ans o → Prog Op Ans ε α} {r : Ans o} {a : α} {t t1 t' : τ} (h1 : D.answer o t r t1)
      (h2 : Exec D (k r) t1 a t') : Exec D (.call o k) t a t'

def Prog.wp (D : Device Op Ans τ) (S : ε → Prop) : Prog Op Ans ε α → (α → τ → Prop) → τ → Prop
  | .ret a, Q, t => Q a t
  | .stop e, _, _ => S e
  | .call o k, Q, t => D.ok o t ∧ ∀ r t', D.answer o t r t' → (k r).wp D S Q t'

variable {S : ε → Prop} {x : Prog Op Ans ε α} {f : α → Prog Op Ans ε β} {t t' : τ} {Q : α → τ → Prop}

@[simp] theorem wp_ret : (Prog.ret a : Prog Op Ans ε α).wp D S Q t ↔ Q a t := Iff.rfl

@[simp] theorem wp_pure : (pure a : Prog Op Ans ε α).wp D S Q t ↔ Q a t := Iff.rfl

@[simp] theorem wp_stop {e : ε} : (Prog.stop e : Prog Op Ans ε α).wp D S Q t ↔ S e := Iff.rfl

@[simp] theorem wp_bind {Q : β → τ → Prop} : (x >>= f).wp D S Q t ↔ x.wp D S (fun a => (f a).wp D S Q) t := by
  induction x generalizing t with
  | ret a => exact Iff.rfl
  | stop e => exact Iff.rfl
  | call o k ih =>
    constructor
    · intro h
      exact ⟨h.1, fun r t' hr => (ih r).1 (h.2 r t' hr)⟩
    · intro h
      exact ⟨h.1, fun r t' hr => (ih r).2 (h.2 r t' hr)⟩

theorem wp_mono {R : α → τ → Prop} (h : x.wp D S Q t) (hQR : ∀ a t', Q a t' → R a t') : x.wp D S R t := by
  induction x generalizing t with
  | ret a => exact hQR a t h
  | stop e => exact h
  | call o k ih => exact ⟨h.1, fun r t' hr => ih r (h.2 r t' hr)⟩

variable {R : σ → τ → Prop}

/-- **Simulation.** `R` relates the states of a machine and of a device, and a call that meets its precondition keeps
it. Then every run of a program with a weakest precondition is one of the device. -/
theorem simulate (hR : ∀ o s t r s', R s t → D.ok o t → handle o s = .ok (r, s') → ∃ t', D.answer o t r t' ∧ R s' t')
    {s s' : σ} (h0 : R s t) (hwp : x.wp D S Q t) (h : x.run handle s = .ok (a, s')) :
    ∃ t', x.Exec D t a t' ∧ R s' t' ∧ Q a t' := by
  induction x generalizing s t with
  | ret b =>
    obtain ⟨rfl, rfl⟩ := run_pure.1 h
    exact ⟨t, .ret, h0, hwp⟩
  | stop e => cases h
  | call o k ih =>
    obtain ⟨r, s1, h1, h2⟩ := run_bind.1 h
    obtain ⟨t1, ha, hR1⟩ := hR o s t r s1 h0 hwp.1 h1
    obtain ⟨t', he, hR', hQ⟩ := ih r hR1 (hwp.2 r t1 ha) h2
    exact ⟨t', .call ha he, hR', hQ⟩

theorem trace_ok (hR : ∀ o s t r s', R s t → D.ok o t → handle o s = .ok (r, s') → ∃ t', D.answer o t r t' ∧ R s' t')
    {s : σ} (h0 : R s t) (hwp : x.wp D S Q t) {o : Op} (ho : o ∈ x.trace handle s) : ∃ t1, D.ok o t1 := by
  induction x generalizing s t with
  | ret b => exact absurd ho List.not_mem_nil
  | stop e => exact absurd ho List.not_mem_nil
  | call o' k ih =>
    rw [Prog.trace] at ho
    rcases List.mem_cons.1 ho with rfl | ho
    · exact ⟨t, hwp.1⟩
    · cases hh : handle o' s with
      | error e =>
        simp only [hh] at ho
        exact absurd ho List.not_mem_nil
      | ok rs =>
        simp only [hh] at ho
        obtain ⟨t1, ha, hR1⟩ := hR o' s t rs.1 rs.2 h0 hwp.1 hh
        exact ih rs.1 hR1 (hwp.2 rs.1 t1 ha) ho

theorem run_ends {E : ε → Prop}
    (hR : ∀ o s t, R s t → D.ok o t → System.Ends E (handle o s) fun rs => ∃ t', D.answer o t rs.1 t' ∧ R rs.2 t')
    {s : σ} (h0 : R s t) (hwp : x.wp D S Q t) :
    System.Ends (fun e => S e ∨ E e) (x.run handle s) fun rs => ∃ t', R rs.2 t' ∧ Q rs.1 t' := by
  induction x generalizing s t with
  | ret b => exact ⟨t, h0, hwp⟩
  | stop e => exact .inl hwp
  | call o k ih =>
    have hstep := hR o s t h0 hwp.1
    show System.Ends _ (handle o s >>= fun rs => (k rs.1).run handle rs.2) _
    cases hh : handle o s with
    | error e =>
      rw [hh] at hstep
      exact .inr hstep
    | ok rs =>
      rw [hh] at hstep
      obtain ⟨t1, ha, hR1⟩ := hstep
      exact ih rs.1 hR1 (hwp.2 rs.1 t1 ha)

end RiscvPke.Program
