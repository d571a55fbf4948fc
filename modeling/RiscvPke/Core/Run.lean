/-
Programs over a state that may stop (`StateT σ (Except ε)`), taken apart. A run that ends well ran each of its parts:
the lemmas `run_*` turn `x s = .ok (a, s')` into facts about the parts of `x`, and `run_forM` is the invariant rule of a
loop over a list (`run_forRange` for a loop that counts). `Costs μ n x`: a run of `x` that ends well lowers the measure
`μ` of the state by at most `n`; the bound of a program is put together from those of its parts. `Keeps g x`: a run of
`x` does not change `g`; `Leaves g c x`: it ends with the value `c` of `g`. `Yields P x Q`: a run of `x` preserves `P`,
and its result is in `Q`. `Fails E x`: the errors of `x` are in `E`. `Follows up B x s`: how the run of `x` from `s`
compares with the one from `up s`.
-/
import RiscvPke.Core.System

namespace RiscvPke.Run

variable {σ ε ι α β : Type} {s s' : σ} {x : StateT σ (Except ε) α} {f : α → StateT σ (Except ε) β}
variable {u : σ → σ} {G : σ → StateT σ (Except ε) α} {F : ι → StateT σ (Except ε) PUnit} {l : List ι}

@[grind =] theorem run_bind {r : β × σ} : (x >>= f) s = .ok r ↔ ∃ a s1, x s = .ok (a, s1) ∧ f a s1 = .ok r := by
  show (x s >>= fun p => f p.1 p.2) = .ok r ↔ _
  cases hx : x s with
  | error e => simp [bind, Except.bind]
  | ok p =>
    obtain ⟨a, s1⟩ := p
    constructor
    · intro h
      exact ⟨a, s1, rfl, h⟩
    · rintro ⟨b, s2, he, h⟩
      cases he
      exact h

variable {a : α}

theorem run_step (h : x s = .ok (a, s')) : (x >>= f) s = f a s' := by
  show (x s >>= fun p => f p.1 p.2) = _
  rw [h]
  rfl

@[grind =] theorem run_pure {b : α} : (pure a : StateT σ (Except ε) α) s = .ok (b, s') ↔ a = b ∧ s = s' := by
  show (.ok (a, s) : Except ε (α × σ)) = .ok (b, s') ↔ _
  simp

@[grind =] theorem run_get {a : σ} : (get : StateT σ (Except ε) σ) s = .ok (a, s') ↔ s = a ∧ s = s' := by
  show (.ok (s, s) : Except ε (σ × σ)) = .ok (a, s') ↔ _
  simp

@[grind =] theorem run_get_bind : (get >>= G) s = G s s := rfl

theorem of_get_bind {r : Except ε (α × σ)} (h : (get >>= G) s = r) : G s s = r := h

@[grind =] theorem run_set {t : σ} {u : PUnit} : (set t : StateT σ (Except ε) PUnit) s = .ok (u, s') ↔ t = s' := by
  show (.ok (PUnit.unit, t) : Except ε (PUnit × σ)) = .ok (u, s') ↔ _
  simp

@[grind =] theorem run_modify {f : σ → σ} {u : PUnit} :
    (modify f : StateT σ (Except ε) PUnit) s = .ok (u, s') ↔ f s = s' := by
  show (.ok (PUnit.unit, f s) : Except ε (PUnit × σ)) = .ok (u, s') ↔ _
  simp

variable {e : ε}

@[grind =] theorem run_throw {r : α × σ} : (throw e : StateT σ (Except ε) α) s = .ok r ↔ False := by
  show (.error e : Except ε (α × σ)) = .ok r ↔ _
  simp

theorem run_guard {c : Prop} [Decidable c] {r : α × σ} (h : (if c then throw e else x) s = .ok r) :
    ¬ c ∧ x s = .ok r := by
  split_ifs at h with hc
  · cases h
  · exact ⟨hc, h⟩

@[grind =] theorem run_bind_error :
    (x >>= f) s = .error e ↔ x s = .error e ∨ ∃ a s1, x s = .ok (a, s1) ∧ f a s1 = .error e := by
  show (x s >>= fun p => f p.1 p.2) = .error e ↔ _
  cases hx : x s with
  | error e' => simp [bind, Except.bind]
  | ok p =>
    obtain ⟨a, s1⟩ := p
    constructor
    · intro h
      exact .inr ⟨a, s1, rfl, h⟩
    · intro h
      obtain h | ⟨b, s2, he, h⟩ := h
      · cases h
      · cases he
        exact h

theorem run_forM (I : List ι → σ → Prop)
    (hf : ∀ x xs s s', I (x :: xs) s → F x s = .ok ((), s') → I xs s') :
    ∀ (l : List ι) (s s' : σ), I l s → l.forM F s = .ok ((), s') → I [] s' := by
  intro l
  induction l with
  | nil =>
    intro s s' hi h
    obtain ⟨_, rfl⟩ := run_pure.1 h
    exact hi
  | cons x xs ih =>
    intro s s' hi h
    obtain ⟨_, s1, h1, h2⟩ := run_bind.1 h
    exact ih s1 s' (hf x xs s s1 hi h1) h2

theorem run_each (J : σ → Prop) (R : ι → σ → Prop)
    (hf : ∀ x ∈ l, ∀ s1 s2, J s1 → F x s1 = .ok ((), s2) → J s2 ∧ R x s2 ∧ ∀ y ∈ l, R y s1 → R y s2)
    (hJ : J s) (h : l.forM F s = .ok ((), s')) : J s' ∧ ∀ x ∈ l, R x s' := by
  have key := run_forM (fun xs t => xs ⊆ l ∧ J t ∧ ∀ x ∈ l, x ∉ xs → R x t) ?_ l s s'
    ⟨List.Subset.refl l, hJ, fun x hx hn => absurd hx hn⟩ h
  · exact ⟨key.2.1, fun x hx => key.2.2 x hx List.not_mem_nil⟩
  · intro x xs s1 s2 ⟨hsub, h1, hdone⟩ hx
    obtain ⟨h2, hR, hkeep⟩ := hf x (hsub List.mem_cons_self) s1 s2 h1 hx
    refine ⟨fun y hy => hsub (List.mem_cons_of_mem x hy), h2, fun y hy hn => ?_⟩
    by_cases hyx : y = x
    · rw [hyx]
      exact hR
    · exact hkeep y hy (hdone y hy (by simp [hyx, hn]))

theorem run_forMem (J : σ → Prop)
    (hf : ∀ x ∈ l, ∀ s1 s2, J s1 → F x s1 = .ok ((), s2) → J s2) (hJ : J s) (h : l.forM F s = .ok ((), s')) : J s' :=
  (run_each J (fun _ _ => True) (fun x hx s1 s2 h1 h2 => ⟨hf x hx s1 s2 h1 h2, trivial, fun _ _ h => h⟩) hJ h).1

theorem run_forRange {f : ℕ → StateT σ (Except ε) PUnit} (I : ℕ → σ → Prop) {n : ℕ}
    (hf : ∀ i s s', i < n → I i s → f i s = .ok ((), s') → I (i + 1) s') (h0 : I 0 s)
    (h : (List.range n).forM f s = .ok ((), s')) : I n s' := by
  have key := run_forM (F := f) (fun xs s1 => ∃ i, i ≤ n ∧ xs = List.range' i (n - i) ∧ I i s1) ?_ (List.range n) s s'
    ⟨0, Nat.zero_le n, by rw [List.range_eq_range', Nat.sub_zero], h0⟩ h
  · obtain ⟨i, hi, hxs, hI⟩ := key
    have hlen := congrArg List.length hxs
    rw [List.length_nil, List.length_range'] at hlen
    obtain rfl : i = n := by omega
    exact hI
  · rintro x xs s1 s2 ⟨i, hi, hxs, hI⟩ hx
    obtain ⟨m, hm⟩ : ∃ m, n - i = m + 1 := by
      cases hm : n - i with
      | zero =>
        rw [hm] at hxs
        simp at hxs
      | succ m => exact ⟨m, rfl⟩
    rw [hm, List.range'_succ] at hxs
    obtain ⟨rfl, rfl⟩ := List.cons.inj hxs
    exact ⟨x + 1, by omega, by rw [show n - (x + 1) = m by omega], hf x s1 s2 (by omega) hI hx⟩

/-! ## Costs -/

section Costs

variable {μ : σ → ℕ} {m n k : ℕ}

def Costs (μ : σ → ℕ) (n : ℕ) (x : StateT σ (Except ε) α) : Prop := ∀ s r s', x s = .ok (r, s') → μ s ≤ μ s' + n

theorem Costs.bind (hx : Costs μ m x) (hf : ∀ a, Costs μ n (f a)) : Costs μ (m + n) (x >>= f) := by
  intro s r s' h
  obtain ⟨a, s1, h1, h2⟩ := run_bind.1 h
  have := hx s a s1 h1
  have := hf a s1 r s' h2
  omega

theorem costs_pure : Costs μ n (pure a : StateT σ (Except ε) α) := by
  intro s r s' h
  obtain ⟨-, rfl⟩ := run_pure.1 h
  omega

theorem costs_get : Costs μ 0 (get : StateT σ (Except ε) σ) := by
  intro s r s' h
  obtain ⟨-, rfl⟩ := run_get.1 h
  omega

theorem costs_throw : Costs μ n (throw e : StateT σ (Except ε) α) :=
  fun _ _ _ h => (run_throw.1 h).elim

theorem costs_modify (h : ∀ s, μ (u s) = μ s) : Costs μ n (modify u : StateT σ (Except ε) PUnit) := by
  intro s r s' hm
  obtain rfl := run_modify.1 hm
  have := h s
  omega

end Costs

/-! ## What a run keeps -/

section Keeps

variable {γ : Type} {g : σ → γ} {c : γ}

def Keeps (g : σ → γ) (x : StateT σ (Except ε) α) : Prop := ∀ s r s', x s = .ok (r, s') → g s' = g s

def Leaves (g : σ → γ) (c : γ) (x : StateT σ (Except ε) α) : Prop := ∀ s r s', x s = .ok (r, s') → g s' = c

@[grind ←] theorem Keeps.bind (hx : Keeps g x) (hf : ∀ a, Keeps g (f a)) : Keeps g (x >>= f) := by
  intro s r s' h
  obtain ⟨a, s1, h1, h2⟩ := run_bind.1 h
  exact (hf a s1 r s' h2).trans (hx s a s1 h1)

@[grind ←] theorem keeps_pure : Keeps g (pure a : StateT σ (Except ε) α) := by
  intro s r s' h
  obtain ⟨-, rfl⟩ := run_pure.1 h
  rfl

@[grind ←] theorem keeps_get : Keeps g (get : StateT σ (Except ε) σ) := by
  intro s r s' h
  obtain ⟨-, rfl⟩ := run_get.1 h
  rfl

@[grind ←] theorem keeps_throw : Keeps g (throw e : StateT σ (Except ε) α) := fun _ _ _ h => (run_throw.1 h).elim

@[grind ←] theorem keeps_modify (h : ∀ s, g (u s) = g s) : Keeps g (modify u : StateT σ (Except ε) PUnit) := by
  intro s r s' hm
  obtain rfl := run_modify.1 hm
  exact h s

theorem keeps_get_bind (h : ∀ s r s', G s s = .ok (r, s') → g s' = g s) : Keeps g (get >>= G) :=
  fun s r s' hx => h s r s' hx

@[grind ←] theorem keeps_forM (h : ∀ x ∈ l, Keeps g (F x)) : Keeps g (l.forM F) := by
  induction l with
  | nil => exact keeps_pure
  | cons x xs ih => exact (h x List.mem_cons_self).bind fun _ => ih fun y hy => h y (List.mem_cons_of_mem x hy)

theorem Leaves.last (hf : ∀ a, Leaves g c (f a)) : Leaves g c (x >>= f) := by
  intro s r s' h
  obtain ⟨a, s1, -, h2⟩ := run_bind.1 h
  exact hf a s1 r s' h2

theorem Leaves.bind (hx : Leaves g c x) (hf : ∀ a, Keeps g (f a)) : Leaves g c (x >>= f) := by
  intro s r s' h
  obtain ⟨a, s1, h1, h2⟩ := run_bind.1 h
  exact (hf a s1 r s' h2).trans (hx s a s1 h1)

theorem leaves_modify (h : ∀ s, g (u s) = c) : Leaves g c (modify u : StateT σ (Except ε) PUnit) := by
  intro s r s' hm
  obtain rfl := run_modify.1 hm
  exact h s

end Keeps

/-! ## What a run preserves -/

section Yields

variable {P : σ → Prop} {Q Q' : α → Prop}

def Yields (P : σ → Prop) (x : StateT σ (Except ε) α) (Q : α → Prop) : Prop :=
  ∀ s r s', P s → x s = .ok (r, s') → P s' ∧ Q r

abbrev Stays (P : σ → Prop) (x : StateT σ (Except ε) α) : Prop := Yields P x fun _ => True

theorem Yields.bind {R : β → Prop} (hx : Yields P x Q) (hf : ∀ a, Q a → Yields P (f a) R) : Yields P (x >>= f) R := by
  intro s r s' hs h
  obtain ⟨a, s1, h1, h2⟩ := run_bind.1 h
  obtain ⟨hs1, ha⟩ := hx s a s1 hs h1
  exact hf a ha s1 r s' hs1 h2

@[grind ←] theorem Yields.seq {R : β → Prop} (hx : Stays P x)
    (hf : ∀ a, Yields P (f a) R) : Yields P (x >>= f) R := hx.bind fun a _ => hf a

@[grind ←] theorem yields_pure (h : Q a) : Yields P (pure a : StateT σ (Except ε) α) Q := by
  intro s r s' hs hx
  obtain ⟨rfl, rfl⟩ := run_pure.1 hx
  exact ⟨hs, h⟩

@[grind ←] theorem yields_throw : Yields P (throw e : StateT σ (Except ε) α) Q := fun _ _ _ _ h => (run_throw.1 h).elim

theorem yields_modify (h : ∀ s, P s → P (u s)) : Stays P (modify u : StateT σ (Except ε) PUnit) := by
  intro s r s' hs hx
  obtain rfl := run_modify.1 hx
  exact ⟨h s hs, trivial⟩

theorem yields_guard {c : Prop} [Decidable c] {f : PUnit → StateT σ (Except ε) α} (h : Yields P (f ⟨⟩) Q) :
    Yields P (if c then throw e >>= f else f ⟨⟩) Q := fun s r s' hs hx => h s r s' hs (run_guard hx).2

@[grind ←] theorem yields_get_bind (h : ∀ s, P s → Yields P (G s) Q) : Yields P (get >>= G) Q :=
  fun s r s' hs hx => h s hs s r s' hs hx

@[grind ←] theorem yields_forM (h : ∀ x ∈ l, Stays P (F x)) : Stays P (l.forM F) := by
  induction l with
  | nil => exact yields_pure trivial
  | cons x xs ih => exact (h x List.mem_cons_self).bind fun _ _ => ih fun y hy => h y (List.mem_cons_of_mem x hy)

end Yields

/-! ## Errors -/

section Fails

variable {E : ε → Prop}

def Fails (E : ε → Prop) (x : StateT σ (Except ε) α) : Prop := ∀ s e, x s = .error e → E e

@[grind ←] theorem Fails.bind (hx : Fails E x) (hf : ∀ a, Fails E (f a)) : Fails E (x >>= f) := by
  intro s e h
  obtain h | ⟨a, s1, -, h⟩ := run_bind_error.1 h
  · exact hx s e h
  · exact hf a s1 e h

@[grind ←] theorem fails_pure : Fails E (pure a : StateT σ (Except ε) α) := by
  intro s e h
  cases h

@[grind ←] theorem fails_throw (h : E e) : Fails E (throw e : StateT σ (Except ε) α) := by
  intro s e' h'
  cases h'
  exact h

@[grind ←] theorem fails_modify : Fails E (modify u : StateT σ (Except ε) PUnit) := by
  intro s e h
  cases h

@[grind ←] theorem fails_set {s : σ} : Fails E (set s : StateT σ (Except ε) PUnit) := by
  intro s e h
  cases h

@[grind ←] theorem fails_get_bind (h : ∀ s, Fails E (G s)) : Fails E (get >>= G) := fun s e hx => h s s e hx

end Fails

/-! ## Two runs -/

section Follows

variable {up : σ → σ} {B : σ → Prop}

def Follows (up : σ → σ) (B : σ → Prop) (x : StateT σ (Except ε) α) (s : σ) : Prop :=
  ∀ r t, x (up s) = .ok (r, t) →
    (∃ s', x s = .ok (r, s') ∧ t = up s') ∨ (∃ e, x s = .error e) ∨ ∃ r' s', x s = .ok (r', s') ∧ B s'

theorem Follows.bind (hx : Follows up B x s)
    (hf : ∀ a s', x s = .ok (a, s') → Follows up B (f a) s') (hB : ∀ a, Stays B (f a)) :
    Follows up B (x >>= f) s := by
  intro r t h
  obtain ⟨a, t1, h1, h2⟩ := run_bind.1 h
  obtain ⟨s1, hs1, rfl⟩ | ⟨e, he⟩ | ⟨a', s1, hs1, hb⟩ := hx a t1 h1
  · rw [run_step hs1]
    exact hf a s1 hs1 r t h2
  · exact .inr (.inl ⟨e, run_bind_error.2 (.inl he)⟩)
  · rw [run_step hs1]
    cases hf : f a' s1 with
    | error e => exact .inr (.inl ⟨e, rfl⟩)
    | ok p => exact .inr (.inr ⟨p.1, p.2, rfl, (hB a' s1 p.1 p.2 hb hf).1⟩)

theorem Follows.seq (hx : Follows up (fun _ => False) x s)
    (hf : ∀ a s', x s = .ok (a, s') → Follows up B (f a) s') : Follows up B (x >>= f) s := by
  intro r t h
  obtain ⟨a, t1, h1, h2⟩ := run_bind.1 h
  obtain ⟨s1, hs1, rfl⟩ | ⟨e, he⟩ | ⟨_, _, -, hfalse⟩ := hx a t1 h1
  · rw [run_step hs1]
    exact hf a s1 hs1 r t h2
  · exact .inr (.inl ⟨e, run_bind_error.2 (.inl he)⟩)
  · exact hfalse.elim

theorem follows_pure : Follows up B (pure a : StateT σ (Except ε) α) s := by
  intro r t h
  obtain ⟨rfl, rfl⟩ := run_pure.1 h
  exact .inl ⟨s, rfl, rfl⟩

theorem follows_throw : Follows up B (throw e : StateT σ (Except ε) α) s := fun _ _ h => (run_throw.1 h).elim

theorem follows_modify (h : u (up s) = up (u s)) : Follows up B (modify u : StateT σ (Except ε) PUnit) s := by
  intro r t hm
  obtain rfl := run_modify.1 hm
  exact .inl ⟨u s, rfl, h⟩

theorem follows_get_bind (hG : G (up s) = G s) (h : Follows up B (G s) s) : Follows up B (get >>= G) s := by
  intro r t hx
  rw [run_get_bind, hG] at hx
  exact h r t hx

theorem follows_forM {I : σ → Prop} (hF : ∀ i ∈ l, ∀ s, I s → Follows up B (F i) s)
    (hI : ∀ i ∈ l, Stays I (F i)) (hB : ∀ i ∈ l, Stays B (F i)) (hs : I s) :
    Follows up B (l.forM F) s := by
  induction l generalizing s with
  | nil => exact follows_pure
  | cons i is ih =>
    have hrest : ∀ s, I s → Follows up B (is.forM F) s := fun s hs =>
      ih (fun j hj => hF j (List.mem_cons_of_mem i hj)) (fun j hj => hI j (List.mem_cons_of_mem i hj))
        (fun j hj => hB j (List.mem_cons_of_mem i hj)) hs
    refine (hF i List.mem_cons_self s hs).bind (fun _ s' h => hrest s' (hI i List.mem_cons_self _ _ _ hs h).1) fun _ =>
      ?_
    exact yields_forM fun j hj => hB j (List.mem_cons_of_mem i hj)

end Follows

/-! ## Specifications on abstract states -/

section Spec

variable {τ : Type} {f : σ → τ} {E E' : ε → Prop} {a : τ}

def Spec (f : σ → τ) (E : ε → Prop) (a : τ) (x : StateT σ (Except ε) α) (Q : α → τ → Prop) : Prop :=
  ∀ s, f s = a → System.Ends E (x s) fun r => Q r.1 (f r.2)

variable {Q : α → τ → Prop}

theorem Spec.mono {Q' : α → τ → Prop} (h : Spec f E a x Q) (hE : ∀ e, E e → E' e)
    (hQ : ∀ r a', Q r a' → Q' r a') : Spec f E' a x Q' := by
  intro s hs
  have hx := h s hs
  cases hr : x s with
  | ok r =>
    rw [hr] at hx
    exact hQ _ _ hx
  | error e =>
    rw [hr] at hx
    exact hE e hx

theorem Spec.post {Q' : α → τ → Prop} (h : Spec f E a x Q) (hQ : ∀ r a', Q r a' → Q' r a') :
    Spec f E a x Q' := h.mono (fun _ he => he) hQ

theorem Spec.bind {g : α → StateT σ (Except ε) β} {R : α → τ → Prop} {Q : β → τ → Prop}
    (h : Spec f E a x R) (hg : ∀ r a1, R r a1 → Spec f E a1 (g r) Q) : Spec f E a (x >>= g) Q := by
  intro s hs
  exact System.Ends.bind (h s hs) fun r hr => hg r.1 (f r.2) hr r.2 rfl

theorem spec_pure {r : α} (h : Q r a) : Spec f E a (pure r) Q := by
  intro s hs
  subst hs
  exact h

theorem spec_throw (h : E e) : Spec f E a (throw e) Q := fun _ _ => h

theorem spec_modify {Q : PUnit → τ → Prop} (h : ∀ s, f s = a → Q ⟨⟩ (f (u s))) :
    Spec f E a (modify u) Q := fun s hs => h s hs

theorem spec_get_bind (h : ∀ s, f s = a → Spec f E a (G s) Q) : Spec f E a (get >>= G) Q :=
  fun s hs => h s hs s hs

theorem spec_set_bind {s1 : σ} {g : PUnit → StateT σ (Except ε) α} (h : Spec f E (f s1) (g ⟨⟩) Q) :
    Spec f E a (set s1 >>= g) Q := fun _ _ => h s1 rfl

theorem Spec.seq {g : α → StateT σ (Except ε) β} {Q : β → τ → Prop}
    (h : Spec f E a x fun r a1 => Spec f E a1 (g r) Q) : Spec f E a (x >>= g) Q := h.bind fun _ _ hr => hr

theorem spec_forRange {g : ℕ → StateT σ (Except ε) PUnit} (I : ℕ → τ → Prop) {n : ℕ} (h0 : I 0 a)
    (hg : ∀ i a1, i < n → I i a1 → Spec f E a1 (g i) fun _ => I (i + 1)) :
    Spec f E a ((List.range n).forM g) fun _ => I n := by
  have key : ∀ k i a1, i + k = n → I i a1 → Spec f E a1 ((List.range' i k).forM g) fun _ => I n := by
    intro k
    induction k with
    | zero =>
      intro i a1 hi hI
      obtain rfl : i = n := by omega
      exact spec_pure hI
    | succ k ih =>
      intro i a1 hi hI
      exact Spec.bind (hg i a1 (by omega) hI) fun _ a2 hI2 => ih (i + 1) a2 (by omega) hI2
  rw [List.range_eq_range']
  exact key n 0 a (by omega) h0

theorem Spec.run {r : α} (h : Spec f E (f s) x Q) (hx : x s = .ok (r, s')) : Q r (f s') := by
  have := h s rfl
  rw [hx] at this
  exact this

end Spec

end RiscvPke.Run
