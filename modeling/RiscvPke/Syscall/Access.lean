/-
Which bytes the system calls reach, and through which page table entries.
-/
import RiscvPke.Syscall.Model
import RiscvPke.Memory.Invariant

namespace RiscvPke.Syscall

open Function Program Memory CData RiscvPke.System

/-! ## Rules for accesses -/

/-- what is asked of the entry behind an access, and of a pointer that `exec` acts upon -/
structure Rule where
  may : Bool → Pte → Prop
  may_load : ∀ e, may true e → may false e
  given : Proc → ℕ → Prop

variable {R : Rule} {W : World} {K : Machine} {p : Slot} {s : St} {pr : Proc} {w : Bool} {va pa base n k : ℕ} {α : Type}

def Through (R : Rule) (pr : Proc) (w : Bool) (va pa : ℕ) : Prop :=
  va < MAXVA ∧ ∃ e, pr.leaf (va / PGSIZE) = some e ∧ e.ppn ≠ 0 ∧ R.may w e ∧ pa = e.ppn * PGSIZE + va % PGSIZE

def Allowed (R : Rule) (pr : Proc) : Op → Prop
  | .load va pa => Through R pr false va pa
  | .store va pa _ => Through R pr true va pa
  | .reload command para _ _ => R.given pr command ∧ R.given pr para

theorem Through.ge (h : Through R pr w va pa) : ¬ pa < PGSIZE := by
  obtain ⟨-, e, -, h0, -, rfl⟩ := h
  grind

theorem Through.load (h : Through R pr true va pa) : Through R pr false va pa := by
  obtain ⟨h1, e, h2, h3, h4, h5⟩ := h
  exact ⟨h1, e, h2, h3, R.may_load e h4, h5⟩

abbrev Respects (R : Rule) (W : World) (K : Machine) (p : Slot) (pr : Proc) (x : P α) (s : St) : Prop :=
  x.Respects (handle W K p) (Allowed R pr) s

/-! ## Single accesses and ranges -/

def storeList (mem : ℕ → UInt8) (pa : ℕ) : List UInt8 → ℕ → UInt8
  | [] => mem
  | b :: bs => storeList (update mem pa b) (pa + 1) bs

def put (s : St) (pa : ℕ) (bs : List UInt8) : St := { s with mem := storeList s.mem pa bs }

variable {mem : ℕ → UInt8} {bs : List UInt8} {l : CString}

theorem storeList_of_out {b : ℕ} (h : b < pa ∨ pa + bs.length ≤ b) : storeList mem pa bs b = mem b := by
  induction bs generalizing mem pa with
  | nil => rfl
  | cons c cs ih =>
    rw [List.length_cons] at h
    rw [storeList, ih (by omega)]
    exact update_of_ne (by omega) _ _

theorem storeList_get (h : k < bs.length) : storeList mem pa bs (pa + k) = bs[k] := by
  induction bs generalizing mem pa k with
  | nil => cases h
  | cons c cs ih =>
    rw [storeList]
    cases k with
    | zero =>
      rw [storeList_of_out (by omega)]
      exact update_self _ _ _
    | succ k =>
      rw [show pa + (k + 1) = pa + 1 + k by omega]
      exact ih (by simpa using h)

variable {f : UInt8 → P α} {g : List UInt8 → P α} {t : Unit → P α} {str : CString → P α}

theorem respects_load : Respects R W K p pr (load va pa >>= f) s ↔
    Through R pr false va pa ∧ Respects R W K p pr (f (s.mem pa)) s := by
  have hr : Allowed R pr (.load va pa) → handle W K p (.load va pa) s = .ok (s.mem pa, s) := fun h => if_neg h.ge
  exact respects_perform_bind hr

theorem respects_store {b : UInt8} : Respects R W K p pr (store va pa b >>= t) s ↔
    Through R pr true va pa ∧ Respects R W K p pr (t ()) { s with mem := update s.mem pa b } := by
  have hr : Allowed R pr (.store va pa b) →
      handle W K p (.store va pa b) s = .ok ((), { s with mem := update s.mem pa b }) := fun h => if_neg h.ge
  exact respects_perform_bind hr

theorem forall_lt_succ_shift {Q : ℕ → Prop} : (∀ k < n + 1, Q k) ↔ Q 0 ∧ ∀ k < n, Q (1 + k) := by
  rw [Nat.forall_lt_succ_left]
  simp only [Nat.add_comm]

def bytesAt (mem : ℕ → UInt8) (pa : ℕ) : ℕ → List UInt8
  | 0 => []
  | n + 1 => mem pa :: bytesAt mem (pa + 1) n

theorem respects_loadBytes : Respects R W K p pr (loadBytes va pa n >>= g) s ↔
    (∀ k < n, Through R pr false (va + k) (pa + k)) ∧ Respects R W K p pr (g (bytesAt s.mem pa n)) s := by
  induction n generalizing va pa g with
  | zero =>
    constructor
    · intro h
      exact ⟨fun k hk => absurd hk (Nat.not_lt_zero k), h⟩
    · intro h
      exact h.2
  | succ n ih =>
    simp only [loadBytes, prog_bind_assoc, prog_pure_bind]
    rw [respects_load, ih, forall_lt_succ_shift, and_assoc]
    simp only [Nat.add_zero, ← Nat.add_assoc, bytesAt]

theorem respects_storeBytes : Respects R W K p pr (storeBytes va pa bs >>= t) s ↔
    (∀ k < bs.length, Through R pr true (va + k) (pa + k)) ∧ Respects R W K p pr (t ()) (put s pa bs) := by
  induction bs generalizing va pa s with
  | nil =>
    constructor
    · intro h
      exact ⟨fun k hk => absurd hk (Nat.not_lt_zero k), h⟩
    · intro h
      exact h.2
  | cons b bs ih =>
    simp only [storeBytes, prog_bind_assoc]
    rw [respects_store, ih, List.length_cons, forall_lt_succ_shift, and_assoc]
    simp only [Nat.add_zero, ← Nat.add_assoc, put, storeList]

theorem respects_ofRes {β : Type} {x : Res β} {h : β → P α} :
    Respects R W K p pr (ofRes x >>= h) s ↔ ∀ b, x = .ok b → Respects R W K p pr (h b) s := by
  cases x with
  | error e =>
    constructor
    · intro _ b hb
      cases hb
    · intro _
      exact respects_stop
  | ok b =>
    constructor
    · intro hr b' hb
      cases hb
      exact hr
    · intro hr
      exact hr b rfl

theorem respects_ofRes_end {x : Res α} : Respects R W K p pr (ofRes x) s := by
  cases x with
  | error e => exact respects_stop
  | ok b => exact respects_ret

theorem respects_map {β : Type} {x : P α} {h : α → β} : Respects R W K p pr (h <$> x) s ↔ Respects R W K p pr x s := by
  refine respects_bind.trans ⟨fun hx => hx.1, fun hx => ⟨hx, fun a s' _ => respects_pure⟩⟩

/-! ## Strings -/

def StrAt (mem : ℕ → UInt8) (pa : ℕ) : CString → Prop
  | [] => mem pa = 0
  | c :: l => mem pa = c.1 ∧ StrAt mem (pa + 1) l

theorem StrAt.unique {l l' : CString} (h : StrAt mem pa l) (h' : StrAt mem pa l') : l = l' := by
  induction l generalizing pa l' with
  | nil =>
    cases l' with
    | nil => rfl
    | cons c l' => exact absurd (h'.1.symm.trans h) c.2
  | cons c l ih =>
    cases l' with
    | nil => exact absurd (h.1.symm.trans h') c.2
    | cons c' l' =>
      obtain rfl : c = c' := Subtype.ext (h.1.symm.trans h'.1)
      rw [ih h.2 h'.2]

theorem strAt_iff : StrAt mem pa l ↔ ∀ k (hk : k < (chars l).length), mem (pa + k) = (chars l)[k] := by
  induction l generalizing pa with
  | nil => simp [StrAt, chars]
  | cons c l ih =>
    rw [StrAt, ih]
    constructor
    · grind [chars]
    · intro h
      refine ⟨by simpa [chars] using h 0 (by simp [chars]), fun k hk => ?_⟩
      have := h (k + 1) (by simpa [chars] using hk)
      rw [show pa + 1 + k = pa + (k + 1) by omega, this]
      simp [chars]

theorem chars_length : (chars l).length = l.length + 1 := by simp [chars]

variable {fuel : ℕ}

theorem respects_loadChars (h0 : 0 < fuel) (hf : MAXVA < va + fuel) :
    Respects R W K p pr (loadChars va pa fuel >>= str) s ↔
      ∃ l, StrAt s.mem pa l ∧ (∀ k < l.length + 1, Through R pr false (va + k) (pa + k)) ∧
        Respects R W K p pr (str l) s := by
  induction fuel generalizing va pa str with
  | zero => cases h0
  | succ fuel ih =>
    rw [loadChars, prog_bind_assoc, respects_load]
    by_cases hb : s.mem pa = 0
    · simp only [hb, dite_true, prog_pure_bind]
      constructor
      · intro h
        refine ⟨[], hb, fun k hk => ?_, h.2⟩
        obtain rfl : k = 0 := by simpa using hk
        exact h.1
      · intro ⟨l, hl, ht, hs⟩
        obtain rfl : l = [] := hl.unique hb
        exact ⟨ht 0 (by simp), hs⟩
    · simp only [hb, dite_false, prog_bind_assoc, prog_pure_bind]
      constructor
      · intro ⟨ht, hr⟩
        have hva := ht.1
        obtain ⟨l, hl, htl, hs⟩ := (ih (by omega) (by omega)).1 hr
        refine ⟨⟨_, hb⟩ :: l, ⟨rfl, hl⟩, (forall_lt_succ_shift).2 ⟨ht, fun k hk => ?_⟩, hs⟩
        simpa only [← Nat.add_assoc] using htl k hk
      · intro ⟨l, hl, ht, hs⟩
        cases l with
        | nil => exact absurd hl hb
        | cons c l =>
          have hc : c = ⟨s.mem pa, hb⟩ := Subtype.ext hl.1.symm
          subst hc
          obtain ⟨ht0, ht1⟩ := (forall_lt_succ_shift).1 ht
          have hva := ht0.1
          refine ⟨ht0, (ih (by omega) (by omega)).2 ⟨l, hl.2, fun k hk => ?_, hs⟩⟩
          simpa only [Nat.add_assoc] using ht1 k hk

theorem respects_loadString : Respects R W K p pr (loadString va pa >>= str) s ↔
    ∃ l, StrAt s.mem pa l ∧ (∀ k < l.length + 1, Through R pr false (va + k) (pa + k)) ∧
      Respects R W K p pr (str l) s := by
  have hf : MAXVA < va + 2 ^ 64 := Nat.lt_of_lt_of_le (by decide) (Nat.le_add_left _ _)
  exact respects_loadChars (Nat.two_pow_pos 64) hf

/-! ## Buffers -/

def Held (R : Rule) (pr : Proc) (w : Bool) (va k : ℕ) : Prop :=
  lookupPa pr va ≠ 0 ∧ va + k < MAXVA ∧
    ∃ e, pr.leaf ((va + k) / PGSIZE) = some e ∧ R.may w e ∧ e.ppn = lookupPa pr va + ((va + k) / PGSIZE - va / PGSIZE)

/-- how the kernel addresses the buffer: without a frame the address lies in page 0 -/
structure Base (pr : Proc) (va base : ℕ) : Prop where
  mapped : lookupPa pr va ≠ 0 → base = lookupPa pr va * PGSIZE + va % PGSIZE
  unmapped : lookupPa pr va = 0 → base < PGSIZE

theorem base_userVaToPa : Base pr va (userVaToPa pr va) := by
  unfold userVaToPa
  refine ⟨fun h => if_neg h, fun h => ?_⟩
  rw [if_pos h]
  decide

theorem base_lookupPa : Base pr va (lookupPa pr va * PGSIZE + va % PGSIZE) := by
  refine ⟨fun _ => rfl, fun h => ?_⟩
  rw [h, Nat.zero_mul, Nat.zero_add]
  exact Nat.mod_lt _ (by decide)

theorem through_iff_held (hb : Base pr va base) (h : lookupPa pr va ≠ 0) :
    Through R pr w (va + k) (base + k) ↔ Held R pr w va k := by
  have hbase := hb.mapped h
  unfold Through Held
  constructor
  · grind
  · grind

theorem Base.mapped_of_through (hb : Base pr va base) (h : Through R pr w va base) : lookupPa pr va ≠ 0 :=
  fun h0 => h.ge (hb.unmapped h0)

theorem range_iff_held (hb : Base pr va base) :
    (∀ k < n, Through R pr w (va + k) (base + k)) ↔ ∀ k < n, Held R pr w va k := by
  by_cases h : lookupPa pr va = 0
  · constructor
    · intro ht k hk
      exact absurd h (hb.mapped_of_through (ht 0 (by omega)))
    · intro hh k hk
      exact absurd h (hh k hk).1
  · exact forall₂_congr fun k _ => through_iff_held hb h

/-! ## The process's own view -/

def userByte (s : St) (p : Slot) (va : ℕ) : UInt8 :=
  match (s.proc p).leaf (va / PGSIZE) with
  | some e => s.mem (e.ppn * PGSIZE + va % PGSIZE)
  | none => 0

theorem Through.userByte (h : Through R (s.proc p) w va pa) : s.mem pa = userByte s p va := by
  obtain ⟨-, e, he, -, -, rfl⟩ := h
  rw [Syscall.userByte, he]

def userChars (s : St) (p : Slot) : (fuel va : ℕ) → CString
  | 0, _ => []
  | fuel + 1, va => if h : userByte s p va = 0 then [] else ⟨_, h⟩ :: userChars s p fuel (va + 1)

def userString (s : St) (p : Slot) (va : ℕ) : CString := userChars s p (2 ^ 64) va

def userWord (s : St) (p : Slot) (va : ℕ) : ℕ := wordOf (bytesAt (userByte s p) va 8)

theorem StrAt.congr {mem' : ℕ → UInt8} (h : StrAt mem pa l)
    (hm : ∀ k < l.length + 1, mem' (va + k) = mem (pa + k)) : StrAt mem' va l := by
  induction l generalizing pa va with
  | nil => exact (hm 0 (by simp)).trans h
  | cons c l ih =>
    obtain ⟨h0, h1⟩ := (forall_lt_succ_shift).1 hm
    exact ⟨h0.trans h.1, ih h.2 fun k hk => by simpa only [← Nat.add_assoc] using h1 k hk⟩

theorem userChars_eq (h : StrAt (userByte s p) va l) (hf : l.length < fuel) : userChars s p fuel va = l := by
  induction l generalizing va fuel with
  | nil =>
    cases fuel with
    | zero => cases hf
    | succ fuel => exact dif_pos h
  | cons c l ih =>
    cases fuel with
    | zero => cases hf
    | succ fuel =>
      have hc : userByte s p va ≠ 0 := by
        rw [h.1]
        exact c.2
      rw [userChars, dif_neg hc, ih h.2 (by simpa using hf)]
      congr 1
      exact Subtype.ext h.1

theorem userChars_strAt (h : userByte s p (va + (userChars s p fuel va).length) = 0) :
    StrAt (userByte s p) va (userChars s p fuel va) := by
  induction fuel generalizing va with
  | zero => exact h
  | succ fuel ih =>
    rw [userChars] at h ⊢
    split_ifs at h ⊢ with hb
    · exact hb
    · refine ⟨rfl, ih ?_⟩
      grind

theorem bytesAt_congr {mem' : ℕ → UInt8} (h : ∀ k < n, mem' (va + k) = mem (pa + k)) :
    bytesAt mem' va n = bytesAt mem pa n := by
  induction n generalizing va pa with
  | zero => rfl
  | succ n ih =>
    obtain ⟨h0, h1⟩ := (forall_lt_succ_shift).1 h
    grind [bytesAt]

/-! ## What a call needs of its arguments -/

/-- the offsets from `lo` to before `hi` of a buffer are read or written -/
structure Part where
  write : Bool
  lo : ℕ
  hi : ℕ

inductive Use where
  | bytes (va : ℕ) (parts : List Part)
  /-- a string, up to its zero -/
  | str (va : ℕ)
  /-- a pointer that is acted upon, whether or not it is mapped -/
  | given (va : ℕ)

def StrOk (R : Rule) (s : St) (p : Slot) (va : ℕ) : Prop :=
  userByte s p (va + (userString s p va).length) = 0 ∧
    ∀ k < (userString s p va).length + 1, Held R (s.proc p) false va k

def Use.Ok (R : Rule) (s : St) (p : Slot) : Use → Prop
  | .bytes va parts => ∀ x ∈ parts, ∀ k, x.lo ≤ k → k < x.hi → Held R (s.proc p) x.write va k
  | .str va => StrOk R s p va
  | .given va => R.given (s.proc p) va

def Use.whole (w : Bool) (va n : ℕ) : Use := .bytes va [⟨w, 0, n⟩]

theorem whole_ok : (Use.whole w va n).Ok R s p ↔ ∀ k < n, Held R (s.proc p) w va k := by
  constructor
  · intro h k hk
    exact h _ (List.mem_singleton_self _) k (Nat.zero_le k) hk
  · intro h x hx k _ hk
    obtain rfl := List.mem_singleton.1 hx
    exact h k hk

theorem respects_userString : Respects R W K p (s.proc p) (loadString va (userVaToPa (s.proc p) va) >>= str) s ↔
    StrOk R s p va ∧ Respects R W K p (s.proc p) (str (userString s p va)) s := by
  rw [respects_loadString]
  constructor
  · intro ⟨l, hl, ht, hs⟩
    have hu : StrAt (userByte s p) va l := hl.congr fun k hk => (ht k hk).userByte.symm
    have hlen : l.length < 2 ^ 64 := by
      have h1 : va + l.length < MAXVA := (ht l.length (by omega)).1
      have h2 : MAXVA < 2 ^ 64 := by decide
      omega
    obtain rfl : userString s p va = l := userChars_eq hu hlen
    refine ⟨⟨?_, (range_iff_held base_userVaToPa).1 ht⟩, hs⟩
    have hz := (strAt_iff).1 hu (userString s p va).length (by rw [chars_length]; omega)
    simpa [chars] using hz
  · intro ⟨⟨hz, hh⟩, hs⟩
    have ht := (range_iff_held (R := R) (w := false) base_userVaToPa).2 hh
    refine ⟨_, (userChars_strAt hz).congr fun k hk => (ht k hk).userByte, ht, hs⟩

theorem respects_wholeLoad (hb : Base pr va base) (hpr : s.proc p = pr) :
    Respects R W K p pr (loadBytes va base n >>= g) s ↔
      (Use.whole false va n).Ok R s p ∧ Respects R W K p pr (g (bytesAt (userByte s p) va n)) s := by
  subst hpr
  rw [respects_loadBytes, whole_ok]
  constructor
  · intro ⟨ht, hr⟩
    have he : bytesAt (userByte s p) va n = bytesAt s.mem base n := bytesAt_congr fun k hk => (ht k hk).userByte.symm
    rw [he]
    exact ⟨(range_iff_held hb).1 ht, hr⟩
  · intro ⟨hh, hr⟩
    have ht := (range_iff_held (w := false) hb).2 hh
    have he : bytesAt (userByte s p) va n = bytesAt s.mem base n := bytesAt_congr fun k hk => (ht k hk).userByte.symm
    rw [he] at hr
    exact ⟨ht, hr⟩

theorem respects_wholeStore (hb : Base pr va base) (hpr : s.proc p = pr) :
    Respects R W K p pr (storeBytes va base bs >>= t) s ↔
      (Use.whole true va bs.length).Ok R s p ∧ Respects R W K p pr (t ()) (put s base bs) := by
  subst hpr
  rw [respects_storeBytes, whole_ok, range_iff_held hb]

/-! ## The buffers of the calls -/

section Uses

variable (W : World) (s : St) (p : Slot)

def scanUses (buf : ℕ) : List Use :=
  match skipBlanks W.scanned (2 ^ 64) 0 with
  | .error _ => []
  | .ok pos =>
    let word := scanWord W.scanned pos
    [.whole true buf (if wordEnd (W.scanned (pos + word.length)) then word.length + 1 else word.length)]

def lineEnd (f : ℕ → UInt8) : (n i : ℕ) → ℕ
  | 0, i => i
  | n + 1, i => if newline (f i) then i else lineEnd f n (i + 1)

def lineOf (buf size k : ℕ) : UInt8 := (W.typed.take (room size)).getD k (userByte s p (buf + k))

def getsParts (buf size : ℕ) : List Part :=
  let i := lineEnd (lineOf W s p buf size) (room size) 0
  [⟨true, 0, (W.typed.take (room size)).length⟩, ⟨false, 0, i + 1⟩, ⟨true, i, if i + 1 < size then i + 2 else i + 1⟩]

def pageUses (use : (turn addr len : ℕ) → List Use) (res : (turn addr len : ℕ) → Res ℤ) (bufva count : ℕ) :
    (fuel turn : ℕ) → ℤ → List Use
  | 0, _, _ => []
  | fuel + 1, turn, i =>
    if u64 i < count then
      let a := chunk bufva count i
      use turn a.1 a.2 ++
        match res turn a.1 a.2 with
        | .error _ => []
        | .ok r => if u64 r < a.2 then [] else pageUses use res bufva count fuel (turn + 1) (int32 (i + r))
    else []

def readUse (fd : ℤ) (turn addr len : ℕ) : List Use :=
  match W.vfsRead fd turn with
  | .error _ => []
  | .ok (buffer, _) => [.whole true addr ((textOf buffer len).length + 1)]

def readResult (fd : ℤ) (turn _addr _len : ℕ) : Res ℤ := (·.2) <$> W.vfsRead fd turn

def writeUse (fd : ℤ) (turn addr len : ℕ) : List Use := [.whole false addr (min (W.taken fd turn) len)]

def writeResult (fd : ℤ) (turn addr len : ℕ) : Res ℤ :=
  W.vfsWrite fd turn (bytesAt (userByte s p) addr (min (W.taken fd turn) len))

def readdirUses (fd : ℤ) (vdir : ℕ) : List Use :=
  match W.vfsReaddir fd with
  | .error _ => []
  | .ok .nothing => []
  | .ok (.ram _ name) => [.bytes vdir [⟨true, MAX_FILE_NAME_LEN, MAX_FILE_NAME_LEN + 4⟩, ⟨true, 0, name.length + 1⟩]]
  | .ok (.host _ name) =>
    if userVaToPa (s.proc p) vdir = 0 then []
    else [.bytes vdir [⟨true, 0, (safeChars name MAX_FILE_NAME_LEN).length⟩,
      ⟨true, MAX_FILE_NAME_LEN, MAX_FILE_NAME_LEN + 4⟩]]

def pathLength (names : List CString) : ℕ := (names.map fun name => name.length + 1).sum

def rcwdUses (pathva : ℕ) : List Use :=
  match W.cwd with
  | none => []
  | some [] => [.whole true pathva 2]
  | some names => if MAX_PATH_LEN < names.length then [] else [.whole true pathva (pathLength names + 1)]

def execUses (va : ℕ) : List Use := if userVaToPa (s.proc p) va = 0 then [] else [.str va]

def frameUses : (depth fp ra : ℕ) → List Use
  | 0, _, _ => []
  | depth + 1, fp, ra =>
    match W.symbol ra with
    | some false =>
      let sb := (userWord s p fp + 2 ^ 64 - 8) % 2 ^ 64
      .whole false fp 8 :: .whole false sb 8 :: frameUses depth ((sb + 2 ^ 64 - 8) % 2 ^ 64) (userWord s p sb)
    | _ => []

def backtraceUses (depth : ℤ) : List Use :=
  if depth ≤ 0 then []
  else
    let fp := (W.sp + 32) % 2 ^ 64
    let ra := (fp + 8) % 2 ^ 64
    .whole false ra 8 :: frameUses W s p depth.toNat fp (userWord s p ra)

/-- the buffers of a call: from its arguments, from what it finds, and for strings and stack frames from the memory of
the process as the process sees it -/
def uses : Call → List Use
  | .print buf n =>
    if W.pipline.stdin_close then
      if W.pipline.buf_len < 0 ∧ 0 < W.pipline.moved n then [] else [.whole false buf (W.pipline.moved n)]
    else [.str buf]
  | .scanf buf => if W.pipline.stdout_close then [.whole true buf (W.pipline.word.length + 1)] else scanUses W buf
  | .gets buf size => [.bytes buf (getsParts W s p buf size)]
  | .read fd bufva count => pageUses (readUse W fd) (readResult W fd) bufva count W.turns 0 0
  | .write fd bufva count => pageUses (writeUse W fd) (writeResult W s p fd) bufva count W.turns 0 0
  | .stat fd istat =>
    match W.vfsStat fd with
    | .error _ => []
    | .ok st => [.whole true istat st.bytes.length]
  | .diskStat fd istat =>
    match W.vfsDiskStat fd with
    | .ok (some st) => [.whole true istat st.bytes.length]
    | _ => []
  | .readdir fd vdir => readdirUses W s p fd vdir
  | .open va _ | .opendir va | .mkdir va | .unlink va | .ccwd va => [.str va]
  | .link vfn1 vfn2 =>
    .str vfn1 :: match W.linkable (userString s p vfn1) with
      | .ok true => [.str vfn2]
      | _ => []
  | .exec command para => execUses s p command ++ execUses s p para ++ [.given command, .given para]
  | .rcwd pathva => rcwdUses W pathva
  | .printBacktrace depth => backtraceUses W s p depth

end Uses

/-! ## Call by call -/

variable {l : List Use} {u : Use}

abbrev AllOk (R : Rule) (s : St) (p : Slot) (l : List Use) : Prop := ∀ u ∈ l, u.Ok R s p

theorem allOk_nil : AllOk R s p [] := fun _ hu => absurd hu List.not_mem_nil

theorem allOk_cons : AllOk R s p (u :: l) ↔ u.Ok R s p ∧ AllOk R s p l := List.forall_mem_cons

theorem allOk_singleton : AllOk R s p [u] ↔ u.Ok R s p := List.forall_mem_singleton

theorem respects_print {n : ℕ} : Respects R W K p (s.proc p) (sysUserPrint W (s.proc p) va n) s ↔
    AllOk R s p (uses W s p (.print va n)) := by
  unfold sysUserPrint uses
  dsimp only
  split_ifs with h1 h2
  · exact iff_of_true respects_stop allOk_nil
  · rw [respects_wholeLoad base_userVaToPa rfl, allOk_singleton]
    exact and_iff_left respects_pure
  · rw [respects_userString, allOk_singleton]
    exact and_iff_left respects_pure

theorem respects_sscanf : Respects R W K p (s.proc p) (sscanf W va (userVaToPa (s.proc p) va)) s ↔
    AllOk R s p (scanUses W va) := by
  unfold sscanf scanUses
  rw [respects_ofRes]
  cases skipBlanks W.scanned (2 ^ 64) 0 with
  | error e => exact iff_of_true (fun b hb => by cases hb) allOk_nil
  | ok pos =>
    simp only [Except.ok.injEq, forall_eq']
    rw [respects_storeBytes, allOk_singleton, whole_ok, ← range_iff_held base_userVaToPa]
    split_ifs with he
    · have hlast : Respects R W K p (s.proc p)
          (do store (va + (scanWord W.scanned pos).length)
                (userVaToPa (s.proc p) va + (scanWord W.scanned pos).length) 0
              return (1 : ℤ)) (put s (userVaToPa (s.proc p) va) (scanWord W.scanned pos)) ↔
          Through R (s.proc p) true (va + (scanWord W.scanned pos).length)
            (userVaToPa (s.proc p) va + (scanWord W.scanned pos).length) :=
        (respects_store).trans (and_iff_left respects_pure)
      rw [hlast, Nat.forall_lt_succ_right]
    · exact and_iff_left respects_stop

theorem respects_scanf : Respects R W K p (s.proc p) (sysUserScanf W (s.proc p) va) s ↔
    AllOk R s p (uses W s p (.scanf va)) := by
  unfold sysUserScanf uses
  dsimp only
  split_ifs with h
  · grind [respects_wholeStore, base_userVaToPa, allOk_singleton, respects_ofRes, respects_pure]
  · rw [← respects_sscanf]
    exact respects_map (h := fun r => (W.pipline, r))

variable {i : ℕ}

theorem le_lineEnd {f : ℕ → UInt8} : i ≤ lineEnd f n i := by
  induction n generalizing i with
  | zero => exact Nat.le_refl i
  | succ n ih => grind [lineEnd]

theorem lineEnd_congr {f f' : ℕ → UInt8} (h : ∀ k, i ≤ k → k < lineEnd f n i + 1 → f' k = f k) :
    lineEnd f' n i = lineEnd f n i := by
  induction n generalizing i with
  | zero => rfl
  | succ n ih => grind [le_lineEnd, lineEnd]

theorem forall_one {Q : ℕ → Prop} : (∀ k, i ≤ k → k < i + 1 → Q k) ↔ Q i := by
  grind

theorem respects_findNewline {h : ℕ → P α} : Respects R W K p pr (findNewline va pa n i >>= h) s ↔
    (∀ k, i ≤ k → k < lineEnd (fun k => s.mem (pa + k)) n i + 1 → Through R pr false (va + k) (pa + k)) ∧
      Respects R W K p pr (h (lineEnd (fun k => s.mem (pa + k)) n i)) s := by
  induction n generalizing i with
  | zero =>
    rw [findNewline, prog_bind_assoc, respects_load, lineEnd, forall_one]
    exact Iff.rfl
  | succ n ih =>
    rw [findNewline, prog_bind_assoc, respects_load, lineEnd]
    split_ifs with hb
    · rw [forall_one]
      exact Iff.rfl
    · rw [ih, ← and_assoc]
      grind [le_lineEnd]

variable {size : ℕ}

theorem put_eq_lineOf (ht : Through R (s.proc p) w (va + k) (base + k)) :
    (put s base (W.typed.take (room size))).mem (base + k) = lineOf W s p va size k := by
  simp only [put, lineOf, List.getD_eq_getElem?_getD]
  by_cases hk : k < (W.typed.take (room size)).length
  · rw [storeList_get hk, List.getElem?_eq_getElem hk, Option.getD_some]
  · rw [storeList_of_out (by omega), List.getElem?_eq_none (by omega), Option.getD_none]
    exact ht.userByte

theorem respects_lineZeros {s' : St} : Respects R W K p pr (do
      store (va + i) (base + i) 0
      if i + 1 < size then store (va + (i + 1)) (base + (i + 1)) 0
      return int32 i) s' ↔
    ∀ k, i ≤ k → k < (if i + 1 < size then i + 2 else i + 1) → Through R pr true (va + k) (base + k) := by
  rw [respects_store]
  split_ifs with h
  · rw [respects_store, ← and_assoc, and_iff_left respects_pure]
    refine ⟨fun ht k hk hk' => ?_, fun ht => ⟨ht i (by omega) (by omega), ht (i + 1) (by omega) (by omega)⟩⟩
    grind
  · rw [forall_one]
    exact and_iff_left respects_pure

theorem getsParts_ok : (Use.bytes va (getsParts W s p va size)).Ok R s p ↔
    (∀ k < (W.typed.take (room size)).length, Held R (s.proc p) true va k) ∧
      (∀ k < lineEnd (lineOf W s p va size) (room size) 0 + 1, Held R (s.proc p) false va k) ∧
      ∀ k, lineEnd (lineOf W s p va size) (room size) 0 ≤ k →
        k < (if lineEnd (lineOf W s p va size) (room size) 0 + 1 < size
          then lineEnd (lineOf W s p va size) (room size) 0 + 2 else lineEnd (lineOf W s p va size) (room size) 0 + 1) →
        Held R (s.proc p) true va k := by
  simp only [Use.Ok, getsParts, List.forall_mem_cons, Nat.zero_le, forall_true_left]
  refine and_congr_right fun _ => and_congr_right fun _ => and_iff_left ?_
  exact fun _ hx => absurd hx List.not_mem_nil

theorem respects_gets : Respects R W K p (s.proc p) (sysUserGets W (s.proc p) va size) s ↔
    AllOk R s p (uses W s p (.gets va size)) := by
  unfold sysUserGets getstring uses
  rw [allOk_singleton, getsParts_ok]
  have hb : Base (s.proc p) va (userVaToPa (s.proc p) va) := base_userVaToPa
  generalize userVaToPa (s.proc p) va = base at hb
  rw [respects_storeBytes, respects_findNewline, respects_lineZeros]
  simp only [Nat.zero_le, forall_true_left]
  by_cases h0 : lookupPa (s.proc p) va = 0
  · refine iff_of_false (fun h => ?_) fun h => (h.2.1 0 (Nat.succ_pos _)).1 h0
    exact hb.mapped_of_through (h.2.1 0 (Nat.succ_pos _)) h0
  · simp only [through_iff_held hb h0]
    constructor
    · intro ⟨h1, h2, h3⟩
      have he : lineEnd (lineOf W s p va size) (room size) 0 = _ :=
        lineEnd_congr fun k _ hk => (put_eq_lineOf ((through_iff_held hb h0).2 (h2 k hk))).symm
      rw [he]
      exact ⟨h1, h2, h3⟩
    · intro ⟨h1, h2, h3⟩
      have he : lineEnd (fun k => (put s base (W.typed.take (room size))).mem (base + k)) (room size) 0 = _ :=
        lineEnd_congr fun k _ hk => put_eq_lineOf ((through_iff_held hb h0).2 (h2 k hk))
      rw [he]
      exact ⟨h1, h2, h3⟩

theorem respects_onPath {f : CString → Res ℤ} :
    Respects R W K p (s.proc p) (onPath (s.proc p) f va) s ↔ (Use.str va).Ok R s p := by
  unfold onPath
  rw [respects_userString]
  exact and_iff_left respects_ofRes_end

theorem respects_link {vb : ℕ} : Respects R W K p (s.proc p) (sysUserLink W (s.proc p) va vb) s ↔
    AllOk R s p (uses W s p (.link va vb)) := by
  unfold sysUserLink uses
  rw [respects_userString, allOk_cons, respects_ofRes]
  refine and_congr_right fun _ => ?_
  cases W.linkable (userString s p va) with
  | error e => exact iff_of_true (fun b hb => by cases hb) allOk_nil
  | ok b =>
    simp only [Except.ok.injEq, forall_eq']
    cases b with
    | false => exact iff_of_true respects_pure allOk_nil
    | true =>
      rw [allOk_singleton]
      exact (respects_userString).trans (and_iff_left respects_ofRes_end)

theorem allOk_append {l l' : List Use} : AllOk R s p (l ++ l') ↔ AllOk R s p l ∧ AllOk R s p l' :=
  List.forall_mem_append

theorem respects_stringOrEmpty : Respects R W K p (s.proc p) (stringOrEmpty va (userVaToPa (s.proc p) va) >>= str) s ↔
      AllOk R s p (execUses s p va) ∧
        Respects R W K p (s.proc p) (str (if userVaToPa (s.proc p) va = 0 then [] else userString s p va)) s := by
  unfold stringOrEmpty execUses
  split_ifs with h
  · exact (and_iff_right allOk_nil).symm
  · rw [respects_userString, allOk_singleton]
    exact Iff.rfl

theorem respects_exec {vb : ℕ} : Respects R W K p (s.proc p) (sysUserExec (s.proc p) va vb) s ↔
    AllOk R s p (uses W s p (.exec va vb)) := by
  unfold sysUserExec uses
  rw [respects_stringOrEmpty, respects_stringOrEmpty, allOk_append, allOk_append, allOk_cons,
    allOk_singleton, ← and_assoc]
  refine and_congr_right fun _ => respects_call.trans (and_iff_left fun r s' _ => respects_pure)

theorem respects_pageLoop {io : (turn va pa len : ℕ) → P ℤ} {use : (turn addr len : ℕ) → List Use}
    {res : (turn addr len : ℕ) → Res ℤ} {I : St → Prop} {bufva count turn : ℕ} {i : ℤ} {s' : St}
    (hio : ∀ turn addr len s' (h : ℤ → P ℤ) (Q : ℤ → Prop),
      I s' → (∀ r s1, I s1 → (Respects R W K p pr (h r) s1 ↔ Q r)) →
      (Respects R W K p pr (io turn addr (lookupPa pr addr * PGSIZE + addr % PGSIZE) len >>= h) s' ↔
        AllOk R s p (use turn addr len) ∧ ∀ r, res turn addr len = .ok r → Q r))
    (hI : I s') :
    Respects R W K p pr (pageLoop pr io bufva count fuel turn i) s' ↔
      AllOk R s p (pageUses use res bufva count fuel turn i) := by
  induction fuel generalizing turn i s' with
  | zero => exact iff_of_true respects_stop allOk_nil
  | succ fuel ih =>
    rw [pageLoop, pageUses]
    by_cases hi : u64 i < count
    · rw [if_pos hi, if_pos hi, allOk_append]
      refine (hio turn _ _ s' _ (fun r => AllOk R s p (if u64 r < (chunk bufva count i).2 then []
        else pageUses use res bufva count fuel (turn + 1) (int32 (i + r)))) hI fun r s1 h1 =>
          ?_).trans (and_congr_right fun _ => ?_)
      · split_ifs
        · exact iff_of_true respects_pure allOk_nil
        · exact ih h1
      · grind
    · rw [if_neg hi, if_neg hi]
      exact iff_of_true respects_pure allOk_nil

variable {fd : ℤ}

theorem respects_doRead {turn addr len : ℕ} {s' : St} {h : ℤ → P ℤ} {Q : ℤ → Prop} (hI : s'.proc p = s.proc p)
    (hh : ∀ r s1, s1.proc p = s.proc p → (Respects R W K p (s.proc p) (h r) s1 ↔ Q r)) :
    Respects R W K p (s.proc p)
        (doRead W fd turn addr (lookupPa (s.proc p) addr * PGSIZE + addr % PGSIZE) len >>= h) s' ↔
      AllOk R s p (readUse W fd turn addr len) ∧ ∀ r, readResult W fd turn addr len = .ok r → Q r := by
  unfold doRead readUse readResult
  rw [prog_bind_assoc, respects_ofRes]
  cases W.vfsRead fd turn with
  | error e => exact iff_of_true (fun b hb => by cases hb) ⟨allOk_nil, fun r hr => by cases hr⟩
  | ok b =>
    simp only [Except.ok.injEq, forall_eq', prog_bind_assoc, prog_pure_bind, Except.map_ok]
    rw [respects_wholeStore base_lookupPa hI, allOk_singleton, whole_ok, whole_ok, hI, List.length_append,
      List.length_singleton]
    refine and_congr_right fun _ => ?_
    exact hh b.2 _ hI

theorem respects_read {count : ℕ} : Respects R W K p (s.proc p) (sysUserRead W (s.proc p) fd va count) s ↔
    AllOk R s p (uses W s p (.read fd va count)) :=
  respects_pageLoop (I := fun s' => s'.proc p = s.proc p) (fun _ _ _ _ _ _ hI hh => respects_doRead hI hh) rfl

theorem respects_write {count : ℕ} : Respects R W K p (s.proc p) (sysUserWrite W (s.proc p) fd va count) s ↔
    AllOk R s p (uses W s p (.write fd va count)) := by
  refine respects_pageLoop (I := fun s' => s' = s) (fun turn addr len s' h Q hI hh => ?_) rfl
  unfold doWrite writeUse writeResult
  grind [prog_bind_assoc, respects_wholeLoad, base_lookupPa, allOk_singleton, respects_ofRes]

theorem respects_stat : Respects R W K p (s.proc p) (sysUserStat W (s.proc p) fd va) s ↔
    AllOk R s p (uses W s p (.stat fd va)) := by
  rw [sysUserStat, uses, respects_ofRes]
  cases W.vfsStat fd with
  | error e => exact iff_of_true (fun b hb => by cases hb) allOk_nil
  | ok st => grind [respects_wholeStore, base_userVaToPa, allOk_singleton, respects_pure]

theorem respects_diskStat : Respects R W K p (s.proc p) (sysUserDiskStat W (s.proc p) fd va) s ↔
    AllOk R s p (uses W s p (.diskStat fd va)) := by
  rw [sysUserDiskStat, uses, respects_ofRes]
  cases W.vfsDiskStat fd with
  | error e => exact iff_of_true (fun b hb => by cases hb) allOk_nil
  | ok o => grind [respects_pure, allOk_nil, respects_wholeStore, base_userVaToPa, allOk_singleton]

theorem intBytes_length {v : ℤ} : (intBytes v).length = 4 := by simp [intBytes]

theorem range_at {lo : ℕ} : (∀ k < n, Through R pr w (va + lo + k) (base + lo + k)) ↔
    ∀ k, lo ≤ k → k < lo + n → Through R pr w (va + k) (base + k) := by
  constructor
  · intro h k hk hk'
    have := h (k - lo) (by omega)
    grind
  · intro h k hk
    have := h (lo + k) (by omega) (by omega)
    rwa [← Nat.add_assoc, ← Nat.add_assoc] at this

theorem respects_dir (hb : Base (s.proc p) va base) (hn : 0 < n) :
    (∀ k < n, Through R (s.proc p) true (va + k) (base + k)) ∧
        (∀ k < 4, Through R (s.proc p) true (va + MAX_FILE_NAME_LEN + k) (base + MAX_FILE_NAME_LEN + k)) ↔
      (Use.bytes va [⟨true, 0, n⟩, ⟨true, MAX_FILE_NAME_LEN, MAX_FILE_NAME_LEN + 4⟩]).Ok R s p := by
  rw [range_at]
  simp only [Use.Ok, List.forall_mem_cons, Nat.zero_le, forall_true_left]
  by_cases h0 : lookupPa (s.proc p) va = 0
  · refine iff_of_false (fun h => ?_) fun h => (h.1 0 hn).1 h0
    exact hb.mapped_of_through (h.1 0 hn) h0
  · grind [through_iff_held]

theorem bytes_swap {x y : Part} : (Use.bytes va [x, y]).Ok R s p ↔ (Use.bytes va [y, x]).Ok R s p := by
  simp only [Use.Ok, List.forall_mem_cons]
  tauto

variable {l name : CString}

theorem safeChars_pos : 0 < (safeChars name MAX_FILE_NAME_LEN).length := by
  simp [safeChars]

theorem respects_readdir : Respects R W K p (s.proc p) (sysUserReaddir W (s.proc p) fd va) s ↔
    AllOk R s p (uses W s p (.readdir fd va)) := by
  rw [sysUserReaddir, uses, readdirUses, respects_ofRes]
  cases W.vfsReaddir fd with
  | error e => exact iff_of_true (fun b hb => by cases hb) allOk_nil
  | ok o =>
    simp only [Except.ok.injEq, forall_eq']
    cases o with
    | nothing => exact iff_of_true respects_pure allOk_nil
    | ram inum name =>
      rw [respects_storeBytes, storeString, respects_storeBytes, allOk_singleton, bytes_swap,
        ← respects_dir base_userVaToPa (Nat.succ_pos _), intBytes_length, chars_length, ← and_assoc,
          and_iff_left respects_pure]
      exact and_comm
    | host inum name =>
      split_ifs with h0
      · exact iff_of_true respects_pure allOk_nil
      · rw [respects_storeBytes, respects_storeBytes, allOk_singleton, ← respects_dir base_userVaToPa safeChars_pos,
          intBytes_length, ← and_assoc, and_iff_left respects_pure]

/-! ### Paths that are put together in user memory -/

theorem storeList_strAt (hl : StrAt mem pa l) :
    StrAt (storeList mem (pa + l.length) (chars name)) pa (l ++ name) := by
  induction l generalizing pa with
  | nil => exact (strAt_iff).2 fun k hk => storeList_get hk
  | cons c l ih =>
    refine ⟨?_, ?_⟩
    · rw [storeList_of_out (by rw [List.length_cons]; omega)]
      exact hl.1
    · rw [List.length_cons, Nat.add_comm l.length 1, ← Nat.add_assoc]
      exact ih hl.2

abbrev Writable (R : Rule) (pr : Proc) (va pa n : ℕ) : Prop := ∀ k < n + 1, Through R pr true (va + k) (pa + k)

theorem respects_strcat (hl : StrAt s.mem pa l) (ht : Writable R pr va pa l.length) :
    Respects R W K p pr (strcat va pa name >>= t) s ↔
      Writable R pr va pa (l.length + name.length) ∧
        Respects R W K p pr (t ()) (put s (pa + l.length) (chars name)) := by
  rw [strcat, prog_bind_assoc, respects_loadString]
  have hstore : Respects R W K p pr (storeString (va + l.length) (pa + l.length) name >>= t) s ↔
      Writable R pr va pa (l.length + name.length) ∧
        Respects R W K p pr (t ()) (put s (pa + l.length) (chars name)) := by
    rw [storeString, respects_storeBytes, range_at, chars_length]
    refine and_congr_left fun _ => ⟨fun h k hk => ?_, fun h k hk hk' => h k (by omega)⟩
    grind
  rw [← hstore]
  constructor
  · intro ⟨l', hl', _, hs⟩
    obtain rfl : l = l' := hl.unique hl'
    exact hs
  · intro hs
    exact ⟨l, hl, fun k hk => (ht k hk).load, hs⟩

theorem respects_appendName (name : CString) (hl : StrAt s.mem pa l) (ht : Writable R pr va pa l.length) :
    ∃ s', StrAt s'.mem pa (l ++ slashes ++ name) ∧
      (Respects R W K p pr (strcat va pa slashes >>= fun _ => strcat va pa name >>= t) s ↔
        Writable R pr va pa (l ++ slashes ++ name).length ∧ Respects R W K p pr (t ()) s') := by
  have hl1 : StrAt (put s (pa + l.length) (chars slashes)).mem pa (l ++ slashes) := storeList_strAt hl
  refine ⟨put (put s (pa + l.length) (chars slashes)) (pa + (l ++ slashes).length) (chars name),
    storeList_strAt hl1, ?_⟩
  rw [respects_strcat hl ht, ← List.length_append]
  constructor
  · intro ⟨ht1, h⟩
    rw [respects_strcat hl1 ht1, ← List.length_append] at h
    exact h
  · intro ⟨ht2, h⟩
    grind [respects_strcat]

theorem respects_appendNames {names : List CString} (hl : StrAt s.mem pa l) (ht : Writable R pr va pa l.length)
    (hend : ∀ s' l', StrAt s'.mem pa l' → l.length + pathLength names = l'.length → Respects R W K p pr (t ()) s') :
    Respects R W K p pr (appendNames va pa names >>= t) s ↔ Writable R pr va pa (l.length + pathLength names) := by
  induction names generalizing l s with
  | nil => exact iff_of_true (hend s l hl rfl) ht
  | cons name names ih =>
    have hlen : l.length + pathLength (name :: names) = (l ++ slashes ++ name).length + pathLength names := by
      grind [pathLength, slashes]
    simp only [appendNames, prog_bind_assoc]
    obtain ⟨s', hs', hiff⟩ :=
      respects_appendName (W := W) (K := K) (p := p) (t := fun _ => appendNames va pa names >>= t)
      name hl ht
    grind

theorem respects_rcwd : Respects R W K p (s.proc p) (sysUserRcwd W (s.proc p) va) s ↔
    AllOk R s p (uses W s p (.rcwd va)) := by
  rw [sysUserRcwd, uses, doRcwd, rcwdUses]
  have hb : Base (s.proc p) va (userVaToPa (s.proc p) va) := base_userVaToPa
  generalize userVaToPa (s.proc p) va = base at hb
  cases W.cwd with
  | none => exact iff_of_true respects_pure allOk_nil
  | some names =>
    cases names with
    | nil =>
      rw [storeString, respects_wholeStore hb rfl, allOk_singleton, chars_length]
      exact and_iff_left respects_pure
    | cons name names =>
      dsimp only
      split_ifs with hm
      · exact iff_of_true respects_stop allOk_nil
      · rw [respects_store, allOk_singleton, whole_ok, ← range_iff_held hb]
        -- behind the loop the first byte is a slash
        have hloop : Through R (s.proc p) true va base →
            (Respects R W K p (s.proc p) (do
              appendNames va base (name :: names)
              if (← load va base) = 0 then storeString va base slashes
              return (0 : ℤ)) { s with mem := update s.mem base 0 } ↔
              Writable R (s.proc p) va base (pathLength (name :: names))) := by
          intro h0
          rw [← Nat.zero_add (pathLength _)]
          refine respects_appendNames (l := []) (update_self _ _ _) ((forall_lt_succ_shift).2 ⟨h0, fun k hk => ?_⟩) ?_
          · exact absurd hk (Nat.not_lt_zero k)
          · intro s' l' hl' hlen
            cases l' with
            | nil => simp [pathLength] at hlen
            | cons c l' =>
              have hc : s'.mem base ≠ 0 := by
                rw [hl'.1]
                exact c.2
              refine (respects_load).2 ⟨h0.load, ?_⟩
              rw [if_neg hc]
              exact respects_pure
        constructor
        · intro ⟨h0, h⟩
          exact (hloop h0).1 h
        · intro h
          have h0 : Through R (s.proc p) true va base := h 0 (Nat.succ_pos _)
          exact ⟨h0, (hloop h0).2 h⟩

/-! ### Stack frames -/

theorem respects_loadWord {h : ℕ → P α} : Respects R W K p (s.proc p) (loadWord (s.proc p) va >>= h) s ↔
    (Use.whole false va 8).Ok R s p ∧ Respects R W K p (s.proc p) (h (userWord s p va)) s := by
  simp only [loadWord, prog_map, prog_bind_assoc, prog_pure_bind]
  exact respects_wholeLoad base_userVaToPa rfl

theorem respects_frames {depth fp ra : ℕ} : Respects R W K p (s.proc p) (backtraceLoop W (s.proc p) depth fp ra) s ↔
    AllOk R s p (frameUses W s p depth fp ra) := by
  induction depth generalizing fp ra with
  | zero => exact iff_of_true respects_pure allOk_nil
  | succ depth ih =>
    rw [backtraceLoop, frameUses]
    cases W.symbol ra with
    | none => exact iff_of_true respects_pure allOk_nil
    | some main =>
      cases main with
      | true => exact iff_of_true respects_pure allOk_nil
      | false =>
        rw [respects_loadWord, respects_loadWord, ih, allOk_cons, allOk_cons]

theorem respects_backtrace {depth : ℤ} : Respects R W K p (s.proc p) (sysUserPrintBacktrace W (s.proc p) depth) s ↔
      AllOk R s p (uses W s p (.printBacktrace depth)) := by
  rw [sysUserPrintBacktrace, uses, backtraceUses]
  split_ifs
  · exact iff_of_true respects_pure allOk_nil
  · dsimp only
    rw [respects_loadWord, respects_frames, allOk_cons]

/-- **Accesses and buffers.** Every access of a call is one that the rule allows exactly if all buffers of the call are
in order. -/
theorem respects_iff {c : Call} :
    Respects R W K p (s.proc p) (doSyscall W (s.proc p) c) s ↔ AllOk R s p (uses W s p c) := by
  cases c with
  | print buf n => exact respects_print
  | scanf buf => exact respects_scanf
  | gets buf size => exact (respects_map).trans respects_gets
  | «open» va flags => exact (respects_map).trans ((respects_onPath).trans (allOk_singleton).symm)
  | read fd va count => exact (respects_map).trans respects_read
  | write fd va count => exact (respects_map).trans respects_write
  | stat fd va => exact (respects_map).trans respects_stat
  | diskStat fd va => exact (respects_map).trans respects_diskStat
  | opendir va => exact (respects_map).trans ((respects_onPath).trans (allOk_singleton).symm)
  | readdir fd va => exact (respects_map).trans respects_readdir
  | mkdir va => exact (respects_map).trans ((respects_onPath).trans (allOk_singleton).symm)
  | link va vb => exact (respects_map).trans respects_link
  | unlink va => exact (respects_map).trans ((respects_onPath).trans (allOk_singleton).symm)
  | exec va vb => exact (respects_map).trans respects_exec
  | rcwd va => exact (respects_map).trans respects_rcwd
  | ccwd va => exact (respects_map).trans ((respects_onPath).trans (allOk_singleton).symm)
  | printBacktrace depth => exact (respects_map).trans respects_backtrace

/-! ## User pointers -/

/-- PTE_U, and PTE_W for a write; a pointer that is acted upon is mapped -/
def userRule : Rule where
  may w e := e.u = true ∧ (w = true → e.w = true)
  may_load _ h := ⟨h.1, fun hw => by cases hw⟩
  given pr va := lookupPa pr va ≠ 0

def quiet : World where
  pipline := .zeroed
  doOpen _ _ := .ok 0
  doOpendir _ := .ok 0
  doMkdir _ := .ok 0
  doUnlink _ := .ok 0
  doCcwd _ := .ok 0
  linkable _ := .ok true
  doLink _ _ := .ok 0
  vfsRead _ _ := .ok (fun _ => 0, 0)
  taken _ _ := 0
  vfsWrite _ _ _ := .ok 0
  vfsStat _ := .ok ⟨0, 0, 0, 0, 0⟩
  vfsDiskStat _ := .ok none
  vfsReaddir _ := .ok .nothing
  cwd := some []
  scanned _ := 0
  typed := []
  symbol _ := none
  elf _ := .ok []
  sp := USER_STACK_TOP
  turns := 1

def trapframe : ℕ := 0x8014f * PGSIZE

end RiscvPke.Syscall
