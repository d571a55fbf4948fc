/-
Writing files by their bytes (kernel/rfs.c: `rfs_write`).
-/
import RiscvPke.Fs.Contents

namespace RiscvPke.Splice

open CData Function Run RiscvPke.System RiscvPke.Fs RiscvPke.Contents

variable {s s' s0 : St} {v i k n x o : ℕ} {V V0 : Vinode} {c : ℕ → UInt8} {io : Buf} {d : List UInt8}

/-! ## A file on the disk -/

def freeCount (s : St) : ℕ := ((Finset.range NBLOCKS).filter fun b => s.used b = false).card

/-- a file that is within its blocks, which belong to it -/
structure FileAt (s : St) (v : ℕ) (V : Vinode) : Prop where
  vinode : s.vinodes v = some V
  size : V.size ≤ RFS_BLKSIZE * V.blocks
  blocks : 0 ≤ V.blocks ∧ V.blocks ≤ DIRECT_BLKNUM
  addrs : ∀ i : ℕ, (i : ℤ) < V.blocks → ∃ b < NBLOCKS, V.addrs (Fin.ofNat 10 i) = 12 + (b : ℕ) ∧ s.used b = true
  distinct : ∀ i j : ℕ, (i : ℤ) < V.blocks → (j : ℤ) < V.blocks →
    V.addrs (Fin.ofNat 10 i) = V.addrs (Fin.ofNat 10 j) → i = j

/-- the block belongs to another file -/
def Foreign (s : St) (V : Vinode) (b : ℕ) : Prop :=
  s.used b = true ∧ ∀ i : ℕ, (i : ℤ) < V.blocks → V.addrs (Fin.ofNat 10 i) ≠ 12 + (b : ℕ)

/-- a file during a write that began in `s0`: `n` blocks with the bytes `c`, and the bytes `io` in the buffer -/
structure Holds (s0 : St) (V0 : Vinode) (v n : ℕ) (c : ℕ → UInt8) (io : Buf) (s : St) (V : Vinode) : Prop where
  file : FileAt s v V
  same : { V with blocks := V0.blocks, addrs := V0.addrs } = V0
  blocks : V.blocks = n
  bytes : ∀ x < 4096 * n, byteAt s V.toDinode x = c x
  io : ∀ y < 4096, s.iobuffer y = io y
  foreign : ∀ b < NBLOCKS, Foreign s0 V0 b → Foreign s V b ∧ s.blocks (12 + b) = s0.blocks (12 + b)
  free : freeCount s + n = freeCount s0 + V0.blocks.toNat

theorem FileAt.holds (h : FileAt s v V) : Holds s V v V.blocks.toNat (byteAt s V.toDinode) s.iobuffer s V where
  file := h
  same := rfl
  blocks := (Int.toNat_of_nonneg h.blocks.1).symm
  bytes _ _ := rfl
  io _ _ := rfl
  foreign _ _ hb := ⟨hb, rfl⟩
  free := rfl

def noBlock : Fault := .stop (.panic "rfs_alloc_block: no more free block!\n")

def Outcome {α : Type} (t need : ℕ) (r : Except Fault (α × St)) (Q : α → St → Vinode → Prop) : Prop :=
  if t < need then r = .error noBlock else ∃ a s' V', r = .ok (a, s') ∧ Q a s' V'

theorem Outcome.bind {α β : Type} {t m : ℕ} {x : F α} {f : α → F β} {P : α → St → Vinode → Prop}
    {Q : β → St → Vinode → Prop}
    (hx : Outcome t n (x s) P) (hn : n ≤ m) (hf : ∀ a s' V', P a s' V' → Outcome t m (f a s') Q) :
    Outcome t m ((x >>= f) s) Q := by
  unfold Outcome at hx
  split_ifs at hx with h
  · exact (if_pos (h.trans_le hn)).mpr (run_bind_error.2 (.inl hx))
  · obtain ⟨a, s', V', hrun, hP⟩ := hx
    rw [run_step hrun]
    exact hf a s' V' hP

theorem Outcome.of_ok {α : Type} {t : ℕ} {r : Except Fault (α × St)} {Q : α → St → Vinode → Prop} {a : α} (hn : n ≤ t)
    (h : r = .ok (a, s')) (hQ : Q a s' V) : Outcome t n r Q :=
  (if_neg (not_lt.2 hn)).mpr ⟨a, s', V, h, hQ⟩

theorem Outcome.mono {α : Type} {t : ℕ} {r : Except Fault (α × St)} {P Q : α → St → Vinode → Prop} (h : Outcome t n r P)
    (hPQ : ∀ a s' V', P a s' V' → Q a s' V') : Outcome t n r Q := by
  unfold Outcome at h ⊢
  split_ifs at h ⊢
  · exact h
  · obtain ⟨a, s', V', hrun, hP⟩ := h
    exact ⟨a, s', V', hrun, hPQ a s' V' hP⟩

theorem rfsAllocBlock_run : freeCount s = 0 ∧ rfsAllocBlock s = .error noBlock ∨ ∃ b < NBLOCKS, s.used b = false ∧
    rfsAllocBlock s = .ok (12 + (b : ℤ), { s with used := update s.used b true }) ∧
      freeCount { s with used := update s.used b true } + 1 = freeCount s := by
  unfold rfsAllocBlock
  rw [run_get_bind]
  simp only [NBLOCKS]
  cases hfind : (List.range 100).find? fun block => !s.used block with
  | none =>
    refine .inl ⟨Finset.card_eq_zero.2 (Finset.filter_eq_empty_iff.2 fun b hb hfree => ?_), rfl⟩
    have := List.find?_eq_none.1 hfind b (List.mem_range.2 (Finset.mem_range.1 hb))
    simp [hfree] at this
  | some b =>
    have hb := List.mem_range.1 (List.mem_of_find?_eq_some hfind)
    have hused : s.used b = false := by simpa using List.find?_some hfind
    refine .inr ⟨b, hb, hused, rfl, ?_⟩
    have herase : (Finset.range 100).filter (fun x => update s.used b true x = false) =
        ((Finset.range 100).filter fun x => s.used x = false).erase b := by
      ext x
      simp only [Finset.mem_filter, Finset.mem_erase]
      grind
    unfold freeCount
    simp only [herase]
    exact Finset.card_erase_add_one (Finset.mem_filter.2 ⟨Finset.mem_range.2 hb, hused⟩)

theorem data_block_lt {b : ℕ} (h : b < NBLOCKS) : 12 + b < RAMDISK_BLOCK_COUNT :=
  (Nat.add_lt_add_left h 12).trans (by decide)

theorem Holds.put (h : Holds s0 V0 v n c io s V) (hi : i < n) {b : Buf} (hb : ∀ y < 4096, s.iobuffer y = b y) :
    ∃ s', ramdiskWrite (V.addrs (Fin.ofNat 10 i)) s = .ok ((), s') ∧
      Holds s0 V0 v n (fun x => if x / 4096 = i then b (x % 4096) else c x) b s' V := by
  have hblocks := h.blocks
  obtain ⟨e, he, haddr, hused⟩ := h.file.addrs i (by omega)
  have hrun := ramdiskWrite_run (s := s) (k := 12 + e) (data_block_lt he)
  refine ⟨{ s with blocks := update s.blocks (12 + e) (copyBlock (s.blocks (12 + e)) s.iobuffer) },
    by rw [haddr]; exact hrun,
    ⟨{ h.file with }, h.same, h.blocks, ?_, hb, ?_, h.free⟩⟩
  · intro x hx
    obtain ⟨e', he', haddr', -⟩ := h.file.addrs (x / 4096) (by omega)
    have hbyte : ∀ t : St, byteAt t V.toDinode x = t.blocks (12 + e') (x % 4096) := fun t => by rw [byteAt, haddr']; rfl
    rw [hbyte]
    show update s.blocks (12 + e) _ (12 + e') _ = _
    split_ifs with hxi
    · rw [hxi, haddr] at haddr'
      obtain rfl : e = e' := by omega
      rw [update_self, copyBlock_of_lt (Nat.mod_lt _ (by decide)), hb _ (Nat.mod_lt _ (by decide))]
    · have hne : e' ≠ e := fun hee => hxi (h.file.distinct _ _ (by omega) (by omega) (by rw [haddr, haddr', hee]))
      rw [update_of_ne (by omega), ← hbyte, h.bytes x hx]
  · intro b' hb' hforeign
    obtain ⟨hf, hsame⟩ := h.foreign b' hb' hforeign
    have hne := hf.2 i (by omega)
    exact ⟨hf, (update_of_ne (by omega) _ _).trans hsame⟩

theorem Holds.buffer (h : Holds s0 V0 v n c io s V) (b : Buf) : Holds s0 V0 v n c b (s.io b) V :=
  { h with file := { h.file with }, io := fun _ _ => rfl }

theorem Holds.congr {c' : ℕ → UInt8} {io' : Buf} (h : Holds s0 V0 v n c io s V) (hc : ∀ x < 4096 * n, c x = c' x)
    (hio : ∀ y < 4096, io y = io' y) : Holds s0 V0 v n c' io' s V :=
  { h with bytes := fun x hx => (h.bytes x hx).trans (hc x hx), io := fun y hy => (h.io y hy).trans (hio y hy) }

theorem Holds.grow (h : Holds s0 V0 v n c io s V) (hn : n < 10) {b : ℕ} (hb : b < NBLOCKS) (hused : s.used b = false)
    (hfree : freeCount { s with used := update s.used b true } + 1 = freeCount s) :
    ∃ c' V', Holds s0 V0 v (n + 1) c' io
      { s with used := update s.used b true, vinodes := update s.vinodes v (some V') } V' ∧
      V' = { V with addrs := update V.addrs (Fin.ofNat 10 n) (12 + (b : ℤ)), blocks := V.blocks + 1 } ∧
      ∀ x < 4096 * n, c' x = c x := by
  have hblocks := h.blocks
  let V' : Vinode := { V with addrs := update V.addrs (Fin.ofNat 10 n) (12 + (b : ℤ)), blocks := V.blocks + 1 }
  have hold : ∀ j < n, V'.addrs (Fin.ofNat 10 j) = V.addrs (Fin.ofNat 10 j) := by
    intro j hj
    refine update_of_ne (fun he => ?_) _ _
    have := congrArg Fin.val he
    simp only [Fin.val_ofNat] at this
    omega
  have hnew : V'.addrs (Fin.ofNat 10 n) = 12 + (b : ℤ) := update_self _ _ _
  -- the new block was free, so it is none of those the file has
  have hmine : ∀ j < n, ∃ e < 100, V'.addrs (Fin.ofNat 10 j) = 12 + (e : ℕ) ∧ s.used e = true ∧ e ≠ b := by
    intro j hj
    obtain ⟨e, he, haddr, hue⟩ := h.file.addrs j (by omega)
    exact ⟨e, he, (hold j hj).trans haddr, hue, fun heb => by simp [heb, hused] at hue⟩
  have hlt : ∀ j : ℕ, (j : ℤ) < V'.blocks → j < n ∨ j = n := by
    intro j hj
    have hj : (j : ℤ) < V.blocks + 1 := hj
    omega
  refine ⟨byteAt { s with used := update s.used b true, vinodes := update s.vinodes v (some V') } V'.toDinode, V',
    ⟨⟨update_self _ _ _, ?_, ?_, ?_, ?_⟩, h.same, ?_, fun _ _ => rfl, h.io, ?_, ?_⟩, rfl, ?_⟩
  · have hsize : V.size ≤ 4096 * V.blocks := h.file.size
    show V.size ≤ 4096 * (V.blocks + 1)
    omega
  · show 0 ≤ V.blocks + 1 ∧ V.blocks + 1 ≤ 10
    omega
  · intro j hj
    rcases hlt j hj with hj | rfl
    · obtain ⟨e, he, haddr, hue, hne⟩ := hmine j hj
      exact ⟨e, he, haddr, (update_of_ne hne _ _).trans hue⟩
    · exact ⟨b, hb, hnew, update_self _ _ _⟩
  · intro j j' hj hj' he
    rcases hlt j hj with hj | rfl <;> rcases hlt j' hj' with hj' | rfl
    · exact h.file.distinct j j' (by omega) (by omega) (by rw [← hold j hj, ← hold j' hj', he])
    · obtain ⟨e, -, haddr, -, hne⟩ := hmine j hj
      omega
    · obtain ⟨e, -, haddr, -, hne⟩ := hmine j' hj'
      omega
    · rfl
  · show V.blocks + 1 = ((n + 1 : ℕ) : ℤ)
    omega
  · intro b' hb' hforeign
    obtain ⟨⟨hu, hf⟩, hsame⟩ := h.foreign b' hb' hforeign
    have hne : b' ≠ b := fun heb => by simp [heb, hused] at hu
    refine ⟨⟨(update_of_ne hne _ _).trans hu, fun j hj => ?_⟩, hsame⟩
    rcases hlt j hj with hj | rfl
    · rw [hold j hj]
      exact hf j (by omega)
    · omega
  · have := h.free
    show freeCount { s with used := update s.used b true } + (n + 1) = _
    omega
  · intro x hx
    rw [byteAt, hold (x / 4096) (by omega)]
    exact h.bytes x hx

def total (s0 : St) (V0 : Vinode) : ℕ := freeCount s0 + V0.blocks.toNat

theorem Holds.le_total (h : Holds s0 V0 v n c io s V) : n ≤ total s0 V0 := by
  have := h.free
  unfold total
  omega

theorem blockFor_holds (h : Holds s0 V0 v n c io s V) (hi : i ≤ n) (h10 : i < 10) :
    Outcome (total s0 V0) (i + 1) (blockFor v i s) fun b s' V' => b = V'.addrs (Fin.ofNat 10 i) ∧
      ∃ c', Holds s0 V0 v (max n (i + 1)) c' io s' V' ∧ ∀ x < 4096 * n, c' x = c x := by
  have hat := run_vinodeAt.2 ⟨h.file.vinode, rfl⟩
  have hblocks := h.blocks
  have hfree := h.free
  have htotal := h.le_total
  unfold blockFor
  rw [run_step hat]
  by_cases hnew : (i : ℤ) = V.blocks
  · obtain rfl : i = n := by omega
    rw [if_pos hnew]
    obtain ⟨hzero, hrun⟩ | ⟨b, hb, hused, hrun, hcount⟩ := rfsAllocBlock_run (s := s)
    · refine (if_pos ?_).mpr (run_bind_error.2 (.inl hrun))
      unfold total
      omega
    · obtain ⟨c', V', hgrow, hV', hc'⟩ := h.grow h10 hb hused hcount
      have hfin : (⟨i, h10⟩ : Fin 10) = Fin.ofNat 10 i := Fin.ext (Nat.mod_eq_of_lt h10).symm
      rw [run_step hrun, dif_pos h10, hfin, ← hV']
      show Outcome _ _ ((vinodeAt v >>= fun W => W.addr i) _) _
      rw [run_step (run_vinodeAt.2 ⟨hgrow.file.vinode, rfl⟩)]
      exact .of_ok hgrow.le_total (addr_run h10) ⟨rfl, c', by rwa [max_eq_right (Nat.le_succ i)], hc'⟩
  · rw [if_neg hnew]
    show Outcome _ _ ((vinodeAt v >>= fun W => W.addr i) s) _
    rw [run_step hat]
    have hlt : i + 1 ≤ n := by omega
    exact .of_ok (hlt.trans htotal) (addr_run h10) ⟨rfl, c, by rwa [max_eq_left hlt], fun _ _ => rfl⟩

/-! ## Blocks that are filled from the buffer -/

theorem setIobuffer_run {b : Buf} : setIobuffer b s = .ok ((), s.io b) := rfl

theorem splice_zero {b : Buf} {y : ℕ} : splice b 0 d y = if y < d.length then d.getD y 0 else b y := by
  simp only [splice, Nat.zero_le, if_true, Nat.sub_zero, List.getD_eq_getElem?_getD]
  split_ifs with h
  · rw [List.getElem?_eq_getElem h]
    rfl
  · rw [List.getElem?_eq_none (not_lt.1 h)]
    rfl

theorem writeBlock_holds (h : Holds s0 V0 v n c io s V) (hi : i ≤ n) (h10 : i < 10) :
    Outcome (total s0 V0) (i + 1) (writeBlock v d i s) fun _ => Holds s0 V0 v (max n (i + 1))
      (fun x => if x / 4096 = i then splice io 0 d (x % 4096) else c x) (splice io 0 d) := by
  refine (blockFor_holds h hi h10).bind le_rfl fun b s1 V1 h1 => ?_
  obtain ⟨rfl, c1, h1, hc1⟩ := h1
  have hsplice : ∀ y < 4096, splice s1.iobuffer 0 d y = splice io 0 d y := by
    intro y hy
    rw [splice_zero, splice_zero, h1.io y hy]
  obtain ⟨s2, hwrite, h2⟩ := (h1.buffer (splice s1.iobuffer 0 d)).put (i := i) (by omega) fun _ _ => rfl
  refine .of_ok ((le_max_right _ _).trans h1.le_total) hwrite (h2.congr (fun x hx => ?_) hsplice)
  split_ifs with hxi
  · exact hsplice _ (by omega)
  · exact hc1 x (by omega)

theorem getD_drop {l y : ℕ} : (d.drop l).getD y 0 = d.getD (l + y) 0 := by
  rw [List.getD_eq_getElem?_getD, List.getD_eq_getElem?_getD, List.getElem?_drop]

theorem getD_take {l y : ℕ} (h : y < l) : (d.take l).getD y 0 = d.getD y 0 := by
  rw [List.getD_eq_getElem?_getD, List.getD_eq_getElem?_getD, List.getElem?_take_of_lt h]

def lastBlock (k : ℕ) (d : List UInt8) (io : Buf) : Buf := if k = 0 then io else fun y => d.getD (4096 * (k - 1) + y) 0

theorem writeBlocks_holds (h : Holds s0 V0 v n c io s V) (hi : i ≤ n) (h10 : i + k ≤ 10) (hlen : 4096 * k ≤ d.length) :
    Outcome (total s0 V0) (i + k) (writeBlocks v k d i s) fun _ => Holds s0 V0 v (max n (i + k))
      (fun x => if 4096 * i ≤ x ∧ x < 4096 * (i + k) then d.getD (x - 4096 * i) 0 else c x) (lastBlock k d io) := by
  induction k generalizing i d s V n c io with
  | zero =>
    refine .of_ok (V := V) (hi.trans h.le_total) rfl ?_
    rw [Nat.add_zero, max_eq_left hi]
    exact h.congr (fun x _ => (if_neg (by omega)).symm) fun _ _ => rfl
  | succ k ih =>
    refine (writeBlock_holds (d := d.take 4096) h hi (by omega)).bind (by omega) fun _ s1 V1 h1 => ?_
    have h2 := ih (d := d.drop 4096) h1 (le_max_right _ _) (by omega) (by rw [List.length_drop]; omega)
    have hfirst : ∀ y < 4096, splice io 0 (d.take 4096) y = d.getD y 0 := by
      intro y hy
      rw [splice_zero, if_pos (by rw [List.length_take]; omega), getD_take hy]
    rw [show i + (k + 1) = i + 1 + k by omega]
    refine h2.mono fun _ s2 V2 h2 => ?_
    rw [show max n (i + 1 + k) = max (max n (i + 1)) (i + 1 + k) by omega]
    refine h2.congr (fun x hx => ?_) fun y hy => ?_
    · by_cases hin : 4096 * (i + 1) ≤ x ∧ x < 4096 * (i + 1 + k)
      · rw [if_pos hin, if_pos (by omega), getD_drop, show 4096 + (x - 4096 * (i + 1)) = x - 4096 * i by omega]
      · rw [if_neg hin]
        by_cases hxi : x / 4096 = i
        · rw [if_pos hxi, if_pos (by omega), hfirst _ (by omega), show x % 4096 = x - 4096 * i by omega]
        · rw [if_neg hxi, if_neg (by omega)]
    · cases k with
      | zero =>
        show splice io 0 (d.take 4096) y = d.getD (4096 * 0 + y) 0
        rw [hfirst y hy, Nat.mul_zero, Nat.zero_add]
      | succ k =>
        show (d.drop 4096).getD (4096 * k + y) 0 = d.getD (4096 * (k + 1) + y) 0
        rw [getD_drop, show 4096 + (4096 * k + y) = 4096 * (k + 1) + y by omega]

theorem writeAligned_holds {m : ℕ} (h : Holds s0 V0 v n c io s V) (hi : i ≤ n)
    (hlen : d.length = 4096 * k + m) (hm : m < 4096) (h10 : 4096 * i + d.length ≤ 40960) :
    Outcome (total s0 V0) (i + (d.length + 4095) / 4096) (writeAligned v k m d i s) fun _ s' V' => ∃ io',
      Holds s0 V0 v (max n (i + (d.length + 4095) / 4096))
        (fun x => if 4096 * i ≤ x ∧ x < 4096 * i + d.length then d.getD (x - 4096 * i) 0
          else if 0 < m ∧ x / 4096 = i + k then lastBlock k d io (x % 4096) else c x) io' s' V' := by
  refine (writeBlocks_holds (d := d) (k := k) h hi (by omega) (by omega)).bind (by omega) fun _ s1 V1 h1 => ?_
  by_cases hm0 : 0 < m
  · rw [if_pos hm0, show i + (d.length + 4095) / 4096 = i + k + 1 by omega]
    refine (writeBlock_holds h1 (le_max_right _ _) (by omega)).mono fun _ s2 V2 h2 =>
      ⟨splice (lastBlock k d io) 0 ((d.drop (k * 4096)).take m), ?_⟩
    rw [show max n (i + k + 1) = max (max n (i + k)) (i + k + 1) by omega]
    refine h2.congr (fun x hx => ?_) fun _ _ => rfl
    have htail : ((d.drop (k * 4096)).take m).length = m := by
      rw [List.length_take, List.length_drop]
      omega
    by_cases hxi : x / 4096 = i + k
    · rw [if_pos hxi, splice_zero, htail]
      by_cases hin : x % 4096 < m
      · rw [if_pos hin, if_pos (by omega), getD_take hin, getD_drop, show k * 4096 + x % 4096 = x - 4096 * i by omega]
      · rw [if_neg hin, if_neg (by omega), if_pos ⟨hm0, hxi⟩]
    · rw [if_neg hxi]
      by_cases hin : 4096 * i ≤ x ∧ x < 4096 * (i + k)
      · rw [if_pos hin, if_pos (by omega)]
      · rw [if_neg hin, if_neg (by omega), if_neg fun hc => hxi hc.2]
  · obtain rfl : m = 0 := by omega
    rw [if_neg hm0, show i + (d.length + 4095) / 4096 = i + k by omega]
    refine .of_ok ((le_max_right _ _).trans h1.le_total) rfl ⟨_, h1.congr (fun x hx => ?_) fun _ _ => rfl⟩
    simp only [lt_irrefl, false_and, if_false, show 4096 * (i + k) = 4096 * i + d.length by omega]

/-! ## A whole write -/

/-- the bytes of the file with the data in their place -/
def spliced (s : St) (V : Vinode) (d : List UInt8) (o x : ℕ) : UInt8 :=
  if o ≤ x ∧ x < o + d.length then d.getD (x - o) 0 else byteAt s V.toDinode x

theorem spliced_behind (h : o + d.length ≤ x) : spliced s V d o x = byteAt s V.toDinode x := if_neg (by omega)

def Fills (o e : ℕ) : Prop := 0 < e % RFS_BLKSIZE ∧ (o % RFS_BLKSIZE = 0 ∨ o / RFS_BLKSIZE < e / RFS_BLKSIZE)

theorem fills_iff : Fills o e ↔ 0 < e % 4096 ∧ (o % 4096 = 0 ∨ o / 4096 < e / 4096) := .rfl

def stale (s : St) (V : Vinode) (d : List UInt8) (o x : ℕ) : UInt8 :=
  if o / RFS_BLKSIZE = (o + d.length) / RFS_BLKSIZE then s.iobuffer (x % RFS_BLKSIZE) else
    spliced s V d o (x - RFS_BLKSIZE)

theorem stale_eq : stale s V d o x =
    if o / 4096 = (o + d.length) / 4096 then s.iobuffer (x % 4096) else spliced s V d o (x - 4096) := rfl

open Classical in
noncomputable def after (s : St) (V : Vinode) (d : List UInt8) (o x : ℕ) : UInt8 :=
  if Fills o (o + d.length) ∧ x / RFS_BLKSIZE = (o + d.length) / RFS_BLKSIZE ∧ o + d.length ≤ x then stale s V d o x
  else spliced s V d o x

theorem after_stale (hf : Fills o (o + d.length)) (hx : x / 4096 = (o + d.length) / 4096) (he : o + d.length ≤ x) :
    after s V d o x = stale s V d o x := if_pos ⟨hf, hx, he⟩

theorem after_spliced (h : ¬ (Fills o (o + d.length) ∧ x / 4096 = (o + d.length) / 4096 ∧ o + d.length ≤ x)) :
    after s V d o x = spliced s V d o x := if_neg h

def Written (s0 : St) (V0 : Vinode) (v : ℕ) (d : List UInt8) (o : ℕ) (r : ℕ) (s : St) (V : Vinode) : Prop :=
  r = o + d.length ∧ FileAt s v V ∧ V.size = max V0.size (o + d.length) ∧
    (∀ x : ℕ, (x : ℤ) < V.size → byteAt s V.toDinode x = after s0 V0 d o x) ∧
    ∀ b < NBLOCKS, Foreign s0 V0 b → s.blocks (12 + b) = s0.blocks (12 + b)

theorem rfsWrite_ends (h : Holds s0 V0 v n c io s V) (he : o + d.length ≤ 4096 * n)
    (hc : ∀ x < 4096 * n, c x = after s0 V0 d o x) :
    Outcome (total s0 V0) ((o + d.length + 4095) / 4096) ((do
        let V ← vinodeAt v
        setVinode v { V with size := max V.size (o + d.length) }
        return o + d.length : F ℕ) s) (Written s0 V0 v d o) := by
  have hV : V.size = V0.size := by rw [← h.same]
  have hblocks := h.blocks
  have hsize : V.size ≤ 4096 * V.blocks := h.file.size
  have hmax : max V.size (o + d.length) ≤ 4096 * V.blocks := by omega
  have hneed : (o + d.length + 4095) / 4096 ≤ n := by omega
  refine .of_ok (V := { V with size := max V.size (o + d.length) }) (hneed.trans h.le_total)
    (run_step (run_vinodeAt.2 ⟨h.file.vinode, rfl⟩)) ⟨rfl,
      ⟨update_self _ _ _, hmax, h.file.blocks, h.file.addrs, h.file.distinct⟩,
    congrArg (max · _) hV, fun x hx => ?_, fun b hb hf => (h.foreign b hb hf).2⟩
  have hx : (x : ℤ) < max V.size (o + d.length) := hx
  exact (h.bytes x (by omega)).trans (hc x (by omega))

theorem firstBlock_holds (h : FileAt s v V) (hq : ((o / 4096 : ℕ) : ℤ) < V.blocks) (hl : o % 4096 + d.length ≤ 4096) :
    ∃ b s', ramdiskRead (V.addrs (Fin.ofNat 10 (o / 4096))) s = .ok ((), s.io b) ∧
      ramdiskWrite (V.addrs (Fin.ofNat 10 (o / 4096))) ((s.io b).io (splice (s.io b).iobuffer (o % 4096) d)) = .ok ((),
        s') ∧
      Holds s V v V.blocks.toNat (spliced s V d o) (fun y => spliced s V d o (4096 * (o / 4096) + y)) s' V := by
  obtain ⟨e, he, haddr, -⟩ := h.addrs _ hq
  have hread := ramdiskRead_run (s := s) (k := 12 + e) (data_block_lt he)
  have hb : ∀ y < 4096, splice (copyBlock s.iobuffer (s.blocks (12 + e))) (o % 4096) d y =
      spliced s V d o (4096 * (o / 4096) + y) := by
    intro y hy
    have hold : byteAt s V.toDinode (4096 * (o / 4096) + y) = s.blocks (12 + e) y := by
      rw [byteAt, show (4096 * (o / 4096) + y) / 4096 = o / 4096 by omega, haddr,
        show (4096 * (o / 4096) + y) % 4096 = y by omega]
      rfl
    rw [splice, spliced, hold, copyBlock_of_lt hy, List.getD_eq_getElem?_getD,
      show 4096 * (o / 4096) + y - o = y - o % 4096 by omega]
    by_cases hin : y < o % 4096 + d.length
    · by_cases hlow : o % 4096 ≤ y
      · rw [if_pos hlow, if_pos (by omega), List.getElem?_eq_getElem (by omega)]
        rfl
      · rw [if_neg hlow, if_neg (by omega)]
    · rw [if_pos (by omega), if_neg (by omega), List.getElem?_eq_none (by omega)]
      rfl
  obtain ⟨s', hwrite, h1⟩ := (h.holds.buffer (splice (copyBlock s.iobuffer (s.blocks (12 + e))) (o % 4096) d)).put
    (i := o / 4096) (by omega) hb
  refine ⟨copyBlock s.iobuffer (s.blocks (12 + e)), s', by rw [haddr]; exact hread, hwrite,
    h1.congr (fun x hx => ?_) fun _ _ => rfl⟩
  split_ifs with hx
  · rw [show 4096 * (o / 4096) + x % 4096 = x by omega]
  · rw [spliced, if_neg (by omega)]

theorem writeRest_holds {l m : ℕ} (h : Holds s0 V0 v V0.blocks.toNat (spliced s0 V0 (d.take l) o) io s V)
    (hl : o + l = 4096 * i)
    (hl0 : l < 4096) (hi : i ≤ V0.blocks.toNat) (hlen : d.length = l + (4096 * k + m)) (hm : m < 4096)
    (hmax : o + d.length ≤ 40960)
    (hio : ∀ y < 4096, io y = if l = 0 then s0.iobuffer y else spliced s0 V0 (d.take l) o (4096 * (o / 4096) + y)) :
    Outcome (total s0 V0) ((o + d.length + 4095) / 4096) ((do
        writeAligned v k m (d.drop l) i
        let V ← vinodeAt v
        setVinode v { V with size := max V.size (o + d.length) }
        return o + d.length : F ℕ) s) (Written s0 V0 v d o) := by
  have hrest : (d.drop l).length = 4096 * k + m := by
    rw [List.length_drop]
    omega
  have htake : (d.take l).length = l := List.length_take_of_le (by omega)
  refine (writeAligned_holds h hi hrest hm (by omega)).bind (by omega) fun _ s1 V1 h1 => ?_
  obtain ⟨io1, h1⟩ := h1
  refine rfsWrite_ends h1 (by omega) fun x hx => ?_
  have hspliced : ∀ y, 4096 * i ≤ y → y < o + d.length → spliced s0 V0 d o y = (d.drop l).getD (y - 4096 * i) 0 := by
    intro y hy hye
    rw [spliced, if_pos (by omega), getD_drop, show l + (y - 4096 * i) = y - o by omega]
  have hfirst : ∀ y, y < 4096 * i ∨ o + d.length ≤ y → spliced s0 V0 (d.take l) o y = spliced s0 V0 d o y := by
    intro y hy
    by_cases hin : o ≤ y ∧ y < 4096 * i
    · rw [spliced, spliced, if_pos (by omega), if_pos (by omega), getD_take (by omega)]
    · rw [spliced, spliced, if_neg (by omega), if_neg (by omega)]
  by_cases hin : 4096 * i ≤ x ∧ x < 4096 * i + (d.drop l).length
  · rw [if_pos hin, after_spliced (by omega), hspliced x hin.1 (by omega)]
  · rw [if_neg hin]
    by_cases hlast : 0 < m ∧ x / 4096 = i + k
    · rw [if_pos hlast, after_stale (fills_iff.2 (by omega)) (by omega) (by omega), stale_eq, lastBlock]
      by_cases hk : k = 0
      · rw [if_pos hk, hio _ (by omega)]
        by_cases hzero : l = 0
        · rw [if_pos hzero, if_pos (by omega)]
        · rw [if_neg hzero, if_neg (by omega), hfirst _ (by omega),
            show 4096 * (o / 4096) + x % 4096 = x - 4096 by omega]
      · rw [if_neg hk, if_neg (by omega), hspliced _ (by omega) (by omega),
          show 4096 * (k - 1) + x % 4096 = x - 4096 - 4096 * i by omega]
    · rw [if_neg hlast, hfirst x (by omega), after_spliced]
      intro hf
      have := fills_iff.1 hf.1
      omega

theorem rfsWrite_run (h : FileAt s v V) (ho : o ≤ V.size) (hmax : o + d.length ≤ 40960) :
    Outcome (total s V) ((o + d.length + 4095) / 4096) (rfsWrite v d o s) (Written s V v d o) := by
  have hsize : V.size ≤ 4096 * V.blocks := h.size
  unfold rfsWrite
  rw [run_step (run_vinodeAt.2 ⟨h.vinode, rfl⟩), if_neg (by omega)]
  simp only [RFS_BLKSIZE]
  by_cases halign : o % 4096 = 0
  · rw [if_neg (not_not.2 halign)]
    refine writeRest_holds (l := 0) (h.holds.congr (fun x _ => ?_) fun _ _ => rfl) (by omega) (by omega) (by omega)
      (by omega) (by omega)
      hmax fun _ _ => rfl
    exact (if_neg (by simp)).symm
  · rw [if_pos halign, run_step (addr_run (by omega))]
    by_cases htimes : (d.length + o % 4096) / 4096 = 0
    · obtain ⟨b, s1, hread, hwrite, h1⟩ := firstBlock_holds (o := o) (d := d) h (by omega) (by omega)
      rw [run_step hread, if_pos htimes, List.take_length, run_get_bind, run_step setIobuffer_run, run_step hwrite,
        if_neg (by omega)]
      refine rfsWrite_ends h1 (by omega) fun x _ => (after_spliced fun hf => ?_).symm
      have := fills_iff.1 hf.1
      omega
    · have hlen : (d.take (4096 - o % 4096)).length = 4096 - o % 4096 := List.length_take_of_le (by omega)
      obtain ⟨b, s1, hread, hwrite, h1⟩ :=
        firstBlock_holds (o := o) (d := d.take (4096 - o % 4096)) h (by omega) (by omega)
      rw [run_step hread, if_neg htimes, run_get_bind, run_step setIobuffer_run, run_step hwrite, if_pos (by omega)]
      exact writeRest_holds h1 (by omega) (by omega) (by omega) (by omega) (by omega) hmax fun y _ =>
        (if_neg (by omega)).symm

/-- **A write splices.** Whatever `iobuffer` has, the data replaces the bytes at the offset and nothing else changes, if
the write ends the file or a block, ends in the block that it begins within, or leaves behind the data what the buffer
has there. -/
theorem write_splices (h : FileAt s v V) (ho : o ≤ V.size) (hmax : o + d.length ≤ DIRECT_BLKNUM * RFS_BLKSIZE)
    (hroom : (o + d.length + (RFS_BLKSIZE - 1)) / RFS_BLKSIZE ≤ freeCount s + V.blocks.toNat) :
    (∀ b, ∃ s' V', rfsWrite v d o (s.io b) = .ok (o + d.length, s') ∧ FileAt s' v V' ∧
      V'.size = max V.size (o + d.length) ∧
      (∀ x : ℕ, (x : ℤ) < V'.size → byteAt s' V'.toDinode x = spliced s V d o x) ∧
      ∀ b < NBLOCKS, Foreign s V b → s'.blocks (12 + b) = s.blocks (12 + b)) ↔
    V.size ≤ o + d.length ∨ (o + d.length) % RFS_BLKSIZE = 0 ∨
      (o % RFS_BLKSIZE ≠ 0 ∧ o / RFS_BLKSIZE = (o + d.length) / RFS_BLKSIZE) ∨
      o / RFS_BLKSIZE < (o + d.length) / RFS_BLKSIZE ∧ ∀ x : ℕ, o + d.length ≤ x → (x : ℤ) < V.size →
        x / RFS_BLKSIZE = (o + d.length) / RFS_BLKSIZE → byteAt s V.toDinode x = spliced s V d o (x - RFS_BLKSIZE) := by
  have hrun : ∀ b, ∃ r s' V', rfsWrite v d o (s.io b) = .ok (r, s') ∧ Written (s.io b) V v d o r s' V' := by
    intro b
    have hout := rfsWrite_run (s := s.io b) { h with } ho hmax
    exact (if_neg (not_lt.2 hroom)).mp hout
  simp only [RFS_BLKSIZE]
  constructor
  · intro hall
    -- the write leaves these bytes where they are not overwritten
    have hafter : ∀ b, ∀ x : ℕ, (x : ℤ) < V.size → after (s.io b) V d o x = spliced s V d o x := by
      intro b x hx
      obtain ⟨_, s1, V1, hrun1, rfl, hfile1, hsize1, hbytes1, -⟩ := hrun b
      obtain ⟨s2, V2, hrun2, hfile2, -, hbytes2, -⟩ := hall b
      obtain ⟨-, rfl⟩ := Prod.mk.inj (Except.ok.inj (hrun1.symm.trans hrun2))
      obtain rfl := Option.some.inj (hfile1.vinode.symm.trans hfile2.vinode)
      exact (hbytes1 x (by omega)).symm.trans (hbytes2 x (by omega))
    by_contra hc
    simp only [not_or] at hc
    obtain ⟨hend, hmid, hsame, hlast⟩ := hc
    have hfills : Fills o (o + d.length) := fills_iff.2 (by omega)
    by_cases hq : o / 4096 = (o + d.length) / 4096
    · have := hafter (fun _ => if byteAt s V.toDinode (o + d.length) = 0 then 1 else 0) (o + d.length) (by omega)
      rw [after_stale hfills rfl le_rfl, stale_eq, if_pos hq, spliced_behind le_rfl] at this
      have hother : (if byteAt s V.toDinode (o + d.length) = 0 then 1 else 0) = byteAt s V.toDinode (o + d.length) :=
        this
      split_ifs at hother with h0
      · exact absurd (hother.trans h0) (by decide)
      · exact h0 hother.symm
    · refine hlast ⟨by omega, fun x hx hxs hxq => ?_⟩
      have := hafter s.iobuffer x hxs
      rw [after_stale hfills hxq hx, stale_eq, if_neg hq, spliced_behind hx] at this
      exact this.symm
  · intro hc b
    obtain ⟨_, s', V', hrun', rfl, hfile, hsize, hbytes, hforeign⟩ := hrun b
    refine ⟨s', V', hrun', hfile, hsize, fun x hx => (hbytes x hx).trans ?_, hforeign⟩
    by_cases hst : Fills o (o + d.length) ∧ x / 4096 = (o + d.length) / 4096 ∧ o + d.length ≤ x
    · have := fills_iff.1 hst.1
      obtain hc | hc | hc | ⟨hq, hc⟩ := hc
      · omega
      · omega
      · omega
      · rw [after_stale hst.1 hst.2.1 hst.2.2, stale_eq, if_neg (by omega)]
        exact (hc x hst.2.2 (by omega) hst.2.1).symm.trans (spliced_behind hst.2.2).symm
    · exact after_spliced hst

def stored : St := { held with used := fun b => decide (b < 2) }

theorem fileAt_stored : FileAt stored 9 twoBlocks := by
  have hcases : ∀ i : ℕ, (i : ℤ) < twoBlocks.blocks → i = 0 ∨ i = 1 := by
    intro i hi
    have hi : (i : ℤ) < 2 := hi
    omega
  refine ⟨by simp [stored, held], by decide, by decide, fun i hi => ?_, fun i j hi hj he => ?_⟩
  · obtain rfl | rfl := hcases i hi
    · exact ⟨0, by decide⟩
    · exact ⟨1, by decide⟩
  · obtain rfl | rfl := hcases i hi <;> obtain rfl | rfl := hcases j hj
    all_goals revert he
    all_goals decide

theorem write_splices_stored : ∃ s' V', rfsWrite 9 [7] 4999 stored = .ok (5000, s') ∧ FileAt s' 9 V' ∧ V'.size = 5000 ∧
    byteAt s' V'.toDinode 4999 = 7 := by
  obtain ⟨s', V', hrun, hfile, hsize, hbytes, -⟩ :=
    (write_splices (o := 4999) (d := [7]) fileAt_stored (by decide) (by decide)
    (by decide +kernel)).2 (.inl (by decide)) stored.iobuffer
  exact ⟨s', V', hrun, hfile, hsize, hbytes 4999 (by rw [hsize]; decide)⟩

/-- One byte is written at the start of the file. The bytes behind it become those of the buffer. -/
theorem write_clobbers : FileAt stored 9 twoBlocks ∧ byteAt stored twoBlocks.toDinode 1 = 0 ∧
    (rfsWrite 9 [7] 0 (stored.io fun _ => 255)).map
      (fun r => (r.1, byteAt r.2 twoBlocks.toDinode 0, byteAt r.2 twoBlocks.toDinode 1)) =
      .ok (1, 7, 255) := ⟨fileAt_stored, by decide +kernel, by decide +kernel⟩

/-! ## Many writes to a file -/

/-- the data and the offset of a write -/
def writeStep (v : ℕ) (s : St) (w : List UInt8 × ℕ) : Except Fault St := (rfsWrite v w.1 w.2 s).map Prod.snd

/-- the write ends within the blocks that an inode has -/
def Fitting (w : List UInt8 × ℕ) : Prop := w.2 + w.1.length ≤ DIRECT_BLKNUM * RFS_BLKSIZE

theorem writeStep_fitting {w : List UInt8 × ℕ} (h : FileAt s v V) (hw : Fitting w) :
    (∃ s' V', writeStep v s w = .ok s' ∧ FileAt s' v V') ∨ writeStep v s w = .error noBlock ∨
      writeStep v s w = .error (.stop (.panic "rfs_write:offset should less than file size!")) := by
  unfold writeStep
  by_cases ho : w.2 ≤ V.size
  · have hout := rfsWrite_run h ho hw
    unfold Outcome at hout
    split_ifs at hout
    · exact .inr (.inl (by rw [hout]; rfl))
    · obtain ⟨r, s', V', hrun, -, hfile, -⟩ := hout
      exact .inl ⟨s', V', by rw [hrun]; rfl, hfile⟩
  · refine .inr (.inr ?_)
    unfold rfsWrite
    rw [run_step (run_vinodeAt.2 ⟨h.vinode, rfl⟩), if_pos (not_le.1 ho)]
    rfl

/-- **Files fit.** In a run of writes that fit, the file keeps at most ten blocks, which are marked as used, and no
further write that fits uses another index. -/
theorem files_fit (h : Reach (writeStep v) (fun _ => Fitting) (fun s => ∃ V, FileAt s v V) s) :
    (∃ V, FileAt s v V) ∧ ∀ w, Fitting w → writeStep v s w ≠ .error (.stop .outOfBounds) := by
  have hfile : ∃ V, FileAt s v V := by
    refine h.inv (fun _ h0 => h0) fun s w s' hV hw hstep => ?_
    obtain ⟨V, hV⟩ := hV
    obtain ⟨s1, V1, hrun, hfile⟩ | hrun | hrun := writeStep_fitting hV hw
    · exact ⟨V1, Except.ok.inj (hrun.symm.trans hstep) ▸ hfile⟩
    · cases hrun.symm.trans hstep
    · cases hrun.symm.trans hstep
  refine ⟨hfile, fun w hw => ?_⟩
  obtain ⟨V, hV⟩ := hfile
  obtain ⟨s1, V1, hrun, -⟩ | hrun | hrun := writeStep_fitting hV hw
  all_goals
    rw [hrun]
    simp [noBlock]

instance (w : List UInt8 × ℕ) : Decidable (Fitting w) := inferInstanceAs (Decidable (_ ≤ _))

def fitted : List (List UInt8 × ℕ) := [([7], 4999), (List.replicate 3200 8, 5000)]

theorem files_fit_stored : (∃ V, FileAt (exec (writeStep 9) stored fitted) 9 V) ∧
    ((exec (writeStep 9) stored fitted).vinodes 9).map (fun V => (V.size, V.blocks)) = some (8200, 3) ∧
    writeStep 9 (exec (writeStep 9) stored fitted) ([9], 8200) ≠ .error (.stop .outOfBounds) := by
  have hreach : Reach (writeStep 9) (fun _ => Fitting) (fun s => ∃ V,
    FileAt s 9 V) (exec (writeStep 9) stored fitted) :=
    reach_decide fitted stored (.init ⟨_, fileAt_stored⟩) (by decide +kernel)
  obtain ⟨hfile, hnext⟩ := files_fit hreach
  exact ⟨hfile, by decide +kernel, hnext _ (by decide)⟩

/-- Ten blocks are written and one more byte, for which the eleventh address is used. -/
theorem eleventh_block : FileAt stored 9 twoBlocks ∧
    (writeStep 9 (exec (writeStep 9) stored [(List.replicate (DIRECT_BLKNUM * RFS_BLKSIZE) 7, 0)])
      ([7], DIRECT_BLKNUM * RFS_BLKSIZE)).map (fun _ => ()) =
      .error (.stop .outOfBounds) :=
  ⟨fileAt_stored, by decide +kernel⟩

end RiscvPke.Splice
