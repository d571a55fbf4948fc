/-
Who owns the blocks of the RAM disk.
-/
import RiscvPke.Fs.Runs

namespace RiscvPke.Fs

open Function CData RiscvPke.Count Run RiscvPke.System

variable {D D' : Debts} {a a' : Afs} {s : St} {n m b : ℕ} {c : Change}

/-! ## One owner -/

def twoFiles : List (ℕ × Call) :=
  [(0, .open (onDisk [97]) 66), (0, .write 0 (List.replicate 5000 0)), (0, .open (onDisk [98]) 66)]

theorem twoFiles_reach : ∃ s, s = exec step boot twoFiles ∧ Reach step Careful Boot s ∧
    Careful s (0, .mkdir (onDisk [99])) ∧
    ((abs s).cur 1).blocks = 2 ∧ ((abs s).dinode 1).type ≠ R_FREE ∧ ((abs s).dinode 2).type ≠ R_FREE ∧
    (1 : Fin 10) < ((abs s).cur 1).blocks ∧ (0 : Fin 10) < ((abs s).cur 2).blocks :=
  ⟨_, rfl, And.imp_left (reach_decide twoFiles boot (.init boot_boot)) (by decide +kernel)⟩

def throughFile : List (ℕ × Call) :=
  [(0, .open (onDisk [97]) 66), (0, .open (onDisk [120]) 66), (0, .close 1), (0, .unlink (onDisk [120])),
    (0, .write 0 ([2, 0, 0, 0, 98] ++ List.replicate 27 0)), (0, .open (onDisk [97, 47, 98]) 2),
    (0, .write 0 (List.replicate 4096 0)), (0, .open (onDisk [121]) 66)]

def Tight (a : Afs) : Prop :=
  ∀ b < NBLOCKS, a.used b = true → ∃ n, (a.body n).type ≠ R_FREE ∧ (a.body n).Has (a.body n).blocks b

/-- a file whose last name is unlinked has no block that its disk inode does not have -/
def Settled (s : St) (l : ℕ × Call) : Prop :=
  match l.2 with
  | .unlink path =>
    match (abs s).resolve path ((abs s).pfiles l.1).cwd with
    | .found ((_, n) :: _) => ((abs s).dinode n).nlinks = 1 → ((abs s).dinode n).blocks = ((abs s).cur n).blocks
    | _ => True
  | _ => True

/-- what `Settled` says about the inode that a change frees -/
def Whole (a : Afs) (c : Change) : Prop :=
  ∀ k name (n : ℕ), c = .remove k name → a.find k name = some (n : ℤ) → (a.dinode n).nlinks = 1 →
    (a.dinode n).blocks = (a.body n).blocks

theorem Settled.whole {p : ℕ} {call : Call} {r : ℤ} (h : Settled s (p, call)) (hc : (abs s).Asks p r call c) :
    Whole (abs s) c := by
  intro k name n hrem hfind hlast
  subst hrem
  obtain ⟨path, n', q, l, rfl, hwalk, hfind', -, -⟩ := hc.remove
  obtain rfl : n = n' := by exact_mod_cast Option.some.inj (hfind.symm.trans hfind')
  simp only [Settled, hwalk] at h
  exact h hlast

theorem Inv.has_body (h : Inv D a) (hblocks : (a.dinode n).blocks = (a.body n).blocks) :
    (a.body n).Has (a.body n).blocks b ↔ (a.dinode n).Has (a.dinode n).blocks b := by
  have hs := h.cache.synced n
  rw [← hblocks]
  constructor
  · rintro ⟨i, hi, he⟩
    exact ⟨i, hi, (hs.addrs i hi).symm.trans he⟩
  · rintro ⟨i, hi, he⟩
    exact ⟨i, hi, (hs.addrs i hi).trans he⟩

theorem Moves.tight (h : Moves a c a') (hinv : Inv D a) (ht : Tight a) (hw : Whole a c) : Tight a' := by
  intro b hb hused
  cases h with
  | same _ hu hbody =>
    rw [hu] at hused
    rw [hbody]
    exact ht b hb hused
  | @new m b' type _ hv htype hu hbody =>
    rw [hbody]
    by_cases hbb : b = b'
    · refine ⟨m, ?_, 0, ?_, ?_⟩
      · rw [update_self]
        show type ≠ R_FREE
        rcases htype with rfl | rfl <;> decide
      · rw [update_self]
        exact Int.zero_lt_one
      · rw [update_self, hbb]
        exact update_self (0 : Fin 10) (12 + (b' : ℤ)) (a.dinode m).addrs
    · rw [hu, update_of_ne hbb] at hused
      obtain ⟨n, hn, hhas⟩ := ht b hb hused
      have hnm : n ≠ m := by
        rintro rfl
        rw [hinv.type_body] at hn
        exact hn hv.inode
      refine ⟨n, ?_⟩
      rw [update_of_ne hnm]
      exact ⟨hn, hhas⟩
  | @freed k n0 name hc hfind _ hlast hu hbody _ =>
    rw [hbody]
    rw [hu] at hused
    unfold Dinode.release at hused
    split_ifs at hused with hrel
    obtain ⟨n, hn, hhas⟩ := ht b hb hused
    have hne : n ≠ n0 := by
      rintro rfl
      exact hrel ((hinv.has_body (hw k name n hc hfind hlast)).1 hhas)
    refine ⟨n, ?_⟩
    rw [update_of_ne hne]
    exact ⟨hn, hhas⟩
  | @grown n0 e _ hf he hblocks haddrs hbody _ hnew =>
    rw [hbody]
    rcases hnew b hused with hold | hhas
    · obtain ⟨n, hn, i, hi, hai⟩ := ht b hb hold
      by_cases hne : n = n0
      · subst hne
        refine ⟨n, ?_⟩
        rw [update_self]
        refine ⟨?_, i, hi.trans_le hblocks, (haddrs i hi).trans hai⟩
        show e.type ≠ R_FREE
        rw [he]
        decide
      · refine ⟨n, ?_⟩
        rw [update_of_ne hne]
        exact ⟨hn, i, hi, hai⟩
    · refine ⟨n0, ?_⟩
      rw [update_self]
      refine ⟨?_, hhas⟩
      show e.type ≠ R_FREE
      rw [he]
      decide

theorem Booted.tight (h : Booted a) : Tight a := by
  intro b hb hused
  rw [h.used b hb, decide_eq_true_eq] at hused
  subst hused
  have hbody : a.body 0 = (a.dinode 0).body := by
    unfold Afs.body
    rw [h.cur]
  refine ⟨0, ?_⟩
  rw [hbody]
  refine ⟨?_, 0, ?_, h.addrs⟩
  · show (a.dinode 0).type ≠ R_FREE
    rw [h.type]
    decide
  · show (0 : ℤ) < (a.dinode 0).blocks
    rw [h.blocks]
    decide

instance : (l : ℕ × Call) → Decidable (Settled s l)
  | (p, .unlink path) =>
    match hw : (abs s).resolve path ((abs s).pfiles p).cwd with
    | .found ((_, n) :: _) =>
      decidable_of_iff (((abs s).dinode n).nlinks = 1 →
        ((abs s).dinode n).blocks = ((abs s).cur n).blocks) (by simp [Settled, hw])
    | .found [] => isTrue (by simp [Settled, hw])
    | .missing _ _ => isTrue (by simp [Settled, hw])
    | .host => isTrue (by simp [Settled, hw])
  | (_, .open _ _) => isTrue trivial
  | (_, .mkdir _) => isTrue trivial
  | (_, .link _ _) => isTrue trivial
  | (_, .opendir _) => isTrue trivial
  | (_, .ccwd _) => isTrue trivial
  | (_, .write _ _) => isTrue trivial
  | (_, .lseek _ _ _) => isTrue trivial
  | (_, .close _) => isTrue trivial

def writtenBack : List (ℕ × Call) := [(0, .open (onDisk [97]) 66), (0, .write 0 (List.replicate 5000 0)), (0, .close 0)]

def writtenAfterLink : List (ℕ × Call) :=
  [(0, .open (onDisk [102]) 66), (0, .link (onDisk [102]) (onDisk [103])),
    (0, .write 0 (List.replicate 5000 0)), (0, .close 0),
    (0, .unlink (onDisk [102]))]

theorem Inv.free_inode (h : Inv D a) : ∃ n < NINODES, (a.dinode n).type = R_FREE := by
  by_contra hno
  have hlive : ∀ n : Fin 320, Live a n := fun n hfree => hno ⟨n, n.isLt, hfree⟩
  have hfirst : ∀ n : Fin 320, ((0 : Fin 10) : ℤ) < (a.cur n).blocks := by
    intro n
    have := (h.disk.shape n (hlive n)).blocks
    omega
  have hblock : ∀ n : Fin 320, ∃ b : Fin 100, (a.cur n).addrs 0 = 12 + (b : ℕ) := by
    intro n
    obtain ⟨b, hb, haddr, -⟩ := h.disk.owned n 0 (hlive n) (hfirst n)
    exact ⟨⟨b, hb⟩, haddr⟩
  choose block hblock using hblock
  have hinj : Injective block := by
    intro n m he
    have haddr : (a.cur n).addrs 0 = (a.cur m).addrs 0 := by rw [hblock, hblock, he]
    exact Fin.ext (h.disk.exclusive n m 0 0 (hlive n) (hlive m) (hfirst n) (hfirst m) haddr).1
  have := Fintype.card_le_of_injective block hinj
  simp at this

def fakeInode : List UInt8 :=
  [129, 1, 0, 0, 98] ++ List.replicate 123 0 ++ [0, 160, 0, 0, 0, 0, 0, 0, 1, 0, 0, 0, 10, 0, 0, 0] ++
    (List.range 10).flatMap fun i => [(i + 1).toUInt8, 0, 0, 0]

def tableOverwritten : List (ℕ × Call) :=
  [(0, .open (onDisk [97]) 66), (0, .write 0 fakeInode), (0, .open (onDisk [97, 47, 98]) 2)] ++
    List.replicate 40 (0, .write 1 (List.replicate 1024 0))

end RiscvPke.Fs
