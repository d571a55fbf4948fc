/-
Pipelines of the shell over the buffers of `Kernel.IoPipline`: the stages of a pipeline run one after the other on one
hart and print and scan (`Shell.exec_pipeline` gives the calls of the shell around them).
-/
import Mathlib.Data.List.GetD
import RiscvPke.Core.System
import RiscvPke.Kernel.IoPipline
import RiscvPke.Shell.Execute

namespace RiscvPke.Pipeline

open Function Words RiscvPke.System IoPipline
open Shell (Text)

/-! ## The model -/

def sysUserPrint (text : Text) (s : IoPipline) : Text × IoPipline :=
  if s.stdin_close then ([], s.printed text.length fun i => text.getD i 0)
  else (text.takeWhile (· != 0), s)

def sysUserScanf (s : IoPipline) : Res (Option Text × IoPipline) :=
  if s.stdout_close then do
    let (word, s') ← s.scanned
    return (some word, s')
  else return (none, s)

/-- a pipeline that runs: the stage that has its turn, what each stage has printed and scanned, and what has come to the
console -/
structure St where
  pipe : IoPipline
  stage : ℕ
  printed : ℕ → Text
  got : ℕ → List (Option Text)
  console : Text

inductive Op where
  | print (text : Text)
  | scan
  /-- the stage exits and the shell goes on -/
  | next
deriving DecidableEq

def St.prints (t : St) (text : Text) (r : Text × IoPipline) : St :=
  { t with pipe := r.2, printed := update t.printed t.stage (t.printed t.stage ++ text), console := t.console ++ r.1 }

def St.gets (t : St) (r : Option Text × IoPipline) : St :=
  { t with pipe := r.2, got := update t.got t.stage (t.got t.stage ++ [r.1]) }

def step (k : ℕ) (t : St) (op : Op) : Res St :=
  if t.stage < k then
    match op with
    | .print text => .ok (t.prints text (sysUserPrint text t.pipe))
    | .scan => t.gets <$> sysUserScanf t.pipe
    | .next =>
      if t.stage + 1 = k then .ok { t with pipe := sysUserPiplineReset t.pipe, stage := k }
      else
        let pipe := sysUserPiplineRead t.pipe
        .ok { t with pipe := if t.stage + 2 < k then sysUserPiplineWrite pipe else pipe, stage := t.stage + 1 }
  else .error .disabled

def Idle (s : IoPipline) : Prop := s.stdin_close = false ∧ s.stdout_close = false ∧ s.buf_len = 0 ∧ s.buf_pos = 0

def Start (t : St) : Prop :=
  (∃ s, Idle s ∧ t.pipe = sysUserPiplineWrite s) ∧ t.stage = 0 ∧ (∀ i, t.printed i = []) ∧
    (∀ i, t.got i = []) ∧ t.console = []

/-! ## The condition -/

def IsRead (t : St) (j : ℕ) : Prop := t.printed j = [] ∨ t.got (j + 1) ≠ []

instance (t : St) (j : ℕ) : Decidable (IsRead t j) :=
  inferInstanceAs (Decidable (t.printed j = [] ∨ t.got (j + 1) ≠ []))

def MayPrint (k : ℕ) (t : St) (text : Text) : Prop :=
  if t.stage + 1 < k then t.stage = 0 ∨ t.got t.stage = [] ∧ ∀ j < t.stage, IsRead t j
  else 0 ∉ text ∧ (t.got t.stage ≠ [] ∨ 1 < t.stage ∧ t.got (t.stage - 1) ≠ [])

def MayScan (t : St) : Prop :=
  t.stage = 0 ∨ t.got t.stage = [] ∧ t.printed t.stage = [] ∧ (∀ j < t.stage - 1, IsRead t j) ∧
    0 ∉ t.printed (t.stage - 1) ∧ ∀ c ∈ (t.printed (t.stage - 1)).head?, isBlank c = false

instance (k : ℕ) (t : St) (text : Text) : Decidable (MayPrint k t text) := by
  unfold MayPrint
  infer_instance

instance (t : St) : Decidable (MayScan t) := by
  unfold MayScan
  have : Decidable (∀ c ∈ (t.printed (t.stage - 1)).head?, isBlank c = false) := Option.decidableForallMem _
  infer_instance

def Allowed (k : ℕ) (t : St) : Op → Prop
  | .print text => (t.printed t.stage ++ text).length ≤ IO_PIPELINE_BUF_SIZE ∧ MayPrint k t text
  | .scan => MayScan t
  | .next => True

instance (k : ℕ) (t : St) (op : Op) : Decidable (Allowed k t op) :=
  match op with
  | .print text =>
    inferInstanceAs (Decidable ((t.printed t.stage ++ text).length ≤ IO_PIPELINE_BUF_SIZE ∧ MayPrint k t text))
  | .scan => inferInstanceAs (Decidable (MayScan t))
  | .next => isTrue trivial

/-- what `n` scans give: the words of a text, and nothing when there are no more -/
def scans (text : Text) (n : ℕ) : List (Option Text) :=
  (List.range n).map fun j => some ((words isBlank text).getD j [])

variable {k i j : ℕ} {s s' : IoPipline} {t t' : St} {text : Text} {op : Op}

/-! ## The buffers -/

def Holds (s : IoPipline) (n : Fin 2) (text : Text) : Prop := ∀ j (h : j < text.length), s.buf (row n + j) = text[j]

theorem holds_nil {n : Fin 2} : Holds s n [] := fun j h => absurd h (Nat.not_lt_zero j)

theorem int32_length {n : ℕ} (h : n ≤ IO_PIPELINE_BUF_SIZE) : int32 n = n := by
  simp only [IO_PIPELINE_BUF_SIZE] at h
  unfold int32
  rw [Int.bmod_eq_of_le] <;> omega

theorem print_holds {before : Text} (hin : s.stdin_close = true) (hlen : s.buf_len = before.length)
    (hfits : (before ++ text).length ≤ IO_PIPELINE_BUF_SIZE) (h : Holds s s.pipline_num before) :
    (sysUserPrint text s).1 = [] ∧ (sysUserPrint text s).2.buf_len = (before ++ text).length ∧
      Holds (sysUserPrint text s).2 s.pipline_num (before ++ text) := by
  have htotal : s.totalLen text.length = (before ++ text).length := by
    rw [totalLen, hlen, ← Nat.cast_add, ← List.length_append, int32_length hfits]
    exact min_eq_left (by exact_mod_cast hfits)
  have hmoved : s.moved text.length = text.length := by
    rw [moved, htotal, hlen, List.length_append]
    omega
  unfold sysUserPrint
  rw [if_pos hin]
  refine ⟨rfl, htotal, fun j hj => ?_⟩
  rw [List.length_append] at hj
  show (if row s.pipline_num + s.buf_len ≤ (row s.pipline_num + j : ℕ) ∧ _ then _ else _) = _
  rw [hlen, hmoved]
  by_cases hlt : j < before.length
  · rw [if_neg (by omega), List.getElem_append_left hlt]
    exact h j hlt
  · have hplace : ((row s.pipline_num + j : ℕ) - (row s.pipline_num + before.length : ℤ)).toNat =
        j - before.length := by
      omega
    rw [if_pos (by omega), hplace, List.getElem_append_right (by omega), List.getD_eq_getElem]

theorem scan_run (hout : s.stdout_close = true) (hpos : s.buf_pos = 0) (hlen : s.buf_len = text.length)
    (hfits : text.length ≤ IO_PIPELINE_BUF_SIZE) (h0 : 0 ∉ text) (h : Holds s (s.pipline_num + 1) text) :
    sysUserScanf s = .ok (some (text.takeWhile fun c => !isBlank c),
      { s with stdin_close := false, stdout_close := false, buf_len := 0, buf_pos := 0 }) := by
  have hrow := row_le (s.pipline_num + 1)
  have hahead : ∀ j (hj : j < text.length), s.ahead j = text[j] := by
    intro j hj
    have hplace : row (s.pipline_num + 1) + s.buf_pos.toNat + j = row (s.pipline_num + 1) + j := by
      rw [hpos]
      rfl
    rw [ahead, hplace, byte, if_pos (by omega)]
    exact h j hj
  have hword : s.word = text.takeWhile fun c => !isBlank c := by
    have hmap : (List.range text.length).map s.ahead = text := by
      refine List.ext_getElem (by simp) fun j h1 h2 => ?_
      rw [List.getElem_map, List.getElem_range, hahead j h2]
    rw [word, left, hlen, hpos, Int.sub_zero, Int.toNat_natCast, hmap]
  -- there is a zero in the bytes of the length, which lie behind the buffers
  obtain ⟨n, hn, hstrlen⟩ : ∃ n ≤ 514, strlen s.ahead (2 ^ 64) 0 = .ok n := by
    have hzero : s.ahead (0 + (514 - row (s.pipline_num + 1))) = 0 := by
      have hplace : row (s.pipline_num + 1) + s.buf_pos.toNat + (0 + (514 - row (s.pipline_num + 1))) = 514 := by
        simp only [IO_PIPELINE_BUF_SIZE] at hrow
        rw [hpos]
        omega
      have hlow : (s.buf_len % 2 ^ 32).toNat / 256 ^ (514 - 2 * IO_PIPELINE_BUF_SIZE) = 0 := by
        simp only [IO_PIPELINE_BUF_SIZE] at hfits ⊢
        rw [hlen]
        omega
      rw [ahead, hplace, byte, if_neg (by decide), if_pos (by decide), intByte, hlow]
      rfl
    obtain ⟨n, hn, hs⟩ := strlen_exists (show 514 - row (s.pipline_num + 1) < 2 ^ 64 by omega) hzero
    exact ⟨n, by omega, hs⟩
  have hlong : text.length ≤ n := by
    by_contra hlt
    have hz := (strlen_ok.1 hstrlen).2.1
    rw [Nat.zero_add, hahead n (by omega)] at hz
    exact h0 (hz ▸ List.getElem_mem _)
  have hint : int32 (s.buf_pos + n + 1) = n + 1 := by
    unfold int32
    rw [hpos, Int.bmod_eq_of_le] <;> omega
  have hadv : s.advance n = { s with stdin_close := false, stdout_close := false, buf_len := 0, buf_pos := 0 } := by
    simp only [advance, hint]
    exact if_pos (by omega)
  rw [sysUserScanf, if_pos hout, scanned, hstrlen, ← hadv, ← hword]
  rfl

theorem scans_one (h : ∀ c ∈ text.head?, isBlank c = false) :
    scans text 1 = [some (text.takeWhile fun c => !isBlank c)] := by
  have hfirst : (words isBlank text).getD 0 [] = text.takeWhile fun c => !isBlank c := by
    rcases words_cases isBlank text with ⟨hall, hnone⟩ | ⟨s, w, r, rfl, hs, hw, hne, hr, hwords⟩
    · cases text with
      | nil => simp
      | cons c text => exact absurd (h c rfl) (by simp [hall c List.mem_cons_self])
    · cases s with
      | cons c s => exact absurd (h c rfl) (by simp [hs c List.mem_cons_self])
      | nil =>
        rw [hwords, List.nil_append, List.takeWhile_append_of_pos fun c hc => by simp [hw c hc]]
        rcases hr with rfl | ⟨c, r, rfl, hc⟩
        · simp
        · simp [hc]
  rw [scans, ← hfirst]
  rfl

/-! ## Runs -/

def Clean (t : St) (i : ℕ) : Prop := ∀ j, j + 1 < i → IsRead t j

def before (t : St) : Text := if t.stage = 0 then [] else t.printed (t.stage - 1)

/-- a stage that has not scanned -/
structure Waiting (k : ℕ) (t : St) : Prop where
  pos : t.pipe.buf_pos = 0
  mode : t.pipe.stdout_close = decide (0 < t.stage)
  write : t.stage + 1 < k → t.pipe.stdin_close = true
  input : t.printed t.stage = [] → t.pipe.buf_len = (before t).length ∧ Holds t.pipe (t.pipe.pipline_num + 1) (before t)
  output : before t = [] → t.stage + 1 < k → t.pipe.buf_len = (t.printed t.stage).length ∧
    Holds t.pipe t.pipe.pipline_num (t.printed t.stage)

/-- a stage that has scanned -/
structure Served (k : ℕ) (t : St) : Prop where
  idle : Idle t.pipe
  quiet : t.stage + 1 < k → t.printed t.stage = []

structure Good (k : ℕ) (t : St) : Prop where
  small : ∀ i, (t.printed i).length ≤ IO_PIPELINE_BUF_SIZE
  later : ∀ i, t.stage < i → t.printed i = [] ∧ t.got i = []
  console : t.console = t.printed (k - 1)
  got : ∀ i, 0 < i → t.got i = scans (t.printed (i - 1)) (t.got i).length
  clean : ∀ i, 0 < i → t.got i ≠ [] → Clean t i
  relayed : t.stage + 1 = k → 1 < t.stage → t.got (t.stage - 1) ≠ [] → t.pipe.stdin_close = false
  waiting : t.stage < k → t.stage = 0 ∨ t.got t.stage = [] → Clean t t.stage → Waiting k t
  served : t.stage < k → 0 < t.stage → t.got t.stage ≠ [] → Served k t
  done : t.stage = k → Idle t.pipe

variable {r : Text × IoPipline}

theorem prints_self : (t.prints text r).printed t.stage = t.printed t.stage ++ text := update_self _ _ _

theorem prints_other (hi : i ≠ t.stage) : (t.prints text r).printed i = t.printed i := update_of_ne hi _ _

theorem gets_self {r : Option Text × IoPipline} : (t.gets r).got t.stage = t.got t.stage ++ [r.1] := update_self _ _ _

theorem gets_other {r : Option Text × IoPipline} (hi : i ≠ t.stage) : (t.gets r).got i = t.got i := update_of_ne hi _ _

theorem prints_clean (hi : i ≤ t.stage) : Clean (t.prints text r) i ↔ Clean t i := by
  refine forall_congr' fun j => imp_congr_right fun hj => ?_
  unfold IsRead
  rw [prints_other (by omega)]
  rfl

theorem before_prints : before (t.prints text r) = before t := by
  unfold before
  show (if t.stage = 0 then [] else _) = _
  split_ifs with h0
  · rfl
  · exact prints_other (show t.stage - 1 ≠ t.stage by omega)

section

variable (h : Good k t)

include h

theorem Good.prints (hlt : t.stage < k) (hfits : (t.printed t.stage ++ text).length ≤ IO_PIPELINE_BUF_SIZE)
    (hconsole : t.console ++ r.1 = (t.prints text r).printed (k - 1))
    (hrelayed : t.stage + 1 = k → 1 < t.stage → t.got (t.stage - 1) ≠ [] → r.2.stdin_close = false)
    (hwaiting : t.stage = 0 ∨ t.got t.stage = [] → Clean t t.stage → Waiting k (t.prints text r))
    (hserved : 0 < t.stage → t.got t.stage ≠ [] → Served k (t.prints text r)) : Good k (t.prints text r) where
  small i := by
    rcases eq_or_ne i t.stage with rfl | hi
    · rw [prints_self]
      exact hfits
    · rw [prints_other hi]
      exact h.small i
  later i hi := by
    have hi : t.stage < i := hi
    rw [prints_other (by omega)]
    exact h.later i hi
  console := hconsole
  got i hi := by
    rcases eq_or_ne (i - 1) t.stage with he | hne
    · -- the next stage has not scanned yet
      have hnone : (t.prints text r).got i = [] := (h.later i (by omega)).2
      rw [hnone]
      rfl
    · rw [prints_other hne]
      exact h.got i hi
  clean i hi hgot := by
    have hle : i ≤ t.stage := by
      by_contra hgt
      exact hgot (h.later i (by omega)).2
    exact (prints_clean hle).2 (h.clean i hi hgot)
  relayed := hrelayed
  waiting _ hgot hclean := hwaiting hgot ((prints_clean (Nat.le_refl _)).1 hclean)
  served _ := hserved
  done hstage := absurd hstage (Nat.ne_of_lt hlt)

theorem Good.print_middle (hlt : t.stage + 1 < k) (hfits : (t.printed t.stage ++ text).length ≤ IO_PIPELINE_BUF_SIZE)
    (hmay : t.stage = 0 ∨ t.got t.stage = [] ∧ ∀ j < t.stage, IsRead t j) :
    Good k (t.prints text (sysUserPrint text t.pipe)) := by
  have hclean : Clean t t.stage := by grind [Clean]
  have hnone : before t = [] := by
    unfold before
    split_ifs with h0
    · rfl
    · obtain ⟨hgot, hread⟩ := hmay.resolve_left h0
      refine (hread (t.stage - 1) (by omega)).resolve_right ?_
      rw [Nat.sub_add_cancel (by omega), not_not]
      exact hgot
  have hw := h.waiting (by omega) (hmay.imp_right And.left) hclean
  obtain ⟨hlen, hholds⟩ := hw.output hnone hlt
  obtain ⟨hout, hlen', hholds'⟩ := print_holds (hw.write hlt) hlen hfits hholds
  have hpipe : (sysUserPrint text t.pipe).2.pipline_num = t.pipe.pipline_num ∧
    (sysUserPrint text t.pipe).2.buf_pos = t.pipe.buf_pos ∧
      (sysUserPrint text t.pipe).2.stdout_close = t.pipe.stdout_close ∧
        (sysUserPrint text t.pipe).2.stdin_close = t.pipe.stdin_close := by
    unfold sysUserPrint
    rw [if_pos (hw.write hlt)]
    exact ⟨rfl, rfl, rfl, rfl⟩
  refine h.prints (by omega) hfits ?_ (fun he => by omega) (fun _ _ => ?_) fun h0 hgot => ?_
  · rw [hout, List.append_nil, prints_other (by omega)]
    exact h.console
  · refine ⟨hpipe.2.1.trans hw.pos, hpipe.2.2.1.trans hw.mode, fun _ => hpipe.2.2.2.trans (hw.write hlt),
      fun hempty => ?_, fun _ _ => ?_⟩
    · have hempty : t.printed t.stage ++ text = [] := prints_self.symm.trans hempty
      rw [before_prints, hnone]
      exact ⟨hlen'.trans (by rw [hempty]), holds_nil⟩
    · show _ = (((t.prints text _).printed t.stage).length : ℤ) ∧
        Holds _ (sysUserPrint text t.pipe).2.pipline_num ((t.prints text _).printed t.stage)
      rw [prints_self, hpipe.1]
      exact ⟨hlen', hholds'⟩
  · grind

theorem Good.print_last (hk : 2 ≤ k) (hlast : t.stage + 1 = k)
    (hfits : (t.printed t.stage ++ text).length ≤ IO_PIPELINE_BUF_SIZE)
    (h0 : 0 ∉ text) (hmay : t.got t.stage ≠ [] ∨ 1 < t.stage ∧ t.got (t.stage - 1) ≠ []) :
    Good k (t.prints text (sysUserPrint text t.pipe)) := by
  have hin : t.pipe.stdin_close = false := by
    rcases hmay with hgot | ⟨hone, hgot⟩
    · exact (h.served (by omega) (by omega) hgot).idle.1
    · exact h.relayed hlast hone hgot
  have hprint : sysUserPrint text t.pipe = (text, t.pipe) := by
    unfold sysUserPrint
    rw [if_neg (by simp [hin])]
    have hall := Shell.takeWhile_run (f := (· != 0)) (s := text) (t := []) (fun c hc => ?_) fun c hc => by cases hc
    · rw [List.append_nil] at hall
      rw [hall]
    · rw [bne_iff_ne]
      intro he
      exact h0 (he ▸ hc)
  rw [hprint]
  refine h.prints (by omega) hfits ?_ (fun _ _ _ => hin) (fun hgot hclean => ?_) fun hpos hgot => ?_
  · have hself : k - 1 = t.stage := by omega
    rw [hself, prints_self, h.console, hself]
  · have hw := h.waiting (by omega) hgot hclean
    refine ⟨hw.pos, hw.mode, fun hlt => absurd hlast (Nat.ne_of_lt hlt), fun hempty => ?_,
      fun _ hlt => absurd hlast (Nat.ne_of_lt hlt)⟩
    have hempty : t.printed t.stage ++ text = [] := prints_self.symm.trans hempty
    rw [before_prints]
    exact hw.input (List.append_eq_nil_iff.1 hempty).1
  · exact ⟨(h.served (by omega) hpos hgot).idle, fun hlt => absurd hlast (Nat.ne_of_lt hlt)⟩

theorem Good.scan_first {r : Option Text × IoPipline} (hlt : t.stage < k) (h0 : t.stage = 0)
    (hscan : sysUserScanf t.pipe = .ok r) : Good k (t.gets r) := by
  have hclean : Clean t t.stage := fun j hj => by omega
  have hw := h.waiting hlt (.inl h0) hclean
  have hnone : sysUserScanf t.pipe = .ok (none, t.pipe) := by
    unfold sysUserScanf
    rw [if_neg (by rw [hw.mode, h0]; decide)]
    rfl
  cases hscan.symm.trans hnone
  have hgot : ∀ i, 0 < i → (t.gets (none, t.pipe)).got i = t.got i := fun i hi => gets_other (by omega)
  have hread : ∀ i, Clean (t.gets (none, t.pipe)) i ↔ Clean t i := by
    intro i
    refine forall_congr' fun j => imp_congr_right fun _ => ?_
    unfold IsRead
    rw [hgot (j + 1) (Nat.succ_pos j)]
    rfl
  refine ⟨h.small, fun i hi => ⟨(h.later i hi).1, ?_⟩, h.console, fun i hi => ?_, fun i hi hne => ?_, ?_,
    fun _ _ _ => ?_, ?_,
    h.done⟩
  · rw [hgot i (by have : t.stage < i := hi; omega)]
    exact (h.later i hi).2
  · rw [hgot i hi]
    exact h.got i hi
  · rw [hgot i hi] at hne
    exact (hread i).2 (h.clean i hi hne)
  · intro _ hone
    have hone : 1 < t.stage := hone
    omega
  · exact { hw with }
  · intro _ hpos
    have hpos : 0 < t.stage := hpos
    omega

theorem Good.scan_later {r : Option Text × IoPipline} (hlt : t.stage < k) (hpos : 0 < t.stage)
    (hgot : t.got t.stage = []) (hquiet : t.printed t.stage = [])
    (hclean : ∀ j < t.stage - 1, IsRead t j) (h0 : 0 ∉ t.printed (t.stage - 1))
    (hhead : ∀ c ∈ (t.printed (t.stage - 1)).head?, isBlank c = false) (hscan : sysUserScanf t.pipe = .ok r) :
    Good k (t.gets r) := by
  have hclean : Clean t t.stage := fun j hj => hclean j (by omega)
  have hw := h.waiting hlt (.inr hgot) hclean
  obtain ⟨hlen, hholds⟩ := hw.input hquiet
  have hbefore : before t = t.printed (t.stage - 1) := if_neg (by omega)
  rw [hbefore] at hlen hholds
  have hread : ∀ i, Clean t i → Clean (t.gets r) i := by
    intro i hi j hj
    refine (hi j hj).imp_right fun hne => ?_
    rcases eq_or_ne (j + 1) t.stage with he | he
    · rw [he, gets_self]
      exact List.append_ne_nil_of_right_ne_nil _ (List.cons_ne_nil _ _)
    · rw [gets_other he]
      exact hne
  cases hscan.symm.trans (scan_run (hw.mode.trans (decide_eq_true hpos)) hw.pos hlen (h.small _) h0 hholds)
  have hself : ∀ pipe, (t.gets (some ((t.printed (t.stage - 1)).takeWhile fun c => !isBlank c), pipe)).got t.stage =
      scans (t.printed (t.stage - 1)) 1 := by
    intro pipe
    rw [gets_self, hgot, scans_one hhead]
    rfl
  have hidle : Idle { t.pipe with stdin_close := false, stdout_close := false, buf_len := 0, buf_pos := 0 } :=
    ⟨rfl, rfl, rfl, rfl⟩
  refine ⟨h.small, fun i hi => ⟨(h.later i hi).1, ?_⟩, h.console, fun i hi => ?_, fun i hi hne => ?_, fun _ _ _ => rfl,
    fun _ hnone _ => ?_, fun _ _ _ => ⟨hidle, fun _ => hquiet⟩, fun _ => hidle⟩
  · have hi : t.stage < i := hi
    rw [gets_other (by omega)]
    exact (h.later i hi).2
  · rcases eq_or_ne i t.stage with rfl | hne
    · rw [hself]
      rfl
    · rw [gets_other hne]
      exact h.got i hi
  · rcases eq_or_ne i t.stage with rfl | hi'
    · exact hread _ hclean
    · rw [gets_other hi'] at hne
      exact hread i (h.clean i hi hne)
  · rcases hnone with hz | hnone
    · have hz : t.stage = 0 := hz
      omega
    · have hnone : (t.gets _).got t.stage = [] := hnone
      rw [hself] at hnone
      cases hnone

theorem Good.leaves (hlt : t.stage + 1 < k) (hclean : Clean t (t.stage + 1)) :
    t.pipe.buf_pos = 0 ∧ t.pipe.buf_len = (t.printed t.stage).length ∧
      Holds t.pipe t.pipe.pipline_num (t.printed t.stage) := by
  have hclean' : Clean t t.stage := fun j hj => hclean j (by omega)
  by_cases hgot : t.stage = 0 ∨ t.got t.stage = []
  · have hw := h.waiting (by omega) hgot hclean'
    have hnone : before t = [] := by
      unfold before
      split_ifs with h0
      · rfl
      · refine (hclean (t.stage - 1) (by omega)).resolve_right ?_
        grind
    exact ⟨hw.pos, hw.output hnone hlt⟩
  · obtain ⟨h0, hgot⟩ := not_or.1 hgot
    have hs := h.served (by omega) (by omega) hgot
    rw [hs.quiet hlt]
    exact ⟨hs.idle.2.2.2, hs.idle.2.2.1, holds_nil⟩

theorem Good.next (hlt : t.stage + 1 < k) :
    Good k { t with
      pipe := if t.stage + 2 < k then sysUserPiplineWrite (sysUserPiplineRead t.pipe) else sysUserPiplineRead t.pipe
      stage := t.stage + 1 } := by
  have hpipe : ∃ s,
    (if t.stage + 2 < k then sysUserPiplineWrite (sysUserPiplineRead t.pipe) else sysUserPiplineRead t.pipe) = s ∧
      s.buf = t.pipe.buf ∧ s.buf_len = t.pipe.buf_len ∧ s.buf_pos = t.pipe.buf_pos ∧
        s.pipline_num = t.pipe.pipline_num + 1 ∧
      s.stdout_close = true ∧ (t.stage + 2 < k → s.stdin_close = true) ∧
        (¬ t.stage + 2 < k → s.stdin_close = t.pipe.stdin_close) := by
    split_ifs with hk
    · exact ⟨_, rfl, rfl, rfl, rfl, rfl, rfl, fun _ => rfl, fun hn => absurd hk hn⟩
    · exact ⟨_, rfl, rfl, rfl, rfl, rfl, rfl, fun hn => absurd hn hk, fun _ => rfl⟩
  obtain ⟨s, hs, hbuf, hlen, hpos, hflip, hout, hwrite, hkeep⟩ := hpipe
  rw [hs]
  have hnew := h.later (t.stage + 1) (by omega)
  refine ⟨h.small, fun i hi => h.later i (Nat.lt_of_succ_lt hi), h.console, h.got, h.clean, fun he _ hgot => ?_,
    fun _ _ hclean => ?_, fun _ _ hgot => absurd hnew.2 hgot, fun he => absurd he (Nat.ne_of_lt hlt)⟩
  · have he : t.stage + 2 = k := he
    have hgot : t.got t.stage ≠ [] := hgot
    have h0 : 0 < t.stage := by
      have : 1 < t.stage + 1 := ‹_›
      omega
    rw [hkeep (by omega)]
    exact (h.served (by omega) h0 hgot).idle.1
  · obtain ⟨hpos', hlen', hholds⟩ := h.leaves hlt hclean
    have hbefore : before { t with pipe := s, stage := t.stage + 1 } = t.printed t.stage := if_neg (Nat.succ_ne_zero _)
    refine ⟨hpos.trans hpos', hout.trans (decide_eq_true (Nat.succ_pos _)).symm, hwrite, fun _ => ?_, fun hnone _ => ?_⟩
    · rw [hbefore]
      refine ⟨hlen.trans hlen', ?_⟩
      have hback : s.pipline_num + 1 = t.pipe.pipline_num := by
        rw [hflip]
        omega
      show Holds s (s.pipline_num + 1) (t.printed t.stage)
      rw [hback]
      intro j hj
      rw [hbuf]
      exact hholds j hj
    · rw [hbefore] at hnone
      have hprinted : t.printed (t.stage + 1) = [] := hnew.1
      show s.buf_len = (t.printed (t.stage + 1)).length ∧ Holds s s.pipline_num (t.printed (t.stage + 1))
      rw [hprinted, hlen, hlen', hnone]
      exact ⟨rfl, holds_nil⟩

theorem Good.finish (hlast : t.stage + 1 = k) : Good k { t with pipe := sysUserPiplineReset t.pipe, stage := k } := by
  refine ⟨h.small, fun i hi => ?_, h.console, h.got, h.clean, fun he => ?_, fun hlt => absurd hlt (Nat.lt_irrefl k),
    fun hlt => absurd hlt (Nat.lt_irrefl k), fun _ => ⟨rfl, rfl, rfl, rfl⟩⟩
  · have hi : k < i := hi
    exact h.later i (by omega)
  · have he : k + 1 = k := he
    omega

theorem Good.step (hk : 2 ≤ k) (hallowed : Allowed k t op) (hstep : step k t op = .ok t') : Good k t' := by
  unfold Pipeline.step at hstep
  by_cases hlt : t.stage < k
  · rw [if_pos hlt] at hstep
    cases op with
    | print text =>
      cases hstep
      obtain ⟨hfits, hmay⟩ := hallowed
      unfold MayPrint at hmay
      split_ifs at hmay with hmiddle
      · exact h.print_middle hmiddle hfits hmay
      · exact h.print_last hk (by omega) hfits hmay.1 hmay.2
    | scan =>
      cases hscan : sysUserScanf t.pipe with
      | error e =>
        simp only [hscan] at hstep
        cases hstep
      | ok r =>
        simp only [hscan] at hstep
        cases hstep
        rcases Nat.eq_zero_or_pos t.stage with h0 | hpos
        · exact h.scan_first hlt h0 hscan
        · obtain ⟨hgot, hquiet, hclean, hzero, hhead⟩ := Or.resolve_left (show MayScan t from hallowed) (by omega)
          exact h.scan_later hlt hpos hgot hquiet hclean hzero hhead hscan
    | next =>
      by_cases hlast : t.stage + 1 = k
      · rw [show (if t.stage + 1 = k then _ else _) = _ from if_pos hlast] at hstep
        cases hstep
        exact h.finish hlast
      · rw [show (if t.stage + 1 = k then _ else _) = _ from if_neg hlast] at hstep
        cases hstep
        exact h.next (by omega)
  · rw [if_neg hlt] at hstep
    cases hstep

end

theorem good_start (hk : 2 ≤ k) (h : Start t) : Good k t := by
  obtain ⟨⟨s, hidle, hpipe⟩, hstage, hprinted, hgot, hconsole⟩ := h
  obtain ⟨-, hout, hlen, hpos⟩ := hidle
  have hbefore : before t = [] := if_pos hstage
  refine ⟨fun i => ?_, fun i _ => ⟨hprinted i, hgot i⟩, ?_, fun i _ => ?_, fun i _ hne => absurd (hgot i) hne,
    fun _ hone => by omega, fun _ _ _ => ?_, fun _ hpos => by omega, fun he => by omega⟩
  · rw [hprinted]
    exact Nat.zero_le _
  · rw [hconsole, hprinted]
  · rw [hgot]
    rfl
  · refine ⟨by rw [hpipe]; exact hpos, by rw [hpipe, hstage]; exact hout, fun _ => by rw [hpipe]; rfl,
      fun _ => ?_, fun _ _ => ?_⟩
    · rw [hbefore, hpipe]
      exact ⟨hlen, holds_nil⟩
    · rw [hprinted, hpipe]
      exact ⟨hlen, holds_nil⟩

/-- **Pipelines.** Each scan of a stage gives the next word that the stage before has printed, and what comes to the
console is what the last stage has printed. After the pipeline the hart is ready for the next one. -/
theorem pipeline_connects {k : ℕ} {t : St} (hk : 2 ≤ k) (h : Reach (step k) (Allowed k) Start t) :
    (∀ i, 0 < i → t.got i = scans (t.printed (i - 1)) (t.got i).length) ∧ t.console = t.printed (k - 1) ∧
      (t.stage = k → Idle t.pipe) := by
  have hgood : Good k t := h.inv (fun t ht => good_start hk ht) fun t op t' hgood hallowed hstep =>
    hgood.step hk hallowed hstep
  exact ⟨hgood.got, hgood.console, hgood.done⟩

def bootPipe : IoPipline := .zeroed

def bootSt : St := ⟨sysUserPiplineWrite bootPipe, 0, fun _ => [], fun _ => [], []⟩

theorem bootSt_start : Start bootSt :=
  ⟨⟨bootPipe, ⟨rfl, rfl, rfl, rfl⟩, rfl⟩, rfl, fun _ => rfl, fun _ => rfl, rfl⟩

def connected : St := exec (step 2) bootSt [.print (Shell.text "ab"), .next, .scan, .print (Shell.text "c"), .next]

theorem pipeline_connects_two : connected.got 1 = [some (Shell.text "ab")] ∧ connected.console = Shell.text "c" ∧
    Idle connected.pipe := by
  have hreach : Reach (step 2) (Allowed 2) Start connected :=
    reach_decide _ bootSt (.init bootSt_start) (by decide +kernel)
  obtain ⟨hgot, hconsole, hidle⟩ := pipeline_connects (by decide) hreach
  refine ⟨(hgot 1 (by decide)).trans (by decide +kernel), hconsole.trans (by decide +kernel), hidle (by decide +kernel)⟩

def swallowed : St := exec (step 2) bootSt [.print (Shell.text "ab"), .next, .print (Shell.text "c"), .next]

/-- The mode of the first stage is still on: the text of the last one goes to the buffer, and the console gets nothing.
-/
theorem unread_input_swallows_output : Reach (step 2) (fun _ _ => True) Start swallowed ∧ swallowed.stage = 2 ∧
    swallowed.printed 1 = Shell.text "c" ∧ swallowed.console = [] :=
  ⟨reach_decide _ bootSt (.init bootSt_start) (by decide +kernel),
    by decide +kernel, by decide +kernel, by decide +kernel⟩

end RiscvPke.Pipeline
