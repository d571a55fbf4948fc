/-
Runs of file calls from `fs_init`.
-/
import RiscvPke.Fs.Boot

namespace RiscvPke.Fs

open CData RiscvPke.Count Run RiscvPke.System

variable {D : Debts} {a : Afs} {s s' : St} {l : ℕ × Call} {name : CString}

/-! ## The conditions are decidable -/

theorem clean_dot {ts : List CString} {l : Loc} {token : CString} (h : token = dot) :
    a.Clean ts l ↔ a.Clean (token :: ts) l := by
  conv_rhs =>
    unfold Afs.Clean
    rw [if_pos h]

theorem clean_dotdot {ts : List CString} {l : Loc} {token : CString} (hdot : token ≠ dot) (h : token = dotdot) :
    a.Clean ts l.tail ↔ a.Clean (token :: ts) l := by
  conv_rhs =>
    unfold Afs.Clean
    rw [if_neg hdot, if_pos h]

instance decidableClean (a : Afs) : (ts : List CString) → (l : Loc) → Decidable (a.Clean ts l)
  | [], _ => isTrue trivial
  | token :: rest, l =>
    if hdot : token = dot then
      @decidable_of_iff _ (a.Clean rest l) (clean_dot hdot) (decidableClean a rest l)
    else if hdotdot : token = dotdot then
      @decidable_of_iff _ (a.Clean rest l.tail) (clean_dotdot hdot hdotdot) (decidableClean a rest l.tail)
    else
      match l with
      | [] =>
        if htoken : token = ramdisk0 then
          @decidable_of_iff _ (a.Clean rest [(ramdisk0, 0)])
            (by simp only [Afs.Clean, if_neg hdot, if_neg hdotdot]; exact ⟨fun h _ => h, fun h => h htoken⟩)
            (decidableClean a rest [(ramdisk0, 0)])
        else isTrue (by simp [Afs.Clean, hdot, hdotdot, htoken])
      | (name, n) :: l' =>
        match hfind : a.find n token with
        | none =>
          decidable_of_iff ((a.dinode n).type = FILE_I → (a.cur n).size < 32)
            (by simp [Afs.Clean, hdot, hdotdot, hfind])
        | some m =>
          haveI := decidableClean a rest ((token, m.toNat) :: (name, n) :: l')
          decidable_of_iff (((a.dinode n).type = FILE_I → (a.cur n).size < 32) ∧
            a.Clean rest ((token, m.toNat) :: (name, n) :: l'))
            (by simp [Afs.Clean, hdot, hdotdot, hfind])

instance {path : CString} {parent : ℕ} : Decidable (a.CleanPath path parent) := decidableClean a _ _

instance : (w : Walk) → Decidable (a.Fits name w)
  | .missing ((_, k) :: _) miss =>
    inferInstanceAs (Decidable (miss = name → (a.dinode k).type = DIR_I → (a.dir k).length < 128 ∧ name.length < 28))
  | .missing [] _ => isTrue trivial
  | .found _ => isTrue trivial
  | .host => isTrue trivial

instance {p : ℕ} : (call : Call) → Decidable (a.Cond p call)
  | .open path flags => inferInstanceAs (Decidable (a.CleanPath path (a.pfiles p).cwd ∧
      (flags &&& O_CREAT ≠ 0 → a.Fits (getBaseName path) (a.resolve path (a.pfiles p).cwd))))
  | .mkdir path => inferInstanceAs (Decidable (a.CleanPath path (a.pfiles p).cwd ∧
      a.Fits (getBaseName path) (a.resolve path (a.pfiles p).cwd)))
  | .link oldpath newpath => inferInstanceAs (Decidable (a.CleanPath oldpath (a.pfiles p).cwd ∧
      a.CleanPath newpath (a.pfiles p).cwd ∧ a.Fits (getBaseName newpath) (a.resolve newpath (a.pfiles p).cwd)))
  | .unlink path => inferInstanceAs (Decidable (a.CleanPath path (a.pfiles p).cwd))
  | .opendir path => inferInstanceAs (Decidable (a.CleanPath path (a.pfiles p).cwd))
  | .ccwd path => inferInstanceAs (Decidable (a.CleanPath path (a.pfiles p).cwd))
  | .write _ _ => isTrue trivial
  | .lseek _ _ _ => isTrue trivial
  | .close _ => isTrue trivial

/-! ## Runs -/

/-- the condition of `Fs.Calls` on a call of a process -/
def Careful (s : St) (l : ℕ × Call) : Prop := (abs s).Cond l.1 l.2

instance : Decidable (Careful s l) := inferInstanceAs (Decidable ((abs s).Cond l.1 l.2))

theorem act_of_step (h : step s l = .ok s') : ∃ r, act l.1 l.2 s = .ok (r, s') := by
  obtain ⟨⟨r, _⟩, hact, rfl⟩ := map_ok h
  exact ⟨r, hact⟩

theorem step_post (h : Tidy D (abs s)) (hfair : Fair D) (hc : Careful s l) {r : ℤ}
    (hact : act l.1 l.2 s = .ok (r, s')) :
    Post D (abs s) l.1 l.2 r (abs s') :=
  (act_spec (E := fun _ => True) (fun _ _ => trivial) (fun _ => .inl trivial) (.inl trivial) h hfair hc).run hact

/-- **Runs.** The invariant holds in every state of a run whose calls are careful. -/
theorem reach_tidy (h : Reach step Careful Boot s) : ∃ D, Tidy D (abs s) ∧ Fair D := by
  refine h.inv (P := fun s => ∃ D, Tidy D (abs s) ∧ Fair D) ?_ ?_
  · intro s hs
    exact ⟨Debts.none, (boot_spec hs).tidy, fair_none⟩
  · rintro s l s' ⟨D, htidy, hfair⟩ hc hstep
    obtain ⟨r, hact⟩ := act_of_step hstep
    obtain ⟨c, D', heff, -⟩ := step_post htidy hfair hc hact
    exact ⟨D', heff.tidy, heff.fair⟩

/-- the new name of a link is not missing in a regular file -/
def InDir (s : St) (l : ℕ × Call) : Prop :=
  ∀ oldpath path, l.2 = .link oldpath path → (abs s).Housed path ((abs s).pfiles l.1).cwd

instance {path : CString} {parent : ℕ} : Decidable (a.Housed path parent) := by
  unfold Afs.Housed
  split <;> infer_instance

instance : (l : ℕ × Call) → Decidable (InDir s l)
  | (p, .link _ newpath) =>
    decidable_of_iff ((abs s).Housed newpath ((abs s).pfiles p).cwd) (by simp [InDir])
  | (_, .open _ _) => isTrue fun _ _ h => nomatch h
  | (_, .mkdir _) => isTrue fun _ _ h => nomatch h
  | (_, .unlink _) => isTrue fun _ _ h => nomatch h
  | (_, .opendir _) => isTrue fun _ _ h => nomatch h
  | (_, .ccwd _) => isTrue fun _ _ h => nomatch h
  | (_, .write _ _) => isTrue fun _ _ h => nomatch h
  | (_, .lseek _ _ _) => isTrue fun _ _ h => nomatch h
  | (_, .close _) => isTrue fun _ _ h => nomatch h

/-- the call returns and does not fail -/
def Succeeds (s : St) (l : ℕ × Call) : Prop := ∃ r s', act l.1 l.2 s = .ok (r, s') ∧ 0 ≤ r

instance : Decidable (Succeeds s l) :=
  match hact : act l.1 l.2 s with
  | .ok (r, s') => decidable_of_iff (0 ≤ r) (by simp [Succeeds, hact])
  | .error e => isFalse (by simp [Succeeds, hact])

/-- a link that the call asks for is made, or would go to a directory -/
def Clear (s : St) (l : ℕ × Call) : Prop := Succeeds s l ∨ InDir s l

theorem Clear.result (h : Clear s l) {r : ℤ} (hact : act l.1 l.2 s = .ok (r, s')) : 0 ≤ r ∨ InDir s l := by
  refine h.imp (fun hok => ?_) id
  obtain ⟨r', s'', hact', hr⟩ := hok
  rw [hact] at hact'
  cases hact'
  exact hr

theorem reach_clear (h : Reach step (fun s l => Careful s l ∧ Clear s l) Boot s) : Tidy Debts.none (abs s) := by
  refine h.inv (P := fun s => Tidy Debts.none (abs s)) (fun s hs => (boot_spec hs).tidy) ?_
  intro s l s' htidy ⟨hc, hclear⟩ hstep
  obtain ⟨r, hact⟩ := act_of_step hstep
  obtain ⟨c, D', heff, -, hnone, -⟩ := step_post htidy fair_none hc hact
  obtain rfl : D' = Debts.none := hnone rfl (hclear.result hact)
  exact heff.tidy

theorem no_assertion (h : Tidy Debts.none (abs s)) (hc : Careful s l) (c : String) :
    act l.1 l.2 s ≠ .error (.stop (.assertion c)) := by
  have hE : Mild fun e => ∀ c, e ≠ .stop (.assertion c) := fun e he => he.1
  have hspec := act_spec hE (fun _ => .inr rfl) (.inl fun c hc => by cases hc) h fair_none hc s rfl
  intro herr
  rw [herr] at hspec
  exact hspec c rfl

def Roomy (s : St) (l : ℕ × Call) : Prop :=
  match l.2 with
  | .open path flags =>
    flags &&& O_CREAT ≠ 0 → (abs s).Fits (getBaseName path) ((abs s).resolve path ((abs s).pfiles l.1).cwd)
  | .mkdir path => (abs s).Fits (getBaseName path) ((abs s).resolve path ((abs s).pfiles l.1).cwd)
  | .link _ newpath => (abs s).Fits (getBaseName newpath) ((abs s).resolve newpath ((abs s).pfiles l.1).cwd)
  | _ => True

instance : (l : ℕ × Call) → Decidable (Roomy s l)
  | (p, .open path flags) => inferInstanceAs
      (Decidable (flags &&& O_CREAT ≠ 0 →
        (abs s).Fits (getBaseName path) ((abs s).resolve path ((abs s).pfiles p).cwd)))
  | (p, .mkdir path) =>
    inferInstanceAs (Decidable ((abs s).Fits (getBaseName path) ((abs s).resolve path ((abs s).pfiles p).cwd)))
  | (p, .link _ newpath) => inferInstanceAs
      (Decidable ((abs s).Fits (getBaseName newpath) ((abs s).resolve newpath ((abs s).pfiles p).cwd)))
  | (_, .unlink _) => isTrue trivial
  | (_, .opendir _) => isTrue trivial
  | (_, .ccwd _) => isTrue trivial
  | (_, .write _ _) => isTrue trivial
  | (_, .lseek _ _ _) => isTrue trivial
  | (_, .close _) => isTrue trivial

/-! ## A state to start from -/

def boot : St :=
  match fsInit (fun _ => 0) (reset (fun _ _ => 0) fun _ => 0) with
  | .ok (_, s) => s
  | .error _ => reset (fun _ _ => 0) fun _ => 0

theorem boot_boot : Boot boot := by
  refine ⟨fun _ _ => 0, fun _ => 0, fun _ => 0, ?_⟩
  have hok : (fsInit (fun _ => 0) (reset (fun _ _ => 0) fun _ => 0)).isOk = true := by decide +kernel
  unfold boot
  cases h : fsInit (fun _ => 0) (reset (fun _ _ => 0) fun _ => 0) with
  | error e =>
    rw [h] at hok
    cases hok
  | ok res => rfl

def str (bytes : List UInt8) : CString := bytes.filterMap fun c => if h : c ≠ 0 then some ⟨c, h⟩ else none

def onDisk (bytes : List UInt8) : CString := slash :: ramdisk0 ++ slash :: str bytes

end RiscvPke.Fs
