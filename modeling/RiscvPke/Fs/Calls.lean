/-
The file calls, one theorem each: from a state with the invariant, under `Cond`, a call has the effect that it asks for.
-/
import RiscvPke.Fs.Effects

namespace RiscvPke.Fs

open Function CData RiscvPke.Count Run

variable {D D' : Debts} {a a' a1 : Afs} {n m v w d p k b up i : ℕ} {V W V' : Vinode} {De : Dentry}
  {E : Fault → Prop} {l : Loc}
  {name path : CString} {c : Change}

/-! ## What a call may do and what it asks for -/

def Afs.Fits (a : Afs) (name : CString) : Walk → Prop
  | .missing ((_, k) :: _) miss =>
    miss = name → (a.dinode k).type = DIR_I → (a.dir k).length < BLOCK_DIRENTRYS ∧ name.length < RFS_MAX_FILE_NAME_LEN
  | _ => True

def Afs.Creates (a : Afs) (path : CString) (parent : ℕ) (c : Change) : Prop :=
  match a.resolve path parent with
  | .missing ((_, k) :: _) name =>
    if name = getBaseName path ∧ (a.dinode k).type = DIR_I then
      ∃ m : ℕ, ¬ Live a m ∧ c = .add k ⟨name, m⟩ else c = .none
  | _ => c = .none

/-- the change that a call with the result `r` makes -/
def Afs.Asks (a : Afs) (p : ℕ) (r : ℤ) : Call → Change → Prop
  | .open path flags, c => if flags &&& O_CREAT ≠ 0 then a.Creates path (a.pfiles p).cwd c else c = .none
  | .mkdir path, c => a.Creates path (a.pfiles p).cwd c
  | .link oldpath newpath, c =>
    if r < 0 then c = .none
    else ∃ q n l q' k l', a.resolve oldpath (a.pfiles p).cwd = .found ((q, n) :: l) ∧
      a.resolve newpath (a.pfiles p).cwd = .missing ((q', k) :: l') (getBaseName newpath) ∧
      c = .add k ⟨getBaseName newpath, (n : ℕ)⟩
  | .unlink path, c =>
    if r < 0 then c = .none
    else ∃ name n q k l, a.resolve path (a.pfiles p).cwd = .found ((name, n) :: (q, k) :: l) ∧
      a.find k name = some (n : ℤ) ∧
      (a.dinode n).type = FILE_I ∧ c = .remove k name
  | .write _ _, c => c = .none ∨ c = .data
  | _, c => c = .none

variable {parent : ℕ}

theorem Afs.Creates.cases (h : a.Creates path parent c) : c = .none ∨ ∃ k e, c = .add k e := by
  grind [Afs.Creates]

variable {call : Call}

theorem Afs.Asks.cases {r : ℤ} (h : a.Asks p r call c) :
    (c = .none ∨ ∃ k e, c = .add k e) ∨ (c = .data ∧ ∃ fd buf, call = .write fd buf) ∨
      ∃ path name n q k l, c = .remove k name ∧ call = .unlink path ∧
        a.resolve path (a.pfiles p).cwd = .found ((name, n) :: (q, k) :: l) ∧ a.find k name = some ((n : ℕ) : ℤ) ∧
        (a.dinode n).type = FILE_I ∧ 0 ≤ r := by
  cases call with
  | unlink path =>
    simp only [Afs.Asks] at h
    grind
  | «open» path flags =>
    simp only [Afs.Asks] at h
    split_ifs at h
    · exact .inl h.cases
    · exact .inl (.inl h)
  | mkdir path => exact .inl (Afs.Creates.cases h)
  | link oldpath newpath => grind [Afs.Asks]
  | write fd buf =>
    rcases h with he | he
    · exact .inl (.inl he)
    · exact .inr (.inl ⟨he, fd, buf, rfl⟩)
  | lseek fd offset whence => exact .inl (.inl h)
  | close fd => exact .inl (.inl h)
  | opendir path => exact .inl (.inl h)
  | ccwd path => exact .inl (.inl h)

theorem Afs.Asks.remove {r : ℤ} (h : a.Asks p r call (.remove k name)) :
    ∃ path n q l, call = .unlink path ∧ a.resolve path (a.pfiles p).cwd = .found ((name, n) :: (q, k) :: l) ∧
      a.find k name = some ((n : ℕ) : ℤ) ∧ (a.dinode n).type = FILE_I ∧ 0 ≤ r := by
  have := h.cases
  grind

theorem Afs.Asks.data {r : ℤ} (h : a.Asks p r call .data) : ∃ fd buf, call = .write fd buf := by
  have := h.cases
  grind

def Afs.Cond (a : Afs) (p : ℕ) : Call → Prop
  | .open path flags => a.CleanPath path (a.pfiles p).cwd ∧
      (flags &&& O_CREAT ≠ 0 → a.Fits (getBaseName path) (a.resolve path (a.pfiles p).cwd))
  | .mkdir path => a.CleanPath path (a.pfiles p).cwd ∧ a.Fits (getBaseName path) (a.resolve path (a.pfiles p).cwd)
  | .link oldpath newpath => a.CleanPath oldpath (a.pfiles p).cwd ∧ a.CleanPath newpath (a.pfiles p).cwd ∧
      a.Fits (getBaseName newpath) (a.resolve newpath (a.pfiles p).cwd)
  | .unlink path => a.CleanPath path (a.pfiles p).cwd
  | .opendir path => a.CleanPath path (a.pfiles p).cwd
  | .ccwd path => a.CleanPath path (a.pfiles p).cwd
  | .write _ _ => True
  | .lseek _ _ _ => True
  | .close _ => True

/-! ## Lookups -/

theorem walk_missing {ts : List CString} {l' : Loc} (h : a.walk ts l = .missing l' name) :
    ∃ q k l'', l' = (q, k) :: l'' ∧ a.find k name = none := by
  induction ts generalizing l with
  | nil => cases h
  | cons token rest ih =>
    unfold Afs.walk at h
    by_cases hdot : token = dot
    · rw [if_pos hdot] at h
      exact ih h
    rw [if_neg hdot] at h
    by_cases hdotdot : token = dotdot
    · rw [if_pos hdotdot] at h
      exact ih h
    cases l with
    | nil => grind [ramdisk0]
    | cons head l => grind

theorem Grows.start (hg : Grows a a') (hl : a.loc d = some l) : a'.start path d = a.start path d := by
  unfold Afs.start
  rw [hl, hg.loc hl]

theorem lookup_spec {α : Type} {g : Looked → F α} {Q : α → Afs → Prop} (hE : Milder E) (h : Tidy D a)
    (hclean : a.CleanPath path (a.pfiles p).cwd)
    (hg : ∀ r a', Tidy D a' → Grows a a' → Answer D a' r (a.resolve path (a.pfiles p).cwd) → Spec abs E a' (g r) Q) :
    Spec abs E a (getPathStartDentry p path >>= fun start => lookupFinalDentry path start >>= g) Q := by
  apply Spec.seq
  apply spec_get_bind
  intro s hs
  rw [show s.vfs_root_dentry = a.vfs_root_dentry by rw [← hs]; rfl, show s.pfiles = a.pfiles by rw [← hs]; rfl]
  apply spec_pure
  have hhost : E .hostfs := hE _ (by simp)
  have hlong : E (.stop .outOfBounds) := hE _ (by simp)
  by_cases habs : absolute path = true
  · rw [if_pos habs]
    have hstart : a.start path a.vfs_root_dentry = a.start path (a.pfiles p).cwd := by
      unfold Afs.start
      rw [if_pos habs, if_pos habs]
    unfold Afs.CleanPath at hclean
    unfold Afs.resolve at hg
    rw [← hstart] at hclean hg
    refine (lookupFinalDentry_spec (fun _ => hhost) (fun _ => hlong) h (.inl rfl) hclean).bind ?_
    intro r a' ⟨h', hgrow, hans⟩
    exact hg r a' h' hgrow hans
  · rw [if_neg habs]
    refine (lookupFinalDentry_spec (fun _ => hhost) (fun _ => hlong) h (h.inv.tree.cwd p) hclean).bind ?_
    intro r a' ⟨h', hgrow, hans⟩
    exact hg r a' h' hgrow hans

/-! ## open -/

theorem creates_found (h : a.resolve path parent = .found l) : a.Creates path parent .none := by
  unfold Afs.Creates
  rw [h]

theorem creates_refused {q : CString} (h : a.resolve path parent = .missing ((q, k) :: l) name)
    (hno : ¬ (name = getBaseName path ∧ (a.dinode k).type = DIR_I)) : a.Creates path parent .none := by
  unfold Afs.Creates
  rw [h]
  dsimp only
  rw [if_neg hno]

theorem creates_add {q : CString} (h : a.resolve path parent = .missing ((q, k) :: l) (getBaseName path))
    (hk : (a.dinode k).type = DIR_I) (hm : (a.dinode m).type = R_FREE) :
    a.Creates path parent (.add k ⟨getBaseName path, (m : ℤ)⟩) := by
  unfold Afs.Creates
  rw [h]
  dsimp only
  rw [if_pos ⟨rfl, hk⟩]
  exact ⟨m, not_not.2 hm, rfl⟩

theorem Tidy.dir_type (h : Tidy D a) (hN : Node D a up w W) (hWt : W.type = DIR_I) (hk : W.inum = k) :
    (a.dinode k).type = DIR_I := by
  obtain ⟨-, -, hs, -⟩ := hN.cachedAt h.inv hk
  rw [← hs.type]
  exact hWt

def Afs.Housed (a : Afs) (path : CString) (parent : ℕ) : Prop :=
  match a.resolve path parent with
  | .missing ((_, k) :: _) _ => (a.dinode k).type = DIR_I
  | _ => True

/-- a name that a call wants to enter would go to a directory -/
def Afs.Lodged (a : Afs) (p : ℕ) : Call → Prop
  | .open path flags => flags &&& O_CREAT ≠ 0 → a.Housed path (a.pfiles p).cwd
  | .mkdir path => a.Housed path (a.pfiles p).cwd
  | .link _ newpath => a.Housed newpath (a.pfiles p).cwd
  | _ => True

theorem Afs.Housed.dir {q : CString} (h : a.Housed path parent)
    (hwalk : a.resolve path parent = .missing ((q, k) :: l) name) :
    (a.dinode k).type = DIR_I := by
  unfold Afs.Housed at h
  rwa [hwalk] at h

def Ready (D : Debts) (a : Afs) (d : ℕ) : Prop := d ∉ D.stray ∧ ∃ De, a.dentries d = some De

/-- the dentry is that of a regular file -/
def FileAt (a : Afs) (d : ℕ) : Prop :=
  ∃ De v V, a.dentries d = some De ∧ De.dentry_inode = some v ∧ a.vinodes v = some V ∧ V.type = FILE_I

theorem created_fileAt (hv : Vacant a m b) (hk : (a.dinode k).type = DIR_I) :
    FileAt (a.created w W k name m b FILE_I up) a.next := by
  have hkm := hv.ne (live_of_type (.inr hk))
  refine ⟨_, _, _, update_self _ _ _, rfl, update_self _ _ _, ?_⟩
  show ((a.make w W k name m b FILE_I).dinode m).type = FILE_I
  unfold Afs.make Afs.putDir Afs.mint
  simp only [update_of_ne hkm, update_self]
  rfl

theorem Tidy.target {r : Looked} {q : CString} (h : Tidy D a') (hg : Grows a a') (hr : r.parent = some up)
    (hst : up ∉ D.stray)
    (hUp : a'.dentries up = some De) (hl : a'.loc up = some ((q, k) :: l)) (hfind : a.find k name = none)
    (hfit : (a.dinode k).type = DIR_I → (a.dir k).length < BLOCK_DIRENTRYS ∧ name.length < RFS_MAX_FILE_NAME_LEN) :
    Target D a' r up k name := by
  obtain ⟨l', hl', hseat⟩ := h.inv.seat hUp hst
  cases hl.symm.trans hl'
  have hfind' : a'.find k name = none := by rwa [hg.find]
  refine ⟨hr, hseat.node, h.unhashed hl hfind', hfind', ?_⟩
  rw [hg.dinode, hg.dir]
  exact hfit

theorem openDentry_spec {flags : ℕ} {Q : Option ℕ → Afs → Prop} (hE : Milder E)
    (hW : Spare E a) (hP : E (.stop cannotCreate) ∨ a.Lodged p (.open path flags)) (h : Tidy D a) (hfair : Fair D)
    (hcond : a.Cond p (.open path flags))
    (hQ : ∀ r c a', Effect a c D a' → (∀ fd, a.Asks p fd (.open path flags) c) → (∀ d, r = some d → Ready D a' d) →
      (Grows a a' ∨ ∃ d, r = some d ∧ FileAt a' d) → Q r a') :
    Spec abs E a (openDentry p path flags) Q := by
  obtain ⟨hclean, hfit⟩ := hcond
  refine lookup_spec hE h hclean fun r a1 h1 hg hans => ?_
  -- without a creation the directories stay as they are
  have hidle : ∀ o, (flags &&& O_CREAT ≠ 0 → a.Creates path (a.pfiles p).cwd .none) →
    (∀ d, o = some d → Ready D a1 d) → Q o a1 := by
    intro o hc ho
    refine hQ o .none a1 ((h1.idle hfair).after hg) (fun fd => ?_) ho (.inl hg)
    show if flags &&& O_CREAT ≠ 0 then a.Creates path (a.pfiles p).cwd .none else Change.none = .none
    grind
  cases hwalk : a.resolve path (a.pfiles p).cwd with
  | found l =>
    rw [hwalk] at hans
    obtain ⟨d, hd, -, hst, De, hDe, -⟩ := hans
    rw [hd]
    apply spec_pure
    refine hidle (some d) (fun _ => creates_found hwalk) fun x hx => ?_
    cases hx
    exact ⟨hst, De, hDe⟩
  | missing l name =>
    rw [hwalk] at hans hfit
    obtain ⟨hd, hmiss, up, De, hr, hst, hDe, hloc⟩ := hans
    obtain ⟨q, k, l', rfl, hfind⟩ := walk_missing hwalk
    rw [hd]
    by_cases hcreate : flags &&& O_CREAT ≠ 0 ∧ r.miss_name = getBaseName path
    · rw [if_pos hcreate]
      obtain ⟨hflags, hbase⟩ := hcreate
      obtain rfl : name = getBaseName path := hmiss.symm.trans hbase
      have hT := h1.target hg hr hst hDe hloc hfind (hfit hflags rfl)
      apply Spec.seq
      have hP1 : E (.stop cannotCreate) ∨ (a1.dinode k).type = DIR_I := by
        rw [hg.dinode]
        exact hP.imp id fun hlodged => (hlodged hflags).dir hwalk
      refine vfsCreate_spec hE (by rwa [Spare, hg.dinode]) hP1 h1 hT fun w W m b ho hv => ?_
      apply spec_pure
      have hkd := h1.dir_type ho.node ho.type ho.inum
      have heff := h1.created_effect hfair hv (.inl rfl) ho
      refine hQ _ _ _ (heff.after hg) (fun fd => ?_) ?_ (.inr ⟨_, rfl, created_fileAt hv hkd⟩)
      · show if flags &&& O_CREAT ≠ 0 then a.Creates path (a.pfiles p).cwd _ else _
        rw [if_pos hflags]
        rw [hg.dinode] at hkd
        exact creates_add hwalk hkd (hg.dinode ▸ hv.inode)
      · intro x hx
        cases hx
        exact ⟨h1.unstray le_rfl, _, update_self _ _ _⟩
    · grind [spec_pure, creates_refused]
  | host =>
    rw [hwalk] at hans
    exact hans.elim

def Post (D : Debts) (a : Afs) (p : ℕ) (call : Call) (r : ℤ) (a' : Afs) : Prop :=
  ∃ c D', Effect a c D' a' ∧ a.Asks p r call c ∧
    (D = Debts.none → (0 ≤ r ∨ ∀ oldpath path, call = .link oldpath path → a.Housed path (a.pfiles p).cwd) →
      D' = Debts.none) ∧
    (r < 0 → a.Lodged p call → Grows a a')

theorem Effect.post {r : ℤ} (h : Effect a c D a') (hc : a.Asks p r call c)
    (hfail : r < 0 → a.Lodged p call → Grows a a') :
    Post D a p call r a' :=
  ⟨c, D, h, hc, fun hD _ => hD, hfail⟩

theorem Effect.done {r : ℤ} (h : Effect a c D a') (hc : a.Asks p r call c) (hr : 0 ≤ r) : Post D a p call r a' :=
  h.post hc fun hneg => absurd hneg (not_lt.2 hr)

/-! ## The tables of files -/

theorem Tidy.setPfiles {pf : Pfiles} (h : Tidy D a)
    (hfiles : ∀ fd file, pf.opened_files fd = some file → file.f_dentry < a.next ∧ file.f_dentry ∉ D.stray)
    (hcwd : Base D a pf.cwd) : Tidy D { a with pfiles := update a.pfiles p pf } := by
  refine { h with inv := h.inv.setPfiles ?_ ?_ }
  · intro q fd file hf
    by_cases hq : q = p
    · rw [hq, update_self] at hf
      exact hfiles fd file hf
    · rw [update_of_ne hq] at hf
      exact h.inv.tree.files q fd file hf
  · intro q
    by_cases hq : q = p
    · rw [hq, update_self]
      exact hcwd
    · rw [update_of_ne hq]
      exact h.inv.tree.cwd q

def Fileable (D : Debts) (a : Afs) (file : File) : Prop := file.f_dentry < a.next ∧ file.f_dentry ∉ D.stray

theorem Tidy.putFile {entry nfiles : ℕ} {file : File} (h : Tidy D a) (hf : Fileable D a file) : Tidy D
      { a with
        pfiles := update a.pfiles p
          ⟨(a.pfiles p).cwd, update (a.pfiles p).opened_files entry (some file), nfiles⟩ } := by
  refine h.setPfiles (fun fd x hx => ?_) (h.inv.tree.cwd p)
  rcases update_cases hx with ⟨-, hx⟩ | ⟨-, hx⟩
  · cases hx
    exact hf
  · exact h.inv.tree.files p fd x hx

theorem Effect.setPfiles {pf : ℕ → Pfiles} (h : Effect a c D a1) (ht : Tidy D { a1 with pfiles := pf }) :
    Effect a c D { a1 with pfiles := pf } :=
  h.tables ht rfl rfl rfl rfl rfl

variable {U : Unit → Afs → Prop}

theorem setPfiles_spec {pf : Pfiles} (h : U () { a with pfiles := update a.pfiles p pf }) :
    Spec abs E a (setPfiles p pf) U := by
  apply spec_modify
  rintro s rfl
  exact h

theorem installFile_spec {file : File} {Q : ℤ → Afs → Prop} (h : Effect a c D a1) (hf : Fileable D a1 file)
    (hQ : ∀ fd a', 0 ≤ fd → Effect a c D a' → Q fd a') : Spec abs E a1 (installFile p file) Q := by
  apply spec_get_bind
  intro s hs
  rw [show s.pfiles = a1.pfiles by rw [← hs]; rfl]
  apply Spec.seq
  apply setPfiles_spec
  apply spec_pure
  exact hQ _ _ (Int.natCast_nonneg _) (h.setPfiles (h.tidy.putFile hf))

theorem putOpenedFile_spec {entry : ℕ} {file : File} (h : Effect a c D a1) (hf : Fileable D a1 file)
    (hU : ∀ a', Effect a c D a' → U () a') : Spec abs E a1 (putOpenedFile p entry file) U := by
  apply spec_get_bind
  intro s hs
  rw [show s.pfiles = a1.pfiles by rw [← hs]; rfl]
  apply setPfiles_spec
  exact hU _ (h.setPfiles (h.tidy.putFile hf))

theorem getOpenedFile_spec {fd : ℤ} {Q : File → Afs → Prop} (hE : Mild E) (h : Tidy D a)
    (hQ : ∀ file, Fileable D a file → Q file a) : Spec abs E a (getOpenedFile p fd) Q := by
  apply spec_get_bind
  intro s hs
  rw [show s.pfiles = a.pfiles by rw [← hs]; rfl]
  cases hf : (a.pfiles p).opened_files (fileEntry fd) with
  | none => exact spec_throw (hE _ (by simp))
  | some file => exact spec_pure (hQ file (h.inv.tree.files p _ file hf))

theorem allocVfsFile_spec {readable writable : Bool} {Q : File → Afs → Prop} (h : Effect a c D a1) (hd : d ∉ D.stray)
    (hDe : a1.dentries d = some De)
    (hQ : ∀ file,
      Fileable D { a1 with dentries := update a1.dentries d (some { De with d_ref := De.d_ref + 1 }) } file →
      Effect a c D { a1 with dentries := update a1.dentries d (some { De with d_ref := De.d_ref + 1 }) } →
      Q file { a1 with dentries := update a1.dentries d (some { De with d_ref := De.d_ref + 1 }) }) :
    Spec abs E a1 (allocVfsFile d readable writable) Q := by
  apply dentryAt_spec hDe
  apply Spec.seq
  apply setDentry_spec
  apply spec_pure
  refine hQ _ ⟨h.tidy.inv.dentry_lt hDe, hd⟩ ?_
  exact h.tables (h.tidy.setDref hDe _) rfl rfl rfl rfl rfl

section

variable {flags : ℕ} (hE : Milder E) (hW : Spare E a) (hP : E (.stop cannotCreate) ∨
  a.Lodged p (.open path flags)) (h : Tidy D a)
  (hfair : Fair D) (hcond : a.Cond p (.open path flags))

include hE hW hP h hfair hcond

theorem vfsOpen_spec {Q : Option File → Afs → Prop}
    (hQ : ∀ r c a', Effect a c D a' → (∀ fd, a.Asks p fd (.open path flags) c) →
      (∀ file, r = some file → Fileable D a' file) →
      (r = none → Grows a a') → Q r a') :
    Spec abs E a (vfsOpen p path flags) Q := by
  apply Spec.seq
  refine openDentry_spec hE hW hP h hfair hcond fun r c a1 heff hasks hready hmade => ?_
  have hfail : Grows a a1 → Q none a1 := fun hg => hQ none c a1 heff hasks (fun file hf => by cases hf) fun _ => hg
  cases r with
  | none => exact spec_pure (hfail (hmade.resolve_right fun ⟨d, hd, _⟩ => by cases hd))
  | some d =>
    obtain ⟨hst, De, hDe⟩ := hready d rfl
    -- a new file is no directory
    have hother : ∀ {De v V}, a1.dentries d = some De → De.dentry_inode = some v → a1.vinodes v = some V →
      V.type ≠ FILE_I → Q none a1 := by
      intro De v V hDe hv hV ht
      refine hfail (hmade.resolve_right ?_)
      intro ⟨x, hx, De', v', V', hDe', hv', hV', ht'⟩
      grind
    apply inodeOf_cases heff.tidy.inv hst (fun hn => by rw [hDe] at hn; cases hn)
    · intro _ v V hDe' hV _ ht hv _
      have ht' : V.type ≠ FILE_I := by
        rw [ht]
        decide
      rw [if_pos ht']
      exact spec_pure (hother hDe' hv hV ht')
    · intro De' v V n hDe' hN hv _
      by_cases hf : V.type = FILE_I
      · rw [if_neg (not_not.2 hf)]
        apply Spec.seq
        unfold openMode
        have hmode : ∀ readable writable : Bool, Spec abs E a1 (do
            let file ← allocVfsFile d readable writable
            let _ ← rfsInodeOf d
            return some file) Q := by
          intro readable writable
          apply Spec.seq
          refine allocVfsFile_spec heff hst hDe' fun file hfile heff' => ?_
          apply Spec.seq
          refine rfsInodeOf_spec (update_self _ _ _) hv (by exact hN.vinode) (fun hh => by rw [hN.rfs] at hh; cases hh)
            fun _ => ?_
          grind [spec_pure]
        split
        · exact spec_pure (hmode true false)
        · exact spec_pure (hmode false true)
        · exact spec_pure (hmode true true)
        · exact spec_throw (hE.stop (by simp))
      · rw [if_pos hf]
        exact spec_pure (hother hDe' hv hN.vinode hf)

theorem doOpen_spec : Spec abs E a (doOpen p path flags) (Post D a p (.open path flags)) := by
  apply Spec.seq
  refine vfsOpen_spec hE hW hP h hfair hcond fun r c a1 heff hasks hfile hfail => ?_
  cases r with
  | none => exact spec_pure (heff.post (hasks _) fun _ _ => hfail rfl)
  | some file =>
    apply spec_get_bind
    intro s hs
    by_cases hfull : MAX_FILES ≤ (s.pfiles p).nfiles
    · rw [if_pos hfull]
      exact Spec.seq (spec_throw (hE.stop (by simp)))
    · rw [if_neg hfull]
      exact installFile_spec heff (hfile file rfl) fun fd a' hfd heff' => heff'.done (hasks fd) hfd

end

/-! ## mkdir -/

theorem vfsMkdir_spec (hE : Milder E) (hW : Spare E a) (h : Tidy D a) (hfair : Fair D)
    (hcond : a.Cond p (.mkdir path)) :
    Spec abs E a (vfsMkdir p path) fun ok a' => Post D a p (.mkdir path) (result ok) a' := by
  obtain ⟨hclean, hfit⟩ := hcond
  refine lookup_spec hE h hclean fun r a1 h1 hg hans => ?_
  -- without an entry the directories stay as they are
  have hidle : a.Creates path (a.pfiles p).cwd .none → Post D a p (.mkdir path) (result false) a1 :=
    fun hc => ((h1.idle hfair).after hg).post hc fun _ _ => hg
  cases hwalk : a.resolve path (a.pfiles p).cwd with
  | found l =>
    rw [hwalk] at hans
    obtain ⟨d, hd, -⟩ := hans
    rw [hd, if_pos Option.isSome_some]
    exact spec_pure (hidle (creates_found hwalk))
  | missing l name =>
    rw [hwalk] at hans hfit
    obtain ⟨hd, hmiss, up, De, hr, hst, hDe, hloc⟩ := hans
    obtain ⟨q, k, l', rfl, hfind⟩ := walk_missing hwalk
    rw [hd, if_neg (by simp)]
    by_cases hbase : r.miss_name = getBaseName path
    · rw [if_neg (not_not.2 hbase)]
      obtain rfl : name = getBaseName path := hmiss.symm.trans hbase
      have hT := h1.target hg hr hst hDe hloc hfind (hfit rfl)
      refine mkdirBody_spec hE (by rwa [Spare, hg.dinode]) h1 hT ?_ ?_
      · intro w W m b ho hv
        have hkd := h1.dir_type ho.node ho.type ho.inum
        have heff := h1.created_effect hfair hv (.inr rfl) ho
        rw [hg.dinode] at hkd
        exact (heff.after hg).done (creates_add hwalk hkd (hg.dinode ▸ hv.inode)) le_rfl
      · intro m b hkd hv
        rw [hg.dinode] at hkd
        refine ((h1.leak_effect hfair hv).after hg).post (creates_refused hwalk fun hc => hkd hc.2) fun _ hlodged => ?_
        exact absurd (Afs.Housed.dir hlodged hwalk) hkd
    · grind [spec_pure, creates_refused]
  | host =>
    rw [hwalk] at hans
    exact hans.elim

/-! ## link -/

theorem Inv.loc_node (h : Inv D a) (hl : a.loc d = some l) (hN : Node D a d v V) (hn : V.inum = n) :
    ∃ q l', l = (q, n) :: l' := by
  obtain ⟨De, hDe, -⟩ := hN.dentry
  obtain ⟨l1, hl1, hseat⟩ := h.seat hDe hN.hashed
  cases hl.symm.trans hl1
  cases l with
  | nil =>
    cases hseat with
    | root hd => exact absurd hd (h.ne_root hN)
  | cons head l' =>
    obtain ⟨q, n'⟩ := head
    obtain ⟨v', V', hN', hn'⟩ := hseat.node
    obtain ⟨rfl, rfl⟩ := hN.unique hN'
    obtain rfl : n = n' := by omega
    exact ⟨q, l', rfl⟩

theorem Tidy.cwd_loc (h : Tidy D a) (p : ℕ) : ∃ l, a.loc (a.pfiles p).cwd = some l := by
  obtain ⟨De, l, -, -, hl⟩ := h.inv.base (h.inv.tree.cwd p)
  exact ⟨l, hl⟩

theorem Grows.resolve (hg : Grows a a') (h : Tidy D a) (p : ℕ) :
    a'.resolve path (a'.pfiles p).cwd = a.resolve path (a.pfiles p).cwd := by
  obtain ⟨l, hl⟩ := h.cwd_loc p
  unfold Afs.resolve
  rw [hg.pfiles, hg.start hl, hg.walk]

theorem Grows.cleanPath (hg : Grows a a') (h : Tidy D a) (p : ℕ) :
    a'.CleanPath path (a'.pfiles p).cwd ↔ a.CleanPath path (a.pfiles p).cwd := by
  obtain ⟨l, hl⟩ := h.cwd_loc p
  unfold Afs.CleanPath
  rw [hg.pfiles, hg.start hl, hg.clean]

theorem vfsLink_spec {oldpath newpath : CString} (hE : Mild E) (h : Tidy D a) (hfair : Fair D)
    (hcond : a.Cond p (.link oldpath newpath)) :
    Spec abs E a (vfsLink p oldpath newpath) fun ok a' => Post D a p (.link oldpath newpath) (result ok) a' := by
  obtain ⟨hclean, hclean', hfit⟩ := hcond
  refine lookup_spec hE.milder h hclean fun r a1 h1 hg1 hans => ?_
  have hidle : ∀ a', Tidy D a' → Grows a a' → Post D a p (.link oldpath newpath) (result false) a' :=
    fun a' h' hg => ((h'.idle hfair).after hg).post rfl fun _ _ => hg
  cases hwalk : a.resolve oldpath (a.pfiles p).cwd with
  | found l =>
    rw [hwalk] at hans
    obtain ⟨old, hd, hloc, hst, De, hDe, -⟩ := hans
    rw [hd]
    refine fileOf_cases h1.inv hst (fun hn => by rw [hDe] at hn; cases hn) (spec_pure (hidle a1 h1 hg1))
      fun De' v V n hDe' hN hv hn hf => ?_
    obtain ⟨q, l', rfl⟩ := h1.inv.loc_node hloc hN hn
    refine lookup_spec hE.milder h1 ((hg1.cleanPath h p).2 hclean') fun r2 a2 h2 hg2 hans2 => ?_
    have hg := hg1.trans hg2
    rw [hg1.resolve h] at hans2
    cases hwalk2 : a.resolve newpath (a.pfiles p).cwd with
    | found l2 =>
      rw [hwalk2] at hans2
      obtain ⟨d2, hd2, -⟩ := hans2
      rw [hd2, if_pos Option.isSome_some]
      exact spec_pure (hidle a2 h2 hg)
    | missing l2 name =>
      rw [hwalk2] at hans2 hfit
      obtain ⟨hd2, hmiss, up, Up, hr, hst', hUp, hloc2⟩ := hans2
      obtain ⟨q2, k, l2', rfl, hfind⟩ := walk_missing hwalk2
      rw [hd2, if_neg (by simp)]
      by_cases hbase : r2.miss_name = getBaseName newpath
      · rw [if_neg (not_not.2 hbase)]
        obtain rfl : name = getBaseName newpath := hmiss.symm.trans hbase
        obtain ⟨ref, hN2⟩ := hg2.node hN
        refine linkBody_spec hE h2 hN2 hf hn (h2.target hg hr hst' hUp hloc2 hfind (hfit rfl)) ?_ ?_
        · intro w W ho hz
          have heff := h2.linked_effect hfair hN2.vinode hN2.rfs hn hf hz ho
          refine ⟨_, _, heff.after hg, ?_, fun hD _ => ?_, fun hneg => absurd hneg (by decide)⟩
          · exact ⟨q, n, l', q2, k, l2', hwalk, hwalk2, rfl⟩
          · rw [hD]
            exact settle_none
        · intro hkd hz
          rw [hg.dinode] at hkd
          refine ⟨_, _, (h2.halfLinked_effect hfair hN2.vinode hN2.rfs hn hf hz).after hg, rfl, fun _ hok => ?_,
            fun _ hlodged => ?_⟩
          -- no link below a regular file is asked for
          · rcases hok with hok | hok
            · cases hok
            · exact absurd ((hok oldpath newpath rfl).dir hwalk2) hkd
          · exact absurd (Afs.Housed.dir hlodged hwalk2) hkd
      · rw [if_pos hbase]
        exact spec_pure (hidle a2 h2 hg)
    | host =>
      rw [hwalk2] at hans2
      exact hans2.elim
  | missing l name =>
    rw [hwalk] at hans
    rw [hans.1]
    exact spec_pure (hidle a1 h1 hg1)
  | host =>
    rw [hwalk] at hans
    exact hans.elim

/-! ## unlink -/

theorem Inv.loc_file (h : Inv D a) (hl : a.loc d = some l) (hN : Node D a d v V) (hDe : a.dentries d = some De)
    (hn : V.inum = n) (hf : V.type = FILE_I) :
    ∃ up w W q k l', l = (De.name, n) :: (q, k) :: l' ∧ De.parent = some up ∧ Node D a up w W ∧ W.type = DIR_I ∧
      W.inum = (k : ℕ) ∧
      a.find k De.name = some (n : ℤ) := by
  obtain ⟨l1, hl1, hseat⟩ := h.seat hDe hN.hashed
  cases hl.symm.trans hl1
  cases hseat with
  | root hd => exact absurd hd (h.ne_root hN)
  | mount _ _ hX h0 =>
    -- the mount point is a directory
    obtain ⟨rfl, rfl⟩ := hN.unique hX
    obtain ⟨-, -, hs, -⟩ := hN.cachedAt h (n := 0) h0
    have hroot := h.disk.root
    rw [← hs.type, hf] at hroot
    cases hroot
  | @below up _ k n' _ q l' hpar _ hdir hX hx hfind =>
    obtain ⟨rfl, rfl⟩ := hN.unique hX
    obtain rfl : n = n' := by omega
    obtain ⟨w, W, hNw, hWt, hWk⟩ := hdir
    exact ⟨up, w, W, q, k, l', rfl, hpar, hNw, hWt, hWk, hfind⟩

theorem vfsUnlink_spec (hE : Mild E) (hA : ∀ c, E (.stop (.assertion c)) ∨ D = Debts.none) (h : Tidy D a)
    (hfair : Fair D) (hcond : a.Cond p (.unlink path)) :
    Spec abs E a (vfsUnlink p path) fun ok a' => Post D a p (.unlink path) (result ok) a' := by
  refine lookup_spec hE.milder h hcond fun r a1 h1 hg hans => ?_
  have hidle : Post D a p (.unlink path) (result false) a1 := ((h1.idle hfair).after hg).post rfl fun _ _ => hg
  cases hwalk : a.resolve path (a.pfiles p).cwd with
  | found l =>
    rw [hwalk] at hans
    obtain ⟨d, hd, hloc, hst, De, hDe, hpar⟩ := hans
    rw [hd]
    refine fileOf_cases h1.inv hst (fun hn => by rw [hDe] at hn; cases hn) (spec_pure hidle)
      fun De' v V n hDe' hN hv hn hf => ?_
    cases hDe.symm.trans hDe'
    apply dentryAt_spec hDe
    by_cases href : 0 < De.d_ref
    · rw [if_pos href]
      exact spec_pure hidle
    · rw [if_neg href]
      obtain ⟨up, w, W, q, k, l', rfl, hup, hNw, hWt, hWk, hfind⟩ := h1.inv.loc_file hloc hN hDe hn hf
      have hr : r.parent = some up := by
        rcases hpar with hp | hroot | ⟨x, y, Y, hNy, hYt, -⟩
        · exact hp.trans hup
        · exact absurd hroot (h1.inv.ne_root hN)
        · obtain ⟨rfl, rfl⟩ := hN.unique hNy
          rw [hf] at hYt
          cases hYt
      have hkind : (a.dinode n).type = FILE_I := by
        obtain ⟨-, -, hs, -⟩ := hN.cachedAt h1.inv hn
        rw [← hg.dinode, ← hs.type]
        exact hf
      refine unlinkBody_spec hA h1 hfair hN hDe (not_lt.1 href) hf hn hup hr hNw hWt hWk hfind fun i hx hmem => ⟨?_, ?_⟩
      · intro hmore
        exact ((hx.unlinkedMore_effect h1 hfair hmem hmore).after hg).done
          ⟨De.name, n, q, k, l', hwalk, hg.find ▸ hfind, hkind, rfl⟩ le_rfl
      · intro hlast
        exact ((hx.unlinkedLast_effect h1 hfair hmem hlast).after hg).done
          ⟨De.name, n, q, k, l', hwalk, hg.find ▸ hfind, hkind, rfl⟩ le_rfl
  | missing l name =>
    rw [hwalk] at hans
    rw [hans.1]
    exact spec_pure hidle
  | host =>
    rw [hwalk] at hans
    exact hans.elim

/-! ## close, write, lseek -/

theorem doClose_spec {fd : ℤ} (hE : Mild E) (h : Tidy D a) (hfair : Fair D) :
    Spec abs E a (doClose p fd) (Post D a p (.close fd)) := by
  apply Spec.seq
  refine getOpenedFile_spec hE h fun file hfile => ?_
  -- the entry of the file is marked as closed
  have hlast : ∀ D' a1, Effect a .none D' a1 → Fileable D' a1 file → (D = Debts.none → D' = Debts.none) →
      Spec abs E a1 (do
        if true then putOpenedFile p (fileEntry fd) { file with status := false }
        return result true) (Post D a p (.close fd)) := by
    intro D' a1 heff hf hD
    apply Spec.seq
    refine putOpenedFile_spec heff hf fun a2 heff2 => ?_
    exact spec_pure ⟨.none, D', heff2, rfl, fun hD0 _ => hD hD0, fun hneg => absurd hneg (by decide)⟩
  apply Spec.seq
  refine vfsClose_spec hE h hfile.2 ?_ ?_
  · exact spec_pure ((h.idle hfair).post rfl fun _ _ => Grows.refl a)
  · intro De v V n hN hDe hf hn
    refine ⟨fun _ => ?_, fun _ => ?_, fun href => ?_⟩
    · exact hlast D _ ((h.idle hfair).tables (h.setDref hDe _) rfl rfl rfl rfl rfl) hfile id
    · exact hlast D _ (h.dropped_effect hfair hN hf hDe) hfile id
    · refine hlast (D.settle n) _ (h.evicted_effect hfair hN hf hDe hn href) hfile fun hD => ?_
      rw [hD]
      exact settle_none

theorem doWrite_spec {fd : ℤ} {buf : List UInt8} (hE : Mild E) (h : Tidy D a) (hfair : Fair D) :
    Spec abs E a (doWrite p fd buf) (Post D a p (.write fd buf)) := by
  apply Spec.seq
  refine getOpenedFile_spec hE h fun file hfile => ?_
  have hidle : ∀ r, Post D a p (.write fd buf) r a := fun r => (h.idle hfair).post (.inl rfl) fun _ _ => Grows.refl a
  by_cases hw : (!file.writable) = true
  · rw [if_pos hw]
    exact Spec.seq (spec_throw (hE.stop (by simp)))
  rw [if_neg hw]
  apply Spec.seq
  unfold vfsWrite
  rw [if_neg hw]
  refine fileOf_cases h.inv hfile.2 (fun _ => hE _ (by simp)) (spec_pure (spec_pure (hidle _)))
    fun De v V n hDe hN hv hn hf => ?_
  apply Spec.seq
  refine rfsInodeOf_spec hDe hv hN.vinode (fun hh => by rw [hN.rfs] at hh; cases hh) fun _ => ?_
  apply Spec.seq
  refine rfsWrite_spec hE h hN.vinode hN.rfs hf fun a1 V1 hwr => ?_
  apply spec_pure
  apply Spec.seq
  have hnext : a1.next = a.next := by
    rw [hwr.state]
  have hfile1 : Fileable D a1 { file with offset := file.offset + buf.length } :=
    ⟨by rw [hnext]; exact hfile.1, hfile.2⟩
  refine putOpenedFile_spec (hwr.effect hfair h hN.vinode) hfile1 fun a2 heff2 => ?_
  exact spec_pure (heff2.done (.inr rfl) (Int.natCast_nonneg _))

theorem doLseek_spec {fd offset whence : ℤ} (hE : Mild E) (h : Tidy D a) (hfair : Fair D) :
    Spec abs E a (doLseek p fd offset whence) (Post D a p (.lseek fd offset whence)) := by
  apply Spec.seq
  refine getOpenedFile_spec hE h fun file hfile => ?_
  have hidle : ∀ r, Post D a p (.lseek fd offset whence) r a := fun r => (h.idle hfair).post rfl fun _ _ => Grows.refl a
  apply Spec.seq
  refine fileOf_cases h.inv hfile.2 (fun _ => hE _ (by simp)) (spec_pure (spec_pure (hidle _)))
    fun De v V n hDe hN hv hn hf => ?_
  apply Spec.seq
  refine rfsInodeOf_spec hDe hv hN.vinode (fun hh => by rw [hN.rfs] at hh; cases hh) fun _ => ?_
  apply vinodeAt_spec hN.vinode
  apply spec_pure
  cases rfsLseek V.toDinode offset whence file.offset with
  | none => exact spec_pure (hidle _)
  | some z =>
    apply Spec.seq
    refine putOpenedFile_spec (h.idle hfair) (by exact hfile) fun a1 heff => ?_
    exact spec_pure (heff.done rfl (Int.natCast_nonneg _))

/-! ## opendir, ccwd -/

theorem rfsHookOpendir_spec {e : Dinode} (hE : Mild E) (hU : U () a) : Spec abs E a (rfsHookOpendir e) U := by
  unfold rfsHookOpendir
  -- the blocks are only read
  induction (List.range e.blocks.toNat).reverse with
  | nil => exact spec_pure hU
  | cons i is ih =>
    apply Spec.seq
    apply Spec.seq
    refine Spec.post (Q := fun _ x => x = a) ?_ ?_
    · unfold Dinode.addr
      split
      · exact spec_pure rfl
      · exact spec_throw (hE.stop (by simp))
    · rintro x _ rfl
      exact ramdiskRead_spec hE ih

theorem doOpendir_spec (hE : Mild E) (h : Tidy D a) (hfair : Fair D) (hcond : a.Cond p (.opendir path)) :
    Spec abs E a (doOpendir p path) (Post D a p (.opendir path)) := by
  apply Spec.seq
  refine lookup_spec hE.milder h hcond fun r a1 h1 hg hans => ?_
  have heff := (h1.idle hfair).after hg
  have hidle : Spec abs E a1 (pure (-1 : ℤ)) (Post D a p (.opendir path)) := spec_pure (heff.post rfl fun _ _ => hg)
  cases hwalk : a.resolve path (a.pfiles p).cwd with
  | found l =>
    rw [hwalk] at hans
    obtain ⟨d, hd, hloc, hst, De, hDe, -⟩ := hans
    rw [hd]
    -- a file object, then the table
    have hopen : ∀ v V, De.dentry_inode = some v → a1.vinodes v = some V → Spec abs E a1 (do
        let file ← allocVfsFile d true false
        let V ← vinodeAt (← inodeOf d)
        if !V.host then rfsHookOpendir V.toDinode
        return some file) fun r a2 => ∃ file, r = some file ∧ Spec abs E a2 (do
          if freeEntry ((← get).pfiles p) = MAX_FILES then
            stop (.panic "do_opendir: no file entry for current process!\n")
          installFile p file) (Post D a p (.opendir path)) := by
      intro v V hv hV
      apply Spec.seq
      refine allocVfsFile_spec heff hst hDe fun file hfile heff2 => ?_
      have hinstall : Spec abs E
        { a1 with dentries := update a1.dentries d (some { De with d_ref := De.d_ref + 1 }) } (do
            if freeEntry ((← get).pfiles p) = MAX_FILES then
              stop (.panic "do_opendir: no file entry for current process!\n")
            installFile p file) (Post D a p (.opendir path)) := by
        apply spec_get_bind
        intro s hs
        by_cases hfull : freeEntry (s.pfiles p) = MAX_FILES
        · rw [if_pos hfull]
          exact Spec.seq (spec_throw (hE.stop (by simp)))
        · rw [if_neg hfull]
          exact installFile_spec heff2 hfile fun fd a' hfd heff' => heff'.done rfl hfd
      refine inodeOf_spec (update_self _ _ _) hv ?_
      grind [Spec.seq, vinodeAt_spec, rfsHookOpendir_spec, spec_pure]
    apply inodeOf_cases h1.inv hst (fun hn => by rw [hDe] at hn; cases hn)
    · intro De' v V hDe' hV _ ht hv _
      cases hDe.symm.trans hDe'
      rw [if_neg (not_not.2 ht)]
      refine (hopen v V hv hV).post fun r a2 hr => ?_
      obtain ⟨file, rfl, hfile⟩ := hr
      exact hfile
    · intro De' v V n hDe' hN hv hn
      cases hDe.symm.trans hDe'
      by_cases hf : V.type = DIR_I
      · rw [if_neg (not_not.2 hf)]
        refine (hopen v V hv hN.vinode).post fun r a2 hr => ?_
        obtain ⟨file, rfl, hfile⟩ := hr
        exact hfile
      · rw [if_pos hf]
        exact spec_pure hidle
  | missing l name =>
    rw [hwalk] at hans
    rw [hans.1]
    exact spec_pure hidle
  | host =>
    rw [hwalk] at hans
    exact hans.elim

theorem doCcwd_spec (hE : Mild E) (h : Tidy D a) (hfair : Fair D) (hcond : a.Cond p (.ccwd path)) :
    Spec abs E a (doCcwd p path) (Post D a p (.ccwd path)) := by
  apply spec_get_bind
  intro s hs
  rw [show s.pfiles = a.pfiles by rw [← hs]; rfl]
  have hhost : E .hostfs := hE _ (by simp)
  have hlong : E (.stop .outOfBounds) := hE _ (by simp)
  refine (lookupFinalDentry_spec (fun _ => hhost) (fun _ => hlong) h (h.inv.tree.cwd p) hcond).bind ?_
  intro r a1 ⟨h1, hg, hans⟩
  have heff := (h1.idle hfair).after hg
  have hidle : Post D a p (.ccwd path) (-1) a1 := heff.post rfl fun _ _ => hg
  cases hwalk : a.resolve path (a.pfiles p).cwd with
  | found l =>
    rw [hwalk] at hans
    obtain ⟨d, hd, -, hst, De, hDe, -⟩ := hans
    rw [hd]
    -- the new working directory is a directory
    have hset : Base D a1 d → Spec abs E a1 (do
        setPfiles p { a.pfiles p with cwd := d }
        return 0) (Post D a p (.ccwd path)) := by
      intro hbase
      apply Spec.seq
      apply setPfiles_spec
      refine spec_pure (Effect.done (heff.setPfiles (h1.setPfiles (fun fd file hf => ?_) hbase)) rfl le_rfl)
      rw [← hg.pfiles] at hf
      exact h1.inv.tree.files p fd file hf
    apply inodeOf_cases h1.inv hst (fun hn => by rw [hDe] at hn; cases hn)
    · intro _ v V _ _ _ ht _ hroot
      rw [if_neg (not_not.2 ht)]
      exact hset (.inl hroot)
    · intro De' v V n hDe' hN hv hn
      by_cases hf : V.type = DIR_I
      · rw [if_neg (not_not.2 hf)]
        exact hset (.inr ⟨n, v, V, hN, hf, hn⟩)
      · rw [if_pos hf]
        exact spec_pure hidle
  | missing l name =>
    rw [hwalk] at hans
    rw [hans.1]
    exact spec_pure hidle
  | host =>
    rw [hwalk] at hans
    exact hans.elim

/-- **A call.** From a tidy state a call ends in a tidy state, with the effect that it asks for; without debts no
assertion of `unlink` fails. -/
theorem act_spec (hE : Mild E) (hA : ∀ c, E (.stop (.assertion c)) ∨ D = Debts.none)
    (hP : E (.stop cannotCreate) ∨ a.Lodged p call) (h : Tidy D a) (hfair : Fair D) (hcond : a.Cond p call) :
    Spec abs E a (act p call) (Post D a p call) := by
  cases call with
  | «open» path flags => exact doOpen_spec hE.milder (.inl (hE _ (by simp))) hP h hfair hcond
  | write fd buf => exact doWrite_spec hE h hfair
  | lseek fd offset whence => exact doLseek_spec hE h hfair
  | close fd => exact doClose_spec hE h hfair
  | mkdir path => exact (vfsMkdir_spec hE.milder (.inl (hE _ (by simp))) h hfair hcond).bind fun _ _ hr => spec_pure hr
  | link oldpath newpath => exact (vfsLink_spec hE h hfair hcond).bind fun _ _ hr => spec_pure hr
  | unlink path => exact (vfsUnlink_spec hE hA h hfair hcond).bind fun _ _ hr => spec_pure hr
  | opendir path => exact doOpendir_spec hE h hfair hcond
  | ccwd path => exact doCcwd_spec hE h hfair hcond

end RiscvPke.Fs
