/-
Who has a file open (kernel/proc_file.c, kernel/vfs.c): the tables of opened files of the processes and the counts
`d_ref` of the dentries, over any file system. What a path leads to, the type of the inode and whether a file system
removes a name are inputs of the calls; dentries have names that are never used again.
-/
import RiscvPke.Fs.Invariant

namespace RiscvPke.Openers

open Function RiscvPke.Count RiscvPke.System Run
open RiscvPke.Fs (File Pfiles Fault MAX_FILES MASK_FILEMODE FILE_I DIR_I fileEntry freeEntry result)

/-! ## The model -/

@[ext] structure St where
  vfs_root_dentry : ℕ
  /-- of the dentries in memory -/
  d_ref : ℕ → Option ℤ
  pfiles : ℕ → Pfiles
  /-- the processes that have not exited -/
  live : ℕ → Bool

abbrev M := StateT St (Except Fault)

def stop {α : Type} (e : Stop) : M α := throw (.stop e)

def getRef (d : ℕ) : M ℤ := do
  match (← get).d_ref d with
  | some c => return c
  | none => throw .wildPointer

def setRef (d : ℕ) (o : Option ℤ) : M Unit := modify fun s => { s with d_ref := update s.d_ref d o }

/-- what the lookup of a path ends at, or the creation of a file: a dentry and the type of its inode -/
abbrev Found := Option (ℕ × ℤ)

def allocVfsFile (d : ℕ) (readable writable : Bool) : M File := do
  let c ← getRef d
  setRef d (some (c + 1))
  return { status := true, readable := readable, writable := writable, offset := 0, f_dentry := d }

def openMode (flags : ℕ) : M (Bool × Bool) :=
  match flags &&& MASK_FILEMODE with
  | 0 => return (true, false)
  | 1 => return (false, true)
  | 2 => return (true, true)
  | _ => stop (.panic "fs_open: invalid open flags!\n")

def vfsOpen (found : Found) (flags : ℕ) : M (Option File) := do
  match found with
  | none => return none
  | some (d, type) =>
    if type ≠ FILE_I then return none
    let (readable, writable) ← openMode flags
    return some (← allocVfsFile d readable writable)

def vfsOpendir (found : Found) : M (Option File) := do
  match found with
  | none => return none
  | some (d, type) =>
    if type ≠ DIR_I then return none
    return some (← allocVfsFile d true false)

def vfsClose (file : File) (type : ℤ) : M Bool := do
  if type ≠ FILE_I then return false
  let c ← getRef file.f_dentry
  setRef file.f_dentry (if c - 1 = 0 then none else some (c - 1))
  return true

def vfsClosedir (file : File) (type : ℤ) : M Bool := do
  if type ≠ DIR_I then return false
  let c ← getRef file.f_dentry
  setRef file.f_dentry (some (c - 1))
  return true

/-- false for -1; `removed`: what `viop_unlink` does -/
def vfsUnlink (found : Found) (removed : Bool) : M Bool := do
  match found with
  | none => return false
  | some (d, type) =>
    if type ≠ FILE_I then return false
    if 0 < (← getRef d) then return false
    if !removed then return false
    setRef d none
    return true

def setPfiles (p : ℕ) (pf : Pfiles) : M Unit := modify fun s => { s with pfiles := update s.pfiles p pf }

/-- the file goes to the first entry with the status FD_NONE; with no free entry the last one is overwritten -/
def installed (pf : Pfiles) (file : File) : Pfiles :=
  { pf with
    opened_files := update pf.opened_files (min (freeEntry pf) (MAX_FILES - 1)) (some file)
    nfiles := pf.nfiles + 1 }

def installFile (p : ℕ) (file : File) : M ℤ := do
  let pf := (← get).pfiles p
  setPfiles p (installed pf file)
  return freeEntry pf

/-- what `do_open` and `do_opendir` do with the file that they have opened; `full`: there is no entry for it -/
def installWith (full : Pfiles → Bool) (msg : String) (p : ℕ) : Option File → M ℤ
  | none => return -1
  | some file => do
    if full ((← get).pfiles p) then stop (.panic msg)
    installFile p file

def doOpen (p : ℕ) (found : Found) (flags : ℕ) : M ℤ := do
  installWith (fun pf => MAX_FILES ≤ pf.nfiles) "do_open: no file entry for current process!\n" p
    (← vfsOpen found flags)

def doOpendir (p : ℕ) (found : Found) : M ℤ := do
  installWith (fun pf => freeEntry pf = MAX_FILES) "do_opendir: no file entry for current process!\n" p
    (← vfsOpendir found)

def getOpenedFile (p : ℕ) (fd : ℤ) : M File := do
  match ((← get).pfiles p).opened_files (fileEntry fd) with
  | some file => return file
  | none => throw .wildPointer

def put (pf : Pfiles) (entry : ℕ) (file : File) : Pfiles :=
  { pf with opened_files := update pf.opened_files entry (some file) }

/-- `do_close` and `do_closedir`: the status is cleared when the file system layer has closed the file -/
def closeWith (close : File → M Bool) (p : ℕ) (fd : ℤ) : M ℤ := do
  let file ← getOpenedFile p fd
  let ok ← close file
  if ok then setPfiles p (put ((← get).pfiles p) (fileEntry fd) { file with status := false })
  return result ok

def doClose (p : ℕ) (fd type : ℤ) : M ℤ := closeWith (fun file => vfsClose file type) p fd

def doClosedir (p : ℕ) (fd type : ℤ) : M ℤ := closeWith (fun file => vfsClosedir file type) p fd

/-- `vfs_read`, `vfs_write` and `vfs_lseek` move the offset of a file -/
def moveOffset (p : ℕ) (fd : ℤ) (offset : ℕ) : M ℤ := do
  let file ← getOpenedFile p fd
  setPfiles p (put ((← get).pfiles p) (fileEntry fd) { file with offset := offset })
  return offset

/-- `do_ccwd`, when it has found the directory -/
def changeDir (p d : ℕ) : M ℤ := do
  setPfiles p { (← get).pfiles p with cwd := d }
  return 0

/-- the file of a program; without one `vfs_close` gets a null pointer -/
def loadFile (found : Found) (flags : ℕ) : M ℤ := do
  match ← vfsOpen found flags with
  | none => stop .nullPointer
  | some file => return result (← vfsClose file FILE_I)

def initProcFileManagement (s : St) : Pfiles := ⟨s.vfs_root_dentry, fun _ => none, 0⟩

inductive Op where
  /-- a lookup, a creation or a link has a new dentry -/
  | lookup (d : ℕ)
  | open (p : ℕ) (found : Found) (flags : ℕ)
  | opendir (p : ℕ) (found : Found)
  | close (p : ℕ) (fd type : ℤ)
  | closedir (p : ℕ) (fd type : ℤ)
  | move (p : ℕ) (fd : ℤ) (offset : ℕ)
  | ccwd (p d : ℕ)
  | unlink (found : Found) (removed : Bool)
  | load (found : Found) (flags : ℕ)
  | fork (q : ℕ)
  | exit (p : ℕ)
deriving DecidableEq

/-- only a process that has not exited makes calls -/
def whenLive (p : ℕ) (x : M ℤ) : M ℤ := do
  if !(← get).live p then stop .disabled
  x

def act : Op → M ℤ
  | .lookup d => do
    if ((← get).d_ref d).isSome then stop .disabled
    setRef d (some 0)
    return 0
  | .open p found flags => whenLive p (doOpen p found flags)
  | .opendir p found => whenLive p (doOpendir p found)
  | .close p fd type => whenLive p (doClose p fd type)
  | .closedir p fd type => whenLive p (doClosedir p fd type)
  | .move p fd offset => whenLive p (moveOffset p fd offset)
  | .ccwd p d => whenLive p (changeDir p d)
  | .unlink found removed => return result (← vfsUnlink found removed)
  | .load found flags => loadFile found flags
  | .fork q => do
    let s ← get
    if s.live q then stop .disabled
    set { s with pfiles := update s.pfiles q (initProcFileManagement s), live := update s.live q true }
    return q
  | .exit p => whenLive p do
    modify fun s => { s with live := update s.live p false }
    return 0

def step (s : St) (op : Op) : Except Fault St := (act op s).map Prod.snd

/-- nothing is open -/
structure Start (s : St) : Prop where
  refs : ∀ d c, s.d_ref d = some c → c = 0
  tables : ∀ p, s.pfiles p = initProcFileManagement s

/-! ## What a step can do -/

variable {s s' : St} {op : Op} {r : ℤ} {p fd d : ℕ} {pf : Pfiles} {file : File} {c : ℤ}

/-- the entry has the status FD_OPENED -/
def isOpened (pf : Pfiles) (entry : ℕ) : Bool := (pf.opened_files entry).any (·.status)

/-- the process that a call opens a file for -/
def Op.opener : Op → Option ℕ
  | .open p _ _ => some p
  | .opendir p _ => some p
  | _ => none

/-- the descriptor that a call closes, if the inode has the type that the call is for -/
def Op.closes : Op → Option (ℕ × ℤ)
  | .close p fd type => if type = FILE_I then some (p, fd) else none
  | .closedir p fd type => if type = DIR_I then some (p, fd) else none
  | _ => none

inductive Acts (s : St) : Op → ℤ → St → Prop
  /-- the call fails -/
  | same {op : Op} : Acts s op (-1) s
  | lookup {d : ℕ} (hd : s.d_ref d = none) : Acts s (.lookup d) 0 { s with d_ref := update s.d_ref d (some 0) }
  | opened {op : Op} {p d : ℕ} {c : ℤ}
    {file : File} (hop : op.opener = some p) (hlive : s.live p = true) (hd : s.d_ref d = some c)
      (hfile : file.status = true ∧ file.f_dentry = d) (hoff : file.offset = 0)
      (hroom : (s.pfiles p).nfiles < MAX_FILES ∨ freeEntry (s.pfiles p) ≠ MAX_FILES) :
      Acts s op (freeEntry (s.pfiles p))
        { s with d_ref := update s.d_ref d (some (c + 1)), pfiles := update s.pfiles p (installed (s.pfiles p) file) }
  | closed {op : Op} {p : ℕ} {fd c : ℤ} {file : File}
    {o : Option ℤ} (hop : op.closes = some (p, fd)) (hlive : s.live p = true)
      (hfile : (s.pfiles p).opened_files (fileEntry fd) = some file) (hd : s.d_ref file.f_dentry = some c)
      (ho : o = some (c - 1) ∨ o = none ∧ c = 1) :
      Acts s op 0
        { s with
          d_ref := update s.d_ref file.f_dentry o
          pfiles := update s.pfiles p (put (s.pfiles p) (fileEntry fd) { file with status := false }) }
  | moved {p offset : ℕ} {fd : ℤ}
    {file : File} (hlive : s.live p = true) (hfile : (s.pfiles p).opened_files (fileEntry fd) = some file) :
      Acts s (.move p fd offset) offset
        { s with pfiles := update s.pfiles p (put (s.pfiles p) (fileEntry fd) { file with offset := offset }) }
  | changed {p d : ℕ} (hlive : s.live p = true) :
      Acts s (.ccwd p d) 0 { s with pfiles := update s.pfiles p { s.pfiles p with cwd := d } }
  | unlinked {d : ℕ} {c : ℤ} (hd : s.d_ref d = some c) (hc : c ≤ 0) :
      Acts s (.unlink (some (d, FILE_I)) true) 0 { s with d_ref := update s.d_ref d none }
  | loaded {d : ℕ} {c : ℤ} {o : Option ℤ} {flags : ℕ} (hd : s.d_ref d = some c) (ho : o = some c ∨ o = none ∧ c = 0) :
      Acts s (.load (some (d, FILE_I)) flags) 0 { s with d_ref := update s.d_ref d o }
  | forked {q : ℕ} (hq : s.live q = false) :
      Acts s (.fork q) q
        { s with pfiles := update s.pfiles q (initProcFileManagement s), live := update s.live q true }
  | exited {p : ℕ} (hlive : s.live p = true) : Acts s (.exit p) 0 { s with live := update s.live p false }

@[grind =] theorem run_stop {α : Type} {e : Stop} {x : α × St} : (stop e : M α) s = .ok x ↔ False := run_throw

@[grind =] theorem run_setRef {o : Option ℤ} {u : Unit} :
    setRef d o s = .ok (u, s') ↔ { s with d_ref := update s.d_ref d o } = s' := run_modify

@[grind =] theorem run_setPfiles {u : Unit} :
    setPfiles p pf s = .ok (u, s') ↔ { s with pfiles := update s.pfiles p pf } = s' := run_modify

@[grind =] theorem run_getRef {x : ℤ × St} : getRef d s = .ok x ↔ s.d_ref d = some x.1 ∧ s = x.2 := by
  unfold getRef
  rw [run_get_bind]
  obtain ⟨c, s'⟩ := x
  cases hd : s.d_ref d with
  | none => simp [run_throw]
  | some c' => simp [run_pure]

theorem run_whenLive {x : M ℤ} (h : whenLive p x s = .ok (r, s')) : s.live p = true ∧ x s = .ok (r, s') := by
  unfold whenLive at h
  grind

theorem run_allocVfsFile {readable writable : Bool} (h : allocVfsFile d readable writable s = .ok (file, s')) :
    ∃ c, s.d_ref d = some c ∧ (file.status = true ∧ file.offset = 0) ∧ file.f_dentry = d ∧
      s' = { s with d_ref := update s.d_ref d (some (c + 1)) } := by
  unfold allocVfsFile at h
  grind

variable {flags : ℕ}

theorem run_openMode {mode : Bool × Bool} (h : openMode flags s = .ok (mode, s')) : s = s' := by
  unfold openMode at h
  generalize flags &&& MASK_FILEMODE = m at h
  match m with
  | 0 => exact (run_pure.1 h).2
  | 1 => exact (run_pure.1 h).2
  | 2 => exact (run_pure.1 h).2
  | m + 3 => cases h

/-- a file is opened: one more opened file for the dentry -/
def Gives (s : St) (o : Option File) (s' : St) : Prop :=
  o = none ∧ s = s' ∨ ∃ file c, o = some file ∧ (file.status = true ∧ file.offset = 0) ∧
    s.d_ref file.f_dentry = some c ∧
    s' = { s with d_ref := update s.d_ref file.f_dentry (some (c + 1)) }

variable {found : Found} {o : Option File}

theorem run_vfsOpen (h : vfsOpen found flags s = .ok (o, s')) :
    Gives s o s' ∧ ∀ file, o = some file → found = some (file.f_dentry, FILE_I) := by
  unfold vfsOpen at h
  cases found with
  | none => grind [Gives]
  | some x => grind [Gives, run_openMode, run_allocVfsFile]

theorem run_vfsOpendir (h : vfsOpendir found s = .ok (o, s')) : Gives s o s' := by
  unfold vfsOpendir at h
  cases found with
  | none => grind [Gives]
  | some x => grind [Gives, run_allocVfsFile]

theorem run_installFile (h : installFile p file s = .ok (r, s')) :
    r = freeEntry (s.pfiles p) ∧ s' = { s with pfiles := update s.pfiles p (installed (s.pfiles p) file) } := by
  unfold installFile at h
  grind

theorem run_installWith {full : Pfiles → Bool} {msg : String} {s1 : St} (hop : op.opener = some p)
    (hlive : s.live p = true) (hfull : ∀ pf, full pf = false → pf.nfiles < MAX_FILES ∨ freeEntry pf ≠ MAX_FILES)
    (hgives : Gives s o s1) (h : installWith full msg p o s1 = .ok (r, s')) : Acts s op r s' := by
  obtain ⟨rfl, rfl⟩ | ⟨file, c, rfl, hstatus, hc, rfl⟩ := hgives
  · cases h
    exact .same
  · simp only [installWith, run_get_bind] at h
    cases hroom : full (s.pfiles p) with
    | true =>
      simp only [hroom, if_true] at h
      cases h
    | false =>
      simp only [hroom, Bool.false_eq_true, if_false] at h
      obtain ⟨rfl, rfl⟩ := run_installFile h
      exact .opened hop hlive hc ⟨hstatus.1, rfl⟩ hstatus.2 (hfull _ hroom)

variable {fd : ℤ}

theorem run_getOpenedFile (h : getOpenedFile p fd s = .ok (file, s')) :
    (s.pfiles p).opened_files (fileEntry fd) = some file ∧ s = s' := by
  unfold getOpenedFile at h
  rw [run_get_bind] at h
  cases hf : (s.pfiles p).opened_files (fileEntry fd) with
  | none =>
    simp only [hf] at h
    cases h
  | some file' =>
    simp only [hf] at h
    grind

/-- a file is closed: one opened file less for the dentry, which may be freed with the last one -/
def Drops (s : St) (file : File) (ok : Bool) (s' : St) : Prop :=
  ok = false ∧ s = s' ∨ ok = true ∧ ∃ c o, s.d_ref file.f_dentry = some c ∧ (o = some (c - 1) ∨ o = none ∧ c = 1) ∧
    s' = { s with d_ref := update s.d_ref file.f_dentry o }

theorem run_vfsClose {type : ℤ} {ok : Bool} (h : vfsClose file type s = .ok (ok, s')) :
    Drops s file ok s' ∧ (ok = true ↔ type = FILE_I) := by
  unfold vfsClose at h
  grind [Drops]

theorem run_vfsClosedir {type : ℤ} {ok : Bool} (h : vfsClosedir file type s = .ok (ok, s')) :
    Drops s file ok s' ∧ (ok = true ↔ type = DIR_I) := by
  unfold vfsClosedir at h
  grind [Drops]

theorem run_closeWith {close : File → M Bool}
    (hclose : ∀ s file ok s', close file s = .ok (ok, s') → Drops s file ok s' ∧ (ok = true → op.closes = some (p, fd)))
    (hlive : s.live p = true) (h : closeWith close p fd s = .ok (r, s')) : Acts s op r s' := by
  obtain ⟨file, s1, h1, h2⟩ := run_bind.1 h
  obtain ⟨hfile, rfl⟩ := run_getOpenedFile h1
  obtain ⟨ok, s2, h3, h4⟩ := run_bind.1 h2
  obtain ⟨⟨rfl, rfl⟩ | ⟨rfl, c, o, hc, ho, rfl⟩, hop⟩ := hclose _ _ _ _ h3
  · cases h4
    exact .same
  · simp only [if_true, run_get_bind] at h4
    obtain ⟨_, _, ⟨⟩, h6⟩ := run_bind.1 h4
    cases h6
    exact .closed (hop rfl) hlive hfile hc ho

theorem run_vfsUnlink {removed ok : Bool} (h : vfsUnlink found removed s = .ok (ok, s')) :
    ok = false ∧ s = s' ∧ (∀ d, found = some (d, FILE_I) → removed = true → ∃ c, s.d_ref d = some c ∧ 0 < c) ∨
      ok = true ∧ ∃ d c, found = some (d, FILE_I) ∧ removed = true ∧ s.d_ref d = some c ∧ c ≤ 0 ∧
        s' = { s with d_ref := update s.d_ref d none } := by
  unfold vfsUnlink at h
  cases found with
  | none => grind
  | some x => grind

/-- **Inversion.** A step that ends well and returns `r` is one of the cases of `Acts`. -/
theorem act_cases (h : act op s = .ok (r, s')) : Acts s op r s' := by
  cases op with
  | lookup d =>
    simp only [act, run_get_bind] at h
    cases hd : s.d_ref d <;> grind [Acts.lookup]
  | «open» p found flags =>
    obtain ⟨hlive, h⟩ := run_whenLive h
    obtain ⟨o, s1, h1, h2⟩ := run_bind.1 h
    exact run_installWith rfl hlive (fun pf hpf => .inl (not_le.1 (of_decide_eq_false hpf))) (run_vfsOpen h1).1 h2
  | opendir p found =>
    obtain ⟨hlive, h⟩ := run_whenLive h
    obtain ⟨o, s1, h1, h2⟩ := run_bind.1 h
    exact run_installWith rfl hlive (fun pf hpf => .inr (of_decide_eq_false hpf)) (run_vfsOpendir h1) h2
  | close p fd type =>
    obtain ⟨hlive, h⟩ := run_whenLive h
    exact run_closeWith (fun s file ok s' hc => (run_vfsClose hc).imp id fun htype hok => if_pos (htype.1 hok)) hlive h
  | closedir p fd type =>
    obtain ⟨hlive, h⟩ := run_whenLive h
    exact run_closeWith (fun s file ok s' hc => (run_vfsClosedir hc).imp id fun htype hok =>
      if_pos (htype.1 hok)) hlive h
  | move p fd offset =>
    obtain ⟨hlive, h⟩ := run_whenLive h
    obtain ⟨file, s1, h1, h2⟩ := run_bind.1 h
    obtain ⟨hfile, rfl⟩ := run_getOpenedFile h1
    grind [Acts.moved]
  | ccwd p d =>
    obtain ⟨hlive, h⟩ := run_whenLive h
    unfold changeDir at h
    grind [Acts.changed]
  | unlink found removed =>
    obtain ⟨ok, s1, h1, h2⟩ := run_bind.1 h
    cases h2
    obtain ⟨rfl, rfl, -⟩ | ⟨rfl, d, c, rfl, rfl, hc, hle, rfl⟩ := run_vfsUnlink h1
    · exact .same
    · exact .unlinked hc hle
  | load found flags =>
    obtain ⟨o, s1, h1, h2⟩ := run_bind.1 h
    obtain ⟨hgives, hfound⟩ := run_vfsOpen h1
    obtain ⟨rfl, rfl⟩ | ⟨file, c, rfl, -, hc, rfl⟩ := hgives
    · cases h2
    · obtain ⟨ok, s2, h3, h4⟩ := run_bind.1 h2
      cases h4
      obtain rfl := hfound file rfl
      obtain ⟨⟨rfl, -⟩ | ⟨rfl, c', o', hc', ho', rfl⟩, htype⟩ := run_vfsClose h3
      · exact absurd (htype.2 rfl) (by decide)
      · have hc1 : update s.d_ref file.f_dentry (some (c + 1)) file.f_dentry = some c' := hc'
        rw [update_self] at hc1
        cases hc1
        simp only [update_idem]
        exact .loaded hc (ho'.imp (fun h => by rw [h, add_sub_cancel_right]) fun h => ⟨h.1, by omega⟩)
  | fork q =>
    simp only [act, run_get_bind] at h
    grind [Acts.forked]
  | exit p =>
    obtain ⟨hlive, h⟩ := run_whenLive h
    grind [Acts.exited]

/-! ## Offsets -/

def Op.Unmoved : Op → Prop
  | .move _ _ _ => False
  | _ => True

/-- every entry is new, or has the dentry and the offset of an entry before -/
def Rooted (b s : St) : Prop := ∀ p entry file', (s.pfiles p).opened_files entry = some file' →
  file'.offset = 0 ∨ ∃ file, (b.pfiles p).opened_files entry = some file ∧ file'.f_dentry = file.f_dentry ∧
    file'.offset = file.offset

theorem Rooted.refl (s : St) : Rooted s s := fun _ _ file h => .inr ⟨file, h, rfl, rfl⟩

theorem Rooted.table {b : St} {t : St} {pf : Pfiles} (h : Rooted b s) (ht : t.pfiles = update s.pfiles p pf)
    (hpf : ∀ entry file', pf.opened_files entry = some file' → file'.offset = 0 ∨
      ∃ file, (s.pfiles p).opened_files entry = some file ∧ file'.f_dentry = file.f_dentry ∧
        file'.offset = file.offset) : Rooted b t := by
  intro q entry file' hfile'
  rw [ht] at hfile'
  by_cases hq : q = p
  · grind [Rooted]
  · rw [update_of_ne hq] at hfile'
    exact h q entry file' hfile'

theorem Rooted.step {b : St} (h : Rooted b s) (hop : op.Unmoved) (hact : Acts s op r s') : Rooted b s' := by
  cases hact with
  | same => exact h
  | lookup hd => exact h
  | @opened _ p d c file hopener hlive hd hfile hoff hroom =>
    refine h.table rfl fun entry file' hfile' => ?_
    rcases Fs.update_cases hfile' with ⟨-, he⟩ | ⟨-, he⟩
    · cases he
      exact .inl hoff
    · exact .inr ⟨file', he, rfl, rfl⟩
  | @closed _ p fd c file o hcloses hlive hfile hd ho =>
    refine h.table rfl fun entry file' hfile' => ?_
    rcases Fs.update_cases hfile' with ⟨rfl, he⟩ | ⟨-, he⟩
    · cases he
      exact .inr ⟨file, hfile, rfl, rfl⟩
    · exact .inr ⟨file', he, rfl, rfl⟩
  | moved hlive hfile => exact hop.elim
  | changed hlive => exact h.table rfl fun entry file' hfile' => .inr ⟨file', hfile', rfl, rfl⟩
  | unlinked hd hc => exact h
  | loaded hd ho => exact h
  | forked hq => exact h.table rfl fun entry file' hfile' => nomatch hfile'
  | exited hlive => exact h

/-! ## The tables -/

/-- the number of FD_OPENED entries -/
def opened (pf : Pfiles) : ℕ := ((Finset.range MAX_FILES).filter fun entry => isOpened pf entry).card

theorem fileEntry_lt (fd : ℤ) : fileEntry fd < MAX_FILES := by
  unfold fileEntry
  split_ifs with h
  · omega
  · decide

theorem freeEntry_cases (pf : Pfiles) : freeEntry pf < MAX_FILES ∧ isOpened pf (freeEntry pf) = false ∨
      freeEntry pf = MAX_FILES ∧ ∀ entry < MAX_FILES, isOpened pf entry = true := by
  unfold freeEntry
  cases hfind : (List.range MAX_FILES).find? fun fd => !((pf.opened_files fd).any (·.status)) with
  | none =>
    refine .inr ⟨rfl, fun entry hentry => ?_⟩
    simpa [isOpened] using List.find?_eq_none.1 hfind entry (List.mem_range.2 hentry)
  | some entry =>
    grind [isOpened]

theorem opened_put (pf : Pfiles) (file : File) {entry : ℕ} (hentry : entry < MAX_FILES) :
    opened (put pf entry file) + (isOpened pf entry).toNat = opened pf + file.status.toNat := by
  have hsum : ∀ pf, opened pf = ∑ x ∈ Finset.range MAX_FILES, (isOpened pf x).toNat := by
    intro pf
    rw [opened, Finset.card_filter]
    refine Finset.sum_congr rfl fun x _ => ?_
    cases isOpened pf x <;> rfl
  have hmem : entry ∈ Finset.range MAX_FILES := Finset.mem_range.2 hentry
  have hput : (fun x => (isOpened (put pf entry file) x).toNat) =
      update (fun x => (isOpened pf x).toNat) entry file.status.toNat := by
    funext x
    by_cases hx : x = entry
    · subst hx
      simp [isOpened, put]
    · simp [isOpened, put, hx]
  rw [hsum, hsum, hput, Finset.sum_update_of_mem hmem, Finset.sum_eq_add_sum_sdiff_singleton_of_mem hmem]
  omega

theorem opened_init : opened (initProcFileManagement s) = 0 := by
  simp [opened, isOpened, initProcFileManagement]

theorem freeEntry_lt (hle : opened pf ≤ pf.nfiles) (hroom : pf.nfiles < MAX_FILES ∨ freeEntry pf ≠ MAX_FILES) :
    freeEntry pf < MAX_FILES ∧ isOpened pf (freeEntry pf) = false := by
  refine (freeEntry_cases pf).resolve_right fun ⟨hfull, hall⟩ => ?_
  have hopened : opened pf = MAX_FILES := by
    rw [opened, Finset.filter_true_of_mem fun x hx => hall x (Finset.mem_range.1 hx), Finset.card_range]
  rcases hroom with h | h
  · omega
  · exact h hfull

theorem installed_eq (file : File) (h : freeEntry pf < MAX_FILES) :
    installed pf file = { put pf (freeEntry pf) file with nfiles := pf.nfiles + 1 } := by
  unfold installed put
  rw [Nat.min_eq_left (by omega)]

theorem opened_installed (h : freeEntry pf < MAX_FILES ∧ isOpened pf (freeEntry pf) = false)
    (hstatus : file.status = true) :
    opened (installed pf file) = opened pf + 1 := by
  have hput := opened_put pf file h.1
  rw [h.2, hstatus] at hput
  rw [installed_eq file h.1]
  exact hput

theorem opened_rewritten (file' : File) (hfile : pf.opened_files (fileEntry fd) = some file) :
    opened (put pf (fileEntry fd) file') + file.status.toNat = opened pf + file'.status.toNat := by
  have hput := opened_put pf file' (fileEntry_lt fd)
  rw [isOpened, hfile] at hput
  exact hput

/-! ## What `nfiles` counts -/

/-- no FD_OPENED entry is closed -/
def Unclosed (s : St) (op : Op) : Prop :=
  match op.closes with
  | some (p, fd) => isOpened (s.pfiles p) (fileEntry fd) = false
  | none => True

theorem update_cases {f : ℕ → Pfiles} {P : Pfiles → Prop} {x : Pfiles} (h : ∀ q, P (f q)) (hx : P x) (q : ℕ) :
    P (update f p x q) := by
  grind

/-- a table counts at least its FD_OPENED entries, and nothing lies behind it -/
structure Table (pf : Pfiles) : Prop where
  bounded : opened pf ≤ pf.nfiles
  inside : ∀ entry, MAX_FILES ≤ entry → pf.opened_files entry = none

theorem table_init : Table (initProcFileManagement s) := ⟨by rw [opened_init]; exact Nat.zero_le _, fun _ _ => rfl⟩

theorem Table.installed (h : Table pf) (hfree : freeEntry pf < MAX_FILES ∧ isOpened pf (freeEntry pf) = false)
    (hstatus : file.status = true) : Table (installed pf file) := by
  constructor
  · rw [opened_installed hfree hstatus]
    exact Nat.succ_le_succ h.bounded
  · intro entry hentry
    rw [installed_eq file hfree.1]
    exact (update_of_ne (by omega) _ _).trans (h.inside entry hentry)

theorem Table.rewritten (h : Table pf) (file' : File) (hfile : pf.opened_files (fileEntry fd) = some file)
    (hle : file'.status ≤ file.status) : Table (put pf (fileEntry fd) file') := by
  have hopened := opened_rewritten file' hfile
  constructor
  · have := h.bounded
    have := Bool.toNat_le_toNat hle
    show _ ≤ pf.nfiles
    omega
  · intro entry hentry
    have := fileEntry_lt fd
    exact (update_of_ne (by omega) _ _).trans (h.inside entry hentry)

theorem table_step (h : ∀ p, Table (s.pfiles p)) (hact : Acts s op r s') (p : ℕ) : Table (s'.pfiles p) := by
  cases hact with
  | same => exact h p
  | lookup hd => exact h p
  | @opened _ q _ _ file hop hlive hd hfile _ hroom =>
    exact update_cases h ((h q).installed (freeEntry_lt (h q).bounded hroom) hfile.1) p
  | @closed _ q _ _ file _ hop hlive hfile hd ho => exact update_cases h ((h q).rewritten _ hfile (Bool.false_le _)) p
  | @moved q offset _ file hlive hfile =>
    exact update_cases h ((h q).rewritten { file with offset := offset } hfile le_rfl) p
  | @changed q d hlive => exact update_cases (x := { s.pfiles q with cwd := d }) h ⟨(h q).bounded, (h q).inside⟩ p
  | unlinked hd hc => exact h p
  | loaded hd ho => exact h p
  | forked hq => exact update_cases h table_init p
  | exited hlive => exact h p

theorem exact_step (h : ∀ p, Table (s.pfiles p) ∧ (s.pfiles p).nfiles = opened (s.pfiles p)) (hc : Unclosed s op)
    (hact : Acts s op r s') (p : ℕ) : (s'.pfiles p).nfiles = opened (s'.pfiles p) := by
  have hexact : ∀ p, (s.pfiles p).nfiles = opened (s.pfiles p) := fun p => (h p).2
  cases hact with
  | same => exact hexact p
  | lookup hd => exact hexact p
  | @opened _ q _ _ file hop hlive hd hfile _ hroom =>
    refine update_cases (P := fun pf => pf.nfiles = opened pf) hexact ?_ p
    rw [opened_installed (freeEntry_lt (h q).1.bounded hroom) hfile.1, ← hexact q]
    rfl
  | @closed _ q _ _ file _ hop hlive hfile hd ho =>
    refine update_cases (P := fun pf => pf.nfiles = opened pf) hexact ?_ p
    have hclosed := opened_rewritten { file with status := false } hfile
    simp only [Unclosed, hop, isOpened, hfile, Option.any_some] at hc
    rw [hc] at hclosed
    exact (hexact q).trans hclosed.symm
  | @moved q offset _ file hlive hfile =>
    refine update_cases (P := fun pf => pf.nfiles = opened pf) hexact ?_ p
    have hmoved := opened_rewritten { file with offset := offset } hfile
    exact (hexact q).trans (Nat.add_right_cancel hmoved).symm
  | @changed q d hlive =>
    exact update_cases (x := { s.pfiles q with cwd := d }) (P := fun pf => pf.nfiles = opened pf) hexact (hexact q) p
  | unlinked hd hc => exact hexact p
  | loaded hd ho => exact hexact p
  | forked hq => exact update_cases (P := fun pf => pf.nfiles = opened pf) hexact opened_init.symm p
  | exited hlive => exact hexact p

theorem step_lookup (hd : s.d_ref d = none) :
    step s (.lookup d) = .ok { s with d_ref := update s.d_ref d (some 0) } := by
  simp only [step, act, run_get_bind, hd, Option.isSome_none, Bool.false_eq_true, if_false]
  rfl

theorem whenLive_run (hlive : s.live p = true) {x : M ℤ} : whenLive p x s = x s := by
  simp only [whenLive, run_get_bind, hlive, Bool.not_true, Bool.false_eq_true, if_false]

theorem getRef_run (hd : s.d_ref d = some c) : getRef d s = .ok (c, s) := by
  simp only [getRef, run_get_bind, hd]
  rfl

def newFile (d : ℕ) (mode : Bool × Bool) : File := ⟨true, mode.1, mode.2, 0, d⟩

/-- a file is opened and goes to the table -/
def St.opening (s : St) (p d : ℕ) (c : ℤ) (mode : Bool × Bool) : St :=
  { s with
    d_ref := update s.d_ref d (some (c + 1))
    pfiles := update s.pfiles p (installed (s.pfiles p) (newFile d mode)) }

theorem step_open {mode : Bool × Bool} (hlive : s.live p = true) (hmode : openMode flags s = .ok (mode, s))
    (hd : s.d_ref d = some c) (hroom : (s.pfiles p).nfiles < MAX_FILES) :
    step s (.open p (some (d, FILE_I)) flags) = .ok (s.opening p d c mode) := by
  have hopen : vfsOpen (some (d, FILE_I)) flags s =
      .ok (some (newFile d mode), { s with d_ref := update s.d_ref d (some (c + 1)) }) := by
    simp only [vfsOpen, ne_eq, not_true_eq_false, if_false]
    rw [run_step hmode]
    rw [run_step (run_step (getRef_run hd))]
    rfl
  have hfull : ¬ MAX_FILES ≤ (s.pfiles p).nfiles := not_le.2 hroom
  simp only [step, act]
  rw [whenLive_run hlive, doOpen, run_step hopen]
  simp only [installWith, run_get_bind, hfull, decide_false, Bool.false_eq_true, if_false]
  rfl

theorem step_opendir (hlive : s.live p = true) (hd : s.d_ref d = some c) (hroom : freeEntry (s.pfiles p) ≠ MAX_FILES) :
    step s (.opendir p (some (d, DIR_I))) = .ok (s.opening p d c (true, false)) := by
  have hopen : vfsOpendir (some (d, DIR_I)) s =
      .ok (some (newFile d (true, false)), { s with d_ref := update s.d_ref d (some (c + 1)) }) := by
    simp only [vfsOpendir, ne_eq, not_true_eq_false, if_false]
    rw [run_step (run_step (getRef_run hd))]
    rfl
  simp only [step, act]
  rw [whenLive_run hlive, doOpendir, run_step hopen]
  simp only [installWith, run_get_bind, hroom, decide_false, Bool.false_eq_true, if_false]
  rfl

theorem getOpenedFile_run (hfile : (s.pfiles p).opened_files (fileEntry fd) = some file) :
    getOpenedFile p fd s = .ok (file, s) := by
  simp only [getOpenedFile, run_get_bind, hfile]
  rfl

theorem step_close (hlive : s.live p = true) (hfile : (s.pfiles p).opened_files (fileEntry fd) = some file)
    (hd : s.d_ref file.f_dentry = some c) : step s (.close p fd FILE_I) = .ok
      { s with
        d_ref := update s.d_ref file.f_dentry (if c - 1 = 0 then none else some (c - 1))
        pfiles := update s.pfiles p (put (s.pfiles p) (fileEntry fd) { file with status := false }) } := by
  have hclose : vfsClose file FILE_I s =
      .ok (true, { s with d_ref := update s.d_ref file.f_dentry (if c - 1 = 0 then none else some (c - 1)) }) := by
    simp only [vfsClose, ne_eq, not_true_eq_false, if_false]
    rw [run_step (getRef_run hd)]
    rfl
  simp only [step, act]
  rw [whenLive_run hlive, doClose, closeWith, run_step (getOpenedFile_run hfile), run_step hclose]
  rfl

theorem step_move {offset : ℕ} (hlive : s.live p = true)
    (hfile : (s.pfiles p).opened_files (fileEntry fd) = some file) :
    step s (.move p fd offset) = .ok
      { s with pfiles := update s.pfiles p (put (s.pfiles p) (fileEntry fd) { file with offset := offset }) } := by
  simp only [step, act]
  rw [whenLive_run hlive, moveOffset, run_step (getOpenedFile_run hfile)]
  rfl

theorem step_unlink (hd : s.d_ref d = some c) (hle : c ≤ 0) : step s (.unlink (some (d, FILE_I)) true) = .ok
    { s with d_ref := update s.d_ref d none } := by
  have hunlink : vfsUnlink (some (d, FILE_I)) true s = .ok (true, { s with d_ref := update s.d_ref d none }) := by
    simp only [vfsUnlink, ne_eq, not_true_eq_false, if_false]
    rw [run_step (getRef_run hd)]
    simp only [not_lt.2 hle, if_false]
    rfl
  simp only [step, act]
  rw [run_step hunlink]
  rfl

theorem acts_of_step (h : step s op = .ok s') : ∃ r, Acts s op r s' := by
  obtain ⟨⟨r, s1⟩, hact, rfl⟩ := map_ok h
  exact ⟨r, act_cases hact⟩

theorem getRef_error {e : Fault} (h : getRef d s = .error e) : e = .wildPointer := by
  unfold getRef at h
  rw [run_get_bind] at h
  cases hd : s.d_ref d with
  | none =>
    simp only [hd] at h
    exact (Except.error.inj h).symm
  | some c =>
    simp only [hd] at h
    cases h

theorem openMode_error {e : Fault} (h : openMode flags s = .error e) : flags &&& MASK_FILEMODE = 3 := by
  have hle : flags &&& MASK_FILEMODE ≤ 3 := Nat.and_le_right
  unfold openMode at h
  generalize flags &&& MASK_FILEMODE = m at h hle
  match m with
  | 0 => cases h
  | 1 => cases h
  | 2 => cases h
  | m + 3 => omega

theorem vfsOpen_error {e : Fault} (h : vfsOpen found flags s = .error e) :
    flags &&& MASK_FILEMODE = 3 ∨ e = .wildPointer := by
  unfold vfsOpen at h
  cases found with
  | none => cases h
  | some x =>
    obtain ⟨d, type⟩ := x
    by_cases htype : type = FILE_I
    · simp only [htype, ne_eq, not_true_eq_false, if_false] at h
      obtain h | ⟨mode, s1, -, h⟩ := run_bind_error.1 h
      · exact .inl (openMode_error h)
      · obtain h | ⟨file, s2, -, h⟩ := run_bind_error.1 h
        · obtain h | ⟨c, s3, -, h⟩ := run_bind_error.1 h
          · exact .inr (getRef_error h)
          · cases h
        · cases h
    · simp only [htype, ne_eq, not_false_eq_true, if_true] at h
      cases h

theorem doOpen_panic {msg : String} (h : doOpen p found flags s = .error (.stop (.panic msg))) :
    flags &&& MASK_FILEMODE = 3 ∨ MAX_FILES ≤ (s.pfiles p).nfiles := by
  obtain h | ⟨o, s1, h1, h2⟩ := run_bind_error.1 h
  · exact (vfsOpen_error h).imp id nofun
  · obtain ⟨⟨rfl, rfl⟩ | ⟨file, c, rfl, -, -, rfl⟩, -⟩ := run_vfsOpen h1
    · cases h2
    · by_cases hfull : MAX_FILES ≤ (s.pfiles p).nfiles
      · exact .inr hfull
      · simp only [installWith, run_get_bind, hfull, decide_false, Bool.false_eq_true, if_false] at h2
        cases h2

theorem counts_reach (h : Reach step Unclosed Start s) :
    ∀ p, Table (s.pfiles p) ∧ (s.pfiles p).nfiles = opened (s.pfiles p) := by
  refine h.inv (P := fun s => ∀ p, Table (s.pfiles p) ∧ (s.pfiles p).nfiles = opened (s.pfiles p)) ?_ ?_
  · intro s hstart p
    rw [hstart.tables p, opened_init]
    exact ⟨table_init, rfl⟩
  · grind [acts_of_step, table_step, exact_step]

/-- **The counter.** While no file is closed, `nfiles` is the number of the opened files, a new descriptor is one that
was free, and an `open` with a valid mode does not panic while an entry is free. -/
theorem nfiles_counts (h : Reach step Unclosed Start s) :
    (∀ p, (s.pfiles p).nfiles = opened (s.pfiles p)) ∧
    (∀ p op fd s', op.opener = some p → act op s = .ok (fd, s') → 0 ≤ fd →
      ∃ entry < MAX_FILES, fd = entry ∧ isOpened (s.pfiles p) entry = false ∧ isOpened (s'.pfiles p) entry = true) ∧
    ∀ p found flags msg, opened (s.pfiles p) < MAX_FILES → flags &&& MASK_FILEMODE ≠ 3 →
      act (.open p found flags) s ≠ .error (.stop (.panic msg)) := by
  have hgood := counts_reach h
  refine ⟨fun p => (hgood p).2, ?_, ?_⟩
  · intro p op fd s' hop hact hfd
    cases act_cases hact with
    | same => cases hfd
    | @opened _ q _ _ file hop' hlive hd hfile _ hroom =>
      cases hop.symm.trans hop'
      have hfree := freeEntry_lt (hgood p).1.bounded hroom
      refine ⟨freeEntry (s.pfiles p), hfree.1, rfl, hfree.2, ?_⟩
      show isOpened (update s.pfiles p (installed (s.pfiles p) file) p) _ = true
      rw [update_self, installed_eq file hfree.1]
      simp [isOpened, put, hfile.1]
    | closed hop' => cases op <;> cases hop <;> cases hop'
    | lookup => cases hop
    | moved => cases hop
    | changed => cases hop
    | unlinked => cases hop
    | loaded => cases hop
    | forked => cases hop
    | exited => cases hop
  · intro p found flags msg hlt hflags hpanic
    simp only [act, whenLive, run_get_bind] at hpanic
    cases hlive : s.live p with
    | false =>
      simp only [hlive, Bool.not_false, if_true] at hpanic
      obtain h | ⟨_, _, h, -⟩ := run_bind_error.1 hpanic
      · cases h
      · cases h
    | true =>
      grind [doOpen_panic]

/-- every process is live, and no dentry is in memory -/
def empty : St := ⟨0, fun _ => none, fun _ => ⟨0, fun _ => none, 0⟩, fun _ => true⟩

theorem empty_start : Start empty := ⟨nofun, fun _ => rfl⟩

instance : Decidable (Unclosed s op) := by
  unfold Unclosed
  split <;> infer_instance

def twoOpen : List Op := [.lookup 1, .open 0 (some (1, FILE_I)) 0, .lookup 2, .opendir 0 (some (2, DIR_I))]

theorem nfiles_counts_twoOpen :
    ((exec step empty twoOpen).pfiles 0).nfiles = 2 ∧ opened ((exec step empty twoOpen).pfiles 0) = 2 := by
  have hreach : Reach step Unclosed Start (exec step empty twoOpen) :=
    reach_decide twoOpen empty (.init empty_start) (by decide +kernel)
  have hnfiles : ((exec step empty twoOpen).pfiles 0).nfiles = 2 := by decide +kernel
  exact ⟨hnfiles, ((nfiles_counts hreach).1 0).symm.trans hnfiles⟩

/-- a file is looked up, opened and closed -/
def openClose (i : ℕ) : List Op := [.lookup i, .open 0 (some (i, FILE_I)) 0, .close 0 0 FILE_I]

def manyClosed : St := exec step empty ((List.range 128).flatMap openClose ++ [.lookup 128])

/-- Nothing is open, and `do_open` has no entry. -/
theorem closed_still_counted : Reach step (fun _ _ => True) Start manyClosed ∧
    (opened (manyClosed.pfiles 0) = 0 ∧ (manyClosed.pfiles 0).nfiles = 128) ∧
    (act (.open 0 (some (128, FILE_I)) 0) manyClosed).map Prod.fst =
      .error (.stop (.panic "do_open: no file entry for current process!\n")) := by
  exact And.imp_left (reach_decide _ empty (.init empty_start)) (by decide +kernel)

/-! ## What `d_ref` counts -/

/-- only FD_OPENED descriptors are closed -/
def ClosesOpened (s : St) (op : Op) : Prop :=
  match op.closes with
  | some (p, fd) => isOpened (s.pfiles p) (fileEntry fd) = true
  | none => True

/-- a process that exits has no FD_OPENED entry -/
def ExitsClosed (s : St) : Op → Prop
  | .exit p => ∀ entry < MAX_FILES, isOpened (s.pfiles p) entry = false
  | _ => True

def Orderly (s : St) (op : Op) : Prop := ClosesOpened s op ∧ ExitsClosed s op

def dentryOf (o : Option File) : Option ℕ := o.bind fun file => if file.status then some file.f_dentry else none

/-- the dentry that an entry of a live process refers to -/
def holder (s : St) (x : ℕ × ℕ) : Option ℕ := if s.live x.1 then dentryOf ((s.pfiles x.1).opened_files x.2) else none

structure Good (s : St) : Prop where
  refs : ∀ d, ∃ n : ℕ, (s.d_ref d).getD 0 = n ∧ Counted (holder s) d n
  tables : ∀ p, Table (s.pfiles p)

theorem dentryOf_of_not_opened {entry : ℕ} (h : isOpened pf entry = false) :
    dentryOf (pf.opened_files entry) = none := by
  cases hf : pf.opened_files entry with
  | none => rfl
  | some file =>
    simp only [isOpened, hf, Option.any_some] at h
    simp [dentryOf, h]

theorem holder_put (f : ℕ → Option ℤ) (pf' : Pfiles) (entry : ℕ) (file : File) (hlive : s.live p = true)
    (hpf : pf'.opened_files = update (s.pfiles p).opened_files entry (some file)) :
    holder { s with d_ref := f, pfiles := update s.pfiles p pf' } = update (holder s) (p,
      entry) (dentryOf (some file)) := by
  funext x
  obtain ⟨q, fd⟩ := x
  by_cases hx : (q, fd) = (p, entry)
  · cases hx
    simp only [holder, hlive, if_true, update_self, hpf]
  · rw [update_of_ne hx]
    by_cases hq : q = p
    · subst hq
      have hfd : fd ≠ entry := fun he => hx (by rw [he])
      simp only [holder, update_self, hpf, update_of_ne hfd]
    · simp only [holder, update_of_ne hq]

theorem holder_same {pf' : Pfiles}
    (hpf : ∀ entry, dentryOf (pf'.opened_files entry) = dentryOf ((s.pfiles p).opened_files entry)) :
    holder { s with pfiles := update s.pfiles p pf' } = holder s := by
  grind [holder]

theorem refs_update {s1 : St} {o : Option ℤ} {m : ℕ} (h : Good s) (hrefs : s1.d_ref = update s.d_ref d o)
    (ho : o.getD 0 = m)
    (hm : Counted (holder s1) d m) (hother : ∀ x n, x ≠ d → Counted (holder s) x n → Counted (holder s1) x n) :
    ∀ x, ∃ n : ℕ, (s1.d_ref x).getD 0 = n ∧ Counted (holder s1) x n := by
  intro x
  rw [hrefs]
  by_cases hx : x = d
  · rw [hx, update_self]
    exact ⟨m, ho, hm⟩
  · rw [update_of_ne hx]
    obtain ⟨n, hn, hcount⟩ := h.refs x
    exact ⟨n, hn, hother x n hx hcount⟩

theorem Good.step (h : Good s) (hc : Orderly s op) (hact : Acts s op r s') : Good s' := by
  refine ⟨?_, table_step h.tables hact⟩
  cases hact with
  | same => exact h.refs
  | @lookup d hd =>
    obtain ⟨n, hn, hcount⟩ := h.refs d
    rw [hd] at hn
    exact refs_update h rfl hn hcount fun _ _ _ hx => hx
  | @opened _ p d c file hop hlive hd hfile _ hroom =>
    have hfree := freeEntry_lt (h.tables p).bounded hroom
    have hnone : holder s (p, freeEntry (s.pfiles p)) = none := by
      simp only [holder, hlive, if_true]
      exact dentryOf_of_not_opened hfree.2
    obtain ⟨n, hn, hcount⟩ := h.refs d
    rw [hd] at hn
    have hholder := holder_put (update s.d_ref d (some (c + 1))) _ _ file hlive
      (congrArg Pfiles.opened_files (installed_eq file hfree.1))
    rw [show dentryOf (some file) = some d by simp [dentryOf, hfile.1, hfile.2]] at hholder
    refine refs_update (m := n + 1) h rfl ?_ ?_ ?_
    · show c + 1 = ((n + 1 : ℕ) : ℤ)
      have : c = n := hn
      omega
    · rw [hholder]
      exact hcount.add (by rw [hnone]; exact nofun)
    · intro x m hx hm
      rw [hholder]
      exact hm.other (by rw [hnone]; exact nofun) fun he => hx (Option.some.inj he).symm
  | @closed _ p fd c file o hop hlive hfile hd ho =>
    have hopened : isOpened (s.pfiles p) (fileEntry fd) = true := by
      have := hc.1
      rwa [ClosesOpened, hop] at this
    have hstatus : file.status = true := by
      rw [isOpened, hfile] at hopened
      exact hopened
    have hsome : holder s (p, fileEntry fd) = some file.f_dentry := by
      simp [holder, hlive, hfile, dentryOf, hstatus]
    obtain ⟨n, hn, hcount⟩ := h.refs file.f_dentry
    have hpos := hcount.pos hsome
    have hholder :=
      holder_put (update s.d_ref file.f_dentry o) (put (s.pfiles p) (fileEntry fd) { file with status := false })
      (fileEntry fd) _ hlive rfl
    refine refs_update (m := n - 1) h rfl ?_ ?_ ?_
    · grind
    · rw [hholder]
      exact hcount.remove hsome nofun
    · intro x m hx hm
      rw [hholder]
      exact hm.other (by rw [hsome]; exact fun he => hx (Option.some.inj he).symm) nofun
  | @moved p offset fd file hlive hfile =>
    intro d
    rw [holder_same]
    · exact h.refs d
    · intro entry
      by_cases hentry : entry = fileEntry fd
      · rw [hentry, hfile]
        simp [put, dentryOf]
      · exact congrArg dentryOf (update_of_ne hentry _ _)
  | @changed p d hlive =>
    intro x
    rw [holder_same]
    · exact h.refs x
    · exact fun _ => rfl
  | @unlinked d c hd hle =>
    obtain ⟨n, hn, hcount⟩ := h.refs d
    rw [hd] at hn
    have hcn : c = n := hn
    refine refs_update h rfl ?_ hcount fun _ _ _ hx => hx
    show (0 : ℤ) = n
    omega
  | @loaded d c o flags hd ho =>
    obtain ⟨n, hn, hcount⟩ := h.refs d
    refine refs_update h rfl ?_ hcount fun _ _ _ hx => hx
    grind
  | @forked q hq =>
    intro d
    obtain ⟨n, hn, hcount⟩ := h.refs d
    refine ⟨n, hn, hcount.congr fun x => ?_⟩
    grind [holder, initProcFileManagement, dentryOf]
  | @exited p hlive =>
    intro d
    obtain ⟨n, hn, hcount⟩ := h.refs d
    refine ⟨n, hn, hcount.congr fun x => ?_⟩
    obtain ⟨q, fd⟩ := x
    by_cases hq : q = p
    · subst hq
      have hnone : dentryOf ((s.pfiles q).opened_files fd) = none := by
        by_cases hfd : fd < MAX_FILES
        · exact dentryOf_of_not_opened (hc.2 fd hfd)
        · rw [(h.tables q).inside fd (not_lt.1 hfd)]
          rfl
      simp [holder, hlive, hnone]
    · simp only [holder, update_of_ne hq]

theorem good_start (h : Start s) : Good s := by
  constructor
  · intro d
    have hzero : (s.d_ref d).getD 0 = 0 := by
      cases hd : s.d_ref d with
      | none => rfl
      | some c => exact h.refs d c hd
    refine ⟨0, hzero, counted_zero fun x hx => ?_⟩
    simp [holder, h.tables x.1, initProcFileManagement, dentryOf] at hx
  · intro p
    rw [h.tables p]
    exact table_init

theorem good_reach (h : Reach step Orderly Start s) : Good s := by
  refine h.inv (P := Good) (fun s hs => good_start hs) ?_
  intro s op s' hgood hc hstep
  obtain ⟨r, hact⟩ := acts_of_step hstep
  exact hgood.step hc hact

theorem counted_holder {κ φ : Type} {holds : κ → Option φ} {f : φ} {n : ℕ} (h : Counted holds f n) (hn : 0 < n) :
    ∃ k, holds k = some f := by
  obtain ⟨S, hS, rfl⟩ := h
  obtain ⟨k, hk⟩ := Finset.card_pos.1 hn
  exact ⟨k, (hS k).1 hk⟩

theorem holder_some {x : ℕ × ℕ} (h : holder s x = some d) :
    s.live x.1 = true ∧ ∃ file, (s.pfiles x.1).opened_files x.2 = some file ∧ file.status = true ∧
      file.f_dentry = d := by
  unfold holder at h
  split_ifs at h with hlive
  obtain ⟨file, hfile, hd⟩ := Option.bind_eq_some_iff.1 h
  grind

/-- **The openers.** The count of a dentry is the number of FD_OPENED entries of live processes that refer to it, and an
unlink that the file system would carry out is refused only while there is one. -/
theorem d_ref_counts (h : Reach step Orderly Start s) :
    (∀ d c, s.d_ref d = some c → ∃ n : ℕ, c = n ∧ Counted (holder s) d n) ∧
    ∀ d s', act (.unlink (some (d, FILE_I)) true) s = .ok (-1, s') →
      ∃ p fd file, s.live p = true ∧ (s.pfiles p).opened_files fd = some file ∧ file.status = true ∧
        file.f_dentry = d := by
  have hgood := good_reach h
  have hrefs : ∀ d c, s.d_ref d = some c → ∃ n : ℕ, c = n ∧ Counted (holder s) d n := by
    intro d c hd
    obtain ⟨n, hn, hcount⟩ := hgood.refs d
    rw [hd] at hn
    exact ⟨n, hn, hcount⟩
  refine ⟨hrefs, ?_⟩
  intro d s' hact
  obtain ⟨ok, s1, h1, h2⟩ := run_bind.1 hact
  obtain ⟨hok, -⟩ := run_pure.1 h2
  obtain ⟨-, -, hrefused⟩ | ⟨rfl, -⟩ := run_vfsUnlink h1
  · obtain ⟨c, hc, hpos⟩ := hrefused d rfl rfl
    obtain ⟨n, rfl, hcount⟩ := hrefs d c hc
    obtain ⟨x, hx⟩ := counted_holder hcount (by omega)
    obtain ⟨hlive, file, hfile, hstatus, hd⟩ := holder_some hx
    exact ⟨x.1, x.2, file, hlive, hfile, hstatus, hd⟩
  · cases hok

instance : Decidable (Orderly s op) := by
  unfold Orderly ClosesOpened ExitsClosed
  refine @instDecidableAnd _ _ ?_ ?_
  · split <;> infer_instance
  · split <;> infer_instance

/-- two processes open a file, and the first one closes it and exits -/
def passedOn : List Op :=
  [.exit 1, .lookup 1, .open 0 (some (1, FILE_I)) 0, .fork 1, .open 1 (some (1, FILE_I)) 2, .close 0 0 FILE_I, .exit 0]

theorem d_ref_counts_passedOn :
    (exec step empty passedOn).d_ref 1 = some 1 ∧ Counted (holder (exec step empty passedOn)) 1 1 := by
  have hreach : Reach step Orderly Start (exec step empty passedOn) :=
    reach_decide passedOn empty (.init empty_start) (by decide +kernel)
  have hd : (exec step empty passedOn).d_ref 1 = some 1 := by decide +kernel
  obtain ⟨n, hn, hcount⟩ := (d_ref_counts hreach).1 1 1 hd
  obtain rfl : n = 1 := by omega
  exact ⟨hd, hcount⟩

/-- the calls that do not write the table of a process -/
def Op.Spares (op : Op) (p : ℕ) : Prop :=
  op.opener ≠ some p ∧ (∀ fd, op.closes ≠ some (p, fd)) ∧ (∀ fd offset, op ≠ .move p fd offset) ∧
    (∀ d, op ≠ .ccwd p d) ∧ op ≠ .fork p

theorem pfiles_step (hact : Acts s op r s') (h : op.Spares p) : s'.pfiles p = s.pfiles p := by
  cases hact with
  | @opened _ q _ _ _ hop =>
    have hq : p ≠ q := fun he => h.1 (by rw [he, hop])
    exact update_of_ne hq _ _
  | @closed _ q fd _ _ _ hop =>
    have hq : p ≠ q := fun he => h.2.1 fd (by rw [he, hop])
    exact update_of_ne hq _ _
  | @moved q offset fd =>
    have hq : p ≠ q := fun he => h.2.2.1 fd offset (by rw [he])
    exact update_of_ne hq _ _
  | @changed q d =>
    have hq : p ≠ q := fun he => h.2.2.2.1 d (by rw [he])
    exact update_of_ne hq _ _
  | @forked q =>
    have hq : p ≠ q := fun he => h.2.2.2.2 (by rw [he])
    exact update_of_ne hq _ _
  | same => rfl
  | lookup => rfl
  | unlinked => rfl
  | loaded => rfl
  | exited => rfl

def leftOpen : List Op := [.lookup 1, .open 0 (some (1, FILE_I)) 0, .exit 0]

/-- No live process has the file open, and it cannot be unlinked. -/
theorem exited_still_open : Reach step (fun _ _ => True) Start (exec step empty leftOpen) ∧
    (act (.unlink (some (1, FILE_I)) true) (exec step empty leftOpen)).map Prod.fst = .ok (-1) ∧
    (exec step empty leftOpen).d_ref 1 = some 1 ∧ Counted (holder (exec step empty leftOpen)) 1 0 := by
  refine ⟨reach_decide _ empty (.init empty_start) (by decide +kernel), by decide +kernel,
    by decide +kernel, counted_zero fun x hx => ?_⟩
  obtain ⟨hlive, file, hfile, -⟩ := holder_some hx
  by_cases hp : x.1 = 0
  · rw [hp] at hlive
    revert hlive
    decide +kernel
  · have hkeeps : (exec step empty leftOpen).pfiles x.1 = empty.pfiles x.1 := by
      refine exec_keeps (f := fun s => s.pfiles x.1) (P := fun op : Op => op.Spares x.1) ?_ ?_ empty
      · intro s op s' hop hstep
        obtain ⟨r, hact⟩ := acts_of_step hstep
        exact pfiles_step hact hop
      · simp [leftOpen, Op.Spares, Op.opener, Op.closes, Ne.symm hp]
    rw [hkeeps] at hfile
    cases hfile

end RiscvPke.Openers
