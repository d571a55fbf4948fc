/-
Reading (`rfs_read`, `vfs_read`, `do_read`), and the offsets of opened files (kernel/rfs.c, kernel/vfs.c,
kernel/proc_file.c).
-/
import RiscvPke.Fs.Frames

namespace RiscvPke.Offsets

open Function CData Run RiscvPke.System RiscvPke.Fs

/-! ## Reading -/

def bytes (b : Buf) (a len : ℕ) : List UInt8 := (List.range len).map fun i => b (a + i)

/-- complete blocks, with `dev` for the device -/
def readBlocksOn (dev : ℤ → F Unit) (f_inode : Dinode) : (readtimes block_offset : ℕ) → F (List UInt8)
  | 0, _ => return []
  | k + 1, block_offset => do
    dev (← f_inode.addr block_offset)
    let data := bytes (← get).iobuffer 0 RFS_BLKSIZE
    return data ++ (← readBlocksOn dev f_inode k (block_offset + 1))

/-- `rfs_read` up to its own buffer, with `dev` for the device: the bytes in the buffer, and the new offset -/
def rfsReadOn (dev : ℤ → F Unit) (f_inode : Dinode) (len offset : ℕ) : F (List UInt8 × ℕ) := do
  if f_inode.size < offset then stop (.panic "rfs_read:offset should less than file size!")
  let len := if f_inode.size < offset + len then (f_inode.size - offset).toNat else len
  let align := offset % RFS_BLKSIZE
  let block_offset := offset / RFS_BLKSIZE
  let readtimes := (align + len) / RFS_BLKSIZE
  let remain := (align + len) % RFS_BLKSIZE
  dev (← f_inode.addr block_offset)
  let first_block_len := if readtimes = 0 then len else RFS_BLKSIZE - align
  let first := bytes (← get).iobuffer align first_block_len
  if readtimes = 0 then return (first, offset + len)
  let data ← readBlocksOn dev f_inode (readtimes - 1) (block_offset + 1)
  if remain = 0 then return (first ++ data, offset + len)
  dev (← f_inode.addr (block_offset + readtimes))
  return (first ++ data ++ bytes (← get).iobuffer 0 remain, offset + len)

def rfsRead (f_inode : Dinode) (len offset : ℕ) : F (List UInt8 × ℕ) := rfsReadOn ramdiskRead f_inode len offset

/-- `strcpy`, the string at `src` ends within `n` bytes -/
def strcpy (dst src : Buf) (n : ℕ) : Buf := storeString dst 0 (loadString src 0 n)

/-- all of `rfs_read`: `r_buf`, the result and the new offset -/
def rfsReadTo (f_inode : Dinode) (r_buf : Buf) (len offset : ℕ) : F (Buf × ℕ × ℕ) := do
  let (data, offset') ← rfsRead f_inode len offset
  -- `buffer` has the data and a terminator
  return (strcpy r_buf (fun i => data.getD i 0) (data.length + 1), offset' - offset, offset')

def vfsRead (file : File) (buf : Buf) (count : ℕ) : F (Buf × ℤ × ℕ) := do
  if !file.readable then return (buf, -1, file.offset)
  if (← vinodeAt (← inodeOf file.f_dentry)).type ≠ FILE_I then return (buf, -1, file.offset)
  let (buf, len, offset) ← rfsReadTo (← vinodeAt (← rfsInodeOf file.f_dentry)).toDinode buf count file.offset
  return (buf, len, offset)

/-- `do_read`, with its `buffer` on the stack: `buf` and the result -/
def doRead (p : ℕ) (fd : ℤ) (buf buffer : Buf) (count : ℕ) : F (Buf × ℤ) := do
  let file ← getOpenedFile p fd
  if !file.readable then stop (.panic "do_read: no readable file!\n")
  let (buffer, len, offset) ← vfsRead file buffer count
  putOpenedFile p (fileEntry fd) { file with offset := offset }
  return (strcpy buf (update buffer count 0) (count + 1), len)

/-- a file call, or a read with the bytes that its buffers have before -/
inductive Op where
  | call (call : Call)
  | read (fd : ℤ) (count : ℕ) (buf buffer : Buf)

def act (p : ℕ) : Op → F ℤ
  | .call call => Fs.act p call
  | .read fd count buf buffer => return (← doRead p fd buf buffer count).2

/-- one call of the process `l.1` -/
def step (s : St) (l : ℕ × Op) : Except Fault St := (act l.1 l.2 s).map Prod.snd

/-- careful calls, that close FD_OPENED descriptors only -/
def Cond (s : St) (l : ℕ × Op) : Prop :=
  match l.2 with
  | .call call => Careful s (l.1, call) ∧ ClosesOpened s (l.1, call)
  | .read _ _ _ _ => True

variable {α : Type} {s s' : St} {p v d : ℕ} {V V' : Vinode} {D D' : Debts} {De : Dentry}

/-! ## Sizes -/

theorem node_of_file (h : Tidy D (abs s)) (hd : d ∉ D.stray) (hDe : s.dentries d = some De)
    (hi : De.dentry_inode = some v) (hV : s.vinodes v = some V) (hf : V.type = FILE_I) : Node D (abs s) d v V := by
  rcases (h.inv.tree.placed d De hDe hd).2 with ⟨-, -, w, W, hw, hW, -, hdir⟩ | ⟨up, w, W, -, -, hN, -⟩
  · cases hi.symm.trans hw
    cases hV.symm.trans hW
    rw [hdir] at hf
    cases hf
  · cases hi.symm.trans (hN.inode hDe)
    cases hV.symm.trans hN.vinode
    exact hN

theorem size_of_moves {c : Change} (h : Tidy D (abs s)) (h' : Tidy D' (abs s')) (hmoves : Moves (abs s) c (abs s'))
    (hc : c ≠ .data)
    (hN : Node D (abs s) d v V) (hN' : Node D' (abs s') d v V') (hi : V'.inum = V.inum) (hf : V'.type = FILE_I) :
    V.type = FILE_I ∧ V.size = V'.size := by
  obtain ⟨n, hn, hh, hlive, hs, -⟩ := h.inv.cached hN.vinode hN.rfs hN.tight
  obtain ⟨hh', hlive', hs', -⟩ := hN'.cachedAt h'.inv (hi.trans hn)
  have hbody : (abs s).body n = V.body := body_of_hash hh hN.vinode
  have hbody' : (abs s').body n = V'.body := body_of_hash hh' hN'.vinode
  have hsame : (abs s').body n = (abs s).body n := by
    cases hmoves with
    | same _ _ hb => rw [hb]
    | @new m _ _ _ hv _ _ hb =>
      have hm : n ≠ m := by
        rintro rfl
        exact hlive hv.inode
      rw [hb, update_of_ne hm]
    | @freed _ m _ _ _ _ _ _ hb hfree =>
      have hm : n ≠ m := by
        rintro rfl
        apply hlive'
        rw [← h'.inv.type_body, hb, update_self]
        exact hfree
      rw [hb, update_of_ne hm]
    | grown hdata => exact absurd hdata hc
  rw [hbody, hbody'] at hsame
  have htype : V'.type = V.type := (congrArg Dinode.type hsame : V'.toDinode.body.type = V.toDinode.body.type)
  have hsize := congrArg Dinode.size hsame
  have hfile : V.type = FILE_I := htype ▸ hf
  simp only [Dinode.body, hf, hfile] at hsize
  exact ⟨hfile, hsize.symm⟩

/-- the vinodes, but for the blocks of one of them -/
def outlines (f : ℕ) (s : St) (v : ℕ) : Option Vinode :=
  if v = f then (s.vinodes v).map fun V => { V with blocks := 0, addrs := fun _ => 0 } else s.vinodes v

variable {f : ℕ}

theorem outlined {x : F α} (h : Still x) : Keeps (outlines f) x := by
  intro s r s' hx
  have hv : s'.vinodes = s.vinodes := congrArg Prod.fst (h s r s' hx)
  unfold outlines
  rw [hv]

theorem outlines_setVinode {W : Vinode} (hV : s.vinodes f = some V)
    (hW : { W with blocks := 0, addrs := fun _ => 0 } = ({ V with blocks := 0, addrs := fun _ => 0 } : Vinode)) :
    outlines f { s with vinodes := update s.vinodes f (some W) } = outlines f s := by
  funext x
  unfold outlines
  by_cases hx : x = f
  · rw [hx, if_pos rfl, if_pos rfl, hV]
    simp [hW]
  · rw [if_neg hx, if_neg hx]
    exact update_of_ne hx _ _

variable {i : ℕ}

theorem outlines_blockFor : Keeps (outlines f) (blockFor f i) := by
  intro s r s' h
  obtain ⟨V, s1, h1, h2⟩ := run_bind.1 h
  obtain ⟨hV, rfl⟩ := run_vinodeAt.1 h1
  have hrest : Keeps (outlines f) (do (← vinodeAt f).addr i) := outlined (still_vinodeAt.bind fun _ => still_addr)
  split_ifs at h2 with hnew hlt
  · obtain ⟨blk, s2, h3, h4⟩ := run_bind.1 h2
    have hv : s2.vinodes = s.vinodes := congrArg Prod.fst (still_rfsAllocBlock _ _ _ h3)
    obtain ⟨_, _, ⟨⟩, h6⟩ := run_bind.1 h4
    rw [hrest _ _ _ h6]
    refine Eq.trans (outlines_setVinode (V := V) (by rw [hv]; exact hV) ?_) (outlined still_rfsAllocBlock _ _ _ h3)
    rfl
  · obtain ⟨_, _, -, h4⟩ := run_bind.1 h2
    cases h4
  · exact hrest _ _ _ h2

theorem outlines_writeBlock {data : List UInt8} : Keeps (outlines f) (writeBlock f data i) :=
  (outlines_blockFor).bind fun _ => keeps_get.bind fun _ => (outlined still_setIobuffer).bind fun _ =>
    outlined still_ramdiskWrite

variable {buf : List UInt8} {k : ℕ}

theorem outlines_writeBlocks : Keeps (outlines f) (writeBlocks f k buf i) := by
  induction k generalizing buf i with
  | zero => exact keeps_pure
  | succ k ih => exact (outlines_writeBlock).bind fun _ => ih

theorem outlines_writeAligned {remain : ℕ} : Keeps (outlines f) (writeAligned f k remain buf i) := by
  refine (outlines_writeBlocks).bind fun _ => ?_
  split_ifs
  · exact outlines_writeBlock
  · exact keeps_pure

variable {offset : ℕ}

theorem run_rfsWrite {r : ℕ} (h : rfsWrite f buf offset s = .ok (r, s')) :
    r = offset + buf.length ∧ (∀ w, w ≠ f → s'.vinodes w = s.vinodes w) ∧
      ∃ V V', s.vinodes f = some V ∧ s'.vinodes f = some V' ∧ V'.type = V.type ∧
        V'.size = max V.size (offset + buf.length) := by
  obtain ⟨V, s1, h1, h2⟩ := run_bind.1 h
  obtain ⟨hV, rfl⟩ := run_vinodeAt.1 h1
  -- what is left when the blocks are written
  have hend : ∀ s1, outlines f s1 = outlines f s → (do
      let V ← vinodeAt f
      setVinode f { V with size := max V.size (offset + buf.length) }
      return offset + buf.length : F ℕ) s1 = .ok (r, s') →
      r = offset + buf.length ∧ (∀ w, w ≠ f → s'.vinodes w = s.vinodes w) ∧
        ∃ V V', s.vinodes f = some V ∧ s'.vinodes f = some V' ∧ V'.type = V.type ∧
          V'.size = max V.size (offset + buf.length) := by
    intro s1 hout h3
    obtain ⟨V1, s2, h4, h5⟩ := run_bind.1 h3
    obtain ⟨hV1, rfl⟩ := run_vinodeAt.1 h4
    obtain ⟨_, _, ⟨⟩, h7⟩ := run_bind.1 h5
    cases h7
    have hself := congrFun hout f
    simp only [outlines, if_true, hV, hV1, Option.map_some, Option.some.injEq, Vinode.mk.injEq,
      Dinode.mk.injEq] at hself
    obtain ⟨⟨hsize, htype, -⟩, -⟩ := hself
    refine ⟨rfl, fun w hw => ?_, V, _, hV, update_self _ _ _, htype, by rw [hsize]⟩
    have hother := congrFun hout w
    grind [outlines]
  dsimp only at h2
  split at h2
  · cases h2
  split at h2
  · obtain ⟨blk, s2, h3, h4⟩ := run_bind.1 h2
    obtain ⟨_, s3, h5, h6⟩ := run_bind.1 h4
    rw [run_get_bind] at h6
    obtain ⟨_, s4, h7, h8⟩ := run_bind.1 h6
    obtain ⟨_, s5, h9, h10⟩ := run_bind.1 h8
    have hout : outlines f s5 = outlines f s := by
      rw [outlined still_ramdiskWrite _ _ _ h9, outlined still_setIobuffer _ _ _ h7,
        outlined still_ramdiskRead _ _ _ h5,
        outlined still_addr _ _ _ h3]
    split at h10
    · obtain ⟨_, s6, h11, h12⟩ := run_bind.1 h10
      exact hend s6 ((outlines_writeAligned _ _ _ h11).trans hout) h12
    · exact hend s5 hout h10
  · obtain ⟨_, s2, h3, h4⟩ := run_bind.1 h2
    exact hend s2 (outlines_writeAligned _ _ _ h3) h4

/-! ## The invariant -/

def RegularAt (s : St) (d v : ℕ) (V : Vinode) : Prop :=
  (∃ De, s.dentries d = some De ∧ De.dentry_inode = some v) ∧ s.vinodes v = some V ∧ V.type = FILE_I

/-- the offsets of the descriptors of regular files, opened or closed, are inside -/
def Inside (s : St) : Prop :=
  ∀ p fd file v V, (s.pfiles p).opened_files fd = some file → RegularAt s file.f_dentry v V → (file.offset : ℤ) ≤ V.size

theorem kin_regular (h : Tidy D (abs s)) (h' : Tidy D' (abs s')) (hkin : Kin s s') (hlt : d < s.next) (hd : d ∉ D.stray)
    (hd' : d ∉ D'.stray) (hR : RegularAt s' d v V') :
    ∃ V, Node D (abs s) d v V ∧ Node D' (abs s') d v V' ∧ V'.inum = V.inum := by
  obtain ⟨⟨De', hDe', hi'⟩, hV', hf'⟩ := hR
  obtain ⟨De, hDe, hi⟩ := hkin.dentries d De' hDe' hlt
  rw [hi'] at hi
  rcases (h.inv.tree.placed d De hDe hd).2 with ⟨hroot, -⟩ | ⟨up, w, W, -, -, hN, -⟩
  · -- the root of the host file system stays a directory
    obtain ⟨De0, hDe0, -, -, w, W, hw, hW, -, hdir⟩ := h'.inv.tree.root
    have hroot' : (abs s').vfs_root_dentry = d := hkin.root.trans hroot.symm
    rw [hroot'] at hDe0
    cases hDe'.symm.trans hDe0
    cases hi'.symm.trans hw
    cases hV'.symm.trans hW
    rw [hdir] at hf'
    cases hf'
  · cases hi.trans (hN.inode hDe)
    obtain ⟨W0, hW0, hinum⟩ := hkin.vinodes v V' hV' (h.inv.vinode_lt hN.vinode)
    cases hN.vinode.symm.trans hW0
    exact ⟨W, hN, node_of_file h' hd' hDe' hi' hV' hf', hinum⟩

theorem size_nonneg (h : Tidy D (abs s)) (hN : Node D (abs s) d v V) : 0 ≤ V.size := by
  obtain ⟨n, -, hh, hlive, -⟩ := h.inv.cached hN.vinode hN.rfs hN.tight
  have hshape := h.inv.disk.shape n hlive
  rw [cur_of_cached hh hN.vinode] at hshape
  exact hshape.size.1

theorem runs_rooted (h : Runs False s s') : Openers.Rooted (opens s) (opens s') := by
  refine Reach.inv (P := Openers.Rooted (opens s)) ?_ ?_ h
  · rintro u rfl
    exact Openers.Rooted.refl _
  · intro u op u' hu hc hstep
    obtain ⟨r, hact⟩ := Openers.acts_of_step hstep
    exact hu.step (hc.2.resolve_right id) hact

theorem inside_unmoved {c : Change} (h : Tidy D (abs s)) (h' : Tidy D' (abs s')) (hmoves : Moves (abs s) c (abs s'))
    (hc : c ≠ .data) (hran : Ran False s s') (hin : Inside s) : Inside s' := by
  intro p fd file' v V' hfile' hR
  obtain ⟨-, hd'⟩ := h'.inv.tree.files p fd file' hfile'
  rcases runs_rooted hran.run p fd file' hfile' with h0 | ⟨file, hfile, hdentry, hoffset⟩
  · obtain ⟨⟨De', hDe', hi'⟩, hV', hf'⟩ := hR
    have hsize := size_nonneg h' (node_of_file h' hd' hDe' hi' hV' hf')
    rw [h0]
    exact hsize
  · obtain ⟨hlt, hd⟩ := h.inv.tree.files p fd file hfile
    rw [← hdentry] at hlt hd
    obtain ⟨V, hN, hN', hinum⟩ := kin_regular h h' hran.kin hlt hd hd' hR
    obtain ⟨hf, hsize⟩ := size_of_moves h h' hmoves hc hN hN' hinum hR.2.2
    rw [hoffset, ← hsize]
    exact hin p fd file v V hfile ⟨hdentry ▸ hN.dentry, hN.vinode, hf⟩

/-- regular files have not become shorter -/
def Longer (s s' : St) : Prop :=
  s'.dentries = s.dentries ∧ s'.pfiles = s.pfiles ∧
    ∀ v V', s'.vinodes v = some V' → V'.type = FILE_I → ∃ V, s.vinodes v = some V ∧ V.type = FILE_I ∧ V.size ≤ V'.size

theorem Inside.longer (h : Inside s) (hl : Longer s s') : Inside s' := by
  obtain ⟨hdentries, hpfiles, hsizes⟩ := hl
  intro p fd file v V' hfile ⟨hDe, hV', hf'⟩
  obtain ⟨V, hV, hf, hle⟩ := hsizes v V' hV' hf'
  rw [hpfiles] at hfile
  rw [hdentries] at hDe
  exact (h p fd file v V hfile ⟨hDe, hV, hf⟩).trans hle

variable {fd : ℤ} {file : File}

theorem Inside.move (h : Inside s) (hoffset : ∀ v V, RegularAt s file.f_dentry v V → (offset : ℤ) ≤ V.size) :
    Inside { s with
      pfiles := update s.pfiles p (Openers.put (s.pfiles p) (fileEntry fd) { file with offset := offset }) } := by
  intro q entry file' v V hfile' hR
  by_cases hq : q = p
  · subst hq
    have hput : update (s.pfiles q).opened_files (fileEntry fd)
      (some { file with offset := offset }) entry = some file' := by
      simpa only [update_self, Openers.put] using hfile'
    rcases update_cases hput with ⟨-, he⟩ | ⟨-, he⟩
    · cases he
      exact hoffset v V hR
    · exact h q entry file' v V he hR
  · have hother : (s.pfiles q).opened_files entry = some file' := by
      simpa only [update_of_ne hq] using hfile'
    exact h q entry file' v V hother hR

theorem run_rfsInodeOf (h : rfsInodeOf d s = .ok (v, s')) :
    ∃ De, s.dentries d = some De ∧ De.dentry_inode = some v ∧ s = s' := by
  obtain ⟨w, s1, h1, h2⟩ := run_bind.1 h
  grind [run_inodeOf, run_vinodeAt]

theorem run_regular {a x : α} {g : ℕ → F α}
    (h : (do if (← vinodeAt (← inodeOf d)).type ≠ FILE_I then return a
             g (← rfsInodeOf d)) s = .ok (x, s')) :
    a = x ∧ s = s' ∨ ∃ De v, s.dentries d = some De ∧ De.dentry_inode = some v ∧ g v s = .ok (x, s') := by
  obtain ⟨-, -, V, -, -, -, h1⟩ := run_inodeOf_bind h
  split at h1
  · exact .inl (run_pure.1 h1)
  · obtain ⟨v, s1, h2, h3⟩ := run_bind.1 h1
    obtain ⟨De, hDe, hi, rfl⟩ := run_rfsInodeOf h2
    exact .inr ⟨De, v, hDe, hi, h3⟩

theorem RegularAt.unique {W : Vinode} (hR : RegularAt s d v V) (hDe : s.dentries d = some De)
    (hi : De.dentry_inode = some f) (hW : s.vinodes f = some W) : v = f ∧ V = W := by
  obtain ⟨⟨De', hDe', hi'⟩, hV, -⟩ := hR
  grind

/-! ## One call -/

theorem inside_write {r : ℤ} (hin : Inside s) (h : doWrite p fd buf s = .ok (r, s')) : Inside s' := by
  obtain ⟨file, s1, h1, h2⟩ := run_bind.1 h
  obtain ⟨hfile, rfl⟩ := run_getOpenedFile h1
  split at h2
  · cases h2
  obtain ⟨o, s2, h3, h4⟩ := run_bind.1 h2
  have hw : ¬ (!file.writable) = true := by assumption
  unfold vfsWrite at h3
  rw [if_neg hw] at h3
  obtain ⟨rfl, rfl⟩ | ⟨De, f, hDe, hi, h10⟩ := run_regular h3
  · obtain ⟨-, rfl⟩ := run_pure.1 h4
    exact hin
  obtain ⟨offset, s6, h11, h12⟩ := run_bind.1 h10
  obtain ⟨rfl, rfl⟩ := run_pure.1 h12
  obtain ⟨_, s7, h13, h14⟩ := run_bind.1 h4
  obtain ⟨-, rfl⟩ := run_pure.1 h14
  obtain rfl := run_putOpenedFile h13
  have hq : Quiet s s s6 := quiet_run (fun _ _ => quiet_rfsWrite) h11
  obtain ⟨hoffset, hother, W, W', hW, hW', htype, hsize⟩ := run_rfsWrite h11
  have hlonger : Longer s s6 := by
    refine ⟨hq.dentries, hq.pfiles, fun x X hX hf => ?_⟩
    grind
  refine (hin.longer hlonger).move fun x X hR => ?_
  rw [← hq.dentries] at hDe
  obtain ⟨-, rfl⟩ := hR.unique hDe hi hW'
  grind

variable {e : Dinode}

theorem rfsLseek_le {new_offset whence : ℤ} {z : ℕ} (h : rfsLseek e new_offset whence offset = some z) :
    (z : ℤ) ≤ e.size := by
  unfold rfsLseek at h
  grind

theorem inside_lseek {offset whence r : ℤ} (hin : Inside s)
    (h : doLseek p fd offset whence s = .ok (r, s')) : Inside s' := by
  obtain ⟨file, s1, h1, h2⟩ := run_bind.1 h
  obtain ⟨hfile, rfl⟩ := run_getOpenedFile h1
  obtain ⟨o, s2, h3, h4⟩ := run_bind.1 h2
  obtain ⟨rfl, rfl⟩ | ⟨De, f, hDe, hi, h10⟩ := run_regular h3
  · cases h4
    exact hin
  obtain ⟨W, s6, h11, h12⟩ := run_bind.1 h10
  obtain ⟨hW, rfl⟩ := run_vinodeAt.1 h11
  cases h12
  cases hz : rfsLseek W.toDinode offset whence file.offset with
  | none =>
    rw [hz] at h4
    cases h4
    exact hin
  | some z =>
    rw [hz] at h4
    obtain ⟨_, s7, h13, h14⟩ := run_bind.1 h4
    cases h14
    obtain rfl := run_putOpenedFile h13
    refine hin.move fun x X hR => ?_
    obtain ⟨-, rfl⟩ := hR.unique hDe hi hW
    exact rfsLseek_le hz

/-! ## Reading writes nothing but the buffer -/

theorem abs_ramdiskRead {x : ℤ} : Keeps abs (ramdiskRead x) := by
  unfold ramdiskRead
  split_ifs
  · exact keeps_throw.bind fun _ => keeps_modify fun _ => rfl
  · exact keeps_modify fun _ => rfl

theorem abs_addr {i : ℤ} : Keeps abs (e.addr i) := by
  unfold Dinode.addr
  split_ifs
  · exact keeps_pure
  · exact keeps_throw

theorem abs_readBlocks : Keeps abs (readBlocksOn ramdiskRead e k i) := by
  induction k generalizing i with
  | zero => exact keeps_pure
  | succ k ih =>
    exact (abs_addr).bind fun _ => (abs_ramdiskRead).bind fun _ => keeps_get.bind fun _ => ih.bind fun _ => keeps_pure

theorem run_rfsRead {len : ℕ} {res : List UInt8 × ℕ} (h : rfsRead e len offset s = .ok (res, s')) :
    abs s' = abs s ∧ (res.2 : ℤ) ≤ e.size := by
  unfold rfsRead rfsReadOn at h
  split at h
  · cases h
  -- how much is read
  have hlen : ((offset + (if e.size < offset + len then (e.size - offset).toNat else len) : ℕ) : ℤ) ≤ e.size := by
    split_ifs <;> omega
  generalize (if e.size < offset + len then (e.size - offset).toNat else len) = n at h hlen
  obtain ⟨b, s1, h1, h2⟩ := run_bind.1 h
  obtain ⟨_, s2, h3, h4⟩ := run_bind.1 h2
  have habs2 : abs s2 = abs s := (abs_ramdiskRead _ _ _ h3).trans (abs_addr _ _ _ h1)
  rw [run_get_bind] at h4
  split at h4
  · cases h4
    exact ⟨habs2, hlen⟩
  obtain ⟨data, s3, h5, h6⟩ := run_bind.1 h4
  have habs3 : abs s3 = abs s := (abs_readBlocks _ _ _ h5).trans habs2
  split at h6
  · cases h6
    exact ⟨habs3, hlen⟩
  obtain ⟨b', s4, h7, h8⟩ := run_bind.1 h6
  obtain ⟨_, s5, h9, h10⟩ := run_bind.1 h8
  cases h10
  exact ⟨((abs_ramdiskRead _ _ _ h9).trans (abs_addr _ _ _ h7)).trans habs3, hlen⟩

variable {count : ℕ}

theorem run_vfsRead {b b' : Buf} {len : ℤ} (h : vfsRead file b count s = .ok ((b', len, offset), s')) :
    abs s' = abs s ∧ (offset = file.offset ∨ ∀ v V, RegularAt s file.f_dentry v V → (offset : ℤ) ≤ V.size) := by
  unfold vfsRead at h
  split at h
  · cases h
    exact ⟨rfl, .inl rfl⟩
  obtain ⟨he, rfl⟩ | ⟨De, f, hDe, hi, h1⟩ := run_regular h
  · cases he
    exact ⟨rfl, .inl rfl⟩
  obtain ⟨W, s1, h2, h3⟩ := run_bind.1 h1
  obtain ⟨hW, rfl⟩ := run_vinodeAt.1 h2
  obtain ⟨⟨b1, len1, offset1⟩, s2, h4, h5⟩ := run_bind.1 h3
  obtain ⟨⟨data, offset2⟩, s3, h6, h7⟩ := run_bind.1 h4
  cases h5
  cases h7
  obtain ⟨habs, hle⟩ := run_rfsRead h6
  refine ⟨habs, .inr fun v V hR => ?_⟩
  obtain ⟨-, rfl⟩ := hR.unique hDe hi hW
  exact hle

variable {dst buffer : Buf}

theorem run_doRead {res : Buf × ℤ} (hin : Inside s) (h : doRead p fd dst buffer count s = .ok (res, s')) :
    ∃ file s1 offset, (s.pfiles p).opened_files (fileEntry fd) = some file ∧ abs s1 = abs s ∧
      (∀ v V, RegularAt s file.f_dentry v V → ((offset : ℕ) : ℤ) ≤ V.size) ∧
      s' = { s1 with
        pfiles := update s1.pfiles p (Openers.put (s1.pfiles p) (fileEntry fd) { file with offset := offset }) } := by
  obtain ⟨file, s1, h1, h2⟩ := run_bind.1 h
  obtain ⟨hfile, rfl⟩ := run_getOpenedFile h1
  split at h2
  · cases h2
  obtain ⟨⟨b, len, offset⟩, s2, h3, h4⟩ := run_bind.1 h2
  obtain ⟨_, s3, h5, h6⟩ := run_bind.1 h4
  obtain ⟨-, rfl⟩ := run_pure.1 h6
  obtain ⟨habs, hoffset⟩ := run_vfsRead h3
  refine ⟨file, s2, offset, hfile, habs, fun v V hR => ?_, run_putOpenedFile h5⟩
  rcases hoffset with rfl | hle
  · exact hin p _ file v V hfile hR
  · exact hle v V hR

/-! ## Runs -/

structure Good (s : St) : Prop where
  tidy : ∃ D, Tidy D (abs s) ∧ Fair D
  run : Reach Openers.step Openers.Orderly Openers.Start (opens s)
  inside : Inside s

theorem good_boot (h : Boot s) : Good s := by
  refine ⟨⟨Debts.none, (boot_spec h).tidy, fair_none⟩, .init (boot_opens h).2, ?_⟩
  intro p fd file v V hfile
  have hpfiles : s.pfiles p = ⟨1, fun _ => none, 0⟩ := (boot_spec h).pfiles p
  rw [hpfiles] at hfile
  cases hfile

theorem good_call {call : Call} {r : ℤ} (h : Good s) (hc : Careful s (p, call)) (hclose : ClosesOpened s (p, call))
    (hact : Fs.act p call s = .ok (r, s')) : Good s' := by
  obtain ⟨D, htidy, hfair⟩ := h.tidy
  obtain ⟨c, D', heff, hasks, -⟩ := step_post htidy hfair hc hact
  have hran := act_opens htidy.inv.tree.fresh hclose hact
  refine ⟨⟨D', heff.tidy, heff.fair⟩, (hran.run.mono fun _ _ h => h.1).trans h.run, ?_⟩
  by_cases hmoves : call.Moves
  · cases call with
    | write fd buf => exact inside_write h.inside hact
    | lseek fd offset whence => exact inside_lseek h.inside hact
    | _ => exact hmoves.elim
  · have hdata : c ≠ .data := by
      rintro rfl
      obtain ⟨fd, buf, rfl⟩ := hasks.data
      exact hmoves trivial
    rw [eq_false hmoves] at hran
    exact inside_unmoved htidy heff.tidy heff.moves hdata hran h.inside

theorem good_read {res : Buf × ℤ} (h : Good s) (hread : doRead p fd dst buffer count s = .ok (res, s')) : Good s' := by
  obtain ⟨file, s1, offset, hfile, habs, hoffset, rfl⟩ := run_doRead h.inside hread
  obtain ⟨D, htidy, hfair⟩ := h.tidy
  have hmem : s1.toMem = s.toMem := congrArg Afs.toMem habs
  have hpfiles : s1.pfiles = s.pfiles := congrArg Mem.pfiles hmem
  have hdentries : s1.dentries = s.dentries := congrArg Mem.dentries hmem
  have hvinodes : s1.vinodes = s.vinodes := congrArg Mem.vinodes hmem
  have hopens : opens s1 = opens s := by
    unfold opens
    grind
  refine ⟨⟨D, ?_, hfair⟩, ?_, ?_⟩
  · have hput : Tidy D { abs s1 with
        pfiles := update (abs s1).pfiles p ⟨((abs s1).pfiles p).cwd,
          update ((abs s1).pfiles p).opened_files (fileEntry fd) (some { file with offset := offset }),
          ((abs s1).pfiles p).nfiles⟩ } := by
      rw [habs]
      exact htidy.putFile (htidy.inv.tree.files p _ file hfile)
    exact hput
  · refine .step (.move p fd offset) h.run ⟨trivial, trivial⟩ ?_
    rw [← hopens]
    exact Openers.step_move rfl (show (s1.pfiles p).opened_files _ = _ by rw [hpfiles, hfile])
  · have hlonger : Longer s s1 := ⟨hdentries, hpfiles, fun v V hV hf => ⟨V, hvinodes ▸ hV, hf, le_rfl⟩⟩
    refine (h.inside.longer hlonger).move fun v V hR => ?_
    refine hoffset v V ?_
    unfold RegularAt at hR ⊢
    rw [hdentries, hvinodes] at hR
    exact hR

theorem good_reach (h : Reach step Cond Boot s) : Good s := by
  refine h.inv (P := Good) (fun s hs => good_boot hs) ?_
  intro s l s' hgood hc hstep
  obtain ⟨⟨r, s1⟩, hact, rfl⟩ := map_ok hstep
  obtain ⟨p, op⟩ := l
  cases op with
  | call call => exact good_call hgood hc.1 hc.2 hact
  | read fd count =>
    obtain ⟨res, s2, hread, hret⟩ := run_bind.1 hact
    cases hret
    exact good_read hgood hread

/-! ## Panics -/

/-- the panics of `rfs_read` and `rfs_write` for an offset behind the end of the file -/
def Outside (e : Fault) : Prop :=
  e = .stop (.panic "rfs_read:offset should less than file size!") ∨
    e = .stop (.panic "rfs_write:offset should less than file size!")

instance (e : Fault) : Decidable (Outside e) := inferInstanceAs (Decidable (_ ∨ _))

theorem fails_stop {e : Stop} (h : ¬ Outside (.stop e)) : Fails (¬ Outside ·) (stop e : F α) := fails_throw h

theorem fails_vinodeAt : Fails (¬ Outside ·) (vinodeAt v) := by
  refine fails_get_bind fun s => ?_
  split
  · exact fails_pure
  · exact fails_throw (by decide)

theorem fails_inodeOf : Fails (¬ Outside ·) (inodeOf d) := by
  have hdentry : Fails (¬ Outside ·) (dentryAt d) := by
    refine fails_get_bind fun s => ?_
    split
    · exact fails_pure
    · exact fails_throw (by decide)
  refine hdentry.bind fun De => ?_
  split
  · exact fails_pure
  · exact fails_stop (by decide)

theorem fails_rfsInodeOf : Fails (¬ Outside ·) (rfsInodeOf d) := by
  refine (fails_inodeOf).bind fun v => (fails_vinodeAt).bind fun V => ?_
  split_ifs
  · exact (fails_throw (by decide)).bind fun _ => fails_pure
  · exact fails_pure

theorem fails_addr {i : ℤ} : Fails (¬ Outside ·) (e.addr i) := by
  unfold Dinode.addr
  split_ifs
  · exact fails_pure
  · exact fails_stop (by decide)

theorem fails_ramdiskRead {i : ℤ} : Fails (¬ Outside ·) (ramdiskRead i) := by
  unfold ramdiskRead
  split_ifs
  · exact (fails_stop (by decide)).bind fun _ => fails_modify
  · exact fails_modify

theorem fails_ramdiskWrite {i : ℤ} : Fails (¬ Outside ·) (ramdiskWrite i) := by
  unfold ramdiskWrite
  split_ifs
  · exact (fails_stop (by decide)).bind fun _ => fails_modify
  · exact fails_modify

theorem fails_rfsAllocBlock : Fails (¬ Outside ·) rfsAllocBlock := by
  refine fails_get_bind fun s => ?_
  split
  · exact fails_set.bind fun _ => fails_pure
  · exact fails_stop (by decide)

theorem fails_blockFor : Fails (¬ Outside ·) (blockFor f i) := by
  have hrest : Fails (¬ Outside ·) (do (← vinodeAt f).addr i) := (fails_vinodeAt).bind fun _ => fails_addr
  refine (fails_vinodeAt).bind fun V => ?_
  split_ifs
  · exact (fails_rfsAllocBlock).bind fun _ => fails_modify.bind fun _ => hrest
  · exact (fails_rfsAllocBlock).bind fun _ => (fails_stop (by decide)).bind fun _ => hrest
  · exact hrest

theorem fails_writeBlock {data : List UInt8} : Fails (¬ Outside ·) (writeBlock f data i) :=
  (fails_blockFor).bind fun _ => fails_get_bind fun _ => fails_modify.bind fun _ => fails_ramdiskWrite

theorem fails_writeBlocks : Fails (¬ Outside ·) (writeBlocks f k buf i) := by
  induction k generalizing buf i with
  | zero => exact fails_pure
  | succ k ih => exact (fails_writeBlock).bind fun _ => ih

theorem fails_writeAligned {remain : ℕ} : Fails (¬ Outside ·) (writeAligned f k remain buf i) := by
  refine (fails_writeBlocks).bind fun _ => ?_
  split_ifs
  · exact fails_writeBlock
  · exact fails_pure

theorem rfsWrite_error {e : Fault} (h : rfsWrite f buf offset s = .error e) (he : Outside e) :
    ∃ V, s.vinodes f = some V ∧ V.size < offset := by
  obtain h | ⟨V, s1, h1, h2⟩ := run_bind_error.1 h
  · exact absurd he (fails_vinodeAt _ _ h)
  obtain ⟨hV, rfl⟩ := run_vinodeAt.1 h1
  dsimp only at h2
  split at h2
  · exact ⟨V, hV, by assumption⟩
  refine absurd he ?_
  have hend : Fails (¬ Outside ·) (do
      let V ← vinodeAt f
      setVinode f { V with size := max V.size (offset + buf.length) }
      return offset + buf.length : F ℕ) := (fails_vinodeAt).bind fun _ => fails_modify.bind fun _ => fails_pure
  split at h2
  · refine Fails.bind fails_addr (fun _ => (fails_ramdiskRead).bind fun _ => fails_get_bind fun _ => ?_) _ _ h2
    refine fails_modify.bind fun _ => (fails_ramdiskWrite).bind fun _ => ?_
    split
    · exact (fails_writeAligned).bind fun _ => hend
    · exact hend
  · exact Fails.bind fails_writeAligned (fun _ => hend) _ _ h2

theorem regular_error {a : α} {g : ℕ → F α} {e : Fault}
    (h : (do if (← vinodeAt (← inodeOf d)).type ≠ FILE_I then return a
             g (← rfsInodeOf d)) s = .error e) (he : Outside e) : ∃ v V, RegularAt s d v V ∧ g v s = .error e := by
  obtain h | ⟨v, s1, h1, h2⟩ := run_bind_error.1 h
  · exact absurd he (fails_inodeOf _ _ h)
  obtain ⟨De, hDe, hi, rfl⟩ := run_inodeOf h1
  obtain h | ⟨V, s2, h3, h4⟩ := run_bind_error.1 h2
  · exact absurd he (fails_vinodeAt _ _ h)
  obtain ⟨hV, rfl⟩ := run_vinodeAt.1 h3
  split at h4
  · cases h4
  have hf : V.type = FILE_I := not_not.1 (by assumption)
  obtain h | ⟨w, s3, h5, h6⟩ := run_bind_error.1 h4
  · exact absurd he (fails_rfsInodeOf _ _ h)
  obtain ⟨De', hDe', hi', rfl⟩ := run_rfsInodeOf h5
  cases hDe.symm.trans hDe'
  cases hi.symm.trans hi'
  exact ⟨v, V, ⟨⟨De, hDe, hi⟩, hV, hf⟩, h6⟩

theorem vfsWrite_error {e : Fault} (h : vfsWrite file buf s = .error e) (he : Outside e) :
    ∃ v V, RegularAt s file.f_dentry v V ∧ V.size < file.offset := by
  unfold vfsWrite at h
  split at h
  · cases h
  obtain ⟨v, V, hR, h6⟩ := regular_error h he
  obtain h | ⟨_, _, -, h7⟩ := run_bind_error.1 h6
  · obtain ⟨W, hW, hlt⟩ := rfsWrite_error h he
    cases hR.2.1.symm.trans hW
    exact ⟨v, V, hR, hlt⟩
  · cases h7

theorem fails_readBlocks : Fails (¬ Outside ·) (readBlocksOn ramdiskRead e k i) := by
  induction k generalizing i with
  | zero => exact fails_pure
  | succ k ih =>
    exact (fails_addr).bind fun _ => (fails_ramdiskRead).bind fun _ => fails_get_bind fun _ =>
      ih.bind fun _ => fails_pure

theorem rfsRead_error {d : Dinode} {len : ℕ} {e : Fault} (h : rfsRead d len offset s = .error e) (he : Outside e) :
    d.size < offset := by
  unfold rfsRead rfsReadOn at h
  split at h
  · assumption
  refine absurd he ?_
  generalize (if d.size < offset + len then (d.size - offset).toNat else len) = n at h
  refine Fails.bind fails_addr (fun _ => (fails_ramdiskRead).bind fun _ => fails_get_bind fun _ => ?_) _ _ h
  grind [fails_readBlocks, fails_addr, fails_ramdiskRead]

theorem vfsRead_error {e : Fault} (h : vfsRead file dst count s = .error e) (he : Outside e) :
    ∃ v V, RegularAt s file.f_dentry v V ∧ V.size < file.offset := by
  unfold vfsRead at h
  split at h
  · cases h
  obtain ⟨v, V, hR, h6⟩ := regular_error h he
  obtain h | ⟨W, s4, h7, h8⟩ := run_bind_error.1 h6
  · exact absurd he (fails_vinodeAt _ _ h)
  obtain ⟨hW, rfl⟩ := run_vinodeAt.1 h7
  cases hR.2.1.symm.trans hW
  obtain h | ⟨_, _, -, h9⟩ := run_bind_error.1 h8
  · obtain h | ⟨_, _, -, h10⟩ := run_bind_error.1 h
    · exact ⟨v, V, hR, rfsRead_error h he⟩
    · cases h10
  · cases h9

theorem fails_getOpenedFile : Fails (¬ Outside ·) (getOpenedFile p fd) := by
  refine fails_get_bind fun s => ?_
  split
  · exact fails_pure
  · exact fails_throw (by decide)

theorem fails_putOpenedFile {entry : ℕ} : Fails (¬ Outside ·) (putOpenedFile p entry file) :=
  fails_get_bind fun _ => fails_modify

/-- the descriptor of a call that gets outside is open -/
theorem opened_of_error {e : Fault} {x : File → F α} (h : (getOpenedFile p fd >>= x) s = .error e) (he : Outside e) :
    ∃ file, (s.pfiles p).opened_files (fileEntry fd) = some file ∧ x file s = .error e := by
  obtain h | ⟨file, s1, h1, h2⟩ := run_bind_error.1 h
  · exact absurd he (fails_getOpenedFile _ _ h)
  · obtain ⟨hfile, rfl⟩ := run_getOpenedFile h1
    exact ⟨file, hfile, h2⟩

theorem write_inside {e : Fault} (hin : Inside s) (h : doWrite p fd buf s = .error e) : ¬ Outside e := by
  intro he
  obtain ⟨file, hfile, h2⟩ := opened_of_error h he
  split at h2
  · cases h2
    revert he
    decide
  obtain h | ⟨o, s2, -, h4⟩ := run_bind_error.1 h2
  · obtain ⟨v, V, hR, hlt⟩ := vfsWrite_error h he
    exact absurd (hin p _ file v V hfile hR) (by omega)
  · cases o with
    | none => cases h4
    | some offset => exact ((fails_putOpenedFile).bind fun _ => fails_pure) _ _ h4 he

theorem read_inside {e : Fault} (hin : Inside s) (h : doRead p fd dst buffer count s = .error e) : ¬ Outside e := by
  intro he
  obtain ⟨file, hfile, h2⟩ := opened_of_error h he
  split at h2
  · cases h2
    revert he
    decide
  obtain h | ⟨o, s2, -, h4⟩ := run_bind_error.1 h2
  · obtain ⟨v, V, hR, hlt⟩ := vfsRead_error h he
    exact absurd (hin p _ file v V hfile hR) (by omega)
  · exact ((fails_putOpenedFile).bind fun _ => fails_pure) _ _ h4 he

theorem opened_vinode {fd : ℕ} (h : Good s) (hfile : (s.pfiles p).opened_files fd = some file)
    (hopen : file.status = true) :
    ∃ De v V, s.dentries file.f_dentry = some De ∧ De.dentry_inode = some v ∧ s.vinodes v = some V := by
  obtain ⟨D, htidy, -⟩ := h.tidy
  obtain ⟨De, hDe⟩ := opened_dentry (Openers.good_reach h.run) hfile hopen
  have hd := (htidy.inv.tree.files p fd file hfile).2
  rcases (htidy.inv.tree.placed _ De hDe hd).2 with ⟨-, -, v, V, hi, hV, -⟩ | ⟨up, v, V, -, -, hN, -⟩
  · exact ⟨De, v, V, hDe, hi, hV⟩
  · exact ⟨De, v, V, hDe, hN.inode hDe, hN.vinode⟩

instance (s : St) (l : ℕ × Call) : Decidable (ClosesOpened s l) :=
  match h : l.2 with
  | .close fd => decidable_of_iff (Openers.isOpened (s.pfiles l.1) (fileEntry fd) = true)
      ⟨fun ho fd' hc => by cases h.symm.trans hc; exact ho, fun hc => hc fd h⟩
  | .open _ _ | .mkdir _ | .opendir _ | .link _ _ | .unlink _ | .ccwd _ | .write _ _ | .lseek _ _ _ =>
    isTrue fun fd hc => by cases h.symm.trans hc

instance (s : St) (l : ℕ × Op) : Decidable (Cond s l) :=
  match l with
  | (p, .call call) => inferInstanceAs (Decidable (Careful s (p, call) ∧ ClosesOpened s (p, call)))
  | (_, .read _ _ _ _) => isTrue trivial

/-- a file is written, set back to the start and read -/
def writeRead : List (ℕ × Op) :=
  [(0, .call (.open (onDisk [97]) 66)), (0, .call (.write 0 [1, 2, 3])), (0, .call (.lseek 0 0 0)),
    (0, .read 0 2 (fun _ => 0) fun _ => 0)]

/-- `c` gets the inode 1; `a` is written so that it has an entry `b` for that inode, and `b` is unlinked in `a` -/
def unlinkBelow : List (ℕ × Op) :=
  [(0, .call (.open (onDisk [99]) 66)), (0, .call (.close 0)), (0, .call (.open (onDisk [97]) 66)),
    (0, .call (.write 0 ([1, 0, 0, 0, 98] ++ List.replicate 27 0))), (0, .call (.unlink (onDisk [97, 47, 98])))]

end RiscvPke.Offsets
