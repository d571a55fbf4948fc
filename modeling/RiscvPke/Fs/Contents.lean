/-
The bytes of files (kernel/rfs.c): what `rfs_read` takes from the device and hands to its caller, and disk inodes that
are written back and read again.
-/
import RiscvPke.Fs.Offsets

namespace RiscvPke.Contents

open Function CData Run RiscvPke.System RiscvPke.Fs RiscvPke.Offsets

variable {s s' : St} {f : Dinode} {a i k n v w : ℕ} {V W : Vinode}

/-! ## Disk inodes -/

/-- **Round trip.** `rfs_write_back_vinode` changes one disk inode, and `rfs_update_vinode` of any vinode for that inode
then reads the same fields. -/
theorem dinode_round_trip (hV : s.vinodes v = some V) (hi : V.inum = n) (hn : n < NINODES) (hints : V.Ints) :
    ∃ s1, rfsWriteBackVinode v s = .ok ((), s1) ∧ (∀ m ≠ n, s1.dinode m = s.dinode m) ∧
      (∀ b, b < 1 ∨ 10 < b → s1.blocks b = s.blocks b) ∧
      ∀ (s2 : St) (w : ℕ) (W : Vinode), s2.blocks = s1.blocks → s2.vinodes w = some W → W.inum = n →
        ∃ s3, rfsUpdateVinode w s2 = .ok ((), s3) ∧ s3.vinodes w = some { W with toDinode := V.toDinode } := by
  refine ⟨_, rfsWriteBackVinode_run hV hn hi, ?_, fun b hb => writeInode_blocks hb hn, ?_⟩
  · intro m hm
    rw [writeInode_dinode hints hn, update_of_ne hm]
  · intro s2 w W hs2 hW hWi
    have hdinode : s2.dinode n = V.toDinode := by
      rw [dinode_congr fun b _ _ => congrFun hs2 b, writeInode_dinode hints hn, update_self]
    have hrun : rfsUpdateVinode w s2 = _ :=
      (run_step (run_vinodeAt.2 ⟨hW, rfl⟩)).trans (run_step (hWi ▸ rfsReadDinode_run hn))
    refine ⟨_, hrun, ?_⟩
    rw [hdinode]
    exact update_self _ _ _

def twoBlocks : Vinode :=
  { size := 5000, type := FILE_I, nlinks := 2, blocks := 2, addrs := fun i => 12 + i, inum := 33,
    ref := 1, host := false }

def held : St := { boot with vinodes := update boot.vinodes 9 (some twoBlocks) }

theorem dinode_round_trip_held : ∃ s1, rfsWriteBackVinode 9 held = .ok ((), s1) ∧ s1.dinode 32 = held.dinode 32 := by
  have hV : held.vinodes 9 = some twoBlocks := by
    simp [held]
  obtain ⟨s1, hrun, hother, -⟩ := dinode_round_trip (n := 33) hV rfl (by decide) (by unfold Dinode.Ints; decide)
  exact ⟨s1, hrun, hother 32 (by decide)⟩

/-! ## The bytes of a file -/

/-- the byte `i` of the blocks of a file -/
def byteAt (s : St) (f : Dinode) (i : ℕ) : UInt8 :=
  s.blocks (f.addrs (Fin.ofNat 10 (i / RFS_BLKSIZE))).toNat (i % RFS_BLKSIZE)

def contents (s : St) (f : Dinode) (a len : ℕ) : List UInt8 := (List.range len).map fun i => byteAt s f (a + i)

theorem contents_add {m : ℕ} : contents s f a (m + n) = contents s f a m ++ contents s f (a + m) n := by
  unfold contents
  rw [List.range_add, List.map_append, List.map_map]
  simp only [Function.comp_def, Nat.add_assoc]

/-- a file that is within its blocks, which are blocks of the device -/
structure Stored (f : Dinode) : Prop where
  size : f.size ≤ RFS_BLKSIZE * f.blocks
  blocks : f.blocks ≤ 10
  addrs : ∀ i : Fin 10, (i : ℤ) < f.blocks → 0 ≤ f.addrs i ∧ f.addrs i < RAMDISK_BLOCK_COUNT

def Own (f : Dinode) (blkno : ℤ) : Prop := ∃ i : Fin 10, (i : ℤ) < f.blocks ∧ f.addrs i = blkno

instance {blkno : ℤ} : Decidable (Own f blkno) := inferInstanceAs (Decidable (∃ _ : Fin 10, _ ∧ _))

/-! ## Reading over a device -/

def ownRead (f : Dinode) (blkno : ℤ) : F Unit := if Own f blkno then ramdiskRead blkno else throw .wildPointer

/-- a device that has the blocks in `good`, and no others -/
structure Device (dev : ℤ → F Unit) (good : ℤ → Prop) : Prop where
  reads : ∀ blkno s, good blkno → dev blkno s = .ok ((), s.io (copyBlock s.iobuffer (s.blocks blkno.toNat)))
  refuses : ∀ blkno s, ¬ good blkno → ∃ e, dev blkno s = .error e

variable {dev : ℤ → F Unit} {good : ℤ → Prop} {len offset : ℕ}

theorem ramdisk_device : Device ramdiskRead fun blkno => 0 ≤ blkno ∧ blkno < RAMDISK_BLOCK_COUNT := by
  have hblockcount : RAMDISK_BLOCK_COUNT = 128 := rfl
  constructor
  · intro blkno s ⟨hlo, hhi⟩
    have hrun := ramdiskRead_run (s := s) (k := blkno.toNat) (by omega)
    rwa [Int.toNat_of_nonneg hlo] at hrun
  · intro blkno s hbad
    unfold ramdiskRead
    rw [if_pos (by simp only [RAMDISK_BLOCK_COUNT]; omega)]
    exact ⟨_, rfl⟩

theorem own_device (hf : Stored f) : Device (ownRead f) (Own f) := by
  constructor
  · intro blkno s hown
    obtain ⟨i, hi, rfl⟩ := id hown
    rw [ownRead, if_pos hown]
    exact ramdisk_device.reads _ s (hf.addrs i hi)
  · intro blkno s hbad
    rw [ownRead, if_neg hbad]
    exact ⟨_, rfl⟩

theorem addr_run (hi : i < 10) : f.addr i s = .ok (f.addrs (Fin.ofNat 10 i), s) := by
  unfold Dinode.addr
  rw [dif_pos ⟨by omega, Int.ofNat_lt.2 hi⟩]
  have : (⟨(i : ℤ).toNat, by omega⟩ : Fin 10) = Fin.ofNat 10 i := Fin.ext (by simp [Nat.mod_eq_of_lt hi])
  rw [this]
  rfl

theorem dev_run (h : Device dev good) (hi : i < 10) (hgood : good (f.addrs (Fin.ofNat 10 i))) {α : Type} {g : ℤ → F α} :
    (f.addr i >>= fun blkno => dev blkno >>= fun _ => g blkno) s =
      g (f.addrs (Fin.ofNat 10 i)) (s.io (copyBlock s.iobuffer (s.blocks (f.addrs (Fin.ofNat 10 i)).toNat))) := by
  rw [run_step (addr_run hi), run_step (h.reads _ s hgood)]

def Serves (good : ℤ → Prop) (f : Dinode) : Prop :=
  ∀ i : ℕ, i < 10 → (i : ℤ) < f.blocks → good (f.addrs (Fin.ofNat 10 i))

theorem bytes_contents {b : Buf} (a len : ℕ) (h : a % 4096 + len ≤ 4096) :
    bytes (copyBlock b (s.blocks (f.addrs (Fin.ofNat 10 (a / 4096))).toNat)) (a % 4096) len = contents s f a len := by
  have hblksize : RFS_BLKSIZE = 4096 := rfl
  refine List.map_congr_left fun i hi => ?_
  have hi := List.mem_range.1 hi
  rw [copyBlock_of_lt (by omega), byteAt, show (a + i) / 4096 = a / 4096 by omega,
    show (a + i) % 4096 = a % 4096 + i by omega]

theorem contents_io {b : Buf} : contents (s.io b) f a len = contents s f a len := rfl

theorem readBlocksOn_run (h : Device dev good) (hs : Serves good f) (hle : f.blocks ≤ 10)
    (hi : ((i + k : ℕ) : ℤ) ≤ f.blocks) :
    ∃ b, readBlocksOn dev f k i s = .ok (contents s f (RFS_BLKSIZE * i) (RFS_BLKSIZE * k), s.io b) := by
  induction k generalizing i s with
  | zero => exact ⟨s.iobuffer, rfl⟩
  | succ k ih =>
    obtain ⟨b, hrest⟩ := ih (s := s.io (copyBlock s.iobuffer (s.blocks (f.addrs (Fin.ofNat 10 i)).toNat))) (i := i + 1)
      (by omega)
    have hfirst := bytes_contents (s := s) (f := f) (b := s.iobuffer) (4096 * i) 4096 (by omega)
    rw [show 4096 * i / 4096 = i by omega, show 4096 * i % 4096 = 0 by omega] at hfirst
    refine ⟨b, ?_⟩
    rw [readBlocksOn, dev_run h (by omega) (hs i (by omega) (by omega)), run_get_bind, run_step hrest, contents_io,
      show 4096 * (k + 1) = 4096 + 4096 * k by omega,
      contents_add, ← hfirst]
    rfl

/-- the bytes that a read of `len` bytes gets -/
def available (f : Dinode) (len offset : ℕ) : ℕ := min len (f.size - offset).toNat

theorem rfsReadOn_run (h : Device dev good) (hs : Serves good f) (hf : Stored f) (ho : (offset : ℤ) ≤ f.size)
    (hfirst : ((offset / 4096 : ℕ) : ℤ) < f.blocks) :
    ∃ b, rfsReadOn dev f len offset s =
      .ok ((contents s f offset (available f len offset), offset + available f len offset), s.io b) := by
  have hlen : (if f.size < offset + len then (f.size - offset).toNat else len) = available f len offset := by
    unfold available
    split_ifs <;> omega
  have hend : ((offset + available f len offset : ℕ) : ℤ) ≤ f.size := by
    unfold available
    omega
  have hsize : f.size ≤ 4096 * f.blocks := hf.size
  have hblocks := hf.blocks
  unfold rfsReadOn
  rw [if_neg (by omega)]
  dsimp only
  rw [hlen, dev_run h (by omega) (hs _ (by omega) hfirst), run_get_bind]
  generalize available f len offset = k at *
  by_cases hone : (offset % 4096 + k) / 4096 = 0
  · rw [if_pos hone, if_pos hone]
    exact ⟨_, by rw [← bytes_contents (b := s.iobuffer) _ _ (by omega)]; rfl⟩
  · -- the rest of the first block, whole blocks and a piece of the last one
    obtain ⟨b, hmid⟩ :=
      readBlocksOn_run (s := s.io (copyBlock s.iobuffer (s.blocks (f.addrs (Fin.ofNat 10 (offset / 4096))).toNat)))
      (k := (offset % 4096 + k) / 4096 - 1) (i := offset / 4096 + 1) h hs hblocks (by omega)
    have hsplit : contents s f offset k = contents s f offset (4096 - offset % 4096) ++
        contents s f (4096 * (offset / 4096 + 1)) (4096 * ((offset % 4096 + k) / 4096 - 1)) ++
          contents s f (4096 * (offset / 4096 + (offset % 4096 + k) / 4096)) ((offset % 4096 + k) % 4096) := by
      calc contents s f offset k
          = contents s f offset (4096 - offset % 4096 + 4096 * ((offset % 4096 + k) / 4096 - 1) +
            (offset % 4096 + k) % 4096) := by
            congr 1
            omega
        _ = _ := by
            rw [contents_add, contents_add]
            congr 3 <;> omega
    have hhead := bytes_contents (s := s) (f := f) (b := s.iobuffer) offset (4096 - offset % 4096) (by omega)
    rw [if_neg hone, if_neg hone, run_step hmid, hsplit, ← hhead]
    by_cases hrem : (offset % 4096 + k) % 4096 = 0
    · rw [if_pos hrem, hrem]
      refine ⟨b, ?_⟩
      simp only [contents, List.range_zero, List.map_nil, List.append_nil]
      rfl
    · rw [if_neg hrem]
      have htail := bytes_contents (s := s) (f := f) (b := b) (4096 * (offset / 4096 + (offset % 4096 + k) / 4096))
        ((offset % 4096 + k) % 4096) (by omega)
      rw [show 4096 * (offset / 4096 + (offset % 4096 + k) / 4096) / 4096 = offset / 4096 +
        (offset % 4096 + k) / 4096 by omega,
        show 4096 * (offset / 4096 + (offset % 4096 + k) / 4096) % 4096 = 0 by omega] at htail
      refine ⟨copyBlock b (s.blocks (f.addrs (Fin.ofNat 10 (offset / 4096 + (offset % 4096 + k) / 4096))).toNat), ?_⟩
      have hlast : ((offset / 4096 + (offset % 4096 + k) / 4096 : ℕ) : ℤ) < f.blocks := by omega
      rw [← Nat.cast_add, dev_run h (by omega) (hs _ (by omega) hlast), run_get_bind, ← htail]
      rfl

theorem rfsReadOn_end (hend : (offset : ℤ) = f.size) (hwhole : offset % 4096 = 0) :
    rfsReadOn dev f len offset s = (f.addr (offset / 4096 : ℕ) >>= fun blkno => dev blkno >>= fun _ => pure ([],
      offset)) s := by
  have hlen : (if f.size < offset + len then (f.size - offset).toNat else len) = 0 := by
    split_ifs <;> omega
  unfold rfsReadOn
  rw [if_neg (by omega)]
  rw [hlen, hwhole]
  rfl

def Starts (good : ℤ → Prop) (f : Dinode) (offset : ℕ) : Prop :=
  offset < RFS_BLKSIZE * f.blocks ∨ ∃ h : f.blocks.toNat < 10, good (f.addrs ⟨f.blocks.toNat, h⟩)

theorem rfsReadOn_ok (len : ℕ) (h : Device dev good) (hs : Serves good f) (hf : Stored f) (ho : (offset : ℤ) ≤ f.size)
    (hstart : Starts good f offset) :
    ∃ b, rfsReadOn dev f len offset s =
      .ok ((contents s f offset (available f len offset), offset + available f len offset), s.io b) := by
  have hsize : f.size ≤ 4096 * f.blocks := hf.size
  by_cases hin : offset < 4096 * f.blocks
  · exact rfsReadOn_run h hs hf ho (by omega)
  · obtain ⟨hlt, hgood⟩ := hstart.resolve_left hin
    have hzero : available f len offset = 0 := by
      unfold available
      omega
    have hfin : (⟨f.blocks.toNat, hlt⟩ : Fin 10) = Fin.ofNat 10 (offset / 4096) :=
      Fin.ext (by simp only [Fin.val_ofNat]; omega)
    rw [rfsReadOn_end (by omega) (by omega), dev_run h (by omega) (hfin ▸ hgood), hzero]
    exact ⟨_, rfl⟩

theorem starts_of_ok {x : (List UInt8 × ℕ) × St} (h : Device dev good) (hf : Stored f) (ho : (offset : ℤ) ≤ f.size)
    (hrun : rfsReadOn dev f len offset s = .ok x) : Starts good f offset := by
  have hsize : f.size ≤ 4096 * f.blocks := hf.size
  by_contra hbad
  obtain ⟨hin, hgood⟩ := not_or.1 hbad
  have hend : ¬ (offset : ℤ) < 4096 * f.blocks := hin
  rw [rfsReadOn_end (by omega) (by omega)] at hrun
  obtain ⟨blkno, s1, h1, h2⟩ := run_bind.1 hrun
  obtain ⟨_, s2, h3, -⟩ := run_bind.1 h2
  unfold Dinode.addr at h1
  split_ifs at h1 with hlt
  · cases h1
    have hblocks : ((offset / 4096 : ℕ) : ℤ).toNat = f.blocks.toNat := by omega
    simp only [hblocks] at h3
    obtain ⟨e, he⟩ := h.refuses _ s fun hg => hgood ⟨hblocks ▸ Int.ofNat_lt.1 hlt.2, hg⟩
    rw [he] at h3
    cases h3
  · cases h1

theorem Stored.ramdisk (h : Stored f) : Serves (fun blkno => 0 ≤ blkno ∧ blkno < RAMDISK_BLOCK_COUNT) f := by
  intro i hi hlt
  exact h.addrs _ (by simpa [Nat.mod_eq_of_lt hi] using hlt)

theorem serves_own : Serves (Own f) f := fun i hi hlt => ⟨Fin.ofNat 10 i, by simpa [Nat.mod_eq_of_lt hi] using hlt, rfl⟩

/-! ## The blocks of a read -/

/-- **No foreign blocks.** All block numbers that `rfs_read` passes to the device are those of the file, and it returns,
if the offset is in a block of the file. -/
theorem own_blocks_read (hf : Stored f) (ho : (offset : ℤ) ≤ f.size) :
    (∃ data b b', rfsReadOn (ownRead f) f len offset s = .ok ((data, offset + available f len offset), s.io b) ∧
      rfsRead f len offset s = .ok ((data, offset + available f len offset), s.io b')) ↔
    offset < RFS_BLKSIZE * f.blocks ∨ ∃ h : f.blocks.toNat < 10, Own f (f.addrs ⟨f.blocks.toNat, h⟩) := by
  constructor
  · intro ⟨data, b, b', hown, _⟩
    exact starts_of_ok (own_device hf) hf ho hown
  · intro hstart
    have hrange : Starts (fun blkno => 0 ≤ blkno ∧ blkno < 128) f offset := by
      refine hstart.imp id fun ⟨hlt, i, hi, he⟩ => ⟨hlt, ?_⟩
      rw [← he]
      exact hf.addrs i hi
    obtain ⟨b, hown⟩ := rfsReadOn_ok (s := s) len (own_device hf) serves_own hf ho hstart
    obtain ⟨b', hall⟩ := rfsReadOn_ok (s := s) len ramdisk_device hf.ramdisk hf ho hrange
    exact ⟨_, b, b', hown, hall⟩

theorem twoBlocks_stored : Stored twoBlocks.toDinode := ⟨by decide, by decide, by decide⟩

theorem own_blocks_read_twoBlocks :
    ∃ data b, rfsRead twoBlocks.toDinode 3000 1000 held = .ok ((data, 4000), held.io b) := by
  obtain ⟨data, b, b', -, hrun⟩ := (@own_blocks_read held twoBlocks.toDinode 3000 1000 twoBlocks_stored (by decide)).2
    (.inl (by decide))
  exact ⟨data, b', hrun⟩

def wholeBlock : List (ℕ × Call) := [(0, .open (onDisk [97]) 66), (0, .write 0 (List.replicate 4096 7))]

/-- The read at the end of the file goes to a block that is not one of the file. -/
theorem read_behind_blocks : Reach Fs.step Careful Boot (exec Fs.step boot wholeBlock) ∧
    ((abs (exec Fs.step boot wholeBlock)).cur 1).size = RFS_BLKSIZE ∧
    ((abs (exec Fs.step boot wholeBlock)).cur 1).blocks = 1 ∧
    (rfsReadOn (ownRead ((abs (exec Fs.step boot wholeBlock)).cur 1))
      ((abs (exec Fs.step boot wholeBlock)).cur 1) 16 RFS_BLKSIZE
      (exec Fs.step boot wholeBlock)).map Prod.fst = .error .wildPointer := by
  exact And.imp_left (reach_decide wholeBlock boot (.init boot_boot)) (by decide +kernel)

/-! ## The buffers of a read -/

theorem storeString_loadString {dst src : Buf} (hz : ∃ j < n, src (a + j) = 0) (h : ∀ j < i, src (a + j) ≠ 0) :
    storeString dst a (loadString src a n) (a + i) = src (a + i) := by
  induction n generalizing a i with
  | zero =>
    omega
  | succ n ih =>
    by_cases h0 : src a = 0
    · obtain rfl : i = 0 := Nat.eq_zero_of_not_pos fun hi => h 0 hi h0
      simp [loadString, storeString, h0]
    · cases i with
      | zero => simp [loadString, storeString, h0]
      | succ i =>
        obtain ⟨j, hj, hjz⟩ := hz
        have hj0 : j ≠ 0 := fun he => h0 (by simpa [he] using hjz)
        have hrest := ih (a := a + 1) (i := i) ⟨j - 1, by omega, by rwa [show a + 1 + (j - 1) = a + j by omega]⟩
          fun x hx => by
            rw [show a + 1 + x = a + (x + 1) by omega]
            exact h (x + 1) (by omega)
        rw [loadString, dif_neg h0, storeString, update_of_ne (by omega), show a + (i + 1) = a + 1 + i by omega, hrest]

theorem loadString_length_le {src : Buf} (h : src (a + i) = 0) : (loadString src a n).length ≤ i := by
  induction n generalizing a i with
  | zero => exact Nat.zero_le i
  | succ n ih =>
    by_cases h0 : src a = 0
    · simp [loadString, h0]
    · cases i with
      | zero => exact absurd h h0
      | succ i =>
        rw [loadString, dif_neg h0, List.length_cons]
        exact Nat.succ_le_succ (ih (by rwa [show a + 1 + i = a + (i + 1) by omega]))

theorem strcpy_copied {dst src : Buf} (hz : ∃ j < n, src j = 0) (h : ∀ j < i, src j ≠ 0) :
    strcpy dst src n i = src i := by
  have hcopy := @storeString_loadString 0 i n dst src
  simp only [Nat.zero_add] at hcopy
  exact hcopy hz h

theorem strcpy_stopped {dst src : Buf} {j : ℕ} (h : src j = 0) (hj : j < i) : strcpy dst src n i = dst i := by
  have := @loadString_length_le 0 j n src (by rwa [Nat.zero_add])
  exact storeString_of_not (by omega)

variable {p : ℕ} {fd : ℤ} {file : File} {buf buffer : Buf}

/-- the descriptor is one for reading a file of the RAM disk -/
structure Readable (s : St) (p : ℕ) (fd : ℤ) (file : File) (V : Vinode) : Prop where
  entry : (s.pfiles p).opened_files (fileEntry fd) = some file
  readable : file.readable = true
  regular : ∃ v, RegularAt s file.f_dentry v V
  host : V.host = false

theorem doRead_run {r : Buf} {k offset : ℕ} {s1 : St} (h : Readable s p fd file V)
    (hread : rfsReadTo V.toDinode buffer len file.offset s = .ok ((r, k, offset), s1)) (hs1 : s1.pfiles = s.pfiles) :
    doRead p fd buf buffer len s = .ok ((strcpy buf (update r len 0) (len + 1), (k : ℤ)),
      { s1 with
        pfiles := update s.pfiles p (Openers.put (s.pfiles p) (fileEntry fd) { file with offset := offset }) }) := by
  obtain ⟨v, ⟨De, hDe, hi⟩, hV, htype⟩ := h.regular
  have hget : getOpenedFile p fd s = .ok (file, s) := by
    unfold getOpenedFile
    rw [run_get_bind, h.entry]
    rfl
  have hinode : inodeOf file.f_dentry s = .ok (v, s) := by
    unfold inodeOf
    rw [run_step (run_dentryAt.2 ⟨hDe, rfl⟩), hi]
    rfl
  have hat : vinodeAt v s = .ok (V, s) := run_vinodeAt.2 ⟨hV, rfl⟩
  have hrfs : rfsInodeOf file.f_dentry s = .ok (v, s) := by
    unfold rfsInodeOf
    rw [run_step hinode, run_step hat, h.host]
    rfl
  have hvfs : vfsRead file buffer len s = .ok ((r, (k : ℤ), offset), s1) := by
    unfold vfsRead
    rw [h.readable]
    simp only [Bool.not_true, Bool.false_eq_true, if_false]
    rw [run_step hinode, run_step hat, if_neg (not_not.2 htype), run_step hrfs, run_step hat, run_step hread]
    rfl
  unfold doRead
  rw [run_step hget, h.readable]
  simp only [Bool.not_true, Bool.false_eq_true, if_false]
  rw [run_step hvfs, ← hs1]
  rfl

theorem getD_contents : (contents s f a k).getD i 0 = if i < k then byteAt s f (a + i) else 0 := by
  unfold contents
  rw [List.getD_eq_getElem?_getD, List.getElem?_map]
  split_ifs with h
  · rw [List.getElem?_range h]
    rfl
  · rw [List.getElem?_eq_none (by rw [List.length_range]; omega)]
    rfl

theorem rfsReadTo_run {b r : Buf} (hread : rfsRead f len offset s = .ok ((contents s f offset k, offset + k), s.io b)) :
    rfsReadTo f r len offset s =
      .ok ((strcpy r (fun i => if i < k then byteAt s f (offset + i) else 0) (k + 1), k, offset + k), s.io b) := by
  unfold rfsReadTo
  rw [run_step hread]
  simp only [getD_contents, show (contents s f offset k).length = k by simp [contents], Nat.add_sub_cancel_left]
  rfl

/-- **The bytes of the file.** A read fills the buffers with the bytes of the file, whatever they had, if `strcpy` gets
to the last of them and the block of the offset is on the device. -/
theorem read_delivers (h : Readable s p fd file V) (hf : Stored V.toDinode) (ho : (file.offset : ℤ) ≤ V.size) :
    (∀ buf buffer, ∃ r s1 r' s2,
      rfsReadTo V.toDinode buffer len file.offset s =
        .ok ((r, available V.toDinode len file.offset, file.offset + available V.toDinode len file.offset), s1) ∧
      (∀ i < available V.toDinode len file.offset, r i = byteAt s V.toDinode (file.offset + i)) ∧
      doRead p fd buf buffer len s = .ok ((r', (available V.toDinode len file.offset : ℤ)), s2) ∧
      ∀ i < available V.toDinode len file.offset, r' i = byteAt s V.toDinode (file.offset + i)) ↔
    (file.offset < RFS_BLKSIZE * V.blocks ∨ ∃ h : V.blocks.toNat < 10, 0 ≤ V.addrs ⟨V.blocks.toNat, h⟩ ∧
      V.addrs ⟨V.blocks.toNat, h⟩ < RAMDISK_BLOCK_COUNT) ∧
      ∀ i, i + 1 < available V.toDinode len file.offset → byteAt s V.toDinode (file.offset + i) ≠ 0 := by
  have hle : available V.toDinode len file.offset ≤ len := min_le_left _ _
  have hok : Starts _ V.toDinode file.offset → ∃ b, rfsRead V.toDinode len file.offset s = _ := fun hstart =>
    rfsReadOn_ok (s := s) len ramdisk_device hf.ramdisk hf ho hstart
  generalize available V.toDinode len file.offset = k at *
  let src : Buf := fun i => if i < k then byteAt s V.toDinode (file.offset + i) else 0
  have hend : ∃ j < k + 1, src j = 0 := ⟨k, Nat.lt_succ_self k, if_neg (lt_irrefl k)⟩
  constructor
  · intro hall
    have hstart : Starts (fun blkno => 0 ≤ blkno ∧ blkno < 128) V.toDinode file.offset := by
      obtain ⟨r, s1, r', s2, hread, -⟩ := hall (fun _ => 0) fun _ => 0
      obtain ⟨x, s3, h1, -⟩ := run_bind.1 hread
      exact starts_of_ok ramdisk_device hf ho h1
    refine ⟨hstart, fun i hi hzero => ?_⟩
    -- a buffer with another byte behind the zero
    obtain ⟨r, s1, r', s2, hread, hr, -⟩ := hall (fun _ => 0) fun _ => byteAt s V.toDinode (file.offset + (i + 1)) + 1
    obtain ⟨b, hrun⟩ := hok hstart
    rw [rfsReadTo_run hrun] at hread
    cases hread
    have hstop := hr (i + 1) hi
    rw [strcpy_stopped (j := i) (by rw [if_pos (by omega), hzero]) (Nat.lt_succ_self i)] at hstop
    grind
  · intro ⟨hstart, hnz⟩ buf buffer
    obtain ⟨b, hrun⟩ := hok hstart
    have hread := rfsReadTo_run (r := buffer) hrun
    have hcopy : ∀ i < k, strcpy buffer src (k + 1) i = byteAt s V.toDinode (file.offset + i) := by
      intro i hi
      refine (strcpy_copied hend fun j hj => ?_).trans (if_pos hi)
      rw [show src j = byteAt s V.toDinode (file.offset + j) from if_pos (by omega)]
      exact hnz j (by omega)
    refine ⟨_, _, _, _, hread, hcopy, doRead_run h hread rfl, fun i hi => ?_⟩
    have hsame : ∀ j < k, update (strcpy buffer src (k + 1)) len 0 j = byteAt s V.toDinode (file.offset + j) :=
      fun j hj => (update_of_ne (by omega) _ _).trans (hcopy j hj)
    refine (strcpy_copied ⟨len, Nat.lt_succ_self len, update_self _ _ _⟩ fun j hj => ?_).trans (hsame i hi)
    rw [hsame j (by omega)]
    exact hnz j (by omega)

def written (buf : List UInt8) : St :=
  exec Fs.step boot [(0, .open (onDisk [97]) 66), (0, .write 0 buf), (0, .lseek 0 0 0)]

def writtenVinode (buf : List UInt8) : Vinode := ((written buf).vinodes 6).getD twoBlocks

def writtenFile : File := { status := true, readable := true, writable := true, offset := 0, f_dentry := 5 }

theorem readable_written {buf : List UInt8} (h : ((written buf).pfiles 0).opened_files 0 = some writtenFile ∧
    (written buf).dentries 5 = some ⟨str [97], 1, some 6, some 3⟩ ∧ ((written buf).vinodes 6).isSome ∧
    (writtenVinode buf).type = FILE_I ∧ (writtenVinode buf).host = false) :
    Readable (written buf) 0 0 writtenFile (writtenVinode buf) := by
  obtain ⟨hfile, hD, hV, hreg⟩ := h
  obtain ⟨V, hV⟩ := Option.isSome_iff_exists.1 hV
  rw [writtenVinode, hV] at hreg ⊢
  exact ⟨hfile, rfl, ⟨6, ⟨_, hD, rfl⟩, hV, hreg.1⟩, hreg.2⟩

theorem read_delivers_written :
    ∃ r s2, doRead 0 0 (fun _ => 255) (fun _ => 255) 9 (written [104, 105]) = .ok ((r, 2), s2) ∧
    r 0 = 104 ∧ r 1 = 105 := by
  have h : Readable (written [104, 105]) 0 0 writtenFile (writtenVinode [104, 105]) :=
    readable_written (by decide +kernel)
  obtain ⟨hk, hbytes⟩ : available (writtenVinode [104, 105]).toDinode 9 0 = 2 ∧
      byteAt (written [104, 105]) (writtenVinode [104, 105]).toDinode 0 = 104 ∧
      byteAt (written [104, 105]) (writtenVinode [104, 105]).toDinode 1 = 105 := by decide +kernel
  have hnz : ∀ i, i + 1 < available (writtenVinode [104, 105]).toDinode 9 0 →
      byteAt (written [104, 105]) (writtenVinode [104, 105]).toDinode (0 + i) ≠ 0 := by
    intro i hi
    obtain rfl : i = 0 := by omega
    rw [Nat.zero_add, hbytes.1]
    decide
  obtain ⟨-, -, r, s2, -, -, hread, hr⟩ :=
    (@read_delivers _ _ 9 _ _ _ h ⟨by decide +kernel, by decide +kernel, by decide +kernel⟩
    (by decide +kernel)).2 ⟨.inl (by decide +kernel), hnz⟩ (fun _ => 255) fun _ => 255
  simp only [writtenFile, hk, Nat.zero_add] at hread hr
  exact ⟨r, s2, hread, (hr 0 (by decide)).trans hbytes.1, (hr 1 (by decide)).trans hbytes.2⟩

/-- The byte behind a zero does not arrive. -/
theorem read_stops_at_zero : Readable (written [104, 0, 105]) 0 0 writtenFile (writtenVinode [104, 0, 105]) ∧
    byteAt (written [104, 0, 105]) (writtenVinode [104, 0, 105]).toDinode 2 = 105 ∧
    (rfsReadTo (writtenVinode [104, 0, 105]).toDinode (fun _ => 255) 3 0 (written [104, 0, 105])).map
      (fun x => (x.1.2.1, x.1.1 2)) =
      .ok (3, 255) ∧
    (doRead 0 0 (fun _ => 255) (fun _ => 255) 3 (written [104, 0, 105])).map
      (fun x => (x.1.2, x.1.1 2)) = .ok (3, 255) := by
  exact And.imp_left readable_written (by decide +kernel)

end RiscvPke.Contents
