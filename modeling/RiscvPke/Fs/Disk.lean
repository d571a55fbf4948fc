/-
What the bytes of the RAM disk mean: the table of disk inodes and the entries of the directories. `abs` reads a state in
these terms, and the functions of the model get their specifications (`Spec abs`) over that reading; the bytes and
`iobuffer` do not occur in them.
-/
import RiscvPke.Core.Run
import RiscvPke.Fs.Model

namespace RiscvPke.Fs

open Function CData Run

/-! ## Reading the disk -/

/-- `struct rfs_direntry` -/
structure Entry where
  name : CString
  inum : ℤ
deriving DecidableEq

def loadEntry (b : Buf) (i : ℕ) : Entry := ⟨loadString b (32 * i + 4) 28, loadInt b (32 * i)⟩

def loadEntries (b : Buf) (k : ℕ) : List Entry := (List.range k).map (loadEntry b)

def Dinode.absent : Dinode := { size := 0, type := R_FREE, nlinks := 0, blocks := 0, addrs := fun _ => 0 }

/-- disk inode `n`, of the 320 there are: 32 to a block, 128 bytes apart -/
def St.dinode (s : St) (n : ℕ) : Dinode :=
  if n < NINODES then loadDinode (s.blocks (n / 32 + 1)) (128 * (n % 32)) else .absent

/-- the entries of a directory of one block, by its disk inode -/
def St.dir (s : St) (n : ℕ) : List Entry :=
  if (s.dinode n).type = DIR_I then
    loadEntries (s.blocks ((s.dinode n).addrs 0).toNat) (totalDirentrys (s.dinode n)) else []

/-- a state without bytes: what is in memory, the disk inodes and the entries of the directories -/
structure Afs extends Mem where
  dinode : ℕ → Dinode
  dir : ℕ → List Entry

def abs (s : St) : Afs := { s.toMem with dinode := s.dinode, dir := s.dir }

variable {s s' : St} {a : Afs} {d d' : Dinode} {b b' : Buf} {n m k i : ℕ} {E : Fault → Prop} {α : Type}

/-! ## Disk inodes -/

def Dinode.Ints (d : Dinode) : Prop := ∀ x ∈ d.ints, IsInt x

theorem mem_ints {x : ℤ} : x ∈ d.ints ↔ x = d.size ∨ x = d.type ∨ x = d.nlinks ∨ x = d.blocks ∨ ∃ i, d.addrs i = x := by
  rw [Dinode.ints, List.mem_append, List.mem_ofFn]
  simp only [List.mem_cons, List.not_mem_nil, or_false, or_assoc]

theorem ints_iff : d.Ints ↔ IsInt d.size ∧ IsInt d.type ∧ IsInt d.nlinks ∧ IsInt d.blocks ∧ ∀ i, IsInt (d.addrs i) := by
  simp only [Dinode.Ints, mem_ints, forall_eq_or_imp, forall_exists_index, forall_apply_eq_imp_iff]

theorem ints_length : d.ints.length = 14 := by
  rfl

theorem ints_addrs (i : Fin 10) : d.ints[4 + (i : ℕ)]? = some (d.addrs i) := by
  rw [Dinode.ints, List.getElem?_append_right (by simp), List.getElem?_ofFn]
  simp

theorem loadDinode_congr {o o' : ℕ} (h : ∀ i < 56, b' (o' + i) = b (o + i)) : loadDinode b' o' = loadDinode b o := by
  have hint : ∀ j, j + 4 ≤ 56 → loadInt b' (o' + j) = loadInt b (o + j) := by
    intro j hj
    apply loadInt_congr
    intro i hi
    rw [Nat.add_assoc, Nat.add_assoc]
    exact h (j + i) (by omega)
  have haddr : ∀ i : Fin 10, loadInt b' (o' + 16 + 4 * i) = loadInt b (o + 16 + 4 * i) := by
    intro i
    rw [Nat.add_assoc, Nat.add_assoc]
    exact hint _ (by omega)
  have h0 : loadInt b' o' = loadInt b o := by simpa using hint 0 (by omega)
  simp only [loadDinode, h0, hint 4 (by omega), hint 8 (by omega), hint 12 (by omega), haddr]

theorem loadDinode_ints {o : ℕ} : (loadDinode b o).Ints := by
  exact ints_iff.2 ⟨loadInt_isInt, loadInt_isInt, loadInt_isInt, loadInt_isInt, fun _ => loadInt_isInt⟩

theorem loadDinode_storeInts {o : ℕ} (hd : d.Ints) : loadDinode (storeInts b o d.ints) o = d := by
  have hget : ∀ j x, d.ints[j]? = some x → loadInt (storeInts b o d.ints) (o + 4 * j) = x := by
    intro j x hx
    exact loadInt_storeInts hx (hd x (List.mem_of_getElem? hx))
  have haddr : ∀ i : Fin 10, loadInt (storeInts b o d.ints) (o + 16 + 4 * i) = d.addrs i := by
    intro i
    rw [← hget (4 + i) (d.addrs i) (ints_addrs i), Nat.mul_add, Nat.add_assoc]
  have h0 := hget 0 d.size rfl
  have h1 := hget 1 d.type rfl
  have h2 := hget 2 d.nlinks rfl
  have h3 := hget 3 d.blocks rfl
  simp only [Nat.mul_zero, Nat.add_zero, Nat.mul_one, Nat.reduceMul] at h0 h1 h2 h3
  simp only [loadDinode, h0, h1, h2, h3, haddr]

theorem dinode_ints (s : St) (n : ℕ) : (s.dinode n).Ints := by
  unfold St.dinode
  split_ifs
  · exact loadDinode_ints
  · simp [ints_iff, Dinode.absent, IsInt, R_FREE]

theorem dinode_congr (h : ∀ k, 1 ≤ k → k ≤ 10 → s'.blocks k = s.blocks k) : s'.dinode n = s.dinode n := by
  have hninodes : NINODES = 320 := rfl
  unfold St.dinode
  split_ifs with hn
  · rw [h _ (by omega) (by omega)]
  · rfl

theorem dinode_write (hd : d.Ints) (hn : n < 320) (hb : s'.blocks = update s.blocks (n / 32 + 1) b)
    (hw : ∀ i < 4096, b i = storeInts (s.blocks (n / 32 + 1)) (128 * (n % 32)) d.ints i) :
    s'.dinode m = update s.dinode n d m := by
  by_cases hm : m < 320
  · by_cases hmn : m = n
    · subst hmn
      rw [update_self, St.dinode, if_pos hm, hb, update_self]
      rw [← loadDinode_storeInts (b := s.blocks (m / 32 + 1)) (o := 128 * (m % 32)) hd]
      apply loadDinode_congr
      intro i hi
      exact hw _ (by omega)
    · rw [update_of_ne hmn, St.dinode, St.dinode, if_pos hm, if_pos hm, hb]
      by_cases hblk : m / 32 = n / 32
      · rw [hblk, update_self]
        apply loadDinode_congr
        intro i hi
        rw [hw _ (by omega)]
        apply storeInts_of_not
        rw [ints_length]
        omega
      · rw [update_of_ne (by omega)]
  · have hmn : m ≠ n := by omega
    rw [update_of_ne hmn, St.dinode, St.dinode, if_neg hm, if_neg hm]

/-! ## Directory entries -/

theorem loadEntry_congr {j j' : ℕ} (h : ∀ i < 32, b' (32 * j' + i) = b (32 * j + i)) :
    loadEntry b' j' = loadEntry b j := by
  have hname : loadString b' (32 * j' + 4) 28 = loadString b (32 * j + 4) 28 := by
    apply loadString_congr
    intro i hi
    rw [Nat.add_assoc, Nat.add_assoc]
    exact h (4 + i) (by omega)
  have hinum : loadInt b' (32 * j') = loadInt b (32 * j) := loadInt_congr fun i hi => h i (by omega)
  rw [loadEntry, loadEntry, hname, hinum]

theorem loadEntries_congr (h : ∀ i < 32 * k, b' i = b i) : loadEntries b' k = loadEntries b k := by
  apply List.map_congr_left
  intro j hj
  rw [List.mem_range] at hj
  exact loadEntry_congr fun i hi => h _ (by omega)

@[simp] theorem loadEntries_length : (loadEntries b k).length = k := by
  rw [loadEntries, List.length_map, List.length_range]

theorem loadEntries_getElem? (h : i < k) : (loadEntries b k)[i]? = some (loadEntry b i) := by
  rw [loadEntries, List.getElem?_map, List.getElem?_range h]
  rfl

theorem loadEntries_append {name : CString} {inum : ℤ} (hname : name.length < RFS_MAX_FILE_NAME_LEN) (hi : IsInt inum) :
    loadEntries (storeString (storeInt b (32 * k) inum) (32 * k + 4) name) (k + 1) = loadEntries b k ++
      [⟨name, inum⟩] := by
  have hold : ∀ i < 32 * k, storeString (storeInt b (32 * k) inum) (32 * k + 4) name i = b i := by
    intro i hi
    rw [storeString_of_not (by omega), storeInt_of_not (by omega)]
  have hinum : loadInt (storeString (storeInt b (32 * k) inum) (32 * k + 4) name) (32 * k) = inum := by
    refine Eq.trans (loadInt_congr fun i _ => ?_) (loadInt_storeInt (b := b) (a := 32 * k) hi)
    exact storeString_of_not (by omega)
  have hnew : loadEntry (storeString (storeInt b (32 * k) inum) (32 * k + 4) name) k = ⟨name, inum⟩ := by
    rw [loadEntry, loadString_storeString hname, hinum]
  rw [← loadEntries_congr hold, loadEntries, loadEntries, List.range_succ, List.map_append, List.map_singleton, hnew]

theorem loadEntries_shift (hi : i < k) (hk : k ≤ BLOCK_DIRENTRYS) :
    loadEntries (shiftDirentrys b i) (k - 1) = (loadEntries b k).eraseIdx i := by
  have hdirentrys : BLOCK_DIRENTRYS = 128 := rfl
  apply List.ext_getElem?
  intro j
  rw [List.getElem?_eraseIdx]
  by_cases hj : j < k - 1
  · rw [loadEntries_getElem? hj]
    split_ifs with hji
    · rw [loadEntries_getElem? (by omega)]
      congr 1
      apply loadEntry_congr
      intro x hx
      simp only [shiftDirentrys, DIRENTRY, RFS_BLKSIZE]
      rw [if_neg (by omega)]
    · rw [loadEntries_getElem? (by omega)]
      congr 1
      apply loadEntry_congr
      intro x hx
      simp only [shiftDirentrys, DIRENTRY, RFS_BLKSIZE]
      rw [if_pos (by omega)]
      congr 1
      omega
  · rw [List.getElem?_eq_none (by rw [loadEntries_length]; omega)]
    split_ifs with hji
    · omega
    · rw [List.getElem?_eq_none (by rw [loadEntries_length]; omega)]

theorem dir_congr (hd : s'.dinode n = s.dinode n)
    (hb : (s.dinode n).type = DIR_I → s'.blocks ((s.dinode n).addrs 0).toNat = s.blocks ((s.dinode n).addrs 0).toNat) :
    s'.dir n = s.dir n := by
  unfold St.dir
  rw [hd]
  split_ifs with h
  · rw [hb h]
  · rfl

/-! ## Access to the disk -/

variable {Q : α → Afs → Prop}

theorem ramdiskRead_run (hk : k < RAMDISK_BLOCK_COUNT) :
    ramdiskRead k s = .ok ((), { s with iobuffer := copyBlock s.iobuffer (s.blocks k) }) := by
  have hblockcount : RAMDISK_BLOCK_COUNT = 128 := rfl
  simp only [ramdiskRead, RAMDISK_BLOCK_COUNT]
  rw [if_neg (by omega), Int.toNat_natCast]
  rfl

theorem ramdiskWrite_run (hk : k < RAMDISK_BLOCK_COUNT) :
    ramdiskWrite k s = .ok ((), { s with blocks := update s.blocks k (copyBlock (s.blocks k) s.iobuffer) }) := by
  have hblockcount : RAMDISK_BLOCK_COUNT = 128 := rfl
  simp only [ramdiskWrite, RAMDISK_BLOCK_COUNT]
  rw [if_neg (by omega), Int.toNat_natCast]
  rfl

theorem copyBlock_of_lt (h : i < RFS_BLKSIZE) : copyBlock b b' i = b' i := if_pos h

/-- in the same state but for `iobuffer` -/
def St.io (s : St) (b : Buf) : St := { s with iobuffer := b }

theorem inode_block (n : ℕ) : (n : ℤ).tdiv BLOCK_INODES + RFS_BLK_OFFSET_INODE = ((n / 32 + 1 : ℕ) : ℤ) := rfl

theorem inode_offset (n : ℕ) : (n : ℤ).tmod BLOCK_INODES = ((n % 32 : ℕ) : ℤ) := rfl

theorem rfsReadDinode_run (hn : n < NINODES) :
    rfsReadDinode n s = .ok (s.dinode n, s.io (copyBlock s.iobuffer (s.blocks (n / 32 + 1)))) := by
  have hninodes : NINODES = 320 := rfl
  have hblksize : RFS_BLKSIZE = 4096 := rfl
  have hblockcount : RAMDISK_BLOCK_COUNT = 128 := rfl
  have hread : loadDinode (copyBlock s.iobuffer (s.blocks (n / 32 + 1))) (n % 32 * 128) = s.dinode n := by
    rw [St.dinode, if_pos hn, Nat.mul_comm]
    exact loadDinode_congr fun i hi => copyBlock_of_lt (by omega)
  rw [rfsReadDinode, inode_block, inode_offset]
  show (ramdiskRead _ s >>= _) = _
  rw [ramdiskRead_run (by omega), ← hread]
  rfl

def St.writeInode (s : St) (n : ℕ) (d : Dinode) : St :=
  let buf := storeInts (copyBlock s.iobuffer (s.blocks (n / 32 + 1))) (n % 32 * 128) d.ints
  { s with iobuffer := buf, blocks := update s.blocks (n / 32 + 1) (copyBlock (s.blocks (n / 32 + 1)) buf) }

theorem rfsWriteDinode_run (hn : n < 320) : rfsWriteDinode d n s = .ok ((), s.writeInode n d) := by
  have hblockcount : RAMDISK_BLOCK_COUNT = 128 := rfl
  rw [rfsWriteDinode, inode_block, inode_offset]
  show (ramdiskRead _ s >>= _) = _
  rw [ramdiskRead_run (by omega)]
  exact ramdiskWrite_run (s := { s with iobuffer := _ }) (by omega)

theorem writeInode_dinode (hd : d.Ints) (hn : n < NINODES) : (s.writeInode n d).dinode = update s.dinode n d := by
  funext m
  apply dinode_write hd hn rfl
  intro i hi
  rw [copyBlock_of_lt hi, Nat.mul_comm]
  by_cases hin : 128 * (n % 32) ≤ i ∧ i < 128 * (n % 32) + 4 * d.ints.length
  · exact storeInts_congr hin
  · rw [storeInts_of_not hin, storeInts_of_not hin, copyBlock_of_lt hi]

theorem writeInode_blocks (hk : k < 1 ∨ 10 < k) (hn : n < 320) : (s.writeInode n d).blocks k = s.blocks k :=
  update_of_ne (by omega) _ _

end RiscvPke.Fs
