/-
The RAM disk file system: the RAM disk (kernel/ramdev.c), RFS (kernel/rfs.c), the virtual file system over it
(kernel/vfs.c) and the file calls of a process (kernel/proc_file.c).
-/
import RiscvPke.Core.CData
import RiscvPke.Kernel.Basic

namespace RiscvPke.Fs

open Function CData

/-! ## kernel/rfs.h, kernel/vfs.h, kernel/ramdev.h, util/types.h -/

abbrev RFS_BLKSIZE : ℕ := 4096
abbrev RFS_INODESIZE : ℕ := 128
abbrev RFS_MAX_INODE_BLKNUM : ℕ := 10
abbrev RFS_MAX_FILE_NAME_LEN : ℕ := 28
abbrev DIRECT_BLKNUM : ℕ := 10
abbrev RFS_MAGIC : ℤ := 0xBEAF
abbrev RFS_BLK_OFFSET_INODE : ℕ := 1
abbrev RFS_BLK_OFFSET_BITMAP : ℕ := 11
abbrev RFS_BLK_OFFSET_FREE : ℕ := 12
abbrev RAMDISK_BLOCK_COUNT : ℕ := 128
abbrev MAX_PATH_LEN : ℕ := 30
abbrev MAX_FILES : ℕ := 128

/-- `sb->nblocks`, as `rfs_format_dev` writes it to the superblock: RFS_MAX_INODE_BLKNUM * RFS_DIRECT_BLKNUM -/
abbrev NBLOCKS : ℕ := 100
/-- disk inodes in one block: RFS_BLKSIZE / RFS_INODESIZE -/
abbrev BLOCK_INODES : ℕ := 32
/-- `sb->ninodes`: RFS_BLKSIZE / RFS_INODESIZE * RFS_MAX_INODE_BLKNUM -/
abbrev NINODES : ℕ := 320
/-- `sizeof(struct rfs_direntry)`: an `int` and the name -/
abbrev DIRENTRY : ℕ := 32
/-- `one_block_direntrys`: RFS_BLKSIZE / sizeof(struct rfs_direntry) -/
abbrev BLOCK_DIRENTRYS : ℕ := 128

abbrev FILE_I : ℤ := 0
abbrev DIR_I : ℤ := 1
abbrev R_FREE : ℤ := 2

abbrev O_CREAT : ℕ := 64
abbrev MASK_FILEMODE : ℕ := 3
abbrev LSEEK_SET : ℤ := 0
abbrev LSEEK_CUR : ℤ := 1

instance : NeZero DIRECT_BLKNUM := ⟨by decide⟩

/-! ## State -/

/-- `struct rfs_dinode` -/
structure Dinode where
  size : ℤ
  type : ℤ
  nlinks : ℤ
  blocks : ℤ
  addrs : Fin DIRECT_BLKNUM → ℤ
deriving DecidableEq

/-- `struct vinode`: what the disk inode has, with the number and the count of references; `host`: its operations are
those of the host file system -/
structure Vinode extends Dinode where
  inum : ℤ
  ref : ℤ
  host : Bool
deriving DecidableEq

structure Dentry where
  name : CString
  d_ref : ℤ
  dentry_inode : Option ℕ
  parent : Option ℕ
deriving DecidableEq

/-- `struct file`; `status`: FD_OPENED or not -/
structure File where
  status : Bool
  readable : Bool
  writable : Bool
  offset : ℕ
  f_dentry : ℕ
deriving DecidableEq

/-- `proc_file_management`; an entry of the table that no file has been copied to is `none` (its status is FD_NONE) -/
structure Pfiles where
  cwd : ℕ
  opened_files : ℕ → Option File
  nfiles : ℕ

/-- what the kernel keeps in memory -/
structure Mem where
  /-- `freemap[block] != 0` -/
  used : ℕ → Bool
  vinodes : ℕ → Option Vinode
  dentries : ℕ → Option Dentry
  /-- the next object -/
  next : ℕ
  /-- `vinode_hash_table`, the vinodes of the RAM disk by inode number -/
  vinode_hash : ℤ → Option ℕ
  /-- `dentry_hash_table`, by parent and name -/
  dentry_hash : Option ℕ × CString → Option ℕ
  vfs_root_dentry : ℕ
  pfiles : ℕ → Pfiles

structure St extends Mem where
  /-- the blocks of the RAM disk -/
  blocks : ℕ → Buf
  iobuffer : Buf

inductive Fault where
  | stop (e : Stop)
  /-- a read or write through a freed or uninitialised pointer -/
  | wildPointer
  /-- an `int` overflows -/
  | overflow
  /-- the call goes to the host file system -/
  | hostfs
deriving DecidableEq

abbrev F := StateT St (Except Fault)

def stop {α : Type} (e : Stop) : F α := throw (.stop e)

def vinodeAt (v : ℕ) : F Vinode := do
  match (← get).vinodes v with
  | some V => return V
  | none => throw .wildPointer

def dentryAt (d : ℕ) : F Dentry := do
  match (← get).dentries d with
  | some D => return D
  | none => throw .wildPointer

def setVinode (v : ℕ) (V : Vinode) : F Unit := modify fun s => { s with vinodes := update s.vinodes v (some V) }

def setDentry (d : ℕ) (D : Dentry) : F Unit := modify fun s => { s with dentries := update s.dentries d (some D) }

def freeVinode (v : ℕ) : F Unit := modify fun s => { s with vinodes := update s.vinodes v none }

def freeDentry (d : ℕ) : F Unit := modify fun s => { s with dentries := update s.dentries d none }

def allocVinode (V : Vinode) : F ℕ := do
  let s ← get
  set { s with vinodes := update s.vinodes s.next (some V), next := s.next + 1 }
  return s.next

def setIobuffer (b : Buf) : F Unit := modify fun s => { s with iobuffer := b }

/-! ## kernel/ramdev.c -/

/-- `memcpy` of one block over another; what lies behind the block stays -/
def copyBlock (dst src : Buf) : Buf := fun i => if i < RFS_BLKSIZE then src i else dst i

def ramdiskWrite (blkno : ℤ) : F Unit := do
  if blkno < 0 ∨ (RAMDISK_BLOCK_COUNT : ℤ) ≤ blkno then
    stop (.panic "ramdisk_write: write block No %d out of range!\n")
  modify fun s =>
    { s with blocks := update s.blocks blkno.toNat (copyBlock (s.blocks blkno.toNat) s.iobuffer) }

def ramdiskRead (blkno : ℤ) : F Unit := do
  if blkno < 0 ∨ (RAMDISK_BLOCK_COUNT : ℤ) ≤ blkno then
    stop (.panic "ramdisk_read: read block No out of range!\n")
  modify fun s => { s with iobuffer := copyBlock s.iobuffer (s.blocks blkno.toNat) }

/-! ## kernel/rfs.c: utility functions -/

def Dinode.ints (d : Dinode) : List ℤ := [d.size, d.type, d.nlinks, d.blocks] ++ List.ofFn d.addrs

def loadDinode (b : Buf) (a : ℕ) : Dinode where
  size := loadInt b a
  type := loadInt b (a + 4)
  nlinks := loadInt b (a + 8)
  blocks := loadInt b (a + 12)
  addrs i := loadInt b (a + 16 + 4 * i)

def rfsReadDinode (n : ℤ) : F Dinode := do
  ramdiskRead (n.tdiv BLOCK_INODES + RFS_BLK_OFFSET_INODE)
  let offset := n.tmod BLOCK_INODES
  if offset < 0 then stop .outOfBounds
  return loadDinode (← get).iobuffer (offset.toNat * RFS_INODESIZE)

def rfsWriteDinode (d : Dinode) (n : ℤ) : F Unit := do
  ramdiskRead (n.tdiv BLOCK_INODES + RFS_BLK_OFFSET_INODE)
  let offset := n.tmod BLOCK_INODES
  if offset < 0 then stop .outOfBounds
  setIobuffer (storeInts (← get).iobuffer (offset.toNat * RFS_INODESIZE) d.ints)
  ramdiskWrite (n.tdiv BLOCK_INODES + RFS_BLK_OFFSET_INODE)

def rfsAllocBlock : F ℤ := do
  let s ← get
  match (List.range NBLOCKS).find? fun block => !s.used block with
  | some block =>
    set { s with used := update s.used block true }
    return RFS_BLK_OFFSET_FREE + block
  | none => stop (.panic "rfs_alloc_block: no more free block!\n")

def rfsFreeBlock (block_num : ℤ) : F Unit := do
  let block := block_num - RFS_BLK_OFFSET_FREE
  if block < 0 ∨ (RFS_BLKSIZE / 4 : ℤ) ≤ block then stop .outOfBounds
  modify fun s => { s with used := update s.used block.toNat false }

def Dinode.addr (d : Dinode) (i : ℤ) : F ℤ :=
  if h : 0 ≤ i ∧ i < DIRECT_BLKNUM then return d.addrs ⟨i.toNat, by omega⟩ else stop .outOfBounds

def rfsAllocVinode (inum : ℤ) : F ℕ :=
  allocVinode
    { size := 0, type := 0, nlinks := 0, blocks := 0, addrs := fun _ => 0, inum := inum, ref := 0, host := false }

def rfsWriteBackVinode (v : ℕ) : F Unit := do
  let V ← vinodeAt v
  rfsWriteDinode V.toDinode V.inum

def rfsUpdateVinode (v : ℕ) : F Unit := do
  let V ← vinodeAt v
  let d ← rfsReadDinode V.inum
  setVinode v { V with toDinode := d }

def rfsAddDirentry (dir : ℕ) (name : CString) (inum : ℤ) : F Bool := do
  let V ← vinodeAt dir
  if V.type ≠ DIR_I then return false
  let n_block ← V.addr (V.size.tdiv RFS_BLKSIZE)
  ramdiskRead n_block
  let a := (V.size.tmod RFS_BLKSIZE).toNat
  -- strcpy writes the name and its terminator, past the field if the name is too long
  if RFS_BLKSIZE < a + 4 + name.length + 1 then stop .outOfBounds
  setIobuffer (storeString (storeInt (← get).iobuffer a inum) (a + 4) name)
  ramdiskWrite n_block
  setVinode dir { V with size := V.size + DIRENTRY }
  rfsWriteBackVinode dir
  return true

/-! ## kernel/rfs.c: file interface -/

/-- `memcpy` of `data` to the place `a` of a buffer -/
def splice (b : Buf) (a : ℕ) (data : List UInt8) : Buf := fun i =>
  if a ≤ i then (data[i - a]?).getD (b i) else b i

/-- the block of a file that a write goes to, new if it is the one after the last -/
def blockFor (f : ℕ) (block_offset : ℕ) : F ℤ := do
  let V ← vinodeAt f
  if (block_offset : ℤ) = V.blocks then
    let blk ← rfsAllocBlock
    if h : block_offset < DIRECT_BLKNUM then
      setVinode f { V with addrs := update V.addrs ⟨block_offset, h⟩ blk, blocks := V.blocks + 1 }
    else stop .outOfBounds
  (← vinodeAt f).addr block_offset

/-- fill a block of the file from its start -/
def writeBlock (f : ℕ) (data : List UInt8) (block_offset : ℕ) : F Unit := do
  let blk ← blockFor f block_offset
  setIobuffer (splice (← get).iobuffer 0 data)
  ramdiskWrite blk

def writeBlocks (f : ℕ) : (writetimes : ℕ) → (buf : List UInt8) → (block_offset : ℕ) → F Unit
  | 0, _, _ => return ()
  | k + 1, buf, block_offset => do
    writeBlock f (buf.take RFS_BLKSIZE) block_offset
    writeBlocks f k (buf.drop RFS_BLKSIZE) (block_offset + 1)

def writeAligned (f : ℕ) (writetimes remain : ℕ) (buf : List UInt8) (block_offset : ℕ) : F Unit := do
  writeBlocks f writetimes buf block_offset
  if 0 < remain then
    writeBlock f ((buf.drop (writetimes * RFS_BLKSIZE)).take remain) (block_offset + writetimes)

def rfsWrite (f : ℕ) (buf : List UInt8) (offset : ℕ) : F ℕ := do
  let V ← vinodeAt f
  if V.size < offset then stop (.panic "rfs_write:offset should less than file size!")
  let len := buf.length
  let align := offset % RFS_BLKSIZE
  let writetimes := (len + align) / RFS_BLKSIZE
  let remain := (len + align) % RFS_BLKSIZE
  let block_offset := offset / RFS_BLKSIZE
  if align ≠ 0 then
    let blk ← V.addr block_offset
    ramdiskRead blk
    let first_block_len := if writetimes = 0 then len else RFS_BLKSIZE - align
    setIobuffer (splice (← get).iobuffer align (buf.take first_block_len))
    ramdiskWrite blk
    if 0 < writetimes then writeAligned f (writetimes - 1) remain (buf.drop first_block_len) (block_offset + 1)
  else
    writeAligned f writetimes remain buf block_offset
  let V ← vinodeAt f
  setVinode f { V with size := max V.size (offset + len) }
  return offset + len

/-- the entries of a directory; negative sizes make the loops over them end at once -/
def totalDirentrys (d : Dinode) : ℕ := (d.size / DIRENTRY).toNat

/-- the loop of `rfs_lookup` and `rfs_unlink` over the entries from `i` on: the index of the first one with the name;
its block is left in `iobuffer` -/
def findDirentry (dir : Dinode) (name : CString) : (todo i : ℕ) → F (Option ℕ)
  | 0, _ => return none
  | todo + 1, i => do
    if i % BLOCK_DIRENTRYS = 0 then ramdiskRead (← dir.addr (i / BLOCK_DIRENTRYS : ℕ))
    if strEq (← get).iobuffer (i % BLOCK_DIRENTRYS * DIRENTRY + 4) name then return some i
    findDirentry dir name todo (i + 1)

/-- `p_direntry->inum` of the entry that the loop stopped at -/
def direntryInum (i : ℕ) : F ℤ := return loadInt (← get).iobuffer (i % BLOCK_DIRENTRYS * DIRENTRY)

def rfsLookup (parent : ℕ) (name : CString) : F (Option ℕ) := do
  let V ← vinodeAt parent
  match ← findDirentry V.toDinode name (totalDirentrys V.toDinode) 0 with
  | none => return none
  | some i =>
    let child ← rfsAllocVinode (← direntryInum i)
    rfsUpdateVinode child
    return some child

/-- the first free disk inode; without one the loop leaves a pointer to the page of the last inode, which it has freed
-/
def freeInode : (todo i : ℕ) → F (ℕ × Dinode)
  | 0, _ => throw .wildPointer
  | todo + 1, i => do
    let d ← rfsReadDinode i
    if d.type = R_FREE then return (i, d)
    freeInode todo (i + 1)

/-- a free disk inode becomes one of the given type with one block -/
def newInode (type : ℤ) : F ℕ := do
  let (n, d) ← freeInode NINODES 0
  let blk ← rfsAllocBlock
  rfsWriteDinode { size := 0, type := type, nlinks := 1, blocks := 1, addrs := update d.addrs 0 blk } n
  return n

def rfsCreate (parent : ℕ) (name : CString) : F (Option ℕ) := do
  let n ← newInode FILE_I
  let v ← rfsAllocVinode n
  rfsUpdateVinode v
  if ← rfsAddDirentry parent name n then return some v else return none

def rfsMkdir (parent : ℕ) (name : CString) : F (Option ℕ) := do
  let n ← newInode DIR_I
  if ← rfsAddDirentry parent name n then
    let v ← rfsAllocVinode n
    rfsUpdateVinode v
    return some v
  else return none

def rfsLseek (d : Dinode) (new_offset whence : ℤ) (offset : ℕ) : Option ℕ :=
  let target := if whence = LSEEK_SET then new_offset else offset + new_offset
  if (whence = LSEEK_SET ∨ whence = LSEEK_CUR) ∧ 0 ≤ target ∧ target ≤ d.size then some target.toNat else none

def rfsLink (parent : ℕ) (name : CString) (link_node : ℕ) : F Bool := do
  let V ← vinodeAt link_node
  if V.nlinks = 2147483647 then throw .overflow
  setVinode link_node { V with nlinks := V.nlinks + 1 }
  if ← rfsAddDirentry parent name V.inum then
    rfsWriteBackVinode link_node
    return true
  else return false

def freeBlocks (d : Dinode) : F Unit :=
  (List.range d.blocks.toNat).forM fun (i : ℕ) => do rfsFreeBlock (← d.addr i)

/-- `memmove` of the entries behind `offset` to the front by one -/
def shiftDirentrys (b : Buf) (offset : ℕ) : Buf := fun i =>
  if offset * DIRENTRY ≤ i ∧ i < RFS_BLKSIZE - DIRENTRY then b (i + DIRENTRY) else b i

/-- the loop over the blocks behind that of the deleted entry: the first entry of each goes to the end of the block
before -/
def shiftBlocks (dir : Dinode) : (todo i : ℕ) → (previous_block : Buf) → F Buf
  | 0, _, previous_block => return previous_block
  | todo + 1, i, previous_block => do
    ramdiskRead (← dir.addr i)
    let this_block := (← get).iobuffer
    let last := RFS_BLKSIZE - DIRENTRY
    setIobuffer (copyBlock this_block fun j => if last ≤ j then this_block (j - last) else previous_block j)
    ramdiskWrite (← dir.addr ((i : ℤ) - 1))
    shiftBlocks dir todo (i + 1) (shiftDirentrys this_block 0)

def removeDirentry (parent : ℕ) (delete_index : ℕ) : F Unit := do
  let P ← vinodeAt parent
  let delete_block_index := delete_index / BLOCK_DIRENTRYS
  ramdiskRead (← P.addr delete_block_index)
  let previous_block := shiftDirentrys (← get).iobuffer (delete_index % BLOCK_DIRENTRYS)
  let last_block ←
    shiftBlocks P.toDinode (P.blocks.toNat - (delete_block_index + 1)) (delete_block_index + 1) previous_block
  setIobuffer (copyBlock (← get).iobuffer last_block)
  ramdiskWrite (← P.addr (P.blocks - 1))
  if (totalDirentrys P.toDinode - 1) % BLOCK_DIRENTRYS = 0 ∧ 1 < P.blocks then
    rfsFreeBlock (← P.addr (P.blocks - 1))
    setVinode parent { P with blocks := P.blocks - 1, size := P.size - DIRENTRY }
  else
    setVinode parent { P with size := P.size - DIRENTRY }
  rfsWriteBackVinode parent

/-- one link less for the disk inode of the deleted entry, whose blocks become free with its last link -/
def dropLink (unlink_vinode : ℕ) (inum : ℤ) : F Unit := do
  let d ← rfsReadDinode inum
  let V ← vinodeAt unlink_vinode
  if V.nlinks ≠ d.nlinks then stop (.assertion "unlink_vinode->nlinks == unlink_dinode->nlinks")
  setVinode unlink_vinode { V with nlinks := V.nlinks - 1 }
  if V.nlinks - 1 = 0 then
    freeBlocks d
    rfsWriteDinode { d with nlinks := V.nlinks - 1, type := R_FREE } inum
  else
    rfsWriteDinode { d with nlinks := V.nlinks - 1 } inum

def rfsUnlink (parent : ℕ) (name : CString) (unlink_vinode : ℕ) : F Bool := do
  let P ← vinodeAt parent
  -- without an entry `p_direntry` is NULL when its inum is read
  if totalDirentrys P.toDinode = 0 then stop .nullPointer
  match ← findDirentry P.toDinode name (totalDirentrys P.toDinode) 0 with
  | none => return false
  | some delete_index =>
    let inum ← direntryInum delete_index
    dropLink unlink_vinode inum
    removeDirentry parent delete_index
    return true

/-- the blocks of the directory are read from the last to the first -/
def rfsHookOpendir (dir : Dinode) : F Unit :=
  (List.range dir.blocks.toNat).reverse.forM fun (i : ℕ) => do ramdiskRead (← dir.addr i)

/-! ## kernel/vfs.c: hash tables and objects -/

def hashPutDentry (d : ℕ) : F Unit := do
  let D ← dentryAt d
  modify fun s =>
    match s.dentry_hash (D.parent, D.name) with
    | some _ => s
    | none => { s with dentry_hash := update s.dentry_hash (D.parent, D.name) (some d) }

def hashEraseDentry (d : ℕ) : F Unit := do
  let D ← dentryAt d
  modify fun s => { s with dentry_hash := update s.dentry_hash (D.parent, D.name) none }

def hashPutVinode (v : ℕ) : F Unit := do
  let V ← vinodeAt v
  if 0 ≤ V.inum then
    modify fun s =>
      match s.vinode_hash V.inum with
      | some _ => s
      | none => { s with vinode_hash := update s.vinode_hash V.inum (some v) }

def hashEraseVinode (v : ℕ) : F Unit := do
  let V ← vinodeAt v
  if 0 ≤ V.inum then modify fun s => { s with vinode_hash := update s.vinode_hash V.inum none }

def refUp (v : ℕ) : F Unit := do
  let V ← vinodeAt v
  setVinode v { V with ref := V.ref + 1 }

def allocVfsDentry (name : CString) (inode : Option ℕ) (parent : Option ℕ) : F ℕ := do
  let s ← get
  set { s with dentries := update s.dentries s.next (some ⟨name, 0, inode, parent⟩), next := s.next + 1 }
  match inode with
  | some v => refUp v
  | none => pure ()
  return s.next

def inodeOf (d : ℕ) : F ℕ := do
  match (← dentryAt d).dentry_inode with
  | some v => return v
  | none => stop .nullPointer

/-- the vinode of a dentry of the RAM disk -/
def rfsInodeOf (d : ℕ) : F ℕ := do
  let v ← inodeOf d
  if (← vinodeAt v).host then throw .hostfs
  return v

/-! ## kernel/vfs.c: path lookup -/

def dot : CString := [⟨46, by decide⟩]
def dotdot : CString := [⟨46, by decide⟩, ⟨46, by decide⟩]

def absolute (path : CString) : Bool := path.head? = some slash

def getPathStartDentry (p : ℕ) (path : CString) : F ℕ := do
  let s ← get
  return if absolute path then s.vfs_root_dentry else (s.pfiles p).cwd

/-- the part of the loop of `lookup_final_dentry` for a name: the dentry below `parent`, from the hash table or from the
directory on disk -/
def lookupName (parent : ℕ) (token : CString) : F (Option ℕ) := do
  match (← get).dentry_hash (some parent, token) with
  | some d => return some d
  | none =>
    let d ← allocVfsDentry token none (some parent)
    match ← rfsLookup (← rfsInodeOf parent) token with
    | none =>
      freeDentry d
      return none
    | some found =>
      let D ← dentryAt d
      match (← get).vinode_hash (← vinodeAt found).inum with
      | some same =>
        setDentry d { D with dentry_inode := some same }
        refUp same
        freeVinode found
      | none =>
        setDentry d { D with dentry_inode := some found }
        refUp found
        hashPutVinode found
      hashPutDentry d
      return some d

/-- what `lookup_final_dentry` returns, in `*parent`, and in `miss_name` when the dentry is NULL -/
structure Looked where
  dentry : Option ℕ
  parent : Option ℕ
  miss_name : CString
deriving DecidableEq

def lookupTokens : (tokens : List CString) → (this : ℕ) → (parent : Option ℕ) → F Looked
  | [], this, parent => return ⟨some this, parent, []⟩
  | token :: rest, this, parent =>
    if token = dot then lookupTokens rest this parent
    else if token = dotdot then do
      match (← dentryAt this).parent with
      | some up => lookupTokens rest up (← dentryAt up).parent
      | none => lookupTokens rest this parent
    else do
      match ← lookupName this token with
      | some d => lookupTokens rest d (some this)
      | none => return ⟨none, some this, token⟩

def lookupFinalDentry (path : CString) (parent : ℕ) : F Looked := do
  if MAX_PATH_LEN ≤ path.length then stop .outOfBounds
  let root := (← get).vfs_root_dentry
  let start := if absolute path then root else parent
  lookupTokens (tokens path) start (some start)

def getBaseName (path : CString) : CString := (tokens path).getLastD []

/-! ## kernel/vfs.c: calls -/

def allocVfsFile (d : ℕ) (readable writable : Bool) : F File := do
  let D ← dentryAt d
  setDentry d { D with d_ref := D.d_ref + 1 }
  return { status := true, readable := readable, writable := writable, offset := 0, f_dentry := d }

/-- the dentry gets its new vinode, and both go to the hash tables -/
def attachInode (d v : ℕ) : F Unit := do
  let D ← dentryAt d
  setDentry d { D with dentry_inode := some v }
  refUp v
  hashPutDentry d
  hashPutVinode v

def parentInode (l : Looked) : F ℕ := do
  match l.parent with
  | some parent => rfsInodeOf parent
  | none => stop .nullPointer

def vfsCreate (path : CString) (l : Looked) : F ℕ := do
  let d ← allocVfsDentry (getBaseName path) none l.parent
  match ← rfsCreate (← parentInode l) (getBaseName path) with
  | none => stop (.panic "vfs_open: cannot create file!\n")
  | some v =>
    attachInode d v
    return d

/-- the dentry to open, `none` when the call fails -/
def openDentry (p : ℕ) (path : CString) (flags : ℕ) : F (Option ℕ) := do
  let l ← lookupFinalDentry path (← getPathStartDentry p path)
  match l.dentry with
  | some d => return some d
  | none =>
    if flags &&& O_CREAT ≠ 0 ∧ l.miss_name = getBaseName path then return some (← vfsCreate path l)
    else return none

def openMode (flags : ℕ) : F (Bool × Bool) :=
  match flags &&& MASK_FILEMODE with
  | 0 => return (true, false)
  | 1 => return (false, true)
  | 2 => return (true, true)
  | _ => stop (.panic "fs_open: invalid open flags!\n")

def vfsOpen (p : ℕ) (path : CString) (flags : ℕ) : F (Option File) := do
  match ← openDentry p path flags with
  | none => return none
  | some d =>
    if (← vinodeAt (← inodeOf d)).type ≠ FILE_I then return none
    let (readable, writable) ← openMode flags
    let file ← allocVfsFile d readable writable
    -- the hook of the host file system opens the host file
    let _ ← rfsInodeOf d
    return some file

def vfsWrite (file : File) (buf : List UInt8) : F (Option ℕ) := do
  if !file.writable then return none
  if (← vinodeAt (← inodeOf file.f_dentry)).type ≠ FILE_I then return none
  return some (← rfsWrite (← rfsInodeOf file.f_dentry) buf file.offset)

def vfsLseek (file : File) (offset whence : ℤ) : F (Option ℕ) := do
  if (← vinodeAt (← inodeOf file.f_dentry)).type ≠ FILE_I then return none
  return rfsLseek (← vinodeAt (← rfsInodeOf file.f_dentry)).toDinode offset whence file.offset

def vfsLink (p : ℕ) (oldpath newpath : CString) : F Bool := do
  let old ← lookupFinalDentry oldpath (← getPathStartDentry p oldpath)
  match old.dentry with
  | none => return false
  | some old_file_dentry =>
    if (← vinodeAt (← inodeOf old_file_dentry)).type ≠ FILE_I then return false
    let l ← lookupFinalDentry newpath (← getPathStartDentry p newpath)
    if l.dentry.isSome then return false
    if l.miss_name ≠ getBaseName newpath then return false
    let link_node ← inodeOf old_file_dentry
    let d ← allocVfsDentry (getBaseName newpath) (some link_node) l.parent
    if ← rfsLink (← parentInode l) (getBaseName newpath) link_node then
      hashPutDentry d
      return true
    else return false

def freeVfsDentry (d : ℕ) : F Unit := do
  if (← dentryAt d).d_ref ≤ 0 then freeDentry d

/-- a dentry leaves the hash table and is freed, and its vinode has one reference less -/
def dropDentry (d v : ℕ) : F Unit := do
  hashEraseDentry d
  freeVfsDentry d
  let V ← vinodeAt v
  setVinode v { V with ref := V.ref - 1 }

/-- a vinode leaves the hash table and is freed -/
def dropVinode (v : ℕ) : F Unit := do
  hashEraseVinode v
  freeVinode v

def vfsUnlink (p : ℕ) (path : CString) : F Bool := do
  let l ← lookupFinalDentry path (← getPathStartDentry p path)
  match l.dentry with
  | none => return false
  | some d =>
    if (← vinodeAt (← inodeOf d)).type ≠ FILE_I then return false
    if 0 < (← dentryAt d).d_ref then return false
    let v ← inodeOf d
    if ← rfsUnlink (← parentInode l) (← dentryAt d).name v then
      dropDentry d v
      let V ← vinodeAt v
      if V.nlinks = 0 then
        if V.ref ≠ 0 then stop (.assertion "unlinked_vinode->ref == 0")
        dropVinode v
      return true
    else return false

def vfsClose (file : File) : F Bool := do
  let d := file.f_dentry
  if (← vinodeAt (← inodeOf d)).type ≠ FILE_I then return false
  -- the hook of the host file system closes the host file
  let v ← rfsInodeOf d
  let D ← dentryAt d
  setDentry d { D with d_ref := D.d_ref - 1 }
  if D.d_ref - 1 = 0 then
    dropDentry d v
    if (← vinodeAt v).ref = 0 then
      rfsWriteBackVinode v
      dropVinode v
  return true

def vfsOpendir (p : ℕ) (path : CString) : F (Option File) := do
  let l ← lookupFinalDentry path (← getPathStartDentry p path)
  match l.dentry with
  | none => return none
  | some d =>
    if (← vinodeAt (← inodeOf d)).type ≠ DIR_I then return none
    let file ← allocVfsFile d true false
    -- the host file system has no such hook
    let V ← vinodeAt (← inodeOf d)
    if !V.host then rfsHookOpendir V.toDinode
    return some file

def vfsMkdir (p : ℕ) (path : CString) : F Bool := do
  let l ← lookupFinalDentry path (← getPathStartDentry p path)
  if l.dentry.isSome then return false
  if l.miss_name ≠ getBaseName path then return false
  let d ← allocVfsDentry (getBaseName path) none l.parent
  match ← rfsMkdir (← parentInode l) (getBaseName path) with
  | none =>
    freeDentry d
    return false
  | some v =>
    attachInode d v
    return true

/-! ## kernel/proc_file.c -/

def setPfiles (p : ℕ) (pf : Pfiles) : F Unit := modify fun s => { s with pfiles := update s.pfiles p pf }

/-- the entry that `get_opened_file` returns: the last one if the descriptor is none of the table -/
def fileEntry (fd : ℤ) : ℕ := if 0 ≤ fd ∧ fd < MAX_FILES then fd.toNat else MAX_FILES - 1

def getOpenedFile (p : ℕ) (fd : ℤ) : F File := do
  match ((← get).pfiles p).opened_files (fileEntry fd) with
  | some file => return file
  | none => throw .wildPointer

def putOpenedFile (p : ℕ) (entry : ℕ) (file : File) : F Unit := do
  let pf := (← get).pfiles p
  setPfiles p { pf with opened_files := update pf.opened_files entry (some file) }

/-- the first entry with the status FD_NONE, MAX_FILES if there is none -/
def freeEntry (pf : Pfiles) : ℕ :=
  ((List.range MAX_FILES).find? fun fd => !((pf.opened_files fd).any (·.status))).getD MAX_FILES

/-- the file goes to the table; with no free entry the last one is overwritten -/
def installFile (p : ℕ) (file : File) : F ℤ := do
  let pf := (← get).pfiles p
  let fd := freeEntry pf
  setPfiles p { pf with
    opened_files := update pf.opened_files (min fd (MAX_FILES - 1)) (some file)
    nfiles := pf.nfiles + 1 }
  return fd

def doOpen (p : ℕ) (path : CString) (flags : ℕ) : F ℤ := do
  match ← vfsOpen p path flags with
  | none => return -1
  | some file =>
    if MAX_FILES ≤ ((← get).pfiles p).nfiles then stop (.panic "do_open: no file entry for current process!\n")
    installFile p file

def doWrite (p : ℕ) (fd : ℤ) (buf : List UInt8) : F ℤ := do
  let file ← getOpenedFile p fd
  if !file.writable then stop (.panic "do_write: cannot write file!\n")
  match ← vfsWrite file buf with
  | none => return -1
  | some offset =>
    putOpenedFile p (fileEntry fd) { file with offset := offset }
    return buf.length

def doLseek (p : ℕ) (fd offset whence : ℤ) : F ℤ := do
  let file ← getOpenedFile p fd
  match ← vfsLseek file offset whence with
  | none => return -1
  | some new_offset =>
    putOpenedFile p (fileEntry fd) { file with offset := new_offset }
    return new_offset

def result (ok : Bool) : ℤ := if ok then 0 else -1

def doClose (p : ℕ) (fd : ℤ) : F ℤ := do
  let file ← getOpenedFile p fd
  let ok ← vfsClose file
  if ok then putOpenedFile p (fileEntry fd) { file with status := false }
  return result ok

def doOpendir (p : ℕ) (path : CString) : F ℤ := do
  match ← vfsOpendir p path with
  | none => return -1
  | some file =>
    if freeEntry ((← get).pfiles p) = MAX_FILES then stop (.panic "do_opendir: no file entry for current process!\n")
    installFile p file

def doCcwd (p : ℕ) (path : CString) : F ℤ := do
  let pf := (← get).pfiles p
  let l ← lookupFinalDentry path pf.cwd
  match l.dentry with
  | none => return -1
  | some d =>
    if (← vinodeAt (← inodeOf d)).type ≠ DIR_I then return -1
    setPfiles p { pf with cwd := d }
    return 0

inductive Call where
  | open (path : CString) (flags : ℕ)
  | write (fd : ℤ) (buf : List UInt8)
  | lseek (fd offset whence : ℤ)
  | close (fd : ℤ)
  | mkdir (path : CString)
  | link (oldpath newpath : CString)
  | unlink (path : CString)
  | opendir (path : CString)
  | ccwd (path : CString)
deriving DecidableEq

def act (p : ℕ) : Call → F ℤ
  | .open path flags => doOpen p path flags
  | .write fd buf => doWrite p fd buf
  | .lseek fd offset whence => doLseek p fd offset whence
  | .close fd => doClose p fd
  | .mkdir path => return result (← vfsMkdir p path)
  | .link oldpath newpath => return result (← vfsLink p oldpath newpath)
  | .unlink path => return result (← vfsUnlink p path)
  | .opendir path => doOpendir p path
  | .ccwd path => doCcwd p path

/-- one call of the process `l.1` -/
def step (s : St) (l : ℕ × Call) : Except Fault St := (act l.1 l.2 s).map Prod.snd

/-! ## fs_init -/

/-- `rfs_format_dev`; `rest`: the addresses that `root_dinode` has from the stack -/
def rfsFormatDev (rest : Fin DIRECT_BLKNUM → ℤ) : F Unit := do
  setIobuffer (storeInts (← get).iobuffer 0 [RFS_MAGIC, 1 + RFS_MAX_INODE_BLKNUM + 1 + NBLOCKS, NBLOCKS, NINODES])
  ramdiskWrite 0
  setIobuffer ((List.range BLOCK_INODES).foldl (fun b i => storeInts b (i * RFS_INODESIZE) [0, R_FREE, 0,
    0]) (← get).iobuffer)
  (List.range RFS_MAX_INODE_BLKNUM).forM fun (i : ℕ) => ramdiskWrite (RFS_BLK_OFFSET_INODE + i)
  rfsWriteDinode
    { size := 0, type := DIR_I, nlinks := 1, blocks := 1, addrs := update rest 0 RFS_BLK_OFFSET_FREE } 0
  setIobuffer (storeInt (copyBlock (← get).iobuffer fun _ => 0) 0 1)
  ramdiskWrite RFS_BLK_OFFSET_BITMAP

def ramdisk0 : CString :=
  [⟨82, by decide⟩, ⟨65, by decide⟩, ⟨77, by decide⟩, ⟨68, by decide⟩, ⟨73, by decide⟩, ⟨83, by decide⟩,
    ⟨75, by decide⟩,
    ⟨48, by decide⟩]

/-- `hostfs_get_superblock` and `vfs_mount("HOSTDEV", MOUNT_AS_ROOT)` -/
def mountHost : F Unit := do
  let v ← allocVinode
    { size := 0, type := DIR_I, nlinks := 0, blocks := 0, addrs := fun _ => 0, inum := -1, ref := 0, host := true }
  let d ← allocVfsDentry [slash] (some v) none
  modify fun s => { s with vfs_root_dentry := d }
  hashPutDentry d

/-- `rfs_get_superblock` and `vfs_mount("RAMDISK0", MOUNT_DEFAULT)` -/
def mountRamdisk : F Unit := do
  ramdiskRead 0
  if loadInt (← get).iobuffer 0 ≠ RFS_MAGIC then stop (.panic "rfs_get_superblock: wrong ramdisk device!\n")
  let v ← rfsAllocVinode 0
  rfsUpdateVinode v
  let d ← allocVfsDentry [slash] (some v) none
  ramdiskRead RFS_BLK_OFFSET_BITMAP
  modify fun s => { s with used := fun block => loadInt s.iobuffer (4 * block) != 0 }
  hashPutVinode v
  let D ← dentryAt d
  setDentry d { D with name := ramdisk0, parent := some (← get).vfs_root_dentry }
  hashPutDentry d

/-- `fs_init`, and processes whose working directory is the root -/
def fsInit (rest : Fin DIRECT_BLKNUM → ℤ) : F Unit := do
  mountHost
  rfsFormatDev rest
  mountRamdisk
  modify fun s => { s with pfiles := fun _ => ⟨s.vfs_root_dentry, fun _ => none, 0⟩ }

/-- the memory before `fs_init`; the bytes of the RAM disk and of `iobuffer` are arbitrary -/
def reset (blocks : ℕ → Buf) (iobuffer : Buf) : St where
  used := fun _ => false
  vinodes := fun _ => none
  dentries := fun _ => none
  next := 0
  vinode_hash := fun _ => none
  dentry_hash := fun _ => none
  vfs_root_dentry := 0
  pfiles := fun _ => ⟨0, fun _ => none, 0⟩
  blocks := blocks
  iobuffer := iobuffer

def Boot (s : St) : Prop := ∃ blocks iobuffer rest, fsInit rest (reset blocks iobuffer) = .ok ((), s)

end RiscvPke.Fs
