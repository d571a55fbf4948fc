/-
The system calls that work on memory of the calling process: kernel/syscall.c, with the parts of kernel/proc_file.c,
kernel/rfs.c, kernel/hostfs.c, kernel/elf.c, util/snprintf.c, util/snscanf.c and spike_interface/spike_utils.c that
touch the bytes behind a user pointer.
-/
import RiscvPke.Core.Program
import RiscvPke.Core.CData
import RiscvPke.Kernel.IoPipline
import RiscvPke.Memory.Model

namespace RiscvPke.Syscall

open Program Memory CData

/-! ## Accesses -/

inductive Op where
  | load (va pa : ℕ)
  | store (va pa : ℕ) (b : UInt8)
  /-- the part of `do_exec` behind the copies of its strings, for the pointers `command` and `para` -/
  | reload (command para : ℕ) (k_command k_para : CString)
deriving DecidableEq

abbrev Ans : Op → Type
  | .load _ _ => UInt8
  | .store _ _ _ => Unit
  | .reload _ _ _ _ => Unit

abbrev P := Prog Op Ans Stop

def load (va pa : ℕ) : P UInt8 := perform (Op.load va pa)

def store (va pa : ℕ) (b : UInt8) : P Unit := perform (Op.store va pa b)

def ofRes {α : Type} : Res α → P α
  | .ok a => .ret a
  | .error e => .stop e

/-- the bytes up to the first zero: a loop that reads a string ends nowhere else -/
def loadChars (va pa : ℕ) : (fuel : ℕ) → P CString
  | 0 => .stop .endlessLoop
  | fuel + 1 => do
    let b ← load va pa
    if h : b = 0 then return []
    else return ⟨b, h⟩ :: (← loadChars (va + 1) (pa + 1) fuel)

/-- a string that is read as a whole (`strcpy`, `strlen`, "%s"); there are 2^64 addresses -/
def loadString (va pa : ℕ) : P CString := loadChars va pa (2 ^ 64)

def loadBytes (va pa : ℕ) : ℕ → P (List UInt8)
  | 0 => return []
  | n + 1 => do
    let b ← load va pa
    return b :: (← loadBytes (va + 1) (pa + 1) n)

def storeBytes (va pa : ℕ) : List UInt8 → P Unit
  | [] => return ()
  | b :: bs => do
    store va pa b
    storeBytes (va + 1) (pa + 1) bs

def chars (s : CString) : List UInt8 := s.map (·.1) ++ [0]

def storeString (va pa : ℕ) (s : CString) : P Unit := storeBytes va pa (chars s)

def strcat (va pa : ℕ) (s : CString) : P Unit := do
  let n := (← loadString va pa).length
  storeString (va + n) (pa + n) s

/-! ## Integers -/

def u64 (v : ℤ) : ℕ := (v % 2 ^ 64).toNat

/-- the four bytes of an `int`, lowest first -/
def intBytes (v : ℤ) : List UInt8 := (List.range 4).map (intByte v)

/-- the value of a word, lowest byte first -/
def wordOf (l : List UInt8) : ℕ := l.foldr (fun b n => b.toNat + 256 * n) 0

/-! ## What a call finds -/

/-- `struct istat` -/
structure Istat where
  st_inum : ℤ
  st_size : ℤ
  st_type : ℤ
  st_nlinks : ℤ
  st_blocks : ℤ

def Istat.bytes (i : Istat) : List UInt8 :=
  intBytes i.st_inum ++ intBytes i.st_size ++ intBytes i.st_type ++ intBytes i.st_nlinks ++ intBytes i.st_blocks

/-- what `vfs_readdir` finds: no (more) entry, an entry on the RAM disk, or one of the host file system -/
inductive Listing where
  | nothing
  | ram (inum : ℤ) (name : CString)
  | host (inum : ℤ) (name : CString)

abbrev MAX_PATH_LEN : ℕ := 30
/-- util/types.h; the names on the RAM disk are shorter -/
abbrev MAX_FILE_NAME_LEN : ℕ := 32

structure World where
  pipline : IoPipline
  /-- `do_open`, `do_opendir`, `do_mkdir`, `do_unlink`, `do_ccwd` on a path -/
  doOpen : CString → ℤ → Res ℤ
  doOpendir : CString → Res ℤ
  doMkdir : CString → Res ℤ
  doUnlink : CString → Res ℤ
  doCcwd : CString → Res ℤ
  /-- whether the old path of `vfs_link` names a file -/
  linkable : CString → Res Bool
  doLink : CString → CString → Res ℤ
  /-- the `turn`-th `vfs_read` of a call: the kernel's buffer afterwards, and the result -/
  vfsRead : (fd : ℤ) → (turn : ℕ) → Res ((ℕ → UInt8) × ℤ)
  /-- how many bytes the `turn`-th `vfs_write` of a call takes from its buffer, and the result -/
  taken : (fd : ℤ) → (turn : ℕ) → ℕ
  vfsWrite : (fd : ℤ) → (turn : ℕ) → List UInt8 → Res ℤ
  vfsStat : (fd : ℤ) → Res Istat
  vfsDiskStat : (fd : ℤ) → Res (Option Istat)
  vfsReaddir : (fd : ℤ) → Res Listing
  /-- the names from the root down to the working directory, `none` if the root is not above it -/
  cwd : Option (List CString)
  /-- the buffer that `vscanfk` lets the host fill, and what lies behind it -/
  scanned : ℕ → UInt8
  /-- what the host delivers to `getstring` -/
  typed : List UInt8
  /-- `elf_find_symbol_by_addr`; whether the function is `main` -/
  symbol : ℕ → Option Bool
  /-- the program that `load_bincode_from_host_elf` finds -/
  elf : CString → Res (List Phdr)
  /-- `trapframe->regs.sp` -/
  sp : ℕ
  /-- a bound on the turns of the loop of `sys_user_read` or `sys_user_write` -/
  turns : ℕ

variable (W : World) (pr : Proc)

/-! ## Console -/

/-- a negative length of the buffer takes the destination of `memcpy` out of it -/
def sysUserPrint (buf n : ℕ) : P (IoPipline × ℤ) :=
  let pl := W.pipline
  let pa := userVaToPa pr buf
  if pl.stdin_close then
    if pl.buf_len < 0 ∧ 0 < pl.moved n then .stop .outOfBounds
    else do
      let bytes ← loadBytes buf pa (pl.moved n)
      return (pl.printed n fun i => bytes.getD i 0, 0)
  else do
    let _ ← loadString buf pa
    return (pl, 0)

/-- the first position that is no blank or tab -/
def skipBlanks (inp : ℕ → UInt8) : (fuel pos : ℕ) → Res ℕ
  | 0, _ => .error .endlessLoop
  | fuel + 1, pos => if inp pos = 32 ∨ inp pos = 9 then skipBlanks inp fuel (pos + 1) else .ok pos

def wordEnd (b : UInt8) : Bool := b = 10 || b = 0 || b = 32 || b = 9

/-- the word of "%s" that starts at a position of the input, at most up to the end of the buffer of 256 bytes -/
def scanWord (inp : ℕ → UInt8) (pos : ℕ) : List UInt8 :=
  ((List.range (256 - pos)).map fun k => inp (pos + k)).takeWhile fun b => !wordEnd b

/-- `vsnscanf` with "%s": behind the end of the buffer the loop goes on without a step -/
def sscanf (s_buf pa : ℕ) : P ℤ := do
  let pos ← ofRes (skipBlanks W.scanned (2 ^ 64) 0)
  let word := scanWord W.scanned pos
  storeBytes s_buf pa word
  if wordEnd (W.scanned (pos + word.length)) then do
    store (s_buf + word.length) (pa + word.length) 0
    return 1
  else .stop .endlessLoop

def sysUserScanf (buf : ℕ) : P (IoPipline × ℤ) :=
  let pl := W.pipline
  let pa := userVaToPa pr buf
  if pl.stdout_close then do
    storeBytes buf pa (pl.word ++ [0])
    let (_, pl') ← ofRes pl.scanned
    return (pl', 1)
  else do
    let r ← sscanf W buf pa
    return (pl, r)

def newline (b : UInt8) : Bool := b = 10 || b = 13

/-- the loop of `getstring`, with `n` positions left before the last one -/
def findNewline (va pa : ℕ) : (n i : ℕ) → P ℕ
  | 0, i => do
    let _ ← load (va + i) (pa + i)
    return i
  | n + 1, i => do
    let b ← load (va + i) (pa + i)
    if newline b then return i else findNewline va pa n (i + 1)

def room (n : ℕ) : ℕ := (n + 2 ^ 64 - 1) % 2 ^ 64

attribute [irreducible] room

def getstring (va buf n : ℕ) : P ℤ := do
  storeBytes va buf (W.typed.take (room n))
  let i ← findNewline va buf (room n) 0
  store (va + i) (buf + i) 0
  if i + 1 < n then store (va + (i + 1)) (buf + (i + 1)) 0
  return int32 i

def sysUserGets (buf size : ℕ) : P ℤ := getstring W buf (userVaToPa pr buf) size

/-! ## Files -/

/-- a call that hands the string at a user address to the file system -/
def onPath (f : CString → Res ℤ) (pathva : ℕ) : P ℤ := do
  let path ← loadString pathva (userVaToPa pr pathva)
  ofRes (f path)

def sysUserOpen (pathva : ℕ) (flags : ℤ) : P ℤ := onPath pr (W.doOpen · flags) pathva

def sysUserOpendir (pathva : ℕ) : P ℤ := onPath pr W.doOpendir pathva

def sysUserMkdir (pathva : ℕ) : P ℤ := onPath pr W.doMkdir pathva

def sysUserUnlink (vfn : ℕ) : P ℤ := onPath pr W.doUnlink vfn

def sysUserCcwd (pathva : ℕ) : P ℤ := onPath pr W.doCcwd pathva

/-- the second path is looked up if the first one names a file -/
def sysUserLink (vfn1 vfn2 : ℕ) : P ℤ := do
  let old ← loadString vfn1 (userVaToPa pr vfn1)
  if ← ofRes (W.linkable old) then do
    let new ← loadString vfn2 (userVaToPa pr vfn2)
    ofRes (W.doLink old new)
  else return -1

/-- the bytes of a buffer before the first zero, at most `count` -/
def textOf (buffer : ℕ → UInt8) (count : ℕ) : List UInt8 := ((List.range count).map buffer).takeWhile (· ≠ 0)

/-- the kernel's buffer ends in a zero behind its `count` bytes, and is copied as a string -/
def doRead (fd : ℤ) (turn va buf count : ℕ) : P ℤ := do
  let (buffer, len) ← ofRes (W.vfsRead fd turn)
  storeBytes va buf (textOf buffer count ++ [0])
  return len

def doWrite (fd : ℤ) (turn va buf count : ℕ) : P ℤ := do
  let bytes ← loadBytes va buf (min (W.taken fd turn) count)
  ofRes (W.vfsWrite fd turn bytes)

/-- the part of a buffer of `count` bytes from its byte `i` on that lies in one page: address and length -/
def chunk (bufva count : ℕ) (i : ℤ) : ℕ × ℕ :=
  let addr := (bufva + u64 i) % 2 ^ 64
  (addr, min (count - u64 i) (PGSIZE - addr % PGSIZE))

/-- the loop of `sys_user_read` and `sys_user_write`, page by page; a result below 0 is a large `uint64` -/
def pageLoop (io : (turn va pa len : ℕ) → P ℤ) (bufva count : ℕ) : (fuel turn : ℕ) → ℤ → P ℤ
  | 0, _, _ => .stop .endlessLoop
  | fuel + 1, turn, i =>
    if u64 i < count then do
      let a := chunk bufva count i
      let r ← io turn a.1 (lookupPa pr a.1 * PGSIZE + a.1 % PGSIZE) a.2
      if u64 r < a.2 then return int32 (i + r) else pageLoop io bufva count fuel (turn + 1) (int32 (i + r))
    else return count

def sysUserRead (fd : ℤ) (bufva count : ℕ) : P ℤ := pageLoop pr (doRead W fd) bufva count W.turns 0 0

def sysUserWrite (fd : ℤ) (bufva count : ℕ) : P ℤ := pageLoop pr (doWrite W fd) bufva count W.turns 0 0

def sysUserStat (fd : ℤ) (istat : ℕ) : P ℤ := do
  let st ← ofRes (W.vfsStat fd)
  storeBytes istat (userVaToPa pr istat) st.bytes
  return 0

def sysUserDiskStat (fd : ℤ) (istat : ℕ) : P ℤ := do
  match ← ofRes (W.vfsDiskStat fd) with
  | none => return -1
  | some st =>
    storeBytes istat (userVaToPa pr istat) st.bytes
    return 0

/-- the bytes that `safestrcpy(s, name, n)` writes: with room for it there is a second zero behind the first -/
def safeChars (name : CString) (n : ℕ) : List UInt8 := ((name.take (n - 1)).map (fun c : CChar => c.1) ++ [0, 0]).take n

/-- `struct dir`: the name and behind it the inode number; only the host file system tests the pointer -/
def sysUserReaddir (fd : ℤ) (vdir : ℕ) : P ℤ := do
  let pdir := userVaToPa pr vdir
  match ← ofRes (W.vfsReaddir fd) with
  | .nothing => return -1
  | .ram inum name =>
    storeBytes (vdir + MAX_FILE_NAME_LEN) (pdir + MAX_FILE_NAME_LEN) (intBytes inum)
    storeString vdir pdir name
    return 0
  | .host inum name =>
    if pdir = 0 then return -1
    else do
      storeBytes vdir pdir (safeChars name MAX_FILE_NAME_LEN)
      storeBytes (vdir + MAX_FILE_NAME_LEN) (pdir + MAX_FILE_NAME_LEN) (intBytes inum)
      return 0

def slashes : CString := [slash]

/-- the names of the path, each behind a slash -/
def appendNames (va path : ℕ) : List CString → P Unit
  | [] => return ()
  | name :: names => do
    strcat va path slashes
    strcat va path name
    appendNames va path names

def doRcwd (va path : ℕ) : P ℤ :=
  match W.cwd with
  | none => return -1
  | some [] => do
    storeString va path slashes
    return 0
  | some names =>
    if MAX_PATH_LEN < names.length then .stop .outOfBounds
    else do
      store va path 0
      appendNames va path names
      if (← load va path) = 0 then storeString va path slashes
      return 0

def sysUserRcwd (pathva : ℕ) : P ℤ := doRcwd W pathva (userVaToPa pr pathva)

/-! ## exec -/

/-- `do_exec` takes a null pointer for an empty string -/
def stringOrEmpty (va pa : ℕ) : P CString := if pa = 0 then return [] else loadString va pa

def sysUserExec (command para : ℕ) : P ℤ := do
  let k_command ← stringOrEmpty command (userVaToPa pr command)
  let k_para ← stringOrEmpty para (userVaToPa pr para)
  perform (Op.reload command para k_command k_para)
  return 0

/-! ## print_backtrace -/

abbrev EINVAL : ℤ := 22
abbrev ENXIO : ℤ := 6

def loadWord (va : ℕ) : P ℕ := wordOf <$> loadBytes va (userVaToPa pr va) 8

/-- `depth` frames from the frame pointer `fp` and the return address `ra` on -/
def backtraceLoop : (depth fp ra : ℕ) → P ℤ
  | 0, _, _ => return 0
  | depth + 1, fp, ra =>
    match W.symbol ra with
    | none => return ENXIO
    | some true => return EINVAL
    | some false => do
      let sb := ((← loadWord pr fp) + 2 ^ 64 - 8) % 2 ^ 64
      let ra' ← loadWord pr sb
      backtraceLoop depth ((sb + 2 ^ 64 - 8) % 2 ^ 64) ra'

def sysUserPrintBacktrace (depth : ℤ) : P ℤ :=
  if depth ≤ 0 then return EINVAL
  else do
    let fp := (W.sp + 32) % 2 ^ 64
    let ra ← loadWord pr ((fp + 8) % 2 ^ 64)
    backtraceLoop W pr depth.toNat fp ra

/-! ## do_syscall -/

/-- the calls with a user pointer; `print_backtrace` starts from the stack pointer -/
inductive Call where
  | print (buf n : ℕ)
  | scanf (buf : ℕ)
  | gets (buf size : ℕ)
  | open (pathva : ℕ) (flags : ℤ)
  | read (fd : ℤ) (bufva count : ℕ)
  | write (fd : ℤ) (bufva count : ℕ)
  | stat (fd : ℤ) (istat : ℕ)
  | diskStat (fd : ℤ) (istat : ℕ)
  | opendir (pathva : ℕ)
  | readdir (fd : ℤ) (vdir : ℕ)
  | mkdir (pathva : ℕ)
  | link (vfn1 vfn2 : ℕ)
  | unlink (vfn : ℕ)
  | exec (command para : ℕ)
  | rcwd (pathva : ℕ)
  | ccwd (pathva : ℕ)
  | printBacktrace (depth : ℤ)

/-- the result, and the pipeline of the hart afterwards -/
def doSyscall : Call → P (IoPipline × ℤ)
  | .print buf n => sysUserPrint W pr buf n
  | .scanf buf => sysUserScanf W pr buf
  | .gets buf size => (W.pipline, ·) <$> sysUserGets W pr buf size
  | .open pathva flags => (W.pipline, ·) <$> sysUserOpen W pr pathva flags
  | .read fd bufva count => (W.pipline, ·) <$> sysUserRead W pr fd bufva count
  | .write fd bufva count => (W.pipline, ·) <$> sysUserWrite W pr fd bufva count
  | .stat fd istat => (W.pipline, ·) <$> sysUserStat W pr fd istat
  | .diskStat fd istat => (W.pipline, ·) <$> sysUserDiskStat W pr fd istat
  | .opendir pathva => (W.pipline, ·) <$> sysUserOpendir W pr pathva
  | .readdir fd vdir => (W.pipline, ·) <$> sysUserReaddir W pr fd vdir
  | .mkdir pathva => (W.pipline, ·) <$> sysUserMkdir W pr pathva
  | .link vfn1 vfn2 => (W.pipline, ·) <$> sysUserLink W pr vfn1 vfn2
  | .unlink vfn => (W.pipline, ·) <$> sysUserUnlink W pr vfn
  | .exec command para => (W.pipline, ·) <$> sysUserExec pr command para
  | .rcwd pathva => (W.pipline, ·) <$> sysUserRcwd W pr pathva
  | .ccwd pathva => (W.pipline, ·) <$> sysUserCcwd W pr pathva
  | .printBacktrace depth => (W.pipline, ·) <$> sysUserPrintBacktrace W pr depth

/-! ## The machine -/

variable (K : Machine) (p : Slot)

/-- the accesses on physical memory; the kernel page table does not map page 0 -/
def handle : (o : Op) → StateT St Res (Ans o)
  | .load _ pa => fun s => if pa < PGSIZE then .error .nullPointer else .ok (s.mem pa, s)
  | .store _ pa b => fun s =>
    if pa < PGSIZE then .error .nullPointer else .ok ((), { s with mem := Function.update s.mem pa b })
  | .reload _ _ k_command k_para =>
    -- the two strings are copied into arrays of MAX_PATH_LEN bytes
    if MAX_PATH_LEN ≤ k_command.length ∨ MAX_PATH_LEN ≤ k_para.length then throw .outOfBounds
    else match W.elf k_command with
      | .error e => throw e
      | .ok elf => doExec K p elf (k_para.map (·.1))

/-- the accesses of a call that the process `p` makes in the state `s`, up to the one that stops it -/
def accesses (s : St) (c : Call) : List Op := (doSyscall W (s.proc p) c).trace (handle W K p) s

end RiscvPke.Syscall
