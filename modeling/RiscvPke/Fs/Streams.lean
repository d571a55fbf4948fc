/-
Directory streams: `opendir`, `readdir` and `closedir` on one directory of the RAM disk that does not change
(kernel/vfs.c, kernel/rfs.c), over the bytes of physical memory and the page allocator (Pmm).
-/
import RiscvPke.Fs.Runs
import RiscvPke.Pmm.FreeList

namespace RiscvPke.Streams

open Function Bytes CData Run RiscvPke.System
open Pmm (page Inv)
open Fs (Entry loadEntry str RFS_BLKSIZE RFS_MAX_FILE_NAME_LEN DIRENTRY BLOCK_DIRENTRYS DIRECT_BLKNUM)

/-! ## The model -/

/-- a directory: what its vinode says, and the blocks `addrs[0]`, `addrs[1]`, … on disk -/
structure Dir where
  size : ℕ
  blocks : ℕ
  block : ℕ → Buf
  pos : 0 < blocks
  few : blocks ≤ DIRECT_BLKNUM
  fits : size ≤ RFS_BLKSIZE * blocks
  names : ∀ i < size / DIRENTRY,
    (loadEntry (block (i / BLOCK_DIRENTRYS)) (i % BLOCK_DIRENTRYS)).name.length < RFS_MAX_FILE_NAME_LEN

def Dir.entries (d : Dir) : List Entry :=
  (List.range (d.size / DIRENTRY)).map fun i => loadEntry (d.block (i / BLOCK_DIRENTRYS)) (i % BLOCK_DIRENTRYS)

structure St where
  pmm : Pmm.St
  /-- `dir_vinode->i_fs_info` -/
  i_fs_info : ℕ
  /-- the open file objects, with their offsets -/
  files : List (ℕ × ℕ)

/-- `alloc_page`, and a write to the page -/
def newPage : Pmm.M ℕ := do
  let pa ← Pmm.allocPage
  if pa = 0 then throw (.stop .nullPointer)
  return pa

def copyBlock (pa : ℕ) (b : Buf) : Pmm.M Unit :=
  modify fun s => { s with mem := fun x => if pa ≤ x ∧ x < pa + RFS_BLKSIZE then b (x - pa) else s.mem x }

/-- the loop of `rfs_hook_opendir` over the blocks below `i`, from the last to the first; `previous` is the page before
-/
def readBlocks (d : Dir) : (i previous : ℕ) → Pmm.M ℕ
  | 0, pdire => return pdire
  | i + 1, previous => do
    let pdire ← Pmm.allocPage
    if previous ≠ 0 ∧ (previous : ℤ) - pdire ≠ RFS_BLKSIZE then
      throw (.stop (.panic "rfs_hook_opendir: memory discontinuity"))
    if pdire = 0 then throw (.stop .nullPointer)
    copyBlock pdire (d.block i)
    readBlocks d i pdire

/-- the new `i_fs_info`: a page with `struct rfs_dir_cache` -/
def rfsHookOpendir (d : Dir) : Pmm.M ℕ := do
  let pdire ← readBlocks d d.blocks 0
  let dir_cache ← newPage
  modify fun s => { s with mem := storeN (storeN s.mem dir_cache 4 d.blocks) (dir_cache + 8) 8 pdire }
  return dir_cache

/-- the page of `dir_cache` itself is not freed -/
def rfsHookClosedir (dir_cache : ℕ) : Pmm.M Unit := do
  let s ← get
  (List.range (loadN s.mem dir_cache 4)).forM fun i => Pmm.freePage (loadN s.mem (dir_cache + 8) 8 + i * RFS_BLKSIZE)

/-- `none` for -1; the name is copied up to its terminator -/
def rfsReaddir (d : Dir) (dir_cache offset : ℕ) (s : Pmm.St) : Option Entry :=
  if d.size / DIRENTRY ≤ offset then none
  else
    let p_direntry := loadN s.mem (dir_cache + 8) 8 + offset * DIRENTRY
    some ⟨loadString s.mem (p_direntry + 4) RFS_BLKSIZE, loadInt s.mem p_direntry⟩

inductive Op where
  | opendir (f : ℕ)
  | readdir (f : ℕ)
  | closedir (f : ℕ)
deriving DecidableEq

/-- `alloc_vfs_file` and the hook; the page of the file object stays allocated when the object has been copied to the
table -/
def vfsOpendir (d : Dir) : Pmm.M ℕ := do
  let _ ← newPage
  rfsHookOpendir d

/-- a call on the file object `f`, with what `readdir` returns -/
def act (d : Dir) (s : St) : Op → Except Pmm.Fault (Option Entry × St)
  | .opendir f =>
    match s.files.lookup f with
    | some _ => .error (.stop .disabled)
    | none => (vfsOpendir d s.pmm).map fun (dir_cache, pmm) => (none, ⟨pmm, dir_cache, (f, 0) :: s.files⟩)
  | .readdir f =>
    match s.files.lookup f with
    | none => .error (.stop .disabled)
    | some offset =>
      match rfsReaddir d s.i_fs_info offset s.pmm with
      | none => .ok (none, s)
      | some e => .ok (some e, { s with files := s.files.map fun x => if x.1 = f then (f, x.2 + 1) else x })
  | .closedir f =>
    match s.files.lookup f with
    | none => .error (.stop .disabled)
    | some _ => (rfsHookClosedir s.i_fs_info s.pmm).map fun (_, pmm) =>
      (none, ⟨pmm, s.i_fs_info, s.files.filter (·.1 ≠ f)⟩)

def step (d : Dir) (s : St) (op : Op) : Except Pmm.Fault St := (act d s op).map Prod.snd

/-- what each stream has been given since it was opened -/
abbrev Seen := ℕ → List Entry

def record (d : Dir) (s : St) (op : Op) (_ : St) (seen : Seen) : Seen :=
  match op with
  | .opendir f => update seen f []
  | .readdir f =>
    match act d s op with
    | .ok (some e, _) => update seen f (seen f ++ [e])
    | _ => seen
  | .closedir _ => seen

/-- before the first stream is opened; the page allocator is in any of its states -/
def Start (t : St × Seen) : Prop := (∃ l, Inv t.1.pmm l) ∧ t.1.files = []

/-- the pages that `closedir` passes to `free_page` -/
def freed (s : St) : List ℕ :=
  (List.range (loadN s.pmm.mem s.i_fs_info 4)).map fun i => loadN s.pmm.mem (s.i_fs_info + 8) 8 + i * RFS_BLKSIZE

/-- a stream is closed only while no other one is open -/
def Alone (s : St) : Op → Prop
  | .closedir f => ∀ x ∈ s.files, x.1 = f
  | _ => True

instance (s : St) (op : Op) : Decidable (Alone s op) :=
  match op with
  | .opendir _ => isTrue trivial
  | .readdir _ => isTrue trivial
  | .closedir f => inferInstanceAs (Decidable (∀ x ∈ s.files, x.1 = f))

variable {d : Dir} {s s' : Pmm.St} {l : List ℕ} {pa info i j k b c f g offset : ℕ}

/-! ## Pages -/

theorem page_add : page s (b + i) = page s b + i * RFS_BLKSIZE := by
  simp only [page, PGSIZE, RFS_BLKSIZE]
  omega

theorem newPage_run (h : Inv s l) (hrun : newPage s = .ok (pa, s')) :
    ∃ k l', pa = page s k ∧ s' = s.taken k ∧ Inv s' l' ∧ s.page_ref_count k = 0 := by
  obtain ⟨pa', s1, halloc, hrest⟩ := run_bind.1 hrun
  obtain ⟨h0, hrest⟩ := run_guard hrest
  cases hrest
  exact Pmm.allocPage_cases h halloc h0

/-! ## The copy of the directory -/

/-- the blocks of the directory from `i` on stand in the pages from `b` on, which are in use once -/
def Copied (d : Dir) (s : Pmm.St) (i b : ℕ) : Prop :=
  ∀ j, i + j < d.blocks → s.page_ref_count (b + j) = 1 ∧ ∀ x < RFS_BLKSIZE,
    s.mem (page s (b + j) + x) = d.block (i + j) x

theorem Copied.congr (h : Copied d s i b) (hstart : s'.free_mem_start_addr = s.free_mem_start_addr)
    (hcount : ∀ k, s.page_ref_count k = 1 → s'.page_ref_count k = 1)
    (hmem : ∀ k, s.page_ref_count k = 1 → ∀ x < RFS_BLKSIZE, s'.mem (page s k + x) = s.mem (page s k + x)) :
    Copied d s' i b := by
  intro j hj
  obtain ⟨hone, hbytes⟩ := h j hj
  refine ⟨hcount _ hone, fun x hx => ?_⟩
  have hpage : page s' (b + j) = page s (b + j) := by
    unfold page
    rw [hstart]
  rw [hpage, hmem _ hone x hx]
  exact hbytes x hx

theorem readBlocks_run (h : Inv s l) (hi : i ≤ d.blocks) {previous pdire : ℕ}
    (hprev : previous = 0 ∧ i = d.blocks ∨ ∃ b, previous = page s b ∧ Copied d s i b)
    (hrun : readBlocks d i previous s = .ok (pdire, s')) :
    ∃ l' b, Inv s' l' ∧ pdire = page s' b ∧ Copied d s' 0 b := by
  induction i generalizing s l previous with
  | zero =>
    cases hrun
    rcases hprev with ⟨-, h0⟩ | ⟨b, hb, hcopy⟩
    · have := d.pos
      omega
    · exact ⟨l, b, h, hb, hcopy⟩
  | succ i ih =>
    obtain ⟨pa, s1, halloc, hrest⟩ := run_bind.1 hrun
    obtain ⟨hgap, hrest⟩ := run_guard hrest
    obtain ⟨h0, hrest⟩ := run_guard hrest
    obtain ⟨k, l1, rfl, rfl, h1, hfree⟩ := Pmm.allocPage_cases h halloc h0
    have hk : k ∉ l1 := h1.not_mem Pmm.taken_count.ge
    have h2 := h1.write (m := fun x => if page s k ≤ x ∧ x < page s k + RFS_BLKSIZE then d.block i (x - page s k)
      else s.mem x) hk fun x hx => if_neg (by
        have hx : x < page s k ∨ page s k + 4096 ≤ x := hx
        show ¬ (page s k ≤ x ∧ x < page s k + 4096)
        omega)
    refine ih h2 (by omega) (.inr ⟨k, rfl, ?_⟩) hrest
    intro j hj
    cases j with
    | zero =>
      refine ⟨update_self _ _ _, fun x hx => ?_⟩
      show (if page s k ≤ page s k + x ∧ page s k + x < page s k + RFS_BLKSIZE then
        d.block i (page s k + x - page s k) else _) = d.block i x
      rw [if_pos ⟨by omega, by omega⟩, Nat.add_sub_cancel_left]
    | succ j =>
      -- the page of the block behind is the one behind
      rcases hprev with ⟨-, hlast⟩ | ⟨b, rfl, hcopied⟩
      · omega
      have hnext : b = k + 1 := by
        have hpos := h.layout.pos
        have hgap : ¬ (page s b ≠ 0 ∧ (page s b : ℤ) - page s k ≠ 4096) := hgap
        simp only [page, PGSIZE] at hgap
        omega
      subst hnext
      obtain ⟨hone, hbytes⟩ := hcopied j (by omega)
      rw [show k + 1 + j = k + (j + 1) by omega] at hone hbytes
      refine ⟨(update_of_ne (by omega) _ _).trans hone, fun x hx => ?_⟩
      show (if page s k ≤ page s (k + (j + 1)) + x ∧ page s (k + (j + 1)) + x < page s k + RFS_BLKSIZE then _
        else s.mem (page s (k + (j + 1)) + x)) = _
      rw [if_neg (by rw [page_add]; simp only [RFS_BLKSIZE]; omega), hbytes x hx, Nat.add_assoc, Nat.add_comm 1 j]

/-- the vinode knows a copy of the directory -/
def Snap (d : Dir) (s : Pmm.St) (info : ℕ) : Prop :=
  ∃ b, Copied d s 0 b ∧ loadN s.mem info 4 = d.blocks ∧ loadN s.mem (info + 8) 8 = page s b

theorem vfsOpendir_run (h : Inv s l) (hrun : vfsOpendir d s = .ok (info, s')) : (∃ l', Inv s' l') ∧ Snap d s' info := by
  obtain ⟨_, s1, hfile, hrun⟩ := run_bind.1 hrun
  obtain ⟨_, l1, -, -, h1, -⟩ := newPage_run h hfile
  obtain ⟨pdire, s2, hread, hrun⟩ := run_bind.1 hrun
  obtain ⟨l2, b, h2, rfl, hcopy⟩ := readBlocks_run h1 le_rfl (.inl ⟨rfl, rfl⟩) hread
  obtain ⟨dir_cache, s3, hcache, hrun⟩ := run_bind.1 hrun
  obtain ⟨c, l3, rfl, rfl, h3, hfree⟩ := newPage_run h2 hcache
  cases hrun
  have hc : c ∉ l3 := h3.not_mem Pmm.taken_count.ge
  -- the two words stand in the page of the cache
  have hout : ∀ x, x < page s2 c ∨ page s2 c + PGSIZE ≤ x →
      storeN (storeN s2.mem (page s2 c) 4 d.blocks) (page s2 c + 8) 8 (page s2 b) x = s2.mem x := by
    intro x hx
    simp only [PGSIZE] at hx
    rw [storeN_of_not (by omega), storeN_of_not (by omega)]
  refine ⟨⟨l3, h3.write hc hout⟩, b, ?_, ?_, ?_⟩
  · have hne : ∀ k, s2.page_ref_count k = 1 → k ≠ c := by
      rintro k hk rfl
      omega
    refine hcopy.congr rfl (fun k hk => (update_of_ne (hne k hk) _ _).trans hk) fun k hk x hx => hout _ ?_
    have := hne k hk
    simp only [page, PGSIZE, RFS_BLKSIZE] at *
    omega
  · rw [loadN_storeN_of_disjoint (by omega), loadN_storeN_self]
    have := d.few
    simp only [DIRECT_BLKNUM] at this
    omega
  · apply loadN_storeN_self
    obtain ⟨hone, -⟩ := hcopy 0 (by have := d.pos; omega)
    have hlt := (h2.layout.page_lt (h2.lt (by rw [hone]))).1
    have hspan := h2.layout.span
    have hsmall := h2.layout.small
    rw [Nat.add_zero] at hlt
    omega

/-! ## Reading and freeing the copy -/

theorem loadString_longer {m : Buf} {a k k' : ℕ} (h : (loadString m a k).length < k) (hk : k ≤ k') :
    loadString m a k' = loadString m a k := by
  induction k generalizing a k' with
  | zero => simp at h
  | succ k ih =>
    obtain ⟨k', rfl⟩ : ∃ j, k' = j + 1 := ⟨k' - 1, by omega⟩
    grind [loadString]

theorem Dir.entry_block (d : Dir) (hi : i < d.size / DIRENTRY) : i / BLOCK_DIRENTRYS < d.blocks := by
  have hfits := d.fits
  simp only [RFS_BLKSIZE, DIRENTRY, BLOCK_DIRENTRYS] at *
  omega

theorem rfsReaddir_eq (h : Snap d s info) : rfsReaddir d info offset s = d.entries[offset]? := by
  obtain ⟨b, hcopy, -, hbase⟩ := h
  unfold rfsReaddir Dir.entries
  rw [List.getElem?_map]
  by_cases hend : d.size / DIRENTRY ≤ offset
  · grind
  · rw [if_neg hend, List.getElem?_range (not_le.1 hend), Option.map_some]
    have hlt := not_le.1 hend
    have hblock := d.entry_block hlt
    have hname := d.names offset hlt
    obtain ⟨-, hbytes⟩ := hcopy (offset / BLOCK_DIRENTRYS) (by omega)
    -- the entry lies in one page of the copy
    have hplace : page s b + offset * DIRENTRY =
        page s (b + offset / BLOCK_DIRENTRYS) + 32 * (offset % BLOCK_DIRENTRYS) := by
      rw [page_add]
      simp only [RFS_BLKSIZE, DIRENTRY, BLOCK_DIRENTRYS]
      omega
    simp only [hbase, hplace]
    have hstring : loadString s.mem (page s (b + offset / BLOCK_DIRENTRYS) + 32 * (offset % BLOCK_DIRENTRYS) + 4) 28 =
        loadString (d.block (offset / BLOCK_DIRENTRYS)) (32 * (offset % BLOCK_DIRENTRYS) + 4) 28 := by
      refine loadString_congr fun x hx => ?_
      grind
    have hint : loadInt s.mem (page s (b + offset / BLOCK_DIRENTRYS) + 32 * (offset % BLOCK_DIRENTRYS)) =
        loadInt (d.block (offset / BLOCK_DIRENTRYS)) (32 * (offset % BLOCK_DIRENTRYS)) := by
      refine loadInt_congr fun x hx => ?_
      grind
    have hshort : (loadString (d.block (offset / BLOCK_DIRENTRYS))
      (32 * (offset % BLOCK_DIRENTRYS) + 4) 28).length < 28 := hname
    rw [loadString_longer (k := 28) (by rw [hstring]; exact hshort) (by decide), hstring, hint]
    rfl

theorem freePages_run (is : List ℕ) (h : Inv s l) (hnodup : is.Nodup) (hone : ∀ i ∈ is, s.page_ref_count (b + i) = 1) :
    ∃ s' l', (is.forM fun i => Pmm.freePage (page s b + i * RFS_BLKSIZE)) s = .ok ((), s') ∧ Inv s' l' := by
  induction is generalizing s l with
  | nil => exact ⟨s, l, rfl, h⟩
  | cons i is ih =>
    obtain ⟨hi, hnodup⟩ := List.nodup_cons.1 hnodup
    have hcount := hone i List.mem_cons_self
    have hlt : b + i < Pmm.npages s := h.lt (by rw [hcount])
    have hfree := Pmm.freePage_last h.layout hlt (by rw [hcount]; decide)
    have hrest : ∀ j ∈ is, (s.released (b + i)).page_ref_count (b + j) = 1 := by
      intro j hj
      have hne : b + j ≠ b + i := by
        intro he
        exact hi (by rwa [show i = j by omega])
      exact (update_of_ne hne _ _).trans (hone j (List.mem_cons_of_mem _ hj))
    obtain ⟨s', l', hrun, hinv⟩ := ih (h.release hlt (h.not_mem hcount.ge)) hnodup hrest
    refine ⟨s', l', ?_, hinv⟩
    rw [page_add] at hfree
    exact (run_step hfree).trans hrun

theorem rfsHookClosedir_run (h : Inv s l) (hsnap : Snap d s info) :
    ∃ s' l', rfsHookClosedir info s = .ok ((), s') ∧ Inv s' l' := by
  obtain ⟨b, hcopy, hcount, hbase⟩ := hsnap
  obtain ⟨s', l', hrun, hinv⟩ := freePages_run (List.range d.blocks) h List.nodup_range
    fun i hi => (hcopy i (by rw [Nat.zero_add]; exact List.mem_range.1 hi)).1
  refine ⟨s', l', ?_, hinv⟩
  show ((List.range (loadN s.mem info 4)).forM fun i => Pmm.freePage (loadN s.mem (info + 8) 8 + i * RFS_BLKSIZE)) s = _
  rw [hcount, hbase]
  exact hrun

/-! ## The table of streams -/

variable {files : List (ℕ × ℕ)}

theorem lookup_cons_ite : ((y, o) :: files).lookup g = if g = y then some o else files.lookup g := by
  grind

theorem lookup_advance : (files.map fun x => if x.1 = f then (f, x.2 + 1) else x).lookup g =
      if g = f then (files.lookup f).map (· + 1) else files.lookup g := by
  induction files with
  | nil => simp
  | cons x files ih => grind

/-! ## Runs -/

/-- the allocator is sound, the vinode knows a copy while a stream is open, and each stream has got the entries up to
its offset -/
structure Good (d : Dir) (t : St × Seen) : Prop where
  pages : ∃ l, Inv t.1.pmm l
  copy : t.1.files ≠ [] → Snap d t.1.pmm t.1.i_fs_info
  seen : ∀ f offset, t.1.files.lookup f = some offset → t.2 f = d.entries.take offset ∧ offset ≤ d.entries.length

theorem ne_nil_of_lookup (h : files.lookup f = some offset) : files ≠ [] := by
  rintro rfl
  cases h

/-- what a call can do -/
inductive Acts (d : Dir) (s : St) : Op → Option Entry → St → Prop
  | opendir {f info : ℕ} {pmm : Pmm.St} (hrun : vfsOpendir d s.pmm = .ok (info, pmm)) :
    Acts d s (.opendir f) none ⟨pmm, info, (f, 0) :: s.files⟩
  | stay {f offset : ℕ} (hf : s.files.lookup f = some offset) (he : rfsReaddir d s.i_fs_info offset s.pmm = none) :
    Acts d s (.readdir f) none s
  | readdir {f offset : ℕ} {e : Entry} (hf : s.files.lookup f = some offset)
    (he : rfsReaddir d s.i_fs_info offset s.pmm = some e) :
    Acts d s (.readdir f) (some e) { s with files := s.files.map fun x => if x.1 = f then (f, x.2 + 1) else x }
  | closedir {f offset : ℕ}
    {pmm : Pmm.St} (hf : s.files.lookup f = some offset) (hrun : rfsHookClosedir s.i_fs_info s.pmm = .ok ((), pmm)) :
    Acts d s (.closedir f) none ⟨pmm, s.i_fs_info, s.files.filter (·.1 ≠ f)⟩

variable {r : Option Entry}

theorem act_cases {s s' : St} {op : Op} (h : act d s op = .ok (r, s')) : Acts d s op r s' := by
  cases op with
  | opendir f =>
    cases hf : s.files.lookup f with
    | some offset =>
      simp only [act, hf] at h
      cases h
    | none =>
      simp only [act, hf] at h
      obtain ⟨_, hrun, hr⟩ := map_ok h
      cases hr
      exact .opendir hrun
  | readdir f =>
    cases hf : s.files.lookup f with
    | none =>
      simp only [act, hf] at h
      cases h
    | some offset =>
      cases he : rfsReaddir d s.i_fs_info offset s.pmm with
      | none =>
        simp only [act, hf, he] at h
        cases h
        exact .stay hf he
      | some e =>
        simp only [act, hf, he] at h
        cases h
        exact .readdir hf he
  | closedir f =>
    cases hf : s.files.lookup f with
    | none =>
      simp only [act, hf] at h
      cases h
    | some offset =>
      simp only [act, hf] at h
      obtain ⟨_, hrun, hr⟩ := map_ok h
      cases hr
      exact .closedir hf hrun

def noted (op : Op) (r : Option Entry) (seen : Seen) : Seen :=
  match op, r with
  | .opendir f, _ => update seen f []
  | .readdir f, some e => update seen f (seen f ++ [e])
  | _, _ => seen

theorem record_eq {s s' : St} {op : Op} (h : act d s op = .ok (r, s')) : record d s op s' seen = noted op r seen := by
  cases op with
  | opendir f => rfl
  | readdir f => cases r <;> simp only [record, h, noted]
  | closedir f => rfl

theorem Good.step {s s' : St} {seen : Seen} {op : Op} (h : Good d (s, seen)) (halone : Alone s op)
    (hact : act d s op = .ok (r, s')) : Good d (s', noted op r seen) := by
  obtain ⟨⟨l, hinv⟩, hcopy, hseen⟩ := h
  cases act_cases hact with
  | @opendir f info pmm hrun =>
    obtain ⟨hpages, hsnap⟩ := vfsOpendir_run hinv hrun
    refine ⟨hpages, fun _ => hsnap, ?_⟩
    intro g offset hg
    rw [lookup_cons_ite] at hg
    by_cases hgf : g = f
    · subst hgf
      rw [if_pos rfl] at hg
      cases hg
      exact ⟨update_self _ _ _, Nat.zero_le _⟩
    · rw [if_neg hgf] at hg
      exact ⟨(update_of_ne hgf _ _).trans (hseen g offset hg).1, (hseen g offset hg).2⟩
  | stay hf he => exact ⟨⟨l, hinv⟩, hcopy, hseen⟩
  | @readdir f offset e hf he =>
    have hsnap := hcopy (ne_nil_of_lookup hf)
    have hget : d.entries[offset]? = some e := (rfsReaddir_eq hsnap).symm.trans he
    refine ⟨⟨l, hinv⟩, fun _ => hsnap, ?_⟩
    intro g o hg
    rw [lookup_advance] at hg
    by_cases hgf : g = f
    · subst hgf
      rw [if_pos rfl, hf] at hg
      cases hg
      obtain ⟨hlt, -⟩ := List.getElem?_eq_some_iff.1 hget
      refine ⟨?_, hlt⟩
      show update seen g (seen g ++ [e]) g = _
      have hsofar : seen g = d.entries.take offset := (hseen g offset hf).1
      rw [update_self, hsofar]
      exact (List.take_add_one.trans (by rw [hget]; rfl)).symm
    · rw [if_neg hgf] at hg
      exact ⟨(update_of_ne hgf _ _).trans (hseen g o hg).1, (hseen g o hg).2⟩
  | @closedir f offset pmm hf hrun =>
    obtain ⟨pmm', l', hrun', hinv'⟩ := rfsHookClosedir_run hinv (hcopy (ne_nil_of_lookup hf))
    rw [hrun] at hrun'
    cases hrun'
    -- no other stream is open
    have hnil : s.files.filter (·.1 ≠ f) = [] := by
      rw [List.filter_eq_nil_iff]
      intro x hx
      simpa using halone x hx
    refine ⟨⟨l', hinv'⟩, fun hne => absurd hnil hne, ?_⟩
    intro g o hg
    grind

theorem good_reach {t : St × Seen} (h : Reach (logged (step d) (record d)) (fun t op => Alone t.1 op) Start t) :
    Good d t := by
  refine h.inv (P := Good d) ?_ ?_
  swap
  · intro t op t' hgood halone hstep
    obtain ⟨s, seen⟩ := t
    obtain ⟨s', seen'⟩ := t'
    obtain ⟨hst, hrecord⟩ := logged_ok.1 hstep
    obtain ⟨⟨r, s1⟩, hact, rfl⟩ := map_ok hst
    obtain rfl : seen' = record d s op s1 seen := hrecord
    rw [record_eq hact]
    exact hgood.step halone hact
  intro t hstart
  obtain ⟨hpages, hfiles⟩ := hstart
  refine ⟨hpages, fun hne => absurd hfiles hne, ?_⟩
  intro f offset hf
  rw [hfiles] at hf
  cases hf

/-- **Streams.** A stream has been given the entries up to its offset, in order, and `readdir` gives the next one, or -1
at the end. A page that `closedir` frees is in use, is freed once, and no other stream is open. -/
theorem streams_enumerate {t : St × Seen} (h : Reach (logged (step d) (record d)) (fun t op => Alone t.1 op) Start t) :
    (∀ f offset, t.1.files.lookup f = some offset → t.2 f = d.entries.take offset ∧ offset ≤ d.entries.length ∧
      ∃ s', act d t.1 (.readdir f) = .ok (d.entries[offset]?, s')) ∧
    ∀ f offset, t.1.files.lookup f = some offset → Alone t.1 (.closedir f) →
      (∃ s', act d t.1 (.closedir f) = .ok (none, s')) ∧ (∀ x ∈ t.1.files, x.1 = f) ∧
      (freed t.1).Nodup ∧ ∀ pa ∈ freed t.1, Pmm.getPageRef t.1.pmm pa = 1 := by
  obtain ⟨⟨l, hinv⟩, hcopy, hseen⟩ := good_reach h
  refine ⟨?_, ?_⟩
  · intro f offset hf
    have hread : rfsReaddir d t.1.i_fs_info offset t.1.pmm = d.entries[offset]? :=
      rfsReaddir_eq (hcopy (ne_nil_of_lookup hf))
    refine ⟨(hseen f offset hf).1, (hseen f offset hf).2, ?_⟩
    rw [← hread]
    cases he : rfsReaddir d t.1.i_fs_info offset t.1.pmm with
    | none => exact ⟨t.1, by simp only [act, hf, he]⟩
    | some e => exact ⟨{ t.1 with files := t.1.files.map fun x => if x.1 = f then (f, x.2 + 1) else x },
      by simp only [act, hf, he]⟩
  · intro f offset hf halone
    have hsnap := hcopy (ne_nil_of_lookup hf)
    obtain ⟨pmm, l', hrun, -⟩ := rfsHookClosedir_run hinv hsnap
    obtain ⟨b, hcopied, hcount, hbase⟩ := hsnap
    have hfreed : freed t.1 = (List.range d.blocks).map fun i => Pmm.page t.1.pmm (b + i) := by
      unfold freed
      rw [hcount, hbase]
      exact List.map_congr_left fun i _ => page_add.symm
    refine ⟨⟨⟨pmm, t.1.i_fs_info, t.1.files.filter (·.1 ≠ f)⟩, by simp only [act, hf, hrun, Except.map]⟩, halone, ?_,
      ?_⟩
    · rw [hfreed]
      refine List.Nodup.map (fun i j he => ?_) List.nodup_range
      have := Pmm.page_injective.1 he
      omega
    · intro pa hpa
      rw [hfreed] at hpa
      obtain ⟨i, hi, rfl⟩ := List.mem_map.1 hpa
      have hone := (hcopied i (by rw [Nat.zero_add]; exact List.mem_range.1 hi)).1
      rw [hinv.layout.ref_page (hinv.lt (by rw [hone])), hone]

/-- a directory with one entry: the inode 1 under the name a -/
def oneEntry : Dir where
  size := 32
  blocks := 1
  block _ := fun x => if x = 0 then 1 else if x = 4 then 97 else 0
  pos := by decide
  few := by decide
  fits := by decide
  names := by decide +kernel

def bootPages : Pmm.St :=
  match Pmm.pmmInit (Pmm.KERN_BASE + PGSIZE + 12) (9 * PGSIZE) ⟨fun _ => 0, fun _ => 0, 0, 0, 0⟩ with
  | .ok (_, s) => s
  | .error _ => ⟨fun _ => 0, fun _ => 0, 0, 0, 0⟩

theorem bootPages_initialized : Pmm.Initialized bootPages :=
  ⟨⟨fun _ => 0, fun _ => 0, 0, 0, 0⟩, Pmm.KERN_BASE + PGSIZE + 12, 9 * PGSIZE, fun _ => rfl, by decide, by rfl⟩

def bootStreams : St × Seen := (⟨bootPages, 0, []⟩, fun _ => [])

theorem bootStreams_start : Start bootStreams := ⟨(Pmm.initialized_inv bootPages_initialized).1, rfl⟩

/-- the directory is opened twice, and read through both streams -/
def bothRead : St × Seen :=
  exec (logged (step oneEntry) (record oneEntry)) bootStreams [.opendir 0, .readdir 0, .opendir 1,
    .readdir 1, .readdir 1]

theorem streams_enumerate_bothRead : bothRead.2 0 = oneEntry.entries ∧ bothRead.2 1 = oneEntry.entries ∧
    ∃ s', act oneEntry bothRead.1 (.readdir 0) = .ok (none, s') := by
  have hreach : Reach (logged (step oneEntry) (record oneEntry)) (fun t op => Alone t.1 op) Start bothRead :=
    reach_decide _ bootStreams
      (.init bootStreams_start) (by decide +kernel)
  have hread := (streams_enumerate hreach).1
  have hall : oneEntry.entries.take 1 = oneEntry.entries := by decide +kernel
  obtain ⟨h0, -, hend⟩ := hread 0 1 (by decide +kernel)
  obtain ⟨h1, -, -⟩ := hread 1 1 (by decide +kernel)
  exact ⟨h0.trans hall, h1.trans hall, hend⟩

/-- two streams are open, and the first one is closed -/
def oneClosed : St × Seen :=
  exec (logged (step oneEntry) (record oneEntry)) bootStreams [.opendir 0, .opendir 1, .closedir 0]

/-- The second stream is open and has got nothing, and the page it reads is in the free list: `readdir` gives no entry
of the directory, and closing the stream frees that page again. -/
theorem shared_copy_freed : Reach (logged (step oneEntry) (record oneEntry)) (fun _ _ => True) Start oneClosed ∧
    oneClosed.1.files = [(1, 0)] ∧ oneEntry.entries[0]? = some ⟨str [97], 1⟩ ∧
    (act oneEntry oneClosed.1 (.readdir 1)).toOption.map Prod.fst = some (some ⟨[], 0⟩) ∧
    freed oneClosed.1 = [oneClosed.1.pmm.g_free_mem_list] ∧
      Pmm.getPageRef oneClosed.1.pmm oneClosed.1.pmm.g_free_mem_list = 0 :=
  ⟨reach_decide _ bootStreams (.init bootStreams_start) (by decide +kernel),
    by decide +kernel, by decide +kernel, by decide +kernel, by decide +kernel, by decide +kernel⟩

end RiscvPke.Streams
