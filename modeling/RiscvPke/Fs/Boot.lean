/-
The state after `fs_init`: a formatted disk with an empty root directory, the host's root and the mount point in the
caches.
-/
import RiscvPke.Fs.Calls

namespace RiscvPke.Fs

open Function CData RiscvPke.Count Run

variable {s : St} {a : Afs} {n : ℕ} {E : Fault → Prop}

/-! ## The disk -/

/-- what `rfs_format_dev` writes -/
structure Formatted (s : St) : Prop where
  magic : loadInt (s.blocks 0) 0 = RFS_MAGIC
  size : (s.dinode 0).size = 0
  type : (s.dinode 0).type = DIR_I
  blocks : (s.dinode 0).blocks = 1
  addrs : (s.dinode 0).addrs 0 = 12
  free : ∀ n, n ≠ 0 → (s.dinode n).type = R_FREE
  map : ∀ b < NBLOCKS, loadInt (s.blocks RFS_BLK_OFFSET_BITMAP) (4 * b) = if b = 0 then 1 else 0

theorem spec_run {α : Type} {x : F α} {r : α} {s' : St} {Q : α → St → Prop} (hx : x s = .ok (r, s')) (h : Q r s') :
    Spec id E s x Q := by
  intro s0 hs
  obtain rfl : s0 = s := hs
  rw [hx]
  exact h

def emptyInodes (b : Buf) (k : ℕ) : Buf :=
  (List.range k).foldl (fun b i => storeInts b (i * RFS_INODESIZE) [0, R_FREE, 0, 0]) b

theorem emptyInodes_type {b : Buf} {j k : ℕ} (hj : j < k) : loadInt (emptyInodes b k) (128 * j + 4) = R_FREE := by
  induction k with
  | zero => omega
  | succ k ih =>
    have hstep : emptyInodes b (k + 1) = storeInts (emptyInodes b k) (k * 128) [0, R_FREE, 0, 0] := by
      unfold emptyInodes
      rw [List.range_succ, List.foldl_append]
      rfl
    rw [hstep]
    by_cases hjk : j = k
    · rw [hjk, show 128 * k + 4 = k * 128 + 4 * 1 by omega]
      exact loadInt_storeInts rfl (by decide)
    · grind [loadInt_congr, storeInts_of_not]

def rootDinode (rest : Fin DIRECT_BLKNUM → ℤ) : Dinode :=
  { size := 0, type := DIR_I, nlinks := 1, blocks := 1, addrs := update rest 0 RFS_BLK_OFFSET_FREE }

variable {iobuffer : Buf}

theorem formatted_of {b : Buf} {r : Fin DIRECT_BLKNUM → ℤ} {blocks : ℕ → Buf}
    (hmagic : loadInt (s.blocks 0) 0 = RFS_MAGIC)
    (hinodes : ∀ k, 1 ≤ k → k ≤ 10 → ∀ i < 4096, s.blocks k i = emptyInodes b 32 i)
    (hblocks : ∀ k, k ≠ 11 → blocks k = (s.writeInode 0 (rootDinode r)).blocks k)
    (hmap : ∀ c < 100, loadInt (blocks 11) (4 * c) = if c = 0 then 1 else 0) :
    Formatted { s with blocks := blocks, iobuffer := iobuffer } := by
  have hninodes : NINODES = 320 := rfl
  have hblksize : RFS_BLKSIZE = 4096 := rfl
  have hdinode : ∀ n, St.dinode
    { s with blocks := blocks, iobuffer := iobuffer } n = (s.writeInode 0 (rootDinode r)).dinode n := by
    intro n
    apply dinode_congr
    intro k _ hk
    exact hblocks k (by omega)
  have hstored : ∀ i < 4096, (s.writeInode 0 (rootDinode r)).blocks 1 i =
      storeInts (copyBlock s.iobuffer (s.blocks 1)) 0 (rootDinode r).ints i := by
    intro i hi
    show update s.blocks 1 (copyBlock _ _) 1 i = _
    rw [update_self, copyBlock_of_lt hi]
  -- an `int` of the root's inode
  have hfield : ∀ j x, (rootDinode r).ints[j]? = some x → j < 14 → IsInt x →
      loadInt ((s.writeInode 0 (rootDinode r)).blocks 1) (4 * j) = x := by
    intro j x hx hj hi
    rw [← loadInt_storeInts (b := copyBlock s.iobuffer (s.blocks 1)) (a := 0) hx hi, Nat.zero_add]
    apply loadInt_congr
    intro i hi
    exact hstored _ (by omega)
  have hroot : (s.writeInode 0 (rootDinode r)).dinode 0 = loadDinode ((s.writeInode 0 (rootDinode r)).blocks 1) 0 := rfl
  constructor
  · rw [← hmagic]
    show loadInt (blocks 0) 0 = _
    rw [hblocks 0 (by decide)]
    rfl
  · rw [hdinode, hroot]
    exact hfield 0 0 rfl (by decide) (by decide)
  · rw [hdinode, hroot]
    exact hfield 1 DIR_I rfl (by decide) (by decide)
  · rw [hdinode, hroot]
    exact hfield 3 1 rfl (by decide) (by decide)
  · rw [hdinode, hroot]
    exact hfield 4 12 (ints_addrs 0) (by decide) (by decide)
  · intro n hn
    rw [hdinode, St.dinode]
    split_ifs with hlt
    · rw [← emptyInodes_type (b := b) (Nat.mod_lt n (by decide : 32 > 0))]
      apply loadInt_congr
      intro i hi
      by_cases hblk : n / 32 = 0
      · -- behind the root's inode
        rw [hblk, hstored _ (by omega), storeInts_of_not (by rw [ints_length]; omega), copyBlock_of_lt (by omega)]
        exact hinodes 1 (by decide) (by decide) _ (by omega)
      · have hne : n / 32 + 1 ≠ 0 / 32 + 1 := by omega
        show update s.blocks (0 / 32 + 1) _ (n / 32 + 1) _ = _
        rw [update_of_ne hne]
        exact hinodes _ (by omega) (by omega) _ (by omega)
    · rfl
  · exact hmap

theorem bitmap_load {b io : Buf} {c : ℕ} (hc : c < NBLOCKS) :
    loadInt (copyBlock b (storeInt (copyBlock io fun _ => 0) 0 1)) (4 * c) = if c = 0 then 1 else 0 := by
  have hblksize : RFS_BLKSIZE = 4096 := rfl
  split_ifs with h0
  · have hone : loadInt (copyBlock b (storeInt (copyBlock io fun _ => 0) 0 1)) (4 * c) =
        loadInt (storeInt (copyBlock io fun _ => 0) 0 1) 0 := by
      rw [h0]
      apply loadInt_congr
      intro i hi
      exact copyBlock_of_lt (by omega)
    rw [hone]
    exact loadInt_storeInt (by decide)
  · grind [loadInt_eq_zero, copyBlock_of_lt, storeInt_of_not]

theorem rfsFormatDev_spec {rest : Fin DIRECT_BLKNUM → ℤ} {Q : Unit → St → Prop}
    (hQ : ∀ blocks iobuffer, Formatted { s with blocks := blocks, iobuffer := iobuffer } →
      Q () { s with blocks := blocks, iobuffer := iobuffer }) : Spec id E s (rfsFormatDev rest) Q := by
  have hblksize : RFS_BLKSIZE = 4096 := rfl
  have hblockcount : RAMDISK_BLOCK_COUNT = 128 := rfl
  apply spec_get_bind
  intro s0 hs
  obtain rfl : s0 = s := hs
  apply Spec.seq
  refine spec_run setIobuffer_run ?_
  apply Spec.seq
  refine spec_run (ramdiskWrite_run (k := 0) (by decide)) ?_
  apply spec_get_bind
  intro s1 hs1
  obtain rfl : _ = s1 := hs1.symm
  apply Spec.seq
  refine spec_run setIobuffer_run ?_
  -- the superblock is written and the empty inodes are in the buffer
  generalize hsb : storeInts s0.iobuffer 0 [RFS_MAGIC, 1 + RFS_MAX_INODE_BLKNUM + 1 + NBLOCKS, NBLOCKS, NINODES] = sb
  refine Spec.bind (spec_forRange (fun i (x : St) => ∃ blocks,
    x = { s0 with blocks := blocks, iobuffer := emptyInodes sb 32 } ∧
    loadInt (blocks 0) 0 = RFS_MAGIC ∧ ∀ k, 1 ≤ k → k ≤ i → ∀ j < 4096, blocks k j = emptyInodes sb 32 j) ?_ ?_) ?_
  · refine ⟨_, rfl, ?_, fun k h1 h2 => by omega⟩
    show loadInt (update s0.blocks 0 (copyBlock (s0.blocks 0) sb) 0) 0 = RFS_MAGIC
    rw [update_self]
    have hload : loadInt sb 0 = RFS_MAGIC := by
      rw [← hsb]
      exact loadInt_storeInts (k := 0) rfl (by decide)
    rw [← hload]
    apply loadInt_congr
    intro i hi
    exact copyBlock_of_lt (by omega)
  · rintro i x hi ⟨blocks, rfl, hmagic, hdone⟩
    have hcast : (RFS_BLK_OFFSET_INODE : ℤ) + (i : ℤ) = ((1 + i : ℕ) : ℤ) := by
      push_cast
      rfl
    rw [hcast]
    have hi : i < 10 := hi
    refine spec_run (ramdiskWrite_run (by omega)) ⟨_, rfl, ?_, ?_⟩
    · rw [update_of_ne (by omega)]
      exact hmagic
    · intro k h1 h2 j hj
      by_cases hk : k = 1 + i
      · rw [hk, update_self, copyBlock_of_lt hj]
      · rw [update_of_ne hk]
        exact hdone k h1 (by omega) j hj
  · rintro _ x ⟨blocks, rfl, hmagic, hdone⟩
    apply Spec.seq
    refine spec_run (rfsWriteDinode_run (n := 0) (d := rootDinode rest) (by decide)) ?_
    apply spec_get_bind
    intro s2 hs2
    obtain rfl : _ = s2 := hs2.symm
    apply Spec.seq
    refine spec_run setIobuffer_run ?_
    refine spec_run (ramdiskWrite_run (k := 11) (by decide)) ?_
    refine hQ _ _ (formatted_of (s := { s0 with blocks := blocks, iobuffer := emptyInodes sb 32 }) (b := sb)
      (r := rest) hmagic hdone ?_ ?_)
    · intro k hk
      exact update_of_ne hk _ _
    · intro c hc
      rw [update_self]
      exact bitmap_load hc

/-! ## The caches -/

def hostInode (ref : ℤ) : Vinode :=
  { size := 0, type := DIR_I, nlinks := 0, blocks := 0, addrs := fun _ => 0, inum := -1, ref := ref, host := true }

def hostMounted (m : Mem) : Mem :=
  { m with
    vinodes := update m.vinodes 0 (some (hostInode 1))
    dentries := update m.dentries 1 (some ⟨[slash], 0, some 0, none⟩)
    next := 2
    dentry_hash := update m.dentry_hash (none, [slash]) (some 1)
    vfs_root_dentry := 1 }

theorem mountHost_run {blocks : ℕ → Buf} : mountHost (reset blocks iobuffer) =
    .ok ((), { hostMounted (reset blocks iobuffer).toMem with blocks := blocks, iobuffer := iobuffer }) := by
  have hrun : mountHost (reset blocks iobuffer) = .ok ((),
      { (reset blocks iobuffer) with
        vinodes := update (update (reset blocks iobuffer).vinodes 0 (some (hostInode 0))) 0 (some (hostInode 1))
        dentries := update (reset blocks iobuffer).dentries 1 (some ⟨[slash], 0, some 0, none⟩)
        next := 2
        dentry_hash := update (reset blocks iobuffer).dentry_hash (none, [slash]) (some 1)
        vfs_root_dentry := 1 }) := rfl
  rw [hrun, update_idem]
  rfl

def rootInode (d : Dinode) (ref : ℤ) : Vinode := { toDinode := d, inum := 0, ref := ref, host := false }

theorem spec_step {α β : Type} {x : F α} {g : α → F β} {R : α → Afs → Prop} {Q : β → St → Prop} (ha : abs s = a)
    (hx : Spec abs (fun _ => False) a x R) (hk : Keeps St.blocks x)
    (hg : ∀ r s', R r (abs s') → s'.blocks = s.blocks → Spec id E s' (g r) Q) : Spec id E s (x >>= g) Q := by
  intro s0 hs
  obtain rfl : s0 = s := hs
  have hrun := hx s0 ha
  cases hres : x s0 with
  | error e =>
    rw [hres] at hrun
    exact hrun.elim
  | ok res =>
    rw [hres] at hrun
    show System.Ends E (x s0 >>= _) _
    rw [hres]
    exact hg res.1 res.2 hrun (hk _ _ _ hres) res.2 rfl

theorem keeps_ramdiskRead {x : ℤ} : Keeps St.blocks (ramdiskRead x) := by
  unfold ramdiskRead
  split_ifs
  · exact keeps_throw.bind fun _ => keeps_modify fun _ => rfl
  · exact keeps_modify fun _ => rfl

theorem keeps_vinodeAt {v : ℕ} : Keeps St.blocks (vinodeAt v) := by
  refine keeps_get_bind fun s r s' hs => ?_
  cases hv : s.vinodes v with
  | none =>
    rw [hv] at hs
    cases hs
  | some V =>
    rw [hv] at hs
    cases hs
    rfl

theorem keeps_rfsUpdateVinode {v : ℕ} : Keeps St.blocks (rfsUpdateVinode v) := by
  refine keeps_vinodeAt.bind fun V => Keeps.bind ?_ fun d => keeps_modify fun _ => rfl
  refine keeps_ramdiskRead.bind fun _ => ?_
  dsimp only
  split_ifs
  · exact keeps_throw.bind fun _ => keeps_get.bind fun _ => keeps_pure
  · exact keeps_get.bind fun _ => keeps_pure

theorem keeps_allocVfsDentry {name : CString} {v : ℕ} {parent : Option ℕ} :
    Keeps St.blocks (allocVfsDentry name (some v) parent) := by
  refine keeps_get_bind fun s r s' hs => ?_
  obtain ⟨_, _, ⟨⟩, hs⟩ := run_bind.1 hs
  obtain ⟨_, s2, h2, hs⟩ := run_bind.1 hs
  cases hs
  have hup : Keeps St.blocks (refUp v) := keeps_vinodeAt.bind fun V => keeps_modify fun _ => rfl
  have hkept := hup _ _ _ h2
  exact hkept

def ramdiskMounted (a : Afs) (used : ℕ → Bool) : Afs :=
  { a with
    used := used
    vinodes := update a.vinodes 2 (some (rootInode (a.dinode 0) 1))
    dentries := update a.dentries 3 (some ⟨ramdisk0, 0, some 2, some 1⟩)
    next := 4
    vinode_hash := update a.vinode_hash 0 (some 2)
    dentry_hash := update a.dentry_hash (some 1, ramdisk0) (some 3) }

theorem spec_abs {α : Type} {x : F α} {Q : α → Afs → Prop} (h : Spec abs E (abs s) x Q) : Spec id E s x fun r s' =>
    Q r (abs s') := by
  intro s0 hs
  obtain rfl : s0 = s := hs
  exact h s0 rfl

theorem Formatted.map_load (hf : Formatted s) {io : Buf} {b : ℕ} (hb : b < NBLOCKS) :
    (loadInt (copyBlock io (s.blocks RFS_BLK_OFFSET_BITMAP)) (4 * b) != 0) = decide (b = 0) := by
  have hnblocks : NBLOCKS = 100 := rfl
  have hblksize : RFS_BLKSIZE = 4096 := rfl
  have hload : loadInt (copyBlock io (s.blocks RFS_BLK_OFFSET_BITMAP)) (4 * b) = if b = 0 then 1 else 0 := by
    rw [← hf.map b hb]
    apply loadInt_congr
    intro i hi
    exact copyBlock_of_lt (by omega)
  rw [hload]
  split_ifs with h0 <;> simp [h0]

theorem abs_used {used : ℕ → Bool} :
    abs { s with used := used, iobuffer := iobuffer } = { abs s with used := used } := by
  have hdinode : St.dinode { s with used := used, iobuffer := iobuffer } = s.dinode := by
    funext n
    exact dinode_congr fun _ _ _ => rfl
  have hdir : St.dir { s with used := used, iobuffer := iobuffer } = s.dir := by
    funext n
    exact dir_congr (congrFun hdinode n) fun _ => rfl
  unfold abs
  rw [hdinode, hdir]

theorem mountRamdisk_spec {Q : Unit → Afs → Prop} (hf : Formatted s) (ha : abs s = a) (hnext : a.next = 2)
    (hroot : a.vfs_root_dentry = 1) (hv : a.vinode_hash 0 = none) (hd : a.dentry_hash (some 1, ramdisk0) = none)
    (hQ : ∀ used, (∀ b < NBLOCKS, used b = decide (b = 0)) → Q () (ramdiskMounted a used)) :
    Spec id E s mountRamdisk fun r s' => Q r (abs s') := by
  have hblksize : RFS_BLKSIZE = 4096 := rfl
  have hmagic : loadInt (copyBlock s.iobuffer (s.blocks 0)) 0 = RFS_MAGIC := by
    rw [← hf.magic]
    apply loadInt_congr
    intro i hi
    exact copyBlock_of_lt (by omega)
  apply Spec.seq
  refine spec_run (ramdiskRead_run (k := 0) (by decide)) ?_
  apply spec_get_bind
  intro s1 hs1
  obtain rfl : _ = s1 := hs1.symm
  rw [if_neg (not_not.2 hmagic)]
  have hself : ∀ V : Vinode, update a.vinodes 2 (some V) 2 = some V := fun V => update_self _ _ _
  have hself' : ∀ (f : ℕ → Option Dentry) De, update f 3 (some De) 3 = some De := fun f De => update_self _ _ _
  -- the vinode and the dentry of the root directory
  refine spec_step (R := fun r x => r = 2 ∧
    x = { a with vinodes := update a.vinodes 2 (some (rootInode ⟨0, 0, 0, 0, fun _ => 0⟩ 0)), next := 3 })
    ha (allocVinode_spec ?_) (fun _ _ _ hr => by cases hr; rfl) ?_
  · rw [hnext]
    exact ⟨rfl, rfl⟩
  rintro _ s2 ⟨rfl, h2⟩ hb2
  refine spec_step
    (R := fun _ x => x = { a with vinodes := update a.vinodes 2 (some (rootInode (a.dinode 0) 0)), next := 3 })
    h2 (rfsUpdateVinode_spec (n := 0) (V := rootInode ⟨0, 0, 0, 0, fun _ => 0⟩ 0) (hself _) (by decide) rfl ?_)
    keeps_rfsUpdateVinode ?_
  · rw [update_idem]
    rfl
  intro _ s3 h3 hb3
  refine spec_step (R := fun r x => r = 3 ∧ x = { a with
      vinodes := update a.vinodes 2 (some (rootInode (a.dinode 0) 1))
      dentries := update a.dentries 3 (some ⟨[slash], 0, some 2, none⟩)
      next := 4 }) h3 (allocVfsDentry_inode (V := rootInode (a.dinode 0) 0) (hself _) ?_) keeps_allocVfsDentry ?_
  · rw [update_idem]
    exact ⟨rfl, rfl⟩
  rintro _ s4 ⟨rfl, h4⟩ hb4
  -- the map of the blocks
  have hmap : ∀ b < 100, (loadInt (copyBlock s4.iobuffer (s4.blocks 11)) (4 * b) != 0) = decide (b = 0) := by
    intro b hb
    rw [show s4.blocks = s.blocks from hb4.trans (hb3.trans hb2)]
    exact hf.map_load hb
  have key := hQ _ hmap
  obtain ⟨used, hu⟩ : ∃ used, (fun b => loadInt (copyBlock s4.iobuffer (s4.blocks 11)) (4 * b) != 0) = used := ⟨_, rfl⟩
  rw [hu] at key
  apply Spec.seq
  refine spec_run (ramdiskRead_run (k := 11) (by decide)) ?_
  apply Spec.seq
  refine spec_run rfl ?_
  have h5 : abs { s4 with used := used, iobuffer := copyBlock s4.iobuffer (s4.blocks 11) } =
      { a with
        used := used
        vinodes := update a.vinodes 2 (some (rootInode (a.dinode 0) 1))
        dentries := update a.dentries 3 (some ⟨[slash], 0, some 2, none⟩)
        next := 4 } := by
    rw [abs_used, h4]
  -- the hash tables
  apply spec_abs
  dsimp only
  rw [hu, h5]
  apply Spec.seq
  refine hashPutVinode_spec (V := rootInode (a.dinode 0) 1) (hself _) le_rfl (by exact hv) ?_
  refine dentryAt_spec (D := ⟨[slash], 0, some 2, none⟩) (hself' a.dentries _) ?_
  apply spec_get_bind
  intro s6 h6
  have hroot6 : s6.vfs_root_dentry = 1 := by
    have hproj := congrArg (fun x : Afs => x.vfs_root_dentry) h6
    exact hproj.trans hroot
  rw [hroot6]
  apply Spec.seq
  apply setDentry_spec
  refine hashPutDentry_spec (D := ⟨ramdisk0, 0, some 2, some 1⟩)
    (hself' (update a.dentries 3 (some ⟨[slash], 0, some 2, none⟩)) _) (by exact hd) ?_
  rw [update_idem]
  exact key

/-- the state after `fs_init` -/
structure Booted (a : Afs) : Prop where
  next : a.next = 4
  vinodes : ∀ v V, a.vinodes v = some V ↔ v = 0 ∧ V = hostInode 1 ∨ v = 2 ∧ V = rootInode (a.dinode 0) 1
  dentries : ∀ d De, a.dentries d = some De ↔
    d = 1 ∧ De = ⟨[slash], 0, some 0, none⟩ ∨ d = 3 ∧ De = ⟨ramdisk0, 0, some 2, some 1⟩
  vinode_hash : ∀ k v, a.vinode_hash k = some v ↔ k = 0 ∧ v = 2
  dentry_hash : ∀ key d, a.dentry_hash key = some d ↔ key = (none, [slash]) ∧ d = 1 ∨ key = (some 1, ramdisk0) ∧ d = 3
  root : a.vfs_root_dentry = 1
  pfiles : ∀ p, a.pfiles p = ⟨1, fun _ => none, 0⟩
  used : ∀ b < NBLOCKS, a.used b = decide (b = 0)
  size : (a.dinode 0).size = 0
  type : (a.dinode 0).type = DIR_I
  blocks : (a.dinode 0).blocks = 1
  addrs : (a.dinode 0).addrs 0 = 12
  ints : ∀ n, (a.dinode n).Ints
  free : ∀ n, n ≠ 0 → (a.dinode n).type = R_FREE
  dir : ∀ n, a.dir n = []

theorem update_some {κ β : Type} [DecidableEq κ] {f : κ → Option β} {k x : κ} {y z : β} (h : f k = none) :
    update f k (some z) x = some y ↔ f x = some y ∨ x = k ∧ y = z := by
  grind

theorem boot_spec (h : Boot s) : Booted (abs s) := by
  obtain ⟨blocks, iobuffer, rest, hrun⟩ := h
  refine Spec.run (f := id) (Q := fun _ s' => Booted (abs s')) (E := fun _ => True) (r := ()) ?_ hrun
  apply Spec.seq
  refine spec_run mountHost_run ?_
  apply Spec.seq
  refine rfsFormatDev_spec fun blocks' iobuffer' hf => ?_
  refine Spec.bind (mountRamdisk_spec (Q := fun _ a' => ∃ used, (∀ b < 100, used b = decide (b = 0)) ∧
    a' = ramdiskMounted _ used)
    hf rfl rfl rfl rfl rfl fun used hused => ⟨used, hused, rfl⟩) ?_
  rintro _ s1 ⟨used, hused, h1⟩
  apply spec_modify
  intro s2 hs2
  obtain rfl : s2 = s1 := hs2
  have h2 : abs { s2 with pfiles := fun _ => ⟨s2.vfs_root_dentry, fun _ => none, 0⟩ } =
      { abs s2 with pfiles := fun _ => ⟨(abs s2).vfs_root_dentry, fun _ => none, 0⟩ } := rfl
  show Booted (abs { s2 with pfiles := fun _ => ⟨s2.vfs_root_dentry, fun _ => none, 0⟩ })
  rw [h2, h1]
  refine ⟨rfl, ?_, ?_, ?_, ?_, rfl, fun _ => rfl, hused, hf.size, hf.type, hf.blocks, hf.addrs,
    dinode_ints _, hf.free, ?_⟩
  · intro v V
    show update (update (fun _ => none) 0 (some (hostInode 1))) 2 _ v = some V ↔ _
    rw [update_some rfl, update_some rfl]
    simp only [reduceCtorEq, false_or]
    rfl
  · intro d De
    show update (update (fun _ => none) 1 (some _)) 3 (some _) d = some De ↔ _
    grind
  · intro k v
    show update (fun _ => none) 0 (some 2) k = some v ↔ _
    rw [update_some rfl]
    simp only [reduceCtorEq, false_or]
  · intro key d
    show update (update (fun _ => none) (none, [slash]) (some 1)) (some 1, ramdisk0) (some 3) key = some d ↔ _
    grind
  · intro n
    show St.dir _ n = []
    unfold St.dir
    split_ifs with ht
    · obtain rfl : n = 0 := by
        by_contra hn
        rw [hf.free n hn] at ht
        cases ht
      unfold totalDirentrys
      rw [hf.size]
      rfl
    · rfl

/-! ## The invariant -/

variable {v d p : ℕ} {V : Vinode} {De : Dentry}

section

variable (h : Booted a)

include h

theorem Booted.live : Live a n ↔ n = 0 := by
  unfold Live
  constructor
  · intro hl
    by_contra hn
    exact hl (h.free n hn)
  · rintro rfl
    rw [h.type]
    decide

theorem Booted.cur : a.cur = a.dinode := by
  funext n
  by_cases hn : n = 0
  · subst hn
    exact cur_of_cached ((h.vinode_hash 0 2).2 ⟨rfl, rfl⟩) ((h.vinodes 2 _).2 (.inr ⟨rfl, rfl⟩))
  · apply cur_of_none
    cases hk : a.vinode_hash n with
    | none => rfl
    | some v =>
      have := (h.vinode_hash _ _).1 hk
      omega

theorem Booted.links : a.links n = 0 := by
  unfold Afs.links
  simp [h.dir]

theorem Booted.vinode (hV : a.vinodes v = some V) (hr : V.host = false) : v = 2 ∧ V = rootInode (a.dinode 0) 1 := by
  rcases (h.vinodes v V).1 hV with ⟨-, rfl⟩ | hroot
  · cases hr
  · exact hroot

theorem Booted.node : Node Debts.none a 3 2 (rootInode (a.dinode 0) 1) where
  dentry := ⟨_, (h.dentries 3 _).2 (.inr ⟨rfl, rfl⟩), rfl⟩
  hashed := id
  vinode := (h.vinodes 2 _).2 (.inr ⟨rfl, rfl⟩)
  rfs := rfl
  tight := id

theorem Booted.disk : DiskInv a where
  live_lt n hn := by
    rw [h.live.1 hn]
    decide
  ints := h.ints
  root := h.type
  shape n hn := by
    rw [h.cur, h.live.1 hn]
    refine ⟨.inr h.type, ?_, ?_, fun _ => h.blocks⟩
    · rw [h.blocks]
      decide
    · rw [h.size, h.blocks]
      decide
  owned n i hn hi := by
    obtain rfl := h.live.1 hn
    rw [h.cur, h.blocks] at hi
    obtain rfl : i = 0 := by
      apply Fin.ext
      omega
    refine ⟨0, by decide, ?_, ?_⟩
    · rw [h.cur, h.addrs]
      rfl
    · rw [h.used 0 (by decide)]
      rfl
  exclusive n m i j hn hm hi hj _ := by
    obtain rfl := h.live.1 hn
    obtain rfl := h.live.1 hm
    rw [h.cur, h.blocks] at hi hj
    refine ⟨rfl, Fin.ext ?_⟩
    omega
  length p hp := by
    obtain rfl := h.live.1 (live_of_type (.inr hp))
    rw [h.dir, h.size]
    exact ⟨rfl, by decide⟩
  nil p _ := h.dir p
  entries p e he := by
    rw [h.dir] at he
    cases he

theorem Booted.cache : CacheInv Debts.none a where
  fresh v hv := by
    rw [h.next] at hv
    cases hV : a.vinodes v with
    | none => rfl
    | some V =>
      rcases (h.vinodes v V).1 hV with ⟨rfl, -⟩ | ⟨rfl, -⟩ <;> omega
  hashed k v hk := by
    obtain ⟨rfl, rfl⟩ := (h.vinode_hash k v).1 hk
    exact ⟨_, h.node.vinode, rfl, rfl, id⟩
  cached v V hV hr _ := by
    obtain ⟨rfl, rfl⟩ := h.vinode hV hr
    exact ⟨(h.vinode_hash 0 2).2 ⟨rfl, rfl⟩, h.ints 0, 0, rfl, h.live.2 rfl, rfl, fun _ => rfl, le_rfl, fun _ _ => rfl⟩

theorem Booted.tree : TreeInv Debts.none a where
  fresh d hd := by
    rw [h.next] at hd
    cases hD : a.dentries d with
    | none => rfl
    | some De =>
      rcases (h.dentries d De).1 hD with ⟨rfl, -⟩ | ⟨rfl, -⟩ <;> omega
  hashed key d hk := by
    rcases (h.dentry_hash key d).1 hk with ⟨rfl, rfl⟩ | ⟨rfl, rfl⟩
    · exact ⟨id, _, (h.dentries 1 _).2 (.inl ⟨rfl, rfl⟩), rfl⟩
    · exact ⟨id, _, (h.dentries 3 _).2 (.inr ⟨rfl, rfl⟩), rfl⟩
  placed d De hD _ := by
    rcases (h.dentries d De).1 hD with ⟨rfl, rfl⟩ | ⟨rfl, rfl⟩
    · refine ⟨(h.dentry_hash _ _).2 (.inl ⟨rfl, rfl⟩),
        .inl ⟨h.root.symm, rfl, 0, _, rfl, (h.vinodes 0 _).2 (.inl ⟨rfl, rfl⟩), rfl, rfl⟩⟩
    · refine ⟨(h.dentry_hash _ _).2 (.inr ⟨rfl, rfl⟩),
        .inr ⟨1, 2, _, rfl, by decide, h.node, .inl ⟨h.root.symm, rfl, rfl⟩⟩⟩
  root := by
    rw [h.root]
    exact ⟨_, (h.dentries 1 _).2 (.inl ⟨rfl, rfl⟩), id, rfl, 0, _, rfl, (h.vinodes 0 _).2 (.inl ⟨rfl, rfl⟩), rfl, rfl⟩
  mount := by
    rw [h.root]
    exact ⟨3, (h.dentry_hash _ _).2 (.inr ⟨rfl, rfl⟩)⟩
  files p fd file hf := by
    rw [h.pfiles] at hf
    cases hf
  cwd p := by
    rw [h.pfiles, h.root]
    exact .inl rfl

theorem Booted.count : CountInv Debts.none a where
  refs v V hV hr _ := by
    obtain ⟨rfl, rfl⟩ := h.vinode hV hr
    refine ⟨1, ⟨{(some 1, ramdisk0)}, fun key => ?_, rfl⟩, rfl⟩
    rw [Finset.mem_singleton]
    constructor
    · rintro rfl
      unfold Afs.holder
      rw [(h.dentry_hash _ 3).2 (.inr ⟨rfl, rfl⟩)]
      simp only [Option.bind_some]
      rw [(h.dentries 3 _).2 (.inr ⟨rfl, rfl⟩)]
      rfl
    · intro hk
      obtain ⟨d, hd, hk⟩ := Option.bind_eq_some_iff.1 hk
      obtain ⟨De, hDe, hk⟩ := Option.bind_eq_some_iff.1 hk
      rcases (h.dentry_hash key d).1 hd with ⟨-, rfl⟩ | ⟨he, -⟩
      · rcases (h.dentries 1 De).1 hDe with ⟨-, rfl⟩ | ⟨hne, -⟩
        · cases hk
        · cases hne
      · exact he
  links n hn := by
    obtain rfl := h.live.1 (live_of_type (.inl hn))
    rw [h.type] at hn
    cases hn
  memory v V n hV hr _ hf _ := by
    obtain ⟨-, rfl⟩ := h.vinode hV hr
    have hf : (a.dinode 0).type = FILE_I := hf
    rw [h.type] at hf
    cases hf

theorem Booted.dirs : DirInv Debts.none a where
  links m _ := by
    rw [h.links]
    decide
  root := h.links
  unique d d' p hd hd' := by
    have hone : ∀ x, DirAt Debts.none a x p → x = 3 := by
      rintro x ⟨v, V, hN, -, -⟩
      obtain ⟨De, hDe, hv⟩ := hN.dentry
      obtain ⟨rfl, -⟩ := h.vinode hN.vinode hN.rfs
      rcases (h.dentries x De).1 hDe with ⟨-, rfl⟩ | ⟨hx, -⟩
      · cases hv
      · exact hx
    rw [hone d hd, hone d' hd']

/-- **Boot.** The invariant holds after `fs_init`, with no debts. -/
theorem Booted.tidy : Tidy Debts.none a where
  inv := ⟨h.disk, h.cache, h.tree, h.count, h.dirs⟩
  stray := fun _ hx => hx.elim
  loose := rfl
  refs := fun _ _ => rfl
  memory := fun _ _ => rfl
  links := fun _ _ => rfl

end

theorem fair_none : Fair Debts.none := ⟨fun _ => le_rfl, fun _ => le_rfl, fun _ => le_rfl⟩

end RiscvPke.Fs
