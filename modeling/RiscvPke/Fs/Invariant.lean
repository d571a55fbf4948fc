/-
The invariant of the RAM disk file system, over states without bytes (`Afs`).
-/
import RiscvPke.Core.Count
import RiscvPke.Fs.Specs

namespace RiscvPke.Fs

open Function CData RiscvPke.Count

structure Debts where
  links : ℕ → ℤ
  memory : ℕ → ℤ
  refs : ℕ → ℤ
  stray : Set ℕ
  loose : Set ℕ

def Debts.none : Debts := ⟨fun _ => 0, fun _ => 0, fun _ => 0, ∅, ∅⟩

def Live (a : Afs) (n : ℕ) : Prop := (a.dinode n).type ≠ R_FREE

/-- what the kernel goes by for the inode `n`: its cached vinode, or else the disk inode -/
def Afs.cur (a : Afs) (n : ℕ) : Dinode :=
  match (a.vinode_hash n).bind a.vinodes with
  | some V => V.toDinode
  | none => a.dinode n

/-- the number of directory entries with the inode number `n` -/
def Afs.links (a : Afs) (n : ℕ) : ℕ := ∑ p ∈ Finset.range NINODES, (a.dir p).countP fun e => e.inum = (n : ℤ)

/-- the vinode that the dentry of a key of the hash table points to -/
def Afs.holder (a : Afs) (key : Option ℕ × CString) : Option ℕ :=
  (a.dentry_hash key).bind fun d => (a.dentries d).bind (·.dentry_inode)

structure Shape (d : Dinode) : Prop where
  type : d.type = FILE_I ∨ d.type = DIR_I
  blocks : 1 ≤ d.blocks ∧ d.blocks ≤ 10
  size : 0 ≤ d.size ∧ d.size ≤ RFS_BLKSIZE * d.blocks
  dir : d.type = DIR_I → d.blocks = 1

/-- a vinode may be ahead of its disk inode, but not that of a directory -/
structure Synced (V d : Dinode) : Prop where
  type : V.type = d.type
  dir : V.type = DIR_I → V = d
  blocks : d.blocks ≤ V.blocks
  addrs : ∀ i : Fin 10, (i : ℤ) < d.blocks → V.addrs i = d.addrs i

/-- the vinode of the RAM disk that a dentry in the hash table points to -/
structure Node (D : Debts) (a : Afs) (d v : ℕ) (V : Vinode) : Prop where
  dentry : ∃ De, a.dentries d = some De ∧ De.dentry_inode = some v
  hashed : d ∉ D.stray
  vinode : a.vinodes v = some V
  rfs : V.host = false
  tight : v ∉ D.loose

def DirAt (D : Debts) (a : Afs) (d p : ℕ) : Prop := ∃ v V, Node D a d v V ∧ V.type = DIR_I ∧ V.inum = p

def HostRoot (a : Afs) (De : Dentry) : Prop :=
  De.parent = none ∧ ∃ v V, De.dentry_inode = some v ∧ a.vinodes v = some V ∧ V.host = true ∧ V.type = DIR_I

def Placed (D : Debts) (a : Afs) (d : ℕ) (De : Dentry) : Prop :=
  ∃ up v V, De.parent = some up ∧ up < d ∧ Node D a d v V ∧
    (up = a.vfs_root_dentry ∧ De.name = ramdisk0 ∧ V.inum = 0 ∨
      up ≠ a.vfs_root_dentry ∧ ∃ p, DirAt D a up p ∧ a.find p De.name = some V.inum)

/-- the disk: shapes, blocks and directories -/
structure DiskInv (a : Afs) : Prop where
  live_lt : ∀ n, Live a n → n < NINODES
  ints : ∀ n, (a.dinode n).Ints
  root : (a.dinode 0).type = DIR_I
  shape : ∀ n, Live a n → Shape (a.cur n)
  owned : ∀ n (i : Fin 10), Live a n → (i : ℤ) < (a.cur n).blocks →
    ∃ b < NBLOCKS, (a.cur n).addrs i = 12 + (b : ℕ) ∧ a.used b = true
  exclusive : ∀ n m (i j : Fin 10), Live a n → Live a m → (i : ℤ) < (a.cur n).blocks → (j : ℤ) < (a.cur m).blocks →
    (a.cur n).addrs i = (a.cur m).addrs j → n = m ∧ i = j
  length : ∀ p, (a.dinode p).type = DIR_I → (a.dinode p).size = 32 * ((a.dir p).length : ℤ) ∧
    (a.dir p).length ≤ BLOCK_DIRENTRYS
  nil : ∀ p, (a.dinode p).type ≠ DIR_I → a.dir p = []
  entries : ∀ p, ∀ e ∈ a.dir p, e.name.length < RFS_MAX_FILE_NAME_LEN ∧ ∃ m : ℕ, e.inum = m ∧ Live a m

/-- the vinodes -/
structure CacheInv (D : Debts) (a : Afs) : Prop where
  fresh : ∀ v, a.next ≤ v → a.vinodes v = none
  hashed : ∀ k v, a.vinode_hash k = some v → ∃ V, a.vinodes v = some V ∧ V.inum = k ∧ V.host = false ∧ v ∉ D.loose
  cached : ∀ v V, a.vinodes v = some V → V.host = false → v ∉ D.loose →
    a.vinode_hash V.inum = some v ∧ V.Ints ∧ ∃ n : ℕ, V.inum = n ∧ Live a n ∧ Synced V.toDinode (a.dinode n)

/-- the dentries, the opened files and the working directories -/
structure TreeInv (D : Debts) (a : Afs) : Prop where
  fresh : ∀ d, a.next ≤ d → a.dentries d = none
  hashed : ∀ key d, a.dentry_hash key = some d → d ∉ D.stray ∧ ∃ De, a.dentries d = some De ∧ (De.parent, De.name) = key
  placed : ∀ d De, a.dentries d = some De → d ∉ D.stray → a.dentry_hash (De.parent, De.name) = some d ∧
    (d = a.vfs_root_dentry ∧ HostRoot a De ∨ Placed D a d De)
  root : ∃ De, a.dentries a.vfs_root_dentry = some De ∧ a.vfs_root_dentry ∉ D.stray ∧ HostRoot a De
  mount : ∃ d, a.dentry_hash (some a.vfs_root_dentry, ramdisk0) = some d
  files : ∀ p fd file, (a.pfiles p).opened_files fd = some file → file.f_dentry < a.next ∧ file.f_dentry ∉ D.stray
  cwd : ∀ p, (a.pfiles p).cwd = a.vfs_root_dentry ∨ ∃ n, DirAt D a (a.pfiles p).cwd n

/-- the counts -/
structure CountInv (D : Debts) (a : Afs) : Prop where
  refs : ∀ v V, a.vinodes v = some V → V.host = false → v ∉ D.loose → ∃ c : ℕ, Counted a.holder v c ∧
    V.ref = c + D.refs v
  links : ∀ n, (a.dinode n).type = FILE_I → (a.dinode n).nlinks = a.links n + D.links n
  memory : ∀ v V (n : ℕ), a.vinodes v = some V → V.host = false → v ∉ D.loose → V.type = FILE_I → V.inum = n →
    V.nlinks = (a.dinode n).nlinks + D.memory n

/-- a directory has one place in the tree: at most one entry names it, none names the root, and one dentry stands for it
-/
structure DirInv (D : Debts) (a : Afs) : Prop where
  links : ∀ m, (a.dinode m).type = DIR_I → a.links m ≤ 1
  root : a.links 0 = 0
  unique : ∀ d d' p, DirAt D a d p → DirAt D a d' p → d = d'

structure Inv (D : Debts) (a : Afs) : Prop where
  disk : DiskInv a
  cache : CacheInv D a
  tree : TreeInv D a
  count : CountInv D a
  dirs : DirInv D a

variable {D : Debts} {a : Afs} {n m v w d p : ℕ} {V W : Vinode} {De : Dentry}

theorem Node.inode (hN : Node D a d v V) (hDe : a.dentries d = some De) : De.dentry_inode = some v := by
  obtain ⟨De', hDe', hv⟩ := hN.dentry
  cases hDe.symm.trans hDe'
  exact hv

theorem Node.unique (hN : Node D a d v V) (hN' : Node D a d w W) : v = w ∧ V = W := by
  obtain ⟨De, hDe, hv⟩ := hN.dentry
  cases hv.symm.trans (hN'.inode hDe)
  exact ⟨rfl, Option.some.inj (hN.vinode.symm.trans hN'.vinode)⟩

theorem Node.not_host (hN : Node D a d v V) (hDe : a.dentries d = some De) (hw : De.dentry_inode = some w)
    (hW : a.vinodes w = some W) (hh : W.host = true) : False := by
  cases hw.symm.trans (hN.inode hDe)
  cases hN.vinode.symm.trans hW
  rw [hN.rfs] at hh
  cases hh

/-! ## What the kernel goes by -/

theorem cur_of_cached (h : a.vinode_hash n = some v) (hv : a.vinodes v = some V) : a.cur n = V.toDinode := by
  simp only [Afs.cur, h, Option.bind_some, hv]

theorem cur_of_none (h : a.vinode_hash n = none) : a.cur n = a.dinode n := by
  simp only [Afs.cur, h, Option.bind_none]

theorem CacheInv.cur_cases (h : CacheInv D a) (n : ℕ) : (a.vinode_hash n = none ∧ a.cur n = a.dinode n) ∨
      ∃ v V, a.vinode_hash n = some v ∧ a.vinodes v = some V ∧ V.inum = n ∧ V.host = false ∧ v ∉ D.loose ∧
        a.cur n = V.toDinode := by
  cases hh : a.vinode_hash n with
  | none => exact .inl ⟨rfl, cur_of_none hh⟩
  | some v =>
    obtain ⟨V, hV, hi, hr, ht⟩ := h.hashed _ _ hh
    exact .inr ⟨v, V, rfl, hV, hi, hr, ht, cur_of_cached hh hV⟩

theorem CacheInv.synced (h : CacheInv D a) (n : ℕ) : Synced (a.cur n) (a.dinode n) := by
  rcases h.cur_cases n with ⟨-, he⟩ | ⟨v, V, -, hV, hi, hr, ht, he⟩
  · rw [he]
    exact ⟨rfl, fun _ => rfl, le_refl _, fun _ _ => rfl⟩
  · obtain ⟨-, -, m, hm, -, hs⟩ := h.cached v V hV hr ht
    obtain rfl : n = m := by omega
    rw [he]
    exact hs

theorem CacheInv.cur_update (h : CacheInv D a) (hn : a.vinode_hash n = some v) :
    Afs.cur { a with vinodes := update a.vinodes v (some W) } = update a.cur n W.toDinode := by
  funext m
  by_cases hm : m = n
  · grind [cur_of_cached]
  · rw [update_of_ne hm]
    unfold Afs.cur
    cases hh : a.vinode_hash m with
    | none => rfl
    | some w =>
      have hne : w ≠ v := by
        rintro rfl
        obtain ⟨V, hV, hi, -⟩ := h.hashed _ _ hn
        obtain ⟨V', hV', hi', -⟩ := h.hashed _ _ hh
        cases hV.symm.trans hV'
        omega
      simp only [Option.bind_some, update_of_ne hne]

theorem cur_update_of_loose {o : Option Vinode} (h : ∀ k, a.vinode_hash k ≠ some v) :
    Afs.cur { a with vinodes := update a.vinodes v o } = a.cur := by
  funext m
  unfold Afs.cur
  cases hh : a.vinode_hash m with
  | none => rfl
  | some w => grind

theorem CacheInv.loose_unhashed (h : CacheInv D a) (hv : v ∈ D.loose) (k : ℤ) : a.vinode_hash k ≠ some v := by
  intro hk
  obtain ⟨-, -, -, -, ht⟩ := h.hashed _ _ hk
  exact ht hv

theorem CacheInv.fresh_unhashed (h : CacheInv D a) (hv : a.next ≤ v) (k : ℤ) : a.vinode_hash k ≠ some v := by
  intro hk
  obtain ⟨V, hV, -⟩ := h.hashed _ _ hk
  rw [h.fresh v hv] at hV
  cases hV

/-! ## What the parts of the invariant depend on -/

variable {a' : Afs} {D' : Debts}

theorem DiskInv.congr (h : DiskInv a) (hdinode : a'.dinode = a.dinode) (hcur : a'.cur = a.cur)
    (hused : a'.used = a.used) (hdir : a'.dir = a.dir) : DiskInv a' := by
  have hlive : ∀ n, Live a' n ↔ Live a n := by
    intro n
    unfold Live
    rw [hdinode]
  constructor
  · simpa only [hlive] using h.live_lt
  · simpa only [hdinode] using h.ints
  · simpa only [hdinode] using h.root
  · simpa only [hlive, hcur] using h.shape
  · simpa only [hlive, hcur, hused] using h.owned
  · simpa only [hlive, hcur] using h.exclusive
  · simpa only [hdinode, hdir] using h.length
  · simpa only [hdinode, hdir] using h.nil
  · simpa only [hlive, hdir] using h.entries

variable {b : ℕ}

/-- all but the inode `n` stays: the other inodes, their entries and their blocks -/
structure Elsewhere (a a' : Afs) (n : ℕ) : Prop where
  dinode : ∀ m, m ≠ n → a'.dinode m = a.dinode m
  cur : ∀ m, m ≠ n → a'.cur m = a.cur m
  dir : ∀ m, m ≠ n → a'.dir m = a.dir m
  used : ∀ m (i : Fin 10) (b : ℕ), m ≠ n → Live a m → (i : ℤ) < (a.cur m).blocks → (a.cur m).addrs i = 12 + (b : ℤ) →
    a.used b = true → a'.used b = true
  entries : ∀ q, ∀ e ∈ a.dir q, e.inum = n → Live a' n

/-- an inode `n` with the disk inode `e`, the contents `c` for the kernel and the entries `l` fits in with the other
inodes -/
structure Fits (a a' : Afs) (n : ℕ) (e c : Dinode) (l : List Entry) : Prop where
  lt : n < NINODES
  ints : e.Ints
  root : n = 0 → e.type = DIR_I
  shape : e.type ≠ R_FREE → Shape c
  owned : e.type ≠ R_FREE → ∀ i : Fin 10, (i : ℤ) < c.blocks → ∃ b < NBLOCKS, c.addrs i = 12 + (b : ℕ) ∧
    a'.used b = true
  single : e.type ≠ R_FREE → ∀ i j : Fin 10, (i : ℤ) < c.blocks → (j : ℤ) < c.blocks → c.addrs i = c.addrs j → i = j
  apart : e.type ≠ R_FREE → ∀ m (i j : Fin 10), m ≠ n → Live a m → (i : ℤ) < c.blocks → (j : ℤ) < (a.cur m).blocks →
    c.addrs i ≠ (a.cur m).addrs j
  length : e.type = DIR_I → e.size = 32 * (l.length : ℤ) ∧ l.length ≤ BLOCK_DIRENTRYS
  nil : e.type ≠ DIR_I → l = []
  entries : ∀ x ∈ l, x.name.length < RFS_MAX_FILE_NAME_LEN ∧ ∃ m : ℕ, x.inum = m ∧ Live a' m

theorem Elsewhere.live (hk : Elsewhere a a' n) (hm : m ≠ n) : Live a' m ↔ Live a m := by
  unfold Live
  rw [hk.dinode m hm]

theorem DiskInv.change {e c : Dinode} {l : List Entry} (h : DiskInv a) (hk : Elsewhere a a' n)
    (hdinode : a'.dinode n = e)
    (hcur : a'.cur n = c) (hdir : a'.dir n = l) (hf : Fits a a' n e c l) : DiskInv a' := by
  subst hdinode hcur hdir
  constructor
  · intro m hm
    by_cases hmn : m = n
    · exact hmn ▸ hf.lt
    · exact h.live_lt m ((hk.live hmn).1 hm)
  · intro m
    by_cases hmn : m = n
    · exact hmn ▸ hf.ints
    · exact hk.dinode m hmn ▸ h.ints m
  · by_cases h0 : 0 = n
    · exact h0 ▸ hf.root h0.symm
    · exact hk.dinode 0 h0 ▸ h.root
  · intro m hm
    by_cases hmn : m = n
    · exact hmn ▸ hf.shape (hmn ▸ hm)
    · exact hk.cur m hmn ▸ h.shape m ((hk.live hmn).1 hm)
  · intro m i hm hi
    by_cases hmn : m = n
    · subst hmn
      exact hf.owned hm i hi
    · rw [hk.cur m hmn] at hi ⊢
      have hl := (hk.live hmn).1 hm
      obtain ⟨b, hb, he, hu⟩ := h.owned m i hl hi
      exact ⟨b, hb, he, hk.used m i b hmn hl hi he hu⟩
  · intro m1 m2 i j hm1 hm2 hi hj he
    by_cases h1 : m1 = n <;> by_cases h2 : m2 = n
    · subst h1 h2
      exact ⟨rfl, hf.single hm1 i j hi hj he⟩
    · rw [hk.cur m2 h2] at hj he
      subst h1
      exact absurd he (hf.apart hm1 m2 i j h2 ((hk.live h2).1 hm2) hi hj)
    · rw [hk.cur m1 h1] at hi he
      subst h2
      exact absurd he.symm (hf.apart hm2 m1 j i h1 ((hk.live h1).1 hm1) hj hi)
    · rw [hk.cur m1 h1] at hi he
      rw [hk.cur m2 h2] at hj he
      exact h.exclusive m1 m2 i j ((hk.live h1).1 hm1) ((hk.live h2).1 hm2) hi hj he
  · intro q hq
    by_cases hqn : q = n
    · exact hqn ▸ hf.length (hqn ▸ hq)
    · rw [hk.dinode q hqn] at hq ⊢
      exact hk.dir q hqn ▸ h.length q hq
  · intro q hq
    by_cases hqn : q = n
    · exact hqn ▸ hf.nil (hqn ▸ hq)
    · rw [hk.dinode q hqn] at hq
      exact (hk.dir q hqn).trans (h.nil q hq)
  · intro q e he
    by_cases hqn : q = n
    · subst hqn
      exact hf.entries e he
    · rw [hk.dir q hqn] at he
      obtain ⟨h1, m, h2, h3⟩ := h.entries q e he
      refine ⟨h1, m, h2, ?_⟩
      by_cases hmn : m = n
      · exact hmn ▸ hk.entries q e he (hmn ▸ h2)
      · exact (hk.live hmn).2 h3

theorem DiskInv.unowned (h : DiskInv a) (hused : a.used b = false) (j : Fin 10) (hl : Live a m)
    (hj : (j : ℤ) < (a.cur m).blocks) :
    (a.cur m).addrs j ≠ 12 + (b : ℤ) := by
  intro he
  obtain ⟨c, -, hc, hcu⟩ := h.owned m j hl hj
  obtain rfl : c = b := by omega
  rw [hused] at hcu
  cases hcu

/-- the vinodes that dentries go by are the same but for their contents -/
structure SameNodes (D : Debts) (a : Afs) (D' : Debts) (a' : Afs) : Prop where
  nodes : ∀ d v V, Node D a d v V →
    ∃ V', a'.vinodes v = some V' ∧ V'.host = false ∧ v ∉ D'.loose ∧ V'.type = V.type ∧ V'.inum = V.inum
  host : ∀ v V, a.vinodes v = some V → V.host = true → a'.vinodes v = some V

theorem SameNodes.node (hs : SameNodes D a D' a') (hN : Node D a d v V) (hd : a'.dentries d = a.dentries d)
    (hst : d ∉ D'.stray) : ∃ V', Node D' a' d v V' ∧ V'.type = V.type ∧ V'.inum = V.inum := by
  obtain ⟨V', hV', hr, ht, h1, h2⟩ := hs.nodes d v V hN
  exact ⟨V', ⟨by rw [hd]; exact hN.dentry, hst, hV', hr, ht⟩, h1, h2⟩

theorem SameNodes.dirAt (hs : SameNodes D a D' a') (h : DirAt D a d p) (hd : a'.dentries d = a.dentries d)
    (hst : d ∉ D'.stray) : DirAt D' a' d p := by
  obtain ⟨v, V, hN, ht, hi⟩ := h
  obtain ⟨V', hN', ht', hi'⟩ := hs.node hN hd hst
  exact ⟨v, V', hN', by rw [ht', ht], by rw [hi', hi]⟩

theorem SameNodes.hostRoot (hs : SameNodes D a D' a') (h : HostRoot a De) : HostRoot a' De := by
  obtain ⟨h0, v, V, hv, hV, hh, ht⟩ := h
  exact ⟨h0, v, V, hv, hs.host v V hV hh, hh, ht⟩

theorem Placed.congr (h : Placed D a d De) (hs : SameNodes D a D' a') (hroot : a'.vfs_root_dentry = a.vfs_root_dentry)
    (hd : a'.dentries d = a.dentries d) (hst : d ∉ D'.stray)
    (hup : ∀ up p, DirAt D a up p → a'.dentries up = a.dentries up ∧ up ∉ D'.stray)
    (hfind : ∀ up p x, De.parent = some up → DirAt D a up p → a.find p De.name = some x → a'.find p De.name = some x) :
    Placed D' a' d De := by
  obtain ⟨up, v, V, hpar, hlt, hN, hplace⟩ := h
  obtain ⟨V', hN', -, hi'⟩ := hs.node hN hd hst
  refine ⟨up, v, V', hpar, hlt, hN', ?_⟩
  rcases hplace with ⟨h1, h2, h3⟩ | ⟨h1, p, h2, h3⟩
  · exact .inl ⟨by rw [hroot, h1], h2, by rw [hi', h3]⟩
  · obtain ⟨hd', hst'⟩ := hup up p h2
    refine .inr ⟨by rw [hroot]; exact h1, p, hs.dirAt h2 hd' hst', ?_⟩
    rw [hi']
    exact hfind up p _ hpar h2 h3

theorem TreeInv.congr (h : TreeInv D a) (hs : SameNodes D a D' a') (hnext : a.next ≤ a'.next)
    (hdent : a'.dentries = a.dentries) (hhash : a'.dentry_hash = a.dentry_hash)
    (hroot : a'.vfs_root_dentry = a.vfs_root_dentry) (hpf : a'.pfiles = a.pfiles) (hstray : D'.stray = D.stray)
    (hfind : ∀ up p name x d, a.dentry_hash (some up, name) = some d → DirAt D a up p → a.find p name = some x →
      a'.find p name = some x) : TreeInv D' a' := by
  have hup : ∀ up p, DirAt D a up p → a'.dentries up = a.dentries up ∧ up ∉ D'.stray := by
    intro up p hup
    obtain ⟨v, V, hN, -⟩ := hup
    exact ⟨by rw [hdent], by rw [hstray]; exact hN.hashed⟩
  constructor
  · intro d hd
    rw [hdent]
    exact h.fresh d (by omega)
  · rw [hhash, hdent, hstray]
    exact h.hashed
  · intro d De hDe hst
    rw [hdent] at hDe
    rw [hstray] at hst
    obtain ⟨hkey, hplace⟩ := h.placed d De hDe hst
    refine ⟨by rw [hhash]; exact hkey, ?_⟩
    rcases hplace with ⟨h1, h2⟩ | hp
    · exact .inl ⟨by rw [hroot, h1], hs.hostRoot h2⟩
    · refine .inr (hp.congr hs hroot (by rw [hdent]) (by rw [hstray]; exact hst) hup ?_)
      grind
  · obtain ⟨De, h1, h2, h3⟩ := h.root
    exact ⟨De, by rw [hdent, hroot]; exact h1, by rw [hroot, hstray]; exact h2, hs.hostRoot h3⟩
  · rw [hhash, hroot]
    exact h.mount
  · intro p fd file hf
    rw [hpf] at hf
    obtain ⟨h1, h2⟩ := h.files p fd file hf
    exact ⟨by omega, by rw [hstray]; exact h2⟩
  · intro p
    rw [hpf, hroot]
    rcases h.cwd p with h1 | ⟨n, h1⟩
    · exact .inl h1
    · exact .inr ⟨n, hs.dirAt h1 (by rw [hdent]) (hup _ _ h1).2⟩

theorem Node.congr (h : Node D a d v V) (hdent : a'.dentries = a.dentries) (hvin : a'.vinodes = a.vinodes)
    (hstray : D'.stray = D.stray) (hloose : D'.loose = D.loose) : Node D' a' d v V :=
  ⟨hdent ▸ h.dentry, hstray ▸ h.hashed, hvin ▸ h.vinode, h.rfs, hloose ▸ h.tight⟩

theorem DirAt.congr (h : DirAt D a d p) (hdent : a'.dentries = a.dentries) (hvin : a'.vinodes = a.vinodes)
    (hstray : D'.stray = D.stray) (hloose : D'.loose = D.loose) : DirAt D' a' d p := by
  obtain ⟨v, V, hN, ht, hi⟩ := h
  exact ⟨v, V, hN.congr hdent hvin hstray hloose, ht, hi⟩

theorem DirInv.congr (h : DirInv D a) (hdinode : ∀ m, (a'.dinode m).type = DIR_I → (a.dinode m).type = DIR_I)
    (hdir : a'.dir = a.dir) (hat : ∀ d p, DirAt D' a' d p → DirAt D a d p) : DirInv D' a' := by
  have hlinks : ∀ m, a'.links m = a.links m := by
    intro m
    unfold Afs.links
    rw [hdir]
  constructor
  · intro m hm
    rw [hlinks]
    exact h.links m (hdinode m hm)
  · rw [hlinks]
    exact h.root
  · intro d d' p hd hd'
    exact h.unique d d' p (hat d p hd) (hat d' p hd')

/-! ## Vinodes -/

theorem update_cases {κ β : Type} [DecidableEq κ] {f : κ → Option β} {k x : κ} {o : Option β} {y : β}
    (h : update f k o x = some y) : x = k ∧ o = some y ∨ x ≠ k ∧ f x = some y := by
  grind

theorem Inv.vinode_lt (h : Inv D a) (hV : a.vinodes v = some V) : v < a.next := by
  by_contra hlt
  rw [h.cache.fresh v (by omega)] at hV
  cases hV

theorem Inv.dentry_lt (h : Inv D a) (hd : a.dentries d = some De) : d < a.next := by
  by_contra hlt
  rw [h.tree.fresh d (by omega)] at hd
  cases hd

theorem CacheInv.unique (h : CacheInv D a) (hV : a.vinodes v = some V) (hr : V.host = false) (ht : v ∉ D.loose)
    (hW : a.vinodes w = some W) (hr' : W.host = false) (ht' : w ∉ D.loose) (hi : V.inum = W.inum) : v = w := by
  have h1 := (h.cached v V hV hr ht).1
  have h2 := (h.cached w W hW hr' ht').1
  rw [hi] at h1
  exact Option.some.inj (h1.symm.trans h2)

section Change

variable {u : ℕ → Bool} {e : ℕ → Dinode} {l : ℕ → List Entry} {L M : ℕ → ℤ}

def Afs.change (a : Afs) (v : ℕ) (W : Vinode) (u : ℕ → Bool) (e : ℕ → Dinode) (l : ℕ → List Entry) : Afs :=
  { a with vinodes := update a.vinodes v (some W), used := u, dinode := e, dir := l }

variable (h : Inv D a) (hV : a.vinodes v = some V) (hr : V.host = false) (ht : v ∉ D.loose) (hn : V.inum = n)
  (hi : W.inum = V.inum) (hh : W.host = false) (hty : W.type = V.type) (hints : W.Ints)

include h hV hr ht hn hi hh hty hints

theorem Inv.change (hs : Synced W.toDinode (e n)) (hdinode : ∀ m, m ≠ n → e m = a.dinode m)
    (hdisk : DiskInv (a.change v W u e l))
    (hfind : ∀ up p name x d, a.dentry_hash (some up, name) = some d → DirAt D a up p → a.find p name = some x →
      ((l p).find? (·.name = name)).map (·.inum) = some x)
    (hlinks : ∀ m, (e m).type = FILE_I → (e m).nlinks = (a.change v W u e l).links m + L m)
    (hmemory : W.type = FILE_I → W.nlinks = (e n).nlinks + M n) (hother : ∀ m, m ≠ n → M m = D.memory m)
    (hdirs : ∀ m, (e m).type = DIR_I → (a.change v W u e l).links m ≤ 1) (hroot : (a.change v W u e l).links 0 = 0) :
    Inv { D with links := L, memory := M, refs := update D.refs v (D.refs v + (W.ref - V.ref)) }
      (a.change v W u e l) := by
  obtain ⟨hhash, -, m, hm, hlive, hsync⟩ := h.cache.cached v V hV hr ht
  obtain rfl : n = m := by omega
  have hlive' : (e n).type ≠ R_FREE := by
    rw [← hs.type, hty, hsync.type]
    exact hlive
  have hsame : SameNodes D a { D with links := L, memory := M, refs := update D.refs v (D.refs v + (W.ref - V.ref)) }
      (a.change v W u e l) := by
    constructor
    · intro d x X hN
      by_cases hx : x = v
      · subst hx
        cases hV.symm.trans hN.vinode
        exact ⟨W, update_self _ _ _, hh, ht, hty, hi⟩
      · exact ⟨X, (update_of_ne hx _ _).trans hN.vinode, hN.rfs, hN.tight, rfl, rfl⟩
    · intro x X hX hhost
      have hx : x ≠ v := by grind
      exact (update_of_ne hx _ _).trans hX
  -- a vinode is the new one, or it was there and is that of another inode
  have hback : ∀ x X, update a.vinodes v (some W) x = some X → X.host = false → x ∉ D.loose →
      x = v ∧ X = W ∨ x ≠ v ∧ a.vinodes x = some X ∧ X.inum ≠ n := by
    intro x X hX hXh hXt
    rcases update_cases hX with ⟨rfl, hW⟩ | ⟨hx, hX⟩
    · exact .inl ⟨rfl, (Option.some.inj hW).symm⟩
    · exact .inr ⟨hx, hX, fun he => hx (h.cache.unique hX hXh hXt hV hr ht (he.trans hn.symm))⟩
  refine ⟨hdisk, ⟨?_, ?_, ?_⟩, ?_, ⟨?_, hlinks, ?_⟩, ⟨hdirs, hroot, ?_⟩⟩
  · intro x hx
    have := h.vinode_lt hV
    have hx : a.next ≤ x := hx
    exact (update_of_ne (by omega) _ _).trans (h.cache.fresh x hx)
  · intro k x hk
    obtain ⟨X, hX, h1, h2, h3⟩ := h.cache.hashed k x hk
    by_cases hx : x = v
    · subst hx
      cases hV.symm.trans hX
      exact ⟨W, update_self _ _ _, hi.trans h1, hh, h3⟩
    · exact ⟨X, (update_of_ne hx _ _).trans hX, h1, h2, h3⟩
  · intro x X hX hXh hXt
    rcases hback x X hX hXh hXt with ⟨rfl, rfl⟩ | ⟨hx, hX, hne⟩
    · exact ⟨hi ▸ hhash, hints, n, hi.trans hn, hlive', hs⟩
    · obtain ⟨h1, h2, m, h3, h4, h5⟩ := h.cache.cached x X hX hXh hXt
      have he : e m = a.dinode m := hdinode m (by omega)
      exact ⟨h1, h2, m, h3, show (e m).type ≠ R_FREE from he ▸ h4, show Synced _ (e m) from he ▸ h5⟩
  · exact h.tree.congr hsame le_rfl rfl rfl rfl rfl rfl hfind
  · intro x X hX hXh hXt
    rcases hback x X hX hXh hXt with ⟨rfl, rfl⟩ | ⟨hx, hX, -⟩
    · obtain ⟨c, hc, he⟩ := h.count.refs x V hV hr ht
      exact ⟨c, hc, by simp only [update_self]; omega⟩
    · obtain ⟨c, hc, he⟩ := h.count.refs x X hX hXh hXt
      exact ⟨c, hc, by simpa only [update_of_ne hx] using he⟩
  · intro x X m hX hXh hXt hXf hm
    rcases hback x X hX hXh hXt with ⟨rfl, rfl⟩ | ⟨hx, hX, hne⟩
    · obtain rfl : m = n := by omega
      exact hmemory hXf
    · have hmn : m ≠ n := by omega
      have := h.count.memory x X m hX hXh hXt hXf hm
      rw [← hdinode m hmn, ← hother m hmn] at this
      exact this
  · have hat : ∀ d q, DirAt { D with links := L, memory := M, refs := update D.refs v (D.refs v + (W.ref - V.ref)) }
        (a.change v W u e l) d q → DirAt D a d q := by
      intro d q hd
      obtain ⟨x, X, hN, hXt, hXi⟩ := hd
      rcases hback x X hN.vinode hN.rfs hN.tight with ⟨rfl, rfl⟩ | ⟨-, hX, -⟩
      · exact ⟨x, V, ⟨hN.dentry, hN.hashed, hV, hr, ht⟩, hty.symm.trans hXt, hi.symm.trans hXi⟩
      · exact ⟨x, X, { hN with vinode := hX }, hXt, hXi⟩
    exact fun d d' q hd hd' => h.dirs.unique d d' q (hat d q hd) (hat d' q hd')

theorem Inv.setVinode (hs : Synced W.toDinode (a.dinode n)) (hshape : Shape W.toDinode)
    (hu : ∀ c, a.used c = true → u c = true) {j : Fin 10}
    (hblocks : ∀ i : Fin 10, (i : ℤ) < W.blocks → (i : ℤ) < V.blocks ∧ W.addrs i = V.addrs i ∨
      i = j ∧ W.addrs i = 12 + (b : ℤ) ∧ b < NBLOCKS ∧ a.used b = false ∧ u b = true) :
    Inv { D with
        refs := update D.refs v (D.refs v + (W.ref - V.ref))
        memory := update D.memory n (D.memory n + (W.nlinks - V.nlinks)) }
      { a with vinodes := update a.vinodes v (some W), used := u } := by
  obtain ⟨hhash, -, m, hm, hlive, -⟩ := h.cache.cached v V hV hr ht
  obtain rfl : n = m := by omega
  rw [hn] at hhash
  have hcur : a.cur n = V.toDinode := cur_of_cached hhash hV
  have hk : Elsewhere a { a with vinodes := update a.vinodes v (some W), used := u } n :=
    ⟨fun _ _ => rfl, fun m hm => (congrFun (h.cache.cur_update hhash) m).trans (update_of_ne hm _ _), fun _ _ => rfl,
      fun _ _ c _ _ _ _ hc => hu c hc, fun _ _ _ _ => hlive⟩
  have hdisk : DiskInv { a with vinodes := update a.vinodes v (some W), used := u } := by
    refine h.disk.change hk rfl (cur_of_cached (a := { a with vinodes := _, used := _ }) hhash (update_self _ _ _)) rfl
      ⟨h.disk.live_lt n hlive, h.disk.ints n, fun h0 => h0 ▸ h.disk.root, fun _ => hshape, fun _ i hi => ?_,
        fun _ i k hi hk he => ?_,
        fun _ m i k hm hl hi hk he => ?_, h.disk.length n, h.disk.nil n, h.disk.entries n⟩
    · rcases hblocks i hi with ⟨hlt, he⟩ | ⟨-, he, hb, -, hub⟩
      · obtain ⟨c, hc, hca, hcu⟩ := h.disk.owned n i hlive (hcur ▸ hlt)
        rw [hcur] at hca
        exact ⟨c, hc, he.trans hca, hu c hcu⟩
      · exact ⟨b, hb, he, hub⟩
    · rcases hblocks i hi with ⟨h1, e1⟩ | ⟨rfl, e1, -, hfree, -⟩ <;> rcases hblocks k hk with ⟨h2, e2⟩ | ⟨rfl,
        e2, -, hfree, -⟩
      · exact (h.disk.exclusive n n i k hlive hlive (hcur ▸ h1) (hcur ▸ h2) (by rw [hcur, ← e1, ← e2, he])).2
      · exact absurd (by rw [hcur, ← e1, he, e2]) (h.disk.unowned hfree i hlive (hcur ▸ h1))
      · exact absurd (by rw [hcur, ← e2, ← he, e1]) (h.disk.unowned hfree k hlive (hcur ▸ h2))
      · rfl
    · rcases hblocks i hi with ⟨h1, e1⟩ | ⟨-, e1, -, hfree, -⟩
      · exact hm (h.disk.exclusive n m i k hlive hl (hcur ▸ h1) hk (by rw [hcur, ← e1, he])).1.symm
      · exact h.disk.unowned hfree k hl hk (he.symm.trans e1)
  refine h.change hV hr ht hn hi hh hty hints hs (fun _ _ => rfl) hdisk (fun _ _ _ _ _ _ _ hx =>
    hx) h.count.links (fun hf => ?_)
    (fun m hm => update_of_ne hm _ _) h.dirs.links h.dirs.root
  have := h.count.memory v V n hV hr ht (hty.symm.trans hf) hn
  rw [update_self]
  omega

end Change

theorem update_add_zero {f : ℕ → ℤ} {k : ℕ} {z : ℤ} (hz : z = 0) : update f k (f k + z) = f := by
  rw [hz, Int.add_zero]
  exact update_eq_self k f

def Afs.Caches (a : Afs) (v : ℕ) (V : Vinode) (n : ℕ) : Prop :=
  a.vinode_hash n = some v ∧ Live a n ∧ Synced V.toDinode (a.dinode n) ∧ V.Ints ∧ a.cur n = V.toDinode

theorem Inv.cached (h : Inv D a) (hV : a.vinodes v = some V) (hr : V.host = false) (ht : v ∉ D.loose) :
    ∃ n : ℕ, V.inum = n ∧ a.Caches v V n := by
  obtain ⟨h1, h2, n, hn, hl, hs⟩ := h.cache.cached v V hV hr ht
  rw [hn] at h1
  exact ⟨n, hn, h1, hl, hs, h2, cur_of_cached h1 hV⟩

theorem Inv.cachedAt (h : Inv D a) (hV : a.vinodes v = some V) (hr : V.host = false) (ht : v ∉ D.loose)
    (hn : V.inum = n) :
    a.Caches v V n := by
  obtain ⟨n', hn', hc⟩ := h.cached hV hr ht
  obtain rfl : n = n' := by omega
  exact hc

theorem Node.cachedAt (hN : Node D a d v V) (h : Inv D a) (hn : V.inum = n) : a.Caches v V n :=
  h.cachedAt hN.vinode hN.rfs hN.tight hn

theorem Inv.addRef (h : Inv D a) (hV : a.vinodes v = some V) (hr : V.host = false) (ht : v ∉ D.loose) (k : ℤ) :
    Inv { D with refs := update D.refs v (D.refs v + k) }
      { a with vinodes := update a.vinodes v (some { V with ref := V.ref + k }) } := by
  obtain ⟨n, hn, -, hlive, hs, hints, hcur⟩ := h.cached hV hr ht
  have key := h.setVinode (W := { V with ref := V.ref + k }) (b := 0) (j := 0) hV hr ht hn rfl hr rfl hints hs
    (hcur ▸ h.disk.shape n hlive) (fun _ hc => hc) fun _ hi => .inl ⟨hi, rfl⟩
  rw [show V.ref + k - V.ref = k by omega, update_add_zero (by simp)] at key
  exact key

theorem Inv.setLoose {o : Option Vinode} {L : Set ℕ} {next : ℕ} (h : Inv D a) (hv : v ∈ D.loose ∨ a.next ≤ v)
    (hL : ∀ x, x ≠ v → (x ∈ L ↔ x ∈ D.loose)) (ho : o = none ∨ v ∈ L)
    (hold : ∀ V, a.vinodes v = some V → V.host = false)
    (hnext : a.next ≤ next) (hlt : v < next) :
    Inv { D with loose := L } { a with vinodes := update a.vinodes v o, next := next } := by
  have hunh : ∀ k, a.vinode_hash k ≠ some v := by
    rcases hv with hv | hv
    · exact h.cache.loose_unhashed hv
    · exact h.cache.fresh_unhashed hv
  have hne : ∀ x X, a.vinodes x = some X → x ∉ D.loose → x ≠ v := by
    rintro x X hX hx rfl
    rcases hv with hv | hv
    · exact hx hv
    · rw [h.cache.fresh x hv] at hX
      cases hX
  have hsame : SameNodes D a { D with loose := L } { a with vinodes := update a.vinodes v o, next := next } := by
    constructor
    · intro d x X hN
      have hx := hne x X hN.vinode hN.tight
      exact ⟨X, (update_of_ne hx _ _).trans hN.vinode, hN.rfs, fun hm => hN.tight ((hL x hx).1 hm), rfl, rfl⟩
    · grind
  -- what stands in the new table and is not loose stood in the old one
  have hback : ∀ x X, update a.vinodes v o x = some X → x ∉ L → a.vinodes x = some X ∧ x ∉ D.loose := by grind
  refine ⟨?_, ⟨?_, ?_, ?_⟩, ?_, ⟨?_, ?_, ?_⟩, ?_⟩
  · exact h.disk.congr rfl (cur_update_of_loose hunh) rfl rfl
  · intro x hx
    have hx : next ≤ x := hx
    exact (update_of_ne (by omega) _ _).trans (h.cache.fresh x (by omega))
  · intro k x hk
    obtain ⟨X, hX, h1, h2, h3⟩ := h.cache.hashed k x hk
    grind
  · intro x X hX hXh hXt
    obtain ⟨hX, hXt⟩ := hback x X hX hXt
    exact h.cache.cached x X hX hXh hXt
  · exact h.tree.congr hsame hnext rfl rfl rfl rfl rfl fun _ _ _ _ _ _ _ hx => hx
  · intro x X hX hXh hXt
    obtain ⟨hX, hXt⟩ := hback x X hX hXt
    exact h.count.refs x X hX hXh hXt
  · exact h.count.links
  · intro x X m hX hXh hXt hXf hm
    obtain ⟨hX, hXt⟩ := hback x X hX hXt
    exact h.count.memory x X m hX hXh hXt hXf hm
  · refine h.dirs.congr (fun _ hm => hm) rfl fun d q hd => ?_
    obtain ⟨x, X, hN, hXt, hXi⟩ := hd
    obtain ⟨hX, hXl⟩ := hback x X hN.vinode hN.tight
    exact ⟨x, X, { hN with vinode := hX, tight := hXl }, hXt, hXi⟩

theorem TreeInv.holder_cases (h : TreeInv D a) {key : Option ℕ × CString} (hk : a.holder key = some v) :
    ∃ V, a.vinodes v = some V ∧ (V.host = true ∨ V.host = false ∧ v ∉ D.loose) := by
  obtain ⟨d, hd, hk⟩ := Option.bind_eq_some_iff.1 hk
  obtain ⟨De, hDe, hk⟩ := Option.bind_eq_some_iff.1 hk
  obtain ⟨hst, De', hDe', -⟩ := h.hashed key d hd
  rcases (h.placed d De hDe hst).2 with ⟨-, -, x, X, hx, hX, hh, -⟩ | ⟨up, x, X, -, -, hN, -⟩
  · cases hk.symm.trans hx
    exact ⟨X, hX, .inl hh⟩
  · cases hk.symm.trans (hN.inode hDe)
    exact ⟨X, hN.vinode, .inr ⟨hN.rfs, hN.tight⟩⟩

theorem TreeInv.loose_unheld (h : TreeInv D a) (hv : v ∈ D.loose) (hV : a.vinodes v = some V) (hr : V.host = false)
    (key : Option ℕ × CString) : a.holder key ≠ some v := by
  intro hk
  obtain ⟨X, hX, hX'⟩ := h.holder_cases hk
  grind

theorem TreeInv.held (h : TreeInv D a) (hN : Node D a d v V) : ∃ key, a.holder key = some v := by
  obtain ⟨De, hDe, hv⟩ := hN.dentry
  refine ⟨(De.parent, De.name), ?_⟩
  unfold Afs.holder
  rw [(h.placed d De hDe hN.hashed).1, Option.bind_some, hDe, Option.bind_some, hv]

theorem Inv.hashVinode (h : Inv D a) (hv : v ∈ D.loose) (hV : a.vinodes v = some V) (hr : V.host = false)
    (hn : V.inum = n) (hsame : V.toDinode = a.dinode n) (hlive : Live a n) (hfree : a.vinode_hash n = none) :
    Inv { D with
        loose := D.loose \ {v}
        refs := update D.refs v V.ref
        memory := update D.memory n 0 }
      { a with vinode_hash := update a.vinode_hash n (some v) } := by
  set D' : Debts := { D with loose := D.loose \ {v}, refs := update D.refs v V.ref, memory := update D.memory n 0 }
  set a' : Afs := { a with vinode_hash := update a.vinode_hash n (some v) }
  have hcur : a'.cur = a.cur := by
    funext m
    by_cases hm : m = n
    · subst hm
      have h1 : update a.vinode_hash (m : ℤ) (some v) m = some v := update_self _ _ _
      rw [cur_of_none hfree, ← hsame]
      exact cur_of_cached (a := { a with vinode_hash := _ }) h1 hV
    · unfold Afs.cur
      simp only [a']
      rw [update_of_ne (by omega)]
  have hnodes : SameNodes D a D' a' := by
    constructor
    · intro d x X hN
      exact ⟨X, hN.vinode, hN.rfs, fun hm => hN.tight hm.1, rfl, rfl⟩
    · exact fun _ _ hX _ => hX
  have hout : ∀ x, x ∉ D.loose \ {v} → x = v ∨ x ∉ D.loose := by
    intro x hx
    by_cases hxv : x = v
    · exact .inl hxv
    · exact .inr fun hm => hx ⟨hm, hxv⟩
  refine ⟨h.disk.congr rfl hcur rfl rfl, ⟨h.cache.fresh, ?_, ?_⟩, ?_, ⟨?_, h.count.links, ?_⟩, ?_⟩
  · intro k x hk
    rcases update_cases hk with ⟨rfl, hx⟩ | ⟨hk', hk⟩
    · cases hx
      exact ⟨V, hV, hn, hr, fun hm => hm.2 rfl⟩
    · obtain ⟨X, hX, h1, h2, h3⟩ := h.cache.hashed k x hk
      exact ⟨X, hX, h1, h2, fun hm => h3 hm.1⟩
  · intro x X hX hXh hXt
    rcases hout x hXt with rfl | hxt
    · cases hV.symm.trans hX
      refine ⟨by rw [hn]; exact update_self _ _ _, by rw [hsame]; exact h.disk.ints n, n, hn, hlive, ?_⟩
      rw [hsame]
      exact ⟨rfl, fun _ => rfl, le_refl _, fun _ _ => rfl⟩
    · obtain ⟨h1, h2⟩ := h.cache.cached x X hX hXh hxt
      refine ⟨?_, h2⟩
      have hne : X.inum ≠ n := by
        intro he
        rw [he, hfree] at h1
        cases h1
      exact (update_of_ne hne _ _).trans h1
  · exact h.tree.congr hnodes le_rfl rfl rfl rfl rfl rfl fun _ _ _ _ _ _ _ hx => hx
  · intro x X hX hXh hXt
    by_cases hxv : x = v
    · subst hxv
      cases hV.symm.trans hX
      refine ⟨0, counted_zero (h.tree.loose_unheld hv hV hr), ?_⟩
      simp only [D', update_self]
      omega
    · obtain ⟨c, hc, he⟩ := h.count.refs x X hX hXh ((hout x hXt).resolve_left hxv)
      refine ⟨c, hc, ?_⟩
      simp only [D', update_of_ne hxv]
      exact he
  · intro x X m hX hXh hXt hXf hm
    by_cases hxv : x = v
    · grind
    · have hxt := (hout x hXt).resolve_left hxv
      have hmn : m ≠ n := by
        rintro rfl
        have h1 := (h.cache.cached x X hX hXh hxt).1
        rw [hm, hfree] at h1
        cases h1
      simp only [D', update_of_ne hmn]
      exact h.count.memory x X m hX hXh hxt hXf hm
  · refine h.dirs.congr (fun _ hm => hm) rfl fun d q hd => ?_
    obtain ⟨x, X, hN, hXt, hXi⟩ := hd
    -- no dentry in the hash table pointed to the vinode
    have hx : x ∉ D.loose := by
      intro hl
      obtain ⟨De, hDe, hx⟩ := hN.dentry
      refine h.tree.loose_unheld hl hN.vinode hN.rfs (De.parent, De.name) ?_
      unfold Afs.holder
      rw [(h.tree.placed d De hDe hN.hashed).1, Option.bind_some, hDe, Option.bind_some, hx]
    exact ⟨x, X, { hN with tight := hx }, hXt, hXi⟩

section Remove

variable {u : ℕ → Bool} {d' : Dinode}

def Afs.remove (a : Afs) (v n : ℕ) (u : ℕ → Bool) (d' : Dinode) : Afs :=
  { a with
    used := u
    vinode_hash := update a.vinode_hash n none
    vinodes := update a.vinodes v none
    dinode := update a.dinode n d' }

theorem cur_remove (h : CacheInv D a) (hV : a.vinodes v = some V) (hn : V.inum = n) (m : ℕ) :
    (a.remove v n u d').cur m = update a.cur n d' m := by
  by_cases hm : m = n
  · subst hm
    rw [update_self]
    exact (cur_of_none (a := a.remove v m u d') (update_self _ _ _)).trans (update_self _ _ _)
  · rw [update_of_ne hm]
    unfold Afs.cur Afs.remove
    simp only
    rw [update_of_ne (by omega), update_of_ne hm]
    cases hk : a.vinode_hash m with
    | none => rfl
    | some x =>
      have hx : x ≠ v := by
        rintro rfl
        obtain ⟨X, hX, h1, -⟩ := h.hashed _ _ hk
        cases hV.symm.trans hX
        omega
      rw [Option.bind_some, Option.bind_some, update_of_ne hx]

theorem Inv.remove (h : Inv D a) (hV : a.vinodes v = some V) (hr : V.host = false) (ht : v ∉ D.loose) (hn : V.inum = n)
    (hno : ∀ key, a.holder key ≠ some v) (hdisk : DiskInv (a.remove v n u d'))
    (htype : d'.type = DIR_I → (a.dinode n).type = DIR_I)
    (hlinks : d'.type = FILE_I → d'.nlinks = a.links n + D.links n) :
    Inv D (a.remove v n u d') := by
  have hnodes : SameNodes D a D (a.remove v n u d') := by
    constructor
    · intro d x X hN
      have hx : x ≠ v := by
        rintro rfl
        obtain ⟨key, hk⟩ := h.tree.held hN
        exact hno key hk
      exact ⟨X, (update_of_ne hx _ _).trans hN.vinode, hN.rfs, hN.tight, rfl, rfl⟩
    · intro x X hX hhost
      have hx : x ≠ v := by grind
      exact (update_of_ne hx _ _).trans hX
  -- what is left in the table was there, and stands for another inode
  have hback : ∀ x X, update a.vinodes v none x = some X → a.vinodes x = some X ∧ x ≠ v := by grind
  have hother : ∀ x X, a.vinodes x = some X → X.host = false → x ∉ D.loose → x ≠ v → X.inum ≠ n := by
    intro x X hX hXh hXt hx he
    exact hx (h.cache.unique hX hXh hXt hV hr ht (by rw [he, hn]))
  refine ⟨hdisk, ⟨?_, ?_, ?_⟩, ?_, ⟨?_, ?_, ?_⟩, ?_⟩
  · intro x hx
    have := h.vinode_lt hV
    have hx : a.next ≤ x := hx
    exact (update_of_ne (by omega) _ _).trans (h.cache.fresh x hx)
  · intro k x hk
    rcases update_cases hk with ⟨-, hO⟩ | ⟨hk', hk⟩
    · cases hO
    · obtain ⟨X, hX, h1, h2, h3⟩ := h.cache.hashed k x hk
      have hx : x ≠ v := by grind
      exact ⟨X, (update_of_ne hx _ _).trans hX, h1, h2, h3⟩
  · intro x X hX hXh hXt
    obtain ⟨hX, hx⟩ := hback x X hX
    have hne := hother x X hX hXh hXt hx
    obtain ⟨h1, h2, m, h3, h4, h5⟩ := h.cache.cached x X hX hXh hXt
    have hmn : m ≠ n := by omega
    have hdm : (a.remove v n u d').dinode m = a.dinode m := update_of_ne hmn _ _
    refine ⟨(update_of_ne hne _ _).trans h1, h2, m, h3, ?_, by rwa [hdm]⟩
    unfold Live
    rwa [hdm]
  · exact h.tree.congr hnodes le_rfl rfl rfl rfl rfl rfl fun _ _ _ _ _ _ _ hx => hx
  · intro x X hX hXh hXt
    exact h.count.refs x X (hback x X hX).1 hXh hXt
  · intro m hm
    by_cases hmn : m = n
    · subst hmn
      simp only [Afs.remove, update_self] at hm ⊢
      exact hlinks hm
    · simp only [Afs.remove, update_of_ne hmn] at hm ⊢
      exact h.count.links m hm
  · intro x X m hX hXh hXt hXf hm
    obtain ⟨hX, hx⟩ := hback x X hX
    have hmn : m ≠ n := by
      have := hother x X hX hXh hXt hx
      omega
    simp only [Afs.remove, update_of_ne hmn]
    exact h.count.memory x X m hX hXh hXt hXf hm
  · refine h.dirs.congr ?_ rfl fun d q hd => ?_
    · intro m hm
      by_cases hmn : m = n
      · subst hmn
        simp only [Afs.remove, update_self] at hm
        exact htype hm
      · simpa only [Afs.remove, update_of_ne hmn] using hm
    · obtain ⟨x, X, hN, hXt, hXi⟩ := hd
      exact ⟨x, X, { hN with vinode := (hback x X hN.vinode).1 }, hXt, hXi⟩

end Remove

theorem Inv.evict (h : Inv D a) (hV : a.vinodes v = some V) (hr : V.host = false) (ht : v ∉ D.loose) (hn : V.inum = n)
    (hsame : V.toDinode = a.dinode n) (hno : ∀ key, a.holder key ≠ some v) :
    Inv D { a with
      vinode_hash := update a.vinode_hash n none
      vinodes := update a.vinodes v none } := by
  obtain ⟨hh, -⟩ := h.cachedAt hV hr ht hn
  have heq : a.remove v n a.used (a.dinode n) = { a with
      vinode_hash := update a.vinode_hash n none
      vinodes := update a.vinodes v none } := by
    unfold Afs.remove
    rw [update_eq_self]
  have hcur : (a.remove v n a.used (a.dinode n)).cur = a.cur := by
    funext m
    rw [cur_remove h.cache hV hn]
    by_cases hm : m = n
    · subst hm
      rw [update_self, cur_of_cached hh hV, hsame]
    · rw [update_of_ne hm]
  rw [← heq]
  refine h.remove hV hr ht hn hno (h.disk.congr ?_ hcur rfl rfl) id fun hf => h.count.links n hf
  exact update_eq_self _ _

/-! ## Dentries -/

theorem sameNodes_of_eq (hv : a'.vinodes = a.vinodes) (hl : D'.loose = D.loose) : SameNodes D a D' a' := by
  constructor
  · intro d v V hN
    exact ⟨V, by rw [hv]; exact hN.vinode, hN.rfs, by rw [hl]; exact hN.tight, rfl, rfl⟩
  · intro v V hV _
    rw [hv]
    exact hV

section Dentries

variable {T : ℕ → Option Dentry} {H : Option ℕ × CString → Option ℕ} {S gone : Set ℕ} {next : ℕ} {R : ℕ → ℤ}

def Alike (X X' : Dentry) : Prop := X'.name = X.name ∧ X'.parent = X.parent ∧ X'.dentry_inode = X.dentry_inode

/-- `T`, `H` and `S` are the dentries, the hash table and the dentries outside it after those of `gone` have gone -/
structure Rest (D : Debts) (a : Afs) (T : ℕ → Option Dentry) (H : Option ℕ × CString → Option ℕ)
    (S gone : Set ℕ) : Prop where
  fwd : ∀ x X, a.dentries x = some X → x ∉ D.stray → x ∉ gone → x ∉ S ∧ ∃ X', T x = some X' ∧ Alike X X'
  back : ∀ x X', T x = some X' → x ∉ S → x ∉ D.stray ∧ x ∉ gone ∧ ∃ X, a.dentries x = some X ∧ Alike X X'
  hash : ∀ key x, H key = some x ↔ a.dentry_hash key = some x ∧ x ∉ gone

theorem Rest.holder (hr : Rest D a T H S ∅) (h : TreeInv D a) :
    Afs.holder { a with dentries := T, dentry_hash := H, next := next } = a.holder := by
  have hH : H = a.dentry_hash := by
    funext key
    exact Option.ext fun x => by simp [hr.hash key x]
  funext key
  simp only [Afs.holder, hH]
  cases hk : a.dentry_hash key with
  | none => rfl
  | some x =>
    obtain ⟨hst, X, hX, -⟩ := h.hashed key x hk
    obtain ⟨-, X', hX', -, -, hv⟩ := hr.fwd x X hX hst (Set.notMem_empty x)
    rw [Option.bind_some, Option.bind_some, hX, hX', Option.bind_some, Option.bind_some, hv]

theorem Inv.rest (h : Inv D a) (hr : Rest D a T H S gone) (hnext : a.next ≤ next) (hfresh : ∀ x, next ≤ x → T x = none)
    (hdirs : ∀ x q, DirAt D a x q → x ∉ gone) (hroot : a.vfs_root_dentry ∉ gone)
    (hmount : ∀ x, a.dentry_hash (some a.vfs_root_dentry, ramdisk0) = some x → x ∉ gone)
    (hfiles : ∀ p fd file, (a.pfiles p).opened_files fd = some file → file.f_dentry ∉ S)
    (hrefs : ∀ v V, a.vinodes v = some V → V.host = false → v ∉ D.loose →
      ∃ c : ℕ, Counted (Afs.holder { a with dentries := T, dentry_hash := H, next := next }) v c ∧ V.ref = c + R v) :
    Inv { D with stray := S, refs := R } { a with dentries := T, dentry_hash := H, next := next } := by
  set D' : Debts := { D with stray := S, refs := R }
  set a' : Afs := { a with dentries := T, dentry_hash := H, next := next }
  have hnode : ∀ x v V, Node D a x v V → x ∉ gone → Node D' a' x v V := by
    intro x v V hN hx
    obtain ⟨X, hX, hv⟩ := hN.dentry
    obtain ⟨hst, X', hX', -, -, he⟩ := hr.fwd x X hX hN.hashed hx
    exact ⟨⟨X', hX', he.trans hv⟩, hst, hN.vinode, hN.rfs, hN.tight⟩
  have hdirAt : ∀ x q, DirAt D a x q → DirAt D' a' x q := by
    intro x q hx
    obtain ⟨v, V, hN, h1, h2⟩ := id hx
    exact ⟨v, V, hnode x v V hN (hdirs x q hx), h1, h2⟩
  refine ⟨h.disk.congr rfl rfl rfl rfl, ⟨fun x hx => h.cache.fresh x (hnext.trans hx), h.cache.hashed, h.cache.cached⟩,
    ⟨hfresh, ?_, ?_, ?_, ?_, ?_, ?_⟩, ⟨hrefs, h.count.links, h.count.memory⟩, ?_⟩
  · intro key x hk
    obtain ⟨hk, hx⟩ := (hr.hash key x).1 hk
    obtain ⟨hst, X, hX, he⟩ := h.tree.hashed key x hk
    obtain ⟨hst', X', hX', h1, h2, -⟩ := hr.fwd x X hX hst hx
    exact ⟨hst', X', hX', by rw [h1, h2, he]⟩
  · intro x X' hX' hst
    obtain ⟨hst', hx, X, hX, h1, h2, h3⟩ := hr.back x X' hX' hst
    obtain ⟨hkey, hplace⟩ := h.tree.placed x X hX hst'
    refine ⟨by rw [h1, h2]; exact (hr.hash _ x).2 ⟨hkey, hx⟩, hplace.imp (fun hr => ⟨hr.1, ?_⟩) fun hp => ?_⟩
    · obtain ⟨h4, v, V, hv, hV⟩ := hr.2
      exact ⟨h2.trans h4, v, V, h3.trans hv, hV⟩
    · obtain ⟨up, v, V, hpar, hlt, hN, hpl⟩ := hp
      refine ⟨up, v, V, h2.trans hpar, hlt, hnode x v V hN hx, hpl.imp (fun hr => ⟨hr.1, h1.trans hr.2.1, hr.2.2⟩) ?_⟩
      intro ⟨h4, p, h5, h6⟩
      exact ⟨h4, p, hdirAt up p h5, by rw [h1]; exact h6⟩
  · obtain ⟨X, hX, hst, h3⟩ := h.tree.root
    obtain ⟨hst', X', hX', -, h5, h6⟩ := hr.fwd _ X hX hst hroot
    obtain ⟨h7, v, V, hv, hV⟩ := h3
    exact ⟨X', hX', hst', h5.trans h7, v, V, h6.trans hv, hV⟩
  · obtain ⟨x, hx⟩ := h.tree.mount
    exact ⟨x, (hr.hash _ x).2 ⟨hx, hmount x hx⟩⟩
  · intro p fd file hf
    exact ⟨lt_of_lt_of_le (h.tree.files p fd file hf).1 hnext, hfiles p fd file hf⟩
  · exact fun p => (h.tree.cwd p).imp id fun ⟨n, hn⟩ => ⟨n, hdirAt _ n hn⟩
  · refine h.dirs.congr (fun _ hm => hm) rfl fun x q hx => ?_
    obtain ⟨v, V, hN, hVt, hVi⟩ := hx
    obtain ⟨X', hX', hv⟩ := hN.dentry
    obtain ⟨hst, -, X, hX, -, -, he⟩ := hr.back x X' hX' hN.hashed
    exact ⟨v, V, ⟨⟨X, hX, he.symm.trans hv⟩, hst, hN.vinode, hN.rfs, hN.tight⟩, hVt, hVi⟩

theorem Inv.restAll (h : Inv D a) (hr : Rest D a T a.dentry_hash S ∅) (hnext : a.next ≤ next)
    (hfresh : ∀ x, next ≤ x → T x = none)
    (hfiles : ∀ p fd file, (a.pfiles p).opened_files fd = some file → file.f_dentry ∉ S) :
    Inv { D with stray := S } { a with dentries := T, next := next } := by
  refine h.rest hr hnext hfresh (fun _ _ _ => Set.notMem_empty _) (Set.notMem_empty _) (fun _ _ =>
    Set.notMem_empty _) hfiles ?_
  rw [hr.holder h.tree]
  exact h.count.refs

end Dentries

theorem Inv.setStray {o : Option Dentry} {S : Set ℕ} {next : ℕ} (h : Inv D a) (hd : d ∈ D.stray ∨ a.next ≤ d)
    (hS : ∀ x, x ≠ d → (x ∈ S ↔ x ∈ D.stray)) (ho : o = none ∨ d ∈ S) (hnext : a.next ≤ next) (hlt : d < next) :
    Inv { D with stray := S } { a with dentries := update a.dentries d o, next := next } := by
  have hne : ∀ x, x < a.next → x ∉ D.stray → x ≠ d := by
    rintro x hlt hx rfl
    rcases hd with hd | hd
    · exact hx hd
    · omega
  refine h.restAll ⟨fun x X hX hst _ => ?_, fun x X hX hst => ?_, fun _ _ => by simp⟩ hnext (fun x hx => ?_)
    fun p fd file hf hm => ?_
  · have hx := hne x (h.dentry_lt hX) hst
    exact ⟨fun hm => hst ((hS x hx).1 hm), X, (update_of_ne hx _ _).trans hX, rfl, rfl, rfl⟩
  · rcases update_cases hX with ⟨rfl, hX⟩ | ⟨hx, hX⟩
    · grind
    · exact ⟨fun hm => hst ((hS x hx).2 hm), Set.notMem_empty x, X, hX, rfl, rfl, rfl⟩
  · exact (update_of_ne (by omega) _ _).trans (h.tree.fresh x (by omega))
  · obtain ⟨h1, h2⟩ := h.tree.files p fd file hf
    exact h2 ((hS _ (hne _ h1 h2)).1 hm)

theorem Inv.setDref (h : Inv D a) (hDe : a.dentries d = some De) (z : ℤ) :
    Inv D { a with dentries := update a.dentries d (some { De with d_ref := z }) } := by
  refine h.restAll ⟨fun x X hX hst _ => ⟨hst, ?_⟩, fun x X hX hst => ⟨hst, Set.notMem_empty x, ?_⟩,
    fun _ _ => by simp⟩ le_rfl
    (fun x hx => ?_) fun p fd file hf => (h.tree.files p fd file hf).2
  · unfold Alike
    grind
  · unfold Alike
    grind [update_cases]
  · have := h.dentry_lt hDe
    exact (update_of_ne (by omega) _ _).trans (h.tree.fresh x hx)

theorem holder_update {key : Option ℕ × CString} {o : Option ℕ} :
    Afs.holder { a with dentry_hash := update a.dentry_hash key o } =
      update a.holder key (o.bind fun d => (a.dentries d).bind (·.dentry_inode)) := by
  funext k
  unfold Afs.holder
  by_cases hk : k = key
  · subst hk
    simp only [update_self]
  · simp only [update_of_ne hk]

theorem find_mem {name : CString} {x : ℤ} (h : a.find p name = some x) : ∃ e ∈ a.dir p, e.name = name ∧ e.inum = x := by
  obtain ⟨e, he, hx⟩ := Option.map_eq_some_iff.1 h
  grind

theorem dir_lt_of_mem (h : DiskInv a) {e : Entry} (he : e ∈ a.dir p) : p < NINODES := by
  apply h.live_lt
  intro ht
  rw [h.nil p (by rw [ht]; decide)] at he
  cases he

theorem entry_unique {q : ℕ} (h : DiskInv a) (hlinks : a.links m ≤ 1) {e e' : Entry} (he : e ∈ a.dir p)
    (hi : e.inum = m) (he' : e' ∈ a.dir q) (hi' : e'.inum = m) : p = q ∧ e = e' := by
  have hcount : ∀ r x, x ∈ a.dir r → x.inum = m → 1 ≤ (a.dir r).countP fun e => e.inum = (m : ℤ) := by grind
  have hp : p ∈ Finset.range 320 := Finset.mem_range.2 (dir_lt_of_mem h he)
  have hq : q ∈ Finset.range 320 := Finset.mem_range.2 (dir_lt_of_mem h he')
  by_cases hpq : p = q
  · subst hpq
    refine ⟨rfl, ?_⟩
    have hle : (a.dir p).countP (fun e => e.inum = (m : ℤ)) ≤ 1 :=
      (Finset.single_le_sum (fun r _ => Nat.zero_le _) hp).trans hlinks
    rw [List.countP_eq_length_filter] at hle
    have h1 : e ∈ (a.dir p).filter fun e => e.inum = (m : ℤ) := List.mem_filter.2 ⟨he, by simpa using hi⟩
    have h2 : e' ∈ (a.dir p).filter fun e => e.inum = (m : ℤ) := List.mem_filter.2 ⟨he', by simpa using hi'⟩
    obtain ⟨i, hi, rfl⟩ := List.mem_iff_getElem.1 h1
    obtain ⟨j, hj, rfl⟩ := List.mem_iff_getElem.1 h2
    congr 1
    omega
  · exfalso
    have hsub : ({p, q} : Finset ℕ) ⊆ Finset.range 320 := by grind
    have hsum : ∑ r ∈ {p, q}, (a.dir r).countP (fun e => e.inum = (m : ℤ)) ≤ 1 :=
      (Finset.sum_le_sum_of_subset hsub).trans hlinks
    grind

theorem Inv.no_second_place {up q : ℕ} {name : CString} (h : Inv D a) (hq : (a.dinode q).type = DIR_I)
    (hd : DirAt D a d q)
    (hup : DirAt D a up p) (hfind : a.find p name = some q) (hfree : a.dentry_hash (some up, name) = none) : False := by
  obtain ⟨v, V, hN, hVt, hVi⟩ := hd
  obtain ⟨De, hDe, hv⟩ := hN.dentry
  obtain ⟨e, he, hname, hinum⟩ := find_mem hfind
  obtain ⟨hkey, hplace⟩ := h.tree.placed d De hDe hN.hashed
  rcases hplace with ⟨-, -, x, X, hx, hX, hh, -⟩ | ⟨up', x, X, hpar, -, hN', hpl⟩
  · exact hN.not_host hDe hx hX hh
  · obtain ⟨rfl, rfl⟩ := hN.unique hN'
    rcases hpl with ⟨-, -, h0⟩ | ⟨-, p', hup', hfind'⟩
    · obtain rfl : q = 0 := by omega
      have h1 := h.dirs.root
      unfold Afs.links at h1
      rw [Finset.sum_eq_zero_iff] at h1
      have h2 := h1 p (Finset.mem_range.2 (dir_lt_of_mem h.disk he))
      rw [List.countP_eq_zero] at h2
      exact h2 e he (by simpa using hinum)
    · obtain ⟨e', he', hname', hinum'⟩ := find_mem hfind'
      obtain ⟨rfl, rfl⟩ := entry_unique h.disk (h.dirs.links q hq) he hinum he' (hinum'.trans hVi)
      obtain rfl := h.dirs.unique up up' p hup hup'
      rw [hpar, ← hname', hname, hfree] at hkey
      cases hkey

theorem Inv.hashDentry {up : ℕ} (h : Inv D a) (hd : d ∈ D.stray) (hDe : a.dentries d = some De)
    (hfree : a.dentry_hash (De.parent, De.name) = none) (hpar : De.parent = some up) (hup : up < d)
    (hne : up ≠ a.vfs_root_dentry) (hdir : DirAt D a up p) (hv : De.dentry_inode = some v) (hV : a.vinodes v = some V)
    (hr : V.host = false) (ht : v ∉ D.loose) (hfind : a.find p De.name = some V.inum) :
    Inv { D with stray := D.stray \ {d}, refs := update D.refs v (D.refs v - 1) }
      { a with dentry_hash := update a.dentry_hash (De.parent, De.name) (some d) } := by
  set D' : Debts := { D with stray := D.stray \ {d}, refs := update D.refs v (D.refs v - 1) }
  set a' : Afs := { a with dentry_hash := update a.dentry_hash (De.parent, De.name) (some d) }
  have hnode : ∀ x w W, Node D a x w W → Node D' a' x w W := by
    intro x w W hN
    exact { hN with hashed := fun hm => hN.hashed hm.1 }
  have hdirAt : ∀ x q, DirAt D a x q → DirAt D' a' x q := by
    rintro x q ⟨w, W, hN, h1, h2⟩
    exact ⟨w, W, hnode x w W hN, h1, h2⟩
  have hvalue : (some d).bind (fun d => (a.dentries d).bind (·.dentry_inode)) = some v := by
    rw [Option.bind_some, hDe, Option.bind_some, hv]
  have hunheld : a.holder (De.parent, De.name) = none := by
    unfold Afs.holder
    rw [hfree]
    rfl
  refine ⟨h.disk.congr rfl rfl rfl rfl, { h.cache with }, ⟨h.tree.fresh, ?_, ?_, ?_, ?_, ?_, ?_⟩,
    ⟨?_, h.count.links, h.count.memory⟩, ⟨h.dirs.links, h.dirs.root, ?_⟩⟩
  · intro key x hk
    rcases update_cases hk with ⟨rfl, hO⟩ | ⟨-, hk⟩
    · cases hO
      exact ⟨fun hm => hm.2 rfl, De, hDe, rfl⟩
    · obtain ⟨hst, X, hX, he⟩ := h.tree.hashed key x hk
      exact ⟨fun hm => hst hm.1, X, hX, he⟩
  · intro x X hX hst
    by_cases hx : x = d
    · subst hx
      cases hDe.symm.trans hX
      have hN : Node D' a' x v V := ⟨⟨De, hDe, hv⟩, fun hm => hm.2 rfl, hV, hr, ht⟩
      exact ⟨update_self _ _ _, .inr ⟨up, v, V, hpar, hup, hN, .inr ⟨hne, p, hdirAt up p hdir, hfind⟩⟩⟩
    · obtain ⟨hkey, hplace⟩ := h.tree.placed x X hX fun hm => hst ⟨hm, hx⟩
      refine ⟨?_, hplace.imp id fun hp => ?_⟩
      · grind
      · obtain ⟨up', w, W, h1, h2, hN, h3⟩ := hp
        exact ⟨up', w, W, h1, h2, hnode x w W hN, h3.imp id fun ⟨h4, q, h5, h6⟩ => ⟨h4, q, hdirAt up' q h5, h6⟩⟩
  · obtain ⟨X, h1, h2, h3⟩ := h.tree.root
    exact ⟨X, h1, fun hm => h2 hm.1, h3⟩
  · obtain ⟨x, hx⟩ := h.tree.mount
    refine ⟨x, (update_of_ne ?_ _ _).trans hx⟩
    intro he
    rw [he, hfree] at hx
    cases hx
  · intro q fd file hf
    obtain ⟨h1, h2⟩ := h.tree.files q fd file hf
    exact ⟨h1, fun hm => h2 hm.1⟩
  · intro q
    exact (h.tree.cwd q).imp id fun ⟨n, h1⟩ => ⟨n, hdirAt _ _ h1⟩
  · intro x X hX hXh hXt
    obtain ⟨c, hc, he⟩ := h.count.refs x X hX hXh hXt
    rw [holder_update, hvalue]
    by_cases hx : x = v
    · subst hx
      refine ⟨c + 1, hc.add (by rw [hunheld]; simp), ?_⟩
      simp only [D', update_self]
      omega
    · refine ⟨c, hc.other (by rw [hunheld]; simp) (by simpa using fun he => hx he.symm), ?_⟩
      simp only [D', update_of_ne hx]
      exact he
  · -- the new dentry and another one
    have hold : ∀ x q, DirAt D' a' x q → x ≠ d → DirAt D a x q := by
      intro x q hx hne
      obtain ⟨w, W, hN, hWt, hWi⟩ := hx
      exact ⟨w, W, { hN with hashed := fun hm => hN.hashed ⟨hm, hne⟩ }, hWt, hWi⟩
    have hnew : ∀ x q, DirAt D' a' d q → DirAt D a x q → False := by
      intro x q hd hx
      obtain ⟨w, W, hN, hWt, hWi⟩ := hd
      cases hv.symm.trans (hN.inode hDe)
      cases hV.symm.trans hN.vinode
      rw [hWi] at hfind
      obtain ⟨-, -, hs, -⟩ := h.cachedAt hV hr ht hWi
      exact h.no_second_place (hs.type.symm.trans hWt) hx hdir hfind (by rw [← hpar]; exact hfree)
    intro x x' q hx hx'
    by_cases hxd : x = d
    · grind
    · by_cases hxd' : x' = d
      · subst hxd'
        exact (hnew x q hx' (hold x q hx hxd)).elim
      · exact h.dirs.unique x x' q (hold x q hx hxd) (hold x' q hx' hxd')

theorem Inv.dropDentry (h : Inv D a) (hN : Node D a d v V) (hfile : V.type ≠ DIR_I) (hDe : a.dentries d = some De) :
    Inv { D with refs := update D.refs v (D.refs v + 1) }
      { a with
        dentry_hash := update a.dentry_hash (De.parent, De.name) none
        dentries := update a.dentries d none } := by
  obtain ⟨hkey, hplace⟩ := h.tree.placed d De hDe hN.hashed
  have hv := hN.inode hDe
  have hdirs : ∀ x q, DirAt D a x q → x ≠ d := by
    rintro x q ⟨w, W, hN', h1, h2⟩ rfl
    obtain ⟨rfl, rfl⟩ := hN.unique hN'
    exact hfile h1
  have hroot : a.vfs_root_dentry ≠ d := by
    intro he
    obtain ⟨X, hX, -, -, w, W, hw, hW, hh, -⟩ := h.tree.root
    rw [he] at hX
    exact hN.not_host hX hw hW hh
  have hplace := hplace.resolve_left fun hr => hroot hr.1.symm
  have hmount : (some a.vfs_root_dentry, ramdisk0) ≠ (De.parent, De.name) := by
    intro he
    obtain ⟨up, w, W, hpar, -, hN', hpl⟩ := hplace
    obtain ⟨rfl, rfl⟩ := hN.unique hN'
    rcases hpl with ⟨-, -, hi⟩ | ⟨hne, -⟩
    · obtain ⟨-, -, hs, -⟩ := hN.cachedAt h (n := 0) hi
      exact hfile (hs.type.trans h.disk.root)
    · rw [hpar] at he
      exact hne (Option.some.inj (Prod.mk.inj he).1).symm
  have hhash : ∀ key x, update a.dentry_hash (De.parent, De.name) none key = some x ↔ a.dentry_hash key = some x ∧
    x ∉ ({d} : Set ℕ) := by
    intro key x
    by_cases hk : key = (De.parent, De.name)
    · subst hk
      simp [hkey, eq_comm]
    · rw [update_of_ne hk, Set.mem_singleton_iff]
      refine ⟨fun hx => ⟨hx, ?_⟩, fun hx => hx.1⟩
      rintro rfl
      obtain ⟨-, X, hX, he⟩ := h.tree.hashed key x hx
      cases hDe.symm.trans hX
      exact hk he.symm
  have hholder : Afs.holder { a with
        dentry_hash := update a.dentry_hash (De.parent, De.name) none
        dentries := update a.dentries d none } = update a.holder (De.parent, De.name) none := by
    funext key
    by_cases hkk : key = (De.parent, De.name)
    · subst hkk
      simp only [Afs.holder, update_self, Option.bind_none]
    · simp only [Afs.holder, update_of_ne hkk]
      cases hk : a.dentry_hash key with
      | none => rfl
      | some x =>
        have hx : x ≠ d := ((hhash key x).1 ((update_of_ne hkk _ _).trans hk)).2
        rw [Option.bind_some, Option.bind_some, update_of_ne hx]
  refine h.rest ⟨fun x X hX hst hx => ?_, fun x X hX hst => ?_, hhash⟩ le_rfl (fun x hx => ?_) hdirs hroot ?_
    (fun p fd file hf => (h.tree.files p fd file hf).2) fun x X hX hXh hXt => ?_
  · exact ⟨hst, X, (update_of_ne hx _ _).trans hX, rfl, rfl, rfl⟩
  · rcases update_cases hX with ⟨-, hO⟩ | ⟨hx, hX⟩
    · cases hO
    · exact ⟨hst, hx, X, hX, rfl, rfl, rfl⟩
  · have := h.dentry_lt hDe
    exact (update_of_ne (by omega) _ _).trans (h.tree.fresh x hx)
  · exact fun x hx => ((hhash _ x).1 ((update_of_ne hmount _ _).trans hx)).2
  · obtain ⟨c, hc, he⟩ := h.count.refs x X hX hXh hXt
    have hheld : a.holder (De.parent, De.name) = some v := by
      unfold Afs.holder
      rw [hkey, Option.bind_some, hDe, Option.bind_some, hv]
    rw [hholder]
    by_cases hx : x = v
    · subst hx
      have hpos := hc.pos hheld
      refine ⟨c - 1, hc.remove hheld (by simp), ?_⟩
      simp only [update_self]
      omega
    · refine ⟨c, hc.other (by rw [hheld]; simpa using fun he => hx he.symm) (by simp), ?_⟩
      simp only [update_of_ne hx]
      exact he

theorem Inv.setPfiles {pf : ℕ → Pfiles} (h : Inv D a)
    (hfiles : ∀ p fd file, (pf p).opened_files fd = some file → file.f_dentry < a.next ∧ file.f_dentry ∉ D.stray)
    (hcwd : ∀ p, (pf p).cwd = a.vfs_root_dentry ∨ ∃ n, DirAt D a (pf p).cwd n) : Inv D { a with pfiles := pf } := by
  have hsame : SameNodes D a D { a with pfiles := pf } := sameNodes_of_eq rfl rfl
  have hhashed : ∀ x q, DirAt D a x q → x ∉ D.stray := by
    rintro x q ⟨v, V, hN, -⟩
    exact hN.hashed
  refine ⟨h.disk.congr rfl rfl rfl rfl, { h.cache with },
    ⟨h.tree.fresh, h.tree.hashed, ?_, h.tree.root, h.tree.mount, hfiles, ?_⟩, { h.count with },
    h.dirs.congr (fun _ hm => hm) rfl fun _ _ hx => hx.congr rfl rfl rfl rfl⟩
  · intro x X hX hst
    obtain ⟨hk, hpl⟩ := h.tree.placed x X hX hst
    refine ⟨hk, hpl.imp id fun hp => ?_⟩
    exact hp.congr hsame rfl rfl hst (fun up q hup => ⟨rfl, hhashed up q hup⟩) fun _ _ _ _ _ hx => hx
  · intro q
    exact (hcwd q).imp id fun ⟨n, hn⟩ => ⟨n, hsame.dirAt hn rfl (hhashed _ _ hn)⟩

/-! ## The debts -/

theorem Inv.debts (h : Inv D a) (hstray : D'.stray = D.stray) (hloose : D'.loose = D.loose)
    (hlinks : ∀ n, (a.dinode n).type = FILE_I → D'.links n = D.links n)
    (hmemory : ∀ v V (n : ℕ), a.vinodes v = some V → V.host = false → v ∉ D.loose → V.type = FILE_I → V.inum = n →
      D'.memory n = D.memory n)
    (hrefs : ∀ v V, a.vinodes v = some V → V.host = false → v ∉ D.loose → D'.refs v = D.refs v) : Inv D' a := by
  refine ⟨h.disk, ⟨h.cache.fresh, ?_, ?_⟩, ?_, ⟨?_, ?_, ?_⟩, ?_⟩
  · rw [hloose]
    exact h.cache.hashed
  · rw [hloose]
    exact h.cache.cached
  · exact h.tree.congr (sameNodes_of_eq rfl hloose) le_rfl rfl rfl rfl rfl hstray fun _ _ _ _ _ _ _ hx => hx
  · rw [hloose]
    intro v V hV hr ht
    rw [hrefs v V hV hr ht]
    exact h.count.refs v V hV hr ht
  · intro n hn
    rw [hlinks n hn]
    exact h.count.links n hn
  · rw [hloose]
    intro v V n hV hr ht hf hn
    rw [hmemory v V n hV hr ht hf hn]
    exact h.count.memory v V n hV hr ht hf hn
  · exact h.dirs.congr (fun _ hm => hm) rfl fun _ _ hx => hx.congr rfl rfl hstray.symm hloose.symm

end RiscvPke.Fs
