/-
The elementary steps of the file system calls that change the disk: a new inode, the entries of a directory, a disk
inode that is written again, an inode that is freed. Each keeps the invariant, with the debts that it makes or pays.
-/
import RiscvPke.Fs.Invariant

namespace RiscvPke.Fs

open Function CData RiscvPke.Count

variable {D : Debts} {a : Afs} {n m v w d p b : ℕ} {V W : Vinode} {De : Dentry}

/-! ## What the invariant says about one inode -/

theorem live_of_type (ht : (a.dinode n).type = FILE_I ∨ (a.dinode n).type = DIR_I) : Live a n := by
  unfold Live
  rcases ht with ht | ht <;> rw [ht] <;> decide

theorem Inv.unhashed_of_free (h : Inv D a) (hfree : (a.dinode n).type = R_FREE) : a.vinode_hash n = none := by
  cases hk : a.vinode_hash n with
  | none => rfl
  | some v =>
    obtain ⟨V, hV, hi, hr, ht⟩ := h.cache.hashed _ _ hk
    obtain ⟨-, hl, -⟩ := h.cachedAt hV hr ht hi
    exact absurd hfree hl

theorem Inv.links_of_free (h : Inv D a) (hfree : (a.dinode n).type = R_FREE) : a.links n = 0 := by
  apply Finset.sum_eq_zero
  intro p _
  rw [List.countP_eq_zero]
  intro e he
  obtain ⟨-, m, hm, hl⟩ := h.disk.entries p e he
  intro hn
  obtain rfl : m = n := by
    have := of_decide_eq_true hn
    omega
  exact hl hfree

theorem links_eq_zero (h : a.links n = 0) (hp : p < NINODES) {e : Entry} (he : e ∈ a.dir p) : e.inum ≠ n := by
  unfold Afs.links at h
  rw [Finset.sum_eq_zero_iff] at h
  grind

theorem Inv.cur_dir (h : Inv D a) (ht : (a.dinode p).type = DIR_I) : a.cur p = a.dinode p := by
  have hs := h.cache.synced p
  exact hs.dir (hs.type.trans ht)

theorem Inv.dirBlock (h : Inv D a) (ht : (a.dinode p).type = DIR_I) :
    (a.dinode p).blocks = 1 ∧ ∃ b < NBLOCKS, (a.dinode p).addrs 0 = 12 + (b : ℕ) := by
  have hlive : Live a p := live_of_type (.inr ht)
  have hone := (h.disk.shape p hlive).dir
  have howned := h.disk.owned p 0 hlive
  rw [h.cur_dir ht] at hone howned
  have h1 := hone ht
  obtain ⟨b, hb, he, -⟩ := howned (by rw [h1]; decide)
  exact ⟨h1, b, hb, he⟩

theorem Inv.dirBlocks (h : Inv D a) : DirBlocks a := fun _ hm => (h.dirBlock hm).2

theorem Inv.folder (h : Inv D a) (hW : a.vinodes w = some W) (hr : W.host = false) (hl : w ∉ D.loose)
    (ht : W.type = DIR_I) (hp : W.inum = p) : Folder a w W p := by
  obtain ⟨-, hlive, hs, -⟩ := h.cachedAt hW hr hl hp
  have hsame : W.toDinode = a.dinode p := hs.dir ht
  have htype : (a.dinode p).type = DIR_I := hs.type.symm.trans ht
  obtain ⟨hone, hblock⟩ := h.dirBlock htype
  obtain ⟨hsize, hlen⟩ := h.disk.length p htype
  refine ⟨hW, hp, h.disk.live_lt p hlive, ht, hsame, ?_, hlen, ?_, ?_, ?_, fun e he => (h.disk.entries p e he).1⟩
  · rw [← hsize, ← hsame]
  · rw [hsame]
    exact hblock
  · rw [hsame]
    exact hone
  · intro m hm hmt he
    rw [hsame, ← h.cur_dir hmt, ← h.cur_dir htype] at he
    refine hm (h.disk.exclusive m p 0 0 (live_of_type (.inr hmt)) hlive ?_ ?_ he).1
    · rw [h.cur_dir hmt, (h.dirBlock hmt).1]
      decide
    · rw [h.cur_dir htype, hone]
      decide

/-! ## A new inode -/

theorem Inv.newInode {type : ℤ} (h : Inv D a) (hn : n < NINODES) (hfree : (a.dinode n).type = R_FREE) (hb : b < NBLOCKS)
    (hused : a.used b = false) (ht : type = FILE_I ∨ type = DIR_I) :
    Inv { D with links := update D.links n 1 }
      { a with
        used := update a.used b true
        dinode := update a.dinode n ((a.dinode n).fresh b type) } := by
  have hnil : a.dir n = [] := h.disk.nil n (by rw [hfree]; decide)
  have hlinks : a.links n = 0 := h.links_of_free hfree
  have hk : Elsewhere a { a with
      used := update a.used b true
      dinode := update a.dinode n ((a.dinode n).fresh b type) } n := by
    refine ⟨fun m hm => update_of_ne hm _ _, fun m hm => ?_, fun _ _ => rfl, fun m i c _ _ _ _ hc => ?_,
      fun q e he hi => ?_⟩
    · unfold Afs.cur
      simp only [update_of_ne hm]
    · grind
    · exact absurd hi (links_eq_zero hlinks (dir_lt_of_mem h.disk he) he)
  -- there is one block
  have hfirst : ∀ i : Fin 10, (i : ℤ) < ((a.dinode n).fresh b type).blocks → i = 0 := by
    intro i hi
    have : (i : ℤ) < 1 := hi
    exact Fin.ext (by simp; omega)
  have haddr : ((a.dinode n).fresh b type).addrs 0 = 12 + (b : ℤ) := by simp [Dinode.fresh]
  have hcached : ∀ x X (m : ℕ), a.vinodes x = some X → X.host = false → x ∉ D.loose → X.inum = m → m ≠ n := by
    rintro x X m hX hXh hXt hm rfl
    obtain ⟨-, hl, -⟩ := h.cachedAt hX hXh hXt hm
    exact hl hfree
  refine ⟨h.disk.change hk (update_self _ _ _)
    (Eq.trans (cur_of_none (h.unhashed_of_free hfree)) (update_self _ _ _)) hnil
    ⟨hn, fresh_ints (h.disk.ints n) hb (by rcases ht with rfl | rfl <;> decide), ?_, fun _ => ?_, ?_, ?_, ?_, ?_,
      fun _ => rfl, ?_⟩,
    ⟨h.cache.fresh, h.cache.hashed, ?_⟩, ?_, ⟨h.count.refs, ?_, ?_⟩,
    ⟨?_, h.dirs.root, fun x x' q hx hx' => h.dirs.unique x x' q (hx.congr rfl rfl rfl rfl) (hx'.congr rfl rfl rfl rfl)⟩⟩
  · rintro rfl
    exact absurd (h.disk.root.symm.trans hfree) (by decide)
  · exact ⟨ht, ⟨by simp [Dinode.fresh], by simp [Dinode.fresh]⟩,
      ⟨by simp [Dinode.fresh], by simp [Dinode.fresh]⟩, fun _ => rfl⟩
  · intro _ i hi
    obtain rfl := hfirst i hi
    exact ⟨b, hb, haddr, update_self _ _ _⟩
  · intro _ i j hi hj _
    exact (hfirst i hi).trans (hfirst j hj).symm
  · intro _ m i j hm hl hi hj he
    obtain rfl := hfirst i hi
    exact h.disk.unowned hused j hl hj (he.symm.trans haddr)
  · exact fun _ => ⟨by simp [Dinode.fresh], by simp⟩
  · exact fun x hx => absurd hx List.not_mem_nil
  · intro x X hX hXh hXt
    obtain ⟨h1, h2, m, h3, hl, h4⟩ := h.cache.cached x X hX hXh hXt
    have hmn := hcached x X m hX hXh hXt h3
    exact ⟨h1, h2, m, h3, (hk.live hmn).2 hl, hk.dinode m hmn ▸ h4⟩
  · exact h.tree.congr (sameNodes_of_eq rfl rfl) le_rfl rfl rfl rfl rfl rfl fun _ _ _ _ _ _ _ hx => hx
  · intro m hm
    by_cases hmn : m = n
    · subst hmn
      simp only [update_self]
      show (1 : ℤ) = (a.links m : ℤ) + 1
      rw [hlinks]
      rfl
    · simp only [update_of_ne hmn] at hm ⊢
      exact h.count.links m hm
  · intro x X m hX hXh hXt hXf hm
    rw [hk.dinode m (hcached x X m hX hXh hXt hm)]
    exact h.count.memory x X m hX hXh hXt hXf hm
  · intro m hm
    by_cases hmn : m = n
    · subst hmn
      exact hlinks.trans_le (Nat.zero_le 1)
    · simp only [update_of_ne hmn] at hm
      exact h.dirs.links m hm

/-! ## The entries of a directory -/

def linksIn (l : List Entry) (n : ℕ) : ℕ := l.countP fun e => e.inum = (n : ℤ)

theorem links_update {l : List Entry} (hp : p < NINODES) :
    (Afs.links { a with dir := update a.dir p l } n : ℤ) = a.links n + linksIn l n - linksIn (a.dir p) n := by
  have hmem : p ∈ Finset.range 320 := Finset.mem_range.2 hp
  have hsplit : ∀ f : ℕ → List Entry, ∑ q ∈ Finset.range 320, linksIn (f q) n =
      linksIn (f p) n + ∑ q ∈ (Finset.range 320).erase p, linksIn (f q) n := fun f =>
    (Finset.add_sum_erase _ _ hmem).symm
  have hrest : ∑ q ∈ (Finset.range 320).erase p, linksIn (update a.dir p l q) n =
      ∑ q ∈ (Finset.range 320).erase p, linksIn (a.dir q) n := by
    apply Finset.sum_congr rfl
    intro q hq
    rw [update_of_ne (Finset.ne_of_mem_erase hq)]
  have h1 := hsplit (update a.dir p l)
  have h2 := hsplit a.dir
  grind [Afs.links, linksIn]

def Afs.putDir (a : Afs) (w : ℕ) (W : Vinode) (p : ℕ) (l : List Entry) : Afs :=
  { a with
    vinodes := update a.vinodes w (some { W with size := 32 * (l.length : ℤ) })
    dinode := update a.dinode p { W.toDinode with size := 32 * (l.length : ℤ) }
    dir := update a.dir p l }

theorem Inv.rewriteDir {l : List Entry} (h : Inv D a) (hW : a.vinodes w = some W) (hr : W.host = false)
    (hl : w ∉ D.loose) (hp : W.inum = p) (ht : W.type = DIR_I) (hlen : l.length ≤ BLOCK_DIRENTRYS)
    (hent : ∀ e ∈ l, e.name.length < RFS_MAX_FILE_NAME_LEN ∧ ∃ m : ℕ, e.inum = m ∧ Live a m)
    (hfind : ∀ up name x d, a.dentry_hash (some up, name) = some d → DirAt D a up p → a.find p name = some x →
      (l.find? (·.name = name)).map (·.inum) = some x)
    (hdirs : ∀ m, (a.dinode m).type = DIR_I → a.links m + linksIn l m ≤ linksIn (a.dir p) m + 1)
    (hroot : linksIn l 0 ≤ linksIn (a.dir p) 0) :
    Inv { D with links := fun n => D.links n + linksIn (a.dir p) n - linksIn l n } (a.putDir w W p l) := by
  have hblksize : RFS_BLKSIZE = 4096 := rfl
  have hdirentrys : BLOCK_DIRENTRYS = 128 := rfl
  obtain ⟨hh, hlive, hs, hints, hcur⟩ := h.cachedAt hW hr hl hp
  have hsame : W.toDinode = a.dinode p := hs.dir ht
  have hplt : p < 320 := h.disk.live_lt p hlive
  have hshape := h.disk.shape p hlive
  rw [hcur] at hshape
  have hone : W.blocks = 1 := hshape.dir ht
  have hints' := hints.resize (z := 32 * (l.length : ℤ)) (by constructor <;> omega)
  have hlive' : Live (a.putDir w W p l) p := by
    have h1 : W.type ≠ R_FREE := by
      rw [ht]
      decide
    simpa [Live, Afs.putDir] using h1
  have hk : Elsewhere a (a.putDir w W p l) p := by
    refine ⟨fun m hm => update_of_ne hm _ _, fun m hm => ?_, fun m hm => update_of_ne hm _ _,
      fun _ _ _ _ _ _ _ hu => hu,
      fun _ _ _ _ => hlive'⟩
    have hcur' := congrFun (h.cache.cur_update (W := { W with size := 32 * (l.length : ℤ) }) hh) m
    rw [update_of_ne hm] at hcur'
    rw [← hcur']
    unfold Afs.cur Afs.putDir
    simp only [update_of_ne hm]
  have hlinks : ∀ m, ((a.putDir w W p l).links m : ℤ) = a.links m + linksIn l m - linksIn (a.dir p) m := fun m =>
    links_update (a := a) hplt
  have hdisk : DiskInv (a.putDir w W p l) := by
    refine h.disk.change (c := { W.toDinode with size := 32 * (l.length : ℤ) }) hk (update_self _ _ _)
      (cur_of_cached (a := a.putDir w W p l) hh (update_self _ _ _)) (update_self _ _ _)
      ⟨hplt, hints', fun _ => ht, fun _ => ?_, fun _ i hi => ?_, fun _ i j hi hj he => ?_,
        fun _ m i j hm hlm hi hj he => ?_,
        fun _ => ⟨rfl, hlen⟩, fun hd => absurd ht hd, fun e he => ?_⟩
    · exact ⟨hshape.type, hshape.blocks, ⟨by simp, by simp only [hone]; omega⟩, fun _ => hone⟩
    · exact hcur ▸ h.disk.owned p i hlive (hcur ▸ hi)
    · exact (h.disk.exclusive p p i j hlive hlive (hcur ▸ hi) (hcur ▸ hj) (hcur ▸ he)).2
    · exact hm (h.disk.exclusive p m i j hlive hlm (hcur ▸ hi) hj (hcur ▸ he)).1.symm
    · obtain ⟨h1, m, h2, h3⟩ := hent e he
      refine ⟨h1, m, h2, ?_⟩
      by_cases hmp : m = p
      · exact hmp ▸ hlive'
      · exact (hk.live hmp).2 h3
  have hnot : W.type ≠ FILE_I := by
    rw [ht]
    decide
  have key := h.change (W := { W with size := 32 * (l.length : ℤ) }) (u := a.used) (M := D.memory)
    (L := fun n => D.links n + linksIn (a.dir p) n - linksIn l n) hW hr hl hp rfl hr rfl hints' ?_ hk.dinode hdisk ?_ ?_
    (fun hf => absurd hf hnot) (fun _ _ => rfl) ?_ ?_
  · rw [update_add_zero (Int.sub_self W.ref)] at key
    exact key
  · simp only [Afs.putDir, update_self]
    exact ⟨rfl, fun _ => rfl, le_refl _, fun _ _ => rfl⟩
  · intro up q name x d hd hdir hx
    by_cases hqp : q = p
    · subst hqp
      simp only [update_self]
      exact hfind up name x d hd hdir hx
    · simp only [update_of_ne hqp]
      exact hx
  · intro m hm
    have hmp : m ≠ p := by
      rintro rfl
      simp only [Afs.putDir, update_self] at hm
      exact hnot hm
    have h1 := h.count.links m (hk.dinode m hmp ▸ hm)
    have h2 := hlinks m
    rw [hk.dinode m hmp]
    show _ = ((a.putDir w W p l).links m : ℤ) + _
    omega
  · intro m hm
    have htype : (a.dinode m).type = DIR_I := by
      by_cases hmp : m = p
      · rw [hmp, ← hsame]
        exact ht
      · exact hk.dinode m hmp ▸ hm
    have h1 := hdirs m htype
    have h2 := hlinks m
    show (a.putDir w W p l).links m ≤ 1
    omega
  · have h1 := hlinks 0
    have h2 := h.dirs.root
    show (a.putDir w W p l).links 0 = 0
    omega

/-! ## A disk inode that is written again -/

theorem Inv.setDinode {d' : Dinode} (h : Inv D a) (hV : a.vinodes v = some V) (hr : V.host = false) (hl : v ∉ D.loose)
    (hn : V.inum = n) (hf : V.type = FILE_I) (hints : d'.Ints) (ht : d'.type = FILE_I) (hblocks : d'.blocks ≤ V.blocks)
    (haddrs : ∀ i : Fin 10, (i : ℤ) < d'.blocks → V.addrs i = d'.addrs i) :
    Inv
      { D with
        links := update D.links n (D.links n + (d'.nlinks - (a.dinode n).nlinks))
        memory := update D.memory n (D.memory n - (d'.nlinks - (a.dinode n).nlinks)) }
      { a with dinode := update a.dinode n d' } := by
  obtain ⟨hh, hlive, hs, hvints, hcur⟩ := h.cachedAt hV hr hl hn
  have htype : (a.dinode n).type = FILE_I := hs.type.symm.trans hf
  have hnot : V.type ≠ DIR_I := by
    rw [hf]
    decide
  have heq : a.change v V a.used (update a.dinode n d') a.dir = { a with dinode := update a.dinode n d' } := by
    unfold Afs.change
    rw [← hV, update_eq_self]
  have hsame : ∀ m, (update a.dinode n d' m).type = (a.dinode m).type := by
    intro m
    by_cases hm : m = n
    · rw [hm, update_self, ht, htype]
    · rw [update_of_ne hm]
  have hk : Elsewhere a { a with dinode := update a.dinode n d' } n := by
    refine ⟨fun m hm => update_of_ne hm _ _, fun m hm => ?_, fun _ _ => rfl, fun _ _ _ _ _ _ _ hu => hu,
      fun _ _ _ _ => ?_⟩
    · unfold Afs.cur
      simp only [update_of_ne hm]
    · exact fun hfree => hlive ((hsame n).symm.trans hfree)
  have hdisk : DiskInv { a with dinode := update a.dinode n d' } := by
    refine h.disk.change hk (update_self _ _ _) (cur_of_cached (a := { a with dinode := _ }) hh hV)
      (h.disk.nil n (by rw [htype]; decide))
      ⟨h.disk.live_lt n hlive, hints, fun h0 => ?_, fun _ => hcur ▸ h.disk.shape n hlive, fun _ i hi => ?_,
        fun _ i j hi hj he => ?_,
        fun _ m i j hm hlm hi hj he => ?_, fun hd => ?_, fun _ => rfl, fun x hx => absurd hx List.not_mem_nil⟩
    · exact absurd (h.disk.root.symm.trans (h0 ▸ htype)) (by decide)
    · exact hcur ▸ h.disk.owned n i hlive (hcur ▸ hi)
    · exact (h.disk.exclusive n n i j hlive hlive (hcur ▸ hi) (hcur ▸ hj) (hcur ▸ he)).2
    · exact hm (h.disk.exclusive n m i j hlive hlm (hcur ▸ hi) hj (hcur ▸ he)).1.symm
    · exact absurd (ht.symm.trans hd) (by decide)
  rw [← heq] at hdisk ⊢
  have key := h.change (L := update D.links n (D.links n + (d'.nlinks - (a.dinode n).nlinks)))
    (M := update D.memory n (D.memory n - (d'.nlinks - (a.dinode n).nlinks))) hV hr hl hn rfl hr rfl hvints ?_
    (fun m hm => update_of_ne hm _ _) hdisk (fun _ _ _ _ _ _ _ hx => hx) ?_ (fun _ => ?_) (fun m hm =>
      update_of_ne hm _ _)
    (fun m hm => h.dirs.links m ((hsame m).symm.trans hm)) h.dirs.root
  · rw [update_add_zero (Int.sub_self V.ref)] at key
    exact key
  · rw [update_self]
    exact ⟨hf.trans ht.symm, fun hd => absurd hd hnot, hblocks, haddrs⟩
  · intro m hm
    have h1 := h.count.links m ((hsame m).symm.trans hm)
    by_cases hmn : m = n
    · subst hmn
      rw [update_self, update_self]
      show d'.nlinks = (a.links m : ℤ) + _
      omega
    · rw [update_of_ne hmn, update_of_ne hmn]
      exact h1
  · have h1 := h.count.memory v V n hV hr hl hf hn
    rw [update_self, update_self]
    omega

theorem Inv.freeInode {u : ℕ → Bool} {d' : Dinode} (h : Inv D a) (hV : a.vinodes v = some V) (hr : V.host = false)
    (hl : v ∉ D.loose) (hn : V.inum = n) (hf : V.type = FILE_I) (hno : ∀ key, a.holder key ≠ some v)
    (hlinks : a.links n = 0) (hints : d'.Ints) (ht : d'.type = R_FREE)
    (hu : ∀ b, a.used b = true → (∀ i : Fin 10, (i : ℤ) < V.blocks → V.addrs i ≠ 12 + (b : ℤ)) → u b = true) :
    Inv D (a.remove v n u d') := by
  obtain ⟨hh, hlive, hs, -, hcur⟩ := h.cachedAt hV hr hl hn
  have htype : (a.dinode n).type = FILE_I := hs.type.symm.trans hf
  have hcur' : ∀ m, (a.remove v n u d').cur m = update a.cur n d' m := cur_remove h.cache hV hn
  have hk : Elsewhere a (a.remove v n u d') n := by
    refine ⟨fun m hm => update_of_ne hm _ _, fun m hm => (hcur' m).trans (update_of_ne hm _ _), fun _ _ => rfl,
      fun m i b hm hlm hi he hused => hu b hused fun j hj hbj => hm ?_, fun q e he hi => ?_⟩
    · exact (h.disk.exclusive m n i j hlm hlive hi (hcur ▸ hj) (by rw [hcur, he, hbj])).1
    · exact absurd hi (links_eq_zero hlinks (dir_lt_of_mem h.disk he) he)
  refine h.remove hV hr hl hn hno (h.disk.change hk (update_self _ _ _) ((hcur' n).trans (update_self _ _ _))
    (h.disk.nil n (by rw [htype]; decide)) ⟨h.disk.live_lt n hlive, hints, fun h0 => ?_, fun hd => absurd ht hd,
      fun hd => absurd ht hd, fun hd => absurd ht hd, fun hd => absurd ht hd, fun hd => ?_, fun _ => rfl,
      fun x hx => absurd hx List.not_mem_nil⟩) (fun hd => ?_) (fun hd => ?_)
  · exact absurd (h.disk.root.symm.trans (h0 ▸ htype)) (by decide)
  · exact absurd (ht.symm.trans hd) (by decide)
  · exact absurd (ht.symm.trans hd) (by decide)
  · exact absurd (ht.symm.trans hd) (by decide)

end RiscvPke.Fs
