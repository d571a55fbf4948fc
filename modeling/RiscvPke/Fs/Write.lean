/-
`rfs_write`: a file grows in memory, block by block, and its disk inode stays as it was.
-/
import RiscvPke.Fs.Unlink

namespace RiscvPke.Fs

open Function CData RiscvPke.Count Run

variable {D : Debts} {a a' a0 : Afs} {n m v w d p k b up i : ℕ} {V W V0 : Vinode} {De : Dentry} {E : Fault → Prop}

/-! ## The vinode -/

def Vinode.extend (V : Vinode) (j : Fin 10) (b : ℕ) : Vinode :=
  { V with addrs := update V.addrs j (12 + (b : ℤ)), blocks := V.blocks + 1 }

def Afs.extend (a : Afs) (v : ℕ) (V : Vinode) (j : Fin 10) (b : ℕ) : Afs :=
  { a with
    vinodes := update a.vinodes v (some (V.extend j b))
    used := update a.used b true }

section

variable (h : Inv D a) (hV : a.vinodes v = some V) (hr : V.host = false) (ht : v ∉ D.loose) (hf : V.type = FILE_I)

include h hV hr ht hf

theorem Inv.grow (hb : b < 100) (hused : a.used b = false) {j : Fin 10} (hj : (j : ℤ) = V.blocks) :
    Inv D (a.extend v V j b) := by
  obtain ⟨n, hn, hh, hlive, hs, hints, hcur⟩ := h.cached hV hr ht
  have hshape := h.disk.shape n hlive
  rw [hcur] at hshape
  have hfirst : (V.extend j b).addrs j = 12 + (b : ℤ) := update_self _ _ _
  have hints' : (V.extend j b).Ints := by
    obtain ⟨h1, h2, h3, -, h5⟩ := ints_iff.1 hints
    refine ints_iff.2 ⟨h1, h2, h3, ?_, fun i => ?_⟩
    · show IsInt (V.blocks + 1)
      constructor <;> omega
    · by_cases hij : i = j
      · rw [hij, hfirst]
        constructor <;> omega
      · rw [show (V.extend j b).addrs i = V.addrs i from update_of_ne hij _ _]
        exact h5 i
  have hnot : V.type ≠ DIR_I := by
    rw [hf]
    decide
  have hsync : Synced (V.extend j b).toDinode (a.dinode n) := by
    refine ⟨hs.type, fun hd => absurd hd hnot, hs.blocks.trans (by show V.blocks ≤ V.blocks + 1; omega), fun i hi => ?_⟩
    have hij : i ≠ j := by
      have := hs.blocks
      omega
    exact (update_of_ne hij _ _).trans (hs.addrs i hi)
  have hshape' : Shape (V.extend j b).toDinode := by
    have h2 : 0 ≤ V.size ∧ V.size ≤ 4096 * V.blocks := hshape.size
    refine ⟨hshape.type, ⟨?_, ?_⟩, ⟨h2.1, ?_⟩, fun hd => absurd hd hnot⟩
    · show 1 ≤ V.blocks + 1
      omega
    · show V.blocks + 1 ≤ 10
      omega
    · show V.size ≤ 4096 * (V.blocks + 1)
      omega
  have key := h.setVinode (W := V.extend j b) (u := update a.used b true) (b := b)
    (j := j) hV hr ht hn rfl hr rfl hints' hsync hshape'
    (by grind) ?_
  · rw [update_add_zero (f := D.refs) (k := v) (show (V.extend j b).ref - V.ref = 0 from Int.sub_self V.ref),
      update_add_zero (f := D.memory) (k := n)
        (show (V.extend j b).nlinks - V.nlinks = 0 from Int.sub_self V.nlinks)] at key
    exact key
  · intro i hi
    have hi : (i : ℤ) < V.blocks + 1 := hi
    by_cases hij : i = j
    · exact .inr ⟨hij, hij ▸ hfirst, hb, hused, update_self _ _ _⟩
    · exact .inl ⟨by omega, update_of_ne hij _ _⟩

theorem Inv.resize {z : ℤ} (hz : 0 ≤ z ∧ z ≤ RFS_BLKSIZE * V.blocks) :
    Inv D { a with vinodes := update a.vinodes v (some { V with size := z }) } := by
  obtain ⟨n, hn, hh, hlive, hs, hints, hcur⟩ := h.cached hV hr ht
  have hshape := h.disk.shape n hlive
  rw [hcur] at hshape
  have hnot : V.type ≠ DIR_I := by
    rw [hf]
    decide
  have hzi : IsInt z := by
    have hle : z ≤ 4096 * V.blocks := hz.2
    have := hshape.blocks
    constructor <;> omega
  have key := h.setVinode (W := { V with size := z }) (b := 0) (j := 0) hV hr ht hn rfl hr rfl (hints.resize hzi)
    ⟨hs.type, fun hd => absurd hd hnot, hs.blocks, hs.addrs⟩ ⟨hshape.type, hshape.blocks, hz,
      hshape.dir⟩ (fun _ hc => hc)
    fun _ hi => .inl ⟨hi, rfl⟩
  rw [update_add_zero (f := D.refs) (k := v) (Int.sub_self V.ref),
    update_add_zero (f := D.memory) (k := n) (Int.sub_self V.nlinks)] at key
  exact key

/-! ## Data blocks -/

theorem ramdiskWrite_data {U : Unit → Afs → Prop} {x : ℤ} {j : Fin 10} (hj : (j : ℤ) < V.blocks)
    (hx : x = V.addrs j) (hU : U () a) :
    Spec abs E a (ramdiskWrite x) U := by
  have hnblocks : NBLOCKS = 100 := rfl
  have hblockcount : RAMDISK_BLOCK_COUNT = 128 := rfl
  obtain ⟨n, hn, -, hlive, hs, -, hcur⟩ := h.cached hV hr ht
  have hjcur : (j : ℤ) < (a.cur n).blocks := by rwa [hcur]
  obtain ⟨b, hb, he, -⟩ := h.disk.owned n j hlive hjcur
  have hxb : x = ((12 + b : ℕ) : ℤ) := by
    rw [hx, Nat.cast_add]
    rw [hcur] at he
    exact he
  have hdirs : ∀ m, (a.dinode m).type = DIR_I → (a.dinode m).addrs 0 ≠ 12 + (b : ℤ) := by
    intro m hm he'
    obtain ⟨hone, -⟩ := h.dirBlock hm
    have hm0 : ((0 : Fin 10) : ℤ) < (a.cur m).blocks := by
      rw [h.cur_dir hm, hone]
      decide
    have := (h.disk.exclusive n m j 0 hlive (live_of_type (.inr hm)) hjcur hm0 (by rw [he, h.cur_dir hm, he'])).1
    subst this
    rw [← hs.type, hf] at hm
    cases hm
  rintro s rfl
  rw [hxb, ramdiskWrite_run (by omega)]
  have hdin : St.dinode { s with blocks := update s.blocks (12 + b) (copyBlock (s.blocks (12 + b)) s.iobuffer) }
    = s.dinode := by
    funext m
    apply dinode_congr
    intro i h1 h2
    exact update_of_ne (by omega) _ _
  have hdir : St.dir
    { s with blocks := update s.blocks (12 + b) (copyBlock (s.blocks (12 + b)) s.iobuffer) } = s.dir := by
    funext m
    apply dir_congr (congrFun hdin m)
    intro hm
    have hne : (s.dinode m).addrs 0 ≠ 12 + (b : ℤ) := hdirs m hm
    exact update_of_ne (by omega) _ _
  have habs : abs { s with blocks := update s.blocks (12 + b) (copyBlock (s.blocks (12 + b)) s.iobuffer) } = abs s := by
    unfold abs
    rw [hdin, hdir]
  show U () (abs _)
  rw [habs]
  exact hU

end

theorem ramdiskRead_spec {U : Unit → Afs → Prop} {x : ℤ} (hE : Mild E) (hU : U () a) :
    Spec abs E a (ramdiskRead x) U := by
  unfold ramdiskRead
  by_cases hx : x < 0 ∨ (RAMDISK_BLOCK_COUNT : ℤ) ≤ x
  · rw [if_pos hx]
    exact Spec.seq (spec_throw (hE.stop (by simp)))
  · rw [if_neg hx]
    apply spec_modify
    rintro s rfl
    exact hU

/-! ## The blocks of a write -/

/-- the file of the vinode `v` is being written: it has the blocks that it had, and what has become used is its own -/
structure Writing (D : Debts) (a0 : Afs) (v : ℕ) (V0 : Vinode) (a : Afs) (V : Vinode) : Prop where
  tidy : Tidy D a
  state : a = { a0 with vinodes := update a0.vinodes v (some V), used := a.used }
  vinode : V = { V0 with size := V.size, blocks := V.blocks, addrs := V.addrs }
  rfs : V0.host = false
  file : V0.type = FILE_I
  blocks : V0.blocks ≤ V.blocks
  addrs : ∀ i : Fin 10, (i : ℤ) < V0.blocks → V.addrs i = V0.addrs i
  used : ∀ b, a0.used b = true → a.used b = true
  new : ∀ b, a.used b = true → a0.used b = true ∨ V.Has V.blocks b

theorem Tidy.writing (h : Tidy D a) (hV : a.vinodes v = some V) (hr : V.host = false) (hf : V.type = FILE_I) :
    Writing D a v V a V where
  tidy := h
  state := by
    rw [← hV, update_eq_self]
  vinode := rfl
  rfs := hr
  file := hf
  blocks := le_rfl
  addrs := fun _ _ => rfl
  used := fun _ hb => hb
  new := fun _ hb => .inl hb

section Writing

variable {N : ℤ → Afs → Prop} {U : Unit → Afs → Prop} {j : ℕ}

theorem Writing.at (h : Writing D a0 v V0 a V) : a.vinodes v = some V := by
  rw [h.state]
  exact update_self _ _ _

theorem Writing.host (h : Writing D a0 v V0 a V) : V.host = false := by
  rw [h.vinode]
  exact h.rfs

theorem Writing.type (h : Writing D a0 v V0 a V) : V.type = FILE_I := by
  rw [h.vinode]
  exact h.file

theorem Writing.shape (h : Writing D a0 v V0 a V) : Shape V.toDinode := by
  obtain ⟨n, -, -, hlive, -, -, hcur⟩ := h.tidy.inv.cached h.at h.host h.tidy.tight
  rw [← hcur]
  exact h.tidy.inv.disk.shape n hlive

theorem Tidy.touch {u : ℕ → Bool} (h : Tidy D a)
    (h' : Inv D { a with vinodes := update a.vinodes v (some W), used := u }) :
    Tidy D { a with vinodes := update a.vinodes v (some W), used := u } :=
  { h with inv := h' }

theorem Writing.grow (h : Writing D a0 v V0 a V) (hb : b < NBLOCKS) (hused : a.used b = false) {j : Fin 10}
    (hj : (j : ℤ) = V.blocks) :
    Writing D a0 v V0 (a.extend v V j b) (V.extend j b) where
  tidy := h.tidy.touch (h.tidy.inv.grow h.at h.host h.tidy.tight h.type hb hused hj)
  state := by
    rw [h.state]
    unfold Afs.extend
    simp only [update_idem]
  vinode := by
    rw [h.vinode]
    rfl
  __ := h
  blocks := by
    have := h.blocks
    show V0.blocks ≤ V.blocks + 1
    omega
  addrs := by
    intro i hi
    have hij : i ≠ j := by
      rintro rfl
      have := h.blocks
      omega
    exact (update_of_ne hij _ _).trans (h.addrs i hi)
  used := by
    intro c hc
    show update a.used b true c = true
    by_cases hcb : c = b
    · rw [hcb, update_self]
    · rw [update_of_ne hcb]
      exact h.used c hc
  new := by
    intro c hc
    have hc : update a.used b true c = true := hc
    by_cases hcb : c = b
    · refine .inr ⟨j, ?_, ?_⟩
      · show (j : ℤ) < V.blocks + 1
        omega
      · rw [hcb]
        exact update_self _ _ _
    · rw [update_of_ne hcb] at hc
      rcases h.new c hc with h1 | ⟨i, hi, he⟩
      · exact .inl h1
      · have hij : i ≠ j := by
          rintro rfl
          omega
        refine .inr ⟨i, ?_, (update_of_ne hij _ _).trans he⟩
        show (i : ℤ) < V.blocks + 1
        omega

theorem Writing.resize (h : Writing D a0 v V0 a V) {z : ℤ} (hz : 0 ≤ z ∧ z ≤ RFS_BLKSIZE * V.blocks) :
    Writing D a0 v V0 { a with vinodes := update a.vinodes v (some { V with size := z }) } { V with size := z } where
  tidy := h.tidy.touch (h.tidy.inv.resize h.at h.host h.tidy.tight h.type hz)
  state := by
    rw [h.state]
    simp only [update_idem]
  vinode := by
    rw [h.vinode]
  __ := h

theorem addr_spec {e : Dinode} {x : ℤ} {i : Fin 10} (hx : x = (i : ℕ)) (h : N (e.addrs i) a) :
    Spec abs E a (e.addr x) N := by
  subst hx
  unfold Dinode.addr
  have := i.isLt
  rw [dif_pos ⟨Int.natCast_nonneg _, by exact_mod_cast this⟩]
  exact spec_pure h

section

variable (hE : Mild E) (h : Writing D a0 v V0 a V) (hj : (j : ℤ) ≤ V.blocks)

include hE h hj

theorem blockFor_spec
    (hN : ∀ a' V' (i : Fin 10), Writing D a0 v V0 a' V' → (i : ℕ) = j → (i : ℤ) < V'.blocks → N (V'.addrs i) a') :
    Spec abs E a (blockFor v j) N := by
  have hblocks := h.shape.blocks
  apply vinodeAt_spec h.at
  by_cases hnew : (j : ℤ) = V.blocks
  · rw [if_pos hnew]
    apply Spec.seq
    refine rfsAllocBlock_spec (hE.stop (by simp)) fun b hb hused => ?_
    by_cases hlt : j < 10
    · rw [dif_pos hlt]
      have hw := h.grow hb hused (j := ⟨j, hlt⟩) hnew
      apply Spec.seq
      apply setVinode_spec
      refine vinodeAt_spec (V := V.extend ⟨j, hlt⟩ b) (update_self _ _ _) ?_
      refine addr_spec (i := ⟨j, hlt⟩) rfl ?_
      refine hN _ _ ⟨j, hlt⟩ hw rfl ?_
      show (j : ℤ) < V.blocks + 1
      omega
    · rw [dif_neg hlt]
      exact Spec.seq (spec_throw (hE.stop (by simp)))
  · rw [if_neg hnew]
    apply vinodeAt_spec h.at
    have hlt : (j : ℤ) < V.blocks := by omega
    exact addr_spec (i := ⟨j, by omega⟩) rfl (hN a V ⟨j, by omega⟩ h rfl hlt)

omit hE h hj in
theorem Writing.put (h : Writing D a0 v V0 a V) {i : Fin 10} (hi : (i : ℤ) < V.blocks) (hU : U () a) :
    Spec abs E a (ramdiskWrite (V.addrs i)) U :=
  ramdiskWrite_data h.tidy.inv h.at h.host h.tidy.tight h.type hi rfl hU

variable {data : List UInt8}

theorem writeBlock_spec
    (hU : ∀ a' V', Writing D a0 v V0 a' V' → (j : ℤ) + 1 ≤ V'.blocks → U () a') :
    Spec abs E a (writeBlock v data j) U := by
  apply Spec.seq
  refine blockFor_spec hE h hj fun a' V' i hw hi hlt => ?_
  apply spec_get_bind
  intro s _
  apply Spec.seq
  apply setIobuffer_spec
  exact hw.put hlt (hU a' V' hw (by omega))

theorem writeBlocks_spec {times : ℕ} (hU : ∀ a' V', Writing D a0 v V0 a' V' → (j : ℤ) + times ≤ V'.blocks → U () a') :
    Spec abs E a (writeBlocks v times data j) U := by
  -- block by block: each is one of the file's before the next is asked for
  induction times generalizing a V data j with
  | zero => exact spec_pure (hU a V h (by simpa using hj))
  | succ times ih =>
    apply Spec.seq
    refine writeBlock_spec hE h hj fun a1 V1 h1 hj1 => ?_
    refine ih h1 (by push_cast; exact hj1) fun a2 V2 h2 hj2 => hU a2 V2 h2 ?_
    omega

theorem writeAligned_spec {times remain : ℕ} (hrem : remain < RFS_BLKSIZE)
    (hU : ∀ a' V', Writing D a0 v V0 a' V' →
      RFS_BLKSIZE * ((j : ℤ) + times) + remain ≤ RFS_BLKSIZE * V'.blocks → U () a') :
    Spec abs E a (writeAligned v times remain data j) U := by
  apply Spec.seq
  grind [writeBlocks_spec, writeBlock_spec, spec_pure]

end

/-- **A write.** The file grows in memory by blocks that were free, and nothing else changes but its data. -/
theorem rfsWrite_spec {buf : List UInt8} {offset : ℕ} {R : ℕ → Afs → Prop} (hE : Mild E) (h : Tidy D a)
    (hV : a.vinodes v = some V)
    (hr : V.host = false) (hf : V.type = FILE_I) (hR : ∀ a' V', Writing D a v V a' V' → R (offset + buf.length) a') :
    Spec abs E a (rfsWrite v buf offset) R := by
  have h0 := h.writing hV hr hf
  have hshape := h0.shape
  -- the rest of the call, once the file has enough blocks
  have hlast : ∀ a' V', Writing D a v V a' V' → (offset : ℤ) + buf.length ≤ 4096 * V'.blocks →
      Spec abs E a' (do
        let V ← vinodeAt v
        setVinode v { V with size := max V.size (offset + buf.length) }
        return offset + buf.length) R := by
    intro a' V' hw hroom
    have hsize : 0 ≤ V'.size ∧ V'.size ≤ 4096 * V'.blocks := hw.shape.size
    apply vinodeAt_spec hw.at
    apply Spec.seq
    apply setVinode_spec
    apply spec_pure
    refine hR _ _ (hw.resize ?_)
    show 0 ≤ max V'.size ((offset : ℤ) + buf.length) ∧ max V'.size ((offset : ℤ) + buf.length) ≤ 4096 * V'.blocks
    omega
  apply vinodeAt_spec hV
  by_cases hoff : V.size < (offset : ℤ)
  · rw [if_pos hoff]
    exact Spec.seq (spec_throw (hE.stop (by simp)))
  rw [if_neg hoff]
  have hsize : 0 ≤ V.size ∧ V.size ≤ 4096 * V.blocks := hshape.size
  have hblocks := hshape.blocks
  by_cases halign : offset % 4096 = 0
  · rw [if_neg (not_not.2 halign)]
    have hj : ((offset / 4096 : ℕ) : ℤ) ≤ V.blocks := by omega
    apply Spec.seq
    refine writeAligned_spec hE h0 hj (Nat.mod_lt _ (by decide)) fun a1 V1 h1 hroom => hlast a1 V1 h1 ?_
    grind
  · rw [if_pos halign]
    have hlt : ((offset / 4096 : ℕ) : ℤ) < V.blocks := by omega
    apply Spec.seq
    refine addr_spec (i := ⟨offset / 4096, by omega⟩) rfl ?_
    apply Spec.seq
    apply ramdiskRead_spec hE
    apply spec_get_bind
    intro s _
    apply Spec.seq
    apply setIobuffer_spec
    apply Spec.seq
    refine h0.put (i := ⟨offset / 4096, by omega⟩) hlt ?_
    by_cases htimes : 0 < (buf.length + offset % 4096) / 4096
    · rw [if_pos htimes]
      have hj : ((offset / 4096 + 1 : ℕ) : ℤ) ≤ V.blocks := by omega
      apply Spec.seq
      refine writeAligned_spec hE h0 hj (Nat.mod_lt _ (by decide)) fun a1 V1 h1 hroom => hlast a1 V1 h1 ?_
      grind
    · rw [if_neg htimes]
      refine hlast a V h0 ?_
      omega

end Writing

end RiscvPke.Fs
