/-
What a call does, said once: to the directories (`Change`), to the blocks and the inodes (`Moves`) and to the counts
(the debts).
-/
import RiscvPke.Fs.Write

namespace RiscvPke.Fs

open Function CData RiscvPke.Count Run

variable {D D' : Debts} {a a' a1 : Afs} {n m v w d p k b up i : ℕ} {V W V' : Vinode} {De : Dentry} {type : ℤ}
  {name : CString}

/-! ## Inodes without their counts -/

def Dinode.body (d : Dinode) : Dinode := { d with nlinks := 0, size := if d.type = DIR_I then 0 else d.size }

def Afs.body (a : Afs) (n : ℕ) : Dinode := (a.cur n).body

theorem body_of_hash (h : a.vinode_hash n = some v) (hV : a.vinodes v = some V) : a.body n = V.body := by
  unfold Afs.body
  rw [cur_of_cached h hV]

theorem body_of_none (h : a.vinode_hash n = none) : a.body n = (a.dinode n).body := by
  unfold Afs.body
  rw [cur_of_none h]

theorem Inv.type_body (h : Inv D a) (n : ℕ) : (a.body n).type = (a.dinode n).type := (h.cache.synced n).type

def SameBodies (f g : ℕ → Option Vinode) : Prop := ∀ v, (f v).map (·.toDinode.body) = (g v).map (·.toDinode.body)

theorem SameBodies.update {f g : ℕ → Option Vinode} (h : SameBodies f g) (hV : g v = some V) (hb : W.body = V.body) :
    SameBodies (update f v (some W)) g := by
  intro x
  by_cases hx : x = v
  · rw [hx, update_self, hV, Option.map_some, Option.map_some, hb]
  · rw [update_of_ne hx]
    exact h x

theorem SameBodies.refl (f : ℕ → Option Vinode) : SameBodies f f := fun _ => rfl

theorem SameBodies.body_eq (h : SameBodies a'.vinodes a.vinodes) (hh : a'.vinode_hash n = a.vinode_hash n)
    (hd : a.vinode_hash n = none → (a'.dinode n).body = (a.dinode n).body)
    (hin : ∀ v, a.vinode_hash n = some v → ∃ V, a.vinodes v = some V) :
    a'.body n = a.body n := by
  cases hk : a.vinode_hash n with
  | none =>
    rw [body_of_none hk, body_of_none (hh.trans hk)]
    exact hd hk
  | some v =>
    obtain ⟨V, hV⟩ := hin v hk
    have hv := h v
    rw [hV] at hv
    obtain ⟨V', hV', he⟩ := Option.map_eq_some_iff.1 hv
    rw [body_of_hash hk hV, body_of_hash (hh.trans hk) hV', he]

theorem CacheInv.body_eq {x : Afs} (h : CacheInv D a) (hs : SameBodies x.vinodes a.vinodes)
    (hh : x.vinode_hash = a.vinode_hash)
    (hd : ∀ n : ℕ, a.vinode_hash n = none → x.dinode n = a.dinode n) : x.body = a.body := by
  funext n
  refine hs.body_eq (by rw [hh]) (fun hn => by rw [hd n hn]) fun v hv => ?_
  obtain ⟨V, hV, -⟩ := h.hashed _ _ hv
  exact ⟨V, hV⟩

theorem Grows.body (h : Grows a a') : a'.body = a.body := by
  funext n
  unfold Afs.body
  rw [h.cur]

theorem Dinode.body_resize {e : Dinode} (h : e.type = DIR_I) {z : ℤ} :
    ({ e with size := z } : Dinode).body = e.body := by
  unfold Dinode.body
  simp only [if_pos h]

/-! ## Changes -/

/-- what a call does to the directories, and whether it writes to a file -/
inductive Change where
  | none
  | data
  | add (p : ℕ) (e : Entry)
  | remove (p : ℕ) (name : CString)
deriving DecidableEq

def Change.apply (dir : ℕ → List Entry) : Change → ℕ → List Entry
  | .none => dir
  | .data => dir
  | .add p e => update dir p (dir p ++ [e])
  | .remove p name => update dir p ((dir p).eraseP (·.name = name))

/-- what a call does to the blocks and the inodes -/
inductive Moves (a : Afs) (c : Change) (a' : Afs) : Prop
  | same (hmore : ∀ k name (n : ℕ), c = .remove k name → a.find k name = some (n : ℤ) → (a.dinode n).nlinks ≠ 1)
      (hu : a'.used = a.used) (hb : a'.body = a.body)
  | new {m b : ℕ} {type : ℤ} (hc : ∀ k name, c ≠ .remove k name) (hv : Vacant a m b) (ht : type = FILE_I ∨
    type = DIR_I) (hu : a'.used = update a.used b true)
      (hb : a'.body = update a.body m ((a.dinode m).fresh b type).body)
  | freed {k n : ℕ} {name : CString} (hc : c = .remove k name) (hfind : a.find k name = some (n : ℤ))
      (hf : (a.dinode n).type = FILE_I) (hlast : (a.dinode n).nlinks = 1)
      (hu : a'.used = (a.dinode n).release (a.dinode n).blocks a.used)
      (hb : a'.body = update a.body n (a.dinode n).unlinked.body) (hfree : (a.dinode n).unlinked.type = R_FREE)
  | grown {n : ℕ} {e : Dinode} (hc : c = .data) (hf : (a.body n).type = FILE_I) (he : e.type = FILE_I)
    (hblocks : (a.body n).blocks ≤ e.blocks)
      (haddrs : ∀ i : Fin 10, (i : ℤ) < (a.body n).blocks → e.addrs i = (a.body n).addrs i)
      (hb : a'.body = update a.body n e.body) (hu : ∀ b, a.used b = true → a'.used b = true)
      (hnew : ∀ b, a'.used b = true → a.used b = true ∨ e.Has e.blocks b)

/-- what a call does as a whole -/
structure Effect (a : Afs) (c : Change) (D' : Debts) (a' : Afs) : Prop where
  tidy : Tidy D' a'
  fair : Fair D'
  dir : a'.dir = c.apply a.dir
  moves : Moves a c a'

variable {c : Change}

theorem Moves.kept (hc : ∀ k name, c ≠ .remove k name) (hu : a'.used = a.used) (hb : a'.body = a.body) : Moves a c a' :=
  .same (fun k name _ h => absurd h (hc k name)) hu hb

theorem Tidy.idle (h : Tidy D a) (hfair : Fair D) : Effect a .none D a := ⟨h, hfair, rfl, .kept (by simp) rfl rfl⟩

theorem Moves.after (hg : Grows a a1) (h : Moves a1 c a') : Moves a c a' := by
  cases h with
  | same hmore hu hb =>
    rw [hg.find, hg.dinode] at hmore
    exact .same hmore (hu.trans hg.used) (hb.trans hg.body)
  | new hc hv ht hu hb =>
    rw [hg.dinode, hg.body] at hb
    rw [hg.used] at hu
    refine .new hc ⟨hv.inode_lt, ?_, hv.block_lt, ?_⟩ ht hu hb
    · rw [← hg.dinode]
      exact hv.inode
    · rw [← hg.used]
      exact hv.block
  | freed hc hfind hf hlast hu hb hfree =>
    rw [hg.find] at hfind
    rw [hg.dinode] at hf hlast hu hb hfree
    rw [hg.used] at hu
    rw [hg.body] at hb
    exact .freed hc hfind hf hlast hu hb hfree
  | grown hc hf he hblocks haddrs hb hu hnew =>
    rw [hg.body] at hf hblocks haddrs hb
    rw [hg.used] at hu hnew
    exact .grown hc hf he hblocks haddrs hb hu hnew

theorem Effect.after (hg : Grows a a1) (h : Effect a1 c D' a') : Effect a c D' a' :=
  ⟨h.tidy, h.fair, by rw [h.dir, hg.dir], h.moves.after hg⟩

theorem Effect.tables (h : Effect a c D' a1) (ht : Tidy D' a') (hu : a'.used = a1.used) (hd : a'.dir = a1.dir)
    (hdi : a'.dinode = a1.dinode) (hv : a'.vinodes = a1.vinodes) (hh : a'.vinode_hash = a1.vinode_hash) :
    Effect a c D' a' := by
  have hb : a'.body = a1.body := by
    funext n
    unfold Afs.body Afs.cur
    rw [hh, hv, hdi]
  refine ⟨ht, h.fair, hd.trans h.dir, ?_⟩
  cases h.moves with
  | same hmore hu' hb' => exact .same hmore (hu.trans hu') (hb.trans hb')
  | new hc hv' ht' hu' hb' => exact .new hc hv' ht' (hu.trans hu') (hb.trans hb')
  | freed hc hfind hf hlast hu' hb' hfree => exact .freed hc hfind hf hlast (hu.trans hu') (hb.trans hb') hfree
  | grown hc hf he hblocks haddrs hb' hu' hnew =>
    rw [← hu] at hu' hnew
    exact .grown hc hf he hblocks haddrs (hb.trans hb') hu' hnew

/-! ## New inodes -/

theorem Inv.mint_body (h : Inv D a) (hv : Vacant a m b) :
    (a.mint m b type).body = update a.body m ((a.dinode m).fresh b type).body := by
  funext n
  have hhash := h.unhashed_of_free hv.inode
  by_cases hn : n = m
  · rw [hn, update_self, body_of_none (a := a.mint m b type) hhash]
    show (update a.dinode m _ m).body = _
    rw [update_self]
  · rw [update_of_ne hn]
    unfold Afs.body Afs.cur Afs.mint
    simp only [update_of_ne hn]

theorem CacheInv.putDir_body {l : List Entry} (h : CacheInv D a) (hW : a.vinodes w = some W)
    (hh : a.vinode_hash k = some w) (ht : W.type = DIR_I) : (a.putDir w W k l).body = a.body := by
  refine h.body_eq (x := a.putDir w W k l) ((SameBodies.refl _).update hW (Dinode.body_resize ht)) rfl fun n hn => ?_
  have hne : n ≠ k := hash_ne hh hn
  exact update_of_ne hne _ _

theorem Tidy.created_effect (h : Tidy D a) (hfair : Fair D) (hv : Vacant a m b) (ht : type = FILE_I ∨ type = DIR_I)
    (ho : Opening D a up w W k name) : Effect a (.add k ⟨name, m⟩) D (a.created w W k name m b type up) := by
  obtain ⟨htidy, hgrow⟩ := h.created hv ht ho
  have hmint := h.mint hv ht
  obtain ⟨hh, -⟩ := ho.node.cachedAt h.inv ho.inum
  refine ⟨htidy, hfair, hgrow.dir, .new (by simp) hv ht hgrow.used ?_⟩
  calc (a.created w W k name m b type up).body
      = (a.make w W k name m b type).body := hgrow.body
    _ = (a.mint m b type).body := hmint.cache.putDir_body ho.node.vinode hh ho.type
    _ = _ := h.inv.mint_body hv

theorem Tidy.leak_effect (h : Tidy D a) (hfair : Fair D) (hv : Vacant a m b) :
    Effect a .none D { a.mint m b DIR_I with next := a.next + 1 } := by
  have hmint : Effect a .none D (a.mint m b DIR_I) :=
    ⟨h.mintDir hv, hfair, rfl, .new (by simp) hv (.inr rfl) rfl (h.inv.mint_body hv)⟩
  exact hmint.tables (h.mintDir hv).bump rfl rfl rfl rfl rfl

/-! ## Links -/

section

variable (h : Tidy D a) (hfair : Fair D) (hV : a.vinodes v = some V) (hVr : V.host = false) (hn : V.inum = n)
  (hf : V.type = FILE_I) (hz : IsInt (V.nlinks + 1))

include h hfair hV hVr hn hf hz

theorem Tidy.linked_effect (ho : Opening D a up w W k name) :
    Effect a (.add k ⟨name, n⟩) (D.settle n)
      ((a.linked w W k name v V n).hang a.next v { V with nlinks := V.nlinks + 1 } up name (a.next + 1)) := by
  obtain ⟨htidy, hgrow⟩ := h.linkedHung hV hVr hn hf hz ho
  refine ⟨htidy, hfair.settle, hgrow.dir, .kept (by simp) hgrow.used ?_⟩
  obtain ⟨hhv, -⟩ := h.inv.cachedAt hV hVr h.tight hn
  obtain ⟨hhw, -⟩ := ho.node.cachedAt h.inv ho.inum
  refine hgrow.body.trans (h.inv.cache.body_eq ?_ rfl ?_)
  · refine SameBodies.update ?_ ho.node.vinode (Dinode.body_resize ho.type)
    exact (SameBodies.refl _).update hV rfl
  · intro x hx
    have hxn : x ≠ n := hash_ne hhv hx
    have hxk : x ≠ k := hash_ne hhw hx
    exact (update_of_ne hxn _ _).trans (update_of_ne hxk _ _)

theorem Tidy.halfLinked_effect : Effect a .none (D.halfLink n v a.next) (a.halfLinked name v V up) :=
  ⟨h.halfLinked hV hVr hn hf hz, hfair.halfLink, rfl,
    .kept (by simp) rfl (h.inv.cache.body_eq ((SameBodies.refl _).update hV rfl) rfl fun _ _ => rfl)⟩

end

section

variable (hx : Named D a d De v V n up w W k i)

include hx

theorem Named.apply : (Change.remove k De.name).apply a.dir = update a.dir k ((a.dir k).eraseIdx i) := by
  show update a.dir k ((a.dir k).eraseP (·.name = De.name)) = _
  rw [List.eraseP_eq_eraseIdx, hx.index]

theorem Named.find : a.find k De.name = some (n : ℤ) := by
  obtain ⟨e, he, hi⟩ := hx.entry
  unfold Afs.find
  rw [find_of_findIdx, hx.index]
  simp [he, hi]

theorem Named.unnamed_body (h : Inv D a) : (a.unnamed d De v V w W k i).body = a.body := by
  obtain ⟨hhw, -⟩ := hx.above.cachedAt h hx.dir_inum
  refine h.cache.body_eq (x := a.unnamed d De v V w W k i) ?_ rfl ?_
  · refine SameBodies.update ?_ hx.above.vinode (Dinode.body_resize hx.dir)
    exact (SameBodies.refl _).update hx.node.vinode rfl
  · intro x hxn
    have hxk : x ≠ k := hash_ne hhw hxn
    exact update_of_ne hxk _ _

theorem Named.unlinkedMore_effect (h : Tidy D a) (hfair : Fair D)
    (hmem : V.nlinks = (a.dinode n).nlinks) (hmore : V.nlinks ≠ 1) :
    Effect a (.remove k De.name) D (a.unlinkedMore d De v V n w W k i) := by
  have hlinks : ∀ q name (m : ℕ), Change.remove k De.name = .remove q name → a.find q name = some (m : ℤ) →
    (a.dinode m).nlinks ≠ 1 := by
    intro q name m he hfind
    cases he
    obtain rfl : n = m := by exact_mod_cast Option.some.inj (hx.find.symm.trans hfind)
    rwa [← hmem]
  refine ⟨hx.unlinkedMore h hfair hmem hmore, hfair, hx.apply.symm, .same hlinks rfl ?_⟩
  have hun := hx.unnamed h.inv
  obtain ⟨-, -, -, hh, -⟩ := hx.cached h.inv
  refine Eq.trans ?_ (hx.unnamed_body h.inv)
  refine hun.cache.body_eq (x := a.unlinkedMore d De v V n w W k i) ?_ rfl ?_
  · exact (SameBodies.refl _).update hx.unnamed_vinode rfl
  · intro x hxn
    have hne : x ≠ n := hash_ne hh hxn
    exact update_of_ne hne _ _

omit hx in
theorem remove_body {u : ℕ → Bool} {e : Dinode} (h : CacheInv D a) (hV : a.vinodes v = some V) (hn : V.inum = n) :
    (a.remove v n u e).body = update a.body n e.body := by
  grind [Afs.body, cur_remove]

theorem Named.unlinkedLast_effect (h : Tidy D a) (hfair : Fair D)
    (hmem : V.nlinks = (a.dinode n).nlinks) (hlast : V.nlinks = 1) :
    Effect a (.remove k De.name) D (a.unlinkedLast d De v V n w W k i) := by
  obtain ⟨-, hf, -, -, -⟩ := hx.cached h.inv
  refine ⟨hx.unlinkedLast h hfair hmem hlast, hfair, hx.apply.symm, ?_⟩
  refine .freed (n := n) rfl hx.find hf (hmem.symm.trans hlast) rfl ?_ ?_
  · rw [← hx.unnamed_body h.inv]
    exact remove_body (hx.unnamed h.inv).cache hx.unnamed_vinode hx.inum
  · unfold Dinode.unlinked
    rw [← hmem, hlast]
    rfl

end

/-! ## Opened files -/

theorem CacheInv.dropped_body (h : CacheInv D a) (hV : a.vinodes v = some V) : (a.dropped d De v V).body = a.body :=
  h.body_eq (x := a.dropped d De v V) ((SameBodies.refl _).update hV rfl) rfl fun _ _ => rfl

theorem Inv.evicted_body (h : Inv D a) (hV : a.vinodes v = some V) (hr : V.host = false) (ht : v ∉ D.loose)
    (hn : V.inum = n) :
    (a.evicted v V n).body = a.body := by
  obtain ⟨hh, -⟩ := h.cachedAt hV hr ht hn
  have key := remove_body (u := a.used) (e := V.toDinode) h.cache hV hn
  rw [← body_of_hash hh hV, update_eq_self] at key
  exact key

theorem Tidy.dropped_effect (h : Tidy D a) (hfair : Fair D) (hN : Node D a d v V) (hf : V.type = FILE_I)
    (hDe : a.dentries d = some De) : Effect a .none D (a.dropped d De v V) :=
  ⟨h.dropped hN hf hDe, hfair, rfl, .kept (by simp) rfl (h.inv.cache.dropped_body hN.vinode)⟩

theorem Tidy.evicted_effect (h : Tidy D a) (hfair : Fair D) (hN : Node D a d v V) (hf : V.type = FILE_I)
    (hDe : a.dentries d = some De) (hn : V.inum = n) (href : V.ref - 1 = 0) :
    Effect a .none (D.settle n) ((a.dropped d De v V).evicted v { V with ref := V.ref - 1 } n) := by
  have hd := h.dropped hN hf hDe
  have hV : (a.dropped d De v V).vinodes v = some { V with ref := V.ref - 1 } := update_self _ _ _
  refine ⟨hd.evicted hfair hV hN.rfs hn hf href, hfair.settle, rfl, .kept (by simp) rfl ?_⟩
  calc ((a.dropped d De v V).evicted v { V with ref := V.ref - 1 } n).body
      = (a.dropped d De v V).body := hd.inv.evicted_body hV hN.rfs hd.tight hn
    _ = a.body := h.inv.cache.dropped_body hN.vinode

theorem Writing.effect (hw : Writing D a v V a' V') (hfair : Fair D) (h : Tidy D a) (hV : a.vinodes v = some V) :
    Effect a .data D a' := by
  obtain ⟨n, hn, hh, -⟩ := h.inv.cached hV hw.rfs h.tight
  have hold : a.body n = V.body := body_of_hash hh hV
  refine ⟨hw.tidy, hfair, ?_, .grown (n := n) (e := V'.toDinode) rfl ?_ hw.type ?_ ?_ ?_ hw.used hw.new⟩
  · rw [hw.state]
    rfl
  · rw [hold]
    exact hw.file
  · rw [hold]
    exact hw.blocks
  · rw [hold]
    exact hw.addrs
  · funext x
    have hcur : a'.cur = update a.cur n V'.toDinode := by
      rw [hw.state]
      exact h.inv.cache.cur_update hh
    unfold Afs.body
    rw [hcur]
    grind

end RiscvPke.Fs
