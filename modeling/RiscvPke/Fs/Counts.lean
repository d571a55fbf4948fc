/-
The counts of links and references, and calls that fail.
-/
import RiscvPke.Fs.Runs

namespace RiscvPke.Fs

open CData RiscvPke.Count Run RiscvPke.System

variable {D : Debts} {a : Afs} {s s' : St} {v w d d' : ℕ} {V W : Vinode} {De De' : Dentry}

/-! ## One vinode, one dentry -/

theorem Tidy.vinode_unique (h : Tidy D a) (hV : a.vinodes v = some V) (hW : a.vinodes w = some W) (hv : V.host = false)
    (hw : W.host = false) (he : V.inum = W.inum) : v = w := by
  have hkv := (h.inv.cache.cached v V hV hv h.tight).1
  have hkw := (h.inv.cache.cached w W hW hw h.tight).1
  rw [he] at hkv
  exact Option.some.inj (hkv.symm.trans hkw)

theorem Tidy.dentry_unique (h : Tidy D a) (hD : a.dentries d = some De) (hD' : a.dentries d' = some De')
    (hd : d ∉ D.stray)
    (hd' : d' ∉ D.stray) (hparent : De.parent = De'.parent) (hname : De.name = De'.name) : d = d' := by
  have hk := (h.inv.tree.placed d De hD hd).1
  have hk' := (h.inv.tree.placed d' De' hD' hd').1
  rw [hparent, hname] at hk
  exact Option.some.inj (hk.symm.trans hk')

/-! ## Successful calls -/

/-- **Counts.** After successful calls the `nlinks` of a file, on disk and in memory, is the number of its entries, the
`ref` of a vinode the number of its dentries; an inode has one vinode and a name one dentry, and no assertion fails. -/
theorem counts_agree (h : Reach step (fun s l => Careful s l ∧ Succeeds s l) Boot s) :
    (∀ n, ((abs s).dinode n).type = FILE_I → ((abs s).dinode n).nlinks = (abs s).links n ∧
      ∀ v V, s.vinode_hash n = some v → s.vinodes v = some V → V.nlinks = (abs s).links n) ∧
    (∀ k v, s.vinode_hash k = some v → ∃ V c, s.vinodes v = some V ∧ Counted (abs s).holder v c ∧ V.ref = c) ∧
    (∀ v w V W, s.vinodes v = some V → s.vinodes w = some W → V.host = false → W.host = false →
      V.inum = W.inum → v = w) ∧
    (∀ d d' De De', s.dentries d = some De → s.dentries d' = some De' → De.parent = De'.parent →
      De.name = De'.name → d = d') ∧
    ∀ l, Careful s l → ∀ assertion, act l.1 l.2 s ≠ .error (.stop (.assertion assertion)) := by
  have htidy : Tidy Debts.none (abs s) := reach_clear (h.mono fun _ _ hc => ⟨hc.1, .inl hc.2⟩)
  refine ⟨?_, ?_, ?_, ?_, ?_⟩
  · intro n hfile
    have hlinks : ((abs s).dinode n).nlinks = (abs s).links n := (htidy.inv.count.links n hfile).trans (add_zero _)
    refine ⟨hlinks, ?_⟩
    intro v V hv hV
    obtain ⟨V', hV', hn, hr, ht⟩ := htidy.inv.cache.hashed n v hv
    cases hV.symm.trans hV'
    obtain ⟨-, -, m, hm, -, hsync⟩ := htidy.inv.cache.cached v V hV hr ht
    obtain rfl : m = n := by omega
    have hmem := htidy.inv.count.memory v V m hV hr ht (hsync.type.trans hfile) hn
    rw [hmem, hlinks]
    exact add_zero _
  · intro k v hv
    obtain ⟨V, hV, -, hr, ht⟩ := htidy.inv.cache.hashed k v hv
    obtain ⟨c, hcount, hc⟩ := htidy.inv.count.refs v V hV hr ht
    exact ⟨V, c, hV, hcount, hc.trans (add_zero _)⟩
  · intro v w V W hV hW hv hw he
    exact htidy.vinode_unique hV hW hv hw he
  · intro d d' De De' hD hD' hparent hname
    exact htidy.dentry_unique hD hD' id id hparent hname
  · intro l hcare assertion
    exact no_assertion htidy hcare assertion

def linked : List (ℕ × Call) :=
  [(0, .open (onDisk [97]) 66), (0, .link (onDisk [97]) (onDisk [98])), (0, .close 0), (0, .open (onDisk [98]) 66)]

theorem counts_agree_linked : (abs (exec step boot linked)).links 1 = 2 := by
  have hreach : Reach step (fun s l => Careful s l ∧ Succeeds s l) Boot (exec step boot linked) :=
    reach_decide linked boot (.init boot_boot)
      (by decide +kernel)
  have hfile : ((abs (exec step boot linked)).dinode 1).type = FILE_I ∧
    ((abs (exec step boot linked)).dinode 1).nlinks = 2 := by
    decide +kernel
  have hlinks := ((counts_agree hreach).1 1 hfile.1).1
  rw [hfile.2] at hlinks
  exact_mod_cast hlinks.symm

/-! ## The tree -/

def folders : List (ℕ × Call) :=
  [(0, .mkdir (onDisk [100])), (0, .mkdir (onDisk [100, 47, 101])), (0, .open (onDisk [100, 47, 120]) 66)]

/-- the new name of a call would go to a directory -/
def Lodged (s : St) (l : ℕ × Call) : Prop := (abs s).Lodged l.1 l.2

theorem no_cannotCreate {l : ℕ × Call} (h : Tidy D (abs s)) (hfair : Fair D) (hc : Careful s l) (hlodged : Lodged s l) :
    act l.1 l.2 s ≠ .error (.stop cannotCreate) := by
  have hE : Mild fun e => e ≠ .stop cannotCreate := fun e he => he.2
  have hspec := act_spec hE (fun c => .inl (by simp)) (.inr hlodged) h hfair hc s rfl
  intro herr
  rw [herr] at hspec
  exact hspec rfl

/-- **Failures.** A call that returns a negative result leaves bitmap, inodes and directories as they were, and of the
vinodes changes only `ref`, which still counts the dentries; no assertion fails. -/
theorem failed_call_keeps (h : Reach step (fun s l => Careful s l ∧ InDir s l) Boot s) :
    (∀ l, Careful s l → Lodged s l →
      act l.1 l.2 s ≠ .error (.stop (.panic "vfs_open: cannot create file!\n")) ∧
      ∀ r s', act l.1 l.2 s = .ok (r, s') → r < 0 →
        s'.used = s.used ∧ (abs s').dinode = (abs s).dinode ∧ (abs s').dir = (abs s).dir ∧
        ∀ k v V, s.vinode_hash k = some v → s.vinodes v = some V →
          ∃ c : ℕ, s'.vinode_hash k = some v ∧ s'.vinodes v = some { V with ref := c } ∧ V.ref ≤ c ∧
            Counted (abs s').holder v c) ∧
    ∀ l, Careful s l → ∀ assertion, act l.1 l.2 s ≠ .error (.stop (.assertion assertion)) := by
  have htidy : Tidy Debts.none (abs s) := reach_clear (h.mono fun _ _ hc => ⟨hc.1, .inr hc.2⟩)
  refine ⟨?_, fun l hcare => no_assertion htidy hcare⟩
  intro l hcare hlodged
  refine ⟨no_cannotCreate htidy fair_none hcare hlodged, ?_⟩
  intro r s' hact hr
  obtain ⟨c, D', heff, -, hnone, hfail⟩ := step_post htidy fair_none hcare hact
  have hgrows : Grows (abs s) (abs s') := hfail hr hlodged
  refine ⟨hgrows.used, hgrows.dinode, hgrows.dir, ?_⟩
  intro k v V hk hV
  obtain ⟨ref, hle, hV'⟩ := hgrows.vinodes v V hV
  obtain ⟨V', hV1, -, hrfs, ht⟩ := htidy.inv.cache.hashed k v hk
  cases hV.symm.trans hV1
  -- no link was left half made, so the references are again those of the dentries
  have hD : D' = Debts.none := by
    refine hnone rfl (.inr ?_)
    intro oldpath path hl
    have hlodged : (abs s).Lodged l.1 l.2 := hlodged
    rw [hl] at hlodged
    exact hlodged
  obtain ⟨c', hcount, hc'⟩ := heff.tidy.inv.count.refs v _ hV' hrfs heff.tidy.tight
  have href : ref = c' := by
    rw [hD] at hc'
    exact hc'.trans (add_zero _)
  exact ⟨c', hgrows.vinode_hash k v hk, href ▸ hV', href ▸ hle, hcount⟩

def halfCached : List (ℕ × Call) :=
  [(0, .open (onDisk [97]) 66), (0, .link (onDisk [97]) (onDisk [98])), (0, .open (onDisk [98]) 66), (0, .close 1)]

theorem failed_call_keeps_halfCached : ∃ s', act 0 (.mkdir (onDisk [98])) (exec step boot halfCached) = .ok (-1, s') ∧
    s'.used = (exec step boot halfCached).used := by
  have hreach : Reach step (fun s l => Careful s l ∧ InDir s l) Boot (exec step boot halfCached) :=
    reach_decide halfCached boot (.init boot_boot)
      (by decide +kernel)
  have hresult : (act 0 (.mkdir (onDisk [98])) (exec step boot halfCached)).map Prod.fst = .ok (-1) := by decide +kernel
  obtain ⟨⟨r, s'⟩, hact, hr⟩ := map_ok hresult
  obtain rfl : r = -1 := hr
  have hlodged : Lodged (exec step boot halfCached) (0, .mkdir (onDisk [98])) := by
    show (abs (exec step boot halfCached)).Housed _ _
    decide +kernel
  exact ⟨s', hact, (((failed_call_keeps hreach).1 (0, .mkdir (onDisk [98])) (by decide +kernel) hlodged).2
    (-1) s' hact (by decide)).1⟩

/-- The lookup of a call that fails puts a dentry into the cache, and the vinode has one reference more. -/
theorem failed_mkdir_adds_ref : ∃ s s' V V', Reach step (fun s l => Careful s l ∧ InDir s l) Boot s ∧
    act 0 (.mkdir (onDisk [98])) s = .ok (-1, s') ∧ s.vinode_hash 1 = some 6 ∧ s.vinodes 6 = some V ∧
      s'.vinodes 6 = some V' ∧
    V.ref = 1 ∧ V'.ref = 2 := by
  have hreach : Reach step (fun s l => Careful s l ∧ InDir s l) Boot (exec step boot halfCached) :=
    reach_decide halfCached boot (.init boot_boot)
      (by decide +kernel)
  have hresult : (act 0 (.mkdir (onDisk [98])) (exec step boot halfCached)).map
      (fun x => (x.1, (x.2.vinodes 6).map (·.ref))) = .ok (-1, some 2) := by decide +kernel
  obtain ⟨⟨r, s'⟩, hact, hr⟩ := map_ok hresult
  simp only [Prod.mk.injEq, Option.map_eq_some_iff] at hr
  obtain ⟨rfl, V', hV', href⟩ := hr
  exact ⟨_, s', _, V', hreach, hact, by decide +kernel, (Option.some_get (by decide +kernel)).symm, hV',
    by decide +kernel, href⟩

end RiscvPke.Fs
