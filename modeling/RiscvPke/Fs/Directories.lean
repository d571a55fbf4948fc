/-
The directories of the RAM disk, as lists of entries and as what lookups see.
-/
import RiscvPke.Fs.Runs

namespace RiscvPke.Fs

open Function CData RiscvPke.Count Run RiscvPke.System

variable {D : Debts} {a a' : Afs} {s s' : St} {n m k v w d p : ℕ} {V W : Vinode} {De : Dentry} {l l' : Loc}
  {path name q q' : CString}
  {c : Change} {ts us : List CString} {parent : ℕ}

/-! ## Locations on disk -/

/-- every name of the location leads from the directory above it to the inode -/
inductive Afs.IsLoc (a : Afs) : Loc → Prop
  | mount : a.IsLoc [(ramdisk0, 0)]
  | child {name q : CString} {n k : ℕ} {l : Loc} (hup : a.IsLoc ((q, k) :: l)) (hfind : a.find k name = some (n : ℤ)) :
      a.IsLoc ((name, n) :: (q, k) :: l)

theorem Inv.isLoc (h : Inv D a) (hDe : a.dentries d = some De) (hst : d ∉ D.stray) (hl : a.loc d = some ((q, n) :: l)) :
    a.IsLoc ((q, n) :: l) := by
  induction l generalizing d De q n with
  | nil =>
    obtain ⟨l', hl', hseat⟩ := h.seat hDe hst
    cases hl.symm.trans hl'
    cases hseat with
    | mount => exact .mount
  | cons head l ih =>
    obtain ⟨l', hl', hseat⟩ := h.seat hDe hst
    obtain rfl : (q, n) :: head :: l = l' := Option.some.inj (hl.symm.trans hl')
    cases hseat with
    | below hpar hup hdir hN hn hfind =>
      obtain ⟨w, W, hNup, -⟩ := hdir
      obtain ⟨Up, hUp, -⟩ := hNup.dentry
      exact .child (ih hUp hNup.hashed hup) hfind

theorem Inv.find_ne_root (h : Inv D a) : a.find k name ≠ some ((0 : ℕ) : ℤ) := by
  intro hfind
  obtain ⟨e, he, -, hi⟩ := find_mem hfind
  exact links_eq_zero h.dirs.root (dir_lt_of_mem h.disk he) he hi

theorem Afs.IsLoc.unique (hl : a.IsLoc ((q, n) :: l)) (h : Inv D a) (hl' : a.IsLoc ((q', n) :: l'))
    (hn : (a.dinode n).type = DIR_I) :
    (q, n) :: l = (q', n) :: l' := by
  -- by induction on the location; the entry of a directory is its only one, so both go up to the same directory
  induction l generalizing q q' n l' with
  | nil =>
    cases hl with
    | mount =>
      cases hl' with
      | mount => rfl
      | child _ hfind => exact absurd hfind h.find_ne_root
  | cons head l ih =>
    cases hl with
    | child hup hfind =>
      cases hl' with
      | mount => exact absurd hfind h.find_ne_root
      | child hup' hfind' =>
        obtain ⟨e, he, hname, hi⟩ := find_mem hfind
        obtain ⟨e', he', hname', hi'⟩ := find_mem hfind'
        obtain ⟨rfl, rfl⟩ := entry_unique h.disk (h.dirs.links n hn) he hi he' hi'
        have hdir : ∀ k, e ∈ a.dir k → (a.dinode k).type = DIR_I := by
          intro k hk
          by_contra ht
          rw [h.disk.nil k ht] at hk
          cases hk
        rw [ih hup hup' (hdir _ he), ← hname, ← hname']

theorem Afs.IsLoc.congr (hdir : a'.dir = a.dir) (h : a.IsLoc l) : a'.IsLoc l := by
  induction h with
  | mount => exact .mount
  | child _ hfind ih =>
    refine .child ih ?_
    unfold Afs.find at hfind ⊢
    rwa [hdir]

theorem walk_congr (hdir : a'.dir = a.dir) (ts : List CString) : a'.walk ts l = a.walk ts l := by
  have hfind : a'.find = a.find := by
    funext p name
    unfold Afs.find
    rw [hdir]
  induction ts generalizing l with
  | nil => rfl
  | cons token rest ih => simp only [Afs.walk, ih, hfind]

/-! ## The answer of a lookup -/

/-- what a lookup says: the inode number of the dentry, with none for the root of the host, or the missing name -/
def lookedUp (path : CString) (parent : ℕ) : F (Except CString (Option ℤ)) := do
  let l ← lookupFinalDentry path parent
  match l.dentry with
  | none => return .error l.miss_name
  | some d =>
    let V ← vinodeAt (← inodeOf d)
    return .ok (if V.host then none else some V.inum)

/-- what a walk says; the host file system is left to itself -/
def Walk.answer : Walk → Except Fault (Except CString (Option ℤ))
  | .found [] => .ok (.ok none)
  | .found ((_, n) :: _) => .ok (.ok (some (n : ℤ)))
  | .missing _ name => .ok (.error name)
  | .host => .error .hostfs

def Stands (a : Afs) (V : Vinode) : Loc → Prop
  | [] => V.host = true ∧ V.type = DIR_I
  | (_, n) :: _ => V.host = false ∧ V.inum = n ∧ V.toDinode = a.cur n ∧ V.type = (a.dinode n).type

theorem Inv.stands (h : Inv D a) (hDe : a.dentries d = some De) (hst : d ∉ D.stray) (hl : a.loc d = some l) :
    ∃ v V, De.dentry_inode = some v ∧ a.vinodes v = some V ∧ Stands a V l := by
  obtain ⟨l', hl', hseat⟩ := h.seat hDe hst
  cases hl.symm.trans hl'
  cases l with
  | nil =>
    cases hseat with
    | root hroot =>
      subst hroot
      obtain ⟨De', hDe', -, -, v, V, hv, hV, hh, ht⟩ := h.tree.root
      cases hDe.symm.trans hDe'
      exact ⟨v, V, hv, hV, hh, ht⟩
  | cons head l =>
    obtain ⟨v, V, hN, hn⟩ := hseat.node
    obtain ⟨-, -, hs, -, hcur⟩ := hN.cachedAt h hn
    exact ⟨v, V, hN.inode hDe, hN.vinode, hN.rfs, hn, hcur.symm, hs.type⟩

theorem lookedUp_spec (h : Tidy D a) (hbase : Base D a d) (hclean : a.CleanPath path d)
    (hlen : path.length < MAX_PATH_LEN) :
    Spec abs (fun e => (a.resolve path d).answer = .error e) a (lookedUp path d) fun r _ =>
      (a.resolve path d).answer = .ok r := by
  refine (lookupFinalDentry_spec (fun hwalk => by rw [hwalk]; rfl) (fun hlong =>
    absurd hlong (not_le.2 hlen)) h hbase hclean).bind ?_
  intro r a1 ⟨h1, _, hans⟩
  cases hwalk : a.resolve path d with
  | missing l name =>
    rw [hwalk] at hans
    obtain ⟨hnone, hmiss, -⟩ := hans
    rw [hnone, ← hmiss]
    exact spec_pure rfl
  | host =>
    rw [hwalk] at hans
    exact hans.elim
  | found l =>
    rw [hwalk] at hans
    obtain ⟨x, hx, hl, hst, De, hDe, -⟩ := hans
    rw [hx]
    obtain ⟨v, V, hv, hV, hstands⟩ := h1.inv.stands hDe hst hl
    apply inodeOf_spec hDe hv
    apply vinodeAt_spec hV
    cases l with
    | nil =>
      rw [if_pos hstands.1]
      exact spec_pure rfl
    | cons head l =>
      obtain ⟨hh, hn, -⟩ := hstands
      rw [if_neg (by rw [hh]; decide), hn]
      exact spec_pure rfl

/-! ## Without writes -/

def Blank (a : Afs) : Prop := ∀ n, (a.body n).type = FILE_I → (a.body n).size = 0

theorem Moves.blankFiles (h : Moves a c a') (hb : Blank a) (hc : c ≠ .data) : Blank a' := by
  intro n hn
  cases h with
  | same _ _ hbody =>
    rw [hbody] at hn ⊢
    exact hb n hn
  | @new m b type _ _ _ _ hbody =>
    rw [hbody] at hn ⊢
    by_cases hm : n = m
    · rw [hm, update_self]
      exact ite_self 0
    · rw [update_of_ne hm] at hn ⊢
      exact hb n hn
  | @freed k m name _ _ _ _ _ hbody hfree =>
    rw [hbody] at hn ⊢
    by_cases hm : n = m
    · rw [hm, update_self] at hn
      have hn : (a.dinode m).unlinked.type = FILE_I := hn
      rw [hfree] at hn
      cases hn
    · rw [update_of_ne hm] at hn ⊢
      exact hb n hn
  | grown hdata => exact absurd hdata hc

theorem Blank.size (hb : Blank a) (h : Inv D a) (hn : (a.dinode n).type = FILE_I) : (a.cur n).size < 32 := by
  have htype : (a.cur n).type = FILE_I := (h.cache.synced n).type.trans hn
  have hsize := hb n htype
  have hbody : (a.body n).size = (a.cur n).size := if_neg (by rw [htype]; decide)
  omega

theorem Blank.clean (hb : Blank a) (h : Inv D a) (ts : List CString) : a.Clean ts l := by
  induction ts generalizing l with
  | nil => trivial
  | cons token rest ih =>
    unfold Afs.Clean
    split_ifs
    · exact ih
    · exact ih
    · cases l with
      | nil => exact fun _ => ih
      | cons head l => exact ⟨hb.size h, fun _ _ => ih⟩

def Call.writes : Call → Bool
  | .write _ _ => true
  | _ => false

def Unwritten (s : St) (l : ℕ × Call) : Prop := Roomy s l ∧ l.2.writes = false

instance {l : ℕ × Call} : Decidable (Unwritten s l) := inferInstanceAs (Decidable (Roomy s l ∧ l.2.writes = false))

theorem Blank.careful {l : ℕ × Call} (hb : Blank (abs s)) (h : Inv D (abs s)) (hroom : Roomy s l) : Careful s l := by
  have hclean : ∀ path parent, (abs s).CleanPath path parent := fun path parent => hb.clean h _
  obtain ⟨p, call⟩ := l
  cases call with
  | «open» path flags => exact ⟨hclean _ _, hroom⟩
  | mkdir path => exact ⟨hclean _ _, hroom⟩
  | link oldpath newpath => exact ⟨hclean _ _, hclean _ _, hroom⟩
  | unlink path => exact hclean _ _
  | opendir path => exact hclean _ _
  | ccwd path => exact hclean _ _
  | write fd buf => trivial
  | lseek fd offset whence => trivial
  | close fd => trivial

theorem Booted.blankFiles (h : Booted a) : Blank a := by
  intro n hn
  have htype : (a.dinode n).type = FILE_I := by
    rw [← h.cur]
    exact hn
  by_cases h0 : n = 0
  · rw [h0, h.type] at htype
    cases htype
  · rw [h.free n h0] at htype
    cases htype

theorem reach_blank (h : Reach step Unwritten Boot s) : ∃ D, Tidy D (abs s) ∧ Blank (abs s) := by
  have hinv : (∃ D, Tidy D (abs s) ∧ Fair D) ∧ Blank (abs s) := by
    refine h.inv (P := fun s => (∃ D, Tidy D (abs s) ∧ Fair D) ∧ Blank (abs s)) ?_ ?_
    · intro s hs
      exact ⟨⟨Debts.none, (boot_spec hs).tidy, fair_none⟩, (boot_spec hs).blankFiles⟩
    · intro s l s' ⟨⟨D, htidy, hfair⟩, hblank⟩ ⟨hroom, hwrite⟩ hstep
      obtain ⟨r, hact⟩ := act_of_step hstep
      obtain ⟨c, D', heff, hasks, -⟩ := step_post htidy hfair (hblank.careful htidy.inv hroom) hact
      refine ⟨⟨D', heff.tidy, heff.fair⟩, heff.moves.blankFiles hblank ?_⟩
      intro hdata
      rw [hdata] at hasks
      obtain ⟨fd, buf, hcall⟩ := hasks.data
      rw [hcall] at hwrite
      cases hwrite
  grind

/-- the dentry is that of a directory on the RAM disk, with the inode `n` -/
def StartDir (s : St) (d n : ℕ) : Prop :=
  ∃ De v V, s.dentry_hash (De.parent, De.name) = some d ∧ s.dentries d = some De ∧
  De.dentry_inode = some v ∧ s.vinodes v = some V ∧ V.host = false ∧ V.type = DIR_I ∧ V.inum = n

instance : Decidable (StartDir s d n) :=
  decidable_of_iff (∃ De ∈ s.dentries d, s.dentry_hash (De.parent, De.name) = some d ∧ ∃ v ∈ De.dentry_inode,
    ∃ V ∈ s.vinodes v,
    V.host = false ∧ V.type = DIR_I ∧ V.inum = n) <| by
  constructor
  · intro ⟨De, hDe, hk, v, hv, V, hV, hdir⟩
    exact ⟨De, v, V, hk, hDe, hv, hV, hdir⟩
  · intro ⟨De, v, V, hk, hDe, hv, hV, hdir⟩
    exact ⟨De, hDe, hk, v, hv, V, hV, hdir⟩

theorem StartDir.dirAt (h : StartDir s d n) (htidy : Tidy D (abs s)) : DirAt D (abs s) d n := by
  obtain ⟨De, v, V, hk, hDe, hv, hV, hh, ht, hn⟩ := h
  exact ⟨v, V, ⟨⟨De, hDe, hv⟩, (htidy.inv.tree.hashed _ _ hk).1, hV, hh, htidy.tight⟩, ht, hn⟩

theorem StartDir.answer (h : StartDir s d n) (htidy : Tidy D (abs s)) (hblank : Blank (abs s))
    (hlen : path.length < MAX_PATH_LEN) :
    (∃ q l, (abs s).IsLoc ((q, n) :: l)) ∧
    ∀ q l, (abs s).IsLoc ((q, n) :: l) → (lookedUp path d s).map Prod.fst =
      ((abs s).walk (tokens path) (if absolute path then [] else (q, n) :: l)).answer := by
  have hdir := h.dirAt htidy
  obtain ⟨v, V, hN, ht, hn⟩ := id hdir
  obtain ⟨De, l, hDe, hst, hl⟩ := htidy.inv.base (.inr ⟨n, hdir⟩)
  obtain ⟨q, l, rfl⟩ := htidy.inv.loc_node hl hN hn
  have hloc := htidy.inv.isLoc hDe hst hl
  refine ⟨⟨q, l, hloc⟩, ?_⟩
  intro q' l' hloc'
  rw [← hloc.unique htidy.inv hloc' (htidy.dir_type hN ht hn)]
  have hstart : (abs s).start path d = if absolute path then [] else (q, n) :: l := by
    unfold Afs.start
    rw [hl]
    rfl
  have hans := lookedUp_spec htidy (.inr ⟨n, hdir⟩) (hblank.clean htidy.inv _) hlen s rfl
  rw [← hstart]
  cases hrun : lookedUp path d s with
  | ok res =>
    rw [hrun] at hans
    exact Eq.symm hans
  | error e =>
    rw [hrun] at hans
    exact Eq.symm hans

/-- **Lookups do not show the caches.** The answer is that of the walk over the directories on disk, from the location
of the start directory, and the same in all states with these directories. -/
theorem lookup_transparent (h : Reach step Unwritten Boot s) (hd : StartDir s d n) (hlen : path.length < MAX_PATH_LEN) :
    (∃ q l, (abs s).IsLoc ((q, n) :: l)) ∧
    (∀ q l, (abs s).IsLoc ((q, n) :: l) → (lookedUp path d s).map Prod.fst =
      ((abs s).walk (tokens path) (if absolute path then [] else (q, n) :: l)).answer) ∧
    ∀ s' d', Reach step Unwritten Boot s' → StartDir s' d' n → (abs s').dir = (abs s).dir →
      (lookedUp path d' s').map Prod.fst = (lookedUp path d s).map Prod.fst := by
  obtain ⟨D, htidy, hblank⟩ := reach_blank h
  obtain ⟨⟨q, l, hloc⟩, hans⟩ := hd.answer htidy hblank hlen
  refine ⟨⟨q, l, hloc⟩, hans, ?_⟩
  intro s' d' h' hd' hdir
  obtain ⟨D', htidy', hblank'⟩ := reach_blank h'
  rw [hans q l hloc, (hd'.answer htidy' hblank' hlen).2 q l (hloc.congr hdir), walk_congr hdir]

def nested : List (ℕ × Call) :=
  [(0, .mkdir (onDisk [100])), (0, .open (onDisk [100, 47, 120]) 66), (0, .close 0)]

theorem lookup_transparent_nested :
    (lookedUp (str [100, 47, 120]) 3 (exec step boot nested)).map Prod.fst = .ok (.ok (some 2)) := by
  obtain ⟨hreach, hroot⟩ : Reach step Unwritten Boot (exec step boot nested) ∧ StartDir (exec step boot nested) 3 0 :=
    And.imp_left (reach_decide nested boot (.init boot_boot)) (by decide +kernel)
  rw [(lookup_transparent hreach hroot (by decide)).2.1 ramdisk0 [] .mount]
  decide +kernel

/-! ## Names below regular files -/

theorem walk_append (h : a.walk ts l = .found l') : a.walk (ts ++ us) l = a.walk us l' := by
  induction ts generalizing l with
  | nil =>
    cases h
    rfl
  | cons token rest ih =>
    cases l with
    | nil =>
      simp only [List.cons_append, Afs.walk] at h ⊢
      grind
    | cons head l =>
      simp only [List.cons_append, Afs.walk] at h ⊢
      generalize a.find head.2 token = o at h ⊢
      cases o <;> grind

theorem clean_append : a.Clean (ts ++ us) l ↔ a.Clean ts l ∧ ∀ l', a.walk ts l = .found l' → a.Clean us l' := by
  induction ts generalizing l with
  | nil => simp [Afs.Clean, Afs.walk]
  | cons token rest ih =>
    cases l with
    | nil =>
      simp only [List.cons_append, Afs.walk, Afs.Clean, ih]
      grind
    | cons head l =>
      simp only [List.cons_append, Afs.walk, Afs.Clean, ih]
      cases a.find head.2 token <;> grind

def partVinode (ts : List CString) (path : CString) (parent : ℕ) : F (Option Vinode) := do
  let root := (← get).vfs_root_dentry
  let start := if absolute path then root else parent
  match (← lookupTokens ts start (some start)).dentry with
  | none => return none
  | some d => return some (← vinodeAt (← inodeOf d))

theorem partVinode_spec (h : Tidy D a) (hbase : Base D a parent) (hclean : a.Clean ts (a.start path parent)) :
    Spec abs (fun _ => a.walk ts (a.start path parent) = .host) a (partVinode ts path parent) fun r _ =>
      match r with
      | none => ∀ l, a.walk ts (a.start path parent) ≠ .found l
      | some V => ∃ l, a.walk ts (a.start path parent) = .found l ∧ Stands a V l := by
  apply spec_get_bind
  intro s hs
  rw [show s.vfs_root_dentry = a.vfs_root_dentry by rw [← hs]; rfl]
  obtain ⟨hunder, hloc⟩ := h.inv.begins hbase path (some (if absolute path then a.vfs_root_dentry else parent))
  refine (lookupTokens_spec id h hloc hunder hclean).bind ?_
  intro r a1 ⟨h1, hgrow, hans⟩
  cases hwalk : a.walk ts (a.start path parent) with
  | host =>
    rw [hwalk] at hans
    exact hans.elim
  | missing l' name' =>
    rw [hwalk] at hans
    rw [hans.1]
    exact spec_pure fun _ hl => nomatch hl
  | found l =>
    rw [hwalk] at hans
    obtain ⟨d, hd, hl, hst, De, hDe, -⟩ := hans
    obtain ⟨v, V, hv, hV, hstands⟩ := h1.inv.stands hDe hst hl
    rw [hd]
    apply inodeOf_spec hDe hv
    apply vinodeAt_spec hV
    refine spec_pure ⟨l, rfl, ?_⟩
    cases l with
    | nil => exact hstands
    | cons head l =>
      unfold Stands at hstands ⊢
      rwa [hgrow.cur, hgrow.dinode] at hstands

/-- a vinode that a part of the path leads to before a name: no bytes of a regular file are read as entries, and if a
dentry is found for the path, it is that of a directory -/
def Descends (path : CString) (parent : ℕ) (s : St) : Prop :=
  path.length < MAX_PATH_LEN → ∀ ts name rest, tokens path = ts ++ name :: rest → name ≠ dot → name ≠ dotdot →
    ∀ V s', partVinode ts path parent s = .ok (some V, s') → (V.type = FILE_I → V.size < 32) ∧
      ∀ r s', lookupFinalDentry path parent s = .ok (r, s') → r.dentry ≠ none → V.type = DIR_I

/-- **Paths descend through directories** if and only if no name of the path comes after a regular file that is long
enough for an entry: `rfs_lookup` does not look at the type. -/
theorem descends_iff (h : Tidy D (abs s)) (hbase : Base D (abs s) parent) :
    Descends path parent s ↔ (path.length < MAX_PATH_LEN → (abs s).CleanPath path parent) := by
  refine forall_congr' fun hlen => ⟨fun hdesc => ?_, fun hclean ts name rest hpath hdot hdotdot V s' hrun => ?_⟩
  · -- every part of the path is clean, by induction from its end
    have hpart : ∀ ts us, tokens path = ts ++ us → (abs s).Clean ts ((abs s).start path parent) := by
      intro ts
      induction ts using List.reverseRecOn with
      | nil => exact fun _ _ => trivial
      | append_singleton ts name ih =>
        intro us hus
        rw [List.append_assoc, List.singleton_append] at hus
        have hclean := ih _ hus
        refine clean_append.2 ⟨hclean, fun l hl => ?_⟩
        have hend := partVinode_spec h hbase hclean s rfl
        unfold Afs.Clean
        split_ifs with hdot hdotdot
        · trivial
        · trivial
        cases l with
        | nil => exact fun _ => trivial
        | cons head l =>
          refine ⟨?_, fun _ _ => trivial⟩
          cases hrun : partVinode ts path parent s with
          | error e =>
            rw [hrun] at hend
            cases hl.symm.trans hend
          | ok x =>
            obtain ⟨r, s'⟩ := x
            rw [hrun] at hend
            cases r with
            | none => exact absurd hl (hend _)
            | some V =>
              obtain ⟨l', hl', hstands⟩ := hend
              cases hl.symm.trans hl'
              obtain ⟨-, -, hcur, htype⟩ := hstands
              rw [← hcur, ← htype]
              exact (hdesc ts name us hus hdot hdotdot V s' hrun).1
    exact hpart _ [] (List.append_nil _).symm
  · have hclean' : (abs s).Clean (ts ++ name :: rest) ((abs s).start path parent) := hpath ▸ hclean
    obtain ⟨hts, hrest⟩ := clean_append.1 hclean'
    obtain ⟨l, hl, hstands⟩ := (partVinode_spec h hbase hts).run hrun
    have hname := hrest l hl
    cases l with
    | nil => exact ⟨fun hf => absurd (hstands.2.symm.trans hf) (by decide), fun _ _ _ _ => hstands.2⟩
    | cons head l =>
      obtain ⟨-, -, hcur, htype⟩ := hstands
      unfold Afs.Clean at hname
      rw [if_neg hdot, if_neg hdotdot] at hname
      have hshort := hname.1
      rw [← hcur, ← htype] at hshort
      refine ⟨hshort, fun r s2 hlook hr => ?_⟩
      obtain ⟨-, -, hans⟩ :=
        (lookupFinalDentry_spec (E := fun _ => True) (fun _ => trivial) (fun _ => trivial) h hbase hclean).run hlook
      by_contra hdir
      unfold Afs.resolve at hans
      rw [hpath, walk_append hl, Afs.walk, if_neg hdot, if_neg hdotdot] at hans
      have hfind : (abs s).find head.2 name = none := by
        unfold Afs.find
        rw [h.inv.disk.nil head.2 (htype ▸ hdir)]
        rfl
      simp only [hfind] at hans
      exact hr hans.1

theorem descends_iff_nested : Descends (onDisk [100, 47, 120]) 0 (exec step boot nested) := by
  have hreach : Reach step Careful Boot (exec step boot nested) :=
    reach_decide nested boot (.init boot_boot) (by decide +kernel)
  obtain ⟨D, htidy, -⟩ := reach_tidy hreach
  exact (descends_iff htidy (.inl rfl)).2 (by decide +kernel)

def writtenEntry : List (ℕ × Call) :=
  [(0, .open (onDisk [97]) 66), (0, .write 0 ([1, 0, 0, 0, 98] ++ List.replicate 27 0))]

theorem found_below_file : ∃ s, Reach step Careful Boot s ∧ ¬ Descends (onDisk [97, 47, 98]) 0 s := by
  refine ⟨exec step boot writtenEntry, ?_, ?_⟩
  · exact reach_decide writtenEntry boot (.init boot_boot)
      (by decide +kernel)
  · intro hdesc
    -- `a` is a regular file, and the path below it is found
    have hfile : (partVinode [ramdisk0, str [97]] (onDisk [97, 47, 98]) 0 (exec step boot writtenEntry)).map
        (fun x => x.1.map (·.type)) = .ok (some FILE_I) := by
      decide +kernel
    have hfound : (lookupFinalDentry (onDisk [97, 47, 98]) 0 (exec step boot writtenEntry)).map (fun x =>
      x.1.dentry) = .ok (some 7) := by
      decide +kernel
    obtain ⟨⟨r, s'⟩, hrun, hV⟩ := map_ok hfile
    obtain ⟨V, rfl, htype⟩ := Option.map_eq_some_iff.1 hV
    obtain ⟨x, hlook, hx⟩ := map_ok hfound
    have hdir :=
      (hdesc (by decide) _ (str [98]) [] (by decide +kernel) (by decide) (by decide) V s' hrun).2 x.1 x.2 hlook
      (by rw [hx]; exact Option.some_ne_none _)
    cases htype.symm.trans hdir

/-! ## Directories as lists -/

def IsFolder (s : St) (w : ℕ) (W : Vinode) (p : ℕ) : Prop :=
  s.vinodes w = some W ∧ W.host = false ∧ W.type = DIR_I ∧ W.inum = p

instance : Decidable (∃ W, IsFolder s w W p) :=
  inferInstanceAs (Decidable (∃ W ∈ s.vinodes w, W.host = false ∧ W.type = DIR_I ∧ W.inum = p))

theorem IsFolder.folder (h : IsFolder s w W p) (htidy : Tidy D (abs s)) : Folder (abs s) w W p :=
  htidy.inv.folder h.1 h.2.1 htidy.tight h.2.2.1 h.2.2.2

theorem rfsLookup_run (htidy : Tidy D (abs s)) (hW : IsFolder s w W p) (name : CString) :
    match (abs s).find p name with
    | none => ∃ s', rfsLookup w name s = .ok (none, s')
    | some x => ∃ child C s', rfsLookup w name s = .ok (some child, s') ∧ s'.vinodes child = some C ∧ C.inum = x := by
  have hin : ∀ x, (abs s).find p name = some x → ∃ m < 320, x = (m : ℕ) := by
    intro x hx
    obtain ⟨e, he, -, hi⟩ := find_mem hx
    obtain ⟨-, m, hm, hlive⟩ := htidy.inv.disk.entries p e he
    exact ⟨m, htidy.inv.disk.live_lt m hlive, hi.symm.trans hm⟩
  have hspec : Spec abs (fun _ => False) (abs s) (rfsLookup w name) fun r a' =>
      match (abs s).find p name with
      | none => r = none
      | some x => ∃ child C, r = some child ∧ a'.vinodes child = some C ∧ C.inum = x := by
    refine rfsLookup_spec (hW.folder htidy) hin ?_ ?_
    · intro hnone
      rw [hnone]
    · intro m hm hfind
      rw [hfind]
      exact ⟨_, _, rfl, update_self _ _ _, rfl⟩
  have hrun := hspec s rfl
  cases hx : rfsLookup w name s with
  | error e =>
    rw [hx] at hrun
    exact hrun.elim
  | ok res =>
    cases hfind : (abs s).find p name with
    | none => grind [Ends]
    | some x => grind [abs, Ends]

/-- **Directories.** A call adds the entry that it asks for at the end or removes the one of its name, in the block of
the directory; `rfs_lookup` finds what the list has. -/
theorem directory_is_list (h : Reach step Careful Boot s) :
    (∀ l r s', Careful s l → act l.1 l.2 s = .ok (r, s') →
      ∃ c, (abs s).Asks l.1 r l.2 c ∧ (abs s').dir = c.apply (abs s).dir ∧
        ∀ p e w W, c = .add p e → IsFolder s w W p → W.size.tdiv RFS_BLKSIZE < W.blocks) ∧
    ∀ w W p, IsFolder s w W p →
      (∀ i < totalDirentrys W.toDinode, ((i / BLOCK_DIRENTRYS : ℕ) : ℤ) < W.blocks) ∧
      ∀ name, match (abs s).find p name with
        | none => ∃ s', rfsLookup w name s = .ok (none, s')
        | some x => ∃ child C s', rfsLookup w name s = .ok (some child, s') ∧ s'.vinodes child = some C ∧
          C.inum = x := by
  have hdirentrys : BLOCK_DIRENTRYS = 128 := rfl
  obtain ⟨D, htidy, hfair⟩ := reach_tidy h
  refine ⟨?_, ?_⟩
  · intro l r s' hcare hact
    obtain ⟨c, D', heff, hasks, -⟩ := step_post htidy hfair hcare hact
    refine ⟨c, hasks, heff.dir, ?_⟩
    intro p e w W hc hW
    have hF := hW.folder htidy
    -- the directory has room, since it is not too long afterwards
    have hlen : ((abs s').dir p).length = ((abs s).dir p).length + 1 := by
      rw [heff.dir, hc]
      show (update (abs s).dir p ((abs s).dir p ++ [e]) p).length = _
      rw [update_self, List.length_append]
      rfl
    have hle : ((abs s').dir p).length ≤ 128 := by
      by_cases hdir : ((abs s').dinode p).type = DIR_I
      · exact (heff.tidy.inv.disk.length p hdir).2
      · rw [heff.tidy.inv.disk.nil p hdir]
        decide
    rw [hF.size, hF.blocks]
    grind
  · intro w W p hW
    have hF := hW.folder htidy
    refine ⟨?_, rfsLookup_run htidy hW⟩
    intro i hi
    have htotal : totalDirentrys W.toDinode = ((abs s).dir p).length := by
      simp only [totalDirentrys, hF.size, DIRENTRY]
      omega
    have hlen := hF.length
    rw [hF.blocks]
    show ((i / 128 : ℕ) : ℤ) < 1
    omega

def listed : List (ℕ × Call) := [(0, .open (onDisk [97]) 66), (0, .open (onDisk [98]) 66)]

theorem directory_is_list_listed : ∃ child C s', rfsLookup 2 (str [98]) (exec step boot listed) = .ok (some child, s') ∧
    s'.vinodes child = some C ∧ C.inum = 2 := by
  obtain ⟨s, rfl, hreach, ⟨W, hroot⟩, hfind⟩ : ∃ s, s = exec step boot listed ∧ Reach step Careful Boot s ∧
      (∃ W, IsFolder s 2 W 0) ∧ (abs s).find 0 (str [98]) = some 2 :=
    ⟨_, rfl, And.imp_left (reach_decide listed boot (.init boot_boot)) (by decide +kernel)⟩
  have hlookup := ((directory_is_list hreach).2 2 _ 0 hroot).2 (str [98])
  rw [hfind] at hlookup
  exact hlookup

def longName : CString := str (List.replicate 28 97)

def longNamed : List (ℕ × Call) :=
  [(0, .ccwd (slash :: ramdisk0)), (0, .open longName 66), (0, .open (str [98]) 66)]

/-- The directory has the entry, but `rfs_lookup` reads on into the next one and does not find it. -/
theorem long_name_lost : ∃ s W, Reach step (fun _ _ => True) Boot s ∧ IsFolder s 2 W 0 ∧
    (abs s).dir 0 = [⟨longName, 1⟩, ⟨str [98], 2⟩] ∧ (rfsLookup 2 longName s).map Prod.fst = .ok none := by
  obtain ⟨s, hreach, ⟨W, hroot⟩, hlost⟩ : ∃ s, Reach step (fun _ _ => True) Boot s ∧ (∃ W, IsFolder s 2 W 0) ∧
      (abs s).dir 0 = [⟨longName, 1⟩, ⟨str [98], 2⟩] ∧ (rfsLookup 2 longName s).map Prod.fst = .ok none :=
    ⟨_, And.imp_left (reach_decide longNamed boot (.init boot_boot)) (by decide +kernel)⟩
  exact ⟨s, W, hreach, hroot, hlost⟩

end RiscvPke.Fs
