/-
The command lines of the shell (zshell/parser.c): `get_token`, `skip_current_token` and `build_command`.
-/
import RiscvPke.Core.Words

namespace RiscvPke.Shell

open Words

/-! ## The model -/

inductive Fault where
  | outOfBounds
  | nullPointer
  | noFuel
deriving DecidableEq

/-- the bytes of a buffer or of a string -/
abbrev Text := List UInt8

inductive Operation where
  | OP_DEAD
  | OP_EXEC
  | OP_PIPLINE
  | OP_MULTISTART
  | OP_MULTICORE
deriving DecidableEq, Repr

open Operation

/-- a parameter node: the call of `better_malloc` that made it, and the string, which is a pointer into the line -/
structure Para where
  node : ℕ
  para : ℕ
deriving DecidableEq

/-- `operation` is a pointer into the line -/
structure Command where
  operation : Option ℕ
  paras : List Para
  para_num : ℤ
  op_type : Operation
deriving DecidableEq

def Command.unused : Command := ⟨none, [], 0, OP_DEAD⟩

def Command.nodes (c : Command) : List ℕ := c.paras.map Para.node

/-- the parameter nodes of a list of commands -/
def nodesOf (command : List Command) : List ℕ := command.flatMap Command.nodes

/-- the calls of `better_malloc` so far, and the nodes that `better_free` was called with -/
structure Pool where
  made : ℕ
  freed : List ℕ
deriving DecidableEq

def Pool.betterMalloc (h : Pool) : ℕ × Pool := (h.made, { h with made := h.made + 1 })

def Pool.betterFree (h : Pool) (node : ℕ) : Pool := { h with freed := h.freed ++ [node] }

def load (b : Text) (p : ℕ) : Except Fault UInt8 :=
  match b[p]? with
  | some c => .ok c
  | none => .error .outOfBounds

/-- `strchr(" ", c) != NULL`, of a character that is not the terminator -/
def isDelim (c : UInt8) : Bool := c != 0 && c == 32

def inToken (c : UInt8) : Bool := c != 0 && !(c == 32)

def cstr (b : Text) (p : ℕ) : Text := (b.drop p).takeWhile (· != 0)

def strlen (b : Text) (p : ℕ) : Except Fault ℕ := do
  let _ ← load b (p + (cstr b p).length)
  return (cstr b p).length

/-- the common part of `get_token` and `skip_current_token` -/
def tokenFrom (b : Text) (p : ℕ) : Except Fault (Option ℕ × Text) := do
  let start := p + ((b.drop p).takeWhile isDelim).length
  let c ← load b start
  if c = 0 then return (none, b)
  let p := start + ((b.drop start).takeWhile inToken).length
  let c ← load b p
  return (some start, if c ≠ 0 then b.set p 0 else b)

def getToken (b : Text) (input : ℕ) : Except Fault (Option ℕ × Text) := tokenFrom b input

def skipCurrentToken (b : Text) (input : ℕ) : Except Fault (Option ℕ × Text) := do
  let n ← strlen b input
  tokenFrom b (input + n + 1)

def Command.dead (c : Command) : Command := { c with paras := [], para_num := 0, op_type := OP_DEAD }

def freeParas (h : Pool) (c : Command) : Command × Pool := (c.dead, c.paras.foldl (fun h x => h.betterFree x.node) h)

/-- `free_paras(command)`: it is the first command of the list -/
def freeFirst (h : Pool) : List Command → List Command × Pool
  | [] => ([], h)
  | c :: rest =>
    let (c, h) := freeParas h c
    (c :: rest, h)

def clearCommand (h : Pool) : List Command → List Command × Pool
  | [] => ([], h)
  | c :: rest =>
    let (c, h) := freeParas h c
    let (rest, h) := clearCommand h rest
    ({ c with operation := none, para_num := 0, op_type := OP_DEAD } :: rest, h)

/-- the three `strcmp` of a token -/
def separator (token : Text) : Option Operation :=
  if token = [38, 38] then some OP_MULTICORE
  else if token = [38] then some OP_MULTISTART
  else if token = [124] then some OP_PIPLINE
  else none

/-- the loop over the parameters of a command: the token it stops at, the parameters and `para_num` -/
def paraLoop : ℕ → Pool → Text → Option ℕ → List Para → ℤ → Except Fault (Option ℕ × Text × List Para × ℤ × Pool)
  | 0, _, _, _, _, _ => .error .noFuel
  | _ + 1, h, b, none, paras, para_num => .ok (none, b, paras, para_num, h)
  | fuel + 1, h, b, some token, paras, para_num =>
    match separator (cstr b token) with
    | some _ => .ok (some token, b, paras, para_num, h)
    | none => do
      let (node, h) := h.betterMalloc
      let (next, b) ← skipCurrentToken b token
      paraLoop fuel h b next (paras ++ [⟨node, token⟩]) (para_num + 1)

/-- what comes after a command: `token` is `NULL` or a separator -/
inductive After where
  /-- the loop of `build_command` is left -/
  | done (command : List Command)
  /-- it goes on with the next command -/
  | next (command : List Command) (token : ℕ)

/-- the end of a turn of the loop of `build_command` -/
def endCommand (h : Pool) (b : Text) (command : List Command) (cur : ℕ) :
    Option ℕ → Except Fault (After × Text × Pool)
  | none => .ok (.done (command.modify cur fun c => { c with op_type := OP_EXEC }), b, h)
  | some token =>
    match separator (cstr b token) with
    | none => .ok (.done (command.modify cur fun c => { c with op_type := OP_EXEC }), b, h)
    | some op => do
      let command := command.modify cur fun c => { c with op_type := op }
      let (next, b) ← skipCurrentToken b token
      match next with
      | none =>
        -- a separator must be followed by a command
        let (command, h) := freeFirst h command
        return (.done command, b, h)
      | some token =>
        if command.length = cur + 1 then return (.next (command ++ [.unused]) token, b, h.betterMalloc.2)
        else return (.next command token, b, h)

/-- a turn of the loop of `build_command` -/
def buildTurn (fuel : ℕ) (h : Pool) (b : Text) (command : List Command) (cur token : ℕ) :
    Except Fault (After × Text × Pool) := do
  let command := command.modify cur fun c => { c with operation := some token }
  let (next, b) ← skipCurrentToken b token
  match next with
  | none => endCommand h b command cur none
  | some token =>
    match separator (cstr b token) with
    | some _ => endCommand h b command cur (some token)
    | none => do
      let (head, h) := h.betterMalloc
      let (next, b, paras, para_num, h) ← paraLoop fuel h b (some token) [] ((command[cur]?).elim 0 (·.para_num))
      let command := command.modify cur fun c => { c with paras := paras, para_num := para_num }
      endCommand (h.betterFree head) b command cur next

def buildLoop : ℕ → Pool → Text → List Command → (cur token : ℕ) → Except Fault (List Command × Text × Pool)
  | 0, _, _, _, _, _ => .error .noFuel
  | fuel + 1, h, b, command, cur, token => do
    let (after, b, h) ← buildTurn fuel h b command cur token
    match after with
    | .done command => return (command, b, h)
    | .next command token => buildLoop fuel h b command (cur + 1) token

/-- every turn of a loop takes a token of the line -/
def buildCommand (h : Pool) (b : Text) (cmdline : ℕ) (command : List Command) :
    Except Fault (List Command × Text × Pool) := do
  let (command, h) := clearCommand h command
  let (token, b) ← getToken b cmdline
  match token with
  | none => return (command, b, h)
  | some token =>
    if command = [] then buildLoop (b.length + 1) h.betterMalloc.2 b [.unused] 0 token
    else buildLoop (b.length + 1) h b command 0 token

/-! ## The command language -/

/-- a command of the line: its first token, the tokens after it, and the separator it ends with -/
structure Piece where
  operation : Text
  paras : List Text
  sep : Option Operation
deriving DecidableEq

/-- a separator cuts the tokens where it follows a command word; `open` is the command that is read -/
def cutFrom : Option (Text × List Text) → List Text → List Piece
  | none, [] => []
  | none, w :: ts => cutFrom (some (w, [])) ts
  | some (operation, paras), [] => [⟨operation, paras, none⟩]
  | some (operation, paras), w :: ts =>
    match separator w with
    | some op => ⟨operation, paras, some op⟩ :: cutFrom none ts
    | none => cutFrom (some (operation, paras ++ [w])) ts

def cut (tokens : List Text) : List Piece := cutFrom none tokens

def isSpace (c : UInt8) : Bool := c == 32

def tokensOf (line : Text) : List Text := words isSpace line

/-- the line ends with a separator -/
def Trailing (pieces : List Piece) : Prop := ∃ x ∈ pieces.getLast?, x.sep ≠ none

instance (pieces : List Piece) : Decidable (Trailing pieces) :=
  inferInstanceAs (Decidable (∃ x ∈ pieces.getLast?, x.sep ≠ none))

def Command.strings (b : Text) (c : Command) : List Text := c.paras.map fun x => cstr b x.para

/-- a command is the one of a piece -/
structure Shows (b : Text) (c : Command) (x : Piece) : Prop where
  operation : ∃ q, c.operation = some q ∧ cstr b q = x.operation
  paras : c.strings b = x.paras
  para_num : c.para_num = x.paras.length
  op_type : c.op_type = x.sep.getD OP_EXEC

variable {b b' pre post T r w v : Text} {p q lim lim' : ℕ} {c : UInt8} {token token' : Option ℕ} {ts : List Text}

/-! ## Tokens in the buffer -/

@[simp] theorem ok_bind {α β : Type} {a : α} {f : α → Except Fault β} : (Except.ok a >>= f) = f a := rfl

theorem load_append : load (pre ++ c :: T) pre.length = .ok c := by
  simp [load]

/-- what is left of the line: `r`, and a terminator after it; a second one if `r` has a token -/
def Rest (T r : Text) : Prop := 0 ∉ r ∧ ∃ post, T = r ++ 0 :: post ∧ (tokensOf r ≠ [] → ∃ q, post = 0 :: q)

/-- the bytes of the buffer before this position are final -/
def limit (b : Text) : Option ℕ → ℕ
  | none => b.length
  | some p => p

/-- the string `w` is at `q`, among the final bytes -/
def Holds (b : Text) (lim q : ℕ) (w : Text) : Prop := ∃ pre, q = pre.length ∧ 0 ∉ w ∧ pre ++ w ++ [0] <+: b.take lim

theorem takeWhile_run {f : UInt8 → Bool} {s t : Text} (hs : ∀ x ∈ s, f x = true) (ht : ∀ x ∈ t.head?, f x = false) :
    (s ++ t).takeWhile f = s := by
  rw [List.takeWhile_append_of_pos hs]
  cases t with
  | nil => simp
  | cons x t =>
    have hx : f x = false := ht x rfl
    rw [List.takeWhile_cons_of_neg (by simp [hx]), List.append_nil]

theorem Holds.cstr {n : ℕ} (h : Holds b n q w) : cstr b q = w := by
  obtain ⟨pre, rfl, hw, hpre⟩ := h
  obtain ⟨t, ht⟩ := hpre.trans (List.take_prefix n b)
  unfold Shell.cstr
  rw [← ht, List.append_assoc, List.append_assoc, List.drop_left, List.singleton_append]
  refine takeWhile_run (fun x hx => ?_) (fun x hx => ?_)
  · simp only [bne_iff_ne]
    rintro rfl
    exact hw hx
  · cases hx
    rfl

theorem Holds.mono (h : Holds b lim q w) (hle : lim ≤ lim') (hsame : b'.take lim = b.take lim) : Holds b' lim' q w := by
  obtain ⟨pre, hq, hw, hpre⟩ := h
  refine ⟨pre, hq, hw, hpre.trans ?_⟩
  rw [← hsame]
  exact List.take_prefix_take_left hle

/-- the token at the position `p` of the line, and what is left of the line after it -/
def At (b : Text) (p : ℕ) (w r : Text) : Prop := ∃ pre T, b = pre ++ (w ++ 0 :: T) ∧ p = pre.length ∧ 0 ∉ w ∧ Rest T r

theorem At.cstr (h : At b p w r) : Shell.cstr b p = w := by
  obtain ⟨pre, T, rfl, rfl, h0, -⟩ := h
  refine Holds.cstr (n := (pre ++ (w ++ 0 :: T)).length) ⟨pre, rfl, h0, ?_⟩
  rw [List.take_length]
  exact ⟨T, by simp⟩

def Toks (b : Text) : Option ℕ → List Text → Prop
  | none, ts => ts = []
  | some p, ts => ∃ w r, At b p w r ∧ ts = w :: tokensOf r

theorem blanks_run {s t : Text} (hs : ∀ x ∈ s, isSpace x = true) (ht : ∀ x ∈ t.head?, isSpace x = false) :
    (s ++ t).takeWhile isDelim = s := by
  grind [takeWhile_run, isSpace, isDelim]

theorem token_run {t : Text} (h0 : 0 ∉ w) (hw : ∀ x ∈ w, isSpace x = false)
    (ht : ∀ x ∈ t.head?, x = 0 ∨ isSpace x = true) :
    (w ++ t).takeWhile inToken = w := by
  refine takeWhile_run (fun x hx => ?_) (fun x hx => ?_)
  · have hx0 : x ≠ 0 := fun he => h0 (he ▸ hx)
    have hx1 : (x == 32) = false := hw x hx
    simp [inToken, hx0, hx1]
  · rcases ht x hx with rfl | hx
    · rfl
    · have hx : (x == 32) = true := hx
      simp [inToken, hx]

theorem token_end (hb : b = pre ++ (r ++ 0 :: 0 :: post)) (h0 : 0 ∉ r) (hend : Ends isSpace r) :
    ∃ c T r', load b pre.length = .ok c ∧ (if c ≠ 0 then b.set pre.length 0 else b) = pre ++ 0 :: T ∧ Rest T r' ∧
      tokensOf r' = tokensOf r := by
  rcases hend with rfl | ⟨y, r', rfl, hy⟩
  · refine ⟨0, 0 :: post, [], ?_, ?_, ⟨List.not_mem_nil, post, rfl, fun hne => absurd words_nil hne⟩, rfl⟩
    · rw [hb]
      exact load_append
    · rw [if_neg (by simp), hb]
      rfl
  · obtain ⟨hy0, hr'⟩ := not_or.1 (List.mem_cons.not.1 h0)
    refine ⟨y, r' ++ 0 :: 0 :: post, r', ?_, ?_, ⟨hr', _, rfl, fun _ => ⟨_, rfl⟩⟩, (words_sep hy).symm⟩
    · rw [hb]
      exact load_append
    · rw [if_pos (Ne.symm hy0), hb]
      simp

theorem tokenFrom_spec (hb : b = pre ++ T) (hT : Rest T r) : ∃ token b', tokenFrom b pre.length = .ok (token, b') ∧
    Toks b' token (tokensOf r) ∧ pre.length ≤ limit b' token ∧ b'.length = b.length ∧
    ∀ n ≤ limit b' token, b'.take n = b.take n := by
  obtain ⟨h0, post, rfl, hpost⟩ := hT
  have hdrop : b.drop pre.length = r ++ 0 :: post := by rw [hb, List.drop_left]
  rcases words_cases isSpace r with ⟨hall, hnone⟩ | ⟨s, w, r', rfl, hs, hw, hne, hend, hwords⟩
  · -- blanks, and the end of the line
    have hblank : (r ++ 0 :: post).takeWhile isDelim = r := blanks_run hall fun x hx => by cases hx; rfl
    have hload : load b (pre.length + r.length) = .ok 0 := by
      rw [hb, ← List.append_assoc, ← List.length_append]
      exact load_append
    refine ⟨none, b, ?_, hnone, ?_, rfl, fun n _ => rfl⟩
    · simp only [tokenFrom, hdrop, hblank, hload]
      rfl
    · rw [limit, hb, List.length_append]
      omega
  · -- blanks, the token, and a blank or the end of the line
    obtain ⟨post', rfl⟩ := hpost (by rw [tokensOf, hwords]; exact List.cons_ne_nil _ _)
    obtain ⟨-, h0⟩ := not_or.1 (List.mem_append.not.1 h0)
    obtain ⟨h0w, h0r⟩ := not_or.1 (List.mem_append.not.1 h0)
    have hb' : b = (pre ++ s) ++ (w ++ (r' ++ 0 :: 0 :: post')) := by
      rw [hb]
      simp only [List.append_assoc]
    obtain ⟨y, w', rfl⟩ := List.exists_cons_of_ne_nil hne
    have hblank : (s ++ (y :: w' ++ r') ++ 0 :: 0 :: post').takeWhile isDelim = s := by
      rw [List.append_assoc]
      exact blanks_run hs fun x hx => by cases hx; exact hw _ List.mem_cons_self
    have hstart : load b (pre ++ s).length = .ok y := by
      rw [hb']
      exact load_append
    have htoken : (b.drop (pre ++ s).length).takeWhile inToken = y :: w' := by
      rw [hb', List.drop_left]
      refine token_run h0w hw fun x hx => ?_
      rcases hend with rfl | ⟨z, r'', rfl, hz⟩
      · cases hx
        exact .inl rfl
      · cases hx
        exact .inr hz
    obtain ⟨c, T', r'', hload, hset, hrest, htokens⟩ := token_end (hb'.trans (List.append_assoc _ _ _).symm) h0r hend
    refine ⟨some (pre ++ s).length, _, ?_,
      ⟨y :: w', r'', ⟨pre ++ s, T', hset.trans (List.append_assoc _ _ _), rfl, h0w, hrest⟩, ?_⟩, ?_, ?_, ?_⟩
    · simp only [tokenFrom, hdrop, hblank, ← List.length_append]
      rw [hstart]
      show (if y = 0 then _ else _) = _
      rw [if_neg (fun he : y = 0 => h0w (by rw [he]; exact List.mem_cons_self)), htoken, hload]
      rfl
    · rw [tokensOf, hwords, htokens]
      rfl
    · show pre.length ≤ (pre ++ s).length
      rw [List.length_append]
      omega
    · split <;> simp
    · intro n hn
      have hn : n ≤ (pre ++ s).length := hn
      grind

theorem skipCurrentToken_spec (h : At b p w r) :
    ∃ token b', skipCurrentToken b p = .ok (token, b') ∧ Toks b' token (tokensOf r) ∧
    Holds b' (limit b' token) p w ∧ (∀ q v, Holds b p q v → Holds b' (limit b' token) q v) ∧ b'.length = b.length := by
  have hw := h.cstr
  obtain ⟨pre, T, hb, rfl, h0, hT⟩ := h
  have hb' : b = (pre ++ w ++ [0]) ++ T := by
    rw [hb]
    simp only [List.append_assoc, List.singleton_append]
  have hstrlen : strlen b pre.length = .ok w.length := by
    unfold strlen
    rw [hw, ← List.length_append, hb, ← List.append_assoc, load_append]
    rfl
  obtain ⟨token, b', hrun, htoks, hlimit, hlength, hsame⟩ := tokenFrom_spec hb' hT
  have hlen : (pre ++ w ++ [0]).length = pre.length + w.length + 1 := by
    simp only [List.length_append, List.length_singleton]
  rw [hlen] at hrun hlimit
  refine ⟨token, b', ?_, htoks, ?_, ?_, hlength⟩
  · unfold skipCurrentToken
    rw [hstrlen]
    exact hrun
  · refine ⟨pre, rfl, h0, ?_⟩
    grind
  · intro q v hq
    exact hq.mono (by omega) (hsame _ (by omega))

/-! ## The pieces of a line -/

def plain (w : Text) : Bool := (separator w).isNone

theorem cutFrom_some (operation : Text) (paras : List Text) (ts : List Text) : cutFrom (some (operation, paras)) ts =
    match ts.dropWhile plain with
    | [] => [⟨operation, paras ++ ts.takeWhile plain, none⟩]
    | w :: rest => ⟨operation, paras ++ ts.takeWhile plain, separator w⟩ :: cut rest := by
  induction ts generalizing paras with
  | nil => simp [cutFrom]
  | cons w ts ih =>
    cases hw : separator w with
    | none =>
      have hplain : plain w = true := by simp [plain, hw]
      rw [cutFrom, hw, List.dropWhile_cons_of_pos hplain, List.takeWhile_cons_of_pos hplain]
      refine (ih _).trans ?_
      rw [List.append_assoc, List.singleton_append]
    | some op =>
      have hplain : ¬ plain w = true := by simp [plain, hw]
      rw [cutFrom, hw, List.dropWhile_cons_of_neg hplain, List.takeWhile_cons_of_neg hplain, List.append_nil]
      simp only [hw]
      rfl

theorem cut_cons (w : Text) (ts : List Text) : cut (w :: ts) =
    match ts.dropWhile plain with
    | [] => [⟨w, ts.takeWhile plain, none⟩]
    | v :: rest => ⟨w, ts.takeWhile plain, separator v⟩ :: cut rest := cutFrom_some w [] ts

/-! ## From one token to the next -/

theorem Toks.cstr (h : Toks b (some p) (w :: ts)) : Shell.cstr b p = w := by
  obtain ⟨w', r, hat, he⟩ := h
  cases he
  exact hat.cstr

/-- from one place in the line to a later one: the strings read before stay -/
def Keeps (b : Text) (token : Option ℕ) (b' : Text) (token' : Option ℕ) : Prop :=
  (∀ q v, Holds b (limit b token) q v → Holds b' (limit b' token') q v) ∧ b'.length = b.length

theorem Keeps.trans {b'' : Text} {token'' : Option ℕ} (h : Keeps b token b' token') (h' : Keeps b' token' b'' token'') :
    Keeps b token b'' token'' := ⟨fun q v hq => h'.1 q v (h.1 q v hq), h'.2.trans h.2⟩

theorem Toks.skip (h : Toks b (some p) (w :: ts)) :
    ∃ token b', skipCurrentToken b p = .ok (token, b') ∧ Toks b' token ts ∧
    Holds b' (limit b' token) p w ∧ Keeps b (some p) b' token := by
  obtain ⟨w', r, hat, he⟩ := h
  cases he
  obtain ⟨token, b', hrun, htoks, hword, hkeep, hlength⟩ := skipCurrentToken_spec hat
  exact ⟨token, b', hrun, htoks, hword, hkeep, hlength⟩

theorem Toks.ne_nil (h : Toks b (some p) ts) : ∃ w ts', ts = w :: ts' := by
  obtain ⟨w, r, -, rfl⟩ := h
  exact ⟨w, _, rfl⟩

/-! ## The nodes -/

/-- the nodes of the list `l` and the freed ones: each of them was made, and none is there twice -/
def Owned (h : Pool) (l : List ℕ) : Prop := (h.freed ++ l).Nodup ∧ ∀ n ∈ h.freed ++ l, n < h.made

variable {h h' : Pool} {l l' : List ℕ}

theorem Owned.subperm (ho : Owned h l) (hl : l'.Subperm l) : Owned h l' := by
  have hall : (h.freed ++ l').Subperm (h.freed ++ l) := (List.subperm_append_left h.freed).2 hl
  refine ⟨?_, fun n hn => ho.2 n (hall.subset hn)⟩
  obtain ⟨l1, hperm, hsub⟩ := hall
  exact hperm.nodup_iff.1 (ho.1.sublist hsub)

theorem Owned.perm (ho : Owned h l) (hl : l'.Perm l) : Owned h l' := ho.subperm hl.subperm

theorem Owned.made (ho : Owned h l) : Owned h.betterMalloc.2 (l ++ [h.betterMalloc.1]) := by
  show (h.freed ++ (l ++ [h.made])).Nodup ∧ ∀ n ∈ h.freed ++ (l ++ [h.made]), n < h.made + 1
  rw [← List.append_assoc]
  refine ⟨List.nodup_append.2 ⟨ho.1, List.nodup_singleton _, ?_⟩, fun n hn => ?_⟩
  · intro n hn m hm
    have := ho.2 n hn
    rw [List.mem_singleton] at hm
    omega
  · rcases List.mem_append.1 hn with hn | hn
    · exact (ho.2 n hn).trans (Nat.lt_succ_self _)
    · rw [List.mem_singleton.1 hn]
      exact Nat.lt_succ_self _

theorem Owned.unlisted (ho : Owned h l) : Owned h.betterMalloc.2 l :=
  ho.made.subperm (List.sublist_append_left l _).subperm

theorem Owned.freed {n : ℕ} (ho : Owned h (n :: l)) : Owned (h.betterFree n) l := by
  have hlog : h.freed ++ [n] ++ l = h.freed ++ n :: l := by rw [List.append_assoc, List.singleton_append]
  unfold Owned Pool.betterFree
  rwa [hlog]

theorem foldl_betterFree (paras : List Para) (h : Pool) :
    paras.foldl (fun h x => h.betterFree x.node) h = ⟨h.made, h.freed ++ paras.map Para.node⟩ := by
  induction paras generalizing h with
  | nil => simp
  | cons x paras ih =>
    rw [List.foldl_cons, ih]
    simp [Pool.betterFree]

theorem freeParas_pool (c : Command) : (freeParas h c).2 = ⟨h.made, h.freed ++ c.nodes⟩ := foldl_betterFree c.paras h

/-- what happens to the nodes on the way from one list to another one: what is freed stays freed -/
structure Ledger (h : Pool) (l : List ℕ) (h' : Pool) (l' : List ℕ) : Prop where
  log : h.freed <+: h'.freed
  owned : Owned h l → Owned h' l'

theorem Ledger.refl : Ledger h l h l := ⟨List.prefix_rfl, id⟩

theorem Ledger.trans {h'' : Pool} {l'' : List ℕ} (h1 : Ledger h l h' l') (h2 : Ledger h' l' h'' l'') :
    Ledger h l h'' l'' := ⟨h1.log.trans h2.log, fun ho => h2.owned (h1.owned ho)⟩

theorem ledger_made : Ledger h l h.betterMalloc.2 l := ⟨List.prefix_rfl, Owned.unlisted⟩

theorem ledger_freed (l' : List ℕ) : Ledger h (l' ++ l) ⟨h.made, h.freed ++ l'⟩ l := by
  refine ⟨List.prefix_append _ _, fun ho => ?_⟩
  unfold Owned at *
  rwa [List.append_assoc]

theorem clearCommand_eq (command : List Command) (h : Pool) :
    clearCommand h command = (List.replicate command.length .unused, ⟨h.made, h.freed ++ nodesOf command⟩) := by
  induction command generalizing h with
  | nil => simp [clearCommand, nodesOf]
  | cons c rest ih =>
    have hrest := ih (freeParas h c).2
    rw [freeParas_pool] at hrest
    simp only [clearCommand, freeParas_pool, hrest, List.append_assoc]
    rfl

theorem nodesOf_unused {command : List Command} (h : ∀ c ∈ command, c = .unused) : nodesOf command = [] := by
  refine List.flatMap_eq_nil_iff.2 fun c hc => ?_
  rw [h c hc]
  rfl

theorem nodesOf_middle {before after : List Command} {c : Command} :
    nodesOf (before ++ c :: after) = nodesOf before ++ (c.nodes ++ nodesOf after) := by
  simp [nodesOf]

theorem freeFirst_commands (command : List Command) : (freeFirst h command).1 = command.modify 0 .dead := by
  cases command <;> rfl

theorem freeFirst_ledger (command : List Command) :
    Ledger h (nodesOf command) (freeFirst h command).2 (nodesOf (command.modify 0 .dead)) := by
  cases command with
  | nil => exact .refl
  | cons c rest =>
    show Ledger h (c.nodes ++ nodesOf rest) (freeParas h c).2 (nodesOf rest)
    rw [freeParas_pool]
    exact ledger_freed c.nodes

/-! ## The loops -/

theorem paraLoop_spec {fuel : ℕ} (paras : List Para) (n : ℤ) (h : Pool) (ht : Toks b token ts)
    (hfuel : ts.length < fuel) :
    ∃ token' b' ps h', paraLoop fuel h b token paras n = .ok (token', b', paras ++ ps, n + ps.length, h') ∧
      Toks b' token' (ts.dropWhile plain) ∧ Keeps b token b' token' ∧
      List.Forall₂ (fun x => Holds b' (limit b' token') x.para) ps (ts.takeWhile plain) ∧
      ∀ l, Ledger h l h' (l ++ ps.map Para.node) := by
  induction fuel generalizing b token ts paras n h with
  | zero => omega
  | succ fuel ih =>
    cases token with
    | none =>
      have hts : ts = [] := ht
      subst hts
      refine ⟨none, b, [], h, ?_, rfl, ⟨fun q v hq => hq, rfl⟩, .nil, fun l => ?_⟩
      · rw [paraLoop, List.append_nil]
        simp
      · rw [List.map_nil, List.append_nil]
        exact .refl
    | some p =>
      obtain ⟨w, ts, rfl⟩ := ht.ne_nil
      cases hw : separator w with
      | some op =>
        have hplain : ¬ plain w = true := by simp [plain, hw]
        rw [List.dropWhile_cons_of_neg hplain, List.takeWhile_cons_of_neg hplain]
        refine ⟨some p, b, [], h, ?_, ht, ⟨fun q v hq => hq, rfl⟩, .nil, fun l => ?_⟩
        · rw [paraLoop, ht.cstr, hw, List.append_nil]
          simp
        · rw [List.map_nil, List.append_nil]
          exact .refl
      | none =>
        have hplain : plain w = true := by simp [plain, hw]
        rw [List.dropWhile_cons_of_pos hplain, List.takeWhile_cons_of_pos hplain]
        obtain ⟨token1, b1, hskip, htoks, hword, hkeep⟩ := ht.skip
        obtain ⟨token', b', ps, h', hrun, htoks', hkeep', hps, hledger⟩ :=
          ih (paras ++ [⟨h.made, p⟩]) (n + 1) h.betterMalloc.2 htoks (by simpa using hfuel)
        refine ⟨token', b', ⟨h.made, p⟩ :: ps, h', ?_, htoks', hkeep.trans hkeep', .cons (hkeep'.1 p w hword) hps,
          fun l => ?_⟩
        · rw [paraLoop, ht.cstr, hw]
          simp only [hskip, ok_bind, Pool.betterMalloc] at hrun ⊢
          rw [hrun, List.append_assoc, List.singleton_append, List.length_cons]
          push_cast
          rw [add_assoc, add_comm (1 : ℤ)]
        · have hmade : Ledger h l h.betterMalloc.2 (l ++ [h.made]) := ⟨List.prefix_rfl, Owned.made⟩
          have hrest := hmade.trans (hledger (l ++ [h.made]))
          rwa [List.append_assoc, List.singleton_append] at hrest

/-- a command is the one of a piece, with its strings among the final bytes -/
structure Built (b : Text) (lim : ℕ) (c : Command) (x : Piece) : Prop where
  operation : ∃ q, c.operation = some q ∧ Holds b lim q x.operation
  paras : List.Forall₂ (fun x => Holds b lim x.para) c.paras x.paras
  para_num : c.para_num = x.paras.length
  op_type : c.op_type = x.sep.getD OP_EXEC

theorem Built.keeps {c : Command} {x : Piece} (h : Built b (limit b token) c x) (hkeep : Keeps b token b' token') :
    Built b' (limit b' token') c x where
  operation := by
    obtain ⟨q, hq, hold⟩ := h.operation
    exact ⟨q, hq, hkeep.1 _ _ hold⟩
  paras := h.paras.imp fun q v hold => hkeep.1 q.para v hold
  __ := h

theorem Built.shows {c : Command} {x : Piece} (h : Built b lim c x) : Shows b c x where
  operation := by
    obtain ⟨q, hq, hold⟩ := h.operation
    exact ⟨q, hq, hold.cstr⟩
  paras := List.forall₂_eq_eq_eq ▸ (List.forall₂_map_left_iff.2 (h.paras.imp fun q v hold => hold.cstr))
  __ := h

theorem modify_middle {f : Command → Command} {before after : List Command} {c : Command} :
    (before ++ c :: after).modify before.length f = before ++ f c :: after := by
  induction before with
  | nil => rfl
  | cons x before ih => exact congrArg (x :: ·) ih

theorem endCommand_last (before after : List Command) (c : Command) (ht : Toks b token []) :
    endCommand h b (before ++ c :: after) before.length token =
      .ok (.done (before ++ { c with op_type := OP_EXEC } :: after), b, h) := by
  cases token with
  | none =>
    show Except.ok _ = _
    rw [modify_middle]
  | some p => exact absurd ht.ne_nil (by simp)

theorem endCommand_sep {op : Operation} (before after : List Command) (c : Command) (ht : Toks b token (w :: ts))
    (hop : separator w = some op) :
    ∃ token' b', Toks b' token' ts ∧ Keeps b token b' token' ∧
      endCommand h b (before ++ c :: after) before.length token =
        match token' with
        | none => .ok (.done ((before ++ { c with op_type := op } :: after).modify 0 .dead), b',
            (freeFirst h (before ++ { c with op_type := op } :: after)).2)
        | some t => .ok (.next (before ++ { c with op_type := op } :: (if after = [] then [.unused] else after)) t, b',
            if after = [] then h.betterMalloc.2 else h) := by
  cases token with
  | none => cases ht
  | some p =>
    obtain ⟨token', b', hskip, htoks, -, hkeep⟩ := ht.skip
    refine ⟨token', b', htoks, hkeep, ?_⟩
    simp only [endCommand, ht.cstr, hop, hskip, modify_middle, ok_bind]
    cases token' with
    | none => simp only [← freeFirst_commands (h := h), pure, Except.pure]
    | some t =>
      cases after with
      | nil => simp [pure, Except.pure]
      | cons x after => simp [pure, Except.pure]

theorem buildTurn_spec {fuel : ℕ} (before after : List Command) (h : Pool) (ht : Toks b (some p) (w :: ts))
    (hfuel : ts.length < fuel) :
    ∃ token' b' c h', buildTurn fuel h b (before ++ .unused :: after) before.length p =
        endCommand h' b' (before ++ c :: after) before.length token' ∧
      Toks b' token' (ts.dropWhile plain) ∧ Keeps b (some p) b' token' ∧
      (∀ sep : Option Operation,
        Built b' (limit b' token') { c with op_type := sep.getD OP_EXEC } ⟨w, ts.takeWhile plain, sep⟩) ∧
      ∀ l, Ledger h l h' (l ++ c.nodes) := by
  obtain ⟨token1, b1, hskip, htoks, hword, hkeep⟩ := ht.skip
  -- a command without parameters
  have hbare : ts.takeWhile plain = [] → ∀ sep : Option Operation, Built b1 (limit b1 token1)
      { Command.unused with operation := some p, op_type := sep.getD OP_EXEC } ⟨w, ts.takeWhile plain, sep⟩ := by
    intro hnone sep
    rw [hnone]
    exact ⟨⟨p, rfl, hword⟩, .nil, rfl, rfl⟩
  have hnone : ∀ l, Ledger h l h (l ++ Command.nodes { Command.unused with operation := some p }) := by
    intro l
    show Ledger h l h (l ++ [])
    rw [List.append_nil]
    exact .refl
  cases token1 with
  | none =>
    have hts : ts = [] := htoks
    subst hts
    refine ⟨none, b1, { Command.unused with operation := some p }, h, ?_, rfl, hkeep, hbare rfl, hnone⟩
    simp only [buildTurn, modify_middle, hskip, ok_bind]
  | some t =>
    obtain ⟨v, ts, rfl⟩ := htoks.ne_nil
    cases hv : separator v with
    | some op =>
      have hplain : ¬ plain v = true := by simp [plain, hv]
      refine ⟨some t, b1, { Command.unused with operation := some p }, h, ?_, ?_, hkeep,
        hbare (List.takeWhile_cons_of_neg hplain), hnone⟩
      · simp only [buildTurn, modify_middle, hskip, ok_bind, htoks.cstr, hv]
      · rwa [List.dropWhile_cons_of_neg hplain]
    | none =>
      obtain ⟨token', b', ps, h', hrun, htoks', hkeep', hps, hledger⟩ :=
        paraLoop_spec [] 0 h.betterMalloc.2 htoks hfuel
      refine ⟨token', b', ⟨some p, ps, ps.length, OP_DEAD⟩, h'.betterFree h.made, ?_, htoks', hkeep.trans hkeep', ?_,
        fun l => ⟨?_, fun ho => ?_⟩⟩
      · simp only [buildTurn, modify_middle, hskip, ok_bind, htoks.cstr, hv, List.getElem?_append_right (Nat.le_refl _),
          Nat.sub_self, List.getElem?_cons_zero, Option.elim_some, Command.unused]
        rw [hrun, ok_bind, List.nil_append, zero_add]
        rfl
      · intro sep
        exact ⟨⟨p, rfl, hkeep'.1 _ _ hword⟩, hps, by rw [hps.length_eq], rfl⟩
      · exact (hledger l).log.trans (List.prefix_append _ _)
      · -- the node in front of the parameters is made first and freed last
        have hhead : Owned h.betterMalloc.2 (h.made :: l) := ho.made.perm (List.perm_append_singleton _ _).symm
        exact ((hledger (h.made :: l)).owned hhead).freed

/-- the list of commands that is returned: a separator at the end of the line is an error -/
def settle (pieces : List Piece) (command : List Command) : List Command :=
  if Trailing pieces then command.modify 0 .dead else command

theorem trailing_cons {x y : Piece} {pieces : List Piece} : Trailing (x :: y :: pieces) ↔ Trailing (y :: pieces) := by
  unfold Trailing
  rw [List.getLast?_cons_cons]

theorem separator_of_dropWhile {us : List Text} (h : ts.dropWhile plain = v :: us) : ∃ op, separator v = some op := by
  have := List.head?_dropWhile_not plain ts
  rw [h] at this
  simpa [plain, Option.isSome_iff_exists] using this

theorem unused_head {command : List Command} (h : ∀ c ∈ command, c = .unused) :
    ∃ after, (if command = [] then [.unused] else command) = Command.unused :: after ∧ ∀ c ∈ after, c = .unused := by
  cases command with
  | nil => exact ⟨[], rfl, fun c hc => absurd hc List.not_mem_nil⟩
  | cons x after =>
    rw [h x List.mem_cons_self]
    exact ⟨after, rfl, fun c hc => h c (List.mem_cons_of_mem x hc)⟩

theorem unused_length {command after : List Command}
    (h : (if command = [] then [.unused] else command) = Command.unused :: after) :
    command.length ≤ after.length + 1 := by
  rw [← List.length_cons, ← h]
  split_ifs with hnil
  · simp [hnil]
  · exact le_rfl

theorem buildLoop_spec {fuel : ℕ} (before : List Command) {after : List Command} (h : Pool)
    (ht : Toks b (some p) (w :: ts)) (hfuel : ts.length + 1 < fuel) (hafter : ∀ c ∈ after, c = .unused) :
    ∃ cs rest b' h', buildLoop fuel h b (before ++ .unused :: after) before.length p =
        .ok (settle (cut (w :: ts)) (before ++ cs ++ rest), b', h') ∧
      List.Forall₂ (Built b' b'.length) cs (cut (w :: ts)) ∧ (∀ c ∈ rest, c = .unused) ∧ Keeps b (some p) b' none ∧
      after.length < (cs ++ rest).length ∧
      Ledger h (nodesOf before) h' (nodesOf (settle (cut (w :: ts)) (before ++ cs ++ rest))) := by
  induction fuel generalizing b p w ts before after h with
  | zero => omega
  | succ fuel ih =>
    have hinner : ts.length < fuel := by omega
    obtain ⟨token1, b1, c, h1, hturn, htoks, hkeep, hbuilt, hledger⟩ := buildTurn_spec before after h ht hinner
    have hless : (ts.dropWhile plain).length ≤ ts.length := (List.dropWhile_suffix plain).length_le
    -- the command is behind the ones before it, whatever its operation is
    have hnodes : ∀ op, nodesOf (before ++ [{ c with op_type := op }] ++ after) = nodesOf before ++ c.nodes := by
      intro op
      rw [List.append_assoc, List.singleton_append, nodesOf_middle, nodesOf_unused hafter, List.append_nil]
      rfl
    rw [buildLoop, hturn, cut_cons]
    cases hus : ts.dropWhile plain with
    | nil =>
      rw [hus] at htoks
      obtain rfl : token1 = none := by
        cases token1 with
        | none => rfl
        | some t => exact absurd htoks.ne_nil (by simp)
      have hsettle : ∀ l, settle [⟨w, ts.takeWhile plain, none⟩] l = l := fun l => if_neg (by simp [Trailing])
      refine ⟨[{ c with op_type := OP_EXEC }], after, b1, h1, ?_, .cons (hbuilt none) .nil, hafter, hkeep, by simp, ?_⟩
      · rw [endCommand_last before after c htoks, hsettle]
        simp [pure, Except.pure]
      · rw [hsettle, hnodes]
        exact hledger _
    | cons v us =>
      rw [hus] at htoks hless
      obtain ⟨op, hop⟩ := separator_of_dropWhile hus
      obtain ⟨token2, b2, htoks2, hkeep2, hrun⟩ := endCommand_sep (h := h1) before after c htoks hop
      have hthis := (hbuilt (some op)).keeps hkeep2
      rw [hrun]
      simp only [hop]
      cases token2 with
      | none =>
        have hnil : us = [] := htoks2
        subst hnil
        have htrailing : Trailing (⟨w, ts.takeWhile plain, some op⟩ :: cut []) :=
          ⟨⟨w, ts.takeWhile plain, some op⟩, rfl, Option.some_ne_none op⟩
        refine ⟨[{ c with op_type := op }], after, b2, (freeFirst h1 (before ++ { c with op_type := op } :: after)).2,
          ?_, .cons hthis .nil, hafter, hkeep.trans hkeep2, by simp, ?_⟩
        · rw [settle, if_pos htrailing]
          simp [pure, Except.pure]
        · have hfirst := freeFirst_ledger (h := h1) (before ++ [{ c with op_type := op }] ++ after)
          rw [hnodes op, List.append_assoc, List.singleton_append] at hfirst
          rw [settle, if_pos htrailing, List.append_assoc, List.singleton_append]
          exact (hledger _).trans hfirst
      | some t =>
        obtain ⟨v', us, rfl⟩ := htoks2.ne_nil
        obtain ⟨after', hafter', hunused⟩ := unused_head hafter
        have hfuel' : us.length + 1 < fuel := by
          simp only [List.length_cons] at hless
          omega
        obtain ⟨cs, rest, b', h', hrest, hcs, hunused', hkeep', hlen, hledger'⟩ :=
          ih (before ++ [{ c with op_type := op }]) (if after = [] then h1.betterMalloc.2 else h1) htoks2 hfuel' hunused
        have hsettle : ∀ l, settle (⟨w, ts.takeWhile plain, some op⟩ :: cut (v' :: us)) l =
            settle (cut (v' :: us)) l := by grind [settle, plain, cut, cut_cons, trailing_cons]
        have hshape : before ++ { c with op_type := op } :: cs ++ rest =
            before ++ [{ c with op_type := op }] ++ cs ++ rest := by simp
        refine ⟨{ c with op_type := op } :: cs, rest, b', h', ?_, .cons (hthis.keeps hkeep') hcs, hunused',
          (hkeep.trans hkeep2).trans hkeep', ?_, ?_⟩
        · rw [hsettle, hshape, hafter']
          simpa [List.append_assoc] using hrest
        · exact (unused_length hafter').trans_lt (Nat.succ_lt_succ hlen)
        · rw [hsettle, hshape]
          refine (hledger _).trans (Ledger.trans ?_ hledger')
          have hbefore : nodesOf (before ++ [{ c with op_type := op }]) = nodesOf before ++ c.nodes := by
            simp [nodesOf, Command.nodes]
          rw [hbefore]
          split_ifs
          · exact ledger_made
          · exact .refl

theorem buildCommand_spec (pre line post : Text) (command : List Command) (h : Pool) (h0 : 0 ∉ line) :
    ∃ cs rest b' h', buildCommand h (pre ++ (line ++ 0 :: 0 :: post)) pre.length command =
        .ok (settle (cut (tokensOf line)) (cs ++ rest), b', h') ∧
      List.Forall₂ (Shows b') cs (cut (tokensOf line)) ∧ (∀ c ∈ rest, c = .unused) ∧
      command.length ≤ (cs ++ rest).length ∧
      Ledger ⟨h.made, h.freed ++ nodesOf command⟩ [] h' (nodesOf (settle (cut (tokensOf line)) (cs ++ rest))) := by
  have hrest : Rest (line ++ 0 :: 0 :: post) line := ⟨h0, _, rfl, fun _ => ⟨_, rfl⟩⟩
  obtain ⟨token, b, hrun, htoks, -, hlength, -⟩ := tokenFrom_spec rfl hrest
  have hcleared : ∀ c ∈ List.replicate command.length Command.unused, c = .unused := fun c => List.eq_of_mem_replicate
  have hcount : (List.replicate command.length Command.unused).length = command.length := List.length_replicate
  unfold buildCommand getToken
  rw [hrun, clearCommand_eq]
  simp only [ok_bind]
  generalize List.replicate command.length Command.unused = cleared at hcleared hcount ⊢
  generalize (⟨h.made, h.freed ++ nodesOf command⟩ : Pool) = h1
  cases token with
  | none =>
    have hnone : tokensOf line = [] := htoks
    rw [hnone]
    refine ⟨[], cleared, b, h1, rfl, .nil, hcleared, hcount.ge, ?_⟩
    show Ledger h1 [] h1 (nodesOf cleared)
    rw [nodesOf_unused hcleared]
    exact .refl
  | some p =>
    obtain ⟨w, ts, hts⟩ := htoks.ne_nil
    rw [hts] at htoks ⊢
    obtain ⟨after, hafter, hunused⟩ := unused_head hcleared
    have hfuel : ts.length + 1 < b.length + 1 := by
      have hle : (tokensOf line).length ≤ line.length := length_words_le isSpace line
      grind
    obtain ⟨cs, rest, b', h', hloop, hcs, hrest, -, hlen, hledger⟩ := buildLoop_spec []
      (if cleared = [] then h1.betterMalloc.2 else h1) htoks hfuel hunused
    refine ⟨cs, rest, b', h', ?_, hcs.imp fun c x hx => hx.shows, hrest, ?_, Ledger.trans ?_ hledger⟩
    · rw [List.nil_append, ← hafter] at hloop
      simp only [List.nil_append] at hloop
      split_ifs at hloop ⊢ <;> exact hloop
    · exact hcount.ge.trans ((unused_length hafter).trans hlen)
    · split_ifs
      · exact ledger_made
      · exact .refl

end RiscvPke.Shell
