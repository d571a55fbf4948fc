/-
Running the commands of a line (zshell/execute.c): `run_one_command`, `exec_supported_command_t` and `exec_command`.
-/
import RiscvPke.Shell.Parser

namespace RiscvPke.Shell

open Words Operation

/-! ## The model -/

def text (s : String) : Text := s.toList.map fun c => UInt8.ofNat c.toNat

structure Env where
  get_ncpu : ℤ
  /-- what `fork` or `fork_to` gives in the shell after `n` events: the pid of the child, or it fails -/
  fork : ℕ → Option ℕ
  find_alias : Text → Option Text

/-- what a command asks for -/
inductive Action where
  | launch (path para : Text)
  | app (name : Text) (args : List Text)
  /-- only a message is printed -/
  | message
  | unknown
deriving DecidableEq

/-- `cur_command->operation`, and the string there -/
def Command.name (b : Text) (c : Command) : Except Fault Text :=
  match c.operation with
  | some q => .ok (cstr b q)
  | none => .error .nullPointer

def Command.para (b : Text) (c : Command) (i : ℕ) : Except Fault Text :=
  match c.paras[i]? with
  | some x => .ok (cstr b x.para)
  | none => .error .nullPointer

/-- `cur_command->paras == NULL ? "" : cur_command->paras->para` -/
def Command.firstPara (b : Text) (c : Command) : Text := (c.paras.head?).elim [] fun x => cstr b x.para

def execSupportedCommandT (b : Text) (c : Command) (name : Text) : Except Fault (Option Action) := do
  let all := c.strings b
  if name = text "ls" then
    if c.para_num = 0 then return some (.app name [])
    else if c.para_num = 1 then return some (.app name [← c.para b 0])
    else return some (.app name all)
  else if name = text "cd" then
    if c.para_num = 0 then return some (.app name [text "/"])
    else if c.para_num = 1 then return some (.app name [← c.para b 0])
    else return some .message
  else if name = text "cat" then
    if c.para_num = 0 then return some .message
    else if c.para_num = 1 then return some (.app name [← c.para b 0])
    else return some (.app name all)
  else if name = text "echo" then
    if c.para_num ≠ 2 then return some .message
    else return some (.app name [← c.para b 0, ← c.para b 1])
  else if name = text "pwd" then
    if c.para_num = 0 then return some (.app name []) else return some .message
  else if name = text "mkdir" ∨ name = text "touch" then
    if c.para_num = 0 then return some .message else return some (.app name all)
  else return none

/-- the cases of `run_one_command`, which are those of `run_one_command_multicore` too -/
def actionOf (env : Env) (b : Text) (c : Command) : Except Fault Action := do
  let name ← c.name b
  if name = text "exec" then
    if c.para_num = 2 then return .launch (← c.para b 0) (← c.para b 1)
    else if c.para_num = 1 then return .launch (← c.para b 0) []
    else return .unknown
  else if (text "./").isPrefixOf name ∨ (text "/").isPrefixOf name then
    return .launch name (c.firstPara b)
  else
    match ← execSupportedCommandT b c name with
    | some action => return action
    | none =>
      match env.find_alias name with
      | some path => return .launch path (c.firstPara b)
      | none => return .unknown

/-- what `exec_command` has done -/
inductive Event where
  | pipline_write
  | pipline_read
  | pipline_reset
  /-- a command is run: on the hart of the shell (`fork`), or on another one (`fork_to`) -/
  | run (c : Command) (action : Action) (target_hartid : Option ℤ)
  /-- `wait(pid)`; `none` for `wait(-1)` -/
  | wait (pid : Option ℕ)
deriving DecidableEq

/-- the parent's part of `launch_process` and `launch_process_to_hart`. With `wait_child == -2` they only move their own
copy of the pointer `wait_count`. -/
def launchProcess (env : Env) (ran : List Event) (wait_child : ℤ) : ℤ × List Event :=
  match env.fork ran.length with
  | none => (-1, ran)
  | some pid => (0, if wait_child = 1 then ran ++ [.wait (some pid)] else ran)

/-- `run_one_command` or `run_one_command_multicore`, by the hart: the result and what has been done -/
def runOn (env : Env) (b : Text) (ran : List Event) (c : Command) (target_hartid : Option ℤ) (wait_child : ℤ) :
    Except Fault (ℤ × List Event) := do
  let action ← actionOf env b c
  let ran := ran ++ [.run c action target_hartid]
  match action with
  | .launch _ _ => return launchProcess env ran wait_child
  | .app _ _ => return (0, ran)
  | .message => return (0, ran)
  | .unknown => return (-1, ran)

def runOneCommand (env : Env) (b : Text) (ran : List Event) (c : Command) (wait_child : ℤ) :
    Except Fault (ℤ × List Event) := runOn env b ran c none wait_child

def runOneCommandMulticore (env : Env) (b : Text) (ran : List Event) (c : Command) (target_hartid wait_child : ℤ) :
    Except Fault (ℤ × List Event) := runOn env b ran c (some target_hartid) wait_child

def Env.hart (env : Env) (mc_cmd_idx : ℕ) : ℤ := mc_cmd_idx % (if env.get_ncpu ≤ 0 then 1 else env.get_ncpu)

/-- behind the loop of `exec_command`: one `wait(-1)` more than commands were counted -/
def waitAll (wait_count : ℕ) (ran : List Event) : ℤ × List Event :=
  (0, ran ++ List.replicate (wait_count + 1) (.wait none))

/-- a stage of a pipeline that is not the last one -/
def Env.stage (env : Env) (b : Text) (ran : List Event) (c : Command)
    (next : List Event → Except Fault (ℤ × List Event)) : Except Fault (ℤ × List Event) := do
  let (ret, ran) ← runOneCommand env b (ran ++ [.pipline_write]) c 1
  if ret ≠ 0 then return (0, ran ++ [.pipline_reset])
  next (ran ++ [.pipline_read])

/-- `exec_command` from a command on; `piped` in the loop over the stages of a pipeline -/
def execFrom (env : Env) (b : Text) : (piped : Bool) → (wait_count mc_cmd_idx : ℕ) → (ran : List Event) →
    List Command → Except Fault (ℤ × List Event)
  | false, wc, _, ran, [] => .ok (waitAll wc ran)
  | true, _, _, _, [] => .error .nullPointer
  | true, wc, mc, ran, c :: rest =>
    if c.op_type = OP_PIPLINE then env.stage b ran c fun ran => execFrom env b true wc mc ran rest
    else do
      let (ret, ran) ← runOneCommand env b ran c 1
      let ran := ran ++ [.pipline_reset]
      if ret ≠ 0 then return (0, ran)
      execFrom env b false wc mc ran rest
  | false, wc, mc, ran, c :: rest =>
    if c.op_type = OP_DEAD then .ok (waitAll wc ran)
    else do
      let name ← c.name b
      if name = text "exit" then return (1, ran)
      match c.op_type with
      | OP_DEAD => return waitAll wc ran
      | OP_EXEC =>
        if 0 < mc then
          let (ret, ran) ← runOneCommandMulticore env b ran c (env.hart mc) (-2)
          if ret = -1 then return (0, ran)
          return waitAll (wc + 1) ran
        else
          let (_, ran) ← runOneCommand env b ran c 1
          return waitAll wc ran
      | OP_MULTISTART =>
        let (ret, ran) ← runOneCommand env b ran c (-2)
        if ret = -1 then return (0, ran)
        execFrom env b false (wc + 1) mc ran rest
      | OP_MULTICORE =>
        let (ret, ran) ← runOneCommandMulticore env b ran c (env.hart mc) (-2)
        if ret = -1 then return (0, ran)
        execFrom env b false (wc + 1) (mc + 1) ran rest
      | OP_PIPLINE => env.stage b ran c fun ran => execFrom env b true wc mc ran rest

def execCommand (env : Env) (b : Text) (command : List Command) : Except Fault (ℤ × List Event) :=
  execFrom env b false 0 0 [] command

variable {env : Env} {b : Text} {c : Command} {x last : Piece} {init : List Piece} {cs rest : List Command}
  {ran : List Event} {wc mc : ℕ}
  {ts : List Text}

/-! ## The commands that are read -/

theorem Shows.name (h : Shows b c x) : c.name b = .ok x.operation := by
  obtain ⟨q, hq, hstring⟩ := h.operation
  rw [Command.name, hq, ← hstring]

theorem Shows.para {i : ℕ} (h : Shows b c x) (hi : (i : ℤ) < c.para_num) : ∃ v, c.para b i = .ok v := by
  have hlength : c.paras.length = x.paras.length := by rw [← h.paras, Command.strings, List.length_map]
  have hlt : i < c.paras.length := by
    have := h.para_num
    omega
  exact ⟨cstr b c.paras[i].para, by rw [Command.para, List.getElem?_eq_getElem hlt]⟩

/-- a computation that stops nowhere -/
def Goes {α : Type} (y : Except Fault α) : Prop := ∃ a, y = .ok a

variable {α : Type}

theorem goes_ok {a : α} : Goes (.ok a : Except Fault α) := ⟨a, rfl⟩

theorem goes_pure {a : α} : Goes (pure a : Except Fault α) := ⟨a, rfl⟩

theorem Goes.bind {β : Type} {y : Except Fault α} {f : α → Except Fault β} (hy : Goes y) (hf : ∀ a, Goes (f a)) :
    Goes (y >>= f) := by
  obtain ⟨a, rfl⟩ := hy
  exact hf a

theorem goes_ite {P : Prop} [Decidable P] {y z : Except Fault α} (hy : P → Goes y) (hz : ¬ P → Goes z) :
    Goes (if P then y else z) := by
  split_ifs with h
  · exact hy h
  · exact hz h

theorem Shows.onePara (h : Shows b c x) (hn : c.para_num = 1) : Goes (c.para b 0) := h.para (by omega)

theorem execSupportedCommandT_goes (h : Shows b c x) (name : Text) : Goes (execSupportedCommandT b c name) := by
  have hone : ∀ f : Text → Option Action, c.para_num = 1 → Goes (do return f (← c.para b 0)) :=
    fun f hn => (h.onePara hn).bind fun _ => goes_pure
  have hall : ∀ y z : Option Action, Goes (if c.para_num = 0 then pure y else pure z : Except Fault (Option Action)) :=
    fun y z => goes_ite (fun _ => goes_pure) fun _ => goes_pure
  refine goes_ite (fun _ => ?_) fun _ => goes_ite (fun _ => ?_) fun _ => goes_ite (fun _ => ?_) fun _ =>
    goes_ite (fun _ => ?_) fun _ =>
    goes_ite (fun _ => hall _ _) fun _ => goes_ite (fun _ => hall _ _) fun _ => goes_pure
  · exact goes_ite (fun _ => goes_pure) fun _ => goes_ite (hone _) fun _ => goes_pure
  · exact goes_ite (fun _ => goes_pure) fun _ => goes_ite (hone _) fun _ => goes_pure
  · exact goes_ite (fun _ => goes_pure) fun _ => goes_ite (hone _) fun _ => goes_pure
  · refine goes_ite (fun _ => goes_pure) fun hn => ?_
    exact Goes.bind (h.para (by omega)) fun _ => Goes.bind (h.para (by omega)) fun _ => goes_pure

theorem actionOf_goes (h : Shows b c x) : Goes (actionOf env b c) := by
  unfold actionOf
  rw [h.name, ok_bind]
  refine goes_ite (fun _ => ?_) fun _ => goes_ite (fun _ => goes_pure) fun _ => ?_
  · refine goes_ite (fun hn => ?_) fun _ =>
      goes_ite (fun hn => (h.onePara hn).bind fun _ => goes_pure) fun _ => goes_pure
    exact Goes.bind (h.para (by omega)) fun _ => Goes.bind (h.para (by omega)) fun _ => goes_pure
  · refine (execSupportedCommandT_goes h _).bind fun r => ?_
    cases r with
    | some action => exact goes_pure
    | none => grind [goes_pure]

theorem runOn_goes {hart : Option ℤ} {wait_child : ℤ} (h : Shows b c x) : Goes (runOn env b ran c hart wait_child) := by
  refine (actionOf_goes h).bind fun action => ?_
  cases action <;> exact goes_pure

/-! ## Whole lines -/

/-- a piece that is followed by another one -/
def Piece.Linked (x : Piece) : Prop := x.sep = some OP_PIPLINE ∨ x.sep = some OP_MULTISTART ∨ x.sep = some OP_MULTICORE

theorem separator_linked {w : Text} {op : Operation} (h : separator w = some op) :
    op = OP_PIPLINE ∨ op = OP_MULTISTART ∨ op = OP_MULTICORE := by
  unfold separator at h
  split_ifs at h <;> cases h <;> simp

theorem cut_linked (hts : ts ≠ []) :
    ∃ init last, cut ts = init ++ [last] ∧ (∀ x ∈ init, x.Linked) ∧ (last.sep = none ∨ last.Linked) := by
  induction hn : ts.length using Nat.strong_induction_on generalizing ts with
  | _ n ih =>
    obtain ⟨w, ts, rfl⟩ := List.exists_cons_of_ne_nil hts
    rw [cut_cons]
    cases hus : ts.dropWhile plain with
    | nil => exact ⟨[], _, rfl, fun x hx => absurd hx List.not_mem_nil, .inl rfl⟩
    | cons v us =>
      obtain ⟨op, hop⟩ := separator_of_dropWhile hus
      have hlinked : Piece.Linked ⟨w, ts.takeWhile plain, separator v⟩ := by
        simp only [Piece.Linked, hop, Option.some.injEq]
        exact separator_linked hop
      by_cases hempty : us = []
      · subst hempty
        exact ⟨[], _, rfl, fun x hx => absurd hx List.not_mem_nil, .inr hlinked⟩
      · have hless : us.length < (w :: ts).length := by
          have := (List.dropWhile_suffix plain (l := ts)).length_le
          grind
        grind

theorem stage_goes {next : List Event → Except Fault (ℤ × List Event)} (h : Shows b c x)
    (hnext : ∀ ran, Goes (next ran)) : Goes (env.stage b ran c next) :=
  (runOn_goes h).bind fun ⟨_, _⟩ => goes_ite (fun _ => goes_pure) fun _ => hnext _

theorem execFrom_end (hrest : ∀ c ∈ rest, c = .unused) :
    execFrom env b false wc mc ran rest = .ok (waitAll wc ran) := by
  cases rest with
  | nil => rfl
  | cons c rest =>
    rw [hrest c List.mem_cons_self]
    rfl

theorem execFrom_goes (piped : Bool) (hcs : List.Forall₂ (Shows b) cs (init ++ [last])) (hinit : ∀ x ∈ init, x.Linked)
    (hlast : last.sep = none) (hrest : ∀ c ∈ rest, c = .unused) :
    Goes (execFrom env b piped wc mc ran (cs ++ rest)) := by
  induction init generalizing cs piped wc mc ran with
  | nil =>
    obtain ⟨c, cs, hc, hnil, rfl⟩ := List.forall₂_cons_right_iff.1 hcs
    obtain rfl := List.forall₂_nil_right_iff.1 hnil
    have hexec : c.op_type = OP_EXEC := by rw [hc.op_type, hlast]; rfl
    cases piped with
    | true =>
      rw [List.singleton_append, execFrom, hexec, if_neg (by decide)]
      exact (runOn_goes hc).bind fun ⟨_, _⟩ => goes_ite (fun _ => goes_pure) fun _ => ⟨_, execFrom_end hrest⟩
    | false =>
      rw [List.singleton_append, execFrom, hexec, if_neg (by decide), hc.name, ok_bind]
      refine goes_ite (fun _ => goes_pure) fun _ => goes_ite (fun _ => ?_) fun _ => ?_
      · exact (runOn_goes hc).bind fun ⟨_, _⟩ => goes_ite (fun _ => goes_pure) fun _ => goes_pure
      · exact (runOn_goes hc).bind fun _ => goes_pure
  | cons y init ih =>
    obtain ⟨c, cs, hc, hcs', rfl⟩ := List.forall₂_cons_right_iff.1 hcs
    have hinit' : ∀ x ∈ init, x.Linked := fun x hx => hinit x (List.mem_cons_of_mem y hx)
    have hop : c.op_type = y.sep.getD OP_EXEC := hc.op_type
    rw [List.cons_append]
    cases piped with
    | true =>
      refine goes_ite (fun _ => stage_goes hc fun ran => ih true hcs' hinit') fun _ => ?_
      exact (runOn_goes hc).bind fun ⟨_, _⟩ => goes_ite (fun _ => goes_pure) fun _ => ih false hcs' hinit'
    | false =>
      rw [execFrom, hc.name, ok_bind]
      refine goes_ite (fun _ => goes_ok) fun _ => goes_ite (fun _ => goes_pure) fun _ => ?_
      rcases hinit y List.mem_cons_self with hy | hy | hy
      · rw [hop, hy]
        exact stage_goes hc fun ran => ih true hcs' hinit'
      · rw [hop, hy]
        exact (runOn_goes hc).bind fun ⟨_, _⟩ => goes_ite (fun _ => goes_pure) fun _ => ih false hcs' hinit'
      · rw [hop, hy]
        exact (runOn_goes hc).bind fun ⟨_, _⟩ => goes_ite (fun _ => goes_pure) fun _ => ih false hcs' hinit'

/-! ## The command language -/

def sepText : Operation → Text
  | OP_MULTICORE => text "&&"
  | OP_MULTISTART => text "&"
  | OP_PIPLINE => text "|"
  | _ => []

def Piece.tokens (x : Piece) : List Text := x.operation :: x.paras ++ x.sep.elim [] fun op => [sepText op]

theorem separator_text {w : Text} {op : Operation} (h : separator w = some op) : sepText op = w := by
  unfold separator at h
  split_ifs at h with h1 h2 h3
  · cases h
    exact h1.symm
  · cases h
    exact h2.symm
  · cases h
    exact h3.symm

theorem cut_pieces (ts : List Text) : (cut ts).flatMap Piece.tokens = ts ∧ ∀ x ∈ cut ts, ∀ v ∈ x.paras,
    separator v = none := by
  induction hn : ts.length using Nat.strong_induction_on generalizing ts with
  | _ n ih =>
    cases ts with
    | nil => exact ⟨rfl, fun x hx => absurd hx List.not_mem_nil⟩
    | cons w ts =>
      have hparas : ∀ v ∈ ts.takeWhile plain, separator v = none := by
        intro v hv
        have := List.all_eq_true.1 List.all_takeWhile v hv
        simpa [plain] using this
      have hsplit : ts.takeWhile plain ++ ts.dropWhile plain = ts := List.takeWhile_append_dropWhile
      rw [cut_cons]
      cases hus : ts.dropWhile plain with
      | nil =>
        grind [Piece.tokens]
      | cons v us =>
        obtain ⟨op, hop⟩ := separator_of_dropWhile hus
        have hless : us.length < (w :: ts).length := by grind
        grind [Piece.tokens, separator_text]

theorem getElem?_of_forall₂ {β : Type} {R : α → β → Prop} {l : List α} {l' : List β} {i : ℕ} {y : β}
    (h : List.Forall₂ R l l') (hy : l'[i]? = some y) : ∃ a, l[i]? = some a ∧ R a y := by
  induction h generalizing i with
  | nil => simp at hy
  | cons hab _ ih => grind

theorem settle_getElem? {pieces : List Piece} {l : List Command} {i : ℕ} (h : ¬ Trailing pieces ∨ 0 < i) :
    (settle pieces l)[i]? = l[i]? := by
  grind [settle]

theorem trailing_ne_nil {pieces : List Piece} (h : Trailing pieces) : pieces ≠ [] := by
  rintro rfl
  obtain ⟨x, hx, -⟩ := h
  cases hx

theorem execCommand_ok (hcs : List.Forall₂ (Shows b) cs (cut ts)) (hrest : ∀ c ∈ rest, c = .unused) :
    Goes (execCommand env b (settle (cut ts) (cs ++ rest))) := by
  by_cases ht : Trailing (cut ts)
  · obtain ⟨x, pieces, hx⟩ := List.exists_cons_of_ne_nil (trailing_ne_nil ht)
    rw [settle, if_pos ht]
    rw [hx] at hcs
    obtain ⟨c, cs, -, -, rfl⟩ := List.forall₂_cons_right_iff.1 hcs
    exact goes_ok
  · rw [settle, if_neg ht]
    by_cases hts : ts = []
    · subst hts
      obtain rfl := List.forall₂_nil_right_iff.1 hcs
      exact ⟨_, execFrom_end hrest⟩
    · obtain ⟨init, last, hcut, hinit, hlast⟩ := cut_linked hts
      rw [hcut] at hcs ht
      refine execFrom_goes false hcs hinit ?_ hrest
      by_contra hsep
      exact ht ⟨last, List.getLast?_concat, hsep⟩

/-- **Command lines.** The commands are the pieces of the line: the first token of a piece and its parameters, and the
operation by the separator after it. If the line ends with a separator the first command is dead. A command that is not
the last one is followed by a command with an operation, and `exec_command` reads no command that is not there. -/
theorem build_command_parses (pre line post : Text) (command : List Command) (h : Pool) (env : Env) (h0 : 0 ∉ line) :
    let pieces := cut (tokensOf line)
    (pieces.flatMap Piece.tokens = tokensOf line ∧ ∀ x ∈ pieces, ∀ v ∈ x.paras, separator v = none) ∧
    ∃ cmds b h', buildCommand h (pre ++ (line ++ 0 :: 0 :: post)) pre.length command = .ok (cmds, b, h') ∧
      (tokensOf line = [] → ∀ c ∈ cmds, c.op_type = OP_DEAD) ∧
      (∀ (i : ℕ) x, pieces[i]? = some x → ¬ Trailing pieces ∨ 0 < i → ∃ c, cmds[i]? = some c ∧ Shows b c x) ∧
      (Trailing pieces → ∃ c, cmds.head? = some c ∧ c.op_type = OP_DEAD) ∧
      (∀ (i : ℕ) c, cmds[i]? = some c → c.op_type ≠ OP_DEAD → i < pieces.length ∧
        (i + 1 ≠ pieces.length → ∃ c', cmds[i + 1]? = some c' ∧ c'.operation ≠ none)) ∧
      Goes (execCommand env b cmds) := by
  intro pieces
  refine ⟨cut_pieces _, ?_⟩
  obtain ⟨cs, rest, b, h', hrun, hcs, hrest, -⟩ := buildCommand_spec pre line post command h h0
  have hlength : cs.length = pieces.length := hcs.length_eq
  -- the command of a piece
  have hpiece : ∀ (i : ℕ) x, pieces[i]? = some x → ∃ c, (cs ++ rest)[i]? = some c ∧ Shows b c x := by
    intro i x hx
    obtain ⟨c, hc, hshows⟩ := getElem?_of_forall₂ hcs hx
    exact ⟨c, by rw [List.getElem?_append_left (List.getElem?_eq_some_iff.1 hc).1, hc], hshows⟩
  refine ⟨settle pieces (cs ++ rest), b, h', hrun, ?_, ?_, ?_, ?_, execCommand_ok hcs hrest⟩
  · intro hts c hc
    have hnil : pieces = [] := by simp only [pieces, hts]; rfl
    rw [hnil] at hlength hc
    obtain rfl := List.length_eq_zero_iff.1 hlength
    rw [settle, if_neg fun ht => trailing_ne_nil ht rfl] at hc
    rw [hrest c hc]
    rfl
  · intro i x hx hi
    rw [settle_getElem? hi]
    exact hpiece i x hx
  · intro ht
    obtain ⟨x, xs, hx⟩ := List.exists_cons_of_ne_nil (trailing_ne_nil ht)
    obtain ⟨c, cs', rfl⟩ : ∃ c cs', cs = c :: cs' := by
      cases cs with
      | nil => rw [hx] at hlength; cases hlength
      | cons c cs' => exact ⟨c, cs', rfl⟩
    rw [settle, if_pos ht]
    exact ⟨c.dead, rfl, rfl⟩
  · intro i c hc hlive
    have hi : i < pieces.length := by
      by_contra hge
      have hpos : ¬ Trailing pieces ∨ 0 < i := by
        by_cases ht : Trailing pieces
        · have := List.length_pos_iff.2 (trailing_ne_nil ht)
          exact .inr (by omega)
        · exact .inl ht
      rw [settle_getElem? hpos, List.getElem?_append_right (by omega)] at hc
      rw [hrest c (List.mem_of_getElem? hc)] at hlive
      exact hlive rfl
    refine ⟨hi, fun hne => ?_⟩
    obtain ⟨c', hc', hshows⟩ := hpiece (i + 1) _ (List.getElem?_eq_getElem (by omega))
    obtain ⟨q, hq, -⟩ := hshows.operation
    exact ⟨c', by rw [settle_getElem? (.inr (by omega)), hc'], by rw [hq]; exact Option.some_ne_none q⟩

/-- two commands with a pipe between them, the first one with parameters -/
theorem build_command_parses_pipe : ∃ cmds b h,
    buildCommand ⟨0, []⟩ (text "ls -l a | wc" ++ [0, 0]) 0 [.unused] = .ok (cmds, b, h) ∧
    ∃ c, cmds[0]? = some c ∧ c.para_num = 2 ∧ c.op_type = OP_PIPLINE := by
  obtain ⟨-, cmds, b, h, hrun, -, hpiece, -⟩ := build_command_parses [] (text "ls -l a | wc") [] [.unused] ⟨0, []⟩
    ⟨1, fun _ => some 4, fun _ => none⟩ (by decide +kernel)
  have hget : (cut (tokensOf (text "ls -l a | wc")))[0]? =
      some ⟨text "ls", [text "-l", text "a"], some OP_PIPLINE⟩ := by decide +kernel
  obtain ⟨c, hc, hshows⟩ := hpiece 0 _ hget (.inl (by decide +kernel))
  exact ⟨cmds, b, h, hrun, c, hc, hshows.para_num, hshows.op_type⟩

/-! ## Pipelines -/

/-- a command that runs, and what it asks for -/
def Runs (env : Env) (b : Text) (y : Command × Action) : Prop := actionOf env b y.1 = .ok y.2 ∧ y.2 ≠ .unknown

/-- a stage is run: a program is waited for -/
def ranStage (pid : ℕ → ℕ) (ran : List Event) (y : Command × Action) : List Event :=
  let ran := ran ++ [.run y.1 y.2 none]
  match y.2 with
  | .launch _ _ => ran ++ [.wait (some (pid ran.length))]
  | _ => ran

/-- the calls of the stages of a pipeline -/
def pipelineEvents (pid : ℕ → ℕ) (ran : List Event) : List (Command × Action) → List Event
  | [] => ran
  | [y] => ranStage pid ran y ++ [.pipline_reset]
  | y :: stages => pipelineEvents pid (ranStage pid (ran ++ [.pipline_write]) y ++ [.pipline_read]) stages

variable {y z : Command × Action} {front : List (Command × Action)} {pid : ℕ → ℕ}

theorem runOneCommand_runs (h : Runs env b y) (hfork : ∀ n, env.fork n = some (pid n)) :
    runOneCommand env b ran y.1 1 = .ok (0, ranStage pid ran y) := by
  obtain ⟨haction, hknown⟩ := h
  unfold runOneCommand runOn ranStage
  rw [haction, ok_bind]
  cases hy : y.2 with
  | launch path para =>
    simp only [launchProcess, hfork]
    rfl
  | app name args => rfl
  | message => rfl
  | unknown => exact absurd hy hknown

theorem pipelineEvents_cons : pipelineEvents pid ran (y :: (front ++ [z])) =
    pipelineEvents pid (ranStage pid (ran ++ [.pipline_write]) y ++ [.pipline_read]) (front ++ [z]) := by
  cases front <;> rfl

theorem stage_runs {next : List Event → Except Fault (ℤ × List Event)} (h : Runs env b y)
    (hfork : ∀ n, env.fork n = some (pid n)) :
    env.stage b ran y.1 next = next (ranStage pid (ran ++ [.pipline_write]) y ++ [.pipline_read]) := by
  unfold Env.stage
  rw [runOneCommand_runs h hfork, ok_bind]
  rfl

theorem execFrom_stages (hfork : ∀ n, env.fork n = some (pid n))
    (hfront : ∀ y ∈ front, Runs env b y ∧ y.1.op_type = OP_PIPLINE) (hz : Runs env b z)
    (hexec : z.1.op_type = OP_EXEC) (hrest : ∀ c ∈ rest, c = .unused) :
    execFrom env b true wc mc ran ((front ++ [z]).map Prod.fst ++ rest) =
      .ok (waitAll wc (pipelineEvents pid ran (front ++ [z]))) := by
  induction front generalizing ran with
  | nil =>
    show execFrom env b true wc mc ran (z.1 :: rest) = _
    rw [execFrom, hexec, if_neg (by decide), runOneCommand_runs hz hfork, ok_bind]
    exact execFrom_end hrest
  | cons y front ih =>
    obtain ⟨⟨hy, hpipe⟩, hfront⟩ := List.forall_mem_cons.1 hfront
    show execFrom env b true wc mc ran (y.1 :: ((front ++ [z]).map Prod.fst ++ rest)) = _
    rw [execFrom, hpipe, if_pos rfl, stage_runs hy hfork, ih hfront, List.cons_append, pipelineEvents_cons]

/-- **The calls of a pipeline.** Let every stage of a line with two stages or more run, and let the first one not be
`exit`. Then `exec_command` calls `pipline_write`, runs the stage and calls `pipline_read` for each stage but the last,
runs the last one and calls `pipline_reset`; the child of each stage that is a program is waited for as soon as it is
started. Behind the stages it calls `wait(-1)` once and returns 0: it does nothing else, and the unused commands behind
the line are not run. -/
theorem exec_pipeline {name : Text} (hfork : ∀ n, env.fork n = some (pid n))
    (hfront : ∀ x ∈ y :: front, Runs env b x ∧ x.1.op_type = OP_PIPLINE) (hz : Runs env b z)
    (hexec : z.1.op_type = OP_EXEC) (hname : y.1.name b = .ok name) (hexit : name ≠ text "exit")
    (hrest : ∀ c ∈ rest, c = .unused) :
    execCommand env b ((y :: front ++ [z]).map Prod.fst ++ rest) =
      .ok (0, pipelineEvents pid [] (y :: front ++ [z]) ++ [.wait none]) := by
  obtain ⟨⟨hy, hpipe⟩, hfront⟩ := List.forall_mem_cons.1 hfront
  show execFrom env b false 0 0 [] (y.1 :: ((front ++ [z]).map Prod.fst ++ rest)) = _
  rw [execFrom, hpipe, if_neg (by decide), hname, ok_bind, if_neg hexit, stage_runs hy hfork,
    execFrom_stages hfork hfront hz hexec hrest, List.cons_append, pipelineEvents_cons]
  rfl

/-- `pwd | ./a`: the program is the child 4, and it is waited for before the pipe is reset -/
theorem exec_pipeline_program : execCommand ⟨1, fun _ => some 4, fun _ => none⟩ (text "pwd" ++ [0] ++ text "./a" ++ [0])
    [⟨some 0, [], 0, OP_PIPLINE⟩, ⟨some 4, [], 0, OP_EXEC⟩] = .ok (0, [.pipline_write,
      .run ⟨some 0, [], 0, OP_PIPLINE⟩ (.app (text "pwd") []) none, .pipline_read,
      .run ⟨some 4, [], 0, OP_EXEC⟩ (.launch (text "./a") []) none, .wait (some 4), .pipline_reset, .wait none]) := by
  refine @exec_pipeline ⟨1, fun _ => some 4, fun _ => none⟩ _ []
    (⟨some 0, [], 0, OP_PIPLINE⟩, .app (text "pwd") []) (⟨some 4, [], 0, OP_EXEC⟩, .launch (text "./a") []) []
    (fun _ => 4) (text "pwd") (fun _ => rfl) (List.forall_mem_singleton.2 ⟨⟨?_, ?_⟩, rfl⟩) ⟨?_, ?_⟩ rfl ?_ ?_
    (List.forall_mem_nil _)
  all_goals decide +kernel

end RiscvPke.Shell
