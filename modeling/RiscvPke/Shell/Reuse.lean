/-
The list of commands is used again for each line (zshell/parser.c, zshell/zshell.c): `clear_command` in front of
`build_command`.
-/
import RiscvPke.Shell.Execute

namespace RiscvPke.Shell

open Operation

/-! ## The model -/

def Command.view (b : Text) (c : Command) : Option Text × List Text × ℤ × Operation :=
  (c.operation.map (cstr b), c.strings b, c.para_num, c.op_type)

/-- the commands in front of the first dead one -/
def live (b : Text) (command : List Command) : List (Option Text × List Text × ℤ × Operation) :=
  (command.takeWhile (·.op_type ≠ OP_DEAD)).map (·.view b)

/-! ## Live commands -/

def Piece.view (x : Piece) : Option Text × List Text × ℤ × Operation :=
  (some x.operation, x.paras, x.paras.length, x.sep.getD OP_EXEC)

variable {b : Text} {c : Command} {x : Piece} {pieces : List Piece} {cs rest : List Command} {ts : List Text}

theorem Shows.view (h : Shows b c x) : c.view b = x.view := by
  obtain ⟨q, hq, hstring⟩ := h.operation
  rw [Command.view, Piece.view, hq, h.paras, h.para_num, h.op_type, Option.map_some, hstring]

theorem cut_alive (hx : x ∈ cut ts) : x.sep.getD OP_EXEC ≠ OP_DEAD := by
  have hts : ts ≠ [] := by
    rintro rfl
    cases hx
  obtain ⟨init, last, hcut, hinit, hlast⟩ := cut_linked hts
  have hsep : x.sep = none ∨ x.Linked := by
    rw [hcut, List.mem_append, List.mem_singleton] at hx
    rcases hx with hx | rfl
    · exact .inr (hinit x hx)
    · exact hlast
  rcases hsep with hx | hx | hx | hx <;> simp [hx]

theorem live_built (hcs : List.Forall₂ (Shows b) cs pieces) (halive : ∀ x ∈ pieces, x.sep.getD OP_EXEC ≠ OP_DEAD)
    (hrest : ∀ c ∈ rest, c = .unused) : live b (cs ++ rest) = pieces.map Piece.view := by
  unfold live
  induction hcs with
  | nil =>
    cases rest with
    | nil => rfl
    | cons c rest =>
      rw [hrest c List.mem_cons_self]
      rfl
  | @cons c x cs pieces hc _ ih =>
    obtain ⟨hx, hpieces⟩ := List.forall_mem_cons.1 halive
    rw [List.cons_append, List.takeWhile_cons_of_pos (by simpa [hc.op_type] using hx), List.map_cons,
      List.map_cons, hc.view,
      ih hpieces]

theorem live_settle (hcs : List.Forall₂ (Shows b) cs (cut ts)) (hrest : ∀ c ∈ rest, c = .unused) :
    live b (settle (cut ts) (cs ++ rest)) = if Trailing (cut ts) then [] else (cut ts).map Piece.view := by
  unfold settle
  split_ifs with ht
  · obtain ⟨x, pieces, hx⟩ := List.exists_cons_of_ne_nil (trailing_ne_nil ht)
    rw [hx] at hcs
    obtain ⟨c, cs, -, -, rfl⟩ := List.forall₂_cons_right_iff.1 hcs
    rfl
  · exact live_built hcs (fun x hx => cut_alive hx) hrest

theorem Owned.count_freed {h : Pool} {l : List ℕ} {n : ℕ} (ho : Owned h l) (hn : n ∈ h.freed) : h.freed.count n = 1 :=
  List.count_eq_one_of_mem (List.nodup_append.1 ho.1).1 hn

/-- **A list that is used again.** Let the parameter nodes of the list be made by `better_malloc`, each at one place of
the list, and not freed. Whatever the commands of the list are, `build_command` on the list and on `NULL` both return;
the live commands are the same; each parameter node of the list is freed exactly once by the call, also when the line
ends with a separator and `free_paras` is called again; and the list has not lost a command. What the call returns is
such a list again, so that this holds for one line after the other. -/
theorem reuse_invisible (pre line post : Text) (command : List Command) (h h0 : Pool) (hline : 0 ∉ line)
    (howned : Owned h (nodesOf command)) :
    ∃ cmds b h' cmds' b' h0', buildCommand h (pre ++ (line ++ 0 :: 0 :: post)) pre.length command = .ok (cmds, b, h') ∧
      buildCommand h0 (pre ++ (line ++ 0 :: 0 :: post)) pre.length [] = .ok (cmds', b', h0') ∧
      live b cmds = live b' cmds' ∧ command.length ≤ cmds.length ∧
      (∀ n ∈ nodesOf command, n ∉ h.freed ∧ h'.freed.count n = 1) ∧ Owned h' (nodesOf cmds) := by
  obtain ⟨cs, rest, b, h', hrun, hcs, hrest, hlen, hledger⟩ := buildCommand_spec pre line post command h hline
  obtain ⟨cs', rest', b', h0', hrun', hcs', hrest', -⟩ := buildCommand_spec pre line post [] h0 hline
  have hcleared : Owned ⟨h.made, h.freed ++ nodesOf command⟩ [] := by
    refine (ledger_freed (nodesOf command)).owned ?_
    rwa [List.append_nil]
  have hend := hledger.owned hcleared
  refine ⟨_, b, h', _, b', h0', hrun, hrun', ?_, ?_, fun n hn => ⟨fun hfreed => ?_, ?_⟩, hend⟩
  · rw [live_settle hcs hrest, live_settle hcs' hrest']
  · unfold settle
    split_ifs
    · rwa [List.length_modify]
    · exact hlen
  · exact (List.nodup_append.1 howned.1).2.2 n hfreed n hn rfl
  · exact hend.count_freed (hledger.log.subset (List.mem_append_right _ hn))

/-- a pipeline of two commands with three parameters is followed by a line that ends with a separator -/
theorem reuse_invisible_short : ∃ cmds b h, buildCommand ⟨5, [1]⟩ (text "ls a |" ++ [0, 0]) 0
      [⟨some 0, [⟨2, 3⟩], 1, OP_PIPLINE⟩, ⟨some 7, [⟨3, 9⟩, ⟨4, 11⟩], 2, OP_EXEC⟩] = .ok (cmds, b, h) ∧
    2 ≤ cmds.length ∧ h.freed.count 2 = 1 ∧ h.freed.count 3 = 1 ∧ h.freed.count 4 = 1 := by
  obtain ⟨cmds, b, h, -, -, -, hrun, -, -, hlen, hfreed, -⟩ := reuse_invisible [] (text "ls a |") []
    [⟨some 0, [⟨2, 3⟩], 1, OP_PIPLINE⟩, ⟨some 7, [⟨3, 9⟩, ⟨4, 11⟩], 2, OP_EXEC⟩] ⟨5, [1]⟩ ⟨0, []⟩ (by decide +kernel)
    (by unfold Owned; decide +kernel)
  exact ⟨cmds, b, h, hrun, hlen, (hfreed 2 (by decide)).2, (hfreed 3 (by decide)).2, (hfreed 4 (by decide)).2⟩

end RiscvPke.Shell
