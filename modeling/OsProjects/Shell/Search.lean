import OsProjects.Shell.Agreement

/-!
# The search for a command

Main looks a command up by itself: it goes through the whole path list and executes the command in
every directory that has it, and it keeps one flag `success` for all commands between ampersands.
The executions and errors of a piece are those of the files that `checkpath` finds exactly where no
command is found twice, and none that is missing comes after one that is found (`firstMatch_iff`).
-/

namespace OsProjects.Shell

variable {access : Str → Bool} {chdir : List Str → Str → Bool} {dirs : List Str} {s : State}
  {cmd cmd' p1 c : Str} {cmds : List Str}

/-- The files that have the command of `cmd`. -/
def found (access : Str → Bool) (dirs : List Str) (cmd : Str) : List Str :=
  match command cmd with
  | none => []
  | some c => (dirs.map (· ++ slash :: c)).filter access

/-- The execution of a file for `cmd`. -/
def run (cmd file : Str) : Act :=
  .exec file (args (cmd.takeWhile (· ≠ redirection))) (output cmd)

/-- What is to be done for `cmd`: the file that `checkpath` finds is executed, or there is an
error. -/
def promised (access : Str → Bool) (dirs : List Str) (cmd : Str) : List Act :=
  match command cmd with
  | none => []
  | some c =>
    match checkpath access dirs c with
    | some file => [run cmd file]
    | none => [.notFound c]

/-- No directory has the command of `cmd`. -/
def Missing (access : Str → Bool) (dirs : List Str) (cmd : Str) : Prop :=
  ∃ c, command cmd = some c ∧ checkpath access dirs c = none

theorem external_cons_none {success : Bool} (h : command cmd = none) :
    external access dirs success (cmd :: cmds) = external access dirs success cmds := by
  rw [command, List.head?_eq_none_iff] at h
  rw [external, h]

theorem external_cons_some {success : Bool} (h : command cmd = some c) :
    external access dirs success (cmd :: cmds) = (found access dirs cmd).map (run cmd) ++
      (if success || !(found access dirs cmd).isEmpty then [] else [.notFound c]) ++
        external access dirs (success || !(found access dirs cmd).isEmpty) cmds := by
  have hargs : ∃ rest, args (cmd.takeWhile (· ≠ redirection)) = c :: rest := by
    rw [command, List.head?_eq_some_iff] at h
    exact h
  obtain ⟨rest, hargs⟩ := hargs
  have hrun : run cmd = (Act.exec · (c :: rest) (output cmd)) := by
    funext file
    rw [run, hargs]
  rw [hrun, found, h, external, hargs]

theorem missing_iff (h : command cmd = some c) :
    Missing access dirs cmd ↔ found access dirs cmd = [] := by
  rw [found, h]
  show _ ↔ (dirs.map (· ++ slash :: c)).filter access = []
  rw [← checkpath_eq_none]
  exact ⟨fun ⟨c', hc', hnone⟩ => Option.some.inj (h.symm.trans hc') ▸ hnone,
    fun hnone => ⟨c, h, hnone⟩⟩

theorem promised_of_missing (h : Missing access dirs cmd) : ∃ c, promised access dirs cmd =
    [.notFound c] := by
  obtain ⟨c, hc, hnone⟩ := h
  exact ⟨c, by rw [promised, hc]; simp only [hnone]⟩

/-- A command that is found is executed once. -/
theorem promised_of_found (h : ¬Missing access dirs cmd) :
    promised access dirs cmd = ((found access dirs cmd).map (run cmd)).take 1 := by
  cases hc : command cmd with
  | none => rw [promised, found, hc]; rfl
  | some c =>
    have hfind : checkpath access dirs c = (found access dirs cmd).head? := by
      rw [checkpath, found, hc, List.head?_filter]
    rw [missing_iff hc] at h
    obtain ⟨file, files, hfiles⟩ := List.exists_cons_of_ne_nil h
    rw [promised, hc]
    simp only [hfind, hfiles]
    rfl

/-! ### Once the flag is set -/

theorem external_true : external access dirs true cmds =
    cmds.flatMap fun cmd => (found access dirs cmd).map (run cmd) := by
  induction cmds with
  | nil => rfl
  | cons cmd cmds ih =>
    rw [List.flatMap_cons, ← ih]
    cases hc : command cmd with
    | none => rw [external_cons_none hc, found, hc]; rfl
    | some c => rw [external_cons_some hc, Bool.true_or, if_pos rfl, List.append_nil]

theorem notFound_mem_promised (h : cmd ∈ cmds) (hm : Missing access dirs cmd) :
    ∃ c, Act.notFound c ∈ cmds.flatMap (promised access dirs) := by
  obtain ⟨c, hc⟩ := promised_of_missing hm
  exact ⟨c, List.mem_flatMap.2 ⟨cmd, h, by rw [hc]; exact List.mem_singleton_self _⟩⟩

/-- What has been executed too often is not made up for by later commands. -/
theorem length_promised_le (h : ∀ cmd ∈ cmds, ¬Missing access dirs cmd) :
    (cmds.flatMap (promised access dirs)).length ≤ (external access dirs true cmds).length ∧
      ((external access dirs true cmds).length ≤ (cmds.flatMap (promised access dirs)).length →
        ∀ cmd ∈ cmds, (found access dirs cmd).length ≤ 1) := by
  rw [external_true]
  induction cmds with
  | nil => exact ⟨le_rfl, fun _ => List.forall_mem_nil _⟩
  | cons cmd cmds ih =>
    obtain ⟨hcmd, hcmds⟩ := List.forall_mem_cons.1 h
    obtain ⟨hle, hone⟩ := ih hcmds
    rw [List.flatMap_cons, List.flatMap_cons, List.length_append, List.length_append,
      promised_of_found hcmd, List.length_take, List.length_map]
    refine ⟨by omega, fun hlen => List.forall_mem_cons.2 ⟨by omega, hone (by omega)⟩⟩

/-- The rest of a piece after a command that is found, in files of which `extra` are left. -/
theorem external_true_eq_iff {extra : List Act} (hextra : ∀ c, Act.notFound c ∉ extra) :
    extra ++ external access dirs true cmds = cmds.flatMap (promised access dirs) ↔
      extra = [] ∧ ∀ cmd ∈ cmds, (found access dirs cmd).length ≤ 1 ∧
        ¬Missing access dirs cmd := by
  constructor
  · intro h
    have hmissing : ∀ cmd ∈ cmds, ¬Missing access dirs cmd := by
      intro cmd hcmd hm
      obtain ⟨c, hc⟩ := notFound_mem_promised hcmd hm
      rw [← h] at hc
      rcases List.mem_append.1 hc with hc | hc
      · exact hextra c hc
      · exact notFound_not_mem hc
    obtain ⟨hle, hone⟩ := length_promised_le hmissing
    have hlen := congrArg List.length h
    rw [List.length_append] at hlen
    exact ⟨List.eq_nil_of_length_eq_zero (by omega),
      fun cmd hcmd => ⟨hone (by omega) cmd hcmd, hmissing cmd hcmd⟩⟩
  · rintro ⟨rfl, h⟩
    rw [List.nil_append, external_true]
    refine List.flatMap_congr fun cmd hcmd => ?_
    obtain ⟨hlen, hm⟩ := h cmd hcmd
    rw [promised_of_found hm, List.take_of_length_le (by rwa [List.length_map])]

/-! ### The commands of a piece -/

/-- Each command is in one directory at most, and one that is missing comes after no other that is
found. -/
def Unambiguous (access : Str → Bool) (dirs : List Str) (cmds : List Str) : Prop :=
  (∀ cmd ∈ cmds, (found access dirs cmd).length ≤ 1) ∧
    cmds.Pairwise fun cmd cmd' => found access dirs cmd ≠ [] → ¬Missing access dirs cmd'

theorem external_eq_iff : external access dirs false cmds = cmds.flatMap (promised access dirs) ↔
    Unambiguous access dirs cmds := by
  induction cmds with
  | nil => exact iff_of_true rfl ⟨List.forall_mem_nil _, .nil⟩
  | cons cmd cmds ih =>
    rw [Unambiguous, List.forall_mem_cons, List.pairwise_cons, List.flatMap_cons]
    have hnone : ∀ {l : List Act}, found access dirs cmd = [] →
        promised access dirs cmd = l → external access dirs false (cmd :: cmds) =
          l ++ external access dirs false cmds →
        (external access dirs false (cmd :: cmds) =
          promised access dirs cmd ++ cmds.flatMap (promised access dirs) ↔
        ((found access dirs cmd).length ≤ 1 ∧ ∀ cmd ∈ cmds, (found access dirs cmd).length ≤ 1) ∧
          (∀ cmd' ∈ cmds, found access dirs cmd ≠ [] → ¬Missing access dirs cmd') ∧
            cmds.Pairwise fun cmd cmd' => found access dirs cmd ≠ [] →
              ¬Missing access dirs cmd') := by
      intro l hfound hl hext
      rw [hext, hl, List.append_cancel_left_eq, ih, Unambiguous, hfound]
      simp
    cases hc : command cmd with
    | none =>
      exact hnone (by rw [found, hc]) (l := []) (by rw [promised, hc]) (external_cons_none hc)
    | some c =>
      by_cases hm : Missing access dirs cmd
      · have hfound := (missing_iff hc).1 hm
        obtain ⟨c', hc', hpath⟩ := id hm
        obtain rfl := Option.some.inj (hc.symm.trans hc')
        refine hnone hfound (l := [.notFound c]) ?_ ?_
        · rw [promised, hc]
          simp only [hpath]
        · rw [external_cons_some hc, hfound]
          rfl
      · have hfound : found access dirs cmd ≠ [] := fun h => hm ((missing_iff hc).2 h)
        obtain ⟨file, files, hfiles⟩ := List.exists_cons_of_ne_nil hfound
        rw [external_cons_some hc, promised_of_found hm, hfiles]
        simp only [List.map_cons, List.isEmpty_cons, Bool.not_false, Bool.false_or, if_true,
          List.append_nil, List.take_succ_cons, List.take_zero, List.cons_append, List.nil_append,
          List.cons.injEq, true_and]
        rw [external_true_eq_iff fun c h => by
          obtain ⟨_, -, h⟩ := List.mem_map.1 h
          cases h]
        constructor
        · rintro ⟨hnil, hall⟩
          obtain rfl := List.map_eq_nil_iff.1 hnil
          refine ⟨⟨le_rfl, fun cmd' h => (hall cmd' h).1⟩, fun cmd' h _ => (hall cmd' h).2, ?_⟩
          exact List.pairwise_of_forall_mem_list fun _ _ cmd' h _ => (hall cmd' h).2
        · rintro ⟨⟨hlen, hone⟩, hlater, -⟩
          have hnil : files = [] :=
            List.eq_nil_of_length_eq_zero (Nat.le_zero.1 (Nat.le_of_succ_le_succ hlen))
          rw [hnil]
          exact ⟨rfl, fun cmd' h => ⟨hone cmd' h, hlater cmd' h (List.cons_ne_nil _ _)⟩⟩

/-- The piece starts with no built-in command. -/
def External (p1 : Str) : Prop :=
  ∃ w rest, args p1 = w :: rest ∧ w ≠ exit ∧ w ≠ cd ∧ w ≠ path

end OsProjects.Shell
