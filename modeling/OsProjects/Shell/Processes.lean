import OsProjects.Foundation.Run
import OsProjects.Shell.Agreement

/-!
# The processes of the shell

Main forks a child for each file that it executes and waits for it.  Here the loops of main are cut
into steps, from one call of the system to the next, and any process that is not blocked may take
the next step.  What the system answers in a step is arbitrary: the next line, the files that are
executable, and whether `chdir`, `fork` and `execv` succeed.  A process whose path command reads or
writes outside of `buffer_args` takes no further step.

A child whose `execv` fails goes on with the loops of main like its parent, down to the prompt.

* `advance_eq_some`: what a step does to the processes;
* `reached_single`: while no `execv` fails, the children only execute their programs;
* `onlyShell_iff`: the runs in which only the first process reads input.
-/

namespace OsProjects.Shell

/-- The search for a command, and the loops around it. -/
structure Search where
  final_cmd : Str
  arg_list : List Str
  output : Option Str
  /-- The directories still to be searched. -/
  dirs : List Str
  success : Bool
  /-- The commands to come, between ampersands. -/
  cmds : List Str
  /-- The pieces to come, between semicolons. -/
  rest : List Str
  deriving DecidableEq

/-- Where a process is. -/
inductive Phase
  /-- Before `getline`. -/
  | prompt
  /-- In the loop over the pieces of the line. -/
  | line (rest : List Str)
  /-- In the loop over the commands of a piece. -/
  | commands (success : Bool) (cmds rest : List Str)
  /-- In the loop over the directories. -/
  | search (f : Search)
  /-- A child before `execv`. -/
  | child (file : Str) (f : Search)
  /-- In `waitpid`. -/
  | waiting (rc : ℕ) (f : Search)
  /-- A program has taken the place of the shell. -/
  | program (file : Str) (argv : List Str) (output : Option Str)
  | done
  deriving DecidableEq

/-- A process: its path list and directory, and where it is. -/
structure Process where
  state : State
  phase : Phase

/-- What the system answers in a step. -/
structure Answers where
  line : Str
  access : Str → Bool
  chdir : List Str → Str → Bool
  fork : Bool
  execv : Bool

/-- A step is taken by one of the processes, which are numbered in the order of their forks. -/
structure Event where
  pid : ℕ
  answers : Answers

/-- The process at another place. -/
def Process.to (P : Process) (phase : Phase) : Process := { P with phase := phase }

/-- The next step of a process: the process after it, and the child it forks.  There is none while
the process it waits for has not ended. -/
def advance (procs : List Process) (a : Answers) (P : Process) : Option (Process × List Process) :=
  match P.phase with
  | .prompt =>
    if checksyntax a.access P.state.path_ptr a.line then
      some (P.to (.line (checkedLine a.line)), [])
    else some (P.to .prompt, [])
  | .line [] => some (P.to .prompt, [])
  | .line (cur_cmds :: rest) =>
    match args cur_cmds with
    | [] => some (P.to (.line rest), [])
    | buffer_cmd :: _ =>
      if buffer_cmd = exit then some (P.to .done, [])
      else if buffer_cmd = cd then
        match (piece a.access a.chdir P.state cur_cmds).2 with
        | some s => some (⟨s, .line rest⟩, [])
        | none => some (P.to .prompt, [])
      else if buffer_cmd = path then
        (piece a.access a.chdir P.state cur_cmds).2.map fun s => (⟨s, .line rest⟩, [])
      else some (P.to (.commands false (cur_cmds.splitOn ampersand) rest), [])
  -- `wait(NULL)` returns at once: each child has been waited for.
  | .commands _ [] rest => some (P.to (.line rest), [])
  | .commands success (cmd :: cmds) rest =>
    match args (cmd.takeWhile (· ≠ redirection)) with
    | [] => some (P.to (.commands success cmds rest), [])
    | final_cmd :: arg_list =>
      some (P.to (.search ⟨final_cmd, arg_list, output cmd, P.state.path_ptr, success, cmds, rest⟩),
        [])
  | .search f =>
    match f.dirs with
    | [] => some (P.to (.commands f.success f.cmds f.rest), [])
    | dir :: dirs =>
      if a.access (dir ++ slash :: f.final_cmd) then
        if a.fork then
          some (P.to (.waiting procs.length { f with dirs := dirs, success := true }),
            [P.to (.child (dir ++ slash :: f.final_cmd) { f with dirs := dirs, success := true })])
        else some (P.to .done, [])
      else some (P.to (.search { f with dirs := dirs }), [])
  | .child file f =>
    if a.execv then some (P.to (.program file (f.final_cmd :: f.arg_list) f.output), [])
    else some (P.to (.search f), [])
  | .waiting rc f =>
    (procs[rc]?).bind fun Q => if Q.phase = .done then some (P.to (.search f), []) else none
  | .program _ _ _ => some (P.to .done, [])
  | .done => none

/-- One step of the processes. -/
def step (procs : List Process) (e : Event) : Option (List Process) :=
  (procs[e.pid]?).bind fun P =>
    (advance procs e.answers P).map fun r => procs.set e.pid r.1 ++ r.2

/-- The step relation of the processes. -/
def Step (procs : List Process) (e : Event) (procs' : List Process) : Prop :=
  step procs e = some procs'

/-- The shell as it is started. -/
def shell : List Process := [⟨⟨[bin], []⟩, .prompt⟩]

/-- A child that has only executed its program. -/
def Phase.Forked : Phase → Prop
  | .child _ _ | .program _ _ _ | .done => True
  | _ => False

/-- Only the first process reads input: the others become the programs they were forked for or
terminate, and where one is at the prompt, it is the only one that interprets input. -/
structure OnlyShell (procs : List Process) : Prop where
  forked (p : ℕ) (P : Process) : procs[p]? = some P → p ≠ 0 → P.phase.Forked
  prompt (p : ℕ) (P : Process) : procs[p]? = some P → P.phase = .prompt →
    ∀ q Q, procs[q]? = some Q → (¬Q.phase.Forked ↔ q = p)

/-- In this step an `execv` fails. -/
def ExecFails (procs : List Process) (e : Event) : Prop :=
  ∃ P file f, procs[e.pid]? = some P ∧ P.phase = .child file f ∧ e.answers.execv = false

/-! ### What a step does -/

section Steps

variable {procs procs' new : List Process} {a : Answers} {P P' : Process} {e : Event}

/-- The steps of a process, without its path list and directory. -/
inductive Moves (procs : List Process) (a : Answers) : Phase → Phase → List Phase → Prop
  | read (rest : List Str) : Moves procs a .prompt (.line rest) []
  | reject : Moves procs a .prompt .prompt []
  | endOfLine : Moves procs a (.line []) .prompt []
  | next (p1 : Str) (rest : List Str) : Moves procs a (.line (p1 :: rest)) (.line rest) []
  | exit (rest : List Str) : Moves procs a (.line rest) .done []
  | leave (p1 : Str) (rest : List Str) : Moves procs a (.line (p1 :: rest)) .prompt []
  | external (p1 : Str) (cmds rest : List Str) :
      Moves procs a (.line (p1 :: rest)) (.commands false cmds rest) []
  | endOfPiece (success : Bool) (rest : List Str) :
      Moves procs a (.commands success [] rest) (.line rest) []
  | blank (success : Bool) (cmd : Str) (cmds rest : List Str) :
      Moves procs a (.commands success (cmd :: cmds) rest) (.commands success cmds rest) []
  | search (success : Bool) (cmd : Str) (f : Search) :
      Moves procs a (.commands success (cmd :: f.cmds) f.rest) (.search f) []
  | endOfSearch (f : Search) :
      Moves procs a (.search f) (.commands f.success f.cmds f.rest) []
  | skip {f : Search} {dir : Str} {dirs : List Str} (hdirs : f.dirs = dir :: dirs) :
      Moves procs a (.search f) (.search { f with dirs := dirs }) []
  | fork {f : Search} {dir : Str} {dirs : List Str} (file : Str) (hdirs : f.dirs = dir :: dirs) :
      Moves procs a (.search f) (.waiting procs.length { f with dirs := dirs, success := true })
        [.child file { f with dirs := dirs, success := true }]
  | forkFails (f : Search) : Moves procs a (.search f) .done []
  | exec (file : Str) (f : Search) (hexec : a.execv = true) :
      Moves procs a (.child file f) (.program file (f.final_cmd :: f.arg_list) f.output) []
  | execFails (file : Str) (f : Search) (hexec : a.execv = false) :
      Moves procs a (.child file f) (.search f) []
  /-- A process returns from `waitpid` when the child has ended. -/
  | waited {rc : ℕ} {Q : Process} (f : Search) (hQ : procs[rc]? = some Q)
    (hdone : Q.phase = .done) :
      Moves procs a (.waiting rc f) (.search f) []
  | programEnds (file : Str) (argv : List Str) (output : Option Str) :
      Moves procs a (.program file argv output) .done []

/-- What a step of a process can be. -/
theorem moves_of_advance (h : advance procs a P = some (P', new)) :
    Moves procs a P.phase P'.phase (new.map Process.phase) := by
  cases hphase : P.phase with
  | prompt =>
    rw [advance, hphase] at h
    dsimp only at h
    split at h <;> cases h
    · exact .read _
    · exact .reject
  | line rest =>
    cases rest with
    | nil =>
      rw [advance, hphase] at h
      cases h
      exact .endOfLine
    | cons cur_cmds rest =>
      rw [advance, hphase] at h
      dsimp only at h
      split at h
      · cases h
        exact .next _ _
      split at h
      · cases h
        exact .exit _
      split at h
      · split at h <;> cases h
        · exact .next _ _
        · exact .leave _ _
      split at h
      · obtain ⟨s, -, hs⟩ := Option.map_eq_some_iff.1 h
        cases hs
        exact .next _ _
      · cases h
        exact .external _ _ _
  | commands success cmds rest =>
    cases cmds with
    | nil =>
      rw [advance, hphase] at h
      cases h
      exact .endOfPiece _ _
    | cons cmd cmds =>
      rw [advance, hphase] at h
      dsimp only at h
      split at h <;> cases h
      · exact .blank _ _ _ _
      · exact .search success cmd ⟨_, _, _, _, success, cmds, rest⟩
  | search f =>
    rw [advance, hphase] at h
    dsimp only at h
    split at h
    · cases h
      exact .endOfSearch f
    · rename_i dir dirs hdirs
      split at h
      · split at h <;> cases h
        · exact .fork _ hdirs
        · exact .forkFails f
      · cases h
        exact .skip hdirs
  | child file f =>
    rw [advance, hphase] at h
    dsimp only at h
    split at h <;> cases h
    · exact .exec file f ‹_›
    · exact .execFails file f (Bool.not_eq_true _ ▸ ‹_›)
  | waiting rc f =>
    rw [advance, hphase] at h
    obtain ⟨Q, hQ, h⟩ := Option.bind_eq_some_iff.1 h
    split at h
    · cases h
      exact .waited f hQ ‹_›
    · cases h
  | program file argv output =>
    rw [advance, hphase] at h
    cases h
    exact .programEnds _ _ _
  | done =>
    rw [advance, hphase] at h
    cases h

/-- A child executes its program and ends, unless `execv` fails. -/
theorem Moves.forked {phase phase' : Phase} {phases : List Phase}
    (h : Moves procs a phase phase' phases) (hforked : phase.Forked)
    (hexec : ∀ file f, phase = .child file f → a.execv = true) :
    phases = [] ∧ phase'.Forked ∧ phase ≠ .done := by
  cases h with
  | exec file f => exact ⟨rfl, trivial, nofun⟩
  | execFails file f hfails =>
    rw [hexec file f rfl] at hfails
    cases hfails
  | programEnds => exact ⟨rfl, trivial, nofun⟩
  | _ => exact hforked.elim

/-- A fork: the parent waits for the new process. -/
def Forks (procs : List Process) (phase' : Phase) (phases : List Phase) : Prop :=
  ∃ file f, phases = [.child file f] ∧ phase' = .waiting procs.length f

/-- No process comes to be before `execv` but by a fork. -/
theorem Moves.forks {phase phase' : Phase} {phases : List Phase}
    (h : Moves procs a phase phase' phases) :
    (phases = [] ∨ Forks procs phase' phases) ∧ ∀ file f, phase' ≠ .child file f := by
  cases h with
  | fork file hdirs => exact ⟨.inr ⟨file, _, rfl, rfl⟩, nofun⟩
  | _ => exact ⟨.inl rfl, nofun⟩

theorem Moves.done_of_waiting {rc : ℕ} {f : Search} {phase : Phase} {phases : List Phase}
    (h : Moves procs a (.waiting rc f) phase phases) :
    ∃ Q, procs[rc]? = some Q ∧ Q.phase = .done := by
  cases h with
  | waited _ hQ hdone => exact ⟨_, hQ, hdone⟩

theorem step_eq_some (h : Step procs e procs') : ∃ P P' new, procs[e.pid]? = some P ∧
    Moves procs e.answers P.phase P'.phase (new.map Process.phase) ∧
      procs' = procs.set e.pid P' ++ new := by
  obtain ⟨P, hP, h⟩ := Option.bind_eq_some_iff.1 h
  obtain ⟨⟨P', new⟩, hadvance, rfl⟩ := Option.map_eq_some_iff.1 h
  exact ⟨P, P', new, hP, moves_of_advance hadvance, rfl⟩

/-- The processes after a step. -/
theorem getElem?_step {pid q : ℕ} {Q : Process} (hpid : procs[pid]? = some P)
    (hnew : new.map Process.phase = [] ∨ Forks procs P'.phase (new.map Process.phase))
    (h : (procs.set pid P' ++ new)[q]? = some Q) :
    q = pid ∧ Q = P' ∨ q ≠ pid ∧ procs[q]? = some Q ∨
      q = procs.length ∧ ∃ file f, Q.phase = .child file f ∧
        P'.phase = .waiting procs.length f := by
  have hlen := (List.getElem?_eq_some_iff.1 hpid).1
  by_cases hq : q < procs.length
  · rw [List.getElem?_append_left (by rwa [List.length_set])] at h
    by_cases he : q = pid
    · subst he
      rw [List.getElem?_set_self hq] at h
      exact .inl ⟨rfl, (Option.some.inj h).symm⟩
    · rw [List.getElem?_set_ne (Ne.symm he)] at h
      exact .inr (.inl ⟨he, h⟩)
  · rw [List.getElem?_append_right (by rw [List.length_set]; omega), List.length_set] at h
    rcases hnew with hnil | ⟨file, f, hphases, hwait⟩
    · rw [List.map_eq_nil_iff.1 hnil] at h
      cases h
    · obtain ⟨C, rfl, hC⟩ := List.map_eq_singleton_iff.1 hphases
      have hzero : q - procs.length = 0 := by
        have hbound := (List.getElem?_eq_some_iff.1 h).1
        rw [List.length_singleton] at hbound
        omega
      rw [hzero] at h
      obtain rfl := Option.some.inj h
      exact .inr (.inr ⟨by omega, file, f, hC, hwait⟩)

end Steps

/-! ### Runs -/

section Runs

variable {procs procs' : List Process} {e : Event} {es : List Event}

/-- Each child has ended, but the one that the first process waits for. -/
def Single (procs : List Process) : Prop :=
  ∀ p P, procs[p]? = some P → p ≠ 0 → P.phase.Forked ∧
    (P.phase ≠ .done → ∃ S f, procs[0]? = some S ∧ S.phase = .waiting p f)

/-- The first process is nobody's child. -/
def Original (procs : List Process) : Prop :=
  ∃ S, procs[0]? = some S ∧ ∀ file f, S.phase ≠ .child file f

theorem getElem?_zero_step {pid : ℕ} {S P' : Process} {new : List Process}
    (h : procs[0]? = some S) :
    (procs.set pid P' ++ new)[0]? = some (if pid = 0 then P' else S) := by
  have hlen := (List.getElem?_eq_some_iff.1 h).1
  rw [List.getElem?_append_left (by rwa [List.length_set])]
  split
  · rename_i hpid
    rw [hpid, List.getElem?_set_self hlen]
  · rename_i hpid
    rw [List.getElem?_set_ne hpid, h]

theorem step_original (h : Original procs) (hstep : Step procs e procs') : Original procs' := by
  obtain ⟨S, hS, hchild⟩ := h
  obtain ⟨P, P', new, hP, hmoves, rfl⟩ := step_eq_some hstep
  refine ⟨_, getElem?_zero_step hS, ?_⟩
  split
  · exact hmoves.forks.2
  · exact hchild

/-- A step without a failing `execv` leaves at most one child that has not ended. -/
theorem step_single (h : Single procs) (horiginal : Original procs)
    (hstep : Step procs e procs') (hexec : ¬ExecFails procs e) : Single procs' := by
  obtain ⟨S, hS, -⟩ := horiginal
  obtain ⟨P, P', new, hP, hmoves, rfl⟩ := step_eq_some hstep
  have hzero : (procs.set e.pid P' ++ new)[0]? = some (if e.pid = 0 then P' else S) :=
    getElem?_zero_step hS
  intro p Q hQ hp
  by_cases hpid : e.pid = 0
  · -- The first process moves only when all others have ended.
    rw [if_pos hpid] at hzero
    rw [hpid] at hP
    have hdone : ∀ q R, procs[q]? = some R → q ≠ 0 → R.phase = .done := by
      intro q R hR hq
      by_contra hne
      obtain ⟨S', f, hS', hwait⟩ := (h q R hR hq).2 hne
      obtain rfl := Option.some.inj (hP.symm.trans hS')
      rw [hwait] at hmoves
      obtain ⟨R', hR', hended⟩ := hmoves.done_of_waiting
      obtain rfl := Option.some.inj (hR.symm.trans hR')
      exact hne hended
    rw [hpid] at hQ
    rcases getElem?_step hP hmoves.forks.1 hQ with
      ⟨rfl, -⟩ | ⟨-, hold⟩ | ⟨rfl, file, f, hchild, hwait⟩
    · exact absurd rfl hp
    · have hended := hdone p Q hold hp
      exact ⟨by rw [hended]; trivial, fun hne => absurd hended hne⟩
    · exact ⟨by rw [hchild]; trivial, fun _ => ⟨P', f, hzero, hwait⟩⟩
  · rw [if_neg hpid] at hzero
    have hexecv : ∀ file f, P.phase = .child file f → e.answers.execv = true := by
      intro file f hphase
      by_contra hfalse
      exact hexec ⟨P, file, f, hP, hphase, Bool.not_eq_true _ ▸ hfalse⟩
    obtain ⟨hforked, hwait⟩ := h e.pid P hP hpid
    obtain ⟨hnil, hforked', hne⟩ := hmoves.forked hforked hexecv
    obtain ⟨S', f, hS', hphase⟩ := hwait hne
    obtain rfl := Option.some.inj (hS.symm.trans hS')
    rw [List.map_eq_nil_iff.1 hnil] at hQ
    rcases getElem?_step hP (.inl rfl) hQ with ⟨rfl, rfl⟩ | ⟨-, hold⟩ | ⟨-, _, _, -, hwait'⟩
    · exact ⟨hforked', fun _ => ⟨S, f, hzero, hphase⟩⟩
    · obtain ⟨hf, hw⟩ := h p Q hold hp
      refine ⟨hf, fun hrun => ?_⟩
      obtain ⟨S', f', hS', hphase'⟩ := hw hrun
      obtain rfl := Option.some.inj (hS.symm.trans hS')
      exact ⟨S, f', hzero, hphase'⟩
    · rw [hwait'] at hforked'
      exact hforked'.elim

theorem shell_original : Original shell := ⟨_, rfl, nofun⟩

theorem shell_single : Single shell := by
  intro p P hP hp
  have hlt := (List.getElem?_eq_some_iff.1 hP).1
  exact absurd (Nat.lt_one_iff.1 hlt) hp

/-- No `execv` fails in the course of these events. -/
def ExecsSucceed (es : List Event) : Prop :=
  ∀ es₁ e procs, es₁ ++ [e] <+: es → Run Step shell es₁ procs → ¬ExecFails procs e

theorem run_original (h : Run Step shell es procs) : Original procs :=
  h.invariant shell_original fun _ _ _ hs hstep => step_original hs hstep

/-- What a run preserves whose `execv` calls all succeed. -/
theorem run_single (h : Run Step shell es procs) (hexec : ExecsSucceed es) : Single procs := by
  refine h.snoc_induction (motive := fun as t => as <+: es → Single t) (fun _ => shell_single) ?_
    (List.prefix_refl es)
  intro as e t u hrun ih hstep hpre
  have hpre' : as <+: es := (List.prefix_append as [e]).trans hpre
  exact step_single (ih hpre') (run_original hrun) hstep (hexec as e t hpre hrun)

theorem ExecsSucceed.of_prefix {es₁ : List Event} (h : ExecsSucceed es) (hpre : es₁ <+: es) :
    ExecsSucceed es₁ := fun _ e procs hes hrun => h _ e procs (hes.trans hpre) hrun

/-- Before a prompt all children have ended. -/
theorem onlyShell_of_single (h : Single procs) : OnlyShell procs := by
  refine ⟨fun p P hP hp => (h p P hP hp).1, fun p P hP hprompt q Q hQ => ?_⟩
  have hnot : ¬P.phase.Forked := by
    rw [hprompt]
    exact id
  have hzero : p = 0 := by
    by_contra hp
    exact hnot (h p P hP hp).1
  constructor
  · intro hQ'
    by_contra hne
    exact hQ' (h q Q hQ (by omega)).1
  · rintro rfl
    obtain rfl := Option.some.inj (hP.symm.trans hQ)
    exact hnot

/-- **Only the first process reads input**, at every point of a run, exactly if no `execv` fails in
it. -/
theorem onlyShell_iff (es : List Event) :
    (∀ es₁ procs, es₁ <+: es → Run Step shell es₁ procs → OnlyShell procs) ↔ ExecsSucceed es := by
  constructor
  · rintro h es₁ e procs hpre hrun ⟨P, file, f, hP, hphase, hfails⟩
    -- The child is back in the loop over the directories.
    have hstep : Step procs e (procs.set e.pid (P.to (.search f)) ++ []) := by
      rw [Step, step, hP, Option.bind_some, advance, hphase]
      simp only [hfails]
      rfl
    have hlen := (List.getElem?_eq_some_iff.1 hP).1
    have hback : (procs.set e.pid (P.to (.search f)) ++ [])[e.pid]? = some (P.to (.search f)) := by
      rw [List.append_nil, List.getElem?_set_self hlen]
    have hpid : e.pid ≠ 0 := by
      intro hzero
      obtain ⟨S, hS, hchild⟩ := run_original hrun
      rw [hzero] at hP
      obtain rfl := Option.some.inj (hP.symm.trans hS)
      exact hchild file f hphase
    exact (h _ _ hpre (Run.snoc_iff.2 ⟨procs, hrun, hstep⟩)).forked _ _ hback hpid
  · intro h es₁ procs hpre hrun
    exact onlyShell_of_single (run_single hrun (h.of_prefix hpre))

/-- The answers of a system where the only line is `"ls"` and `execv` fails. -/
def brokenLs : Answers := ⟨[0x6C, 0x73], onlyLs, fun _ _ => true, true, false⟩

/-- The shell reads `"ls"` and forks a child, whose `execv` fails: the child comes to the prompt. -/
theorem not_onlyShell : ¬∀ es procs, Run Step shell es procs → OnlyShell procs := by
  intro h
  have hrun : Run Step shell ([0, 0, 0, 0, 1, 1, 1, 1].map (Event.mk · brokenLs))
      [⟨⟨[bin], []⟩, .waiting 1 ⟨[0x6C, 0x73], [], none, [], true, [], []⟩⟩,
        ⟨⟨[bin], []⟩, .prompt⟩] := Run.of_foldlM rfl
  exact (h _ _ hrun).forked 1 _ rfl Nat.one_ne_zero

end Runs

end OsProjects.Shell
