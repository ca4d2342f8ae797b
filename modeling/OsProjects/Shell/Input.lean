import Mathlib.Data.Prod.Lex
import OsProjects.Foundation.Lines
import OsProjects.Shell.Processes

/-!
# Reading a batch file

The main loop of the shell that was started, on a batch file, when each child it waits for ends.
The loop has no way out but a command that ends the process: main never looks at the result of
`getline` for the end of the file, where `line` points to a buffer with unspecified contents.  It
takes these for a line.

* `rank_mainStep`: all loops but the outermost end by themselves;
* `finishes_iff`: the runs that process the lines of the file and end;
* `endless`: what happens behind the file.
-/

namespace OsProjects.Shell

/-- The strings that the lines of a file are for main. -/
def fileLines (file : List UInt8) : List Str := (lines file).map cstr

/-- The line that main takes from `getline`, and the rest of the file.  At its end the line is what
happens to be in the buffer. -/
def read (file buffer : List UInt8) : List UInt8 × List UInt8 := (getline file).getD (buffer, [])

/-- The shell on a batch file: its process, what is left of the file, and the lines it has got so
far. -/
structure Main where
  process : Process
  file : List UInt8
  lines : List Str

/-- One step of main. -/
def mainStep (a : Answers) (m : Main) : Option Main :=
  match m.process.phase with
  | .prompt =>
    let r := read m.file a.line
    (advance [] { a with line := cstr r.1 } m.process).map fun s =>
      ⟨s.1, r.2, m.lines ++ [cstr r.1]⟩
  -- The child ends.
  | .waiting _ f => some { m with process := m.process.to (.search f) }
  | _ => (advance [] a m.process).map fun s => { m with process := s.1 }

/-- Main after some steps. -/
def mainRun (answers : ℕ → Answers) (file : List UInt8) : ℕ → Option Main
  | 0 => some ⟨⟨⟨[bin], []⟩, .prompt⟩, file, []⟩
  | n + 1 => (mainRun answers file n).bind (mainStep (answers n))

/-- Main gets lines of the file only, each of them once, and ends. -/
def Finishes (answers : ℕ → Answers) (file : List UInt8) : Prop :=
  ∃ n m, mainRun answers file n = some m ∧ m.process.phase = .done ∧ m.lines <+: fileLines file

/-- Main calls `getline` at the end of the file. -/
def AtEnd (m : Main) : Prop := m.process.phase = .prompt ∧ m.file = []

/-- Main executes a path command that reads or writes outside of `buffer_args`. -/
def BadPath (m : Main) : Prop :=
  ∃ cur_cmds rest, m.process.phase = .line (cur_cmds :: rest) ∧
    (args cur_cmds).head? = some path ∧
      (pathCommand m.process.state.path_ptr (args cur_cmds)).2 = none

/-! ### One step -/

section Steps

variable {procs new : List Process} {a : Answers} {P P' : Process} {m m' : Main}

/-- The loops a process is in, from the outside to the inside. -/
def nest (pieces cmds dirs children : ℕ) : ℕ ×ₗ ℕ ×ₗ ℕ ×ₗ ℕ :=
  toLex (pieces, toLex (cmds, toLex (dirs, children)))

theorem nest_lt {p c d k p' c' d' k' : ℕ} : nest p c d k < nest p' c' d' k' ↔
    p < p' ∨ p = p' ∧ (c < c' ∨ c = c' ∧ (d < d' ∨ d = d' ∧ k < k')) := by
  simp only [nest, Prod.Lex.toLex_lt_toLex]

/-- The pieces, commands and directories to come, and whether there is a child. -/
def Phase.rank : Phase → ℕ ×ₗ ℕ ×ₗ ℕ ×ₗ ℕ
  | .prompt | .done => nest 0 0 0 0
  | .line rest => nest (rest.length + 1) 0 0 0
  | .commands _ cmds rest => nest (rest.length + 1) (cmds.length + 1) 0 0
  | .search f => nest (f.rest.length + 1) (f.cmds.length + 1) (f.dirs.length + 1) 0
  | .child _ f | .waiting _ f =>
    nest (f.rest.length + 1) (f.cmds.length + 1) (f.dirs.length + 1) 1
  | .program _ _ _ => nest 0 1 0 0

/-- Every step but that at the prompt brings a loop closer to its end. -/
theorem Moves.rank_lt {phase phase' : Phase} {phases : List Phase}
    (h : Moves procs a phase phase' phases) (hprompt : phase ≠ .prompt) :
    phase'.rank < phase.rank := by
  cases h with
  | read => exact absurd rfl hprompt
  | reject => exact absurd rfl hprompt
  | skip hdirs => simp [Phase.rank, nest_lt, hdirs]
  | fork file hdirs => simp [Phase.rank, nest_lt, hdirs]
  | _ => simp [Phase.rank, nest_lt]

/-- What is left of the file, and the loops of the process. -/
def Main.rank (m : Main) : ℕ ×ₗ ℕ ×ₗ ℕ ×ₗ ℕ ×ₗ ℕ := toLex (m.file.length, m.process.phase.rank)

/-- Main gets a line, or one of its loops comes closer to its end. -/
theorem mainStep_eq_some (h : mainStep a m = some m') :
    m.process.phase = .prompt ∧ m'.file = (read m.file a.line).2 ∧
        m'.lines = m.lines ++ [cstr (read m.file a.line).1] ∨
      m.process.phase ≠ .prompt ∧ m'.file = m.file ∧ m'.lines = m.lines ∧
        m'.process.phase.rank < m.process.phase.rank := by
  rw [mainStep] at h
  split at h
  · rename_i hprompt
    obtain ⟨s, -, rfl⟩ := Option.map_eq_some_iff.1 h
    exact .inl ⟨hprompt, rfl, rfl⟩
  · rename_i rc f hwaiting
    cases h
    refine .inr ⟨by rw [hwaiting]; exact nofun, rfl, rfl, ?_⟩
    rw [hwaiting]
    simp [Process.to, Phase.rank, nest_lt]
  · rename_i hprompt _
    obtain ⟨⟨P, new⟩, hP, rfl⟩ := Option.map_eq_some_iff.1 h
    exact .inr ⟨hprompt, rfl, rfl, (moves_of_advance hP).rank_lt hprompt⟩

/-- Every step but at the end of the file reads from it, or brings an inner loop closer to its
end. -/
theorem rank_mainStep (h : mainStep a m = some m') (hend : ¬AtEnd m) : m'.rank < m.rank := by
  rw [Main.rank, Main.rank, Prod.Lex.toLex_lt_toLex]
  rcases mainStep_eq_some h with ⟨hprompt, hfile, -⟩ | ⟨-, hfile, -, hrank⟩
  · left
    cases hget : getline m.file with
    | none => exact absurd ⟨hprompt, getline_eq_none.1 hget⟩ hend
    | some r =>
      rw [hfile, read, hget]
      exact length_getline (show getline m.file = some (r.1, r.2) from hget)
  · exact .inr ⟨congrArg List.length hfile, hrank⟩

/-- Only a path command keeps a process of a shell from its next step. -/
theorem advance_line_eq_none {p1 : Str} {rest : List Str} (h : P.phase = .line (p1 :: rest)) :
    advance procs a P = none ↔
      (args p1).head? = some path ∧ (pathCommand P.state.path_ptr (args p1)).2 = none := by
  have hpath : path ≠ exit ∧ path ≠ cd := by decide
  rw [advance, h]
  dsimp only
  split
  · rename_i hnil
    simp [hnil]
  · rename_i w ws hargs
    rw [hargs, List.head?_cons, Option.some.injEq]
    split
    · rename_i he
      simp [he, hpath.1.symm]
    split
    · rename_i hc
      split <;> simp [hc, hpath.2.symm]
    split
    · rename_i hp
      rw [hp] at hargs ⊢
      rw [piece_path hargs, hargs]
      simp
    · rename_i hp
      simp [hp]

/-- Main goes on, unless it has ended or a path command goes wrong. -/
theorem exists_mainStep (hdone : m.process.phase ≠ .done) (hbad : ¬BadPath m) :
    ∃ m', mainStep a m = some m' := by
  rw [mainStep]
  cases hphase : m.process.phase with
  | prompt =>
    simp only [advance, hphase]
    split <;> exact ⟨_, rfl⟩
  | line rest =>
    cases rest with
    | nil => exact ⟨_, by rw [advance, hphase]; rfl⟩
    | cons p1 rest =>
      refine Option.ne_none_iff_exists'.1 fun hnone => hbad ?_
      exact ⟨p1, rest, hphase, (advance_line_eq_none hphase).1 (Option.map_eq_none_iff.1 hnone)⟩
  | commands success cmds rest =>
    cases cmds with
    | nil => exact ⟨_, by rw [advance, hphase]; rfl⟩
    | cons cmd cmds =>
      simp only [advance, hphase]
      split <;> exact ⟨_, rfl⟩
  | search f =>
    simp only [advance, hphase]
    repeat' split
    all_goals exact ⟨_, rfl⟩
  | child file f =>
    simp only [advance, hphase]
    split <;> exact ⟨_, rfl⟩
  | waiting rc f => exact ⟨_, rfl⟩
  | program file argv output => exact ⟨_, by rw [advance, hphase]; rfl⟩
  | done => exact absurd hphase hdone

theorem mainStep_done (h : m.process.phase = .done) : mainStep a m = none := by
  rw [mainStep, h]
  simp only [advance, h]
  rfl

theorem mainStep_badPath (h : BadPath m) : mainStep a m = none := by
  obtain ⟨p1, rest, hphase, hpath⟩ := h
  rw [mainStep, hphase]
  exact Option.map_eq_none_iff.2 ((advance_line_eq_none hphase).2 hpath)

@[simp] theorem fileLines_nil : fileLines [] = [] := rfl

theorem fileLines_of_getline {file line rest : List UInt8} (h : getline file = some (line, rest)) :
    fileLines file = cstr line :: fileLines rest := by
  rw [fileLines, lines_of_getline h]
  rfl

/-- Main loses no line of the file. -/
theorem lines_mainStep (h : mainStep a m = some m') :
    m.lines ++ fileLines m.file <+: m'.lines ++ fileLines m'.file ∧
      (¬AtEnd m → m'.lines ++ fileLines m'.file = m.lines ++ fileLines m.file) := by
  rcases mainStep_eq_some h with ⟨hprompt, hfile, hlines⟩ | ⟨-, hfile, hlines, -⟩
  · rw [hlines, hfile, read]
    cases hget : getline m.file with
    | none =>
      have hnil := getline_eq_none.1 hget
      refine ⟨?_, fun hend => absurd ⟨hprompt, hnil⟩ hend⟩
      rw [hnil, fileLines_nil, List.append_nil, List.append_assoc]
      exact List.prefix_append _ _
    | some r =>
      have heq : m.lines ++ [cstr r.1] ++ fileLines r.2 = m.lines ++ fileLines m.file := by
        rw [List.append_assoc, List.singleton_append, ← fileLines_of_getline hget]
      exact ⟨heq ▸ List.prefix_refl _, fun _ => heq⟩
  · rw [hfile, hlines]
    exact ⟨List.prefix_refl _, fun _ => rfl⟩

end Steps

/-! ### Runs -/

section Runs

variable {answers : ℕ → Answers} {file : List UInt8} {m m' : Main} {n k : ℕ}

/-- Main neither calls `getline` at the end of the file nor executes a path command that goes
wrong. -/
def EndsBefore (answers : ℕ → Answers) (file : List UInt8) : Prop :=
  ∀ n m, mainRun answers file n = some m → ¬AtEnd m ∧ ¬BadPath m

theorem mainRun_succ (h : mainRun answers file n = some m) :
    mainRun answers file (n + 1) = mainStep (answers n) m := by
  rw [mainRun, h, Option.bind_some]

theorem lines_mainRun (hrun : mainRun answers file n = some m) :
    fileLines file <+: m.lines ++ fileLines m.file ∧
      (EndsBefore answers file → m.lines ++ fileLines m.file = fileLines file) := by
  induction n generalizing m with
  | zero =>
    cases hrun
    exact ⟨List.prefix_refl _, fun _ => rfl⟩
  | succ n ih =>
    obtain ⟨m', hm', hstep⟩ := Option.bind_eq_some_iff.1 hrun
    obtain ⟨hpre, heq⟩ := lines_mainStep hstep
    obtain ⟨hpre', heq'⟩ := ih hm'
    exact ⟨hpre'.trans hpre, fun h => (heq (h n m' hm').1).trans (heq' h)⟩

/-- All loops end where there is always a line to read. -/
theorem exists_done (h : EndsBefore answers file) (hrun : mainRun answers file n = some m) :
    ∃ k m', mainRun answers file k = some m' ∧ m'.process.phase = .done := by
  induction hrank : m.rank using WellFoundedLT.induction generalizing n m with
  | ind r ih =>
    by_cases hdone : m.process.phase = .done
    · exact ⟨n, m, hrun, hdone⟩
    · obtain ⟨hend, hbad⟩ := h n m hrun
      obtain ⟨m', hstep⟩ := exists_mainStep (a := answers n) hdone hbad
      exact ih m'.rank (hrank ▸ rank_mainStep hstep hend) ((mainRun_succ hrun).trans hstep) rfl

/-- Where main takes no step the run is over. -/
theorem le_of_stop (h : mainRun answers file n = some m) (hstop : mainStep (answers n) m = none)
    (h' : mainRun answers file k = some m') : k ≤ n := by
  by_contra hlt
  obtain ⟨j, rfl⟩ : ∃ j, k = n + 1 + j := Nat.exists_eq_add_of_le (Nat.not_le.1 hlt)
  have hnone : mainRun answers file (n + 1 + j) = none := by
    clear h' hlt
    induction j with
    | zero => exact (mainRun_succ h).trans hstop
    | succ j ih =>
      rw [← Nat.add_assoc, mainRun, ih]
      rfl
  rw [hnone] at h'
  cases h'

/-- A run has passed through a point after each number of steps, and the lines it had got there
stay. -/
theorem mainRun_split (h : mainRun answers file (n + k) = some m) :
    ∃ m', mainRun answers file n = some m' ∧ m'.lines <+: m.lines := by
  induction k generalizing m with
  | zero => exact ⟨m, h, List.prefix_refl _⟩
  | succ k ih =>
    obtain ⟨m'', hm'', hstep⟩ := Option.bind_eq_some_iff.1 h
    obtain ⟨m', hm', hpre⟩ := ih hm''
    refine ⟨m', hm', hpre.trans ?_⟩
    rcases mainStep_eq_some hstep with ⟨-, -, hlines⟩ | ⟨-, -, hlines, -⟩ <;> rw [hlines]
    · exact List.prefix_append _ _

/-- **Main processes the lines of a batch file**, each of them once, and ends, exactly if a command
ends it before it comes to the end of the file or to a path command that goes wrong. -/
theorem finishes_iff (answers : ℕ → Answers) (file : List UInt8) :
    Finishes answers file ↔ EndsBefore answers file := by
  constructor
  · rintro ⟨n, m, hrun, hdone, hlines⟩ k m' hrun'
    have hle := le_of_stop hrun (mainStep_done hdone) hrun'
    constructor
    · rintro ⟨hprompt, hnil⟩
      have hne : k ≠ n := by
        rintro rfl
        obtain rfl := Option.some.inj (hrun.symm.trans hrun')
        rw [hdone] at hprompt
        cases hprompt
      -- The buffer is one line more than there are in the file.
      obtain ⟨j, rfl⟩ : ∃ j, n = k + 1 + j := Nat.exists_eq_add_of_le (by omega)
      obtain ⟨m₁, hrun₁, hpre₁⟩ := mainRun_split hrun
      rcases mainStep_eq_some ((mainRun_succ hrun').symm.trans hrun₁) with ⟨-, -, hlines₁⟩ |
        ⟨hne, -⟩
      · have hall := (lines_mainRun hrun').1.length_le
        have hle₁ := (hpre₁.trans hlines).length_le
        rw [hlines₁, List.length_append, List.length_singleton] at hle₁
        rw [hnil, fileLines_nil, List.append_nil] at hall
        omega
      · exact hne hprompt
    · intro hbad
      have hge := le_of_stop hrun' (mainStep_badPath hbad) hrun
      obtain rfl := Nat.le_antisymm hle hge
      obtain rfl := Option.some.inj (hrun.symm.trans hrun')
      obtain ⟨p1, rest, hphase, -⟩ := hbad
      rw [hdone] at hphase
      cases hphase
  · intro h
    obtain ⟨n, m, hrun, hdone⟩ := exists_done h (n := 0) rfl
    refine ⟨n, m, hrun, hdone, ?_⟩
    rw [← (lines_mainRun hrun).2 h]
    exact List.prefix_append _ _

/-! ### Behind the file -/

/-- Main is behind the end of the file, at an empty line. -/
def Idle (m : Main) : Prop :=
  m.file = [] ∧
    (m.process.phase = .prompt ∨ m.process.phase = .line [[]] ∨ m.process.phase = .line [])

theorem idle_mainStep {a : Answers} (h : Idle m) (hline : cstr a.line = []) :
    ∃ m', mainStep a m = some m' ∧ Idle m' := by
  obtain ⟨hfile, hphase | hphase | hphase⟩ := h
  · have hread : read m.file a.line = (a.line, []) := by rw [hfile]; rfl
    have hcheck : checksyntax a.access m.process.state.path_ptr [] = true := by rfl
    rw [mainStep, hphase]
    simp only [hread, hline, advance, hphase, hcheck, if_true]
    exact ⟨_, rfl, rfl, .inr (.inl rfl)⟩
  · rw [mainStep, hphase]
    simp only [advance, hphase]
    exact ⟨_, rfl, hfile, .inr (.inr rfl)⟩
  · rw [mainStep, hphase]
    simp only [advance, hphase]
    exact ⟨_, rfl, hfile, .inl rfl⟩

/-- Main never ends behind the file, while the buffer holds the empty string. -/
theorem endless (h : mainRun answers file n = some m) (hidle : Idle m)
    (hline : ∀ k, cstr (answers (n + k)).line = []) :
    ∃ m', mainRun answers file (n + k) = some m' ∧ Idle m' := by
  induction k with
  | zero => exact ⟨m, h, hidle⟩
  | succ k ih =>
    obtain ⟨m', hrun, hidle'⟩ := ih
    obtain ⟨m'', hstep, hidle''⟩ := idle_mainStep hidle' (hline k)
    exact ⟨m'', (mainRun_succ hrun).trans hstep, hidle''⟩

/-- The answers of a system where the buffer stays empty. -/
def silent : Answers := ⟨[], fun _ => false, fun _ _ => true, true, true⟩

/-- The empty file: main goes on with empty lines for ever. -/
theorem not_finishes : ¬∀ answers file, Finishes answers file := by
  intro h
  obtain ⟨n, m, hrun, hdone, -⟩ := h (fun _ => silent) []
  have hstart : mainRun (fun _ => silent) [] 0 = some ⟨⟨⟨[bin], []⟩, .prompt⟩, [], []⟩ := rfl
  obtain ⟨m', hrun', -, hphase⟩ := endless (k := n) hstart ⟨rfl, .inl rfl⟩ fun _ => rfl
  rw [Nat.zero_add] at hrun'
  obtain rfl := Option.some.inj (hrun.symm.trans hrun')
  rw [hdone] at hphase
  rcases hphase with hphase | hphase | hphase <;> cases hphase

end Runs

end OsProjects.Shell
