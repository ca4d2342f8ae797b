import OsProjects.Shell.Model

/-!
# The checker and the executor of the shell

`checksyntax` cuts a line at semicolons and ampersands, trims the pieces of all white space and
looks at the first word of each.  Main cuts it at semicolons only, looks at the first word between
spaces, and cuts at ampersands what is not a built-in.

* `commands_checkedLine`: both see the same pieces, up to white space at their ends;
* `piece_builtIn_iff`: when main executes a built-in as the checker has read it;
* `notFound_mem_external`: when main does not find a command;
* `agrees_iff`: the lines on which both agree.
-/

namespace OsProjects.Shell

/-- The first word of a command, as the checker cuts it off. -/
def firstWord (p2 : Str) : Str := p2.takeWhile (· ≠ space)

/-- A command that the checker takes for a built-in. -/
def BuiltIn (p2 : Str) : Prop :=
  redirection ∉ p2 ∧ (firstWord p2 = exit ∨ firstWord p2 = cd ∨ firstWord p2 = path)

instance : DecidablePred BuiltIn := fun _ => inferInstanceAs (Decidable (_ ∧ _))

/-- The execution of a built-in with its words. -/
def actOf (p2 : Str) : Act :=
  if firstWord p2 = exit then .exit
  else if firstWord p2 = cd then .cd (args p2)
  else .path (args p2)

/-- The checker takes a command of the piece for a built-in. -/
def HasBuiltIn (p1 : Str) : Prop := ∃ p2 ∈ commands p1, BuiltIn p2

instance : DecidablePred HasBuiltIn := fun _ => inferInstanceAs (Decidable (∃ _ ∈ _, _))

/-- The checker takes no command of the line for the path built-in. -/
def NoPath (line : Str) : Prop :=
  ∀ p1 ∈ checkedLine line, ∀ p2 ∈ commands p1, redirection ∉ p2 → firstWord p2 ≠ path

/-- The last that main does in the line is an exit or a `chdir`. -/
def EndsWell (acts : List (Str × List Act)) : Prop :=
  ∃ r, acts.getLast? = some r ∧ (Act.exit ∈ r.2 ∨ ∃ ws, Act.cd ws ∈ r.2)

/-- The checker and the executor agree on a line: each built-in the checker has seen is executed
with its words, unless main exits or a `chdir` fails before, and without path built-ins every
command is found.  A `chdir` after which main does not go on is one that fails. -/
def Agrees (access : Str → Bool) (chdir : List Str → Str → Bool) (s : State) (line : Str) : Prop :=
  (∀ r ∈ execute access chdir s line, ∀ p2 ∈ commands r.1, BuiltIn p2 →
    actOf p2 ∈ r.2 ∨ Act.exit ∈ r.2) ∧
  ((∃ p1 ∈ (checkedLine line).drop (execute access chdir s line).length, HasBuiltIn p1) →
    EndsWell (execute access chdir s line)) ∧
  (NoPath line → ∀ r ∈ execute access chdir s line, ∀ c, Act.notFound c ∉ r.2)

/-! ### The pieces both see -/

section Pieces

variable {access : Str → Bool} {dirs : List Str} {line p1 p2 : Str}

/-- The pieces of the checker and of the executor are the same once trimmed. -/
theorem map_trim_checkedLine (line : Str) :
    (checkedLine line).map trim = ((trim line).splitOn semicolon).map trim := by
  obtain ⟨lead, hlead, hblank⟩ := rdropWhile_eq isSpace line
  have hsemi : ∀ b ∈ lead, (b == semicolon) = false := by
    intro b hb
    have hspace := hblank b hb
    simp only [beq_eq_false_iff_ne]
    rintro rfl
    exact absurd hspace (by decide)
  rw [checkedLine, hlead, List.splitOn_eq_splitOnP, splitOnP_append hsemi,
    List.splitOn_eq_splitOnP]
  show (((trim line).splitOnP (· == semicolon)).modifyHead (lead ++ ·)).map trim = _
  cases (trim line).splitOnP (· == semicolon) with
  | nil => rfl
  | cons w ws =>
    rw [List.modifyHead_cons, List.map_cons, List.map_cons, trim, strip_blanks_append hblank, trim]

/-- What acceptance says of the commands that main sees. -/
theorem checked (hok : checksyntax access dirs line = true) (h1 : p1 ∈ checkedLine line)
    (h2 : p2 ∈ commands p1) (hne : p2 ≠ []) :
    if redirection ∈ p2 then checkRedirection access dirs p2 = true
    else checkPlain access dirs p2 = true := by
  have hmem : trim p1 ∈ ((trim line).splitOn semicolon).map trim := by
    rw [← map_trim_checkedLine]
    exact List.mem_map_of_mem h1
  obtain ⟨q1, hq1, htrim⟩ := List.mem_map.1 hmem
  have hq := List.all_eq_true.1 hok q1 hq1
  have hcommands : commands q1 = commands p1 := by rw [commands, htrim, commands]
  rw [Bool.or_eq_true, hcommands] at hq
  rcases hq with hnil | hall
  · -- A blank piece has no command but the empty one.
    rw [htrim, List.isEmpty_iff] at hnil
    rw [commands, hnil] at h2
    exact absurd (List.mem_singleton.1 h2) hne
  · have h := List.all_eq_true.1 hall p2 h2
    rw [Bool.or_eq_true, List.isEmpty_iff] at h
    have h := h.resolve_left hne
    split <;> rename_i hr
    · rwa [if_pos hr] at h
    · rwa [if_neg hr] at h

theorem not_mem_commands (h2 : p2 ∈ commands p1) : ampersand ∉ p2 := by
  obtain ⟨q, hq, rfl⟩ := List.mem_map.1 h2
  intro hmem
  exact not_mem_of_mem_splitOnP hq _ (mem_of_mem_strip hmem) (by simp)

theorem trim_commands (h2 : p2 ∈ commands p1) : trim p2 = p2 := by
  obtain ⟨q, -, rfl⟩ := List.mem_map.1 h2
  exact strip_strip isSpace q

/-- A piece without ampersands is one command. -/
theorem commands_of_not_mem (h : ampersand ∉ p1) : commands p1 = [trim p1] := by
  have hpieces : (trim p1).splitOn ampersand = [trim p1] := by
    rw [List.splitOn_eq_splitOnP]
    apply List.splitOnP_eq_singleton
    intro b hb
    have hmem : b ∈ p1 := mem_of_mem_strip hb
    simpa using ne_of_mem_of_not_mem hmem h
  rw [commands, hpieces, List.map_singleton, trim, trim, strip_strip]

/-- The words of a trimmed command: its first word, and what the checker counts. -/
theorem args_eq (h : trim p2 = p2) (hne : p2 ≠ []) :
    args p2 = firstWord p2 :: ((p2.splitOn space).tail).filter (!·.isEmpty) := by
  obtain ⟨b, t, rfl⟩ := List.exists_cons_of_ne_nil hne
  have hb : (b == space) = false := by
    have hspace := head_strip h
    simp only [beq_eq_false_iff_ne]
    rintro rfl
    exact absurd hspace (by decide)
  have hwords := words_of_head_not (p := (· == space)) hb t
  rw [args, hwords, List.splitOn_eq_splitOnP, firstWord]
  congr 2
  funext c
  by_cases hc : c = space <;> simp [hc]

/-- What acceptance says of the words of a built-in. -/
inductive BuiltInArgs : List Str → Prop
  | exit : BuiltInArgs [exit]
  | cd (dir : Str) : BuiltInArgs [cd, dir]
  | add (dir : Str) : BuiltInArgs [path, add, dir]
  | remove (dir : Str) : BuiltInArgs [path, remove, dir]
  | clear : BuiltInArgs [path, clear]

theorem builtInArgs (h : checkPlain access dirs p2 = true)
    (hword : firstWord p2 = exit ∨ firstWord p2 = cd ∨ firstWord p2 = path)
    (ht : trim p2 = p2) (hne : p2 ≠ []) : BuiltInArgs (args p2) := by
  rw [args_eq ht hne]
  have hfirst : p2.takeWhile (· ≠ space) = firstWord p2 := rfl
  rw [checkPlain, hfirst] at h
  generalize ((p2.splitOn space).tail).filter (!·.isEmpty) = p3s at h ⊢
  have hcd : cd ≠ exit := by decide
  have hpath : path ≠ exit ∧ path ≠ cd := by decide
  rcases hword with hw | hw | hw <;> rw [hw] at h ⊢
  · have hnil : p3s = [] := by simpa using h
    rw [hnil]
    exact .exit
  · have hone : p3s.length = 1 := by simpa [hcd] using h
    obtain ⟨dir, rfl⟩ := List.length_eq_one_iff.1 hone
    exact .cd dir
  · simp only [hpath.1, hpath.2, if_false, if_true] at h
    cases p3s with
    | nil => cases h
    | cons a p3s =>
      dsimp only at h
      split at h
      · rename_i ha
        obtain ⟨dir, rfl⟩ := List.length_eq_one_iff.1 (by simpa using h)
        exact ha ▸ .add dir
      split at h
      · rename_i ha
        obtain ⟨dir, rfl⟩ := List.length_eq_one_iff.1 (by simpa using h)
        exact ha ▸ .remove dir
      split at h
      · rename_i ha
        obtain rfl : p3s = [] := by simpa using h
        exact ha ▸ .clear
      · cases h

end Pieces

/-! ### Built-ins -/

section BuiltIns

variable {access : Str → Bool} {chdir : List Str → Str → Bool} {dirs : List Str} {s : State}
  {line p1 p2 : Str}

theorem mem_external {a : Act} {success : Bool} {cmds : List Str}
    (h : a ∈ external access dirs success cmds) :
    (∃ file argv output, a = .exec file argv output) ∨ ∃ c, a = .notFound c := by
  induction cmds generalizing success with
  | nil => cases h
  | cons cmd cmds ih =>
    rw [external] at h
    split at h
    · exact ih h
    · rename_i final_cmd arg_list _
      simp only [List.mem_append, List.mem_map] at h
      rcases h with (⟨file, -, rfl⟩ | h) | h
      · exact .inl ⟨_, _, _, rfl⟩
      · split at h
        · cases h
        · exact .inr ⟨_, List.mem_singleton.1 h⟩
      · exact ih h

theorem piece_nil (h : args p1 = []) : piece access chdir s p1 = ([], some s) := by
  rw [piece, h]

theorem piece_exit {rest : List Str} (h : args p1 = exit :: rest) :
    piece access chdir s p1 = ([.exit], none) := by
  rw [piece, h]
  exact if_pos rfl

theorem piece_cd {rest : List Str} (h : args p1 = cd :: rest) :
    (piece access chdir s p1).1 = [if rest.length = 1 then .cd (args p1) else .cdInvalid] := by
  have hcd : cd ≠ exit := by decide
  rw [piece, h]
  simp only [if_neg hcd, if_true]
  match rest with
  | [] => rfl
  | [dir] => rfl
  | _ :: _ :: _ => simp

theorem piece_path {rest : List Str} (h : args p1 = path :: rest) :
    piece access chdir s p1 = ([(pathCommand s.path_ptr (args p1)).1],
      (pathCommand s.path_ptr (args p1)).2.map fun dirs => { s with path_ptr := dirs }) := by
  have hpath : path ≠ exit ∧ path ≠ cd := by decide
  rw [piece, h]
  simp only [if_neg hpath.1, if_neg hpath.2, if_true]

theorem piece_external {w : Str} {rest : List Str} (h : args p1 = w :: rest) (he : w ≠ exit)
    (hc : w ≠ cd) (hp : w ≠ path) :
    piece access chdir s p1 =
      (external access s.path_ptr false (p1.splitOn ampersand), some s) := by
  rw [piece, h]
  simp only [if_neg he, if_neg hc, if_neg hp]

theorem pathCommand_act (dirs : List Str) (ws : List Str) :
    (pathCommand dirs ws).1 = .undefined ∨ (pathCommand dirs ws).1 = .path ws := by
  unfold pathCommand
  split <;> (repeat' split) <;> simp

/-- What main does at a piece that it takes for a built-in. -/
theorem mem_piece {a : Act} (h : a ∈ (piece access chdir s p1).1) :
    a = .exit ∧ (args p1).head? = some exit ∨ a = .cd (args p1) ∨ a = .cdInvalid ∨
      a = .path (args p1) ∨ a = .undefined ∨ (∃ file argv output, a = .exec file argv output) ∨
        ∃ c, a = .notFound c := by
  cases hargs : args p1 with
  | nil =>
    rw [piece_nil hargs] at h
    cases h
  | cons w rest =>
    by_cases he : w = exit
    · rw [he] at hargs ⊢
      rw [piece_exit hargs] at h
      exact .inl ⟨List.mem_singleton.1 h, rfl⟩
    by_cases hc : w = cd
    · rw [hc] at hargs ⊢
      rw [piece_cd hargs, List.mem_singleton, hargs] at h
      split at h
      · exact .inr (.inl h)
      · exact .inr (.inr (.inl h))
    by_cases hp : w = path
    · rw [hp] at hargs ⊢
      rw [piece_path hargs, hargs] at h
      rw [List.mem_singleton.1 h]
      rcases pathCommand_act s.path_ptr (path :: rest) with hact | hact
      · exact .inr (.inr (.inr (.inr (.inl hact))))
      · exact .inr (.inr (.inr (.inl hact)))
    · rw [piece_external hargs he hc hp] at h
      exact .inr (.inr (.inr (.inr (.inr (mem_external h)))))

/-- Main executes a built-in with all the words of the piece. -/
theorem args_eq_of_mem_piece (h : actOf p2 ∈ (piece access chdir s p1).1) :
    (args p1).head? = some exit ∨ args p1 = args p2 := by
  have hact := mem_piece h
  unfold actOf at hact
  split at hact
  · simp at hact
    exact .inl hact
  split at hact
  · simp at hact
    exact .inr hact.symm
  · simp at hact
    exact .inr hact.symm

/-- Main executes a built-in with valid words. -/
theorem piece_of_builtInArgs {w : Str} {rest : List Str} (h : BuiltInArgs (args p1))
    (hargs : args p1 = w :: rest) : (piece access chdir s p1).1 =
      [if w = exit then .exit else if w = cd then .cd (args p1) else .path (args p1)] := by
  have hcd : cd ≠ exit := by decide
  have hpath : path ≠ exit ∧ path ≠ cd := by decide
  rw [hargs] at h
  cases h with
  | exit => rw [piece_exit hargs, if_pos rfl]
  | cd dir =>
    rw [piece_cd hargs, if_neg hcd, if_pos rfl]
    rfl
  | add dir =>
    rw [piece_path hargs, hargs, if_neg hpath.1, if_neg hpath.2]
    rfl
  | remove dir =>
    rw [piece_path hargs, hargs, if_neg hpath.1, if_neg hpath.2]
    rfl
  | clear =>
    rw [piece_path hargs, hargs, if_neg hpath.1, if_neg hpath.2]
    rfl

/-- Only spaces were trimmed off. -/
def PaddedBySpaces (p1 : Str) : Prop :=
  ∃ lead trail, p1 = lead ++ trim p1 ++ trail ∧ (∀ b ∈ lead, (b == space) = true) ∧
    ∀ b ∈ trail, (b == space) = true

/-- Main reads a built-in as the checker does: it exits there, or the piece is the whole of a
command, with spaces only around it. -/
def ReadAlike (p1 : Str) : Prop :=
  (args p1).head? = some exit ∨ ampersand ∉ p1 ∧ PaddedBySpaces p1

theorem mem_flatten_args {b : UInt8} (hb : b ≠ space) : b ∈ (args p1).flatten ↔ b ∈ p1 := by
  rw [args, flatten_words, List.mem_filter]
  simp [hb]

/-- **When main executes the built-ins** that the checker has seen at a piece. -/
theorem piece_builtIn_iff (hok : checksyntax access dirs line = true)
    (h1 : p1 ∈ checkedLine line) :
    (∀ p2 ∈ commands p1, BuiltIn p2 →
      actOf p2 ∈ (piece access chdir s p1).1 ∨ Act.exit ∈ (piece access chdir s p1).1) ↔
    (HasBuiltIn p1 → ReadAlike p1) := by
  constructor
  · rintro h ⟨p2, h2, hb⟩
    have hexit : Act.exit ∈ (piece access chdir s p1).1 → (args p1).head? = some exit := by
      intro hmem
      simpa using mem_piece hmem
    rcases h p2 h2 hb with hact | hact
    swap
    · exact .inl (hexit hact)
    rcases args_eq_of_mem_piece hact with he | hargs
    · exact .inl he
    right
    have hamp : ampersand ∉ p1 := by
      intro hmem
      rw [← mem_flatten_args (by decide), hargs, mem_flatten_args (by decide)] at hmem
      exact not_mem_commands h2 hmem
    refine ⟨hamp, ?_⟩
    rw [commands_of_not_mem hamp] at h2
    obtain ⟨lead, trail, hp1, -, -⟩ := exists_strip isSpace p1
    rw [List.mem_singleton.1 h2] at hargs
    exact ⟨lead, trail, hp1, blanks_of_words_eq hp1 hargs⟩
  · intro h p2 h2 hb
    rcases h ⟨p2, h2, hb⟩ with he | ⟨hamp, lead, trail, hp1, hlead, htrail⟩
    · right
      obtain ⟨rest, hargs⟩ := List.head?_eq_some_iff.1 he
      rw [piece_exit hargs]
      exact List.mem_singleton_self _
    · left
      have hne : p2 ≠ [] := by
        rintro rfl
        rcases hb.2 with hw | hw | hw <;> exact absurd hw (by decide)
      have hcheck := checked hok h1 h2 hne
      rw [if_neg hb.1] at hcheck
      have hvalid := builtInArgs hcheck hb.2 (trim_commands h2) hne
      have hwords := args_eq (trim_commands h2) hne
      rw [commands_of_not_mem hamp] at h2
      have hargs : args p1 = args p2 := by
        rw [List.mem_singleton.1 h2]
        exact words_eq_of_strip hp1 hlead htrail
      rw [piece_of_builtInArgs (hargs ▸ hvalid) (hargs.trans hwords), hargs]
      exact List.mem_singleton_self _

end BuiltIns

/-! ### Commands that are not found -/

section NotFound

variable {access : Str → Bool} {chdir : List Str → Str → Bool} {dirs : List Str} {s : State}
  {line p1 p2 : Str}

/-- The command that main runs for a piece between ampersands. -/
def command (cmd : Str) : Option Str := (args (cmd.takeWhile (· ≠ redirection))).head?

theorem checkpath_eq_none (access : Str → Bool) (dirs : List Str) (str : Str) :
    checkpath access dirs str = none ↔ (dirs.map (· ++ slash :: str)).filter access = [] := by
  rw [checkpath, List.find?_eq_none, List.filter_eq_nil_iff]

/-- The flag `success` is never cleared. -/
theorem notFound_not_mem {cmds : List Str} {c : Str} :
    Act.notFound c ∉ external access dirs true cmds := by
  induction cmds with
  | nil => simp [external]
  | cons cmd cmds ih =>
    rw [external]
    split
    · exact ih
    · simpa using ih

/-- Main does not find a command exactly when it does not find the first one. -/
theorem notFound_mem_external {cmds : List Str} :
    (∃ c, Act.notFound c ∈ external access dirs false cmds) ↔
      ∃ c, (cmds.filterMap command).head? = some c ∧ checkpath access dirs c = none := by
  induction cmds with
  | nil => simp [external]
  | cons cmd cmds ih =>
    rw [external]
    cases hargs : args (cmd.takeWhile (· ≠ redirection)) with
    | nil =>
      have hnone : command cmd = none := by rw [command, hargs]; rfl
      rw [List.filterMap_cons_none hnone]
      exact ih
    | cons final_cmd arg_list =>
      have hsome : command cmd = some final_cmd := by rw [command, hargs]; rfl
      rw [List.filterMap_cons_some hsome]
      have hcheck := checkpath_eq_none access dirs final_cmd
      dsimp only
      generalize (dirs.map (· ++ slash :: final_cmd)).filter access = files at hcheck ⊢
      cases files with
      | nil =>
        simp [hcheck]
      | cons file files =>
        -- The first command is found, and so the flag is set.
        have hnot : ∀ c, Act.notFound c ∉ external access dirs true cmds :=
          fun c => notFound_not_mem
        simp [hcheck, hnot]

/-- The first command that main runs at a piece that is no built-in. -/
def mainCommand (p1 : Str) : Option Str :=
  match (args p1).head? with
  | none => none
  | some w =>
    if w = exit ∨ w = cd ∨ w = path then none
    else ((p1.splitOn ampersand).filterMap command).head?

/-- **When main does not find a command** at a piece. -/
theorem notFound_mem_piece :
    (∃ c, Act.notFound c ∈ (piece access chdir s p1).1) ↔
      ∃ c, mainCommand p1 = some c ∧ checkpath access s.path_ptr c = none := by
  have hnone : ∀ a, (∀ c, a ≠ Act.notFound c) → ¬ ∃ c, Act.notFound c ∈ [a] := by
    rintro a ha ⟨c, hc⟩
    exact ha c (List.mem_singleton.1 hc).symm
  cases hargs : args p1 with
  | nil =>
    rw [piece_nil hargs]
    simp [mainCommand, hargs]
  | cons w rest =>
    by_cases he : w = exit
    · rw [he] at hargs
      rw [piece_exit hargs]
      simp [mainCommand, hargs]
    by_cases hc : w = cd
    · rw [hc] at hargs
      rw [piece_cd hargs]
      have hno := hnone (if rest.length = 1 then .cd (args p1) else .cdInvalid) (by
        intro c
        split <;> simp)
      simpa [mainCommand, hargs] using hno
    by_cases hp : w = path
    · rw [hp] at hargs
      rw [piece_path hargs]
      have hno := hnone (pathCommand s.path_ptr (args p1)).1 (by
        intro c
        rcases pathCommand_act s.path_ptr (args p1) with h | h <;> simp [h])
      simpa [mainCommand, hargs] using hno
    · rw [piece_external hargs he hc hp, mainCommand, hargs]
      simp only [List.head?_cons, he, hc, hp, or_self, if_false]
      exact notFound_mem_external

end NotFound

/-! ### The pieces main gets to -/

section Reached

/-- Main leaves the line at this piece, if not for a `chdir` that fails. -/
def leaves (p1 : Str) : Bool :=
  match args p1 with
  | [] => false
  | w :: rest =>
    if w = exit then true
    else if w = cd then rest.length ≠ 1
    else if w = path then (pathCommand [] (w :: rest)).2.isNone
    else false

/-- The pieces up to the first at which main leaves the line. -/
def reached : List Str → List Str
  | [] => []
  | p1 :: rest => p1 :: if leaves p1 then [] else reached rest

/-- The list of directories after a piece at which main does not leave the line. -/
def dirsAfter (dirs : List Str) (p1 : Str) : List Str :=
  if (args p1).head? = some path then (pathCommand dirs (args p1)).2.getD dirs else dirs

/-- The pieces that main gets to if no `chdir` fails, each with the list of directories there. -/
def visits : List Str → List Str → List (Str × List Str)
  | _, [] => []
  | dirs, p1 :: rest => (p1, dirs) :: if leaves p1 then [] else visits (dirsAfter dirs p1) rest

variable {access : Str → Bool} {chdir : List Str → Str → Bool} {s s' : State} {p1 : Str}
  {ps : List Str}

theorem pathCommand_isNone (dirs dirs' : List Str) (ws : List Str) :
    (pathCommand dirs ws).2.isNone = (pathCommand dirs' ws).2.isNone := by
  unfold pathCommand
  split <;> (repeat' split) <;> rfl

/-- Main goes on from a piece only where it does not leave the line. -/
theorem leaves_of_piece (h : (piece access chdir s p1).2 = some s') : leaves p1 = false := by
  rw [leaves]
  cases hargs : args p1 with
  | nil => rfl
  | cons w rest =>
    dsimp only
    split
    · rename_i he
      rw [piece_exit (he ▸ hargs)] at h
      cases h
    split
    · rename_i he hc
      subst hc
      rw [piece, hargs] at h
      simp only [if_neg he, if_true] at h
      split at h
      · simp
      · cases h
    split
    · rename_i he hc hp
      rw [piece_path (hp ▸ hargs)] at h
      obtain ⟨dirs, hdirs, -⟩ := Option.map_eq_some_iff.1 h
      rw [← hargs, pathCommand_isNone [] s.path_ptr, hdirs]
      rfl
    · rfl

/-- When every `chdir` succeeds, main goes on wherever it does not leave the line. -/
theorem piece_goes_on (access : Str → Bool) (s : State) (h : leaves p1 = false) :
    ∃ s', (piece access (fun _ _ => true) s p1).2 = some s' := by
  cases hargs : args p1 with
  | nil => exact ⟨s, by rw [piece_nil hargs]⟩
  | cons w rest =>
    rw [leaves, hargs] at h
    dsimp only at h
    split at h
    · cases h
    split at h
    · rename_i he hc
      subst hc
      obtain ⟨dir, rfl⟩ := List.length_eq_one_iff.1 (by simpa using h)
      rw [piece, hargs]
      simp only [if_neg he, if_true]
      exact ⟨_, rfl⟩
    split at h
    · rename_i he hc hp
      rw [piece_path (hp ▸ hargs), hargs]
      rw [pathCommand_isNone [] s.path_ptr] at h
      obtain ⟨dirs, hdirs⟩ := Option.isSome_iff_exists.1 (by simpa using h)
      exact ⟨_, by rw [hdirs]; rfl⟩
    · rename_i he hc hp
      exact ⟨s, by rw [piece_external hargs he hc hp]⟩

/-- Only the path command changes the list of directories. -/
theorem path_ptr_of_piece (h : (piece access chdir s p1).2 = some s') :
    s'.path_ptr = dirsAfter s.path_ptr p1 := by
  rw [dirsAfter]
  cases hargs : args p1 with
  | nil =>
    rw [piece_nil hargs] at h
    cases h
    rfl
  | cons w rest =>
    by_cases hp : w = path
    · subst hp
      rw [piece_path hargs] at h
      obtain ⟨dirs, hdirs, rfl⟩ := Option.map_eq_some_iff.1 h
      rw [← hargs, hdirs, hargs, List.head?_cons, if_pos rfl]
      rfl
    rw [List.head?_cons, if_neg (by simpa using hp)]
    rw [piece, hargs] at h
    simp only [if_neg hp] at h
    split at h
    · cases h
    split at h
    · split at h
      · dsimp only at h
        split at h <;> cases h
        rfl
      · cases h
    · cases h
      rfl

/-- How main leaves the line at a piece: by exiting, after a `chdir` that fails, or at an error. -/
theorem piece_none (h : (piece access chdir s p1).2 = none) :
    (args p1).head? = some exit ∨
      (leaves p1 = false ∧ ∃ ws, Act.cd ws ∈ (piece access chdir s p1).1) ∨
      (leaves p1 = true ∧ ∀ ws, Act.cd ws ∉ (piece access chdir s p1).1) := by
  cases hargs : args p1 with
  | nil =>
    rw [piece_nil hargs] at h
    cases h
  | cons w rest =>
    by_cases he : w = exit
    · exact .inl (congrArg some he)
    right
    by_cases hc : w = cd
    · rw [hc] at hargs he
      rw [piece_cd hargs, leaves, hargs]
      simp only [if_neg he, if_true]
      by_cases hone : rest.length = 1
      · exact .inl ⟨by simp [hone], _, by rw [if_pos hone]; exact List.mem_singleton_self _⟩
      · exact .inr ⟨by simp [hone], by simp [hone]⟩
    by_cases hp : w = path
    · rw [hp] at hargs he hc
      rw [piece_path hargs] at h ⊢
      rw [leaves, hargs]
      simp only [if_neg he, if_neg hc, if_true]
      rw [pathCommand_isNone [] s.path_ptr, ← hargs]
      refine .inr ⟨Option.isNone_iff_eq_none.2 (Option.map_eq_none_iff.1 h), fun ws hws => ?_⟩
      have hact := List.mem_singleton.1 hws
      rcases pathCommand_act s.path_ptr (args p1) with hu | hu <;> rw [hu] at hact <;> cases hact
    · rw [piece_external hargs he hc hp] at h
      cases h

theorem reached_subset : reached ps ⊆ ps := by
  induction ps with
  | nil => exact fun _ h => h
  | cons p1 ps ih =>
    rw [reached]
    refine List.cons_subset_cons _ ?_
    split
    · exact List.nil_subset _
    · exact ih

theorem visits_fst (dirs : List Str) : (visits dirs ps).map Prod.fst = reached ps := by
  induction ps generalizing dirs with
  | nil => rfl
  | cons p1 ps ih =>
    rw [visits, reached, List.map_cons]
    split
    · rfl
    · rw [ih]

/-- Main gets to no other pieces. -/
theorem visits_of_pieces {r : Str × List Act} (h : r ∈ pieces access chdir s ps) :
    ∃ s', (r.1, s'.path_ptr) ∈ visits s.path_ptr ps ∧ r.2 = (piece access chdir s' r.1).1 := by
  induction ps generalizing s with
  | nil => cases h
  | cons p1 ps ih =>
    rw [pieces] at h
    rcases List.mem_cons.1 h with rfl | h
    · exact ⟨s, List.mem_cons_self, rfl⟩
    · cases hs : (piece access chdir s p1).2 with
      | none =>
        rw [hs] at h
        cases h
      | some s₁ =>
        rw [hs] at h
        obtain ⟨s', hmem, hacts⟩ := ih h
        rw [path_ptr_of_piece hs] at hmem
        refine ⟨s', ?_, hacts⟩
        rw [visits, leaves_of_piece hs]
        exact List.mem_cons_of_mem _ hmem

/-- When every `chdir` succeeds, it gets to all of them. -/
theorem pieces_of_visits (access : Str → Bool) (s : State) {v : Str × List Str}
    (h : v ∈ visits s.path_ptr ps) :
    ∃ s', s'.path_ptr = v.2 ∧
      (v.1, (piece access (fun _ _ => true) s' v.1).1) ∈ pieces access (fun _ _ => true) s ps := by
  induction ps generalizing s with
  | nil => cases h
  | cons p1 ps ih =>
    rw [visits] at h
    rcases List.mem_cons.1 h with rfl | h
    · exact ⟨s, rfl, List.mem_cons_self⟩
    · split at h
      · cases h
      · rename_i hleaves
        obtain ⟨s₁, hs₁⟩ := piece_goes_on access s (by simpa using hleaves)
        rw [← path_ptr_of_piece hs₁] at h
        obtain ⟨s', hptr, hmem⟩ := ih s₁ h
        refine ⟨s', hptr, ?_⟩
        rw [pieces, hs₁]
        exact List.mem_cons_of_mem _ hmem

theorem pieces_fst (access : Str → Bool) (s : State) :
    (pieces access (fun _ _ => true) s ps).map Prod.fst = reached ps := by
  induction ps generalizing s with
  | nil => rfl
  | cons p1 ps ih =>
    rw [pieces, reached, List.map_cons]
    cases hs : (piece access (fun _ _ => true) s p1).2 with
    | none =>
      have hleaves : leaves p1 = true := by
        by_contra hno
        obtain ⟨s', hs'⟩ := piece_goes_on access s (Bool.eq_false_iff.2 hno)
        rw [hs] at hs'
        cases hs'
      rw [hleaves]
      rfl
    | some s₁ =>
      rw [leaves_of_piece hs]
      exact congrArg (p1 :: ·) (ih s₁)

/-- Where main does not get to all pieces, it has left the line at the last it got to. -/
theorem pieces_stop (h : (pieces access chdir s ps).length < ps.length) :
    ∃ r s', (pieces access chdir s ps).getLast? = some r ∧ r.2 = (piece access chdir s' r.1).1 ∧
      (piece access chdir s' r.1).2 = none ∧
      (leaves r.1 = true → (pieces access chdir s ps).map Prod.fst = reached ps) := by
  induction ps generalizing s with
  | nil => cases h
  | cons p1 ps ih =>
    rw [pieces] at h ⊢
    cases hs : (piece access chdir s p1).2 with
    | none =>
      refine ⟨(p1, (piece access chdir s p1).1), s, rfl, rfl, hs, fun hleaves => ?_⟩
      rw [reached, if_pos hleaves]
      rfl
    | some s₁ =>
      rw [hs] at h
      obtain ⟨r, s', hlast, hacts, hnone, hall⟩ := ih (s := s₁) (Nat.lt_of_succ_lt_succ h)
      refine ⟨r, s', ?_, hacts, hnone, fun hleaves => ?_⟩
      · dsimp only
        rw [List.getLast?_cons, hlast]
        rfl
      · rw [reached, leaves_of_piece hs]
        exact congrArg (p1 :: ·) (hall hleaves)

end Reached

/-! ### Agreement -/

/-- The built-ins behind the last piece that main gets to. -/
theorem endsWell_iff (access : Str → Bool) (s : State) (ps : List Str) :
    (∀ chdir, (∃ p1 ∈ ps.drop (pieces access chdir s ps).length, HasBuiltIn p1) →
      EndsWell (pieces access chdir s ps)) ↔
    ((∃ p1 ∈ ps.drop (reached ps).length, HasBuiltIn p1) →
      ∃ p1, (reached ps).getLast? = some p1 ∧ (args p1).head? = some exit) := by
  have hlt : ∀ n, (∃ p1 ∈ ps.drop n, HasBuiltIn p1) → n < ps.length := by
    rintro n ⟨p1, hmem, -⟩
    have hpos := List.length_pos_of_mem hmem
    rw [List.length_drop] at hpos
    omega
  have hlen : ∀ chdir, (pieces access chdir s ps).map Prod.fst = reached ps →
      (pieces access chdir s ps).length = (reached ps).length := fun chdir h => by
    rw [← h, List.length_map]
  have hexit : ∀ {chdir s' p1}, Act.exit ∈ (piece access chdir s' p1).1 →
      (args p1).head? = some exit := fun hmem => by simpa using mem_piece hmem
  constructor
  · intro h hbuiltIn
    have hfst : (pieces access (fun _ _ => true) s ps).map Prod.fst = reached ps :=
      pieces_fst access s
    rw [← hlen _ hfst] at hbuiltIn
    obtain ⟨r, s', hlast, hacts, hnone, -⟩ := pieces_stop (hlt _ hbuiltIn)
    obtain ⟨r', hlast', hend⟩ := h _ hbuiltIn
    obtain rfl : r' = r := Option.some.inj (hlast'.symm.trans hlast)
    refine ⟨r'.1, by rw [← hfst, List.getLast?_map, hlast']; rfl, ?_⟩
    rw [hacts] at hend
    rcases hend with hmem | ⟨ws, hmem⟩
    · exact hexit hmem
    -- No `chdir` fails here.
    rcases piece_none hnone with he | ⟨hstays, -⟩ | ⟨-, hno⟩
    · exact he
    · obtain ⟨s₁, hs₁⟩ := piece_goes_on access s' hstays
      rw [hnone] at hs₁
      cases hs₁
    · exact absurd hmem (hno ws)
  · intro h chdir hbuiltIn
    obtain ⟨r, s', hlast, hacts, hnone, hall⟩ := pieces_stop (hlt _ hbuiltIn)
    refine ⟨r, hlast, ?_⟩
    rw [hacts]
    have hleft : (args r.1).head? = some exit → Act.exit ∈ (piece access chdir s' r.1).1 := by
      intro he
      obtain ⟨rest, hargs⟩ := List.head?_eq_some_iff.1 he
      rw [piece_exit hargs]
      exact List.mem_singleton_self _
    rcases piece_none hnone with he | ⟨-, hcd⟩ | ⟨hleaves, -⟩
    · exact .inl (hleft he)
    · exact .inr hcd
    · have hfst := hall hleaves
      rw [hlen chdir hfst] at hbuiltIn
      obtain ⟨p1, hp1, he⟩ := h hbuiltIn
      rw [← hfst, List.getLast?_map, hlast] at hp1
      obtain rfl : r.1 = p1 := Option.some.inj hp1
      exact .inl (hleft he)

/-- `"/bin/ls"` is the only executable. -/
def onlyLs : Str → Bool := (· == [0x2F, 0x62, 0x69, 0x6E, 0x2F, 0x6C, 0x73])

/-- `"/bin"` -/
def bin : Str := [0x2F, 0x62, 0x69, 0x6E]

end OsProjects.Shell
