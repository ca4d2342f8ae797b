import OsProjects.Shell.Agreement

/-!
# The buffers of the executor

Main collects the words of a built-in in arrays of two and three pointers and the arguments of
a command in one of 1024, and it copies strings into two blocks that it has allocated.  The writes
of a line are listed in their order, up to a piece at which main leaves the line.  The checker
bounds none of them but by the shape of the built-ins that it sees: the words of main are cut at
spaces only, so that an ampersand is one.

* `cdWrites_fit`: the loop of `cd` stays inside its array;
* `pieceWrites_fit_iff`: when a piece does;
* `writes_fit_iff`: when a line does.
-/

namespace OsProjects.Shell

/-- `sizeof(final_cmd)`: the size of a pointer. -/
def pointerSize : ℕ := 8

/-- The buffers that main fills. -/
inductive Buffer
  /-- `buffer_args` of `cd`. -/
  | cdArgs
  /-- `buffer_args` of `path`. -/
  | pathArgs
  | aa
  | new_final_cmd
  | cpy_path
  deriving DecidableEq

/-- A write that leaves a buffer filled up to some number of words or bytes. -/
structure Write where
  buffer : Buffer
  used : ℕ
  capacity : ℕ
  deriving DecidableEq

/-- The write stays inside the buffer. -/
def Write.Fits (w : Write) : Prop := w.used ≤ w.capacity

instance : DecidablePred Write.Fits := fun w => inferInstanceAs (Decidable (w.used ≤ w.capacity))

/-- All writes stay inside their buffers. -/
def StaysInside (ws : List Write) : Prop := ∀ w ∈ ws, w.Fits

/-- The pieces between spaces, from the first that is not empty: what `strsep` returns there, one
after the other. -/
def tokens (s : Str) : List Str := (s.splitOn space).dropWhile List.isEmpty

/-- The loop that collects the words of `cd`. -/
def cdWrites (index : ℕ) : List Str → List Write
  | [] => []
  | buffer_cmd :: rest =>
    if buffer_cmd.length > 0 ∧ index = 2 then []
    else if buffer_cmd.length > 0 then ⟨.cdArgs, index + 1, 2⟩ :: cdWrites (index + 1) rest
    else cdWrites index rest

/-- The loop that collects the words of `path`. -/
def pathWrites (index : ℕ) : List Str → List Write
  | [] => []
  | buffer_cmd :: rest =>
    if index = 4 then []
    else if buffer_cmd.length > 0 then ⟨.pathArgs, index + 1, 3⟩ :: pathWrites (index + 1) rest
    else pathWrites index rest

/-- The loop that collects the arguments of a command. -/
def aaWrites (number : ℕ) : List Str → List Write
  | [] => []
  | cmd_args :: rest =>
    if cmd_args.length > 0 then ⟨.aa, number + 1, 1024⟩ :: aaWrites (number + 1) rest
    else aaWrites number rest

/-- The copies into `cpy_path` for one directory of the path list. -/
def cpyPathWrites (final_cmd data : Str) : List Write :=
  [⟨.cpy_path, data.length + 1, data.length + 512⟩, ⟨.cpy_path, data.length + 2, data.length + 512⟩,
    ⟨.cpy_path, data.length + 1 + final_cmd.length + 1, data.length + 512⟩]

/-- The writes for a command between ampersands. -/
def commandWrites (dirs : List Str) (cmd : Str) : List Write :=
  match tokens (cmd.takeWhile (· ≠ redirection)) with
  | [] => []
  | final_cmd :: cmd_args =>
    ⟨.new_final_cmd, final_cmd.length + 1, pointerSize⟩ :: aaWrites 0 cmd_args ++
      dirs.flatMap (cpyPathWrites final_cmd)

/-- The writes at a piece. -/
def pieceWrites (dirs : List Str) (cur_cmds : Str) : List Write :=
  match tokens cur_cmds with
  | [] => []
  | buffer_cmd :: rest =>
    if buffer_cmd = exit then []
    else if buffer_cmd = cd then cdWrites 0 (buffer_cmd :: rest)
    else if buffer_cmd = path then pathWrites 0 (buffer_cmd :: rest)
    else (cur_cmds.splitOn ampersand).flatMap (commandWrites dirs)

section Line

variable (access : Str → Bool) (chdir : List Str → Str → Bool)

/-- The writes of the loop over the pieces between semicolons. -/
def piecesWrites : State → List Str → List Write
  | _, [] => []
  | s, cur_cmds :: rest =>
    pieceWrites s.path_ptr cur_cmds ++
      match (piece access chdir s cur_cmds).2 with
      | none => []
      | some s => piecesWrites s rest

/-- The writes of main while it executes a line. -/
def writes (s : State) (line : Str) : List Write :=
  if checksyntax access s.path_ptr line then piecesWrites access chdir s (checkedLine line) else []

end Line

/-- The name of the command fits in a block of the size of a pointer, and its arguments in the
array. -/
def CommandFits (cmd : Str) : Prop :=
  match args (cmd.takeWhile (· ≠ redirection)) with
  | [] => True
  | final_cmd :: arg_list => final_cmd.length < pointerSize ∧ arg_list.length ≤ 1024

/-- A path command has three words at most, and the commands of another piece are short. -/
def PieceFits (p1 : Str) : Prop :=
  match (args p1).head? with
  | none => True
  | some w =>
    if w = exit ∨ w = cd then True
    else if w = path then (args p1).length ≤ 3
    else ∀ cmd ∈ p1.splitOn ampersand, CommandFits cmd

/-! ### The loops over the words -/

section Loops

variable {index : ℕ} {w s : Str} {rest ws dirs : List Str}

theorem filter_tokens (s : Str) : (tokens s).filter (!·.isEmpty) = args s := by
  rw [args, words, ← List.splitOn_eq_splitOnP, tokens]
  induction s.splitOn space with
  | nil => rfl
  | cons w ws ih =>
    cases w with
    | nil => exact ih
    | cons b w => rfl

/-- The first token is the first word. -/
theorem args_of_tokens (h : tokens s = w :: rest) :
    args s = w :: rest.filter (!·.isEmpty) := by
  have hw : w.isEmpty = false := by
    have hnot := List.head?_dropWhile_not List.isEmpty (s.splitOn space)
    rw [← tokens, h] at hnot
    exact hnot
  rw [← filter_tokens, h, List.filter_cons_of_pos (by simp [hw])]

theorem args_of_tokens_nil (h : tokens s = []) : args s = [] := by
  rw [← filter_tokens, h]
  rfl

/-- Two words are stored at most. -/
theorem cdWrites_fit (h : index ≤ 2) : ∀ w ∈ cdWrites index ws, w.Fits := by
  induction ws generalizing index with
  | nil => exact List.forall_mem_nil _
  | cons buffer_cmd ws ih =>
    rw [cdWrites]
    split
    · exact List.forall_mem_nil _
    split
    · rename_i hfull hpos
      have hlt : index + 1 ≤ 2 := by
        have hne : index ≠ 2 := fun he => hfull ⟨hpos, he⟩
        omega
      exact List.forall_mem_cons.2 ⟨hlt, ih hlt⟩
    · exact ih h

theorem length_filter_cons (w : Str) (ws : List Str) :
    ((w :: ws).filter (!·.isEmpty)).length =
      (ws.filter (!·.isEmpty)).length + if w.length > 0 then 1 else 0 := by
  cases w <;> simp

/-- A fourth word is stored behind the array. -/
theorem pathWrites_fit_iff (h : index ≤ 3) : (∀ w ∈ pathWrites index ws, w.Fits) ↔
    index + (ws.filter (!·.isEmpty)).length ≤ 3 := by
  induction ws generalizing index with
  | nil => exact iff_of_true (List.forall_mem_nil _) h
  | cons buffer_cmd ws ih =>
    rw [pathWrites, if_neg (by omega), length_filter_cons]
    split
    · rw [List.forall_mem_cons]
      by_cases hlt : index + 1 ≤ 3
      · rw [ih hlt]
        refine ⟨fun hfit => by omega, fun hle => ⟨hlt, by omega⟩⟩
      · exact iff_of_false (fun hfit => hlt hfit.1) (by omega)
    · exact ih h

/-- The arguments are stored without a test of their number. -/
theorem aaWrites_fit_iff (h : index ≤ 1024) : (∀ w ∈ aaWrites index ws, w.Fits) ↔
    index + (ws.filter (!·.isEmpty)).length ≤ 1024 := by
  induction ws generalizing index with
  | nil => exact iff_of_true (List.forall_mem_nil _) h
  | cons cmd_args ws ih =>
    rw [aaWrites, length_filter_cons]
    split
    · rw [List.forall_mem_cons]
      by_cases hlt : index + 1 ≤ 1024
      · rw [ih hlt]
        refine ⟨fun hfit => by omega, fun hle => ⟨hlt, by omega⟩⟩
      · exact iff_of_false (fun hfit => hlt hfit.1) (by omega)
    · exact ih h

/-- A name that fits in `new_final_cmd` fits in every path. -/
theorem cpyPathWrites_fit (h : w.length < pointerSize) :
    ∀ x ∈ dirs.flatMap (cpyPathWrites w), x.Fits := by
  intro x hx
  obtain ⟨data, -, hmem⟩ := List.mem_flatMap.1 hx
  rw [pointerSize] at h
  simp only [cpyPathWrites, List.mem_cons, List.not_mem_nil, or_false] at hmem
  rcases hmem with rfl | rfl | rfl <;> simp only [Write.Fits] <;> omega

theorem commandWrites_fit_iff {cmd : Str} :
    (∀ w ∈ commandWrites dirs cmd, w.Fits) ↔ CommandFits cmd := by
  rw [commandWrites, CommandFits]
  cases htokens : tokens (cmd.takeWhile (· ≠ redirection)) with
  | nil =>
    rw [args_of_tokens_nil htokens]
    exact iff_of_true (List.forall_mem_nil _) trivial
  | cons final_cmd cmd_args =>
    rw [args_of_tokens htokens]
    show (∀ w ∈ _ :: (aaWrites 0 cmd_args ++ _), w.Fits) ↔ _
    rw [List.forall_mem_cons, List.forall_mem_append, aaWrites_fit_iff (Nat.zero_le _),
      Nat.zero_add]
    constructor
    · rintro ⟨hname, hargs, -⟩
      exact ⟨hname, hargs⟩
    · rintro ⟨hname, hargs⟩
      exact ⟨hname, hargs, cpyPathWrites_fit hname⟩

end Loops

/-! ### A piece and a line -/

section Line

variable {access : Str → Bool} {chdir : List Str → Str → Bool} {dirs : List Str} {s : State}
  {p1 : Str} {ps : List Str}

/-- When main stays inside its buffers at a piece. -/
theorem pieceWrites_fit_iff : (∀ w ∈ pieceWrites dirs p1, w.Fits) ↔ PieceFits p1 := by
  rw [pieceWrites, PieceFits]
  cases htokens : tokens p1 with
  | nil =>
    rw [args_of_tokens_nil htokens]
    exact iff_of_true (List.forall_mem_nil _) trivial
  | cons buffer_cmd rest =>
    have hargs := args_of_tokens htokens
    rw [hargs]
    simp only [List.head?_cons]
    by_cases he : buffer_cmd = exit
    · rw [if_pos he, if_pos (.inl he)]
      exact iff_of_true (List.forall_mem_nil _) trivial
    by_cases hc : buffer_cmd = cd
    · rw [if_neg he, if_pos hc, if_pos (.inr hc)]
      exact iff_of_true (cdWrites_fit (Nat.zero_le _)) trivial
    rw [if_neg he, if_neg hc, if_neg (not_or.2 ⟨he, hc⟩)]
    by_cases hp : buffer_cmd = path
    · rw [if_pos hp, if_pos hp, pathWrites_fit_iff (Nat.zero_le _), Nat.zero_add, ← htokens,
        filter_tokens, hargs]
    · rw [if_neg hp, if_neg hp]
      simp only [List.mem_flatMap, forall_exists_index, and_imp]
      rw [forall_comm]
      refine forall_congr' fun cmd => ?_
      have hiff := @commandWrites_fit_iff dirs cmd
      exact ⟨fun h hcmd => hiff.1 fun w hw => h w hcmd hw, fun h w hcmd hw => hiff.2 (h hcmd) w hw⟩

/-- Main fills its buffers at no other pieces than those it gets to. -/
theorem piecesWrites_fit (h : ∀ p1 ∈ reached ps, PieceFits p1) :
    ∀ w ∈ piecesWrites access chdir s ps, w.Fits := by
  induction ps generalizing s with
  | nil => exact List.forall_mem_nil _
  | cons p1 ps ih =>
    rw [reached, List.forall_mem_cons] at h
    rw [piecesWrites, List.forall_mem_append]
    refine ⟨pieceWrites_fit_iff.2 h.1, ?_⟩
    split
    · exact List.forall_mem_nil _
    · rename_i s' hs
      rw [leaves_of_piece hs] at h
      exact ih h.2

/-- When every `chdir` succeeds, it fills them at all of those. -/
theorem fits_of_piecesWrites
    (h : ∀ w ∈ piecesWrites access (fun _ _ => true) s ps, w.Fits) :
    ∀ p1 ∈ reached ps, PieceFits p1 := by
  induction ps generalizing s with
  | nil => exact List.forall_mem_nil _
  | cons p1 ps ih =>
    rw [piecesWrites, List.forall_mem_append] at h
    rw [reached, List.forall_mem_cons]
    refine ⟨pieceWrites_fit_iff.1 h.1, ?_⟩
    split
    · exact List.forall_mem_nil _
    · rename_i hleaves
      obtain ⟨s', hs'⟩ := piece_goes_on access s (Bool.not_eq_true _ ▸ hleaves)
      rw [hs'] at h
      exact ih h.2

/-- **The lines at which main stays inside its buffers**, whatever `chdir` returns: at each piece it
gets to, a path command has three words at most, and otherwise the commands have less than eight
bytes and at most 1024 arguments. -/
theorem writes_fit_iff (access : Str → Bool) (dirs : List Str) (line : Str)
    (hok : checksyntax access dirs line = true) :
    (∀ chdir, StaysInside (writes access chdir ⟨dirs, []⟩ line)) ↔
      ∀ p1 ∈ reached (checkedLine line), PieceFits p1 := by
  have hwrites : ∀ chdir, writes access chdir ⟨dirs, []⟩ line =
      piecesWrites access chdir ⟨dirs, []⟩ (checkedLine line) := fun chdir => if_pos hok
  simp only [hwrites]
  exact ⟨fun h => fits_of_piecesWrites (h _), fun h chdir => piecesWrites_fit h⟩

/-- `" cd x ; ls"` -/
theorem writes_fit_cd_ls : StaysInside (writes onlyLs (fun _ _ => true) ⟨[bin], []⟩
    [0x20, 0x63, 0x64, 0x20, 0x78, 0x20, 0x3B, 0x20, 0x6C, 0x73]) := by
  refine (writes_fit_iff onlyLs [bin] _ (by decide)).2 ?_ _
  have hreached : reached (checkedLine [0x20, 0x63, 0x64, 0x20, 0x78, 0x20, 0x3B, 0x20, 0x6C, 0x73])
      = [[0x20, 0x63, 0x64, 0x20, 0x78, 0x20], [0x20, 0x6C, 0x73]] := by decide
  have hcommands : ([0x20, 0x6C, 0x73] : Str).splitOn ampersand = [[0x20, 0x6C, 0x73]] := by decide
  rw [hreached, List.forall_mem_cons, List.forall_mem_singleton]
  refine ⟨trivial, ?_⟩
  show ∀ cmd ∈ ([0x20, 0x6C, 0x73] : Str).splitOn ampersand, CommandFits cmd
  rw [hcommands, List.forall_mem_singleton]
  exact ⟨by decide, by decide⟩

/-- `"path clear & ls"`: the ampersand is a third word of main's path command, and `ls` a fourth. -/
theorem not_writes_fit : ¬∀ (access : Str → Bool) (dirs : List Str) (line : Str),
    checksyntax access dirs line = true →
      ∀ chdir, StaysInside (writes access chdir ⟨dirs, []⟩ line) := by
  intro h
  have hfits := h onlyLs [bin]
    [0x70, 0x61, 0x74, 0x68, 0x20, 0x63, 0x6C, 0x65, 0x61, 0x72, 0x20, 0x26, 0x20, 0x6C, 0x73]
    (by decide) (fun _ _ => true) ⟨.pathArgs, 4, 3⟩ (by decide)
  exact absurd hfits (by decide)

end Line

end OsProjects.Shell
