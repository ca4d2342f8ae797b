import OsProjects.Foundation.Words

/-!
# The shell

`checksyntax` and the main loop of `smash.c`, for one input line.  A string is the list of its
bytes before the NUL.  A loop that calls `strsep` with one delimiter until it returns `NULL` goes
through the pieces of the string between delimiters, which is `List.splitOn`.

The environment is the `access` predicate and the results of `chdir`, which may depend on the
directories changed to before in the line.  What main does with a line is a list of steps, one for
each piece between semicolons that it gets to, with the actions it takes there.

Strings are values: the sizes of the buffers they are copied to are left out, but not the arrays
`buffer_args`.
-/

namespace OsProjects.Shell

abbrev Str := List UInt8

def space : UInt8 := 0x20
def semicolon : UInt8 := 0x3B
def ampersand : UInt8 := 0x26
def redirection : UInt8 := 0x3E
def slash : UInt8 := 0x2F

/-- `"exit"` -/
def exit : Str := [0x65, 0x78, 0x69, 0x74]
/-- `"cd"` -/
def cd : Str := [0x63, 0x64]
/-- `"path"` -/
def path : Str := [0x70, 0x61, 0x74, 0x68]
/-- `"add"` -/
def add : Str := [0x61, 0x64, 0x64]
/-- `"remove"` -/
def remove : Str := [0x72, 0x65, 0x6D, 0x6F, 0x76, 0x65]
/-- `"clear"` -/
def clear : Str := [0x63, 0x6C, 0x65, 0x61, 0x72]

def isSpace (b : UInt8) : Bool := b = 0x20 ∨ 0x09 ≤ b ∧ b ≤ 0x0D

/-- Cut off the blanks at both ends. -/
def trim (s : Str) : Str := strip isSpace s

/-- The nonempty pieces between spaces. -/
def args (s : Str) : List Str := words (· == space) s

/-- `path_ptr` and the directories changed to. -/
structure State where
  path_ptr : List Str
  cwd : List Str

-- `access(path, X_OK) == 0`, and `chdir(dir) == 0` after some directories have been changed to.
variable (access : Str → Bool) (chdir : List Str → Str → Bool)

/-! ### The checker -/

section Checker

/-- The file that `checkpath` finds for a command. -/
def checkpath (dirs : List Str) (str : Str) : Option Str :=
  (dirs.map (· ++ slash :: str)).find? access

/-- The checks of a piece without redirection: its words after the first are those in `p3s`. -/
def checkPlain (dirs : List Str) (p2 : Str) : Bool :=
  let p3 := p2.takeWhile (· ≠ space)
  let p3s := ((p2.splitOn space).tail).filter (!·.isEmpty)
  if p3 = exit then p3s.length = 0
  else if p3 = cd then p3s.length = 1
  else if p3 = path then
    match p3s with
    | [] => false
    | p3 :: p3s =>
      if p3 = add then p3s.length = 1
      else if p3 = remove then p3s.length = 1
      else if p3 = clear then p3s.length = 0
      else false
  else (checkpath access dirs p3).isSome

/-- The checks of a piece with a redirection. -/
def checkRedirection (dirs : List Str) (p2 : Str) : Bool :=
  let p3 := p2.takeWhile (· ≠ redirection)
  let p4 := trim (p3.takeWhile (· ≠ space))
  let p5 := trim (((p2.dropWhile (· ≠ redirection)).tail).takeWhile (· ≠ redirection))
  (checkpath access dirs p4).isSome && !p5.isEmpty && p2.count redirection ≤ 1

/-- The pieces between ampersands of a piece between semicolons, trimmed. -/
def commands (p1 : Str) : List Str := ((trim p1).splitOn ampersand).map trim

/-- `checksyntax(str) == 0` -/
def checksyntax (dirs : List Str) (str : Str) : Bool :=
  ((trim str).splitOn semicolon).all fun p1 =>
    (trim p1).isEmpty || (commands p1).all fun p2 =>
      p2.isEmpty ||
        if redirection ∈ p2 then checkRedirection access dirs p2 else checkPlain access dirs p2

end Checker

/-! ### The executor -/

section Executor

/-- What main does at a piece. -/
inductive Act
  | exit
  /-- `chdir` of the second of two words. -/
  | cd (words : List Str)
  /-- `cd` with another number of words. -/
  | cdInvalid
  /-- The path command, with its words. -/
  | path (words : List Str)
  /-- A write behind `buffer_args`, or a read of an element that was not set. -/
  | undefined
  /-- A child executes a file with some arguments, its output redirected or not. -/
  | exec (file : Str) (argv : List Str) (output : Option Str)
  /-- No directory has the command. -/
  | notFound (command : Str)
  deriving DecidableEq

/-- Where the output of a command goes: the first word after the first redirection. -/
def output (cmd : Str) : Option Str :=
  (args (((cmd.dropWhile (· ≠ redirection)).tail).takeWhile (· ≠ redirection))).head?

/-- The loop over the pieces between ampersands, with the flag `success`. -/
def external (dirs : List Str) : Bool → List Str → List Act
  | _, [] => []
  | success, cmd :: cmds =>
    match args (cmd.takeWhile (· ≠ redirection)) with
    | [] => external dirs success cmds
    | final_cmd :: arg_list =>
      let files := (dirs.map (· ++ slash :: final_cmd)).filter access
      let success := success || !files.isEmpty
      files.map (Act.exec · (final_cmd :: arg_list) (output cmd)) ++
        (if success then [] else [.notFound final_cmd]) ++ external dirs success cmds

/-- The path command: its action, and the new list of directories unless its behaviour is
undefined. -/
def pathCommand (dirs : List Str) (buffer_args : List Str) : Act × Option (List Str) :=
  match buffer_args with
  | [_, a] =>
    if a = add ∨ a = remove then (.undefined, none)
    else if a = clear then (.path buffer_args, some [])
    else (.path buffer_args, some dirs)
  | [_, a, dir] =>
    if a = add then (.path buffer_args, some (dir :: dirs))
    else if a = remove then (.path buffer_args, some (dirs.erase dir))
    else if a = clear then (.path buffer_args, some [])
    else (.path buffer_args, some dirs)
  | _ => (.undefined, none)

/-- One piece between semicolons: the actions, and the state for the next piece unless main leaves
the line. -/
def piece (s : State) (cur_cmds : Str) : List Act × Option State :=
  match args cur_cmds with
  | [] => ([], some s)
  | buffer_cmd :: rest =>
    if buffer_cmd = exit then ([.exit], none)
    else if buffer_cmd = cd then
      match rest with
      | [dir] => ([.cd [buffer_cmd, dir]],
          if chdir s.cwd dir then some { s with cwd := s.cwd ++ [dir] } else none)
      | _ => ([.cdInvalid], none)
    else if buffer_cmd = path then
      let r := pathCommand s.path_ptr (buffer_cmd :: rest)
      ([r.1], r.2.map fun dirs => { s with path_ptr := dirs })
    else (external access s.path_ptr false (cur_cmds.splitOn ampersand), some s)

/-- The loop over the pieces between semicolons. -/
def pieces : State → List Str → List (Str × List Act)
  | _, [] => []
  | s, cur_cmds :: rest =>
    let r := piece access chdir s cur_cmds
    (cur_cmds, r.1) ::
      match r.2 with
      | none => []
      | some s => pieces s rest

/-- The line after `checksyntax`, which has cut off the blanks at its end in place. -/
def checkedLine (line : Str) : List Str := (line.rdropWhile isSpace).splitOn semicolon

/-- What main does with a line. -/
def execute (s : State) (line : Str) : List (Str × List Act) :=
  if checksyntax access s.path_ptr line then pieces access chdir s (checkedLine line) else []

end Executor

end OsProjects.Shell
