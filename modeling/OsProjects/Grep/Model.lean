import OsProjects.Foundation.Lines
import OsProjects.Foundation.Loop

/-!
# Searching lines

The main function of `wis-grep.c`.  It has two loops over lines, one for the standard input and one
for a file, with the same text but for the stream: both are `search`.

A string argument is the list of the bytes before its NUL, and a buffer filled by `getline` the list
of what was read.  The variables `i`, `j` and `index` are `int`s: to count one of them beyond its
largest value is an error.  Sizes have 64 bits, and no line is so long that they wrap.
-/

namespace OsProjects.Grep

abbrev Str := List UInt8

def INT_MAX : ℕ := 2 ^ 31 - 1

/-- A run that does not come to its end. -/
inductive Error
  /-- An `int` overflows. -/
  | overflow
deriving DecidableEq, Repr

/-- The loop over `j`: whether it ends with `find == 1`. -/
def compareAt (search_term line : Str) (i j index : ℕ) (find : Bool) : Except Error Bool :=
  if j < i + search_term.length then
    if index < INT_MAX ∧ j < INT_MAX then
      compareAt search_term line i (j + 1) (index + 1)
        (if search_term[index]? ≠ (line)[j]? then false else find)
    else .error .overflow
  else .ok find
termination_by i + search_term.length - j

/-- The loop over `i`: what it prints. -/
def positions (search_term line : Str) (i : ℕ) : Except Error (List UInt8) :=
  if i ≤ line.length - search_term.length then do
    let find ← compareAt search_term line i i 0 true
    if find then .ok (cstr line)
    else if i < INT_MAX then positions search_term line (i + 1)
    else .error .overflow
  else .ok []
termination_by line.length - search_term.length + 1 - i

/-- What is printed for a line. -/
def searchLine (search_term line : Str) : Except Error (List UInt8) :=
  if search_term.length ≤ line.length then positions search_term line 0 else .ok []

/-- The loop over the lines of a stream. -/
def search (search_term : Str) (f : List UInt8) : Except Error (List UInt8) :=
  match _h : getline f with
  | none => .ok []
  | some (line, rest) => do
    let out ← searchLine search_term line
    let outs ← search search_term rest
    .ok (out ++ outs)
termination_by f.length
decreasing_by exact length_getline _h

/-- The loop over the files named in the arguments: what is printed, and the exit status. -/
def searchFiles (fs : Str → Option (List UInt8)) (search_term : Str) :
    List Str → Except Error (List UInt8 × ℕ)
  | [] => .ok ([], 0)
  | filename :: filenames =>
    match fs filename with
    | none => .ok ("wis-grep: cannot open file\n".toUTF8.toList, 1)
    | some f => do
      let out ← search search_term f
      let outs ← searchFiles fs search_term filenames
      .ok (out ++ outs.1, outs.2)

/-- The main function: what it prints, and its exit status. -/
def main (fs : Str → Option (List UInt8)) (stdin : List UInt8) :
    List Str → Except Error (List UInt8 × ℕ)
  | [] | [_] => .ok ("wis-grep: searchterm [file …]\n".toUTF8.toList, 1)
  | [_, search_term] => do
    let out ← search search_term stdin
    .ok (out, 0)
  | _ :: search_term :: filenames => searchFiles fs search_term filenames

end OsProjects.Grep
