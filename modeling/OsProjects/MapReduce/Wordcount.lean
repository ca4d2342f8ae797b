import OsProjects.Foundation.Decimal
import OsProjects.Foundation.Lines
import OsProjects.MapReduce.Progress

/-!
# Counting words

`Map`, `Combine` and `Reduce` of `wordcount.c` as clients of `MR_Run`.  The library's steps are
those of `step`; the client's variables tell which calls the functions make and with which
arguments.  A `printf` of the Reducer is a step of its own.

`int count` is an integer here: the ten bytes malloc'ed for its text are too few long before it
overflows, and then `sprintf` has no result.

`Cursor.next` is the loop of `Map`, and `tokens` are the words it finds in a file
(`next_tokens`).
-/

namespace OsProjects.MapReduce

/-- A C string. -/
abbrev Word := List UInt8

/-! ### The words of a file -/

section Tokens

/-- `" \t\n\r"` -/
def isDelim (b : UInt8) : Bool := b = 0x20 ∨ b = 0x09 ∨ b = 0x0A ∨ b = 0x0D

/-- `strsep(&dummy, " \t\n\r")`: the token and the new `dummy`. -/
def strsep : Option Word → Option (Word × Option Word)
  | none => none
  | some dummy =>
    match dummy.dropWhile (!isDelim ·) with
    | [] => some (dummy, none)
    | _ :: rest => some (dummy.takeWhile (!isDelim ·), some rest)

/-- The variables `dummy` and `fp` of `Map`. -/
structure Cursor where
  dummy : Option Word
  fp : List UInt8
  deriving DecidableEq

/-- The next token `Map` emits, unless it is at the end of the file. -/
def Cursor.next (c : Cursor) : Option (Word × Cursor) :=
  match strsep c.dummy with
  | some (token, dummy) => some (token, { c with dummy })
  | none => do
    let (line, fp) ← getline c.fp
    let (token, dummy) ← strsep (some (cstr line))
    some (token, { dummy, fp })

/-- The words of a file: the pieces of each of its lines between delimiters, empty ones included. -/
def tokens (content : List UInt8) : List Word :=
  (lines content).flatMap (List.splitOnP isDelim)

/-- The words that are left of a file. -/
def Cursor.tokens (c : Cursor) : List Word :=
  (match c.dummy with | none => [] | some dummy => dummy.splitOnP isDelim) ++
    MapReduce.tokens c.fp

end Tokens

/-! ### The client -/

/-- The variables of one call of `Combine` or `Reduce`: `count`, and whether its text has been
emitted or printed. -/
structure Call where
  count : ℤ
  done : Bool
  deriving DecidableEq

/-- The client's variables in each thread, and what has been printed: a word and its count a
line. -/
structure Client where
  map : ℕ → Cursor
  combine : ℕ → Call
  reduce : ℕ → Call
  stdout : List (Word × Word)

structure WState where
  lib : State Word Word
  client : Client

inductive WEvent
  | lib (e : Event Word Word)
  | printf (j : ℕ) (key value : Word)
  deriving DecidableEq

/-- `"1"` -/
def one : Word := [0x31]

/-- `sprintf(value, "%d", count)` into ten bytes. -/
def sprintf (count : ℤ) : Option Word :=
  if (printInt count).length + 1 ≤ 10 then some (printInt count) else none

/-- The content of `argv[i]`. -/
def content (files : List (List UInt8)) (i : ℕ) : List UInt8 := files.getD (i - 1) []

/-- What a step of the library means for the client: the calls that its functions make, and the
change of their variables. -/
def clientStep (files : List (List UInt8)) (s : WState) : Event Word Word → Option Client
  | .map i file =>
      let cursor : Cursor := { dummy := none, fp := content files file }
      some { s.client with map := Function.update s.client.map i cursor }
  | .emitToCombiner i key value => do
      let (token, cursor) ← (s.client.map i).next
      if key = token ∧ value = one then
        some { s.client with map := Function.update s.client.map i cursor }
      else none
  | .mapReturn i => if (s.client.map i).next = none then some s.client else none
  | .combine i _ =>
      some { s.client with combine := Function.update s.client.combine i ⟨0, false⟩ }
  | .getForCombine i _ (some _) =>
      let call : Call := { s.client.combine i with count := (s.client.combine i).count + 1 }
      some { s.client with combine := Function.update s.client.combine i call }
  | .emitToReducer i key value =>
      match s.lib.mapper i with
      | .combining (.inside _ key' true) => do
          let text ← sprintf (s.client.combine i).count
          if (s.client.combine i).done = false ∧ key = key' ∧ value = text then
            let call : Call := { s.client.combine i with done := true }
            some { s.client with combine := Function.update s.client.combine i call }
          else none
      | _ => none
  | .combineReturn i => if (s.client.combine i).done then some s.client else none
  | .reduce j _ =>
      some { s.client with reduce := Function.update s.client.reduce j ⟨0, false⟩ }
  | .getForReducer j _ (some value) =>
      let call : Call :=
        { s.client.reduce j with count := (s.client.reduce j).count + atoi value }
      some { s.client with reduce := Function.update s.client.reduce j call }
  | .reduceReturn j => if (s.client.reduce j).done then some s.client else none
  | _ => some s.client

/-- `printf("%s %s\n", key, value)` in thread `j`. -/
def printfStep (s : WState) (j : ℕ) (key value : Word) : Option Client :=
  match s.lib.reducer j with
  | .reducing (.inside _ key' true) => do
      let text ← sprintf (s.client.reduce j).count
      if (s.client.reduce j).done = false ∧ key = key' ∧ value = text then
        let call : Call := { s.client.reduce j with done := true }
        some { s.client with
          reduce := Function.update s.client.reduce j call
          stdout := s.client.stdout ++ [(key, value)] }
      else none
  | _ => none

/-- One step of `wordcount` on some files. -/
def wstep (files : List (List UInt8)) (job : Job Word) (s : WState) : WEvent → Option WState
  | .lib e => do
      let client ← clientStep files s e
      let lib ← step job s.lib e
      some { lib, client }
  | .printf j key value => do
      let client ← printfStep s j key value
      some { s with client }

def WStep (files : List (List UInt8)) (job : Job Word) (s : WState) (e : WEvent) (t : WState) :
    Prop :=
  wstep files job s e = some t

def winit : WState where
  lib := init Word Word
  client :=
    { map := fun _ => ⟨none, []⟩
      combine := fun _ => ⟨0, false⟩
      reduce := fun _ => ⟨0, false⟩
      stdout := [] }

/-- How `wordcount` runs `MR_Run`: everything but the arguments and the functions it passes. -/
structure Setup where
  numMappers : ℕ
  numReducers : ℕ
  partition : Word → ℕ
  tid : ℕ → ℕ
  mappers_pos : 1 ≤ numMappers
  reducers_pos : 1 ≤ numReducers
  partition_lt : ∀ k, partition k < numReducers
  tid_ne_zero : ∀ i, tid i ≠ 0
  tid_inj : ∀ i j, 1 ≤ i → i ≤ numMappers → 1 ≤ j → j ≤ numMappers → tid i = tid j → i = j

/-- `MR_Run(argc, argv, Map, num_mappers, Reduce, num_reducers, Combine, partition)` -/
def Setup.job (u : Setup) (files : List (List UInt8)) : Job Word where
  argc := files.length + 1
  combine := true
  numMappers := u.numMappers
  numReducers := u.numReducers
  partition := u.partition
  tid := u.tid
  mappers_pos := u.mappers_pos
  reducers_pos := u.reducers_pos
  partition_lt := u.partition_lt
  tid_ne_zero := u.tid_ne_zero
  tid_inj := u.tid_inj

/-! ### `Map` emits the words of the file -/

section Next

/-- The words of what a `dummy` points to. -/
def dummyTokens : Option Word → List Word
  | none => []
  | some dummy => dummy.splitOnP isDelim

theorem strsep_split (dummy : Word) : ∃ token rest, strsep (some dummy) = some (token, rest) ∧
    dummy.splitOnP isDelim = token :: dummyTokens rest := by
  have hsplit := List.takeWhile_append_dropWhile (p := (!isDelim ·)) (l := dummy)
  have htoken : ∀ b ∈ dummy.takeWhile (!isDelim ·), isDelim b = false := by
    intro b hb
    simpa using List.mem_takeWhile_imp hb
  cases hd : dummy.dropWhile (!isDelim ·) with
  | nil =>
    rw [hd, List.append_nil] at hsplit
    rw [hsplit] at htoken
    exact ⟨dummy, none, by simp only [strsep, hd], List.splitOnP_eq_singleton htoken⟩
  | cons d rest =>
    have hdelim : isDelim d = true := by
      have := List.head_dropWhile_not (!isDelim ·) (by simp [hd] : dummy.dropWhile _ ≠ [])
      simpa [hd] using this
    refine ⟨_, some rest, by simp only [strsep, hd]; rfl, ?_⟩
    rw [hd] at hsplit
    conv_lhs => rw [← hsplit]
    rw [List.splitOnP_append_cons_of_forall_mem htoken d hdelim]
    rfl

variable {c c' : Cursor} {token : Word}

theorem Cursor.tokens_eq (c : Cursor) :
    c.tokens = dummyTokens c.dummy ++ MapReduce.tokens c.fp := by
  unfold Cursor.tokens
  cases c.dummy <;> rfl

theorem next_of_dummy {dummy : Word} {rest : Option Word} {fp : List UInt8}
    (h : strsep (some dummy) = some (token, rest)) :
    Cursor.next ⟨some dummy, fp⟩ = some (token, ⟨rest, fp⟩) := by
  simp only [Cursor.next, h]

theorem next_of_line {fp line fp' : List UInt8} {rest : Option Word}
    (hget : getline fp = some (line, fp')) (h : strsep (some (cstr line)) = some (token, rest)) :
    Cursor.next ⟨none, fp⟩ = some (token, ⟨rest, fp'⟩) := by
  have hnone : strsep none = none := rfl
  simp only [Cursor.next, hnone, hget, h, Option.bind_eq_bind, Option.bind_some]

/-- `Map` emits the first of the words that are left. -/
theorem next_some (h0 : 0 ∉ c.fp) (h : c.next = some (token, c')) :
    c.tokens = token :: c'.tokens ∧ 0 ∉ c'.fp := by
  obtain ⟨dummy, fp⟩ := c
  rw [Cursor.tokens_eq, Cursor.tokens_eq]
  cases dummy with
  | some dummy =>
    obtain ⟨token', rest, hsep, hsplit⟩ := strsep_split dummy
    cases (next_of_dummy hsep).symm.trans h
    exact ⟨by simp only [dummyTokens, hsplit, List.cons_append], h0⟩
  | none =>
    rcases eq_or_ne fp [] with rfl | hne
    · cases h
    · obtain ⟨line, rest, hget, hlines, rfl⟩ := getline_lines hne
      rw [List.mem_append, not_or] at h0
      have hcstr := cstr_of_not_mem h0.1
      obtain ⟨token', rest', hsep, hsplit⟩ := strsep_split line
      rw [← hcstr] at hsep
      cases (next_of_line hget hsep).symm.trans h
      refine ⟨?_, h0.2⟩
      simp only [tokens, hlines, List.flatMap_cons, hsplit, dummyTokens, List.nil_append,
        List.cons_append]

/-- When it emits no more, nothing is left. -/
theorem next_none (h : c.next = none) : c.tokens = [] := by
  obtain ⟨dummy, fp⟩ := c
  cases dummy with
  | some dummy =>
    obtain ⟨token, rest, hsep, -⟩ := strsep_split dummy
    cases (next_of_dummy hsep).symm.trans h
  | none =>
    rcases eq_or_ne fp [] with rfl | hne
    · rfl
    · obtain ⟨line, rest, hget, -, -⟩ := getline_lines hne
      obtain ⟨token, rest', hsep, -⟩ := strsep_split (cstr line)
      cases (next_of_line hget hsep).symm.trans h

end Next

end OsProjects.MapReduce
