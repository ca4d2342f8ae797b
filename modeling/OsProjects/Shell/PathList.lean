import OsProjects.Foundation.Chain
import OsProjects.Shell.Agreement

/-!
# The path list in memory

The linked list behind `path_ptr`, with `push`, `delete_node` and `clear_path` on its nodes, and the
path command of main, which keeps `path_length` by hand.  A load, a store or a `free` at an address
that is not a node in use, `NULL` among them, has no result, and neither has an `int` out of range.

`malloc` succeeds, and returns any address that is not in use; which one may depend on the number of
calls so far.

* `Holds`: the list of directories that the globals stand for;
* `pathStep_add`, `pathStep_remove`, `pathStep_clear`: the three commands;
* `pathRun_holds`: every sequence of commands, and the loops that trust `path_length`.
-/

namespace OsProjects.Shell

/-- `struct path_Node` -/
structure Node where
  data : Str
  next : ℕ

/-- The nodes in memory; those in `live` have been malloc'ed and not been freed. -/
structure Heap where
  live : Finset ℕ
  data : ℕ → Str
  next : ℕ → ℕ

namespace Heap

def load (h : Heap) (p : ℕ) : Option Node := if p ∈ h.live then some ⟨h.data p, h.next p⟩ else none

/-- `p->next = q;` -/
def storeNext (h : Heap) (p q : ℕ) : Option Heap :=
  if p ∈ h.live then some { h with next := Function.update h.next p q } else none

def free (h : Heap) (p : ℕ) : Option Heap :=
  if p ∈ h.live then some { h with live := h.live.erase p } else none

/-- `push`, with the node that `malloc` has returned: the heap, whose new node is the header. -/
def push (h : Heap) (header new_node : ℕ) (new_data : Str) : Heap where
  live := insert new_node h.live
  data := Function.update h.data new_node new_data
  next := Function.update h.next new_node header

/-- `while (temp != NULL && strcmp(temp->data, key) != 0) { prev = temp; temp = temp->next; }` -/
def search (h : Heap) (key : Str) : ℕ → ℕ → ℕ → Option (ℕ × ℕ)
  | 0, _, _ => none
  | fuel + 1, prev, temp =>
    if temp = 0 then some (prev, temp)
    else do
      let node ← h.load temp
      if node.data ≠ key then search h key fuel temp node.next else some (prev, temp)

/-- `delete_node`: whether the key was found, the header and the heap. -/
def deleteNode (h : Heap) (header : ℕ) (key : Str) : Option (Bool × ℕ × Heap) :=
  if header ≠ 0 ∧ (h.load header).map Node.data = some key then do
    let node ← h.load header
    let h ← h.free header
    some (true, node.next, h)
  else do
    let (prev, temp) ← h.search key (h.live.card + 1) header header
    if temp = 0 then some (false, header, h)
    else do
      let node ← h.load temp
      let h ← h.storeNext prev node.next
      let h ← h.free temp
      some (true, header, h)

/-- The loop of `clear_path`. -/
def clearLoop : ℕ → ℕ → Heap → Option Heap
  | 0, _, _ => none
  | fuel + 1, current, h =>
    if current = 0 then some h
    else do
      let node ← h.load current
      let h ← h.free current
      clearLoop fuel node.next h

/-- `clear_path`: the header and the heap. -/
def clearPath (h : Heap) (header : ℕ) : Option (ℕ × Heap) := do
  let h ← clearLoop (h.live.card + 1) header h
  some (0, h)

end Heap

/-- The answers of `malloc`, by the number of earlier calls and the nodes in use. -/
structure Malloc where
  malloc : ℕ → Finset ℕ → ℕ
  ne_null : ∀ n live, malloc n live ≠ 0
  fresh : ∀ n live, malloc n live ∉ live

/-- The globals, and the number of calls of `malloc`. -/
structure Globals where
  heap : Heap
  path_ptr : ℕ
  path_length : ℤ
  mallocs : ℕ

/-- The path commands that the checker lets pass. -/
inductive PathCommand
  | add (dir : Str)
  | remove (dir : Str)
  | clear
  deriving DecidableEq

/-- A value that an `int` can have. -/
def int (n : ℤ) : Option ℤ := if -2 ^ 31 ≤ n ∧ n < 2 ^ 31 then some n else none

/-- What main does at a path command. -/
def pathStep (m : Malloc) (g : Globals) : PathCommand → Option Globals
  | .add dir => do
    let new_node := m.malloc g.mallocs g.heap.live
    let path_length ← int (g.path_length + 1)
    some ⟨g.heap.push g.path_ptr new_node dir, new_node, path_length, g.mallocs + 1⟩
  | .remove dir => do
    let (found, path_ptr, heap) ← g.heap.deleteNode g.path_ptr dir
    if found then do
      let path_length ← int (g.path_length - 1)
      some { g with heap, path_ptr, path_length }
    else some { g with heap, path_ptr }
  | .clear => do
    let (path_ptr, heap) ← g.heap.clearPath g.path_ptr
    some { g with heap, path_ptr, path_length := 0 }

/-- The globals before main. -/
def globals : Globals := ⟨⟨∅, fun _ => [], fun _ => 0⟩, 0, 0, 0⟩

/-- The globals after some path commands: the first statements of main add `/bin`. -/
def pathRun (m : Malloc) (cmds : List PathCommand) : Option Globals :=
  (PathCommand.add bin :: cmds).foldlM (pathStep m) globals

/-! ### The loops that trust `path_length` -/

/-- The loop of `checkpath`, with the number of turns to come. -/
def checkpathLoop (access : Str → Bool) (str : Str) (h : Heap) : ℕ → ℕ → Option Str
  | 0, _ => some []
  | turns + 1, cur => do
    let node ← h.load cur
    if access (node.data ++ slash :: str) then some (node.data ++ slash :: str)
    else checkpathLoop access str h turns node.next

/-- The loop of main over the path list: the files that it executes. -/
def searchLoop (access : Str → Bool) (final_cmd : Str) (h : Heap) : ℕ → ℕ → Option (List Str)
  | 0, _ => some []
  | turns + 1, current => do
    let node ← h.load current
    let files ← searchLoop access final_cmd h turns node.next
    if access (node.data ++ slash :: final_cmd) then
      some ((node.data ++ slash :: final_cmd) :: files)
    else some files

/-! ### What the globals stand for -/

/-- What a command does to the directories. -/
def PathCommand.apply (dirs : List Str) : PathCommand → List Str
  | .add dir => dir :: dirs
  | .remove dir => dirs.erase dir
  | .clear => []

/-- The directories added and not removed, the most recent first. -/
def directories (cmds : List PathCommand) : List Str := cmds.foldl PathCommand.apply [bin]

/-- The words of a command. -/
def PathCommand.words : PathCommand → List Str
  | .add dir => [path, Shell.add, dir]
  | .remove dir => [path, Shell.remove, dir]
  | .clear => [path, Shell.clear]

/-- The commands are those of main on a list of directories. -/
theorem pathCommand_words (dirs : List Str) (cmd : PathCommand) :
    pathCommand dirs cmd.words = (.path cmd.words, some (cmd.apply dirs)) := by
  cases cmd <;> rfl

/-- The list in memory has the nodes `l`, and no others are in use. -/
structure Listed (h : Heap) (header : ℕ) (l : List ℕ) : Prop where
  chain : Chain 0 h.next header l
  live : h.live = l.toFinset

/-- The globals stand for a list of directories. -/
def Holds (g : Globals) (dirs : List Str) : Prop :=
  ∃ l, Listed g.heap g.path_ptr l ∧ l.map g.heap.data = dirs ∧ g.path_length = l.length

/-- Main's loops over the path list, run for `path_length` turns, look at every directory. -/
def LoopsAgree (g : Globals) (dirs : List Str) : Prop :=
  ∀ access str,
    checkpathLoop access str g.heap g.path_length.toNat g.path_ptr =
      some ((checkpath access dirs str).getD []) ∧
    searchLoop access str g.heap g.path_length.toNat g.path_ptr =
      some ((dirs.map (· ++ slash :: str)).filter access)

/-- The list of directories is never longer than an `int` can say. -/
def Fits (cmds : List PathCommand) : Prop :=
  ∀ pre, pre <+: cmds → (directories pre).length < 2 ^ 31

/-! ### The list functions -/

section Functions

variable {h : Heap} {header p q fuel prev temp : ℕ} {l l₁ l₂ : List ℕ} {key : Str}

theorem load_eq (hp : p ∈ h.live) : h.load p = some ⟨h.data p, h.next p⟩ := if_pos hp

theorem Listed.mem (hl : Listed h header l) (hp : p ∈ l) : p ∈ h.live := by
  rw [hl.live]
  exact List.mem_toFinset.2 hp

theorem Listed.length_lt (hl : Listed h header l) : l.length < h.live.card + 1 := by
  rw [hl.live, List.toFinset_card_of_nodup hl.chain.nodup]
  exact Nat.lt_succ_self _

theorem Listed.push (hl : Listed h header l) {new_node : ℕ} (h0 : new_node ≠ 0)
    (hnew : new_node ∉ h.live) (dir : Str) :
    Listed (h.push header new_node dir) new_node (new_node :: l) ∧
      (new_node :: l).map (h.push header new_node dir).data = dir :: l.map h.data := by
  have hnot : new_node ∉ l := fun hmem => hnew (hl.mem hmem)
  refine ⟨⟨hl.chain.push hnot h0, ?_⟩, ?_⟩
  · rw [List.toFinset_cons, ← hl.live]
    rfl
  · rw [List.map_cons]
    refine congrArg₂ _ (Function.update_self ..) (List.map_congr_left fun q hq => ?_)
    exact Function.update_of_ne (ne_of_mem_of_not_mem hq hnot) _ _

/-- The search goes past a node with another key. -/
theorem search_next (hlive : temp ∈ h.live) (h0 : temp ≠ 0) (hne : h.data temp ≠ key) :
    h.search key (fuel + 1) prev temp = h.search key fuel temp (h.next temp) := by
  rw [Heap.search, if_neg h0, load_eq hlive]
  exact if_pos hne

/-- The search stops at the first node of the key, behind its predecessor. -/
theorem search_found (prev : ℕ) (hc : Chain 0 h.next temp (l₁ ++ q :: p :: l₂))
    (hlive : ∀ r ∈ l₁ ++ q :: p :: l₂, r ∈ h.live) (hne : ∀ r ∈ l₁ ++ [q], h.data r ≠ key)
    (hp : h.data p = key) (hfuel : l₁.length + 1 < fuel) :
    h.search key fuel prev temp = some (q, p) := by
  induction l₁ generalizing temp prev fuel with
  | nil =>
    obtain ⟨fuel, rfl⟩ : ∃ n, fuel = n + 2 := ⟨fuel - 2, by simp at hfuel; omega⟩
    obtain ⟨rfl, hq0, hq, hp0, -⟩ := hc
    rw [search_next (hlive temp (by simp)) hq0 (hne temp (by simp)), hq, Heap.search, if_neg hp0,
      load_eq (hlive p (by simp))]
    exact if_neg (not_not.2 hp)
  | cons r l₁ ih =>
    obtain ⟨fuel, rfl⟩ : ∃ n, fuel = n + 1 := ⟨fuel - 1, by omega⟩
    obtain ⟨rfl, hr0, hc⟩ := hc
    rw [search_next (hlive temp (by simp)) hr0 (hne temp (by simp))]
    exact ih _ hc (fun r hr => hlive r (List.mem_cons_of_mem _ hr))
      (fun r hr => hne r (List.mem_cons_of_mem _ hr)) (by simpa using hfuel)

/-- Without the key the search gets to the end. -/
theorem search_missing (prev : ℕ) (hc : Chain 0 h.next temp l) (hlive : ∀ r ∈ l, r ∈ h.live)
    (hne : ∀ r ∈ l, h.data r ≠ key) (hfuel : l.length < fuel) :
    ∃ prev', h.search key fuel prev temp = some (prev', 0) := by
  induction l generalizing temp prev fuel with
  | nil =>
    obtain ⟨fuel, rfl⟩ := Nat.exists_eq_add_of_lt hfuel
    obtain rfl : temp = 0 := hc
    exact ⟨prev, by rw [Heap.search, if_pos rfl]⟩
  | cons r l ih =>
    obtain ⟨fuel, rfl⟩ : ∃ n, fuel = n + 1 := ⟨fuel - 1, by omega⟩
    obtain ⟨rfl, hr0, hc⟩ := hc
    rw [search_next (hlive temp (by simp)) hr0 (hne temp (by simp))]
    exact ih _ hc (fun r hr => hlive r (List.mem_cons_of_mem _ hr))
      (fun r hr => hne r (List.mem_cons_of_mem _ hr)) (by simpa using hfuel)

/-- A node taken out of the list and freed. -/
theorem toFinset_erase (l₁ : List ℕ) (hnd : (l₁ ++ p :: l₂).Nodup) :
    (l₁ ++ p :: l₂).toFinset.erase p = (l₁ ++ l₂).toFinset := by
  have hnot : p ∉ l₁ ++ l₂ := (List.nodup_cons.1 (List.nodup_middle.1 hnd)).1
  ext q
  simp only [Finset.mem_erase, List.mem_toFinset, List.mem_append, List.mem_cons]
  constructor
  · tauto
  · intro hq
    exact ⟨fun he => hnot (he ▸ List.mem_append.2 hq), by tauto⟩

/-- The first node of a key. -/
theorem exists_first (hmem : key ∈ l.map h.data) : ∃ l₁ p l₂, l = l₁ ++ p :: l₂ ∧
    h.data p = key ∧ (∀ q ∈ l₁, h.data q ≠ key) ∧
      (l.map h.data).erase key = (l₁ ++ l₂).map h.data := by
  obtain ⟨as, bs, heq, hnot⟩ := List.eq_append_cons_of_mem hmem
  obtain ⟨l₁, l', rfl, rfl, hl'⟩ := List.map_eq_append_iff.1 heq
  obtain ⟨p, l₂, rfl, hp, rfl⟩ := List.map_eq_cons_iff.1 hl'
  refine ⟨l₁, p, l₂, rfl, hp, fun q hq he => hnot (he ▸ List.mem_map_of_mem hq), ?_⟩
  rw [heq, List.erase_append_right _ hnot, List.erase_cons_head, List.map_append]

/-- The test of the header fails. -/
theorem header_ne (hl : Listed h header l) (hne : ∀ r, l.head? = some r → h.data r ≠ key) :
    ¬(header ≠ 0 ∧ (h.load header).map Node.data = some key) := by
  rintro ⟨h0, hkey⟩
  obtain ⟨l', rfl, -⟩ := hl.chain.exists_cons h0
  rw [load_eq (hl.mem List.mem_cons_self)] at hkey
  exact hne header rfl (Option.some.inj hkey)

theorem deleteNode_missing (hl : Listed h header l) (hmem : key ∉ l.map h.data) :
    h.deleteNode header key = some (false, header, h) := by
  have hne : ∀ r ∈ l, h.data r ≠ key := fun r hr he => hmem (he ▸ List.mem_map_of_mem hr)
  obtain ⟨prev', hsearch⟩ := search_missing header hl.chain (fun r hr => hl.mem hr) hne
    hl.length_lt
  rw [Heap.deleteNode, if_neg (header_ne hl fun r hr => hne r (List.mem_of_mem_head? hr)), hsearch]
  rfl

/-- The node behind `q` is taken out. -/
theorem Listed.unlink (hl : Listed h header (l₁ ++ q :: p :: l₂)) :
    Listed ⟨h.live.erase p, h.data, Function.update h.next q (h.next p)⟩ header
      (l₁ ++ q :: l₂) := by
  refine ⟨hl.chain.unlink, ?_⟩
  have hnd := hl.chain.nodup
  rw [List.append_cons] at hnd
  rw [List.append_cons l₁ q l₂, ← toFinset_erase _ hnd, ← List.append_cons, hl.live]

theorem deleteNode_found (hl : Listed h header l) (hmem : key ∈ l.map h.data) :
    ∃ header' h' l', h.deleteNode header key = some (true, header', h') ∧
      Listed h' header' l' ∧ l'.map h'.data = (l.map h.data).erase key ∧
        l'.length + 1 = l.length := by
  obtain ⟨l₁, p, l₂, rfl, hp, hne, herase⟩ := exists_first hmem
  have hplive : p ∈ h.live := hl.mem (by simp)
  rcases List.eq_nil_or_concat' l₁ with rfl | ⟨m, q, rfl⟩
  · -- The header has the key.
    obtain ⟨rfl, hp0, hc⟩ := hl.chain
    refine ⟨h.next header, { h with live := h.live.erase header }, l₂, ?_, ⟨hc, ?_⟩, herase.symm,
      rfl⟩
    · rw [Heap.deleteNode, load_eq hplive, if_pos ⟨hp0, congrArg some hp⟩, Heap.free, if_pos hplive]
      rfl
    · rw [hl.live]
      exact toFinset_erase [] hl.chain.nodup
  · rw [← List.append_cons] at hl
    have hfirst : ∀ r, (m ++ q :: p :: l₂).head? = some r → h.data r ≠ key := by
      intro r hr
      rw [List.append_cons, List.head?_append_of_ne_nil _ (by simp)] at hr
      exact hne r (List.mem_of_mem_head? hr)
    have hlen := hl.length_lt
    rw [List.length_append, List.length_cons, List.length_cons] at hlen
    have hsearch := search_found header hl.chain (fun r hr => hl.mem hr) hne hp
      (show m.length + 1 < h.live.card + 1 by omega)
    have hp0 : p ≠ 0 := hl.chain.ne_null p (by simp)
    refine ⟨header, _, m ++ q :: l₂, ?_, hl.unlink, ?_, ?_⟩
    · have hqlive : q ∈ h.live := hl.mem (by simp)
      rw [Heap.deleteNode, if_neg (header_ne hl hfirst), hsearch]
      simp only [Option.bind_eq_bind, Option.bind_some, if_neg hp0, load_eq hplive, Heap.storeNext,
        if_pos hqlive, Heap.free, if_pos hplive]
    · rw [herase, ← List.append_cons]
    · simp only [List.length_append, List.length_cons, List.length_nil]
      omega

/-- The loop of `clear_path` frees every node. -/
theorem clearLoop_eq (hl : Listed h header l) (hfuel : l.length < fuel) :
    Heap.clearLoop fuel header h = some { h with live := ∅ } := by
  induction l generalizing h header fuel with
  | nil =>
    obtain ⟨fuel, rfl⟩ := Nat.exists_eq_add_of_lt hfuel
    obtain rfl : header = 0 := hl.chain
    have hlive : h.live = ∅ := hl.live
    rw [Heap.clearLoop, if_pos rfl, ← hlive]
  | cons p l ih =>
    obtain ⟨fuel, rfl⟩ : ∃ n, fuel = n + 1 := ⟨fuel - 1, by omega⟩
    have hplive : p ∈ h.live := hl.mem List.mem_cons_self
    obtain ⟨rfl, hp0, hc⟩ := hl.chain
    have hrest : Listed { h with live := h.live.erase header } (h.next header) l := by
      refine ⟨hc, ?_⟩
      rw [hl.live]
      exact toFinset_erase [] hl.chain.nodup
    rw [Heap.clearLoop, if_neg hp0, load_eq hplive, Heap.free, if_pos hplive]
    exact ih hrest (by simpa using hfuel)

theorem clearPath_eq (hl : Listed h header l) :
    h.clearPath header = some (0, { h with live := ∅ }) := by
  rw [Heap.clearPath, clearLoop_eq hl hl.length_lt]
  rfl

theorem checkpathLoop_eq (access : Str → Bool) (str : Str) (hc : Chain 0 h.next p l)
    (hlive : ∀ r ∈ l, r ∈ h.live) :
    checkpathLoop access str h l.length p =
      some ((checkpath access (l.map h.data) str).getD []) := by
  induction l generalizing p with
  | nil => rfl
  | cons r l ih =>
    obtain ⟨rfl, -, hc⟩ := hc
    rw [List.forall_mem_cons] at hlive
    rw [List.length_cons, checkpathLoop, load_eq hlive.1, Option.bind_eq_bind, Option.bind_some,
      ih hc hlive.2, List.map_cons, checkpath, checkpath, List.map_cons, List.find?_cons]
    cases access (h.data p ++ slash :: str) <;> rfl

theorem searchLoop_eq (access : Str → Bool) (str : Str) (hc : Chain 0 h.next p l)
    (hlive : ∀ r ∈ l, r ∈ h.live) :
    searchLoop access str h l.length p =
      some (((l.map h.data).map (· ++ slash :: str)).filter access) := by
  induction l generalizing p with
  | nil => rfl
  | cons r l ih =>
    obtain ⟨rfl, -, hc⟩ := hc
    rw [List.forall_mem_cons] at hlive
    rw [List.length_cons, searchLoop, load_eq hlive.1, Option.bind_eq_bind, Option.bind_some,
      ih hc hlive.2, List.map_cons, List.map_cons, List.filter_cons]
    cases access (h.data p ++ slash :: str) <;> rfl

end Functions

/-! ### The commands -/

section Commands

variable {m : Malloc} {g g' : Globals} {dirs : List Str} {dir : Str}

theorem int_eq {n : ℤ} (h : -2 ^ 31 ≤ n) (h' : n < 2 ^ 31) : int n = some n := if_pos ⟨h, h'⟩

theorem pathStep_add (h : Holds g dirs) (hlt : (dir :: dirs).length < 2 ^ 31) :
    ∃ g', pathStep m g (.add dir) = some g' ∧ Holds g' (dir :: dirs) := by
  obtain ⟨l, hl, rfl, hlen⟩ := h
  rw [List.length_cons, List.length_map] at hlt
  obtain ⟨hl', hdata⟩ := hl.push (m.ne_null g.mallocs g.heap.live)
    (m.fresh g.mallocs g.heap.live) dir
  refine ⟨⟨g.heap.push g.path_ptr (m.malloc g.mallocs g.heap.live) dir,
    m.malloc g.mallocs g.heap.live, g.path_length + 1, g.mallocs + 1⟩, ?_, _, hl', hdata, ?_⟩
  · rw [pathStep, int_eq (by omega) (by omega)]
    rfl
  · show g.path_length + 1 = _
    rw [hlen, List.length_cons, Nat.cast_succ]

theorem pathStep_remove (h : Holds g dirs) (hlt : dirs.length < 2 ^ 31) :
    ∃ g', pathStep m g (.remove dir) = some g' ∧ Holds g' (dirs.erase dir) := by
  obtain ⟨l, hl, rfl, hlen⟩ := h
  rw [List.length_map] at hlt
  by_cases hmem : dir ∈ l.map g.heap.data
  · obtain ⟨header', h', l', hdelete, hl', hdata, hlen'⟩ := deleteNode_found hl hmem
    refine ⟨{ g with heap := h', path_ptr := header', path_length := g.path_length - 1 }, ?_,
      l', hl', hdata, ?_⟩
    · rw [pathStep, hdelete]
      simp only [Option.bind_eq_bind, Option.bind_some, if_true]
      rw [int_eq (by omega) (by omega)]
      rfl
    · show g.path_length - 1 = l'.length
      omega
  · refine ⟨g, ?_, l, hl, (List.erase_of_not_mem hmem).symm, hlen⟩
    rw [pathStep, deleteNode_missing hl hmem]
    rfl

theorem pathStep_clear (h : Holds g dirs) : ∃ g', pathStep m g .clear = some g' ∧ Holds g' [] := by
  obtain ⟨l, hl, -, -⟩ := h
  refine ⟨{ g with path_ptr := 0, heap := { g.heap with live := ∅ }, path_length := 0 }, ?_,
    [], ⟨rfl, rfl⟩, rfl, rfl⟩
  rw [pathStep, clearPath_eq hl]
  rfl

/-- **One command.** -/
theorem pathStep_holds (m : Malloc) (h : Holds g dirs) (hlt : dirs.length < 2 ^ 31)
    (cmd : PathCommand) (hlt' : (cmd.apply dirs).length < 2 ^ 31) :
    ∃ g', pathStep m g cmd = some g' ∧ Holds g' (cmd.apply dirs) := by
  cases cmd with
  | add dir => exact pathStep_add h hlt'
  | remove dir => exact pathStep_remove h hlt
  | clear => exact pathStep_clear h

theorem Holds.loops (h : Holds g dirs) : LoopsAgree g dirs := by
  obtain ⟨l, hl, rfl, hlen⟩ := h
  intro access str
  rw [hlen, Int.toNat_natCast]
  exact ⟨checkpathLoop_eq access str hl.chain fun r hr => hl.mem hr,
    searchLoop_eq access str hl.chain fun r hr => hl.mem hr⟩

theorem holds_globals : Holds globals [] := ⟨[], ⟨rfl, rfl⟩, rfl, rfl⟩

/-- Commands from globals that stand for a list. -/
theorem foldlM_holds (m : Malloc) {cmds : List PathCommand} (h : Holds g dirs)
    (hfits : ∀ pre, pre <+: cmds → (pre.foldl PathCommand.apply dirs).length < 2 ^ 31) :
    ∃ g', cmds.foldlM (pathStep m) g = some g' ∧ Holds g' (cmds.foldl PathCommand.apply dirs) := by
  induction cmds generalizing g dirs with
  | nil => exact ⟨g, rfl, h⟩
  | cons cmd cmds ih =>
    have hfits' : ∀ pre, pre <+: cmds →
        (pre.foldl PathCommand.apply (cmd.apply dirs)).length < 2 ^ 31 := fun pre hpre =>
      hfits (cmd :: pre) (List.cons_prefix_cons.2 ⟨rfl, hpre⟩)
    obtain ⟨g₁, hstep, h₁⟩ := pathStep_holds m h (hfits [] List.nil_prefix) cmd
      (hfits' [] List.nil_prefix)
    obtain ⟨g', hrun, h'⟩ := ih h₁ hfits'
    refine ⟨g', ?_, h'⟩
    rw [List.foldlM_cons, hstep]
    exact hrun

/-- **The path list and its length**, after any commands. -/
theorem pathRun_holds (m : Malloc) {cmds : List PathCommand} (hfits : Fits cmds) :
    ∃ g, pathRun m cmds = some g ∧ Holds g (directories cmds) ∧
      LoopsAgree g (directories cmds) := by
  obtain ⟨g₀, hstep, h₀⟩ := pathStep_holds m holds_globals (by decide) (.add bin) (by decide)
  obtain ⟨g, hrun, h⟩ := foldlM_holds m h₀ hfits
  refine ⟨g, ?_, h, h.loops⟩
  rw [pathRun, List.foldlM_cons, hstep]
  exact hrun

/-- Few commands make no long list. -/
theorem fits_of_length {cmds : List PathCommand} (h : cmds.length + 1 < 2 ^ 31) : Fits cmds := by
  have happly : ∀ dirs (cmd : PathCommand), (cmd.apply dirs).length ≤ dirs.length + 1 := by
    intro dirs cmd
    cases cmd with
    | add dir => exact le_rfl
    | remove dir => exact (List.erase_sublist.length_le).trans (Nat.le_succ _)
    | clear => exact Nat.zero_le _
  have hfold : ∀ (pre : List PathCommand) dirs,
      (pre.foldl PathCommand.apply dirs).length ≤ dirs.length + pre.length := by
    intro pre
    induction pre with
    | nil => exact fun dirs => le_rfl
    | cons cmd pre ih =>
      intro dirs
      have hstep := happly dirs cmd
      have hrest := ih (cmd.apply dirs)
      rw [List.foldl_cons, List.length_cons]
      omega
  intro pre hpre
  have hlen := hpre.length_le
  have hle := hfold pre [bin]
  rw [List.length_singleton] at hle
  show (pre.foldl PathCommand.apply [bin]).length < 2 ^ 31
  omega

/-- Additions count up to the largest `int` only. -/
theorem path_length_replicate (m : Malloc) (dir : Str) (n : ℕ)
    (h : pathRun m (List.replicate n (.add dir)) = some g) :
    g.path_length = n + 1 ∧ g.path_length < 2 ^ 31 := by
  have hadd : ∀ {g g' : Globals} {dir : Str}, pathStep m g (.add dir) = some g' →
      g'.path_length = g.path_length + 1 ∧ g'.path_length < 2 ^ 31 := by
    intro g g' dir hstep
    rw [pathStep, int] at hstep
    split at hstep
    · rename_i hrange
      cases hstep
      exact ⟨rfl, hrange.2⟩
    · cases hstep
  induction n generalizing g with
  | zero =>
    rw [pathRun, List.replicate_zero, List.foldlM_cons] at h
    obtain ⟨g₀, hstep, h⟩ := Option.bind_eq_some_iff.1 h
    cases h
    exact hadd hstep
  | succ n ih =>
    rw [pathRun, List.replicate_succ', ← List.cons_append, List.foldlM_append] at h
    obtain ⟨g₁, hrun, h⟩ := Option.bind_eq_some_iff.1 h
    rw [List.foldlM_cons] at h
    obtain ⟨g₂, hstep, h⟩ := Option.bind_eq_some_iff.1 h
    cases h
    obtain ⟨hlen, hlt⟩ := hadd hstep
    refine ⟨?_, hlt⟩
    rw [hlen, (ih hrun).1, Nat.cast_succ]

end Commands

/-- An allocator that returns the address behind all nodes in use. -/
def topMalloc : Malloc where
  malloc _ live := live.sup id + 1
  ne_null _ _ := Nat.succ_ne_zero _
  fresh _ live hmem := by
    have hle : live.sup id + 1 ≤ live.sup id := Finset.le_sup (f := id) hmem
    exact Nat.not_succ_le_self _ hle

/-- The head, the middle and a directory that is not there are removed. -/
def someCommands : List PathCommand :=
  [.clear, .add [0x61], .add [0x62], .add [0x61], .remove [0x61], .add [0x63], .remove [0x62],
    .remove [0x64]]

theorem pathRun_holds_someCommands : ∃ g, pathRun topMalloc someCommands = some g ∧
    Holds g [[0x63], [0x61]] ∧ LoopsAgree g [[0x63], [0x61]] :=
  pathRun_holds topMalloc (fits_of_length (by decide))

/-- After 2^31 additions. -/
theorem not_pathRun : ¬ ∃ g, pathRun topMalloc (List.replicate (2 ^ 31) (.add bin)) = some g ∧
    Holds g (directories (List.replicate (2 ^ 31) (.add bin))) := by
  rintro ⟨g, hrun, -⟩
  obtain ⟨hlen, hlt⟩ := path_length_replicate topMalloc bin _ hrun
  rw [hlen] at hlt
  norm_num at hlt

end OsProjects.Shell
