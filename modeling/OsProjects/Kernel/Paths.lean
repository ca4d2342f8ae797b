import Mathlib.Data.List.TakeWhile
import OsProjects.Kernel.Directories

/-!
# Paths

The elements of a path are what its slashes separate, each cut off at 14 bytes (`elems`).  Where
every entry leads to an inode in use (`Closed`), `namex` goes from directory to directory
(`resolve`) and changes nothing (`namexLoop_spec`).
-/

namespace OsProjects.Kernel

open Fsck Mkfs

variable {img img' : Image} {i j b k m n off inum : ℕ} {ip : Inode}
  {name path rest last : List UInt8}
  {fs : ℕ → Option File} {es : List (List UInt8)} {f : File}

/-! ### Elements -/

/-- What the slashes of a path separate. -/
def parts (path : List UInt8) : List (List UInt8) := (path.splitOnP (· = slash)).filter (· ≠ [])

/-- The elements of a path. -/
def elems (path : List UInt8) : List (List UInt8) := (parts path).map (List.take dirsiz)

theorem parts_slash : parts (slash :: path) = parts path := by
  rw [parts, parts, List.splitOnP_cons_eq_if_modifyHead, if_pos (by decide)]
  rfl

theorem parts_dropWhile : parts (path.dropWhile (· = slash)) = parts path := by
  induction path with
  | nil => rfl
  | cons c path ih =>
    rw [List.dropWhile_cons]
    split
    · rename_i hc
      rw [ih, of_decide_eq_true hc, parts_slash]
    · rfl

theorem parts_append {w r : List UInt8} (hw : w ≠ []) (hslash : ∀ c ∈ w, c ≠ slash)
    (hr : r = [] ∨ ∃ r', r = slash :: r') : parts (w ++ r) = w :: parts r := by
  have hall : ∀ c ∈ w, decide (c = slash) = false := fun c hc => decide_eq_false (hslash c hc)
  rcases hr with rfl | ⟨r', rfl⟩
  · rw [List.append_nil, parts, List.splitOnP_eq_singleton hall,
      List.filter_cons_of_pos (by simpa using hw)]
    rfl
  · rw [parts_slash, parts, List.splitOnP_append_cons_of_forall_mem hall slash (by decide),
      List.filter_cons_of_pos (by simpa using hw)]
    rfl

theorem dropWhile_cases (P : UInt8 → Bool) (l : List UInt8) :
    l.dropWhile P = [] ∨ ∃ c cs, l.dropWhile P = c :: cs ∧ P c = false := by
  induction l with
  | nil => exact .inl rfl
  | cons c l ih =>
    rw [List.dropWhile_cons]
    split
    · exact ih
    · rename_i hc
      exact .inr ⟨c, l, rfl, by simpa using hc⟩

/-- A path that does not start with a slash has a first part. -/
theorem parts_of_head {c : UInt8} {cs : List UInt8} (hc : c ≠ slash) :
    parts (c :: cs) = (c :: cs).takeWhile (· ≠ slash) ::
    parts ((c :: cs).dropWhile (· ≠ slash)) := by
  have hw : (c :: cs).takeWhile (· ≠ slash) ≠ [] := by
    rw [List.takeWhile_cons_of_pos (by simpa using hc)]
    exact List.cons_ne_nil _ _
  have hall : ∀ x ∈ (c :: cs).takeWhile (· ≠ slash), x ≠ slash := fun x hx => by
    simpa using List.mem_takeWhile_imp hx
  refine Eq.trans (congrArg parts List.takeWhile_append_dropWhile.symm) (parts_append hw hall ?_)
  rcases dropWhile_cases (fun x => decide (x ≠ slash)) (c :: cs) with h | ⟨x, xs, h, hx⟩
  · exact .inl h
  · rw [decide_eq_false_iff_not, not_ne_iff] at hx
    exact .inr ⟨xs, hx ▸ h⟩

theorem skipelem_none (h : skipelem path = none) : elems path = [] := by
  rw [skipelem] at h
  split at h
  · rename_i hnil
    rw [elems, ← parts_dropWhile, hnil]
    rfl
  · cases h

/-- `skipelem` takes the first element off. -/
theorem skipelem_some (h : skipelem path = some (name, rest)) :
    elems path = name :: elems rest ∧ (rest = [] ↔ elems rest = []) := by
  rw [skipelem] at h
  split at h
  · cases h
  · rename_i hne
    obtain ⟨rfl, rfl⟩ := Prod.mk.inj (Option.some.inj h)
    rcases dropWhile_cases (fun x => decide (x = slash)) path with hnil | ⟨c, cs, hcs, hc⟩
    · exact absurd hnil hne
    have hc : c ≠ slash := by simpa using hc
    refine ⟨?_, fun hnil => by rw [hnil]; rfl, fun hnil => ?_⟩
    · rw [elems, ← parts_dropWhile, hcs, parts_of_head hc, List.map_cons, elems, parts_dropWhile]
    · rcases dropWhile_cases (fun x => decide (x = slash))
        ((path.dropWhile (· = slash)).dropWhile (· ≠ slash)) with hr | ⟨x, xs, hxs, hx⟩
      · exact hr
      · have hx : x ≠ slash := by simpa using hx
        rw [hxs, elems, parts_of_head hx] at hnil
        cases hnil

/-! ### Walks -/

/-- Every directory is a table of entries that lead to inodes in use. -/
def Closed (fs : ℕ → Option File) : Prop :=
  ∀ i f, fs i = some f → f.type = tDir → 16 ∣ f.data.length ∧
    ∀ name j, SlotTable.lookup name (entries f.data) = some j → fs j ≠ none

/-- The inode of an entry of a directory. -/
def child (fs : ℕ → Option File) (i : ℕ) (name : List UInt8) : Option ℕ :=
  (fs i).bind fun f => if f.type = tDir then SlotTable.lookup (key name) (entries f.data) else none

/-- From directory to directory. -/
def walk (fs : ℕ → Option File) : ℕ → List (List UInt8) → Option ℕ
  | i, [] => some i
  | i, name :: names => (child fs i name).bind fun j => walk fs j names

/-- What `namex` returns: the inode of the path, or that of the directory of its last element, and
an element. -/
def resolve (parent : Bool) (fs : ℕ → Option File) : ℕ → List UInt8 → List (List UInt8) →
    Option (ℕ × List UInt8)
  | i, last, [] => if parent then none else some (i, last)
  | i, _, name :: names =>
      (fs i).bind fun f =>
        if f.type = tDir then
          if parent ∧ names = [] then some (i, name)
          else (SlotTable.lookup (key name) (entries f.data)).bind fun j =>
            resolve parent fs j name names
        else none

theorem child_eq (hf : fs i = some f) (hdir : f.type = tDir) :
    child fs i name = SlotTable.lookup (key name) (entries f.data) := by
  rw [child, hf, Option.bind_some, if_pos hdir]

theorem resolve_false (i : ℕ) (last : List UInt8) :
    resolve false fs i last es = (walk fs i es).map fun j => (j, es.getLastD last) := by
  induction es generalizing i last with
  | nil => rfl
  | cons name es ih =>
    rw [resolve, walk, child]
    cases fs i with
    | none => rfl
    | some f =>
      rw [Option.bind_some, Option.bind_some]
      by_cases hdir : f.type = tDir
      · rw [if_pos hdir, if_pos hdir, if_neg fun h => Bool.false_ne_true h.1, Option.map_bind]
        refine congrArg (Option.bind _) (funext fun j => ?_)
        rw [ih, Function.comp_apply, List.getLastD_cons]
      · rw [if_neg hdir, if_neg hdir]
        rfl

/-- **`namex`** goes from directory to directory. -/
theorem namexLoop_spec {parent : Bool} (hW : Wf img) (hC : Closed (files img))
    (hi : i ∈ inodes img) :
    namexLoop parent img i last path =
    some (resolve parent (files img) i last (elems path), img) := by
  obtain ⟨n, hn⟩ : ∃ n, n = path.length := ⟨_, rfl⟩
  induction n using Nat.strongRecOn generalizing i last path with
  | ind n ih =>
  rw [namexLoop]
  split
  · rename_i hskip
    rw [skipelem_none hskip]
    rfl
  · rename_i name rest hskip
    obtain ⟨helems, hrest⟩ := skipelem_some hskip
    have hlen := skipelem_length hskip
    have htype : (inodeAt img (inodeOff i)).type = (img.dinode i).type := same_inodeAt.type
    rw [ilock_eq hi, Option.bind_eq_bind, Option.bind_some, helems, resolve, files_eq hi,
      Option.bind_some,
      htype]
    dsimp only
    by_cases hdir : (img.dinode i).type = tDir
    · obtain ⟨h16, hlinks⟩ := hC i _ (files_eq hi) hdir
      rw [length_contents] at h16
      rw [if_neg (not_not.2 hdir), if_pos hdir]
      by_cases hlast : parent = true ∧ rest = []
      · rw [if_pos hlast, if_pos ⟨hlast.1, hrest.1 hlast.2⟩]
      rw [if_neg hlast, if_neg fun h => hlast ⟨h.1, hrest.2 h.2⟩]
      cases hlook : SlotTable.lookup (key name) (entries (contents img (img.dinode i))) with
      | none =>
        rw [dirlookup_none hW hi same_inodeAt h16 hdir hlook]
        rfl
      | some j =>
        obtain ⟨k, -, hfound⟩ := dirlookup_some hW hi same_inodeAt h16 hdir hlook
        have hj : j ∈ inodes img := mem_inodes.2 (Option.ne_none_iff_exists'.1 (hlinks _ j hlook))
        rw [hfound, Option.bind_eq_bind, Option.bind_some, Option.bind_some]
        dsimp only
        rw [ih rest.length (hn ▸ hlen) hj rfl]
    · rw [if_pos hdir, if_neg hdir]

end OsProjects.Kernel
