import OsProjects.Mkfs.Store

/-!
# The inodes of a host directory

The inodes that `addDir` makes of a host directory, by number, with the contents they are to hold
(`HostDir.table`).  A directory holds `"."`, `".."` and its links (`HostDir.links`).  The numbers
are given out in order (`fst_table`), the links are to each of them once (`perm_table`), and the
parent of a directory has a link to it and a smaller number (`parent_table`, `proper_table`).
-/

namespace OsProjects.Mkfs

open Fsck

variable {cur j p N : ℕ} {e : ℕ × Content} {l : List (ℕ × Name)}

/-- A link: the number and the name of an entry. -/
abbrev Link := ℕ × Name

/-- What an inode holds; of a directory, the number of its parent and its links. -/
inductive Content where
  | file (data : List UInt8)
  | dir (parent : ℕ) (links : List Link)

/-- The bytes of an entry. -/
def linkBytes (e : Link) : List UInt8 := direntBytes e.1 e.2.bytes

/-- The bytes of `"."` and `".."`. -/
def dotBytes (cur parent : ℕ) : List UInt8 := direntBytes cur [46] ++ direntBytes parent [46, 46]

namespace Content

/-- The links of a directory. -/
def links : Content → List Link
  | file _ => []
  | dir _ l => l

theorem links_dir {parent : ℕ} : (dir parent l).links = l := rfl

/-- The bytes of inode `cur`. -/
def bytes (cur : ℕ) : Content → List UInt8
  | file data => data
  | dir parent links => dotBytes cur parent ++ links.flatMap linkBytes

def type : Content → ℕ
  | file _ => tFile
  | dir _ _ => tDir

theorem type_ne_zero (content : Content) : content.type ≠ 0 := by
  cases content <;> simp [type, tFile, tDir]

theorem type_le (content : Content) : content.type ≤ tDev := by
  cases content <;> simp [type, tFile, tDir, tDev]

def size : Content → ℕ
  | file data => data.length
  | dir _ links => 32 + 16 * links.length

/-- What is true of the contents of inode `j`, the root directory apart. -/
def Proper (j : ℕ) : Content → Prop
  | file data => data.length ≤ bsize * maxfile
  | dir parent l => parent < j ∧ ∀ k ∈ l, ¬k.2.skipped

end Content

namespace HostDir

/-- The number of inodes. -/
def count : HostDir → ℕ
  | nil => 0
  | file name _ rest => if name.skipped then rest.count else 1 + rest.count
  | dir name sub rest => if name.skipped then rest.count else 1 + sub.count + rest.count

/-- The links of the directory if its inodes start at number `N`. -/
def links : HostDir → ℕ → List Link
  | nil, _ => []
  | file name _ rest, N =>
      if name.skipped then rest.links N else (N, name) :: rest.links (N + 1)
  | dir name sub rest, N =>
      if name.skipped then rest.links N else (N, name) :: rest.links (N + 1 + sub.count)

/-- The inodes of the entries of directory `cur`, from number `N` on. -/
def table : HostDir → ℕ → ℕ → List (ℕ × Content)
  | nil, _, _ => []
  | file name reads rest, cur, N =>
      if name.skipped then rest.table cur N
      else (N, .file reads.flatten) :: rest.table cur (N + 1)
  | dir name sub rest, cur, N =>
      if name.skipped then rest.table cur N
      else (N, .dir cur (sub.links (N + 1))) ::
        (sub.table N (N + 1) ++ rest.table cur (N + 1 + sub.count))

/-- Every file has at most `maxfile` blocks. -/
def FilesFit : HostDir → Prop
  | nil => True
  | file name reads rest =>
      (¬name.skipped → reads.flatten.length ≤ bsize * maxfile) ∧ rest.FilesFit
  | dir name sub rest => (¬name.skipped → sub.FilesFit) ∧ rest.FilesFit

theorem length_links_le (t : HostDir) (N : ℕ) : (t.links N).length ≤ t.count := by
  induction t generalizing N with
  | nil => exact le_rfl
  | file name reads rest ih =>
    rw [links, count]
    split
    · exact ih N
    · rw [List.length_cons, Nat.add_comm 1]
      exact Nat.succ_le_succ (ih (N + 1))
  | dir name sub rest _ ih =>
    rw [links, count]
    split
    · exact ih N
    · have := ih (N + 1 + sub.count)
      rw [List.length_cons]
      omega

/-- The numbers of the table, in order. -/
theorem fst_table (t : HostDir) : (t.table cur N).map Prod.fst = List.range' N t.count := by
  induction t generalizing cur N with
  | nil => rfl
  | file name reads rest ih =>
    by_cases hskip : name.skipped
    · simpa only [table, count, if_pos hskip] using ih
    · simp only [table, count, if_neg hskip, List.map_cons, ih]
      rw [Nat.add_comm 1, List.range'_succ]
  | dir name sub rest ihs ih =>
    by_cases hskip : name.skipped
    · simpa only [table, count, if_pos hskip] using ih
    · simp only [table, count, if_neg hskip, List.map_cons, List.map_append, ihs, ih]
      rw [List.range'_append_1, Nat.add_assoc 1, Nat.add_comm 1, List.range'_succ]

theorem mem_table (t : HostDir) (h : e ∈ t.table cur N) : N ≤ e.1 ∧ e.1 < N + t.count := by
  have hmem := List.mem_map_of_mem (f := Prod.fst) h
  rwa [fst_table, List.mem_range'_1] at hmem

/-- The numbers that the directories of a table have links to. -/
def named (T : List (ℕ × Content)) : List ℕ := T.flatMap fun e => e.2.links.map Prod.fst

theorem named_cons (e : ℕ × Content) (T : List (ℕ × Content)) :
    named (e :: T) = e.2.links.map Prod.fst ++ named T := rfl

theorem named_append (T T' : List (ℕ × Content)) : named (T ++ T') = named T ++ named T' :=
  List.flatMap_append

/-- The links are to the inodes of the entries, once to each. -/
theorem perm_table (t : HostDir) :
    ((t.links N).map Prod.fst ++ named (t.table cur N)).Perm (List.range' N t.count) := by
  induction t generalizing cur N with
  | nil => exact .refl _
  | file name reads rest ih =>
    by_cases hskip : name.skipped
    · simpa only [links, table, count, if_pos hskip] using ih
    · simp only [links, table, count, if_neg hskip, List.map_cons]
      rw [Nat.add_comm 1, List.range'_succ]
      exact ih.cons N
  | dir name sub rest ihs ih =>
    by_cases hskip : name.skipped
    · simpa only [links, table, count, if_pos hskip] using ih
    · simp only [links, table, count, if_neg hskip, List.map_cons, List.cons_append, named_cons,
        named_append, Content.links_dir]
      rw [Nat.add_assoc 1, Nat.add_comm 1, List.range'_succ, ← List.range'_append_1]
      refine .cons N ((List.perm_iff_count.2 fun i => ?_).trans
        ((@ihs N (N + 1)).append (@ih cur (N + 1 + sub.count))))
      simp only [List.count_append]
      omega

/-- The parent of a directory of the table has a link to it. -/
theorem parent_table (t : HostDir) (h : (j, .dir p l) ∈ t.table cur N) :
    (p = cur ∧ j ∈ (t.links N).map Prod.fst) ∨
      ∃ p' l', (p, .dir p' l') ∈ t.table cur N ∧ j ∈ l'.map Prod.fst := by
  induction t generalizing cur N with
  | nil => cases h
  | file name reads rest ih =>
    by_cases hskip : name.skipped
    · simp only [links, table, if_pos hskip] at h ⊢
      exact ih h
    · simp only [links, table, if_neg hskip, List.map_cons] at h ⊢
      rcases List.mem_cons.1 h with h | h
      · cases h
      rcases ih h with ⟨hp, hj⟩ | ⟨p', l', hp, hj⟩
      · exact .inl ⟨hp, List.mem_cons_of_mem N hj⟩
      · exact .inr ⟨p', l', List.mem_cons_of_mem _ hp, hj⟩
  | dir name sub rest ihs ih =>
    by_cases hskip : name.skipped
    · simp only [links, table, if_pos hskip] at h ⊢
      exact ih h
    · simp only [links, table, if_neg hskip, List.map_cons] at h ⊢
      rcases List.mem_cons.1 h with h | h
      · cases h
        exact .inl ⟨rfl, List.mem_cons_self⟩
      rcases List.mem_append.1 h with h | h
      · rcases ihs h with ⟨rfl, hj⟩ | ⟨p', l', hp, hj⟩
        · exact .inr ⟨cur, _, List.mem_cons_self, hj⟩
        · exact .inr ⟨p', l', List.mem_cons_of_mem _ (List.mem_append_left _ hp), hj⟩
      · rcases ih h with ⟨hp, hj⟩ | ⟨p', l', hp, hj⟩
        · exact .inl ⟨hp, List.mem_cons_of_mem N hj⟩
        · exact .inr ⟨p', l', List.mem_cons_of_mem _ (List.mem_append_right _ hp), hj⟩

/-- The names of links are not those that are skipped. -/
theorem not_skipped_links (t : HostDir) : ∀ k ∈ t.links N, ¬k.2.skipped := by
  induction t generalizing N with
  | nil => simp [links]
  | file name reads rest ih =>
    by_cases hskip : name.skipped
    · simpa only [links, if_pos hskip] using ih
    · simp only [links, if_neg hskip]
      exact List.forall_mem_cons.2 ⟨hskip, ih⟩
  | dir name sub rest _ ih =>
    by_cases hskip : name.skipped
    · simpa only [links, if_pos hskip] using ih
    · simp only [links, if_neg hskip]
      exact List.forall_mem_cons.2 ⟨hskip, ih⟩

/-- Files fit, and directories come after their parents and have no links that are skipped. -/
theorem proper_table (t : HostDir) (ht : t.FilesFit) (hcur : cur < N) (h : e ∈ t.table cur N) :
    e.2.Proper e.1 := by
  induction t generalizing cur N with
  | nil => cases h
  | file name reads rest ih =>
    by_cases hskip : name.skipped
    · simp only [table, if_pos hskip] at h
      exact ih ht.2 hcur h
    · simp only [table, if_neg hskip] at h
      rcases List.mem_cons.1 h with rfl | h
      · exact ht.1 hskip
      · exact ih ht.2 (Nat.lt_succ_of_lt hcur) h
  | dir name sub rest ihs ih =>
    by_cases hskip : name.skipped
    · simp only [table, if_pos hskip] at h
      exact ih ht.2 hcur h
    · simp only [table, if_neg hskip] at h
      rcases List.mem_cons.1 h with rfl | h
      · exact ⟨hcur, sub.not_skipped_links⟩
      rcases List.mem_append.1 h with h | h
      · exact ihs (ht.1 hskip) (Nat.lt_succ_self N) h
      · exact ih ht.2 (by omega) h

end HostDir

/-- The blocks of the inodes of a table. -/
def tableCost (T : List (ℕ × Content)) : ℕ := (T.map fun e => cost e.2.size).sum

theorem tableCost_cons {e : ℕ × Content} {T : List (ℕ × Content)} :
    tableCost (e :: T) = cost e.2.size + tableCost T := rfl

theorem tableCost_append {T T' : List (ℕ × Content)} :
    tableCost (T ++ T') = tableCost T + tableCost T' := by
  rw [tableCost, List.map_append, List.sum_append]
  rfl

theorem length_direntBytes (inum : ℕ) (name : List UInt8) :
    (direntBytes inum name).length = 16 := by
  rw [direntBytes, List.length_append, Bytes.length_leBytes, List.length_take, List.length_append,
    List.length_replicate]
  omega

theorem length_linkBytes (e : Link) : (linkBytes e).length = 16 := length_direntBytes _ _

theorem length_dotBytes {cur parent : ℕ} : (dotBytes cur parent).length = 32 := by
  rw [dotBytes, List.length_append, length_direntBytes, length_direntBytes]

theorem Content.length_bytes (e : Content) : (e.bytes cur).length = e.size := by
  cases e with
  | file data => rfl
  | dir parent links =>
    rw [Content.bytes, List.length_append, length_dotBytes, length_flatMap_const length_linkBytes]
    rfl

/-! ### The image -/

namespace HostDir

variable {t : HostDir}

/-- The inodes of the image: the root directory and those of its entries. -/
def inodes (t : HostDir) : List (ℕ × Content) := (1, .dir 1 (t.links 2)) :: t.table 1 2

/-- The files and directories fit the format and the image: at most 199 inodes, at most `maxfile`
blocks in a file, and at most 1024 blocks with those that are in use at the start. -/
structure Fits (t : HostDir) : Prop where
  inodes : 1 + t.count ≤ 199
  files : t.FilesFit
  blocks : 29 + tableCost t.inodes ≤ 1024

theorem fst_inodes : t.inodes.map Prod.fst = List.range' 1 (1 + t.count) := by
  rw [inodes, List.map_cons, fst_table, Nat.add_comm 1, List.range'_succ]

theorem mem_inodes (h : e ∈ t.inodes) : 1 ≤ e.1 ∧ e.1 < 2 + t.count := by
  have hmem := List.mem_map_of_mem (f := Prod.fst) h
  rw [fst_inodes, List.mem_range'_1] at hmem
  omega

/-- Every number has its inode. -/
theorem exists_content (h1 : 1 ≤ j) (hlt : j < 2 + t.count) :
    ∃ content, (j, content) ∈ t.inodes := by
  have hmem : j ∈ t.inodes.map Prod.fst := by
    rw [fst_inodes, List.mem_range'_1]
    omega
  obtain ⟨e, he, rfl⟩ := List.mem_map.1 hmem
  exact ⟨e.2, he⟩

/-- The links of the image are to every inode but the root, once to each. -/
theorem perm_inodes : (named t.inodes).Perm (List.range' 2 t.count) := by
  rw [inodes, named_cons]
  exact t.perm_table

theorem nodup_named : (named t.inodes).Nodup := perm_inodes.nodup_iff.2 List.nodup_range'

theorem mem_named : j ∈ named t.inodes ↔ 2 ≤ j ∧ j < 2 + t.count := by
  rw [perm_inodes.mem_iff, List.mem_range'_1]

/-- The links of one directory. -/
theorem mem_named_of_links (h : e ∈ t.inodes) (hj : j ∈ e.2.links.map Prod.fst) :
    2 ≤ j ∧ j < 2 + t.count := mem_named.1 (List.mem_flatMap.2 ⟨e, h, hj⟩)

theorem length_links (h : e ∈ t.inodes) : e.2.links.length ≤ t.count := by
  have hnodup : (e.2.links.map Prod.fst).Nodup := (List.nodup_flatMap.1 nodup_named).1 e h
  have hsub : e.2.links.map Prod.fst ⊆ List.range' 2 t.count := fun j hj => by
    rw [List.mem_range'_1]
    exact mem_named_of_links h hj
  have hle := (hnodup.subperm hsub).length_le
  rwa [List.length_map, List.length_range'] at hle

namespace Fits

variable (ht : t.Fits)

include ht

theorem not_skipped (h : e ∈ t.inodes) : ∀ k ∈ e.2.links, ¬k.2.skipped := by
  rcases List.mem_cons.1 h with rfl | h
  · exact t.not_skipped_links
  · have hproper := t.proper_table ht.files (by decide) h
    obtain ⟨j, content⟩ := e
    cases content with
    | file data => simp [Content.links]
    | dir parent l => exact hproper.2

/-- The parent of a directory is the root's own, or a directory before it with a link to it. -/
theorem parent (h : (j, .dir p l) ∈ t.inodes) : (j = 1 ∧ p = 1) ∨
    (j ≠ 1 ∧ p < j ∧ ∃ p' l', (p, .dir p' l') ∈ t.inodes ∧ j ∈ l'.map Prod.fst) := by
  rcases List.mem_cons.1 h with h | h
  · cases h
    exact .inl ⟨rfl, rfl⟩
  · have hlt : 2 ≤ j := (t.mem_table h).1
    have hproper := t.proper_table ht.files (by decide) h
    refine .inr ⟨by omega, hproper.1, ?_⟩
    rcases t.parent_table h with ⟨rfl, hj⟩ | ⟨p', l', hp, hj⟩
    · exact ⟨1, _, List.mem_cons_self, hj⟩
    · exact ⟨p', l', List.mem_cons_of_mem _ hp, hj⟩

/-- No inode needs more blocks than it can have, and a directory none beyond the direct ones. -/
theorem dataBlocks_le (h : e ∈ t.inodes) :
    dataBlocks e.2.size ≤ maxfile ∧ (e.2.type = tDir → dataBlocks e.2.size ≤ ndirect) := by
  have hmaxfile : maxfile = 140 := by decide
  have hinodes := ht.inodes
  have hlen := length_links h
  obtain ⟨j, content⟩ := e
  cases content with
  | file data =>
    refine ⟨?_, fun hty => by cases hty⟩
    rcases List.mem_cons.1 h with h | h
    · cases h
    · have hle : data.length ≤ bsize * maxfile := t.proper_table ht.files (by decide) h
      simp only [Content.size]
      unfold dataBlocks bsize at *
      omega
  | dir parent l =>
    have hlen : l.length ≤ t.count := hlen
    simp only [Content.size]
    unfold dataBlocks bsize ndirect
    omega

end Fits

end HostDir

end OsProjects.Mkfs
