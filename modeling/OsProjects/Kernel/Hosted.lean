import OsProjects.Kernel.Mounted
import OsProjects.Kernel.Names

/-!
# From the host to the kernel

What `mkfs` has written for a directory is the table of its entries (`entries_diskFile`), and on the
image `namei` of the path of a host file comes to an inode from which `readi` returns the bytes of
that file (`namei_host`), if no two names of a directory are the same up to 14 bytes.
-/

namespace OsProjects.Kernel

open Fsck Mkfs

variable {t : HostDir} {img : Image} {i j k m x cur parent N inum : ℕ} {l : List Link}
  {name path last data : List UInt8} {names : List (List UInt8)}

/-! ### The entries of a directory -/

/-- The slot of a link. -/
def linkSlot (e : Link) : Option (List UInt8 × ℕ) := some (key e.2.bytes, e.1)

theorem entries_cons {bs : List UInt8} {e : Option (List UInt8 × ℕ)} (h : entries bs = [e])
    (hlen : bs.length = 16) : entries (bs ++ data) = e :: entries data := by
  rw [entries_append (by rw [hlen]), h, List.singleton_append]

theorem entries_links (hl : ∀ e ∈ l, e.1 ≠ 0 ∧ e.1 < 2 ^ 16) :
    entries (l.flatMap linkBytes ++ data) = l.map linkSlot ++ entries data := by
  induction l with
  | nil => rfl
  | cons e l ih =>
    obtain ⟨⟨h0, hlt⟩, hl⟩ := List.forall_mem_cons.1 hl
    have hentry : entries (linkBytes e) = [linkSlot e] := entries_direntBytes h0 hlt
    rw [List.flatMap_cons, List.append_assoc, entries_cons hentry (length_linkBytes e), ih hl]
    rfl

theorem entries_replicate (m : ℕ) :
    entries (List.replicate (16 * m) 0) = List.replicate m none := by
  induction m with
  | zero => rfl
  | succ m ih =>
    rw [Nat.mul_succ, Nat.add_comm, List.replicate_add, entries_cons entries_zeros (by decide), ih]
    rfl

/-- **A directory** of the first image. -/
theorem entries_diskFile (h0 : x ≠ 0) (hx : x < 2 ^ 16) (h0' : parent ≠ 0)
    (hparent : parent < 2 ^ 16)
    (hl : ∀ e ∈ l, e.1 ≠ 0 ∧ e.1 < 2 ^ 16) : ∃ m, entries (diskFile x (.dir parent l)).data =
      some (key [46], x) :: some (key [46, 46], parent) ::
      (l.map linkSlot ++ List.replicate m none) := by
  obtain ⟨m, hm⟩ : ∃ m, diskSize (.dir parent l) - (Content.dir parent l).size = 16 * m := by
    refine ⟨(diskSize (.dir parent l) - (Content.dir parent l).size) / 16, ?_⟩
    show ((32 + 16 * l.length) / 512 + 1) * 512 - (32 + 16 * l.length) =
      16 * ((((32 + 16 * l.length) / 512 + 1) * 512 - (32 + 16 * l.length)) / 16)
    omega
  refine ⟨m, ?_⟩
  show entries (direntBytes x [46] ++ direntBytes parent [46, 46] ++ l.flatMap linkBytes ++
    List.replicate (diskSize (.dir parent l) - (Content.dir parent l).size) 0) = _
  rw [hm, List.append_assoc, List.append_assoc,
    entries_cons (entries_direntBytes h0 hx) (length_direntBytes _ _),
    entries_cons (entries_direntBytes h0' hparent) (length_direntBytes _ _), entries_links hl,
    entries_replicate]

theorem length_diskFile {content : Content} :
    (diskFile i content).data.length = diskSize content := by
  have hle := size_le_diskSize content
  show (content.bytes i ++ List.replicate (diskSize content - content.size) 0).length = _
  rw [List.length_append, Content.length_bytes, List.length_replicate]
  omega

/-! ### Paths of the host -/

/-- The entry with a name, other than the dots: the bytes of a file, or a directory. -/
def entry : HostDir → List UInt8 → Option (List UInt8 ⊕ HostDir)
  | .nil, _ => none
  | .file fname reads rest, name =>
      if ¬fname.skipped ∧ fname.bytes = name then some (.inl reads.flatten) else entry rest name
  | .dir dname sub rest, name =>
      if ¬dname.skipped ∧ dname.bytes = name then some (.inr sub) else entry rest name

/-- The names of a directory, as the kernel compares them. -/
def hostKeys : HostDir → List (List UInt8)
  | .nil => []
  | .file name _ rest => if name.skipped then hostKeys rest else key name.bytes :: hostKeys rest
  | .dir name _ rest => if name.skipped then hostKeys rest else key name.bytes :: hostKeys rest

/-- In no directory are two names the same up to 14 bytes. -/
def Distinct : HostDir → Prop
  | .nil => True
  | .file name _ rest => (¬name.skipped → key name.bytes ∉ hostKeys rest) ∧ Distinct rest
  | .dir name sub rest => (¬name.skipped → key name.bytes ∉ hostKeys rest ∧ Distinct sub) ∧
    Distinct rest

/-- The bytes of the file at a path. -/
def fileAt : HostDir → List (List UInt8) → Option (List UInt8)
  | _, [] => none
  | t, name :: names =>
      match entry t name with
      | some (.inl data) => if names = [] then some data else none
      | some (.inr sub) => fileAt sub names
      | none => none

/-- Inode `i` of a table is that of an entry of directory `cur`. -/
def At (T : List (ℕ × Content)) (cur i : ℕ) : List UInt8 ⊕ HostDir → Prop
  | .inl data => (i, .file data) ∈ T
  | .inr sub => (i, .dir cur (sub.links (i + 1))) ∈ T ∧ ∀ e ∈ sub.table i (i + 1), e ∈ T

theorem At.mono {T T' : List (ℕ × Content)} {e : List UInt8 ⊕ HostDir} (h : At T cur i e)
    (hsub : ∀ e ∈ T, e ∈ T') : At T' cur i e := by
  cases e with
  | inl data => exact hsub _ h
  | inr sub => exact ⟨hsub _ h.1, fun e he => hsub _ (h.2 e he)⟩

/-- A name is what its first 14 bytes are. -/
theorem key_take : key (name.take dirsiz) = key name :=
  nameOf_congr fun k hk => by
    rw [nameBuffer, nameBuffer, List.getD_eq_getElem?_getD, List.getElem?_take, if_pos hk,
      List.getD_eq_getElem?_getD]

/-- The name of an entry is one of the directory, and it is not a dot. -/
theorem entry_name {e : List UInt8 ⊕ HostDir} (t : HostDir) (h : entry t name = some e) :
    key name ∈ hostKeys t ∧ ∃ n : Name, ¬n.skipped ∧ n.bytes = name := by
  induction t with
  | nil => cases h
  | file fname reads trest ih =>
    rw [entry] at h
    rw [hostKeys]
    split at h
    · rename_i hname
      rw [if_neg hname.1, hname.2]
      exact ⟨List.mem_cons_self, fname, hname⟩
    · obtain ⟨hmem, hn⟩ := ih h
      split
      · exact ⟨hmem, hn⟩
      · exact ⟨List.mem_cons_of_mem _ hmem, hn⟩
  | dir dname sub trest _ ih =>
    rw [entry] at h
    rw [hostKeys]
    split at h
    · rename_i hname
      rw [if_neg hname.1, hname.2]
      exact ⟨List.mem_cons_self, dname, hname⟩
    · obtain ⟨hmem, hn⟩ := ih h
      split
      · exact ⟨hmem, hn⟩
      · exact ⟨List.mem_cons_of_mem _ hmem, hn⟩

/-- Without a NUL the name is cut off at 14 bytes only. -/
theorem key_eq_take (h : 0 ∉ name) : key name = name.take dirsiz := by
  have hmap : (List.range dirsiz).map (nameBuffer name) =
      name.take dirsiz ++ List.replicate (dirsiz - name.length) 0 := by
    refine List.ext_getElem ?_ fun k hk hk' => ?_
    · rw [List.length_map, List.length_range, List.length_append, List.length_take,
        List.length_replicate]
      omega
    · rw [List.length_map, List.length_range] at hk
      rw [List.getElem_map, List.getElem_range, nameBuffer]
      rcases Nat.lt_or_ge k name.length with hlt | hge
      · rw [List.getElem_append_left (by rw [List.length_take]; omega), List.getElem_take,
          List.getD_eq_getElem _ _ hlt]
      · rw [List.getElem_append_right (by rw [List.length_take]; omega), List.getElem_replicate,
          List.getD_eq_default _ _ hge]
  have hall : ∀ c ∈ name.take dirsiz, decide (c ≠ 0) = true := fun c hc =>
    decide_eq_true fun h0 => h (h0 ▸ List.mem_of_mem_take hc)
  rw [key, nameOf, hmap, List.takeWhile_append_of_pos hall, List.takeWhile_replicate,
    if_neg (by decide),
    List.append_nil]

theorem key_ne_dots {n : Name} (h : ¬n.skipped) :
    key n.bytes ≠ key [46] ∧ key n.bytes ≠ key [46, 46] := by
  have hdots : key [46] = [46] ∧ key [46, 46] = [46, 46] := by decide
  have hshort : ∀ {l : List UInt8}, n.bytes.take dirsiz = l → l.length < dirsiz → n.bytes = l := by
    intro l hl hlen
    rw [← hl, List.length_take] at hlen
    rw [← hl, List.take_of_length_le (by omega)]
  rw [key_eq_take n.nul, hdots.1, hdots.2]
  exact ⟨fun heq => h (.inl (hshort heq (by decide))), fun heq => h (.inr (hshort heq (by decide)))⟩

/-- The inode of an entry. -/
theorem lookup_links {e : List UInt8 ⊕ HostDir} {rest : SlotTable (List UInt8) ℕ} (t : HostDir)
    (hD : Distinct t) (h : entry t name = some e) :
    ∃ i, SlotTable.lookup (key name) ((t.links N).map linkSlot ++ rest) = some i ∧
      At (t.table cur N) cur i e := by
  induction t generalizing N with
  | nil => cases h
  | file fname reads trest ih =>
    rw [entry] at h
    by_cases hskip : fname.skipped
    · rw [if_neg fun hname => hname.1 hskip] at h
      rw [HostDir.links, HostDir.table, if_pos hskip, if_pos hskip]
      exact ih hD.2 h
    · rw [HostDir.links, HostDir.table, if_neg hskip, if_neg hskip, List.map_cons, List.cons_append,
        linkSlot, SlotTable.lookup]
      by_cases hname : fname.bytes = name
      · rw [if_pos ⟨hskip, hname⟩] at h
        obtain rfl := Option.some.inj h
        exact ⟨N, if_pos (congrArg key hname), List.mem_cons_self⟩
      · rw [if_neg fun hand => hname hand.2] at h
        rw [if_neg fun heq : key fname.bytes = key name =>
          hD.1 hskip (heq ▸ (entry_name trest h).1)]
        obtain ⟨i, hi, hat⟩ := ih (N := N + 1) hD.2 h
        exact ⟨i, hi, hat.mono fun e he => List.mem_cons_of_mem _ he⟩
  | dir dname sub trest ihs ih =>
    rw [entry] at h
    by_cases hskip : dname.skipped
    · rw [if_neg fun hname => hname.1 hskip] at h
      rw [HostDir.links, HostDir.table, if_pos hskip, if_pos hskip]
      exact ih hD.2 h
    · rw [HostDir.links, HostDir.table, if_neg hskip, if_neg hskip, List.map_cons, List.cons_append,
        linkSlot, SlotTable.lookup]
      by_cases hname : dname.bytes = name
      · rw [if_pos ⟨hskip, hname⟩] at h
        obtain rfl := Option.some.inj h
        exact ⟨N, if_pos (congrArg key hname), List.mem_cons_self, fun e he =>
          List.mem_cons_of_mem _ (List.mem_append_left _ he)⟩
      · rw [if_neg fun hand => hname hand.2] at h
        rw [if_neg fun heq : key dname.bytes = key name =>
          (hD.1 hskip).1 (heq ▸ (entry_name trest h).1)]
        obtain ⟨i, hi, hat⟩ := ih (N := N + 1 + sub.count) hD.2 h
        exact ⟨i, hi, hat.mono fun e he => List.mem_cons_of_mem _ (List.mem_append_right _ he)⟩

/-- The directories of a directory whose names are distinct. -/
theorem Distinct.entry {sub : HostDir} (t : HostDir) (hD : Distinct t)
    (h : entry t name = some (.inr sub)) : Distinct sub := by
  induction t with
  | nil => cases h
  | file fname reads trest ih =>
    rw [Kernel.entry] at h
    split at h
    · cases h
    · exact ih hD.2 h
  | dir dname sub' trest _ ih =>
    rw [Kernel.entry] at h
    split at h
    · rename_i hname
      obtain rfl := Sum.inr.inj (Option.some.inj h)
      exact (hD.1 hname.1).2
    · exact ih hD.2 h

section Mounted

variable {fs : ℕ → Option File} (ht : t.Fits)
  (hfs : ∀ i content, (i, content) ∈ t.inodes → fs i = some (diskFile i content))

include ht

theorem dir_range (h : (x, .dir parent l) ∈ t.inodes) :
    x ≠ 0 ∧ x < 200 ∧ parent ≠ 0 ∧ parent < 200 ∧
    (∃ content, (parent, content) ∈ t.inodes) ∧
    ∀ e ∈ l, e.1 ≠ 0 ∧ e.1 < 200 ∧ ∃ content, (e.1, content) ∈ t.inodes := by
  have hcount := ht.inodes
  have hx := HostDir.mem_inodes h
  have hparent : 1 ≤ parent ∧ parent < 2 + t.count := by
    rcases ht.parent h with ⟨-, rfl⟩ | ⟨-, -, p', l', hp, -⟩
    · omega
    · exact HostDir.mem_inodes hp
  have hl : ∀ e ∈ l, 2 ≤ e.1 ∧ e.1 < 2 + t.count := fun e he =>
    HostDir.mem_named_of_links h (List.mem_map_of_mem he)
  refine ⟨by omega, by omega, by omega, by omega, HostDir.exists_content hparent.1 hparent.2,
    fun e he => ?_⟩
  have hrange := hl e he
  exact ⟨by omega, by omega, HostDir.exists_content (by omega) hrange.2⟩

theorem exists_entries (h : (x, .dir parent l) ∈ t.inodes) :
    ∃ m, entries (diskFile x (.dir parent l)).data =
      some (key [46], x) :: some (key [46, 46], parent) ::
      (l.map linkSlot ++ List.replicate m none) := by
  obtain ⟨h0, hx, h0', hparent, -, hl⟩ := dir_range ht h
  exact entries_diskFile h0 (by omega) h0' (by omega) fun e he => ⟨(hl e he).1, by
    have := (hl e he).2.1
    omega⟩

include hfs

/-- The entries of the first image lead to inodes. -/
theorem closed_of_host (hnone : ∀ i, i ∉ t.inodes.map Prod.fst → fs i = none) : Closed fs := by
  intro x f hf hdir
  have hmem : x ∈ t.inodes.map Prod.fst := by
    by_contra h
    rw [hnone x h] at hf
    cases hf
  obtain ⟨⟨x, content⟩, he, rfl⟩ := List.mem_map.1 hmem
  rw [hfs x content he] at hf
  obtain rfl := Option.some.inj hf
  cases content with
  | file data => cases hdir
  | dir parent l =>
    obtain ⟨m, hentries⟩ := exists_entries ht he
    obtain ⟨-, -, -, -, hparent, hl⟩ := dir_range ht he
    refine ⟨?_, fun name j hj => ?_⟩
    · rw [length_diskFile]
      exact ⟨((32 + 16 * l.length) / 512 + 1) * 32, by
        show ((32 + 16 * l.length) / 512 + 1) * 512 = _
        omega⟩
    · have hmem := SlotTable.mem_of_lookup hj
      rw [hentries] at hmem
      have hin : ∃ content, (j, content) ∈ t.inodes := by
        rcases List.mem_cons.1 hmem with h | hmem
        · obtain ⟨-, rfl⟩ := Prod.mk.inj (Option.some.inj h)
          exact ⟨_, he⟩
        rcases List.mem_cons.1 hmem with h | hmem
        · obtain ⟨-, rfl⟩ := Prod.mk.inj (Option.some.inj h)
          exact hparent
        rcases List.mem_append.1 hmem with hmem | hmem
        · obtain ⟨e, he, heq⟩ := List.mem_map.1 hmem
          obtain ⟨-, rfl⟩ := Prod.mk.inj (Option.some.inj heq)
          exact (hl e he).2.2
        · cases (List.eq_of_mem_replicate hmem)
      obtain ⟨content, hc⟩ := hin
      rw [hfs j content hc]
      exact Option.some_ne_none _

/-- The path of a host file leads to its inode. -/
theorem walk_host (sub : HostDir) (hx : (x, .dir parent (sub.links N)) ∈ t.inodes)
    (hT : ∀ e ∈ sub.table x N, e ∈ t.inodes)
    (hD : Distinct sub) (hfile : fileAt sub names = some data) :
    ∃ i, walk fs x (names.map (List.take dirsiz)) = some i ∧ (i, .file data) ∈ t.inodes := by
  induction names generalizing sub x parent N with
  | nil => cases hfile
  | cons name names ih =>
    obtain ⟨m, hentries⟩ := exists_entries ht hx
    rw [fileAt] at hfile
    cases hentry : entry sub name with
    | none =>
      rw [hentry] at hfile
      cases hfile
    | some e =>
      obtain ⟨i, hi, hat⟩ : ∃ i, SlotTable.lookup (key name)
          ((sub.links N).map linkSlot ++ List.replicate m none) = some i ∧
          At (sub.table x N) x i e :=
        lookup_links sub hD hentry
      obtain ⟨-, n, hskip, rfl⟩ := entry_name sub hentry
      have hchild : child fs x (n.bytes.take dirsiz) = some i := by
        rw [child_eq (hfs x _ hx) rfl, key_take, hentries, SlotTable.lookup, SlotTable.lookup,
          if_neg (Ne.symm (key_ne_dots hskip).1), if_neg (Ne.symm (key_ne_dots hskip).2), hi]
      rw [List.map_cons, walk, hchild, Option.bind_some]
      rw [hentry] at hfile
      cases e with
      | inl data' =>
        dsimp only at hfile
        split at hfile
        · rename_i hnil
          obtain rfl := Option.some.inj hfile
          rw [hnil]
          exact ⟨i, rfl, hT _ hat⟩
        · cases hfile
      | inr sub' =>
        exact ih sub' (hT _ hat.1) (fun e he => hT _ (hat.2 e he)) (hD.entry sub hentry) hfile

end Mounted

/-- **From the host to the kernel**: on the image of a host directory the kernel finds each host
file by its path and reads its bytes. -/
theorem namei_host (ht : t.Fits) (hN : NoneFull t) (hD : Distinct t) (cwd : ℕ)
    (hroot : path.head? = some slash) (hfile : fileAt t (parts path) = some data) :
    ∃ s inum, main t = some s ∧
      (∃ last, namex cwd path false s.img = some (some (inum, last), s.img)) ∧
      ∀ off n, off ≤ data.length → off + n < 2 ^ 32 →
        exec (.read inum off n) s.img = some (.data (some ((data.drop off).take n)), s.img) := by
  obtain ⟨s, hmain, hW, hfs, hnone⟩ := exists_mounted ht hN
  have hC := closed_of_host ht hfs hnone
  have hrootmem : (1, Content.dir 1 (t.links 2)) ∈ t.inodes := List.mem_cons_self
  obtain ⟨inum, hwalk, hmem⟩ := walk_host ht hfs t hrootmem
    (fun e he => List.mem_cons_of_mem _ he) hD hfile
  have hroot1 : 1 ∈ inodes s.img := mem_inodes.2 ⟨_, hfs _ _ hrootmem⟩
  refine ⟨s, inum, hmain, ⟨(elems path).getLastD [], ?_⟩, fun off n hoff hn => ?_⟩
  · rw [namex, if_pos hroot, rootino, namexLoop_spec hW hC hroot1, resolve_false, elems, hwalk]
    rfl
  · have hi : inum ∈ inodes s.img := mem_inodes.2 ⟨_, hfs _ _ hmem⟩
    have hdata := hfs _ _ hmem
    rw [files_eq hi] at hdata
    have hcontents : contents s.img (s.img.dinode inum) = data := by
      have h := congrArg File.data (Option.some.inj hdata)
      rwa [show (diskFile inum (.file data)).data = data by
        show data ++ List.replicate (data.length - data.length) 0 = data
        rw [Nat.sub_self, List.replicate_zero, List.append_nil]] at h
    have hsize : (s.img.dinode inum).size = data.length := by rw [← hcontents, length_contents]
    rw [exec, ilock_eq hi, Option.bind_eq_bind, Option.bind_some,
      readi_some hW hi same_inodeAt (by omega) (by omega), hsize, if_pos ⟨hoff, hn⟩, hcontents]
    rfl

/-- The path `/d/a`. -/
theorem namei_host_sampleDir : ∃ s inum, main sampleDir = some s ∧
    (∃ last, namex 1 [47, 100, 47, 97] false s.img = some (some (inum, last), s.img)) ∧
      ∀ off n, off ≤ 3 → off + n < 2 ^ 32 → exec (.read inum off n) s.img =
        some (.data (some ((([104, 105, 33] : List UInt8).drop off).take n)), s.img) := by
  have hparts : parts [47, 100, 47, 97] = [[100], [97]] := by decide
  have hfile : fileAt sampleDir (parts [47, 100, 47, 97]) = some [104, 105, 33] := by
    rw [hparts]
    rfl
  have hD : Distinct sampleDir := by
    refine ⟨fun _ => ⟨by decide, fun _ => by decide, trivial⟩, fun _ => by decide, trivial⟩
  exact namei_host fits_sampleDir noneFull_sampleDir hD 1 rfl hfile

theorem keys_replicate (m : ℕ) :
    SlotTable.keys (List.replicate m none : SlotTable (List UInt8) ℕ) = [] := by
  induction m with
  | zero => rfl
  | succ m ih => exact ih

/-- Looking `d` up. -/
theorem names_run_sampleDir : ∃ img, Wf img ∧
    Run NameSpec (dirMap (files img)) [(.lookup 1 [100], .inl (some 2))] (dirMap (files img)) := by
  obtain ⟨s, -, hW, hfiles, -⟩ := exists_mounted fits_sampleDir noneFull_sampleDir
  have hroot : (1, Content.dir 1 (sampleDir.links 2)) ∈ sampleDir.inodes := List.mem_cons_self
  have hf := hfiles 1 _ hroot
  obtain ⟨m, hentries⟩ := exists_entries fits_sampleDir hroot
  have hdir : IsMap (diskFile 1 (.dir 1 (sampleDir.links 2))) := by
    refine ⟨rfl, ?_, ?_⟩
    · rw [length_diskFile]
      decide
    · rw [hentries, SlotTable.keys, List.filterMap_cons, List.filterMap_cons, List.filterMap_append]
      have hrest := keys_replicate m
      rw [SlotTable.keys] at hrest
      rw [hrest]
      decide
  have hmap := dirMap_eq_some.2 ⟨_, hf, hdir, rfl⟩
  obtain ⟨hi, hty, h16, -, hlook⟩ := dirMap_files hmap
  have hdata : SlotTable.lookup (key [100]) (entries (contents s.img (s.img.dinode 1))) =
      some 2 := by
    rw [← congrFun hlook (key [100]), hentries]
    rfl
  obtain ⟨k, -, hfound⟩ := dirlookup_some hW hi same_inodeAt h16 hty hdata
  refine ⟨s.img, names_run hW (fun e he => ?_) (Run.single_iff.2 ?_)⟩
  · obtain rfl := List.mem_singleton.1 he
    exact ⟨trivial, by rw [NameOp.dir, hmap]; rfl⟩
  · refine ⟨trivial, ?_⟩
    rw [execName, ilock_eq hi, Option.bind_eq_bind, Option.bind_some, hfound]
    rfl

end OsProjects.Kernel
