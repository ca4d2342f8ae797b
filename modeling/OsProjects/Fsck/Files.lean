import OsProjects.Fsck.Tree

/-!
# Files

What the checker finds out about regular files.  The blocks of a file of nonzero size are as many as
its size needs, where block 0, which is read for a missing indirect block, is empty
(`blocks_of_size`); those of a file of size 0 are not looked at.  The link count is compared with
what `file_block_arr` started with, the entries of direct blocks, and what the uninitialised pointer
makes of the entries of indirect blocks (`links_iff`).
-/

namespace OsProjects.Fsck

variable {sb : Superblock} {img : Image} {stale : ℕ → ℕ → ℕ → Option Dinode} {a : Arrays}
  {inum i : ℕ} {s t : Dirs} {d : Dinode} {de : Dirent} {sl : Slot} {sls : List Slot}

/-! ### Sizes -/

/-- The nonzero addresses of the data blocks of an inode: direct ones, and the entries of its
indirect block if it has one. -/
def dataCount (img : Image) (d : Dinode) : ℕ :=
  ((List.range ndirect).map d.addrs).countP (· ≠ 0) +
    if d.addrs ndirect = 0 then 0 else (img.entries (d.addrs ndirect)).countP (· ≠ 0)

theorem usedBlocks_refs : usedBlocks (refs img d) =
    ((List.range ndirect).map d.addrs).countP (· ≠ 0) +
      (img.entries (d.addrs ndirect)).countP (· ≠ 0) := by
  rw [usedBlocks, refs, List.countP_append, List.countP_cons, List.countP_map, List.countP_map,
    List.countP_map]
  simp only [Function.comp_def, Bool.false_eq_true, if_false, Nat.add_zero]

/-- Without an indirect block those of block 0 are counted, if there are any. -/
theorem usedBlocks_eq (h : d.addrs ndirect = 0 → ∀ addr ∈ img.entries 0, addr = 0) :
    usedBlocks (refs img d) = dataCount img d := by
  rw [usedBlocks_refs, dataCount]
  split
  · rename_i h0
    have hzero : (img.entries (d.addrs ndirect)).countP (· ≠ 0) = 0 := by
      rw [h0]
      exact List.countP_eq_zero.2 fun addr haddr => by simpa using h h0 addr haddr
    rw [hzero]
  · rfl

theorem dataCount_le : dataCount img d ≤ ndirect + nindirect := by
  have hdirect : ((List.range ndirect).map d.addrs).countP (· ≠ 0) ≤ ndirect := by
    refine List.countP_le_length.trans (le_of_eq ?_)
    rw [List.length_map, List.length_range]
  have hindirect : (img.entries (d.addrs ndirect)).countP (· ≠ 0) ≤ nindirect := by
    refine List.countP_le_length.trans (le_of_eq ?_)
    rw [Image.entries, List.length_map, List.length_range]
  rw [dataCount]
  split <;> omega

/-- What the comparison of the sizes says about a number of blocks that fits in an inode. -/
theorem blocks_of_not_badSize {used : ℕ} (hused : used ≤ ndirect + nindirect) (hty : d.type = tFile)
    (hsize : d.size ≠ 0) (h : ¬BadSize d used) : used = (d.size + 511) / 512 := by
  have hle : ¬(d.size ≤ usub (used * bsize) bsize ∨ used * bsize < d.size) := fun hbad =>
    h ⟨hty, hsize, hbad⟩
  rw [not_or] at hle
  obtain ⟨hlower, hupper⟩ := hle
  unfold usub at hlower
  unfold bsize at hlower hupper
  unfold ndirect nindirect at hused
  omega

/-- **Sizes.**  In an accepted image a file of nonzero size that has an indirect block, or does not
read anything from block 0, has the blocks that its size needs. -/
theorem blocks_of_size (h : main a stale img = .ok ()) (hi : i < img.superblock.ninodes)
    (hty : (img.dinode i).type = tFile) (hsize : (img.dinode i).size ≠ 0)
    (hzero : (img.dinode i).addrs ndirect = 0 → ∀ addr ∈ img.entries 0, addr = 0) :
    dataCount img (img.dinode i) = ((img.dinode i).size + 511) / 512 := by
  obtain ⟨⟨ds, -, -, -, -, -, hbad, -⟩, -⟩ := main_ok_iff.1 h
  have hnot := hbad i hi
  rw [usedBlocks_eq hzero] at hnot
  exact blocks_of_not_badSize dataCount_le hty hsize hnot

set_option maxRecDepth 20000

/-- The file of one block of the image of shared blocks. -/
theorem blocks_of_size_sharedImage : dataCount sharedImage (sharedImage.dinode 2) = 1 := by
  have hcount := blocks_of_size sharedImage_ok (i := 2) (by decide) (by decide) (by decide)
    fun _ => by decide
  rw [hcount]
  decide

/-! ### Links -/

/-- What the directories hold together. -/
def overDirs {α : Type} (img : Image) (f : ℕ → Dinode → List α) : List α :=
  (List.range img.superblock.ninodes).flatMap fun i =>
    if (img.dinode i).type = tDir then f i (img.dinode i) else []

/-- The number of the entries with inode number `i`, 0 being that of an empty entry. -/
def naming (i : ℕ) (des : List Dirent) : ℕ := des.countP fun de => de.inum ≠ 0 ∧ de.inum = i

/-- The number of directory entries that name inode `i`. -/
def linkCount (img : Image) (i : ℕ) : ℕ := naming i (overDirs img fun _ => dirEntries img)

/-- The number of those in indirect blocks. -/
def indirectLinks (img : Image) (i : ℕ) : ℕ := naming i (overDirs img fun _ => indirectEntries img)

/-- The slot makes `file_block_arr[i]` grow. -/
def Slot.countsFile (img : Image) (i : ℕ) : Slot → Bool
  | .block _ => false
  | .direct de => de.inum ≠ 0 ∧ de.inum = i ∧ (img.dinode i).type = tFile
  | .indirect stale de => de.inum ≠ 0 ∧ de.inum = i ∧ stale.map Dinode.type = some tFile

/-- The slot is one of an indirect block, of an entry with number `i`, and the uninitialised pointer
reads a file. -/
def Slot.readsFile (i : ℕ) : Slot → Bool
  | .indirect stale de => de.inum ≠ 0 ∧ de.inum = i ∧ stale.map Dinode.type = some tFile
  | _ => false

/-- The entries of indirect blocks that are counted for inode `i`; a zero word of the indirect block
stands for block 0. -/
def staleLinks (img : Image) (stale : ℕ → ℕ → ℕ → Option Dinode) (i : ℕ) : ℕ :=
  (overDirs img fun j d => slots img (stale j) d).countP (Slot.readsFile i)

theorem countFile_apply (h : countFile sb s de = .ok t) (i : ℕ) :
    t.fileBlockArr i = s.fileBlockArr i + if de.inum = i then 1 else 0 := by
  obtain ⟨b, hb, h⟩ := bind_ok.1 h
  obtain ⟨_, -, hb⟩ := bind_ok.1 hb
  obtain rfl := pure_ok.1 hb
  obtain rfl := pure_ok.1 h
  show Function.update s.fileBlockArr de.inum (s.fileBlockArr de.inum + 1) i = _
  rcases eq_or_ne i de.inum with rfl | hi
  · rw [Function.update_self, if_pos rfl]
  · rw [Function.update_of_ne hi, if_neg hi.symm, add_zero]

theorem countDir_files (h : countDir sb s de = .ok t) : t.fileBlockArr = s.fileBlockArr := by
  obtain ⟨_, -, h⟩ := bind_ok.1 h
  obtain ⟨_, -, h⟩ := bind_ok.1 h
  obtain ⟨_, -, h⟩ := bind_ok.1 h
  obtain rfl := pure_ok.1 h
  rfl

theorem record_files {num : ℤ} (h : record sb s de num = .ok t) :
    t.fileBlockArr = s.fileBlockArr := by
  obtain ⟨_, -, h⟩ := bind_ok.1 h
  obtain ⟨_, -, h⟩ := bind_ok.1 h
  obtain rfl := pure_ok.1 h
  rfl

/-- The cases of `ptr->type`, in direct blocks and in indirect ones. -/
theorem checkTarget_files {ptr : Dinode} (h : checkTarget sb img inum s de ptr = .ok t) (i : ℕ) :
    t.fileBlockArr i = s.fileBlockArr i + if de.inum = i ∧ ptr.type = tFile then 1 else 0 := by
  rw [checkTarget] at h
  split at h
  · rename_i hfile
    rw [countFile_apply h]
    simp only [hfile, and_true]
  rename_i hfile
  rw [if_neg fun hc => hfile hc.2, add_zero]
  split at h
  · obtain ⟨_, -, h⟩ := bind_ok.1 h
    obtain ⟨_, -, h⟩ := bind_ok.1 h
    obtain ⟨_, -, h⟩ := bind_ok.1 h
    rw [countDir_files h]
  · obtain rfl := pure_ok.1 h
    rfl

theorem checkTargetIndirect_files {ptr : Dinode}
    (h : checkTargetIndirect sb img inum s de ptr = .ok t) (i : ℕ) :
    t.fileBlockArr i = s.fileBlockArr i + if de.inum = i ∧ ptr.type = tFile then 1 else 0 := by
  rw [checkTargetIndirect] at h
  split at h
  · rename_i hfile
    rw [countFile_apply h]
    simp only [hfile, and_true]
  rename_i hfile
  rw [if_neg fun hc => hfile hc.2, add_zero]
  split at h
  · obtain ⟨_, -, h⟩ := bind_ok.1 h
    obtain ⟨_, -, h⟩ := bind_ok.1 h
    rw [countDir_files h]
  · obtain rfl := pure_ok.1 h
    rfl

/-- One slot. -/
theorem checkSlot_files (h : checkSlot sb img inum s sl = .ok t) (i : ℕ) :
    t.fileBlockArr i = s.fileBlockArr i + if sl.countsFile img i then 1 else 0 := by
  cases sl with
  | block addr =>
    obtain ⟨_, -, h⟩ := bind_ok.1 h
    obtain rfl := pure_ok.1 h
    simp [Slot.countsFile]
  | direct de =>
    obtain ⟨s₁, hinum, h⟩ := bind_ok.1 h
    have ht : t.fileBlockArr = s₁.fileBlockArr := by
      obtain rfl := pure_ok.1 h
      split <;> rfl
    rw [ht]
    rw [checkInum] at hinum
    split at hinum
    · rename_i h0
      obtain rfl := pure_ok.1 hinum
      simp [Slot.countsFile, h0]
    · rename_i h0
      obtain ⟨ptr, hptr, hinum⟩ := bind_ok.1 hinum
      obtain ⟨-, rfl⟩ := getInode_ok.1 hptr
      obtain ⟨s₂, htarget, hinum⟩ := bind_ok.1 hinum
      obtain ⟨_, -, hrecord⟩ := bind_ok.1 hinum
      rw [record_files hrecord, checkTarget_files htarget]
      congr 1
      by_cases hi : de.inum = i
      · subst hi
        simp [Slot.countsFile, h0]
      · simp [Slot.countsFile, hi]
  | indirect ptr de =>
    obtain ⟨_, -, h⟩ := bind_ok.1 h
    have hs : (if de.isNamed then s else { s with curAndPreDir := s.curAndPreDir + 1 }).fileBlockArr
        = s.fileBlockArr := by split <;> rfl
    rw [← hs]
    unfold checkInumIndirect at h
    split at h
    · rename_i h0
      obtain rfl := pure_ok.1 h
      have hno : Slot.countsFile img i (.indirect ptr de) = false := by simp [Slot.countsFile, h0]
      rw [hno, if_neg Bool.false_ne_true, add_zero]
    · rename_i h0
      cases ptr with
      | none => cases h
      | some ptr =>
        obtain ⟨s₂, htarget, h⟩ := bind_ok.1 h
        obtain ⟨_, -, hrecord⟩ := bind_ok.1 h
        rw [record_files hrecord, checkTargetIndirect_files htarget]
        congr 1
        simp [Slot.countsFile, h0]

theorem checkSlots_files (h : sls.foldlM (checkSlot sb img inum) s = .ok t) (i : ℕ) :
    t.fileBlockArr i = s.fileBlockArr i + sls.countP (Slot.countsFile img i) := by
  induction sls generalizing s with
  | nil =>
    obtain rfl := foldlM_nil_ok.1 h
    simp
  | cons sl sls ih =>
    obtain ⟨s₁, hsl, h⟩ := foldlM_cons_ok.1 h
    rw [ih h, checkSlot_files hsl, List.countP_cons]
    push_cast
    ring

/-- The loop over the inodes. -/
theorem checkDirs_files {is : List ℕ}
    (h : is.foldlM (fun s i => checkDir sb img stale i s (img.dinode i)) s = .ok t) (i : ℕ) :
    t.fileBlockArr i = s.fileBlockArr i + (is.flatMap fun j =>
      if (img.dinode j).type = tDir then slots img (stale j) (img.dinode j) else []).countP
        (Slot.countsFile img i) := by
  induction is generalizing s with
  | nil =>
    obtain rfl := foldlM_nil_ok.1 h
    simp
  | cons j is ih =>
    obtain ⟨s₁, hdir, h⟩ := foldlM_cons_ok.1 h
    rw [ih h, List.flatMap_cons, List.countP_append]
    by_cases hty : (img.dinode j).type = tDir
    · rw [checkDir_eq_slots hty] at hdir
      obtain ⟨s₂, hslots, hdir⟩ := bind_ok.1 hdir
      obtain ⟨_, -, hdir⟩ := bind_ok.1 hdir
      obtain rfl := pure_ok.1 hdir
      rw [checkSlots_files hslots, if_pos hty]
      push_cast
      ring
    · rw [checkDir, if_pos hty] at hdir
      obtain rfl := pure_ok.1 hdir
      rw [if_neg hty]
      simp

/-- What is counted for a file: the entries of direct blocks with its number, and the reads of the
uninitialised pointer. -/
theorem countP_slots (hty : (img.dinode i).type = tFile) {ptrs : ℕ → ℕ → Option Dinode} :
    (slots img ptrs d).countP (Slot.countsFile img i) =
      naming i (directEntries img d) + (slots img ptrs d).countP (Slot.readsFile i) := by
  have hblock : ∀ addr, (blockSlots img addr).countP (Slot.countsFile img i) =
      naming i (if addr = 0 then [] else img.dirents addr) := by
    intro addr
    rw [blockSlots]
    split
    · rfl
    · rw [List.countP_cons, List.countP_map, naming]
      simp [Function.comp_def, Slot.countsFile, hty]
  have hblock' : ∀ addr, (blockSlots img addr).countP (Slot.readsFile i) = 0 := by
    intro addr
    rw [blockSlots]
    split
    · rfl
    · rw [List.countP_cons, List.countP_map]
      simp [Function.comp_def, Slot.readsFile]
  have hindirect : ∀ sl ∈ indirectSlots img ptrs (d.addrs ndirect),
      sl.countsFile img i = sl.readsFile i := by
    intro sl hsl
    rw [indirectSlots] at hsl
    split at hsl
    · cases hsl
    rcases List.mem_cons.1 hsl with rfl | hsl
    · rfl
    obtain ⟨k, -, hsl⟩ := List.mem_flatMap.1 hsl
    rcases List.mem_cons.1 hsl with rfl | hsl
    · rfl
    obtain ⟨m, -, rfl⟩ := List.mem_map.1 hsl
    rfl
  rw [slots, List.countP_append, List.countP_append, List.countP_congr fun sl hsl =>
    Bool.eq_iff_iff.1 (hindirect sl hsl), ← Nat.add_assoc]
  congr 1
  rw [directEntries, naming, List.countP_flatMap, List.countP_flatMap, List.countP_flatMap]
  have hzero : ((List.range ndirect).map fun j =>
      (blockSlots img (d.addrs j)).countP (Slot.readsFile i)).sum = 0 := by
    refine List.sum_eq_zero fun x hx => ?_
    obtain ⟨j, -, rfl⟩ := List.mem_map.1 hx
    exact hblock' _
  simp only [Function.comp_def] at hzero ⊢
  rw [hzero, Nat.add_zero]
  simp only [hblock, naming]

theorem countP_overDirs {α : Type} {f : ℕ → Dinode → List α} {p : α → Bool} :
    (overDirs img f).countP p = ((List.range img.superblock.ninodes).map fun i =>
      if (img.dinode i).type = tDir then (f i (img.dinode i)).countP p else 0).sum := by
  rw [overDirs, List.countP_flatMap]
  congr 1
  refine List.map_congr_left fun i _ => ?_
  show List.countP p (if _ then _ else _) = _
  split <;> rfl

theorem linkCount_eq :
    linkCount img i = naming i (overDirs img fun _ => directEntries img) + indirectLinks img i := by
  rw [linkCount, indirectLinks, naming, naming, naming, countP_overDirs, countP_overDirs,
    countP_overDirs, ← List.sum_map_add]
  congr 1
  refine List.map_congr_left fun j _ => ?_
  split
  · rw [dirEntries_eq, List.countP_append]
  · rfl

theorem counted_eq (hty : (img.dinode i).type = tFile) :
    (overDirs img fun j d => slots img (stale j) d).countP (Slot.countsFile img i) =
      naming i (overDirs img fun _ => directEntries img) + staleLinks img stale i := by
  rw [staleLinks, naming, countP_overDirs, countP_overDirs, countP_overDirs, ← List.sum_map_add]
  congr 1
  refine List.map_congr_left fun j _ => ?_
  split
  · exact countP_slots hty
  · rfl

/-- **Reference counts.**  In an accepted image the link counts of the files are the numbers of
entries that name them exactly if, for each, the first value of its counter and the reads of the
uninitialised pointer make up for the entries of indirect blocks. -/
theorem links_iff (h : main a stale img = .ok ()) :
    (∀ i < img.superblock.ninodes, (img.dinode i).type = tFile →
      (img.dinode i).nlink = linkCount img i) ↔
    ∀ i < img.superblock.ninodes, (img.dinode i).type = tFile →
      a.fileBlockArr i + staleLinks img stale i = indirectLinks img i := by
  obtain ⟨⟨ds, -, -, hdirs, href, -⟩, -⟩ := main_ok_iff.1 h
  refine forall_congr' fun i => forall_congr' fun hi => forall_congr' fun hty => ?_
  have hnlink : ds.fileBlockArr i = (img.dinode i).nlink := by
    obtain ⟨d, hd, hi⟩ := bind_ok.1 (href i hi)
    obtain ⟨-, rfl⟩ := getInode_ok.1 hd
    obtain ⟨_, -, hi⟩ := bind_ok.1 hi
    obtain ⟨_, hcount, -⟩ := bind_ok.1 hi
    by_contra hne
    exact complain_ok.1 hcount ⟨hty, hne⟩
  have hcounted : ds.fileBlockArr i = a.fileBlockArr i +
      (overDirs img fun j d => slots img (stale j) d).countP (Slot.countsFile img i) :=
    checkDirs_files hdirs i
  rw [counted_eq hty] at hcounted
  rw [← hnlink, hcounted, linkCount_eq]
  push_cast
  constructor <;> intro h <;> omega

/-- Where no directory has an indirect block, the first values of the counters decide. -/
theorem staleLinks_of_noIndirect (stale : ℕ → ℕ → ℕ → Option Dinode) (i : ℕ)
    (hind : NoIndirect img) :
    staleLinks img stale i = 0 ∧ indirectLinks img i = 0 := by
  rw [staleLinks, indirectLinks, naming, countP_overDirs, countP_overDirs]
  constructor
  · refine List.sum_eq_zero fun x hx => ?_
    obtain ⟨j, hj, rfl⟩ := List.mem_map.1 hx
    split
    · rename_i hty
      refine List.countP_eq_zero.2 fun sl hsl => ?_
      rw [slots, indirectSlots, if_pos (hind j (List.mem_range.1 hj) hty), List.append_nil] at hsl
      obtain ⟨n, -, hsl⟩ := List.mem_flatMap.1 hsl
      rw [blockSlots] at hsl
      split at hsl
      · cases hsl
      rcases List.mem_cons.1 hsl with rfl | hsl
      · simp [Slot.readsFile]
      · obtain ⟨de, -, rfl⟩ := List.mem_map.1 hsl
        simp [Slot.readsFile]
    · rfl
  · refine List.sum_eq_zero fun x hx => ?_
    obtain ⟨j, hj, rfl⟩ := List.mem_map.1 hx
    split
    · rename_i hty
      rw [indirectEntries, if_pos (hind j (List.mem_range.1 hj) hty)]
      rfl
    · rfl

/-- The link count of the first file of the image of shared blocks. -/
theorem links_iff_sharedImage :
    (sharedImage.dinode 2).nlink = linkCount sharedImage 2 := by
  refine (links_iff sharedImage_ok).2 (fun i hi _ => ?_) 2 (by decide) (by decide)
  have hind : NoIndirect sharedImage := by decide
  obtain ⟨hstale, hlinks⟩ := staleLinks_of_noIndirect (fun _ _ _ => none) i hind
  rw [hstale, hlinks]
  rfl

/-! ### Images -/

/-- A file of size 0 that has a block, and of link count 2 with one entry. -/
def heapImage : Image :=
  twoFiles (dinodeBytes 2 2 0 [30, 0, 0, 0, 0, 0, 0, 0, 0, 0, 0, 0, 0])
    (dinodeBytes 2 1 0 [0, 0, 0, 0, 0, 0, 0, 0, 0, 0, 0, 0, 0]) [0x60]

/-- A heap on which the counter of inode 2 starts with 1. -/
def heapOne : Arrays := { Arrays.zero with fileBlockArr := fun i => if i = 2 then 1 else 0 }

theorem heapImage_ok : main heapOne (fun _ _ _ => none) heapImage = .ok () := by decide +kernel

/-- The counters are counted from what the heap holds. -/
theorem not_links : ¬∀ (a : Arrays) (stale : ℕ → ℕ → ℕ → Option Dinode) (img : Image),
    img.superblock = mkfsSuperblock → main a stale img = .ok () →
      ∀ i < img.superblock.ninodes, (img.dinode i).type = tFile →
        (img.dinode i).nlink = linkCount img i := by
  intro h
  have hlinks := h _ _ heapImage (by decide) heapImage_ok 2 (by decide) (by decide)
  exact absurd hlinks (by decide)

/-- The blocks of a file of size 0 are not counted. -/
theorem not_sizes : ¬∀ (a : Arrays) (stale : ℕ → ℕ → ℕ → Option Dinode) (img : Image),
    img.superblock = mkfsSuperblock → main a stale img = .ok () →
      ∀ i < img.superblock.ninodes, (img.dinode i).type = tFile →
        dataCount img (img.dinode i) = ((img.dinode i).size + 511) / 512 := by
  intro h
  have hsize := h _ _ heapImage (by decide) heapImage_ok 2 (by decide) (by decide)
  exact absurd hsize (by decide)

end OsProjects.Fsck
