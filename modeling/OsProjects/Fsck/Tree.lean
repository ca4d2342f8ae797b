import OsProjects.Fsck.Bounds

/-!
# The directory tree

What an accepted image is as a tree of directories.  The counters of the directory loops count the
entries that name an inode (`Tallied`), so that every in-use inode is named, and a directory once
(`Accepted`).  That the names lead from the root to every inode is never checked as such.  It
follows from the `".."` links where they are what they should be (`Proper`): each names a directory
that names the directory back (`Linked.names_of_parent`), and the walks along them end at the root
(`Linked.walk`).
-/

namespace OsProjects.Fsck

variable {sb : Superblock} {img : Image} {stale : ℕ → ℕ → ℕ → Option Dinode} {a : Arrays}
  {inum i start c x y z : ℕ} {s t : Dirs} {d : Dinode} {de : Dirent} {des : List Dirent} {sl : Slot}

/-! ### Names -/

/-- The entries of a directory, in its direct blocks and those of its indirect block. -/
def dirEntries (img : Image) (d : Dinode) : List Dirent :=
  ((List.range ndirect).flatMap fun j =>
      if d.addrs j = 0 then [] else img.dirents (d.addrs j)) ++
    if d.addrs ndirect = 0 then []
    else (img.entries (d.addrs ndirect)).flatMap fun addr =>
      if addr = 0 then [] else img.dirents addr

/-- Those of its direct blocks. -/
def directEntries (img : Image) (d : Dinode) : List Dirent :=
  (List.range ndirect).flatMap fun j => if d.addrs j = 0 then [] else img.dirents (d.addrs j)

/-- Those of the blocks of its indirect block. -/
def indirectEntries (img : Image) (d : Dinode) : List Dirent :=
  if d.addrs ndirect = 0 then []
  else (img.entries (d.addrs ndirect)).flatMap fun addr => if addr = 0 then [] else img.dirents addr

theorem dirEntries_eq : dirEntries img d = directEntries img d ++ indirectEntries img d := rfl

/-- The entry names an inode, not as `"."` or `".."`. -/
def Dirent.names (de : Dirent) : Bool := de.isNamed && de.inum ≠ 0

/-- The inodes that entries name. -/
def namedBy (des : List Dirent) : List ℕ := (des.filter Dirent.names).map Dirent.inum

/-- The inodes that directory `i` names. -/
def namings (img : Image) (i : ℕ) : List ℕ :=
  if (img.dinode i).type = tDir then namedBy (dirEntries img (img.dinode i)) else []

/-- What all directories name. -/
def allNamings (img : Image) : List ℕ := (List.range img.superblock.ninodes).flatMap (namings img)

/-- Directory `i` names inode `j`. -/
def Names (img : Image) (i j : ℕ) : Prop := i < img.superblock.ninodes ∧ j ∈ namings img i

/-! ### One entry -/

/-- What the check of an entry of a direct block leaves and what it has found. -/
structure Noted (img : Image) (inum : ℕ) (de : Dirent) (s t : Dirs) : Prop where
  pointed : ∀ i, t.dirPointedInodes i = s.dirPointedInodes i + (namedBy [de]).count i
  blocks : ∀ i, t.dirBlockArr i =
    s.dirBlockArr i + if (img.dinode i).type = tDir then ((namedBy [de]).count i : ℤ) else 0
  fresh : ∀ i ∈ namedBy [de], (img.dinode i).type = tDir → s.dirBlockArr i < 1
  dots : t.curAndPreDir = s.curAndPreDir + if de.isNamed then 0 else 1
  own : t.exitCode = false → s.exitCode = false ∧ (de.isDot = true → de.inum = inum)
  parent : de.inum ≠ 0 → (img.dinode de.inum).type = tDir →
    checkWalk img inum de = .ok () ∧ checkBackPtr img inum de (img.dinode de.inum) = .ok ()

theorem count_namedBy : (namedBy [de]).count i =
    if de.isNamed = true ∧ de.inum ≠ 0 ∧ de.inum = i then 1 else 0 := by
  by_cases hn : de.names = true
  · have hne : de.isNamed = true ∧ de.inum ≠ 0 := by simpa [Dirent.names] using hn
    simp only [namedBy, List.filter_cons_of_pos hn, List.filter_nil, List.map_cons, List.map_nil,
      List.count_singleton, beq_iff_eq]
    simp [hne]
  · have hne : ¬(de.isNamed = true ∧ de.inum ≠ 0) := by simpa [Dirent.names] using hn
    rw [namedBy, List.filter_cons_of_neg hn, List.filter_nil, List.map_nil, List.count_nil,
      if_neg fun h => hne ⟨h.1, h.2.1⟩]

theorem bumpNamed_apply {f g : ℕ → ℤ} (h : bumpNamed sb f de = .ok g) (h0 : de.inum ≠ 0) (i : ℕ) :
    g i = f i + (namedBy [de]).count i := by
  rw [bumpNamed] at h
  rw [count_namedBy]
  split at h
  · rename_i hn
    obtain ⟨_, -, h⟩ := bind_ok.1 h
    obtain rfl := pure_ok.1 h
    rcases eq_or_ne i de.inum with rfl | hi
    · rw [Function.update_self, if_pos ⟨hn, h0, rfl⟩]
      rfl
    · rw [Function.update_of_ne hi, if_neg fun hc => hi hc.2.2.symm]
      simp
  · rename_i hn
    obtain rfl := pure_ok.1 h
    rw [if_neg fun hc => hn hc.1]
    simp

theorem mem_namedBy_single {i : ℕ} (h : i ∈ namedBy [de]) : de.isNamed = true ∧ de.inum = i := by
  have hcount := List.count_pos_iff.2 h
  rw [count_namedBy] at hcount
  split at hcount
  · rename_i hc
    exact ⟨hc.1, hc.2.2⟩
  · cases hcount

/-- The cases of `ptr->type`. -/
theorem checkTarget_noted {ptr : Dinode} (h : checkTarget sb img inum s de ptr = .ok t)
    (h0 : de.inum ≠ 0) : t.dirPointedInodes = s.dirPointedInodes ∧
      t.curAndPreDir = s.curAndPreDir ∧ t.exitCode = s.exitCode ∧
      if ptr.type = tDir then
        (∀ i, t.dirBlockArr i = s.dirBlockArr i + (namedBy [de]).count i) ∧
          (∀ i ∈ namedBy [de], s.dirBlockArr i < 1) ∧
          checkWalk img inum de = .ok () ∧ checkBackPtr img inum de ptr = .ok ()
      else t.dirBlockArr = s.dirBlockArr := by
  rw [checkTarget] at h
  split at h
  · rename_i hfile
    rw [if_neg (by rw [hfile]; decide)]
    obtain ⟨b, -, h⟩ := bind_ok.1 h
    obtain rfl := pure_ok.1 h
    exact ⟨rfl, rfl, rfl, rfl⟩
  split at h
  · rename_i hdir
    rw [if_pos hdir]
    obtain ⟨_, -, h⟩ := bind_ok.1 h
    obtain ⟨_, hwalk, h⟩ := bind_ok.1 h
    obtain ⟨_, hback, h⟩ := bind_ok.1 h
    obtain ⟨_, -, h⟩ := bind_ok.1 h
    obtain ⟨_, htwice, h⟩ := bind_ok.1 h
    obtain ⟨b, hb, h⟩ := bind_ok.1 h
    obtain rfl := pure_ok.1 h
    refine ⟨rfl, rfl, rfl, bumpNamed_apply hb h0, fun i hi => ?_, hwalk, hback⟩
    obtain ⟨hn, rfl⟩ := mem_namedBy_single hi
    by_contra hlt
    exact complain_ok.1 htwice ⟨by omega, hn⟩
  · rename_i hdir
    rw [if_neg hdir]
    obtain rfl := pure_ok.1 h
    exact ⟨rfl, rfl, rfl, rfl⟩

theorem namedBy_of_zero (h : de.inum = 0) : namedBy [de] = [] := by
  rw [namedBy, List.filter_cons_of_neg (by simp [Dirent.names, h])]
  rfl

/-- The block `if(dir2->inum != 0)`. -/
theorem checkInum_noted (h : checkInum sb img inum s de = .ok t) :
    t.curAndPreDir = s.curAndPreDir ∧ t.exitCode = s.exitCode ∧
      (∀ i, t.dirPointedInodes i = s.dirPointedInodes i + (namedBy [de]).count i) ∧
      (∀ i, t.dirBlockArr i = s.dirBlockArr i +
        if (img.dinode i).type = tDir then ((namedBy [de]).count i : ℤ) else 0) ∧
      (∀ i ∈ namedBy [de], (img.dinode i).type = tDir → s.dirBlockArr i < 1) ∧
      (de.inum ≠ 0 → (img.dinode de.inum).type = tDir →
        checkWalk img inum de = .ok () ∧ checkBackPtr img inum de (img.dinode de.inum) =
        .ok ()) := by
  rw [checkInum] at h
  split at h
  · rename_i h0
    obtain rfl := pure_ok.1 h
    rw [namedBy_of_zero h0]
    exact ⟨rfl, rfl, by simp, by simp, by simp, fun hne => absurd h0 hne⟩
  rename_i h0
  obtain ⟨ptr, hptr, h⟩ := bind_ok.1 h
  obtain ⟨-, rfl⟩ := getInode_ok.1 hptr
  obtain ⟨s₂, htarget, h⟩ := bind_ok.1 h
  obtain ⟨_, -, h⟩ := bind_ok.1 h
  obtain ⟨b, hb, h⟩ := bind_ok.1 h
  obtain ⟨_, -, h⟩ := bind_ok.1 h
  obtain rfl := pure_ok.1 h
  obtain ⟨hp, hc, he, hcase⟩ := checkTarget_noted htarget h0
  have hcount : ∀ i, (namedBy [de]).count i ≠ 0 → i = de.inum := fun i hi =>
    (mem_namedBy_single (List.count_pos_iff.1 (Nat.pos_of_ne_zero hi))).2.symm
  refine ⟨hc, he, fun i => ?_, fun i => ?_, fun i hi hty => ?_, fun _ hty => ?_⟩
  · rw [← hp]
    exact bumpNamed_apply hb h0 i
  · show s₂.dirBlockArr i = _
    split at hcase
    · rename_i hty
      rw [hcase.1 i]
      split
      · rfl
      · rename_i hi
        have hzero : (namedBy [de]).count i = 0 := by
          by_contra hne
          exact hi (hcount i hne ▸ hty)
        rw [hzero]
        rfl
    · rename_i hty
      rw [hcase]
      split
      · rename_i hi
        have hzero : (namedBy [de]).count i = 0 := by
          by_contra hne
          exact hty (hcount i hne ▸ hi)
        rw [hzero]
        simp
      · simp
  · obtain ⟨-, rfl⟩ := mem_namedBy_single hi
    rw [if_pos hty] at hcase
    exact hcase.2.1 _ hi
  · rw [if_pos hty] at hcase
    exact hcase.2.2

/-- The check of an entry of a direct block. -/
theorem checkDirent_noted (h : checkDirent sb img inum s de = .ok t) : Noted img inum de s t := by
  obtain ⟨s₁, hinum, h⟩ := bind_ok.1 h
  obtain ⟨hc, he, hpointed, hblocks, hfresh, hparent⟩ := checkInum_noted hinum
  obtain rfl := pure_ok.1 h
  by_cases hn : de.isNamed = true
  · rw [if_pos hn]
    have hdot : de.isDot = false := by
      simp only [Dirent.isNamed, Bool.and_eq_true, Bool.not_eq_true'] at hn
      exact hn.1
    exact ⟨hpointed, hblocks, hfresh, by rw [if_pos hn, hc, Nat.add_zero],
      fun hx => ⟨he ▸ hx, fun hd => absurd hd (by simp [hdot])⟩, hparent⟩
  · rw [if_neg hn]
    refine ⟨hpointed, hblocks, hfresh, by rw [if_neg hn, ← hc], fun hx => ?_, hparent⟩
    simp only [Bool.or_eq_false_iff, Bool.and_eq_false_iff, decide_eq_false_iff_not, not_not] at hx
    refine ⟨he ▸ hx.1, fun hd => hx.2.resolve_left (by simp [hd])⟩

/-! ### All entries -/

theorem namedBy_append (des des' : List Dirent) :
    namedBy (des ++ des') = namedBy des ++ namedBy des' := by
  rw [namedBy, List.filter_append, List.map_append]
  rfl

theorem count_namedBy_cons (de : Dirent) (des : List Dirent) (i : ℕ) :
    (namedBy (de :: des)).count i = (namedBy [de]).count i + (namedBy des).count i := by
  rw [← List.singleton_append, namedBy_append, List.count_append]

/-- What the loop over entries leaves in the counters. -/
structure Tallied (img : Image) (des : List Dirent) (s t : Dirs) : Prop where
  pointed : ∀ i, t.dirPointedInodes i = s.dirPointedInodes i + (namedBy des).count i
  blocks : ∀ i, t.dirBlockArr i =
    s.dirBlockArr i + if (img.dinode i).type = tDir then ((namedBy des).count i : ℤ) else 0
  fresh : (∀ i, s.dirBlockArr i ≤ 1) → ∀ i, t.dirBlockArr i ≤ 1

theorem checkDirents_tallied (h : des.foldlM (checkDirent sb img inum) s = .ok t) :
    Tallied img des s t := by
  induction des generalizing s with
  | nil =>
    obtain rfl := foldlM_nil_ok.1 h
    exact ⟨by simp [namedBy], by simp [namedBy], id⟩
  | cons de des ih =>
    obtain ⟨s₁, hde, h⟩ := foldlM_cons_ok.1 h
    have hN := checkDirent_noted hde
    have hT := ih h
    refine ⟨fun i => ?_, fun i => ?_, fun hle => hT.fresh fun i => ?_⟩
    · rw [hT.pointed, hN.pointed, count_namedBy_cons de des]
      push_cast
      ring
    · rw [hT.blocks, hN.blocks, count_namedBy_cons de des]
      split
      · push_cast
        ring
      · ring
    · rw [hN.blocks]
      split
      · rename_i hty
        rcases Nat.eq_zero_or_pos ((namedBy [de]).count i) with h0 | hpos
        · rw [h0]
          simpa using hle i
        · have hlt := hN.fresh i (List.count_pos_iff.1 hpos) hty
          have hone : (namedBy [de]).count i ≤ 1 := by
            rw [count_namedBy]
            split <;> omega
          omega
      · simpa using hle i

/-! ### All directories -/

/-- The direct blocks of a directory. -/
theorem checkBlocks_entries {js : List ℕ} (h : js.foldlM (fun s j =>
      checkBlock sb img inum s (d.addrs j)) s = .ok t) :
    (js.flatMap fun j => if d.addrs j = 0 then [] else img.dirents (d.addrs j)).foldlM
      (checkDirent sb img inum) s = .ok t := by
  rw [foldlM_flatMap]
  refine foldlM_ok_map (π := id) h fun j _ s s' hj => ?_
  show List.foldlM (checkDirent sb img inum) s _ = Except.ok s'
  rw [checkBlock] at hj
  split
  · rename_i h0
    rwa [if_pos h0] at hj
  · rename_i h0
    rw [if_neg h0] at hj
    obtain ⟨_, -, hj⟩ := bind_ok.1 hj
    exact hj

/-- A directory without an indirect block. -/
theorem checkDir_tallied (hty : d.type = tDir) (hind : d.addrs ndirect = 0)
    (h : checkDir sb img stale inum s d = .ok t) :
    Tallied img (dirEntries img d) { s with curAndPreDir := 0 } t := by
  rw [checkDir, if_neg (not_not.2 hty)] at h
  obtain ⟨s₁, hdirect, h⟩ := bind_ok.1 h
  obtain ⟨s₂, hindirect, h⟩ := bind_ok.1 h
  obtain ⟨_, -, h⟩ := bind_ok.1 h
  obtain rfl := pure_ok.1 h
  rw [checkIndirectBlock, if_pos hind] at hindirect
  obtain rfl := pure_ok.1 hindirect
  rw [dirEntries, if_pos hind, List.append_nil]
  exact checkDirents_tallied (checkBlocks_entries hdirect)

/-- The loop over the inodes, for directories without indirect blocks. -/
theorem checkDirs_tallied {is : List ℕ}
    (hind : ∀ i ∈ is, (img.dinode i).type = tDir → (img.dinode i).addrs ndirect = 0)
    (h : is.foldlM (fun s i => checkDir sb img stale i s (img.dinode i)) s = .ok t) :
    (∀ i, t.dirPointedInodes i = s.dirPointedInodes i + (is.flatMap (namings img)).count i) ∧
      (∀ i, t.dirBlockArr i = s.dirBlockArr i +
        if (img.dinode i).type = tDir then ((is.flatMap (namings img)).count i : ℤ) else 0) ∧
      ((∀ i, s.dirBlockArr i ≤ 1) → ∀ i, t.dirBlockArr i ≤ 1) := by
  induction is generalizing s with
  | nil =>
    obtain rfl := foldlM_nil_ok.1 h
    exact ⟨by simp, by simp, id⟩
  | cons i is ih =>
    obtain ⟨hi, his⟩ := List.forall_mem_cons.1 hind
    obtain ⟨s₁, hdir, h⟩ := foldlM_cons_ok.1 h
    obtain ⟨hpointed, hblocks, hfresh⟩ := ih his h
    rw [List.flatMap_cons]
    by_cases hty : (img.dinode i).type = tDir
    · have hT := checkDir_tallied hty (hi hty) hdir
      rw [namings, if_pos hty]
      refine ⟨fun j => ?_, fun j => ?_, fun hle => hfresh (hT.fresh hle)⟩
      · rw [hpointed, hT.pointed, List.count_append]
        push_cast
        ring
      · rw [hblocks, hT.blocks, List.count_append]
        split
        · push_cast
          ring
        · ring
    · rw [checkDir, if_pos hty] at hdir
      obtain rfl := pure_ok.1 hdir
      rw [namings, if_neg hty, List.nil_append]
      exact ⟨hpointed, hblocks, hfresh⟩

/-! ### Dot entries -/

/-- The slot is an entry `"."` or `".."`. -/
def Slot.isDots : Slot → Bool
  | .block _ => false
  | .direct de | .indirect _ de => !de.isNamed

/-- A `"."` has the number of the directory. -/
def Slot.Own (inum : ℕ) : Slot → Prop
  | .block _ => True
  | .direct de | .indirect _ de => de.isDot = true → de.inum = inum

/-- The counter of the dot entries and the exit code, which the statements about the other counters
leave alone. -/
def Dirs.noted (s : Dirs) : ℕ × Bool := (s.curAndPreDir, s.exitCode)

theorem countFile_keeps (h : countFile sb s de = .ok t) : t.noted = s.noted := by
  obtain ⟨_, -, h⟩ := bind_ok.1 h
  obtain rfl := pure_ok.1 h
  rfl

theorem countDir_keeps (h : countDir sb s de = .ok t) : t.noted = s.noted := by
  obtain ⟨_, -, h⟩ := bind_ok.1 h
  obtain ⟨_, -, h⟩ := bind_ok.1 h
  obtain ⟨_, -, h⟩ := bind_ok.1 h
  obtain rfl := pure_ok.1 h
  rfl

theorem record_keeps {num : ℤ} (h : record sb s de num = .ok t) : t.noted = s.noted := by
  obtain ⟨_, -, h⟩ := bind_ok.1 h
  obtain ⟨_, -, h⟩ := bind_ok.1 h
  obtain rfl := pure_ok.1 h
  rfl

theorem checkInumIndirect_keeps {ptr : Option Dinode}
    (h : checkInumIndirect sb img inum ptr s de = .ok t) : t.noted = s.noted := by
  unfold checkInumIndirect at h
  split at h
  · obtain rfl := pure_ok.1 h
    rfl
  cases ptr with
  | none => cases h
  | some ptr =>
    obtain ⟨s₁, htarget, h⟩ := bind_ok.1 h
    obtain ⟨_, -, h⟩ := bind_ok.1 h
    refine (record_keeps h).trans ?_
    rw [checkTargetIndirect] at htarget
    split at htarget
    · exact countFile_keeps htarget
    split at htarget
    · obtain ⟨_, -, htarget⟩ := bind_ok.1 htarget
      obtain ⟨_, -, htarget⟩ := bind_ok.1 htarget
      exact countDir_keeps htarget
    · obtain rfl := pure_ok.1 htarget
      rfl

/-- What a slot adds to the counter of the dot entries, and what the exit code says of it. -/
theorem checkSlot_dots (h : checkSlot sb img inum s sl = .ok t) :
    t.curAndPreDir = s.curAndPreDir + (if sl.isDots then 1 else 0) ∧
      (t.exitCode = false → s.exitCode = false ∧ sl.Own inum) := by
  cases sl with
  | block addr =>
    obtain ⟨_, -, h⟩ := bind_ok.1 h
    obtain rfl := pure_ok.1 h
    exact ⟨rfl, fun hx => ⟨hx, trivial⟩⟩
  | direct de =>
    have hN := checkDirent_noted h
    refine ⟨hN.dots.trans ?_, hN.own⟩
    rw [Slot.isDots]
    cases de.isNamed <;> rfl
  | indirect ptr de =>
    obtain ⟨_, hown, h⟩ := bind_ok.1 h
    have hkeeps := checkInumIndirect_keeps h
    have hcount : t.curAndPreDir = _ := congrArg Prod.fst hkeeps
    have hexit : t.exitCode = _ := congrArg Prod.snd hkeeps
    refine ⟨hcount.trans ?_, fun hx => ⟨?_, fun hdot => ?_⟩⟩
    · rw [Dirs.noted, Slot.isDots]
      cases de.isNamed <;> rfl
    · rw [← hx, hexit]
      split <;> rfl
    · by_contra hne
      exact complain_ok.1 hown ⟨hdot, hne⟩

theorem checkSlots_dots {sls : List Slot} (h : sls.foldlM (checkSlot sb img inum) s = .ok t) :
    t.curAndPreDir = s.curAndPreDir + sls.countP Slot.isDots ∧
      (t.exitCode = false → s.exitCode = false ∧ ∀ sl ∈ sls, sl.Own inum) := by
  induction sls generalizing s with
  | nil =>
    obtain rfl := foldlM_nil_ok.1 h
    exact ⟨rfl, fun hx => ⟨hx, by simp⟩⟩
  | cons sl sls ih =>
    obtain ⟨s₁, hsl, h⟩ := foldlM_cons_ok.1 h
    obtain ⟨hcount, hown⟩ := checkSlot_dots hsl
    obtain ⟨hcounts, howns⟩ := ih h
    refine ⟨?_, fun hx => ?_⟩
    · rw [hcounts, hcount, List.countP_cons]
      ring
    · obtain ⟨hx, hall⟩ := howns hx
      obtain ⟨hx, hone⟩ := hown hx
      exact ⟨hx, List.forall_mem_cons.2 ⟨hone, hall⟩⟩

theorem direct_mem_slots {ptrs : ℕ → ℕ → Option Dinode} (h : de ∈ directEntries img d) :
    .direct de ∈ slots img ptrs d := by
  obtain ⟨j, hj, h⟩ := List.mem_flatMap.1 h
  refine List.mem_append_left _ (List.mem_flatMap.2 ⟨j, hj, ?_⟩)
  rw [blockSlots]
  split at h
  · cases h
  · rename_i h0
    rw [if_neg h0]
    exact List.mem_cons_of_mem _ (List.mem_map_of_mem h)

theorem indirect_mem_slots {ptrs : ℕ → ℕ → Option Dinode} (h : de ∈ indirectEntries img d) :
    ∃ ptr, .indirect ptr de ∈ slots img ptrs d := by
  rw [indirectEntries] at h
  split at h
  · cases h
  rename_i h0
  obtain ⟨addr, haddr, h⟩ := List.mem_flatMap.1 h
  split at h
  · cases h
  obtain ⟨k, hk, rfl⟩ := List.mem_map.1 haddr
  obtain ⟨m, hm, rfl⟩ := List.mem_map.1 h
  refine ⟨ptrs k m, List.mem_append_right _ ?_⟩
  rw [indirectSlots, if_neg h0]
  exact List.mem_cons_of_mem _ (List.mem_flatMap.2
    ⟨k, hk, List.mem_cons_of_mem _ (List.mem_map_of_mem hm)⟩)

/-- The dot entries of a directory are among those that are counted; a zero word of an indirect
block makes those of block 0 count as well. -/
theorem countP_dirEntries_le (ptrs : ℕ → ℕ → Option Dinode) :
    ((dirEntries img d).countP fun de => !de.isNamed) ≤
      (slots img ptrs d).countP Slot.isDots := by
  rw [dirEntries_eq, slots, List.countP_append, List.countP_append]
  refine Nat.add_le_add (le_of_eq ?_) ?_
  · rw [directEntries, List.countP_flatMap, List.countP_flatMap]
    refine congrArg List.sum (List.map_congr_left fun j _ => ?_)
    simp only [Function.comp_apply, blockSlots]
    split
    · rfl
    · rw [List.countP_cons, List.countP_map]
      rfl
  · rw [indirectEntries, indirectSlots]
    split
    · exact le_rfl
    rw [List.countP_cons, Image.entries, List.flatMap_map, List.countP_flatMap, List.countP_flatMap]
    refine (List.sum_le_sum fun k _ => ?_).trans (Nat.le_add_right _ _)
    simp only [Function.comp_apply]
    split
    · exact Nat.zero_le _
    · rw [List.countP_cons, Image.dirents, List.countP_map, List.countP_map]
      exact Nat.le_add_right _ _

/-- What the checks of directory `i` have found. -/
structure DirOk (img : Image) (i : ℕ) : Prop where
  dots : ((dirEntries img (img.dinode i)).countP fun de => !de.isNamed) ≤ 2
  own : ∀ de ∈ dirEntries img (img.dinode i), de.isDot = true → de.inum = i
  parent : ∀ de ∈ directEntries img (img.dinode i), de.inum ≠ 0 →
    (img.dinode de.inum).type = tDir →
      checkWalk img i de = .ok () ∧ checkBackPtr img i de (img.dinode de.inum) = .ok ()

theorem checkDir_dirOk (hty : (img.dinode i).type = tDir)
    (h : checkDir sb img stale i s (img.dinode i) = .ok t) (hx : t.exitCode = false) :
    s.exitCode = false ∧ DirOk img i := by
  rw [checkDir_eq_slots hty] at h
  obtain ⟨s₁, hslots, h⟩ := bind_ok.1 h
  obtain ⟨_, htwo, h⟩ := bind_ok.1 h
  obtain rfl := pure_ok.1 h
  have htwo := not_not.1 (complain_ok.1 htwo)
  obtain ⟨hcount, hown⟩ := checkSlots_dots hslots
  obtain ⟨hx, hown⟩ := hown hx
  refine ⟨hx, ?_, fun de hde => ?_, fun de hde h0 hdir => ?_⟩
  · refine (countP_dirEntries_le (stale i)).trans (le_of_eq ?_)
    rw [← htwo, hcount]
    exact (Nat.zero_add _).symm
  · rcases List.mem_append.1 hde with hde | hde
    · exact hown _ (direct_mem_slots hde)
    · obtain ⟨ptr, hmem⟩ := indirect_mem_slots hde
      exact hown _ hmem
  · obtain ⟨s₂, s₃, hentry⟩ := foldlM_ok_mem hslots (direct_mem_slots hde)
    exact (checkDirent_noted hentry).parent h0 hdir

/-- The loop over the inodes. -/
theorem checkDirs_dirOk {is : List ℕ}
    (h : is.foldlM (fun s i => checkDir sb img stale i s (img.dinode i)) s = .ok t)
    (hx : t.exitCode = false) :
    s.exitCode = false ∧ ∀ i ∈ is, (img.dinode i).type = tDir → DirOk img i := by
  induction is generalizing s with
  | nil =>
    obtain rfl := foldlM_nil_ok.1 h
    exact ⟨hx, by simp⟩
  | cons i is ih =>
    obtain ⟨s₁, hdir, h⟩ := foldlM_cons_ok.1 h
    obtain ⟨hx, hall⟩ := ih h
    by_cases hty : (img.dinode i).type = tDir
    · obtain ⟨hx, hok⟩ := checkDir_dirOk hty hdir hx
      exact ⟨hx, List.forall_mem_cons.2 ⟨fun _ => hok, hall⟩⟩
    · rw [checkDir, if_pos hty] at hdir
      obtain rfl := pure_ok.1 hdir
      exact ⟨hx, List.forall_mem_cons.2 ⟨fun hd => absurd hd hty, hall⟩⟩

/-- No directory has an indirect block. -/
def NoIndirect (img : Image) : Prop :=
  ∀ i < img.superblock.ninodes, (img.dinode i).type = tDir → (img.dinode i).addrs ndirect = 0

instance : Decidable (NoIndirect img) :=
  inferInstanceAs (Decidable (∀ i < img.superblock.ninodes, _ → _))

/-- What the checker has found of an accepted image, whatever the counters start with. -/
structure Passed (img : Image) : Prop where
  clean : Clean img.superblock img (allRefs img.superblock img)
  dirs : ∀ i < img.superblock.ninodes, (img.dinode i).type = tDir → DirOk img i

/-- What it has found if they start with 0. -/
structure Accepted (img : Image) : Prop extends Passed img where
  named : ∀ i < img.superblock.ninodes, i ≠ 0 → i ≠ 1 → (img.dinode i).type ≠ 0 →
    1 ≤ (allNamings img).count i
  once : ∀ i, (img.dinode i).type = tDir → (allNamings img).count i ≤ 1

theorem passed_of_ok (h : main a stale img = .ok ()) : Passed img := by
  obtain ⟨⟨ds, -, hclean, hdirs, -, -, -, hexit⟩, -⟩ := main_ok_iff.1 h
  obtain ⟨-, hdirs⟩ := checkDirs_dirOk hdirs hexit
  exact ⟨hclean, fun i hi hty => hdirs i (List.mem_range.2 hi) hty⟩

theorem accepted_of_ok (hind : NoIndirect img) (h : main .zero stale img = .ok ()) :
    Accepted img := by
  obtain ⟨⟨ds, -, -, hdirs, href, -⟩, -⟩ := main_ok_iff.1 h
  obtain ⟨hpointed, hblocks, hfresh⟩ :=
    checkDirs_tallied (fun i hi => hind i (List.mem_range.1 hi)) hdirs
  have hle := hfresh fun i => show (0 : ℤ) ≤ 1 by decide
  refine ⟨passed_of_ok h, fun i hi h0 h1 hty => ?_, fun i hty => ?_⟩
  · obtain ⟨d, hd, hi⟩ := bind_ok.1 (href i hi)
    obtain ⟨-, rfl⟩ := getInode_ok.1 hd
    obtain ⟨_, hfound, -⟩ := bind_ok.1 hi
    have hnot := complain_ok.1 hfound
    by_contra hlt
    have hzero : (allNamings img).count i = 0 := by omega
    refine hnot ⟨h0, h1, ?_, hty⟩
    have hsum := hpointed i
    rw [show (List.range img.superblock.ninodes).flatMap (namings img) = allNamings img from rfl,
      hzero] at hsum
    rw [hsum]
    show (0 : ℤ) + ((0 : ℕ) : ℤ) < 1
    decide
  · have hcount := hle i
    rw [hblocks, if_pos hty] at hcount
    have hcount : (0 : ℤ) + (allNamings img).count i ≤ 1 := hcount
    omega

/-! ### Parents -/

/-- Some entry that a pass over inode `x` looks at links it to `y`. -/
def Links (img : Image) (x y : ℕ) : Prop :=
  ∃ addr ∈ dirBlocks img (img.dinode x), ∃ de ∈ img.dirents addr, de.isDotDot = true ∧ de.inum = y

/-- A move of the pointer of a walk. -/
def Moves (img : Image) (start x y : ℕ) : Prop := Links img x y ∧ y ≠ start

theorem walkDirents_moves {w : ℕ × Bool} (h : walkDirents start des c = .ok w) :
    (w.1 = c ∨ (∃ de ∈ des, de.isDotDot = true ∧ de.inum = w.1) ∧ w.1 ≠ start) ∧
      (w.2 = true → ∃ de ∈ des, de.isDotDot = true ∧ de.inum = 1) := by
  induction des generalizing c with
  | nil =>
    obtain rfl := pure_ok.1 h
    exact ⟨.inl rfl, nofun⟩
  | cons de des ih =>
    have hcons : ∀ {y : ℕ}, (∃ de ∈ des, de.isDotDot = true ∧ de.inum = y) →
        ∃ de' ∈ de :: des, de'.isDotDot = true ∧ de'.inum = y := fun ⟨de', hmem, hde⟩ =>
      ⟨de', List.mem_cons_of_mem _ hmem, hde⟩
    rw [walkDirents] at h
    split at h
    · rename_i hdd
      split at h
      · rename_i h1
        obtain rfl := pure_ok.1 h
        exact ⟨.inl rfl, fun _ => ⟨de, List.mem_cons_self, hdd, h1⟩⟩
      · obtain ⟨_, -, h⟩ := bind_ok.1 h
        obtain ⟨_, hne, h⟩ := bind_ok.1 h
        obtain ⟨hmove, hroot⟩ := ih h
        refine ⟨.inr ?_, fun hw => hcons (hroot hw)⟩
        rcases hmove with hw | ⟨hex, hw⟩
        · exact ⟨⟨de, List.mem_cons_self, hdd, hw.symm⟩, hw ▸ complain_ok.1 hne⟩
        · exact ⟨hcons hex, hw⟩
    · obtain ⟨hmove, hroot⟩ := ih h
      exact ⟨hmove.imp id (And.imp_left hcons), fun hw => hcons (hroot hw)⟩

/-- The pointer has moved from `c`, and a link to the root has been seen on the way if the flag says
so. -/
def Walked (img : Image) (start c : ℕ) (w : ℕ × Bool) : Prop :=
  Relation.ReflTransGen (Moves img start) c w.1 ∧
    (w.2 = true → ∃ z, Relation.ReflTransGen (Moves img start) c z ∧ Links img z 1)

/-- One block of inode `x`, from where the pointer came. -/
theorem walkBlock_walked {addr : ℕ} {w w' : ℕ × Bool}
    (haddr : addr ∈ dirBlocks img (img.dinode x))
    (hx : Relation.ReflTransGen (Moves img start) c x) (hW : Walked img start c w)
    (h : walkBlock img start addr w = .ok w') :
    Walked img start c w' ∧ (w'.1 = w.1 ∨ Moves img start x w'.1) := by
  obtain ⟨_, -, h⟩ := bind_ok.1 h
  obtain ⟨r, hr, h⟩ := bind_ok.1 h
  obtain rfl := pure_ok.1 h
  obtain ⟨hmove, hroot⟩ := walkDirents_moves hr
  have hmoves : r.1 = w.1 ∨ Moves img start x r.1 :=
    hmove.imp id fun ⟨⟨de, hmem, hde⟩, hne⟩ => ⟨⟨addr, haddr, de, hmem, hde⟩, hne⟩
  refine ⟨⟨?_, fun hw => ?_⟩, hmoves⟩
  · show Relation.ReflTransGen (Moves img start) c r.1
    rcases hmoves with hw | hm
    · exact hw ▸ hW.1
    · exact hx.tail hm
  · rcases Bool.or_eq_true_iff.1 hw with hw | hw
    · exact hW.2 hw
    · obtain ⟨de, hmem, hde⟩ := hroot hw
      exact ⟨x, hx, addr, haddr, de, hmem, hde⟩

theorem walkPass_walked {w : ℕ × Bool} (hx : Relation.ReflTransGen (Moves img start) c x)
    (h : walkPass img start x = .ok w) : Walked img start c w := by
  obtain ⟨w₁, h₁, h⟩ := bind_ok.1 h
  have hW₁ : Walked img start c w₁ := by
    refine foldlM_ok_preserves (I := Walked img start c) h₁ ⟨hx, nofun⟩ fun n hn w w' hW hw => ?_
    obtain ⟨d, hd, hw⟩ := bind_ok.1 hw
    obtain ⟨-, rfl⟩ := getInode_ok.1 hd
    exact (walkBlock_walked (List.mem_append_left _ (List.mem_map_of_mem hn)) hW.1 hW hw).1
  obtain ⟨d, hd, h⟩ := bind_ok.1 h
  obtain ⟨-, rfl⟩ := getInode_ok.1 hd
  obtain ⟨_, -, h⟩ := bind_ok.1 h
  -- The blocks of this loop are those of one inode, also when the pointer moves on.
  exact foldlM_ok_preserves (I := Walked img start c) h hW₁ fun addr haddr w w' hW hw =>
    (walkBlock_walked (x := w₁.1) (List.mem_append_right _ haddr) hW₁.1 hW hw).1

/-- **A walk that ends** has come to an inode that is linked to the root. -/
theorem walkToRoot_walked (h : walkToRoot img start c = .ok ()) :
    ∃ z, Relation.ReflTransGen (Moves img start) c z ∧ Links img z 1 := by
  obtain ⟨_, -, h⟩ := bind_ok.1 h
  suffices ∀ n x, Relation.ReflTransGen (Moves img start) c x → walkLoop img start n x = .ok () →
      ∃ z, Relation.ReflTransGen (Moves img start) c z ∧ Links img z 1 from this _ c .refl h
  intro n
  induction n with
  | zero => exact fun x _ hn => nomatch hn
  | succ n ih =>
    intro x hx hn
    obtain ⟨w, hw, hn⟩ := bind_ok.1 hn
    obtain ⟨hmoved, hroot⟩ := walkPass_walked hx hw
    split at hn
    · exact hroot ‹_›
    · exact ih w.1 hmoved hn

/-- A back pointer that is found. -/
theorem backPtr_true (h : backPtr img inum d = .ok true) :
    ∃ addr ∈ dirBlocks img d, ∃ de ∈ img.dirents addr, de.inum = inum := by
  have hloop : ∀ {ks : List ℕ} (addr : ℕ → ℕ) {found found' : Bool},
      (∀ k ∈ ks, addr k ∈ dirBlocks img d) →
      (found = true → ∃ addr ∈ dirBlocks img d, ∃ de ∈ img.dirents addr, de.inum = inum) →
      ks.foldlM (fun found k => do
        deref (addr k)
        pure (found || (img.dirents (addr k)).any (·.inum = inum))) found = (.ok found' : M Bool) →
      found' = true → ∃ addr ∈ dirBlocks img d, ∃ de ∈ img.dirents addr, de.inum = inum := by
    intro ks addr found found' hks hI hk
    refine foldlM_ok_preserves (I := fun found : Bool => found = true →
      ∃ addr ∈ dirBlocks img d, ∃ de ∈ img.dirents addr, de.inum = inum) hk hI ?_
    intro k hmem b b' hb hk hb'
    obtain ⟨_, -, hk⟩ := bind_ok.1 hk
    obtain rfl := pure_ok.1 hk
    rcases Bool.or_eq_true_iff.1 hb' with hb' | hb'
    · exact hb hb'
    · obtain ⟨de, hde, heq⟩ := List.any_eq_true.1 hb'
      exact ⟨addr k, hks k hmem, de, hde, by simpa using heq⟩
  obtain ⟨found, h₁, h⟩ := bind_ok.1 h
  obtain ⟨_, -, h⟩ := bind_ok.1 h
  refine hloop (fun addr => addr) (fun k hk => List.mem_append_right _ hk) (fun hf => ?_) h rfl
  exact hloop d.addrs (fun n hn => List.mem_append_left _ (List.mem_map_of_mem hn))
    (fun hf => absurd hf Bool.false_ne_true) h₁ hf

/-- A walk that starts at the directory itself, whose `".."` names itself. -/
theorem walkToRoot_self (hne : start ≠ 1)
    (hall : ∀ n < ndirect, ∀ de ∈ img.dirents ((img.dinode start).addrs n),
      de.isDotDot = true → de.inum = start)
    (hex : ∃ n < ndirect, ∃ de ∈ img.dirents ((img.dinode start).addrs n), de.isDotDot = true) :
    walkToRoot img start start ≠ .ok () := by
  intro h
  have hdirents : ∀ {des : List Dirent} {w : ℕ × Bool},
      (∀ de ∈ des, de.isDotDot = true → de.inum = start) →
      walkDirents start des start = .ok w →
      w = (start, false) ∧ ∀ de ∈ des, de.isDotDot = false := by
    intro des w hdes hw
    induction des with
    | nil =>
      obtain rfl := pure_ok.1 hw
      exact ⟨rfl, by simp⟩
    | cons de des ih =>
      obtain ⟨hde, hdes⟩ := List.forall_mem_cons.1 hdes
      rw [walkDirents] at hw
      split at hw
      · rename_i hdd
        rw [if_neg (by rw [hde hdd]; exact hne)] at hw
        obtain ⟨_, -, hw⟩ := bind_ok.1 hw
        obtain ⟨_, hnot, -⟩ := bind_ok.1 hw
        exact absurd (hde hdd) (complain_ok.1 hnot)
      · rename_i hdd
        obtain ⟨rfl, hnone⟩ := ih hdes hw
        exact ⟨rfl, List.forall_mem_cons.2 ⟨by simpa using hdd, hnone⟩⟩
  obtain ⟨_, -, h⟩ := bind_ok.1 h
  change walkLoop img start (201 + 1) start = .ok () at h
  obtain ⟨w, hpass, -⟩ := bind_ok.1 h
  obtain ⟨w₁, hloop, -⟩ := bind_ok.1 hpass
  have hI := foldlM_ok_invariant (I := fun ns w => w = (start, false) ∧
    ∀ n ∈ ns, ∀ de ∈ img.dirents ((img.dinode start).addrs n), de.isDotDot = false) hloop
    ⟨rfl, by simp⟩ ?_
  · obtain ⟨n, hn, de, hde, hdd⟩ := hex
    have := hI.2 n (List.mem_range.2 hn) de hde
    rw [hdd] at this
    cases this
  · rintro pre n w w' hpre ⟨rfl, hnone⟩ hw
    have hn : n < ndirect := List.mem_range.1 (hpre.subset (by simp))
    obtain ⟨d, hd, hw⟩ := bind_ok.1 hw
    obtain ⟨-, rfl⟩ := getInode_ok.1 hd
    obtain ⟨_, -, hw⟩ := bind_ok.1 hw
    obtain ⟨r, hr, hw⟩ := bind_ok.1 hw
    obtain rfl := pure_ok.1 hw
    obtain ⟨rfl, hnew⟩ := hdirents (hall n hn) hr
    exact ⟨rfl, List.forall_mem_append.2 ⟨hnone, List.forall_mem_singleton.2 hnew⟩⟩

/-! ### Block 0 -/

/-- An inode in use that has no indirect block. -/
structure ReadsZero (img : Image) (x : ℕ) : Prop where
  lt : x < img.superblock.ninodes
  used : (img.dinode x).type ≠ 0
  indirect : (img.dinode x).addrs ndirect = 0

theorem entry_zero_mem (hx : ReadsZero img x) {k : ℕ} (hk : k < nindirect) :
    .entry (img.entry 0 k) ∈ inodeRefs img (img.dinode x) := by
  rw [inodeRefs, if_neg hx.used, refs, hx.indirect]
  refine List.mem_append_right _ (List.mem_cons_of_mem _ (List.mem_map_of_mem ?_))
  exact List.mem_map_of_mem (List.mem_range.2 hk)

/-- The words of block 0 are checked as block numbers. -/
theorem entry_zero_lt (hsb : img.superblock = mkfsSuperblock) (hP : Passed img)
    (hx : ReadsZero img x) {k : ℕ} (hk : k < nindirect) : img.entry 0 k < 1024 := by
  have hmem : .entry (img.entry 0 k) ∈ allRefs img.superblock img :=
    List.mem_flatMap.2 ⟨x, List.mem_range.2 hx.lt, entry_zero_mem hx hk⟩
  have hok := hP.clean.ok _ hmem
  rw [hsb] at hok
  by_cases h0 : img.entry 0 k = 0
  · omega
  · exact lt_of_not_outOfRange (hok h0).1

/-- Two inodes that read block 0 would use its block numbers twice. -/
theorem entry_zero_eq (hP : Passed img) (hx : ReadsZero img x) (hy : ReadsZero img y)
    (hne : x ≠ y) {k : ℕ} (hk : k < nindirect) : img.entry 0 k = 0 := by
  by_contra h0
  have hmem : ∀ i, ReadsZero img i → img.entry 0 k ∈ indirectAddrs (inodeRefs img (img.dinode i)) :=
    fun i hi => mem_indirectAddrs.2 ⟨.inr (entry_zero_mem hi hk), h0⟩
  have hnd : ((List.range img.superblock.ninodes).flatMap fun i =>
      indirectAddrs (inodeRefs img (img.dinode i))).Nodup := by
    have hnd := hP.clean.indirect_nodup
    rwa [allRefs, inodesRefs, indirectAddrs, List.filterMap_flatMap] at hnd
  have hpair := (List.nodup_flatMap.1 hnd).2
  have hlt : ∀ {i j : ℕ}, i < j → ReadsZero img i → ReadsZero img j → False := by
    intro i j hij hi hj
    have hdisj :=
      List.pairwise_iff_getElem.1 hpair i j (by simpa using hi.lt) (by simpa using hj.lt)
      hij
    simp only [Function.onFun, List.getElem_range] at hdisj
    exact hdisj (hmem i hi) (hmem j hj)
  rcases Nat.lt_or_gt_of_ne hne with h | h
  · exact hlt h hx hy
  · exact hlt h hy hx

theorem entry_zero_bytes (k : ℕ) : img.entry 0 k =
    (img (4 * k)).toNat + 256 * ((img (4 * k + 1)).toNat +
    256 * ((img (4 * k + 2)).toNat + 256 * (img (4 * k + 3)).toNat)) := by
  have hoff : blockOff 0 = 0 := by decide
  simp only [Image.entry, hoff, Nat.zero_add, Bytes.word]
  rfl

/-- No entry of block 0 is a `".."` if its words are block numbers. -/
theorem not_dotDot_zero (h : ∀ k < nindirect, img.entry 0 k < 1024) :
    ∀ de ∈ img.dirents 0, de.isDotDot = false := by
  intro de hde
  obtain ⟨k, hk, rfl⟩ := List.mem_map.1 hde
  have hk : k < 32 := List.mem_range.1 hk
  have hlt := h (4 * k) (by unfold nindirect; omega)
  rw [entry_zero_bytes] at hlt
  have hoff : blockOff 0 = 0 := by decide
  have hbyte : (img (16 * k + 2)).toNat = 0 := by
    rw [show 4 * (4 * k) + 2 = 16 * k + 2 by omega] at hlt
    omega
  have hname : img (16 * k + 2) ≠ 46 := fun h => by
    rw [h] at hbyte
    cases hbyte
  simp [Dirent.isDotDot, strEq, Image.dirent, hoff, hname]

/-- Empty entries. -/
theorem inum_zero (h : ∀ k < nindirect, img.entry 0 k = 0) : ∀ de ∈ img.dirents 0, de.inum = 0 := by
  intro de hde
  obtain ⟨k, hk, rfl⟩ := List.mem_map.1 hde
  have hk : k < 32 := List.mem_range.1 hk
  have hzero := h (4 * k) (by unfold nindirect; omega)
  rw [entry_zero_bytes] at hzero
  have hoff : blockOff 0 = 0 := by decide
  show img.word 2 (blockOff 0 + 16 * k) = 0
  rw [show 4 * (4 * k) = 16 * k by omega] at hzero
  simp only [hoff, Nat.zero_add, Bytes.word]
  omega

/-! ### The tree -/

/-- Inode `i` is an in-use directory. -/
def IsDir (img : Image) (i : ℕ) : Prop := i < img.superblock.ninodes ∧ (img.dinode i).type = tDir

instance : Decidable (IsDir img i) := inferInstanceAs (Decidable (_ ∧ _))

/-- Every directory has a `"."` and a `".."`, the latter a directory, and the root's the root. -/
def Proper (img : Image) : Prop :=
  ∀ i < img.superblock.ninodes, (img.dinode i).type = tDir →
    (∃ de ∈ dirEntries img (img.dinode i), de.isDot = true) ∧
      ∃ de ∈ dirEntries img (img.dinode i), de.isDotDot = true ∧ IsDir img de.inum ∧
        (i = 1 → de.inum = 1)

instance : Decidable (Proper img) :=
  inferInstanceAs (Decidable (∀ i < img.superblock.ninodes, _ → _))

/-- The `".."` of directory `x` is directory `y`. -/
def Parent (img : Image) (x y : ℕ) : Prop := IsDir img x ∧ IsDir img y ∧
  ∃ de ∈ dirEntries img (img.dinode x), de.isDotDot = true ∧ de.inum = y

theorem not_dot_of_dotDot (h : de.isDotDot = true) : de.isDot = false := by
  simp only [Dirent.isDotDot, Dirent.isDot, strEq, Bool.and_eq_true, decide_eq_true_eq] at h ⊢
  simp [h.2.1]

theorem countP_not_isNamed (des : List Dirent) : (des.countP fun de => !de.isNamed) =
    des.countP Dirent.isDot + des.countP Dirent.isDotDot := by
  induction des with
  | nil => rfl
  | cons de des ih =>
    simp only [List.countP_cons, ih]
    have hexcl : de.isDotDot = true → de.isDot = false := not_dot_of_dotDot
    cases hdot : de.isDot <;> cases hdd : de.isDotDot <;> simp_all [Dirent.isNamed]
    all_goals omega

/-- The search for the back pointer of directory `x` decides: its `".."` is in a direct block, and
block 0, which is searched for every zero address, is empty. -/
def Checked (img : Image) (x : ℕ) : Prop :=
  (∀ k < nindirect, img.entry 0 k = 0) ∧
    ∃ de ∈ directEntries img (img.dinode x), de.isDotDot = true

instance : Decidable (Checked img x) := inferInstanceAs (Decidable (_ ∧ _))

theorem Checked.not_dotDot_zero (hC : Checked img x) : ∀ de ∈ img.dirents 0, de.isDotDot = false :=
  Fsck.not_dotDot_zero fun k hk => by rw [hC.1 k hk]; decide

/-- The facts that the rest of the section uses. -/
structure Linked (img : Image) : Prop where
  sb : img.superblock = mkfsSuperblock
  passed : Passed img
  zero : ¬IsDir img 0
  proper : Proper img

namespace Linked

variable (hL : Linked img)

include hL

theorem ne_zero (hx : IsDir img x) : x ≠ 0 := by
  rintro rfl
  exact hL.zero hx

/-- There is one `".."`. -/
theorem dotDot_unique (hx : IsDir img x) {de' : Dirent}
    (h : de ∈ dirEntries img (img.dinode x)) (hdd : de.isDotDot = true)
    (h' : de' ∈ dirEntries img (img.dinode x)) (hdd' : de'.isDotDot = true) : de = de' := by
  obtain ⟨⟨dot, hdot, hdotx⟩, -⟩ := hL.proper x hx.1 hx.2
  have htwo := (hL.passed.dirs x hx.1 hx.2).dots
  rw [countP_not_isNamed] at htwo
  have hpos : 0 < (dirEntries img (img.dinode x)).countP Dirent.isDot :=
    List.countP_pos_iff.2 ⟨dot, hdot, hdotx⟩
  have hpos' : 0 < (dirEntries img (img.dinode x)).countP Dirent.isDotDot :=
    List.countP_pos_iff.2 ⟨de, h, hdd⟩
  have hone : ((dirEntries img (img.dinode x)).filter Dirent.isDotDot).length = 1 := by
    rw [← List.countP_eq_length_filter]
    omega
  obtain ⟨e, he⟩ := List.length_eq_one_iff.1 hone
  have hmem : ∀ de'' ∈ dirEntries img (img.dinode x), de''.isDotDot = true → de'' = e := by
    intro de'' h'' hdd''
    have : de'' ∈ (dirEntries img (img.dinode x)).filter Dirent.isDotDot :=
      List.mem_filter.2 ⟨h'', hdd''⟩
    rw [he] at this
    exact List.mem_singleton.1 this
  rw [hmem de h hdd, hmem de' h' hdd']

theorem parent_unique {y' : ℕ} (h : Parent img x y) (h' : Parent img x y') : y = y' := by
  obtain ⟨hx, -, de, hde, hdd, rfl⟩ := h
  obtain ⟨-, -, de', hde', hdd', rfl⟩ := h'
  rw [hL.dotDot_unique hx hde hdd hde' hdd']

theorem exists_parent (hx : IsDir img x) : ∃ y, Parent img x y ∧ (x = 1 → y = 1) := by
  obtain ⟨-, de, hde, hdd, hdir, hroot⟩ := hL.proper x hx.1 hx.2
  exact ⟨de.inum, ⟨hx, hdir, de, hde, hdd, rfl⟩, hroot⟩

omit hL in
/-- The entries of the direct blocks that a pass looks at, where block 0 has no names. -/
theorem mem_dirEntries {n : ℕ} (hn : n < ndirect)
    (h : de ∈ img.dirents ((img.dinode x).addrs n)) :
    de ∈ img.dirents 0 ∨ de ∈ dirEntries img (img.dinode x) := by
  by_cases h0 : (img.dinode x).addrs n = 0
  · exact .inl (h0 ▸ h)
  · refine .inr (List.mem_append_left _ (List.mem_flatMap.2 ⟨n, List.mem_range.2 hn, ?_⟩))
    rwa [if_neg h0]

omit hL in
/-- The same for all blocks, if block 0 is empty. -/
theorem mem_dirEntries_of_zero (hzero : ∀ k < nindirect, img.entry 0 k = 0) {addr : ℕ}
    (haddr : addr ∈ dirBlocks img (img.dinode x)) (h : de ∈ img.dirents addr) :
    de ∈ img.dirents 0 ∨ de ∈ dirEntries img (img.dinode x) := by
  rcases List.mem_append.1 haddr with haddr | haddr
  · obtain ⟨n, hn, rfl⟩ := List.mem_map.1 haddr
    exact mem_dirEntries (List.mem_range.1 hn) h
  by_cases hind : (img.dinode x).addrs ndirect = 0
  -- Without an indirect block the words are those of block 0.
  · rw [hind] at haddr
    obtain ⟨k, hk, rfl⟩ := List.mem_map.1 haddr
    rw [hzero k (List.mem_range.1 hk)] at h
    exact .inl h
  by_cases h0 : addr = 0
  · exact .inl (h0 ▸ h)
  · refine .inr (List.mem_append_right _ ?_)
    rw [if_neg hind]
    refine List.mem_flatMap.2 ⟨addr, haddr, ?_⟩
    rwa [if_neg h0]

/-- The `".."` is where one is found. -/
theorem direct_dotDot (hx : IsDir img x)
    (hdirect : ∃ de ∈ directEntries img (img.dinode x), de.isDotDot = true)
    (h : de ∈ dirEntries img (img.dinode x)) (hdd : de.isDotDot = true) :
    de ∈ directEntries img (img.dinode x) := by
  obtain ⟨de', hde', hdd'⟩ := hdirect
  rwa [hL.dotDot_unique hx h hdd (List.mem_append_left _ hde') hdd']

/-- No directory is its own parent but the root, unless the `".."` is not looked at or is one of
block 0. -/
theorem parent_ne (hx : x ≠ 1) (hnone : ∀ de ∈ img.dirents 0, de.isDotDot = false)
    (hdirect : ∃ de ∈ directEntries img (img.dinode x), de.isDotDot = true) (h : Parent img x y) :
    y ≠ x := by
  rintro rfl
  obtain ⟨hdir, -, de, hde, hdd, hinum⟩ := h
  have hdirect := hL.direct_dotDot hdir hdirect hde hdd
  have hcheck := (hL.passed.dirs y hdir.1 hdir.2).parent de hdirect
    (hinum ▸ hL.ne_zero hdir) (hinum ▸ hdir.2)
  rw [checkWalk, if_pos ⟨hdd, hinum ▸ hx⟩, hinum] at hcheck
  refine walkToRoot_self hx (fun n hn de' hde' hdd' => ?_) ?_ hcheck.1
  · rcases mem_dirEntries hn hde' with hmem | hmem
    · have := hnone de' hmem
      rw [hdd'] at this
      cases this
    · rw [hL.dotDot_unique hdir hmem hdd' hde hdd, hinum]
  · obtain ⟨n, hn, hmem⟩ := List.mem_flatMap.1 hdirect
    split at hmem
    · cases hmem
    · exact ⟨n, List.mem_range.1 hn, de, hmem, hdd⟩

/-- Besides another directory, the links that a pass sees are to the parent. -/
theorem parent_of_links (hx : IsDir img x) (hC : Checked img start) (h : Links img x y) :
    Parent img x y := by
  obtain ⟨addr, haddr, de, hde, hdd, rfl⟩ := h
  rcases mem_dirEntries_of_zero hC.1 haddr hde with hmem | hmem
  · have := hC.not_dotDot_zero de hmem
    rw [hdd] at this
    cases this
  · obtain ⟨-, de', hde', hdd', hdir, -⟩ := hL.proper x hx.1 hx.2
    have heq := hL.dotDot_unique hx hmem hdd hde' hdd'
    exact ⟨hx, heq ▸ hdir, de, hmem, hdd, rfl⟩

/-- The moves of a walk from directory `y` lead from parent to parent. -/
theorem parents_of_moves (hy : IsDir img y) (hC : Checked img start)
    (h : Relation.ReflTransGen (Moves img start) y z) :
    Relation.ReflTransGen (Parent img) y z ∧ IsDir img z := by
  induction h with
  | refl => exact ⟨.refl, hy⟩
  | tail _ hmove ih =>
    have hparent := hL.parent_of_links ih.2 hC hmove.1
    exact ⟨ih.1.tail hparent, hparent.2.1⟩

/-- What the check of the `".."` of directory `x` has found. -/
theorem checked (hC : Checked img x) (h : Parent img x y) :
    (y ≠ 1 → walkToRoot img x y = .ok ()) ∧ backPtr img x (img.dinode y) = .ok true := by
  obtain ⟨hdir, hy, de, hde, hdd, rfl⟩ := h
  obtain ⟨hwalk, hback⟩ := (hL.passed.dirs x hdir.1 hdir.2).parent de
    (hL.direct_dotDot hdir hC.2 hde hdd) (hL.ne_zero hy) hy.2
  refine ⟨fun h1 => ?_, ?_⟩
  · rwa [checkWalk, if_pos ⟨hdd, h1⟩] at hwalk
  · rw [checkBackPtr, if_pos hdd] at hback
    obtain ⟨found, hfound, hcomplain⟩ := bind_ok.1 hback
    have hnot := complain_ok.1 hcomplain
    rw [hfound]
    cases found
    · exact absurd rfl hnot
    · rfl

/-- The walk from the parent of a directory comes to the root, and does not come back. -/
theorem walk (hx : x ≠ 1) (hC : Checked img x) (h : Parent img x y) :
    Relation.ReflTransGen (Parent img) y 1 ∧ (y ≠ 1 → ¬Parent img y x) := by
  rcases eq_or_ne y 1 with rfl | h1
  · exact ⟨.refl, fun hne => absurd rfl hne⟩
  obtain ⟨z, hmoves, hlink⟩ := walkToRoot_walked ((hL.checked hC h).1 h1)
  obtain ⟨hchain, hz⟩ := hL.parents_of_moves h.2.1 hC hmoves
  refine ⟨hchain.tail (hL.parent_of_links hz hC hlink), fun _ hback => ?_⟩
  rcases hmoves.cases_head with rfl | ⟨y', hmove, -⟩
  · exact hx (hL.parent_unique hback (hL.parent_of_links hz hC hlink))
  · have hparent := hL.parent_of_links h.2.1 hC hmove.1
    exact hmove.2 (hL.parent_unique hparent hback)

/-- The parent of a directory that is checked names it. -/
theorem names_of_parent (hx : x ≠ 1) (hC : Checked img x) (h : Parent img x y) :
    Names img y x := by
  have hy := h.2.1
  obtain ⟨addr, haddr, de, hde, hinum⟩ := backPtr_true (hL.checked hC h).2
  rcases mem_dirEntries_of_zero hC.1 haddr hde with hmem | hmem
  · exact absurd ((inum_zero hC.1 de hmem).symm.trans hinum) (hL.ne_zero h.1).symm
  cases hdot : de.isDot
  · cases hdd : de.isDotDot
    · refine ⟨hy.1, ?_⟩
      rw [namings, if_pos hy.2]
      refine List.mem_map.2 ⟨de, List.mem_filter.2 ⟨hmem, ?_⟩, hinum⟩
      simp [Dirent.names, Dirent.isNamed, hdot, hdd, hinum, hL.ne_zero h.1]
    -- A `".."` of the parent would lead back.
    · have hback : Parent img y x := ⟨hy, h.1, de, hmem, hdd, hinum⟩
      rcases eq_or_ne y 1 with rfl | h1
      · obtain ⟨y', hroot, h1⟩ := hL.exists_parent hy
        exact absurd (hL.parent_unique hback hroot |>.trans (h1 rfl)) hx
      · exact absurd hback ((hL.walk hx hC h).2 h1)
  · have hself := (hL.passed.dirs y hy.1 hy.2).own de hmem hdot
    exact absurd (hself.symm.trans hinum) (hL.parent_ne hx hC.not_dotDot_zero hC.2 h)

/-- Without indirect blocks every directory but the root is checked: it and its parent read block 0
for their missing indirect blocks, and a word found there would be in use twice. -/
theorem checked_of_noIndirect (hind : NoIndirect img) (hx : x ≠ 1) (h : Parent img x y) :
    Checked img x := by
  have hreads : ∀ i, IsDir img i → ReadsZero img i := fun i hi =>
    ⟨hi.1, by rw [hi.2]; decide, hind i hi.1 hi.2⟩
  have hnone : ∀ de ∈ img.dirents 0, de.isDotDot = false :=
    Fsck.not_dotDot_zero fun k => entry_zero_lt hL.sb hL.passed (hreads x h.1)
  have hdirect : ∃ de ∈ directEntries img (img.dinode x), de.isDotDot = true := by
    obtain ⟨hdir, -, de, hde, hdd, -⟩ := h
    refine ⟨de, (List.mem_append.1 hde).resolve_right fun hmem => ?_, hdd⟩
    rw [if_pos (hind x hdir.1 hdir.2)] at hmem
    cases hmem
  have hne := (hL.parent_ne hx hnone hdirect h).symm
  exact ⟨fun k => entry_zero_eq hL.passed (hreads x h.1) (hreads y h.2.1) hne, hdirect⟩

/-- Every directory is reached from the root. -/
theorem reached_dir (hind : NoIndirect img) (hx : IsDir img x) :
    Relation.ReflTransGen (Names img) 1 x := by
  rcases eq_or_ne x 1 with rfl | h1
  · exact .refl
  obtain ⟨y, hparent, -⟩ := hL.exists_parent hx
  have hchain := (hL.walk h1 (hL.checked_of_noIndirect hind h1 hparent) hparent).1.head hparent
  clear hparent hx h1
  induction hchain using Relation.ReflTransGen.head_induction_on with
  | refl => exact .refl
  | @head x y hparent _ ih =>
    rcases eq_or_ne x 1 with rfl | h1
    · exact .refl
    · exact ih.tail
        (hL.names_of_parent h1 (hL.checked_of_noIndirect hind h1 hparent) hparent)

end Linked

/-- An inode that the counters have found is named by some directory. -/
theorem exists_names (h : 1 ≤ (allNamings img).count i) :
    ∃ p, IsDir img p ∧ Names img p i := by
  obtain ⟨p, hp, hmem⟩ := List.mem_flatMap.1 (List.count_pos_iff.1 h)
  have hlt := List.mem_range.1 hp
  refine ⟨p, ⟨hlt, ?_⟩, hlt, hmem⟩
  by_contra hty
  rw [namings, if_neg hty] at hmem
  cases hmem

/-- The inode of a directory that is reached is a directory, also at the start. -/
theorem isDir_of_reached (h : Relation.ReflTransGen (Names img) x y) (hy : IsDir img y) :
    IsDir img x := by
  rcases h.cases_head with rfl | ⟨z, ⟨hx, hmem⟩, -⟩
  · exact hy
  · refine ⟨hx, ?_⟩
    by_contra hty
    rw [namings, if_neg hty] at hmem
    cases hmem

/-- The directory tree of an image of which the checker is promised the `"."` and `".."`. -/
theorem reached_of_linked (hL : Linked img) (hind : NoIndirect img) (hA : Accepted img)
    (hi : i < img.superblock.ninodes)
    (h0 : i ≠ 0) (h1 : i ≠ 1) (hty : (img.dinode i).type ≠ 0) :
    Relation.ReflTransGen (Names img) 1 i ∧ IsDir img 1 := by
  obtain ⟨p, hp, hnames⟩ := exists_names (hA.named i hi h0 h1 hty)
  have hreach := hL.reached_dir hind hp
  exact ⟨hreach.tail hnames, isDir_of_reached hreach hp⟩

/-- **The directory tree.**  In an accepted image without indirect blocks of directories every inode
in use is named, a directory once; where every directory has its `"."` and a `".."`, the names lead
to it from the root. -/
theorem tree_of_ok (hsb : img.superblock = mkfsSuperblock) (hind : NoIndirect img)
    (h : main .zero stale img = .ok ()) :
    (∀ i < img.superblock.ninodes, i ≠ 0 → i ≠ 1 → (img.dinode i).type ≠ 0 →
      ∃ p, IsDir img p ∧ Names img p i) ∧
    (∀ i < img.superblock.ninodes, i ≠ 0 → i ≠ 1 → (img.dinode i).type = tDir →
      (allNamings img).count i = 1) ∧
    ((img.dinode 1).type = tDir → (allNamings img).count 1 ≤ 1) ∧
    ((img.dinode 0).type = 0 → Proper img →
      (∀ i < img.superblock.ninodes, (img.dinode i).type ≠ 0 →
        Relation.ReflTransGen (Names img) 1 i) ∧
      ((∃ i < img.superblock.ninodes, i ≠ 1 ∧ (img.dinode i).type ≠ 0) → IsDir img 1)) := by
  have hA := accepted_of_ok hind h
  have hreach : (img.dinode 0).type = 0 → Proper img → ∀ i < img.superblock.ninodes, i ≠ 1 →
      (img.dinode i).type ≠ 0 → Relation.ReflTransGen (Names img) 1 i ∧ IsDir img 1 := by
    intro hfree hproper i hi h1 hty
    have hzero : ¬IsDir img 0 := fun h0 => by
      rw [IsDir, hfree] at h0
      exact absurd h0.2 (by decide)
    refine reached_of_linked ⟨hsb, hA.toPassed, hzero, hproper⟩ hind hA hi ?_ h1 hty
    rintro rfl
    exact hty hfree
  refine ⟨fun i hi h0 h1 hty => exists_names (hA.named i hi h0 h1 hty),
    fun i hi h0 h1 hty => ?_, hA.once 1, fun hfree hproper => ⟨fun i hi hty => ?_, ?_⟩⟩
  · have hnamed := hA.named i hi h0 h1 (by rw [hty]; decide)
    exact le_antisymm (hA.once i hty) hnamed
  · rcases eq_or_ne i 1 with rfl | h1
    · exact .refl
    · exact (hreach hfree hproper i hi h1 hty).1
  · rintro ⟨i, hi, h1, hty⟩
    exact (hreach hfree hproper i hi h1 hty).2

/-! ### Images -/

set_option maxRecDepth 20000

/-- The entries `"."` and `".."`. -/
def dots (inum parent : ℕ) : List UInt8 := direntBytes inum [46] ++ direntBytes parent [46, 46]

/-- The inode of a directory of one block. -/
def dirInode (block : ℕ) : List UInt8 :=
  dinodeBytes 1 1 512 [block, 0, 0, 0, 0, 0, 0, 0, 0, 0, 0, 0, 0]

/-- The root holds the directory `d` in inode 2, and that the file `f` in inode 3. -/
def nestedImage : Image := .ofChunks
  [(30 * bsize, dots 2 1 ++ direntBytes 3 [102]),
    (29 * bsize, dots 1 1 ++ direntBytes 2 [100]),
    (bsize * bitmapBlock + 3, [0x60]),
    (2 * bsize + 64, dirInode 29 ++ dirInode 30 ++
      dinodeBytes 2 1 0 [0, 0, 0, 0, 0, 0, 0, 0, 0, 0, 0, 0, 0]),
    (bsize, mkfsSuperblock.bytes)]

/-- The image is accepted, and its directories have their dot entries. -/
theorem nestedImage_passes : main .zero (fun _ _ _ => none) nestedImage = .ok () ∧
    NoIndirect nestedImage ∧ Proper nestedImage :=
  ⟨by decide +kernel, by decide +kernel, by decide +kernel⟩

/-- The file in the subdirectory is reached. -/
theorem tree_of_ok_nestedImage : Relation.ReflTransGen (Names nestedImage) 1 3 := by
  obtain ⟨hok, hind, hproper⟩ := nestedImage_passes
  have hty : (nestedImage.dinode 3).type ≠ 0 := by decide
  exact ((tree_of_ok (by decide) hind hok).2.2.2 (by decide) hproper).1 3 (by decide) hty

/-- An image of mkfs geometry that is accepted. -/
def Passes (img : Image) : Prop :=
  img.superblock = mkfsSuperblock ∧ ∃ stale, main .zero stale img = .ok ()

/-- An image without inodes in use. -/
def emptyImage : Image := .ofChunks [(bsize, mkfsSuperblock.bytes)]

/-- An image of stray directories: inode 0, which no entry can name; the root, which the entry `r`
names, and whose `".."` is inode 5; inode 2 with two `"."` and no `".."`; inode 3, whose `".."` is
the file in inode 4; and inode 5.  The last three are each named by themselves only. -/
def strayImage : Image := .ofChunks
  [(33 * bsize, dots 5 1 ++ direntBytes 5 [122]),
    (32 * bsize, dots 3 4 ++ direntBytes 3 [121]),
    (31 * bsize, direntBytes 2 [46] ++ direntBytes 2 [46] ++ direntBytes 2 [120]),
    (30 * bsize, dots 1 5 ++ direntBytes 1 [114] ++ direntBytes 4 [102]),
    (29 * bsize, direntBytes 0 [46] ++ direntBytes 0 [46]),
    (bsize * bitmapBlock + 3, [0xe0, 3]),
    (2 * bsize, dirInode 29 ++ dirInode 30 ++ dirInode 31 ++ dirInode 32 ++
      dinodeBytes 2 2 0 [0, 0, 0, 0, 0, 0, 0, 0, 0, 0, 0, 0, 0] ++ dirInode 33),
    (bsize, mkfsSuperblock.bytes)]

theorem strayImage_passes : Passes strayImage :=
  ⟨by decide, fun _ _ _ => none, by decide +kernel⟩

/-- Only the root and the file are reached there. -/
theorem strayImage_reached (h : Relation.ReflTransGen (Names strayImage) 1 i) : i = 1 ∨ i = 4 := by
  induction h with
  | refl => exact .inl rfl
  | tail _ hnames ih =>
    have hroot : namings strayImage 1 = [1, 4] := by decide
    have hfile : namings strayImage 4 = [] := by decide
    rcases ih with rfl | rfl
    · simpa [Names, hroot] using hnames.2
    · simp [Names, hfile] at hnames

/-- The checker looks neither for the root directory nor for names of it, and inode 0 and stray
directories pass. -/
theorem not_tree : ¬(∀ img, Passes img → IsDir img 1) ∧
    ¬(∀ img, Passes img → 1 ∉ allNamings img) ∧
    ¬(∀ img, Passes img → ∀ i, IsDir img i → i ≠ 1 → (allNamings img).count i = 1) ∧
    ¬∀ img, Passes img → ∀ i < img.superblock.ninodes, (img.dinode i).type ≠ 0 →
      Relation.ReflTransGen (Names img) 1 i := by
  refine ⟨fun h => ?_, fun h => h _ strayImage_passes (by decide), fun h => ?_,
    fun h => ?_⟩
  · have hpasses : Passes emptyImage := ⟨by decide, fun _ _ _ => none, by decide⟩
    exact absurd (h _ hpasses) (by decide)
  · have hcount := h _ strayImage_passes 0 (by decide) (by decide)
    exact absurd hcount (by decide)
  · have hreach := h _ strayImage_passes 2 (by decide) (by decide)
    rcases strayImage_reached hreach with h2 | h2 <;> cases h2

end OsProjects.Fsck
