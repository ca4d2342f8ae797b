import OsProjects.Foundation.Records
import OsProjects.Fsck.Dots
import OsProjects.Fsck.Files

/-!
# Images that pass

The other direction of what the checker finds out: an image without indirect blocks of directories
whose directories are a tree, with the parent of each below it in the inode table, whose block 0 is
empty and whose blocks and links are what they should be is accepted (`Sound.ok`).
-/

namespace OsProjects.Fsck

variable {sb : Superblock} {img : Image} {stale : ℕ → ℕ → ℕ → Option Dinode}
  {inum i n p start c x y : ℕ}
  {s t : Dirs} {d : Dinode} {de : Dirent} {des : List Dirent}

/-! ### Entries -/

/-- What the check of an entry of directory `inum` asks of it, whatever has been counted. -/
structure EntryOk (img : Image) (inum : ℕ) (de : Dirent) : Prop where
  target : de.inum ≠ 0 → de.inum < 200 ∧ (img.dinode de.inum).type ≠ 0
  own : de.isDot = true → de.inum = inum
  parent : de.inum ≠ 0 → (img.dinode de.inum).type = tDir →
    checkWalk img inum de = .ok () ∧ checkBackPtr img inum de (img.dinode de.inum) = .ok ()

theorem record_total (h : de.inum < sb.ninodes) (num : ℤ) :
    ∃ t, record sb s de num = .ok t ∧ t.exitCode = s.exitCode := by
  obtain ⟨g, hg⟩ := bumpNamed_ok h s.dirPointedInodes
  refine ⟨{ s with
    dirPointedInodes := g
    indexOfDirectory := Function.update s.indexOfDirectory de.inum num
    numOfDirectory := s.numOfDirectory + 1 }, ?_, rfl⟩
  have hacc : access (de.inum < sb.ninodes) = .ok () := access_ok.2 h
  rw [record, hg, ok_bind, hacc, ok_bind]
  rfl

theorem countFile_total (h : de.inum < sb.ninodes) :
    ∃ t, countFile sb s de = .ok t ∧ t.exitCode = s.exitCode := by
  refine ⟨{ s with
    fileBlockArr := Function.update s.fileBlockArr de.inum (s.fileBlockArr de.inum + 1) }, ?_, rfl⟩
  have hacc : access (de.inum < sb.ninodes) = .ok () := access_ok.2 h
  rw [countFile, bump, hacc, ok_bind, pure_bind]
  rfl

theorem countDir_total (h : de.inum < sb.ninodes)
    (hfresh : de.isNamed = true → s.dirBlockArr de.inum < 1) :
    ∃ t, countDir sb s de = .ok t ∧ t.exitCode = s.exitCode := by
  obtain ⟨g, hg⟩ := bumpNamed_ok h s.dirBlockArr
  have honce : complain (1 ≤ s.dirBlockArr de.inum ∧ de.isNamed = true) .dirTwice = .ok () :=
    complain_ok.2 fun hc => by
      have := hfresh hc.2
      omega
  refine ⟨{ s with dirBlockArr := g }, ?_, rfl⟩
  have hacc : access (de.inum < sb.ninodes) = .ok () := access_ok.2 h
  rw [countDir, hacc, ok_bind, honce, ok_bind, hg, ok_bind]
  rfl

/-- The cases of `ptr->type`. -/
theorem checkTarget_total (h : EntryOk img inum de) (h0 : de.inum ≠ 0) (hn : sb.ninodes = 200)
    (hfresh : (img.dinode de.inum).type = tDir → de.isNamed = true → s.dirBlockArr de.inum < 1) :
    ∃ t, checkTarget sb img inum s de (img.dinode de.inum) = .ok t ∧ t.exitCode = s.exitCode := by
  have hlt : de.inum < sb.ninodes := hn ▸ (h.target h0).1
  rw [checkTarget]
  split
  · exact countFile_total hlt
  split
  · rename_i hty
    have hown : complain (de.isDot = true ∧ de.inum ≠ inum) .notFormatted = .ok () :=
      complain_ok.2 fun hc => hc.2 (h.own hc.1)
    obtain ⟨hwalk, hback⟩ := h.parent h0 hty
    rw [hown, ok_bind, hwalk, ok_bind, hback, ok_bind]
    exact countDir_total hlt (hfresh hty)
  · exact ⟨s, rfl, rfl⟩

/-- The check of an entry. -/
theorem checkDirent_total (h : EntryOk img inum de) (hn : sb.ninodes = 200)
    (hfresh : ∀ i ∈ namedBy [de], (img.dinode i).type = tDir → s.dirBlockArr i < 1) :
    ∃ t, checkDirent sb img inum s de = .ok t ∧ t.exitCode = s.exitCode := by
  suffices ∃ t, checkInum sb img inum s de = .ok t ∧ t.exitCode = s.exitCode by
    obtain ⟨t, ht, hexit⟩ := this
    have hown : (de.isDot && decide (de.inum ≠ inum)) = false := by
      cases hdot : de.isDot
      · rfl
      · rw [h.own hdot]
        simp
    refine ⟨_, by rw [checkDirent, ht, ok_bind, hown, Bool.or_false]; rfl, ?_⟩
    split <;> exact hexit
  rw [checkInum]
  split
  · exact ⟨s, rfl, rfl⟩
  rename_i h0
  obtain ⟨hlt, hty⟩ := h.target h0
  have hget : getInode img de.inum = .ok (img.dinode de.inum) :=
    getInode_ok.2 ⟨by unfold imgSize bsize; omega, rfl⟩
  obtain ⟨s₁, hs₁, hexit₁⟩ := checkTarget_total (s := s) h h0 hn fun hdir hnamed =>
    hfresh de.inum (by
      rw [← List.count_pos_iff, count_namedBy, if_pos ⟨hnamed, h0, rfl⟩]
      exact Nat.one_pos) hdir
  obtain ⟨t, ht, hexit⟩ :=
    record_total (s := s₁) (hn ▸ hlt : de.inum < sb.ninodes) s₁.numOfDirectory
  refine ⟨t, ?_, hexit.trans hexit₁⟩
  have hused : complain ((img.dinode de.inum).type = 0) .referredFree = .ok () := complain_ok.2 hty
  rw [hget, ok_bind, hs₁, ok_bind, hused, ok_bind, ht]

/-- The loop over entries, if they and what has been counted before name no directory twice. -/
theorem checkDirents_total (hn : sb.ninodes = 200) (hall : ∀ de ∈ des, EntryOk img inum de)
    (honce : ∀ i, (img.dinode i).type = tDir → s.dirBlockArr i + (namedBy des).count i ≤ 1) :
    ∃ t, des.foldlM (checkDirent sb img inum) s = .ok t ∧ t.exitCode = s.exitCode := by
  induction des generalizing s with
  | nil => exact ⟨s, rfl, rfl⟩
  | cons de des ih =>
    obtain ⟨hde, hdes⟩ := List.forall_mem_cons.1 hall
    simp only [count_namedBy_cons de des] at honce
    push_cast at honce
    obtain ⟨s₁, hs₁, hexit₁⟩ := checkDirent_total (s := s) hde hn fun i hi hty => by
      have hpos := List.count_pos_iff.2 hi
      have := honce i hty
      omega
    obtain ⟨t, ht, hexit⟩ := ih (s := s₁) hdes fun i hty => by
      rw [(checkDirent_noted hs₁).blocks, if_pos hty]
      have := honce i hty
      omega
    exact ⟨t, foldlM_cons_ok.2 ⟨s₁, hs₁, ht⟩, hexit.trans hexit₁⟩

/-! ### Directories -/

theorem deref_of_lt {addr : ℕ} (h : addr < 1024) : deref addr = .ok () :=
  deref_ok.2 (block_inside h)

/-- A directory without an indirect block. -/
theorem checkDir_total (stale : ℕ → ℕ → ℕ → Option Dinode) (hn : sb.ninodes = 200)
    (hty : d.type = tDir) (hind : d.addrs ndirect = 0)
    (haddrs : ∀ j < ndirect, d.addrs j < 1024)
    (htwo : ((dirEntries img d).countP fun de => !de.isNamed) = 2)
    (hall : ∀ de ∈ dirEntries img d, EntryOk img inum de)
    (honce : ∀ i, (img.dinode i).type = tDir →
      s.dirBlockArr i + (namedBy (dirEntries img d)).count i ≤ 1) :
    ∃ t, checkDir sb img stale inum s d = .ok t ∧ t.exitCode = s.exitCode := by
  have hentries : dirEntries img d = (List.range ndirect).flatMap fun j =>
      if d.addrs j = 0 then [] else img.dirents (d.addrs j) := by
    rw [dirEntries, if_pos hind, List.append_nil]
  obtain ⟨t, ht, hexit⟩ := checkDirents_total (s := { s with curAndPreDir := 0 }) hn hall honce
  have hslots : ((dirEntries img d).map .direct).foldlM (checkSlot sb img inum)
      { s with curAndPreDir := 0 } = .ok t := by
    rw [List.foldlM_map]
    exact ht
  have hcount : t.curAndPreDir = 2 := by
    rw [(checkSlots_dots hslots).1, List.countP_map]
    exact (Nat.zero_add _).trans htwo
  have hdots : complain (t.curAndPreDir ≠ 2) .notFormatted = .ok () :=
    complain_ok.2 fun hne => hne hcount
  rw [hentries, foldlM_flatMap] at ht
  have hblocks : (List.range ndirect).foldlM (fun s j => checkBlock sb img inum s (d.addrs j))
      { s with curAndPreDir := 0 } = .ok t := by
    refine foldlM_ok_map (π := id) ht fun j hj s s' hs => ?_
    show checkBlock sb img inum s (d.addrs j) = .ok s'
    rw [checkBlock]
    split
    · rename_i h0
      rwa [if_pos h0] at hs
    · rename_i h0
      rw [if_neg h0] at hs
      rw [deref_of_lt (haddrs j (List.mem_range.1 hj)), ok_bind, hs]
  refine ⟨t, ?_, hexit⟩
  rw [checkDir, if_neg (not_not.2 hty), hblocks, ok_bind, checkIndirectBlock, if_pos hind,
    pure_bind,
    hdots, ok_bind]
  rfl

/-! ### Walks -/

/-- A loop over blocks that looks for something. -/
theorem foldlM_found (p : ℕ → Bool) (addr : ℕ → ℕ) (found : Bool) {ks : List ℕ}
    (h : ∀ k ∈ ks, addr k < 1024) :
    ks.foldlM (fun found k => do deref (addr k); pure (found || p k)) found =
      (.ok (found || ks.any p) : M Bool) := by
  induction ks generalizing found with
  | nil => rw [List.any_nil, Bool.or_false]; rfl
  | cons k ks ih =>
    obtain ⟨hk, hks⟩ := List.forall_mem_cons.1 h
    rw [List.foldlM_cons, deref_of_lt hk, ok_bind, pure_bind, ih _ hks, List.any_cons,
      Bool.or_assoc]

/-- The loop over entries whose `".."`s have one number. -/
theorem walkDirents_eq (start c : ℕ) (hp : ∀ de ∈ des, de.isDotDot = true → de.inum = p)
    (hlt : p < 200)
    (hne : p ≠ start) : walkDirents start des c =
      .ok (if des.any Dirent.isDotDot then if p = 1 then (c, true) else (p, false)
      else (c, false)) := by
  induction des generalizing c with
  | nil => rfl
  | cons de des ih =>
    obtain ⟨hde, hdes⟩ := List.forall_mem_cons.1 hp
    rw [walkDirents, List.any_cons]
    by_cases hdd : de.isDotDot = true
    · have hacc : access (de.inum < 200) = .ok () := access_ok.2 (hde hdd ▸ hlt)
      have hstart : complain (de.inum = start) .inaccessible = .ok () :=
        complain_ok.2 (hde hdd ▸ hne)
      rw [if_pos hdd, hdd, Bool.true_or, if_pos rfl, hde hdd]
      split
      · rfl
      · rw [hde hdd] at hacc hstart
        rw [hacc, ok_bind, hstart, ok_bind, ih _ hdes]
        split <;> rfl
    · rw [if_neg hdd, ih _ hdes, eq_false_of_ne_true hdd, Bool.false_or]

/-- A directory tree with the parent of each directory below it in the inode table, and an empty
block 0. -/
structure Tree (img : Image) : Prop where
  superblock : img.superblock = mkfsSuperblock
  bootBlock : ∀ o < bsize, img o = 0
  noIndirect : NoIndirect img
  clean : Clean img.superblock img (allRefs img.superblock img)
  dots : DotsRight img
  parent_lt : ∀ x y, Parent img x y → x = 1 ∨ y < x

namespace Tree

variable (hT : Tree img)

include hT

theorem lt (hx : IsDir img x) : x < 200 := by
  have := hx.1
  rwa [hT.superblock] at this

theorem addrs_lt (hx : IsDir img x) : ∀ j < ndirect, (img.dinode x).addrs j < 1024 := by
  intro j hj
  have hmem : .direct ((img.dinode x).addrs j) ∈ allRefs img.superblock img := by
    refine List.mem_flatMap.2 ⟨x, List.mem_range.2 hx.1, ?_⟩
    rw [inodeRefs, if_neg (by rw [hx.2]; decide), refs]
    exact List.mem_append_left _ (List.mem_map_of_mem (List.mem_range.2 hj))
  have hok := hT.clean.ok _ hmem
  rw [hT.superblock] at hok
  by_cases h0 : (img.dinode x).addrs j = 0
  · rw [h0]
    decide
  · exact lt_of_not_outOfRange (hok h0).1

theorem not_dotDot_zero : ∀ de ∈ img.dirents 0, de.isDotDot = false := by
  intro de hde
  obtain ⟨k, hk, rfl⟩ := List.mem_map.1 hde
  have hoff : blockOff 0 = 0 := by decide
  have hk : k < 32 := List.mem_range.1 hk
  have hbyte : img (16 * k + 2) = 0 := hT.bootBlock _ (by unfold bsize; omega)
  simp [Dirent.isDotDot, strEq, Image.dirent, hoff, hbyte]

theorem walkDirents_zero (c : ℕ) : walkDirents start (img.dirents 0) c = .ok (c, false) := by
  generalize hdes : img.dirents 0 = des
  have hnone : ∀ de ∈ des, de.isDotDot = false := hdes ▸ hT.not_dotDot_zero
  clear hdes
  induction des with
  | nil => rfl
  | cons de des ih =>
    obtain ⟨hde, hdes⟩ := List.forall_mem_cons.1 hnone
    rw [walkDirents, hde]
    exact ih hdes

theorem entries_zero : ∀ addr ∈ img.entries 0, addr = 0 := by
  intro addr haddr
  obtain ⟨k, hk, rfl⟩ := List.mem_map.1 haddr
  have hk : k < 128 := List.mem_range.1 hk
  have hoff : blockOff 0 = 0 := by decide
  rw [Image.entry, hoff]
  exact Bytes.word_zero fun r hr => hT.bootBlock _ (by unfold bsize; omega)

/-- The parent of a directory. -/
theorem exists_parent (hx : IsDir img x) : ∃ y, IsDir img y ∧ (x = 1 → y = 1) ∧ (x ≠ 1 → y < x) ∧
    (∀ de ∈ dirEntries img (img.dinode x), de.isDotDot = true → de.inum = y) ∧
    ∃ de ∈ dirEntries img (img.dinode x), de.isDotDot = true := by
  obtain ⟨-, de, hde, hdir, hback⟩ := hT.dots x hx
  obtain ⟨hmem, hdd⟩ := mem_of_filter_eq hde
  refine ⟨de.inum, hdir,
    fun h1 => by rwa [if_pos h1] at hback, fun h1 => ?_, fun de' hde' hdd' => ?_,
    de, hmem, hdd⟩
  · exact (hT.parent_lt x de.inum ⟨hx, hdir, de, hmem, hdd, rfl⟩).resolve_left h1
  · have hmem' := List.mem_filter.2 ⟨hde', hdd'⟩
    rw [hde] at hmem'
    rw [List.mem_singleton.1 hmem']

theorem ne_zero (hx : IsDir img x) : x ≠ 0 := by
  rintro rfl
  obtain ⟨y, -, -, hlt, -⟩ := hT.exists_parent hx
  exact absurd (hlt (by decide)) (Nat.not_lt_zero y)

theorem getInode_eq (hx : IsDir img x) : getInode img x = .ok (img.dinode x) :=
  getInode_ok.2 ⟨by have := hT.lt hx; unfold imgSize bsize; omega, rfl⟩

/-- The entries of a block in direct slot `n`. -/
theorem any_dotDot (hx : IsDir img x) :
    (∃ n < ndirect, (img.dirents ((img.dinode x).addrs n)).any Dirent.isDotDot = true) ∧
      ∀ n < ndirect, ∀ de ∈ img.dirents ((img.dinode x).addrs n), de.isDotDot = true →
        de ∈ dirEntries img (img.dinode x) := by
  obtain ⟨-, -, -, -, -, de, hde, hdd⟩ := hT.exists_parent hx
  constructor
  · rw [dirEntries, if_pos (hT.noIndirect x hx.1 hx.2), List.append_nil] at hde
    obtain ⟨n, hn, hmem⟩ := List.mem_flatMap.1 hde
    split at hmem
    · cases hmem
    · exact ⟨n, List.mem_range.1 hn, List.any_eq_true.2 ⟨de, hmem, hdd⟩⟩
  · intro n hn de hde hdd
    rcases Linked.mem_dirEntries hn hde with hzero | hmem
    · rw [hT.not_dotDot_zero de hzero] at hdd
      cases hdd
    · exact hmem

/-- Where a pass from directory `x` can be after the blocks `ns`: at the root, nearer to it, or
still at `x`, with no `".."` in these blocks. -/
def Nearer (img : Image) (x : ℕ) (ns : List ℕ) (w : ℕ × Bool) : Prop :=
  IsDir img w.1 ∧ (w.2 = true ∨ w.1 < x ∨ w.1 = x ∧
    ∀ n ∈ ns, (img.dirents ((img.dinode x).addrs n)).any Dirent.isDotDot = false)

/-- A block of a pass. -/
theorem walkBlock_total {w : ℕ × Bool} {ns : List ℕ} (hlt : x < start) (hw : Nearer img x ns w)
    (hn : n < ndirect) (hle : w.1 ≤ x) :
    ∃ w', walkBlock img start ((img.dinode w.1).addrs n) w = .ok w' ∧
      Nearer img x (ns ++ [n]) w' ∧ w'.1 ≤ x := by
  obtain ⟨hdir, hcase⟩ := hw
  obtain ⟨p, hp, hroot, hfall, hall, -⟩ := hT.exists_parent hdir
  have hle' : p ≤ w.1 := by
    by_cases h1 : w.1 = 1
    · exact (hroot h1).trans h1.symm |>.le
    · exact (hfall h1).le
  have hwalk := walkDirents_eq start w.1
    (fun de hde hdd => hall de ((hT.any_dotDot hdir).2 n hn de hde hdd) hdd) (hT.lt hp) (by omega)
  refine ⟨_, by rw [walkBlock, deref_of_lt (hT.addrs_lt hdir n hn), ok_bind, hwalk, ok_bind]; rfl,
    ?_⟩
  by_cases hany : (img.dirents ((img.dinode w.1).addrs n)).any Dirent.isDotDot = true
  · rw [if_pos hany]
    split
    · exact ⟨⟨hdir, .inl (Bool.or_true _)⟩, hle⟩
    · rename_i h1
      have hlt : p < w.1 := hfall fun h => h1 (hroot h)
      exact ⟨⟨hp, .inr (.inl (hlt.trans_le hle))⟩, hle'.trans hle⟩
  · rw [if_neg hany]
    refine ⟨⟨hdir, ?_⟩, hle⟩
    rcases hcase with hw | hw | ⟨hw, hns⟩
    · exact .inl (by rw [hw]; rfl)
    · exact .inr (.inl hw)
    · refine .inr (.inr ⟨hw, List.forall_mem_append.2 ⟨hns, List.forall_mem_singleton.2 ?_⟩⟩)
      rw [hw] at hany
      exact eq_false_of_ne_true hany

/-- A pass comes to the root or nearer to it. -/
theorem walkPass_total (hx : IsDir img x) (hlt : x < start) :
    ∃ w, walkPass img start x = .ok w ∧ IsDir img w.1 ∧ (w.2 = true ∨ w.1 < x) := by
  have hloop : ∃ w, (List.range ndirect).foldlM (fun w n => do
      let d ← getInode img w.1
      walkBlock img start (d.addrs n) w) (x, false) = .ok w ∧
      (Nearer img x (List.range ndirect) w ∧ w.1 ≤ x) := by
    refine foldlM_total (I := fun ns w => Nearer img x ns w ∧ w.1 ≤ x)
      ⟨⟨hx, .inr (.inr ⟨rfl, by simp⟩)⟩, le_rfl⟩ ?_
    rintro pre n w hpre ⟨hw, hle⟩
    obtain ⟨w', hw', hI⟩ := hT.walkBlock_total hlt hw (List.mem_range.1 (hpre.subset
      (List.mem_append_right pre (List.mem_singleton_self n)))) hle
    exact ⟨w', by rw [hT.getInode_eq hw.1, ok_bind, hw'], hI⟩
  obtain ⟨w, hw, ⟨hdir, hcase⟩, -⟩ := hloop
  have hself : (img.entries 0).foldlM (fun w addr => walkBlock img start addr w) w = .ok w := by
    refine foldlM_of_self fun addr haddr => ?_
    obtain rfl := hT.entries_zero addr haddr
    rw [walkBlock, deref_of_lt (by decide), ok_bind, hT.walkDirents_zero, ok_bind, Bool.or_false]
    rfl
  refine ⟨w, ?_, hdir, ?_⟩
  · rw [walkPass, hw, ok_bind, hT.getInode_eq hdir, ok_bind, hT.noIndirect w.1 hdir.1 hdir.2,
      deref_of_lt (by decide), ok_bind, hself]
  · rcases hcase with h | h | ⟨-, hnone⟩
    · exact .inl h
    · exact .inr h
    · obtain ⟨⟨n, hn, hany⟩, -⟩ := hT.any_dotDot hx
      rw [hnone n (List.mem_range.2 hn)] at hany
      cases hany

/-- **The walk** from a directory to the root. -/
theorem walkLoop_total (hx : IsDir img x) (hlt : x < start) (hn : x ≤ n) :
    walkLoop img start n x = .ok () := by
  induction n generalizing x with
  | zero => exact absurd (Nat.le_zero.1 hn) (hT.ne_zero hx)
  | succ n ih =>
    obtain ⟨w, hw, hdir, hcase⟩ := hT.walkPass_total hx hlt
    rw [walkLoop, hw, ok_bind]
    split
    · rfl
    · rename_i hroot
      have hfall := hcase.resolve_left hroot
      exact ih hdir (hfall.trans hlt) (by omega)

/-- The search for a back pointer in a directory that has it. -/
theorem backPtr_total (hx : IsDir img x)
    (h : ∃ de ∈ dirEntries img (img.dinode x), de.inum = inum) :
    backPtr img inum (img.dinode x) = .ok true := by
  have hind := hT.noIndirect x hx.1 hx.2
  have hany : (List.range ndirect).any (fun n =>
      (img.dirents ((img.dinode x).addrs n)).any (·.inum = inum)) = true := by
    obtain ⟨de, hde, hinum⟩ := h
    rw [dirEntries, if_pos hind, List.append_nil] at hde
    obtain ⟨n, hn, hmem⟩ := List.mem_flatMap.1 hde
    split at hmem
    · cases hmem
    · exact List.any_eq_true.2 ⟨n, hn, List.any_eq_true.2 ⟨de, hmem, decide_eq_true hinum⟩⟩
  have hdirect := foldlM_found (fun n => (img.dirents ((img.dinode x).addrs n)).any (·.inum = inum))
    (img.dinode x).addrs false fun n hn => hT.addrs_lt hx n (List.mem_range.1 hn)
  rw [hany, Bool.or_true] at hdirect
  have hindirect :=
    foldlM_found (fun addr => (img.dirents addr).any (·.inum = inum)) (fun addr => addr)
    true fun addr haddr => by rw [hT.entries_zero addr haddr]; decide
  rw [Bool.true_or] at hindirect
  rw [backPtr, hdirect, ok_bind, hind, deref_of_lt (by decide), ok_bind, hindirect]

/-- The entries of a directory pass if they name inodes in use. -/
theorem entryOk (hx : IsDir img x) (hde : de ∈ dirEntries img (img.dinode x))
    (hused : de.inum ≠ 0 → de.inum < 200 ∧ (img.dinode de.inum).type ≠ 0) : EntryOk img x de := by
  obtain ⟨⟨dot, hdot, hself⟩, dd, hdd, hdir, hback⟩ := hT.dots x hx
  have hparent : de.isDotDot = true → de = dd := fun h => by
    have hmem := List.mem_filter.2 ⟨hde, h⟩
    rw [hdd] at hmem
    exact List.mem_singleton.1 hmem
  refine ⟨hused, fun h => ?_, fun _ _ => ⟨?_, ?_⟩⟩
  · have hmem := List.mem_filter.2 ⟨hde, h⟩
    rw [hdot] at hmem
    rw [List.mem_singleton.1 hmem, hself]
  · rw [checkWalk]
    split
    · rename_i hc
      obtain ⟨hisdd, h1⟩ := hc
      obtain rfl := hparent hisdd
      have hx1 : x ≠ 1 := by
        rintro rfl
        rw [if_pos rfl] at hback
        exact h1 hback
      have hlt := (hT.parent_lt x de.inum ⟨hx, hdir, de, hde, hisdd, rfl⟩).resolve_left hx1
      have hacc : access (x < 200) = .ok () := access_ok.2 (hT.lt hx)
      rw [walkToRoot, hacc, ok_bind]
      exact hT.walkLoop_total hdir hlt (by have := hT.lt hdir; unfold maxPasses; omega)
    · rfl
  · rw [checkBackPtr]
    split
    · rename_i hisdd
      obtain rfl := hparent hisdd
      have hfound : ∃ de' ∈ dirEntries img (img.dinode de.inum), de'.inum = x := by
        split at hback
        · rename_i h1
          refine ⟨de, ?_, hback.trans h1.symm⟩
          rw [hback, ← h1]
          exact hde
        · have hnames := hback.2
          rw [namings, if_pos hdir.2] at hnames
          obtain ⟨de', hde', hinum⟩ := List.mem_map.1 hnames
          exact ⟨de', List.mem_of_mem_filter hde', hinum⟩
      rw [hT.backPtr_total hdir hfound, ok_bind]
      exact complain_ok.2 (by simp)
    · rfl

/-- No `"."` or `".."` is a link to a file. -/
theorem linkCount_eq_count (hty : (img.dinode i).type = tFile) :
    linkCount img i = (allNamings img).count i := by
  rw [linkCount, naming, countP_overDirs, allNamings, List.count_flatMap]
  congr 1
  refine List.map_congr_left fun x hx => ?_
  rw [Function.comp_apply, namings]
  split
  · rename_i hdir
    obtain ⟨⟨dot, hdot, hself⟩, dd, hdd, hparent, -⟩ := hT.dots x ⟨List.mem_range.1 hx, hdir⟩
    rw [namedBy, List.count, List.countP_map, List.countP_filter]
    refine List.countP_congr fun de hde => ?_
    have hnamed : de.inum = i → de.isNamed = true := by
      rintro rfl
      have hisdot : de.isDot = false := eq_false_of_ne_true fun h => by
        have hmem := List.mem_filter.2 ⟨hde, h⟩
        rw [hdot, List.mem_singleton] at hmem
        rw [hmem, hself, hdir] at hty
        cases hty
      have hisdd : de.isDotDot = false := eq_false_of_ne_true fun h => by
        have hmem := List.mem_filter.2 ⟨hde, h⟩
        rw [hdd, List.mem_singleton] at hmem
        rw [hmem, hparent.2] at hty
        cases hty
      rw [Dirent.isNamed, hisdot, hisdd]
      rfl
    simp only [Dirent.names, Function.comp_apply, Bool.and_eq_true, decide_eq_true_eq, beq_iff_eq]
    exact ⟨fun h => ⟨h.2, hnamed h.2, h.1⟩, fun h => ⟨h.2.2, h.1⟩⟩
  · rfl

end Tree

/-! ### The image -/

/-- A tree in which the entries are the only links to the inodes, and whose blocks are what the
sizes and the bitmap say. -/
structure Sound (img : Image) : Prop extends Tree img where
  type : ∀ i < 200, (img.dinode i).type ≤ tDev
  used : ∀ x, IsDir img x → ∀ de ∈ dirEntries img (img.dinode x), de.inum ≠ 0 →
    de.inum < 200 ∧ (img.dinode de.inum).type ≠ 0
  once : (allNamings img).Nodup
  named : ∀ i < 200, i ≠ 0 → i ≠ 1 → (img.dinode i).type ≠ 0 → i ∈ allNamings img
  links : ∀ i < 200, (img.dinode i).type = tFile → (img.dinode i).nlink = linkCount img i
  dirLinks : ∀ i < 200, (img.dinode i).type = tDir → (img.dinode i).nlink = 1
  sizes : ∀ i < 200, ¬BadSize (img.dinode i) (usedBlocks (refs img (img.dinode i)))
  blocks : countDbBitmap img.superblock img ≤ counted img.superblock img

namespace Sound

variable (hS : Sound img)

include hS

/-- The loop over the inodes, for the directories. -/
theorem checkDirs_total (stale : ℕ → ℕ → ℕ → Option Dinode) (is : List ℕ)
    (his : ∀ i ∈ is, i < img.superblock.ninodes)
    (honce : ∀ i, (img.dinode i).type = tDir →
      s.dirBlockArr i + (is.flatMap (namings img)).count i ≤ 1) :
    ∃ t, is.foldlM (fun s i => checkDir img.superblock img stale i s (img.dinode i)) s = .ok t ∧
      t.exitCode = s.exitCode := by
  induction is generalizing s with
  | nil => exact ⟨s, rfl, rfl⟩
  | cons x is ih =>
    obtain ⟨hx, his⟩ := List.forall_mem_cons.1 his
    simp only [List.flatMap_cons, List.count_append] at honce
    push_cast at honce
    have hn : img.superblock.ninodes = 200 := by rw [hS.superblock]; rfl
    by_cases hty : (img.dinode x).type = tDir
    · have hdir : IsDir img x := ⟨hx, hty⟩
      obtain ⟨⟨dot, hdot, -⟩, dd, hdd, -⟩ := hS.dots x hdir
      have htwo : ((dirEntries img (img.dinode x)).countP fun de => !de.isNamed) = 2 := by
        rw [countP_not_isNamed, List.countP_eq_length_filter, List.countP_eq_length_filter, hdot,
          hdd]
        rfl
      have hnamings : namings img x = namedBy (dirEntries img (img.dinode x)) := if_pos hty
      have hind := hS.noIndirect x hx hty
      obtain ⟨s₁, hs₁, hexit₁⟩ := checkDir_total (s := s) stale hn hty hind
        (hS.addrs_lt hdir) htwo (fun de hde => hS.entryOk hdir hde (hS.used x hdir de hde))
        fun i hi => by
          have := honce i hi
          rw [hnamings] at this
          omega
      have hT := checkDir_tallied hty hind hs₁
      obtain ⟨t, ht, hexit⟩ := ih (s := s₁) his fun i hi => by
        have := honce i hi
        rw [hnamings] at this
        rw [hT.blocks, if_pos hi]
        exact (add_assoc _ _ _).trans_le this
      exact ⟨t, foldlM_cons_ok.2 ⟨s₁, hs₁, ht⟩, hexit.trans hexit₁⟩
    · have hskip : checkDir img.superblock img stale x s (img.dinode x) = .ok s := by
        rw [checkDir, if_pos hty]
        rfl
      have hnone : namings img x = [] := if_neg hty
      obtain ⟨t, ht, hexit⟩ := ih (s := s) his fun i hi => by
        have := honce i hi
        rw [hnone] at this
        simpa using this
      exact ⟨t, foldlM_cons_ok.2 ⟨s, hskip, ht⟩, hexit⟩

/-- **A sound image is accepted**, if the counters start with 0. -/
theorem ok : main .zero stale img = .ok () := by
  have hn : img.superblock.ninodes = 200 := by rw [hS.superblock]; rfl
  have hcount : ∀ i, (allNamings img).count i ≤ 1 := List.nodup_iff_count_le_one.1 hS.once
  obtain ⟨ds, hds, hexit⟩ := hS.checkDirs_total (s := (State.init .zero).dirs) stale
    (List.range img.superblock.ninodes) (fun i => List.mem_range.1) fun i _ => by
      have := hcount i
      show (0 : ℤ) + (allNamings img).count i ≤ 1
      omega
  have hinode : ∀ i < 200, 2 * bsize + 64 * i + 64 ≤ imgSize := fun i hi => by
    unfold imgSize bsize
    omega
  obtain ⟨hpointed, -⟩ := checkDirs_tallied (fun i hi => hS.noIndirect i (List.mem_range.1 hi)) hds
  refine main_ok_iff.2
    ⟨⟨ds, fun i hi => ?_, hS.clean, hds, fun i hi => ?_, ?_, fun i hi => ?_, hexit⟩,
    hS.blocks⟩
  · have hi : i < 200 := hn ▸ hi
    have hty := hS.type i hi
    refine ⟨hinode i hi, ?_⟩
    unfold tDev at hty
    unfold tFile tDir tDev
    omega
  · have hi : i < 200 := hn ▸ hi
    have hfound : complain (i ≠ 0 ∧ i ≠ 1 ∧ ds.dirPointedInodes i < 1 ∧ (img.dinode i).type ≠ 0)
        .notFound = .ok () := complain_ok.2 fun h => by
      obtain ⟨h0, h1, hlt, hty⟩ := h
      have hpos := List.count_pos_iff.2 (hS.named i hi h0 h1 hty)
      have hzero : ds.dirPointedInodes i = 0 + (allNamings img).count i := hpointed i
      omega
    have hfiles : complain ((img.dinode i).type = tFile ∧ ds.fileBlockArr i ≠ (img.dinode i).nlink)
        .badReferenceCount = .ok () := complain_ok.2 fun h => by
      obtain ⟨hty, hne⟩ := h
      have hcounted : ds.fileBlockArr i = 0 +
          (overDirs img fun j d => slots img (stale j) d).countP (Slot.countsFile img i) :=
        checkDirs_files hds i
      obtain ⟨hstale, hindirect⟩ := staleLinks_of_noIndirect stale i hS.noIndirect
      rw [counted_eq hty, hstale] at hcounted
      have hlinks := hS.links i hi hty
      rw [linkCount_eq, hindirect] at hlinks
      rw [hcounted, hlinks, zero_add] at hne
      exact hne rfl
    have hdirs : complain ((img.dinode i).type = tDir ∧ (img.dinode i).nlink ≠ 1) .dirTwice =
        .ok () :=
      complain_ok.2 fun h => h.2 (hS.dirLinks i hi h.1)
    rw [checkReferences, getInode_ok.2 ⟨hinode i hi, rfl⟩, ok_bind, hfound, ok_bind, hfiles,
      ok_bind,
      hdirs]
  · rw [hS.superblock]
    decide
  · exact hS.sizes i (hn ▸ hi)

end Sound

end OsProjects.Fsck
