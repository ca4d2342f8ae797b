import OsProjects.Fsck.Exit

/-!
# What the address checks establish

Which blocks may be shared in an accepted image (`sharing_of_ok`), when the bitmap test is right
(`bitTest_exact_iff`), and which lost blocks the comparison of the two counts lets through
(`lost_blocks_iff`).

The blocks owned (`ownAllRefs`) are the direct addresses of the in-use inodes, their indirect
blocks, and the entries of these.  The blocks looked at (`allRefs`) are more: for an inode without
an indirect block the checker takes block 0 for one and its words for entries.  The bit it looks at
for block `b` is that of `b % 512`, and it marks direct addresses and indirect ones in separate
arrays.
-/

namespace OsProjects.Fsck

variable {img : Image} {stale : ℕ → ℕ → ℕ → Option Dinode} {a : Arrays}

/-- The references an inode has: entries only if there is an indirect block. -/
def ownRefs (img : Image) (d : Dinode) : List Ref :=
  if d.type = 0 then []
  else (List.range ndirect).map (fun j => .direct (d.addrs j)) ++
    if d.addrs ndirect = 0 then []
    else .indirect (d.addrs ndirect) :: (img.entries (d.addrs ndirect)).map .entry

/-- The references of all in-use inodes. -/
def ownAllRefs (img : Image) : List Ref :=
  (List.range img.superblock.ninodes).flatMap fun i => ownRefs img (img.dinode i)

theorem ownRefs_sublist (d : Dinode) : (ownRefs img d).Sublist (inodeRefs img d) := by
  unfold ownRefs inodeRefs refs
  split
  · exact .refl _
  · refine (List.Sublist.refl _).append ?_
    split
    · exact List.nil_sublist _
    · exact .refl _

/-- The checker looks at everything the inodes reference, in order. -/
theorem ownAllRefs_sublist : (ownAllRefs img).Sublist (allRefs img.superblock img) := by
  unfold ownAllRefs allRefs inodesRefs
  induction List.range img.superblock.ninodes with
  | nil => exact .refl _
  | cons i is ih => exact (ownRefs_sublist _).append ih

/-! ### Block sharing -/

/-- **Block sharing.**  In an accepted image no block is a direct address twice, and none is an
indirect block or an entry of one twice. -/
theorem sharing_of_ok (h : main a stale img = .ok ()) :
    (directAddrs (ownAllRefs img)).Nodup ∧ (indirectAddrs (ownAllRefs img)).Nodup := by
  obtain ⟨⟨ds, -, hclean, -⟩, -⟩ := main_ok_iff.1 h
  exact ⟨(ownAllRefs_sublist.filterMap _).nodup hclean.direct_nodup,
    (ownAllRefs_sublist.filterMap _).nodup hclean.indirect_nodup⟩

/-- Zeroed counter arrays. -/
def Arrays.zero : Arrays := ⟨fun _ => 0, fun _ => 0, fun _ => 0, fun _ => 0⟩

set_option maxRecDepth 20000

/-- The entries `"."` and `".."` of the root directory. -/
def rootDots : List UInt8 := direntBytes 1 [46] ++ direntBytes 1 [46, 46]

/-- An image with the root directory in block 29, which holds the files `a` and `b` in inodes 2
and 3. -/
def twoFiles (inode2 inode3 : List UInt8) (bitmap : List UInt8) : Image := .ofChunks
  [(29 * bsize, rootDots ++ direntBytes 2 [97] ++ direntBytes 3 [98]),
    (bsize * bitmapBlock + 3, bitmap),
    (2 * bsize + 192, inode3), (2 * bsize + 128, inode2),
    (2 * bsize + 64, dinodeBytes 1 1 512 [29, 0, 0, 0, 0, 0, 0, 0, 0, 0, 0, 0, 0]),
    (bsize, mkfsSuperblock.bytes)]

/-- Block 30 is the direct block of one file and the indirect block of the other. -/
def sharedImage : Image :=
  twoFiles (dinodeBytes 2 1 512 [30, 0, 0, 0, 0, 0, 0, 0, 0, 0, 0, 0, 0])
    (dinodeBytes 2 1 0 [0, 0, 0, 0, 0, 0, 0, 0, 0, 0, 0, 0, 30]) [0x60]

theorem sharedImage_ok : main .zero (fun _ _ _ => none) sharedImage = .ok () := by decide +kernel

/-- The accepted image of the shared block. -/
theorem sharing_of_ok_sharedImage : (directAddrs (ownAllRefs sharedImage)).Nodup ∧
    (indirectAddrs (ownAllRefs sharedImage)).Nodup := sharing_of_ok sharedImage_ok

/-- The two marker arrays do not see each other. -/
theorem not_unshared : ¬ ∀ (a : Arrays) (stale : ℕ → ℕ → ℕ → Option Dinode) (img : Image),
    img.superblock = mkfsSuperblock → main a stale img = .ok () →
      (directAddrs (ownAllRefs img) ++ indirectAddrs (ownAllRefs img)).Nodup := by
  intro h
  have hnd := h _ _ sharedImage (by decide) sharedImage_ok
  have hmem : 30 ∈ directAddrs (ownAllRefs sharedImage) ∧
      30 ∈ indirectAddrs (ownAllRefs sharedImage) := by decide
  exact (List.nodup_append'.1 hnd).2.2 hmem.1 hmem.2

/-! ### The bitmap test -/

/-- The blocks owned that the bitmap has to mark: the direct addresses and the entries of the in-use
inodes. -/
def dataAddrs (img : Image) : List ℕ := testedAddrs (ownAllRefs img)

/-- The bit tested for a block is that of its number modulo 512. -/
theorem bitTest_eq (b : ℕ) : bitTest img b = img.marked (b % 512) := by
  rw [bitTest, Image.bitmapBit_eq_marked (Nat.mod_lt _ (by omega))]
  congr 1
  simp only [bsize]
  omega

/-- The bitmap complaint is about a referenced block that is marked free, and an accepted image has
no such block. -/
def BitTestExact (a : Arrays) (stale : ℕ → ℕ → ℕ → Option Dinode) (img : Image) : Prop :=
  (main a stale img = .error (.exit .markedFree) → ∃ b ∈ dataAddrs img, img.marked b = false) ∧
  (main a stale img = .ok () → ∀ b ∈ dataAddrs img, img.marked b = true)

/-- **The bitmap test.**  For a run that ends in `exit(0)` or in the complaint, it is right exactly
if the bits that are looked at, those of `b % 512` for the addresses and the words of block 0 that
stand in for a missing indirect block, are all set if and only if the blocks are all marked. -/
theorem bitTest_exact_iff
    (h : main a stale img = .ok () ∨ main a stale img = .error (.exit .markedFree)) :
    BitTestExact a stale img ↔
      ((∀ b ∈ testedAddrs (allRefs img.superblock img), img.marked (b % 512) = true) ↔
        ∀ b ∈ dataAddrs img, img.marked b = true) := by
  rcases h with h | h
  · obtain ⟨⟨ds, -, hclean, -⟩, -⟩ := main_ok_iff.1 h
    have htested : ∀ b ∈ testedAddrs (allRefs img.superblock img), img.marked (b % 512) = true := by
      intro b hb
      rw [mem_testedAddrs] at hb
      obtain ⟨hb | hb, h0⟩ := hb
      · rw [← bitTest_eq]; exact (hclean.ok _ hb h0).2.1
      · rw [← bitTest_eq]; exact (hclean.ok _ hb h0).2.1
    rw [iff_true_left htested]
    simp [BitTestExact, h]
  · obtain ⟨b, hb, hbit⟩ := main_markedFree h
    rw [bitTest_eq] at hbit
    have htested : ¬∀ b ∈ testedAddrs (allRefs img.superblock img), img.marked (b % 512) = true :=
      fun hall => by simp [hall b hb] at hbit
    rw [iff_false_left htested]
    simp [BitTestExact, h]

/-- The only block of one file is block 541; its bit is clear, and that of block 29 is set. -/
def aliasedImage : Image :=
  twoFiles (dinodeBytes 2 1 512 [541, 0, 0, 0, 0, 0, 0, 0, 0, 0, 0, 0, 0])
    (dinodeBytes 2 1 0 [0, 0, 0, 0, 0, 0, 0, 0, 0, 0, 0, 0, 0]) [0x20]

theorem aliasedImage_ok : main .zero (fun _ _ _ => none) aliasedImage = .ok () := by decide +kernel

/-- An image is accepted whose block 541 is in use and marked free. -/
theorem not_bitTest_exact : ¬ ∀ (a : Arrays) (stale : ℕ → ℕ → ℕ → Option Dinode) (img : Image),
    img.superblock = mkfsSuperblock →
    (∀ r ∈ ownAllRefs img, r.addr = 0 ∨ 29 ≤ r.addr ∧ r.addr < 1024) →
      BitTestExact a stale img := by
  intro h
  have hexact := h .zero (fun _ _ _ => none) aliasedImage (by decide) (by decide)
  have hmem : 541 ∈ dataAddrs aliasedImage ∧ aliasedImage.marked 541 = false := by decide
  have := hexact.2 aliasedImage_ok 541 hmem.1
  simp [hmem.2] at this

/-- In that image the tested bits are all set and the referenced blocks are not all marked. -/
theorem bitTest_exact_iff_aliasedImage :
    ¬BitTestExact .zero (fun _ _ _ => none) aliasedImage := by
  rw [bitTest_exact_iff (.inl aliasedImage_ok)]
  decide

/-! ### Lost blocks -/

/-- The data blocks that are marked in the bitmap. -/
def markedBlocks (img : Image) : Finset ℕ :=
  (Finset.Ico 29 1024).filter fun b => img.marked b = true

/-- The blocks the inodes own: data blocks and indirect blocks. -/
def ownBlocks (img : Image) : List ℕ :=
  directAddrs (ownAllRefs img) ++ indirectAddrs (ownAllRefs img)

/-- The data blocks that are marked and that no inode owns. -/
def lostBlocks (img : Image) : Finset ℕ := (markedBlocks img).filter (· ∉ ownBlocks img)

/-- By how much `count_db_inode` exceeds the number of data blocks that are marked and owned. -/
def surplus (img : Image) : ℕ :=
  counted img.superblock img - ((markedBlocks img).filter (· ∈ ownBlocks img)).card

theorem countP_range (p : ℕ → Bool) (n : ℕ) :
    (List.range n).countP p = ((Finset.range n).filter fun i => p i = true).card := by
  induction n with
  | zero => rfl
  | succ n ih =>
    rw [List.range_succ, List.countP_append, ih, Finset.range_add_one, Finset.filter_insert]
    by_cases hp : p n = true <;> simp [hp]

theorem countDbBitmap_eq (hg : img.superblock = mkfsSuperblock) :
    countDbBitmap img.superblock img = (markedBlocks img).card := by
  have hset : markedBlocks img = (Finset.range (8 * bsize)).filter fun i =>
      (decide (1024 - 995 ≤ i ∧ i < 1024) && img.bitmapBit (i / 32) (i % 32)) = true := by
    ext b
    have hbit : img.bitmapBit (b / 32) (b % 32) = img.marked b := by
      rw [Image.bitmapBit_eq_marked (Nat.mod_lt _ (by omega)), Nat.div_add_mod]
    simp only [markedBlocks, Finset.mem_filter, Finset.mem_Ico, Finset.mem_range, hbit,
      Bool.and_eq_true, decide_eq_true_eq, bsize]
    exact ⟨fun ⟨hb, hm⟩ => ⟨by omega, ⟨by omega, hb.2⟩, hm⟩,
      fun ⟨_, hb, hm⟩ => ⟨⟨by omega, hb.2⟩, hm⟩⟩
  rw [hset, hg, countDbBitmap]
  exact countP_range _ _

theorem card_lostBlocks (img : Image) :
    ((markedBlocks img).filter (· ∈ ownBlocks img)).card + (lostBlocks img).card =
      (markedBlocks img).card :=
  Finset.card_filter_add_card_filter_not _

/-- Everything owned is counted. -/
theorem card_owned_le (img : Image) :
    ((markedBlocks img).filter (· ∈ ownBlocks img)).card ≤ counted img.superblock img := by
  have hsub : (markedBlocks img).filter (· ∈ ownBlocks img) ⊆ (ownBlocks img).toFinset :=
    fun b hb => List.mem_toFinset.2 (Finset.mem_filter.1 hb).2
  calc ((markedBlocks img).filter (· ∈ ownBlocks img)).card
      ≤ (ownBlocks img).toFinset.card := Finset.card_le_card hsub
    _ ≤ (ownBlocks img).length := List.toFinset_card_le _
    _ = (directAddrs (ownAllRefs img)).length + (indirectAddrs (ownAllRefs img)).length :=
      List.length_append
    _ ≤ counted img.superblock img :=
      Nat.add_le_add (ownAllRefs_sublist.filterMap _).length_le
        (ownAllRefs_sublist.filterMap _).length_le

/-- **Lost blocks.**  The comparison of the two counts finds the lost blocks exactly if there are
more of them than the count of the referenced blocks is too high. -/
theorem lost_blocks_iff (hg : img.superblock = mkfsSuperblock) :
    (main a stale img = .ok () → lostBlocks img = ∅) ↔
      (PassesOthers a stale img → lostBlocks img = ∅ ∨ surplus img < (lostBlocks img).card) := by
  have hsum := card_lostBlocks img
  have hle := card_owned_le img
  rw [main_ok_iff, countDbBitmap_eq hg, and_imp]
  refine imp_congr_right fun _ => ?_
  unfold surplus
  constructor
  · intro h
    rcases Nat.lt_or_ge (counted img.superblock img) (markedBlocks img).card with hlt | hge
    · exact .inr (by omega)
    · exact .inl (h hge)
  · rintro (h | h) hge
    · exact h
    · omega

/-- A file has an indirect block, block 30, which is not marked, and block 31 is marked and not
owned. -/
def lostImage : Image :=
  twoFiles (dinodeBytes 2 1 0 [0, 0, 0, 0, 0, 0, 0, 0, 0, 0, 0, 0, 30])
    (dinodeBytes 2 1 0 [0, 0, 0, 0, 0, 0, 0, 0, 0, 0, 0, 0, 0]) [0xa0]

theorem lostImage_ok : main .zero (fun _ _ _ => none) lostImage = .ok () := by decide +kernel

theorem lostImage_lost : 31 ∈ lostBlocks lostImage := by
  have h : lostImage.marked 31 = true ∧ 31 ∉ ownBlocks lostImage := by decide
  simpa [lostBlocks, markedBlocks] using h

/-- The unmarked indirect block is counted, and makes up for the lost block. -/
theorem not_no_lost_blocks : ¬ ∀ (a : Arrays) (stale : ℕ → ℕ → ℕ → Option Dinode) (img : Image),
    img.superblock = mkfsSuperblock → main a stale img = .ok () → lostBlocks img = ∅ := by
  intro h
  have hnone := h _ _ lostImage (by decide) lostImage_ok
  simpa [hnone] using lostImage_lost

/-- In that image one block is lost and the surplus is not smaller. -/
theorem lost_blocks_iff_lostImage :
    ¬(PassesOthers .zero (fun _ _ _ => none) lostImage →
      lostBlocks lostImage = ∅ ∨ surplus lostImage < (lostBlocks lostImage).card) := by
  rw [← lost_blocks_iff (by decide)]
  intro h
  simpa [h lostImage_ok] using lostImage_lost

end OsProjects.Fsck
