import OsProjects.Fsck.Blocks
import OsProjects.Fsck.Files
import OsProjects.Mkfs.Image

/-!
# The blocks of the finished image

The address checks pass (`Finished.clean`), the files have the blocks that their sizes need
(`Finished.not_badSize`), and the blocks that are marked are those of the inodes
(`Finished.counted`).
-/

namespace OsProjects.Mkfs

open Fsck

variable {t : HostDir} {img : Image} {free i j b k : ℕ} {c : ℕ → List UInt8} {bs ns : List ℕ}

/-! ### Lists of addresses -/

theorem directAddrs_map_direct : directAddrs (ns.map .direct) = ns.filter (· ≠ 0) := by
  induction ns with
  | nil => rfl
  | cons n ns ih =>
    rw [List.map_cons, ← List.singleton_append, directAddrs_append, ih, directAddrs_direct]
    by_cases h : n = 0 <;> simp [h]

theorem indirectAddrs_map_entry : indirectAddrs (ns.map .entry) = ns.filter (· ≠ 0) := by
  induction ns with
  | nil => rfl
  | cons n ns ih =>
    rw [List.map_cons, ← List.singleton_append, indirectAddrs_append, ih, indirectAddrs_entry]
    by_cases h : n = 0 <;> simp [h]

theorem directAddrs_map_entry : directAddrs (ns.map .entry) = [] := by
  simp [directAddrs, List.filterMap_map]

theorem indirectAddrs_map_direct : indirectAddrs (ns.map .direct) = [] := by
  simp [indirectAddrs, List.filterMap_map]

/-- The slots of the indirect block and of its entries. -/
def entrySlots : List ℕ := maxfile :: (List.range nindirect).map (ndirect + ·)

theorem nodup_entrySlots : entrySlots.Nodup := by
  refine List.nodup_cons.2 ⟨fun h => ?_, List.nodup_range.map fun _ _ => Nat.add_left_cancel⟩
  obtain ⟨k, hk, heq⟩ := List.mem_map.1 h
  have hk := List.mem_range.1 hk
  unfold maxfile at heq
  omega

theorem mem_entrySlots : b ∈ entrySlots ↔ ndirect ≤ b ∧ b ≤ maxfile := by
  rw [entrySlots, List.mem_cons, List.mem_map]
  unfold maxfile
  constructor
  · rintro (rfl | ⟨k, hk, rfl⟩)
    · omega
    · have := List.mem_range.1 hk
      omega
  · rintro ⟨hle, hlt⟩
    rcases Nat.lt_or_eq_of_le hlt with hlt | rfl
    · exact .inr ⟨b - ndirect, List.mem_range.2 (by omega), by omega⟩
    · exact .inl rfl

/-- The blocks in some slots of inode `i`. -/
def owned (img : Image) (i : ℕ) (bs : List ℕ) : List ℕ :=
  (bs.map fun b => addr img.dinode img (i, b)).filter (· ≠ 0)

theorem mem_owned {a : ℕ} :
    a ∈ owned img i bs ↔ (∃ b ∈ bs, addr img.dinode img (i, b) = a) ∧ a ≠ 0 := by
  rw [owned, List.mem_filter, List.mem_map, decide_eq_true_eq]

theorem countP_range_lt (n m : ℕ) : (List.range n).countP (· < m) = min n m := by
  induction n with
  | zero => simp
  | succ n ih =>
    rw [List.range_succ, List.countP_append, ih, List.countP_singleton]
    split <;> rename_i h <;> simp only [decide_eq_true_eq] at h <;> omega

namespace Finished

variable (hF : Finished t img free c)

include hF

/-! ### The references of an inode -/

theorem mem_slots (hi : i < 2 + t.count) (hb : b ≤ maxfile) :
    (i, b) ∈ slotsOf (blocksOf c) (2 + t.count) ↔ addr img.dinode img (i, b) ≠ 0 :=
  hF.held.mem_iff hi hb

theorem addr_range (hi : i < 2 + t.count) (hb : b ≤ maxfile) (h0 : addr img.dinode img (i, b) ≠ 0) :
    29 ≤ addr img.dinode img (i, b) ∧ addr img.dinode img (i, b) < free :=
  hF.held.mem_Ico ((hF.mem_slots hi hb).2 h0)

theorem type_ne_zero (h1 : 1 ≤ i) (hi : i < 2 + t.count) : (img.dinode i).type ≠ 0 := by
  obtain ⟨content, hmem⟩ := HostDir.exists_content h1 hi
  rw [hF.type _ hmem]
  exact content.type_ne_zero

theorem entry_zero (k : ℕ) (hk : k < nindirect) : img.entry 0 k = 0 := by
  have hoff : blockOff 0 = 0 := by decide
  have hk : k < 128 := hk
  rw [Image.entry, hoff]
  exact Bytes.word_zero fun r hr => hF.bootBlock _ (by unfold bsize; omega)

/-- The words that the checker reads for the entries, those of block 0 if there is no indirect
block. -/
theorem entry_eq (hi : i < 2 + t.count) (hk : k < nindirect) :
    img.entry ((img.dinode i).addrs ndirect) k = addr img.dinode img (i, ndirect + k) := by
  have hle : ndirect ≤ ndirect + k := Nat.le_add_right _ _
  have hlt : ndirect + k < maxfile := by
    unfold maxfile
    omega
  rw [addr]
  by_cases h0 : (img.dinode i).addrs ndirect = 0
  · rw [h0, hF.entry_zero k hk, slot_entry_zero hle hlt h0]
  · have hle' := hF.free_le
    have hrange := (hF.held.indirect_lt hi h0).2
    have hoff : blockOff ((img.dinode i).addrs ndirect) = bsize * (img.dinode i).addrs ndirect := by
      unfold blockOff bsize
      omega
    rw [slot_entry hle hlt h0, Image.entry, hoff, Nat.add_sub_cancel_left]
    rfl

/-- The references of an inode are its slots. -/
theorem refs_eq (hi : i < 2 + t.count) : refs img (img.dinode i) =
    ((List.range ndirect).map fun b => addr img.dinode img (i, b)).map .direct ++
      .indirect (addr img.dinode img (i, maxfile)) ::
        ((List.range nindirect).map fun k => addr img.dinode img (i, ndirect + k)).map .entry := by
  have hdirect : (List.range ndirect).map (fun b => Ref.direct ((img.dinode i).addrs b)) =
      ((List.range ndirect).map fun b => addr img.dinode img (i, b)).map .direct := by
    rw [List.map_map]
    exact List.map_congr_left fun b hb =>
      congrArg Ref.direct (slot_direct (List.mem_range.1 hb)).symm
  have hentries : img.entries ((img.dinode i).addrs ndirect) =
      (List.range nindirect).map fun k => addr img.dinode img (i, ndirect + k) :=
    List.map_congr_left fun k hk => hF.entry_eq hi (List.mem_range.1 hk)
  have hindirect : (img.dinode i).addrs ndirect = addr img.dinode img (i, maxfile) :=
    slot_indirect.symm
  rw [refs, hdirect, hentries, hindirect]

theorem inodeRefs_eq (hlt : i < 200) : inodeRefs img (img.dinode i) =
    if 1 ≤ i ∧ i < 2 + t.count then refs img (img.dinode i) else [] := by
  rw [inodeRefs]
  split
  · rename_i h0
    rw [if_neg fun h => hF.type_ne_zero h.1 h.2 h0]
  · rename_i h0
    rw [if_pos]
    by_contra h
    exact h0 (hF.unused i hlt (by omega))

theorem directAddrs_inodeRefs (hlt : i < 200) : directAddrs (inodeRefs img (img.dinode i)) =
    if 1 ≤ i ∧ i < 2 + t.count then owned img i (List.range ndirect) else [] := by
  rw [hF.inodeRefs_eq hlt]
  split
  · rename_i h
    rw [hF.refs_eq h.2, directAddrs_append, directAddrs_map_direct, ← List.singleton_append,
      directAddrs_append, directAddrs_map_entry, directAddrs_indirect, List.append_nil,
      List.append_nil]
    rfl
  · rfl

theorem indirectAddrs_inodeRefs (hlt : i < 200) : indirectAddrs (inodeRefs img (img.dinode i)) =
    if 1 ≤ i ∧ i < 2 + t.count then owned img i entrySlots else [] := by
  rw [hF.inodeRefs_eq hlt]
  split
  · rename_i h
    rw [hF.refs_eq h.2, indirectAddrs_append, indirectAddrs_map_direct, ← List.singleton_append,
      indirectAddrs_append, indirectAddrs_map_entry, indirectAddrs_indirect, List.nil_append, owned,
      entrySlots, List.map_cons, List.map_map]
    by_cases h0 : addr img.dinode img (i, maxfile) = 0 <;> simp [h0, Function.comp_def]
  · rfl

/-! ### The address checks -/

/-- A block that is in use passes. -/
theorem refOk (hi : i < 2 + t.count) (hb : b ≤ maxfile) (h0 : addr img.dinode img (i, b) ≠ 0) :
    ¬OutOfRange img.superblock (addr img.dinode img (i, b)) ∧
      bitTest img (addr img.dinode img (i, b)) = true ∧
      addr img.dinode img (i, b) < img.superblock.size := by
  have hrange := hF.addr_range hi hb h0
  have hle := hF.free_le
  generalize addr img.dinode img (i, b) = a at hrange
  have hlower : usub mkfsSuperblock.size mkfsSuperblock.nblocks = 29 := by decide
  have hupper : usub mkfsSuperblock.size 1 = 1023 := by decide
  rw [hF.superblock, OutOfRange, hlower, hupper, bitTest_eq,
    hF.marked (a % 512) (by unfold bsize; omega), decide_eq_true_eq]
  refine ⟨by omega, (Nat.mod_le a 512).trans_lt hrange.2, ?_⟩
  show a < 1024
  omega

theorem nodup_owned (hi : i < 2 + t.count) (hbs : bs.Nodup) (hle : ∀ b ∈ bs, b ≤ maxfile) :
    (owned img i bs).Nodup := by
  rw [owned, List.filter_map]
  refine List.Nodup.map_on (fun b hb b' hb' heq => ?_) (hbs.filter _)
  simp only [List.mem_filter, Function.comp_apply, decide_eq_true_eq] at hb hb'
  have hpair := hF.held.owned.injOn ((hF.mem_slots hi (hle b hb.1)).2 hb.2)
    ((hF.mem_slots hi (hle b' hb'.1)).2 hb'.2) heq
  exact congrArg Prod.snd hpair

theorem disjoint_owned (hi : i < 2 + t.count) (hj : j < 2 + t.count) (hne : i ≠ j)
    (hle : ∀ b ∈ bs, b ≤ maxfile) : List.Disjoint (owned img i bs) (owned img j bs) := by
  intro a ha ha'
  obtain ⟨⟨b, hb, rfl⟩, h0⟩ := mem_owned.1 ha
  obtain ⟨⟨b', hb', heq⟩, -⟩ := mem_owned.1 ha'
  have hpair := hF.held.owned.injOn ((hF.mem_slots hi (hle b hb)).2 h0)
    ((hF.mem_slots hj (hle b' hb')).2 (heq ▸ h0)) heq.symm
  exact hne (congrArg Prod.fst hpair)

/-- No block is in two slots. -/
theorem nodup_all (hbs : bs.Nodup) (hle : ∀ b ∈ bs, b ≤ maxfile) :
    ((List.range 200).flatMap fun i =>
      if 1 ≤ i ∧ i < 2 + t.count then owned img i bs else []).Nodup := by
  refine List.nodup_flatMap.2 ⟨fun i _ => ?_, List.pairwise_lt_range.imp fun {i j} hlt => ?_⟩
  · split
    · rename_i h
      exact hF.nodup_owned h.2 hbs hle
    · exact List.nodup_nil
  · simp only [Function.onFun]
    split
    · split
      · rename_i hi hj
        exact hF.disjoint_owned hi.2 hj.2 (Nat.ne_of_lt hlt) hle
      · exact List.disjoint_nil_right _
    · exact List.disjoint_nil_left _

theorem ninodes : img.superblock.ninodes = 200 := by
  rw [hF.superblock]
  rfl

theorem directAddrs_allRefs : directAddrs (allRefs img.superblock img) =
    (List.range 200).flatMap fun i =>
      if 1 ≤ i ∧ i < 2 + t.count then owned img i (List.range ndirect) else [] := by
  rw [allRefs, inodesRefs, hF.ninodes, directAddrs, List.filterMap_flatMap]
  exact List.flatMap_congr fun i hi => hF.directAddrs_inodeRefs (List.mem_range.1 hi)

theorem indirectAddrs_allRefs : indirectAddrs (allRefs img.superblock img) =
    (List.range 200).flatMap fun i =>
      if 1 ≤ i ∧ i < 2 + t.count then owned img i entrySlots else [] := by
  rw [allRefs, inodesRefs, hF.ninodes, indirectAddrs, List.filterMap_flatMap]
  exact List.flatMap_congr fun i hi => hF.indirectAddrs_inodeRefs (List.mem_range.1 hi)

/-- **The address checks** pass. -/
theorem clean : Clean img.superblock img (allRefs img.superblock img) := by
  have hdirect : ∀ b ∈ List.range ndirect, b ≤ maxfile := fun b hb => by
    have := List.mem_range.1 hb
    unfold maxfile
    omega
  refine ⟨fun r hr => ?_, ?_, ?_⟩
  · obtain ⟨i, hi, hr⟩ := List.mem_flatMap.1 hr
    rw [hF.ninodes] at hi
    rw [hF.inodeRefs_eq (List.mem_range.1 hi)] at hr
    split at hr
    · rename_i hused
      rw [hF.refs_eq hused.2] at hr
      rcases List.mem_append.1 hr with hr | hr
      · obtain ⟨a, ha, rfl⟩ := List.mem_map.1 hr
        obtain ⟨b, hb, rfl⟩ := List.mem_map.1 ha
        exact hF.refOk hused.2 (hdirect b hb)
      rcases List.mem_cons.1 hr with rfl | hr
      · have hlt : addr img.dinode img (i, maxfile) < 1024 := by
          by_cases h0 : addr img.dinode img (i, maxfile) = 0
          · omega
          · have := (hF.addr_range hused.2 le_rfl h0).2
            have := hF.free_le
            omega
        exact ⟨fun h0 => (hF.refOk hused.2 le_rfl h0).2.2, block_inside hlt⟩
      · obtain ⟨a, ha, rfl⟩ := List.mem_map.1 hr
        obtain ⟨k, hk, rfl⟩ := List.mem_map.1 ha
        have hk := List.mem_range.1 hk
        exact hF.refOk hused.2 (by unfold maxfile; omega)
    · cases hr
  · rw [hF.directAddrs_allRefs]
    exact hF.nodup_all List.nodup_range hdirect
  · rw [hF.indirectAddrs_allRefs]
    exact hF.nodup_all nodup_entrySlots fun b hb => (mem_entrySlots.1 hb).2

/-! ### The counts -/

/-- Every block that is marked is counted. -/
theorem counted : countDbBitmap img.superblock img ≤ Fsck.counted img.superblock img := by
  rw [countDbBitmap_eq hF.superblock]
  have hsub : markedBlocks img ⊆ (directAddrs (allRefs img.superblock img) ++
      indirectAddrs (allRefs img.superblock img)).toFinset := by
    intro a ha
    obtain ⟨hrange, hmarked⟩ := Finset.mem_filter.1 ha
    rw [Finset.mem_Ico] at hrange
    rw [hF.marked a (by unfold bsize; omega), decide_eq_true_eq] at hmarked
    obtain ⟨⟨i, b⟩, hp, rfl⟩ := hF.held.owned.surjOn ⟨hrange.1, hmarked⟩
    obtain ⟨hi, hb⟩ := hF.held.slots _ hp
    have h0 : addr img.dinode img (i, b) ≠ 0 := (hF.mem_slots hi hb).1 hp
    have h1 : 1 ≤ i := by
      by_contra hlt
      obtain rfl : i = 0 := by omega
      have hnone : blocksOf c 0 = 0 := by
        rw [blocksOf, hF.nil]
        rfl
      have hcase := hp.2
      simp only [hnone] at hcase
      omega
    have hlt : i < 200 := hi.trans_le hF.count_le
    rw [List.mem_toFinset, List.mem_append, hF.directAddrs_allRefs, hF.indirectAddrs_allRefs]
    by_cases hd : b < ndirect
    · refine .inl (List.mem_flatMap.2 ⟨i, List.mem_range.2 hlt, ?_⟩)
      rw [if_pos ⟨h1, hi⟩]
      exact mem_owned.2 ⟨⟨b, List.mem_range.2 hd, rfl⟩, h0⟩
    · refine .inr (List.mem_flatMap.2 ⟨i, List.mem_range.2 hlt, ?_⟩)
      rw [if_pos ⟨h1, hi⟩]
      exact mem_owned.2 ⟨⟨b, mem_entrySlots.2 ⟨not_lt.1 hd, hb⟩, rfl⟩, h0⟩
  calc (markedBlocks img).card ≤ _ := Finset.card_le_card hsub
    _ ≤ _ := List.toFinset_card_le _
    _ = Fsck.counted img.superblock img := List.length_append

/-- An inode has as many blocks as its contents need. -/
theorem usedBlocks_eq (hi : i < 2 + t.count) (hle : dataBlocks (c i).length ≤ maxfile) :
    usedBlocks (refs img (img.dinode i)) = dataBlocks (c i).length := by
  have hslot : ∀ b < maxfile, addr img.dinode img (i, b) ≠ 0 ↔ b < dataBlocks (c i).length := by
    intro b hb
    rw [← hF.mem_slots hi hb.le]
    simp only [slotsOf, Set.mem_ofPred_eq, hi, true_and]
    exact or_iff_left fun h => absurd h.1 (Nat.ne_of_lt hb)
  have hsplit : maxfile = ndirect + nindirect := rfl
  rw [hF.refs_eq hi, usedBlocks, List.countP_append, List.countP_cons, List.map_map, List.map_map,
    List.countP_map, List.countP_map]
  have hdirect : (List.range ndirect).countP (fun b => decide (addr img.dinode img (i, b) ≠ 0)) =
      min ndirect (dataBlocks (c i).length) := by
    rw [← countP_range_lt]
    refine List.countP_congr fun b hb => ?_
    have := List.mem_range.1 hb
    rw [decide_eq_true_eq, decide_eq_true_eq]
    exact hslot b (by omega)
  have hentries : (List.range nindirect).countP
      (fun k => decide (addr img.dinode img (i, ndirect + k) ≠ 0)) =
      min nindirect (dataBlocks (c i).length - ndirect) := by
    rw [← countP_range_lt]
    refine List.countP_congr fun k hk => ?_
    have := List.mem_range.1 hk
    rw [decide_eq_true_eq, decide_eq_true_eq, hslot (ndirect + k) (by omega)]
    omega
  simp only [Function.comp_def, Bool.false_eq_true, if_false, Nat.add_zero]
  rw [hdirect, hentries]
  omega

theorem length_contents {e : ℕ × Content} (he : e ∈ t.inodes) : (c e.1).length = e.2.size := by
  rw [hF.bytes e he, Content.length_bytes]

/-- The sizes of the files are those of their blocks. -/
theorem not_badSize (ht : t.Fits) (hlt : i < 200) :
    ¬BadSize (img.dinode i) (usedBlocks (refs img (img.dinode i))) := by
  rintro ⟨hty, hsize, hbad⟩
  have hused : 1 ≤ i ∧ i < 2 + t.count := by
    by_contra h
    rw [hF.unused i hlt (by omega)] at hty
    cases hty
  obtain ⟨content, hmem⟩ := HostDir.exists_content hused.1 hused.2
  have hlen : (c i).length = content.size := hF.length_contents hmem
  have hle := (ht.dataBlocks_le hmem).1
  have hmaxfile : maxfile = 140 := by decide
  rw [← hlen, hmaxfile] at hle
  have hbytes : (img.dinode i).size = (c i).length :=
    hF.size _ hmem ((hF.type _ hmem).symm.trans hty)
  rw [hF.usedBlocks_eq hused.2 (by omega), hbytes] at hbad
  rw [hbytes] at hsize
  unfold dataBlocks usub bsize at *
  omega

end Finished

end OsProjects.Mkfs
