import Mathlib.Data.Nat.Bitwise
import OsProjects.Kernel.Model
import OsProjects.Mkfs.Image

/-!
# Who has which block

Every block in use belongs to one slot of one inode and is marked, and the blocks that are not
marked hold zeros (`Owns`).  `balloc` gives a block that has no owner (`balloc_spec`), `bfree` takes
one back (`bfree_spec`); what allocating some slots does to everything else is `Extended`.
-/

namespace OsProjects.Kernel

open Fsck Mkfs

variable {ino ino' ino'' : ℕ → Dinode} {img img' img'' : Image} {H S T : Set (ℕ × ℕ)} {U : Set ℕ}
  {i j b k x y o : ℕ} {p q : ℕ × ℕ} {d : Dinode} {ip : Inode}

/-! ### The bitmap -/

theorem toNat_mask (h : b < bpb) : (mask b).toNat = 2 ^ (b % 8) := by
  have hall : ∀ k < 8, (1 <<< UInt8.ofNat k : UInt8).toNat = 2 ^ k := by decide
  rw [mask, Nat.mod_eq_of_lt h]
  exact hall _ (Nat.mod_lt _ (by decide))

theorem bitByte_eq (h : b < bpb) : bitByte mkfsSuperblock b = bsize * bitmapBlock + b / 8 := by
  rw [bitByte, bblock, Nat.div_eq_of_lt h, Nat.mod_eq_of_lt h]
  rfl

theorem and_eq_zero_iff (m : UInt8) (k : ℕ) (n : UInt8) (hn : n.toNat = 2 ^ k) :
    m &&& n = 0 ↔ m.toNat.testBit k = false := by
  rw [← UInt8.toNat_inj, UInt8.toNat_and, hn, Nat.and_two_pow]
  cases m.toNat.testBit k
  · simp
  · simp

theorem isFree_eq (h : b < bpb) : isFree mkfsSuperblock img b = !img.marked b := by
  rw [isFree, bitByte_eq h, Image.marked]
  have hiff := and_eq_zero_iff (img (bsize * bitmapBlock + b / 8)) (b % 8) (mask b) (toNat_mask h)
  cases htest : (img (bsize * bitmapBlock + b / 8)).toNat.testBit (b % 8)
  · simpa [htest] using hiff
  · simpa [htest] using hiff

/-- The bit of block `b` is set. -/
def setMark (b : ℕ) (img : Image) : Image :=
  img.write (bitByte mkfsSuperblock b) [img (bitByte mkfsSuperblock b) ||| mask b]

/-- The bit of block `b` is cleared. -/
def clearMark (b : ℕ) (img : Image) : Image :=
  img.write (bitByte mkfsSuperblock b) [img (bitByte mkfsSuperblock b) &&& ~~~mask b]

theorem write_single_self (img : Image) (o : ℕ) (v : UInt8) : img.write o [v] o = v :=
  Bytes.write_inside (k := 0) Nat.one_pos

theorem write_single_ne {v : UInt8} (h : k ≠ o) : img.write o [v] k = img k := by
  rcases Nat.lt_or_gt_of_ne h with hlt | hlt
  · exact Bytes.write_of_lt hlt
  · exact Bytes.write_of_le hlt

theorem testBit_mask (hb : b < bpb) : (mask b).toNat.testBit j = decide (b % 8 = j) := by
  rw [toNat_mask hb, Nat.testBit_two_pow]

theorem testBit_not_mask (hb : b < bpb) (hj : j < 8) :
    (~~~mask b).toNat.testBit j = !decide (b % 8 = j) := by
  rw [UInt8.toNat_not, show UInt8.size - 1 - (mask b).toNat = 2 ^ 8 - ((mask b).toNat + 1) by
    have := (mask b).toNat_lt
    simp only [UInt8.size]
    omega, Nat.testBit_two_pow_sub_succ (mask b).toNat_lt, testBit_mask hb]
  simp [hj]

theorem marked_setMark (hb : b < bpb) :
    (setMark b img).marked y = (img.marked y || decide (y = b)) := by
  rw [Image.marked, Image.marked, setMark, bitByte_eq hb]
  rcases eq_or_ne (y / 8) (b / 8) with heq | hne
  · rw [heq, write_single_self, UInt8.toNat_or, Nat.testBit_or, testBit_mask hb]
    congr 1
    exact decide_eq_decide.2 (by omega)
  · have hy : decide (y = b) = false := decide_eq_false (by rintro rfl; exact hne rfl)
    rw [write_single_ne (by omega), hy, Bool.or_false]

theorem marked_clearMark (hb : b < bpb) :
    (clearMark b img).marked y = (img.marked y && !decide (y = b)) := by
  rw [Image.marked, Image.marked, clearMark, bitByte_eq hb]
  rcases eq_or_ne (y / 8) (b / 8) with heq | hne
  · rw [heq, write_single_self, UInt8.toNat_and, Nat.testBit_and,
      testBit_not_mask hb (Nat.mod_lt _ (by decide))]
    congr 2
    exact decide_eq_decide.2 (by omega)
  · have hy : decide (y = b) = false := decide_eq_false (by rintro rfl; exact hne rfl)
    rw [write_single_ne (by omega), hy, Bool.not_false, Bool.and_true]

theorem setMark_outside (hb : b < bpb) (ho : o < bsize * 28 ∨ bsize * 29 ≤ o) :
    setMark b img o = img o := by
  rw [setMark, bitByte_eq hb]
  have hb : b < 4096 := hb
  exact write_single_ne (by unfold bitmapBlock bsize at *; omega)

theorem clearMark_outside (hb : b < bpb) (ho : o < bsize * 28 ∨ bsize * 29 ≤ o) :
    clearMark b img o = img o := by
  rw [clearMark, bitByte_eq hb]
  have hb : b < 4096 := hb
  exact write_single_ne (by unfold bitmapBlock bsize at *; omega)

theorem marked_congr (h : ∀ o, bsize * 28 ≤ o → o < bsize * 29 → img' o = img o) (hb : b < bpb) :
    img'.marked b = img.marked b := by
  have hb : b < 4096 := hb
  rw [Image.marked, Image.marked,
    h _ (by unfold bitmapBlock; omega) (by unfold bitmapBlock bsize; omega)]

/-! ### The invariant -/

/-- The data blocks that are marked. -/
def marks (img : Image) : Set ℕ := {x | 29 ≤ x ∧ x < 1024 ∧ img.marked x = true}

/-- The slots `H` have the marked blocks, each its own, and the other blocks are zero. -/
structure Owns (ino : ℕ → Dinode) (img : Image) (H : Set (ℕ × ℕ)) : Prop where
  superblock : img.superblock = mkfsSuperblock
  owned : Set.BijOn (addr ino img) H (marks img)
  low : ∀ x < 29, img.marked x = true
  clear : ∀ x < 1024, img.marked x = false → ∀ r < bsize, img (bsize * x + r) = 0

/-- The slots in use of the inodes `U`. -/
def live (ino : ℕ → Dinode) (img : Image) (U : Set ℕ) : Set (ℕ × ℕ) :=
  {p | p.1 ∈ U ∧ p.2 ≤ maxfile ∧ addr ino img p ≠ 0}

namespace Owns

variable (hO : Owns ino img H)

include hO

theorem mem_marks (hp : p ∈ H) : 29 ≤ addr ino img p ∧ addr ino img p < 1024 ∧
    img.marked (addr ino img p) = true := hO.owned.mapsTo hp

theorem ne_zero (hp : p ∈ H) : addr ino img p ≠ 0 := by
  have := hO.mem_marks hp
  omega

theorem ne_addr (hx : img.marked x = false) (hp : p ∈ H) : addr ino img p ≠ x := by
  rintro rfl
  rw [(hO.mem_marks hp).2.2] at hx
  cases hx

theorem le_of_free (hx : img.marked x = false) : 29 ≤ x := by
  by_contra h
  rw [hO.low x (by omega)] at hx
  cases hx

/-- A free block goes to a slot. -/
theorem take (hx : x < 1024) (hfree : img.marked x = false)
    (hsb : img'.superblock = img.superblock)
    (hmark : ∀ y < 1024, img'.marked y = (img.marked y || decide (y = x)))
    (haddr : ∀ q ∈ H, addr ino' img' q = addr ino img q) (hnew : addr ino' img' p = x)
    (hsame : ∀ y < 1024, img.marked y = false → y ≠ x → Mkfs.SameBlock img img' y) :
    Owns ino' img' (insert p H) := by
  have hmarks : marks img' = insert x (marks img) := by
    ext y
    simp only [marks, Set.mem_ofPred_eq, Set.mem_insert_iff]
    constructor
    · rintro ⟨h29, hlt, hy⟩
      rw [hmark y hlt, Bool.or_eq_true, decide_eq_true_eq] at hy
      tauto
    · rintro (rfl | ⟨h29, hlt, hy⟩)
      · exact ⟨hO.le_of_free hfree, hx, by rw [hmark y hx]; simp⟩
      · exact ⟨h29, hlt, by rw [hmark y hlt, hy, Bool.true_or]⟩
  refine ⟨hsb.trans hO.superblock, ?_, fun y hy => ?_, fun y hy hmk r hr => ?_⟩
  · have hbij : Set.BijOn (addr ino' img') H (marks img) :=
      hO.owned.congr fun q hq => (haddr q hq).symm
    rw [hmarks, ← hnew]
    refine hbij.insert ?_
    rw [hnew]
    rintro ⟨-, -, hmk⟩
    rw [hfree] at hmk
    cases hmk
  · rw [hmark y (by omega), hO.low y hy, Bool.true_or]
  · rw [hmark y hy, Bool.or_eq_false_iff, decide_eq_false_iff_not] at hmk
    rw [hsame y hy hmk.1 hmk.2 r hr]
    exact hO.clear y hy hmk.1 r hr

/-- The block of a slot is given back. -/
theorem release (hp : p ∈ H) (hsb : img'.superblock = img.superblock)
    (hmark : ∀ y < 1024, img'.marked y = (img.marked y && !decide (y = addr ino img p)))
    (haddr : ∀ q ∈ H \ {p}, addr ino' img' q = addr ino img q)
    (hzero : ∀ r < bsize, img' (bsize * addr ino img p + r) = 0)
    (hsame : ∀ y < 1024, img.marked y = false → Mkfs.SameBlock img img' y) :
    Owns ino' img' (H \ {p}) := by
  have hmarks : marks img' = marks img \ {addr ino img p} := by
    ext y
    simp only [marks, Set.mem_ofPred_eq, Set.mem_sdiff, Set.mem_singleton_iff]
    constructor
    · rintro ⟨h29, hlt, hy⟩
      rw [hmark y hlt, Bool.and_eq_true, Bool.not_eq_true', decide_eq_false_iff_not] at hy
      exact ⟨⟨h29, hlt, hy.1⟩, hy.2⟩
    · rintro ⟨⟨h29, hlt, hy⟩, hne⟩
      exact ⟨h29, hlt, by rw [hmark y hlt, hy]; simpa using hne⟩
  have hrange := hO.mem_marks hp
  refine ⟨hsb.trans hO.superblock, ?_, fun y hy => ?_, fun y hy hmk r hr => ?_⟩
  · rw [hmarks]
    refine Set.BijOn.congr ?_ fun q hq => (haddr q hq).symm
    exact ⟨fun q hq => ⟨hO.owned.mapsTo hq.1, fun heq => hq.2 (hO.owned.injOn hq.1 hp heq)⟩,
      hO.owned.injOn.mono Set.sdiff_subset, fun y hy => by
        obtain ⟨q, hq, rfl⟩ := hO.owned.surjOn hy.1
        exact ⟨q, ⟨hq, fun heq => hy.2 (by rw [Set.mem_singleton_iff.1 heq]; rfl)⟩, rfl⟩⟩
  · rw [hmark y (by omega), hO.low y hy]
    simp only [Bool.true_and, Bool.not_eq_true', decide_eq_false_iff_not]
    omega
  · rcases eq_or_ne y (addr ino img p) with rfl | hne
    · exact hzero r hr
    · rw [hmark y hy, decide_eq_false hne, Bool.not_false, Bool.and_true] at hmk
      rw [hsame y hy hmk r hr]
      exact hO.clear y hy hmk r hr

/-- What does not touch the slots, the marks and the free blocks. -/
theorem congr (hsb : img'.superblock = img.superblock)
    (hmark : ∀ y < 1024, img'.marked y = img.marked y)
    (haddr : ∀ q ∈ H, addr ino' img' q = addr ino img q)
    (hsame : ∀ y < 1024, img.marked y = false → Mkfs.SameBlock img img' y) : Owns ino' img' H := by
  have hmarks : marks img' = marks img := by
    ext y
    simp only [marks, Set.mem_ofPred_eq]
    constructor
    · rintro ⟨h29, hlt, hy⟩
      exact ⟨h29, hlt, by rwa [← hmark y hlt]⟩
    · rintro ⟨h29, hlt, hy⟩
      exact ⟨h29, hlt, by rwa [hmark y hlt]⟩
  refine ⟨hsb.trans hO.superblock, ?_, fun y hy => ?_, fun y hy hmk r hr => ?_⟩
  · rw [hmarks]
    exact hO.owned.congr fun q hq => (haddr q hq).symm
  · rw [hmark y (by omega), hO.low y hy]
  · rw [hmark y hy] at hmk
    rw [hsame y hy hmk r hr]
    exact hO.clear y hy hmk r hr

/-! ### Counting -/

theorem ncard_marks : (marks img).ncard = H.ncard := hO.owned.ncard_eq.symm

omit hO in
theorem finite_marks : (marks img).Finite :=
  (Set.finite_Ico 29 1024).subset fun _ hx => ⟨hx.1, hx.2.1⟩

theorem finite : H.Finite := hO.owned.finite_iff_finite.2 finite_marks

theorem ncard_le : H.ncard ≤ 995 := by
  rw [← hO.ncard_marks]
  have hle : (marks img).ncard ≤ (Set.Ico 29 1024).ncard :=
    Set.ncard_le_ncard (fun _ hx => ⟨hx.1, hx.2.1⟩) (Set.finite_Ico 29 1024)
  rwa [← Finset.coe_Ico, Set.ncard_coe_finset, Nat.card_Ico] at hle

/-- Fewer than 995 slots leave a free block. -/
theorem exists_free (h : H.ncard < 995) : ∃ x < 1024, img.marked x = false := by
  by_contra hall
  push Not at hall
  have hmarks : marks img = Set.Ico 29 1024 := by
    ext x
    refine ⟨fun hx => ⟨hx.1, hx.2.1⟩, fun hx => ⟨hx.1, hx.2, ?_⟩⟩
    simpa using hall x hx.2
  rw [← hO.ncard_marks, hmarks, ← Finset.coe_Ico, Set.ncard_coe_finset, Nat.card_Ico] at h
  omega

end Owns

end OsProjects.Kernel
