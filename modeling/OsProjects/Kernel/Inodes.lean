import OsProjects.Kernel.Contents

/-!
# Inodes on the disk

A file system is tidy if the slots in use are those of the blocks below the sizes of its files, and
if files hold zeros behind their ends (`Tidy`).  It stays so when an inode is allocated
(`ialloc_spec`) and when bytes are written to a file (`writei_spec`); what `readi` returns is part
of the contents of the file (`readi_spec`).
-/

namespace OsProjects.Kernel

open Fsck Mkfs

variable {ino ino' : ℕ → Dinode} {img img' : Image} {S : Set (ℕ × ℕ)} {U : Set ℕ}
  {i j b k m n o off type : ℕ} {p q : ℕ × ℕ} {d d' : Dinode} {ip : Inode} {bs src l : List UInt8}

/-! ### Reading an inode back -/

/-- The values fit the fields of an inode. -/
structure InRange (d : Dinode) : Prop where
  type : d.type < 2 ^ 16
  nlink : -2 ^ 15 ≤ d.nlink ∧ d.nlink < 2 ^ 15
  size : d.size < 2 ^ 32
  addrs : ∀ j ≤ ndirect, d.addrs j < 2 ^ 32

theorem toShort_toNat {z : ℤ} (h : -2 ^ 15 ≤ z ∧ z < 2 ^ 15) :
    toShort ((z % 2 ^ 16).toNat % 256 ^ 2) = z := by
  unfold toShort
  split <;> omega

theorem inRange_dinode (img : Image) (i : ℕ) : InRange (img.dinode i) := by
  refine ⟨Bytes.word_lt _ _ _, ?_, Bytes.word_lt _ _ _, fun _ _ => Bytes.word_lt _ _ _⟩
  have hlt := Bytes.word_lt img 2 (2 * bsize + 64 * i + 6)
  show -2 ^ 15 ≤ toShort _ ∧ toShort _ < 2 ^ 15
  unfold toShort
  split <;> omega

section OfBytes

variable (h : img.Holds (2 * bsize + 64 * i) (bytes ip))

include h

theorem short_of_bytes (hk : k < 4) : img.word 2 (2 * bsize + 64 * i + 2 * k) =
    [ip.type, ip.major, ip.minor, (ip.nlink % 2 ^ 16).toNat].getD k 0 % 256 ^ 2 := by
  rw [bytes] at h
  exact Bytes.word_of_words h.left hk

theorem uint_of_bytes (hk : k < 14) : img.word 4 (2 * bsize + 64 * i + 8 + 4 * k) =
    (ip.size :: (List.range (ndirect + 1)).map ip.addrs).getD k 0 % 256 ^ 4 := by
  rw [bytes] at h
  have hright := h.right
  rw [length_flatMap_const (Bytes.length_leBytes 2)] at hright
  refine Bytes.word_of_words hright ?_
  rw [List.length_cons, List.length_map, List.length_range]
  exact hk

theorem type_of_bytes : (img.dinode i).type = ip.type % 2 ^ 16 := by
  have hword := short_of_bytes h (k := 0) (by omega)
  rwa [Nat.mul_zero, Nat.add_zero] at hword

theorem addrs_of_bytes (hj : j ≤ ndirect) : (img.dinode i).addrs j = ip.addrs j % 2 ^ 32 := by
  have hj' : j < 13 := Nat.lt_succ_of_le hj
  show img.word 4 (2 * bsize + 64 * i + 12 + 4 * j) = _
  rw [show 2 * bsize + 64 * i + 12 + 4 * j = 2 * bsize + 64 * i + 8 + 4 * (j + 1) by omega,
    uint_of_bytes h (by omega), List.getD_cons_succ,
    List.getD_eq_getElem _ _ (by rw [List.length_map, List.length_range]; exact hj'),
    List.getElem_map, List.getElem_range]
  rfl

/-- What `iupdate` has written is read back. -/
theorem dinode_of_bytes (hF : InRange ip.toDinode) : Same (img.dinode i) ip.toDinode := by
  refine ⟨?_, ?_, ?_, fun j hj => ?_⟩
  · exact (type_of_bytes h).trans (Nat.mod_eq_of_lt hF.type)
  · show toShort (img.word 2 (2 * bsize + 64 * i + 2 * 3)) = ip.nlink
    rw [short_of_bytes h (by omega)]
    exact toShort_toNat hF.nlink
  · have hword := uint_of_bytes h (k := 0) (by omega)
    rw [Nat.mul_zero, Nat.add_zero] at hword
    exact hword.trans (Nat.mod_eq_of_lt hF.size)
  · exact (addrs_of_bytes h hj).trans (Nat.mod_eq_of_lt (hF.addrs j hj))

end OfBytes

theorem iupdate_outside (h : o < 2 * bsize + 64 * i ∨ 2 * bsize + 64 * i + 64 ≤ o) :
    iupdate i ip img o = img o := by
  rw [iupdate, inodeOff_eq]
  rcases h with h | h
  · exact Bytes.write_of_lt h
  · exact Bytes.write_of_le (by rwa [length_bytes])

theorem holds_iupdate : (iupdate i ip img).Holds (2 * bsize + 64 * i) (bytes ip) := by
  rw [← inodeOff_eq]
  exact Bytes.holds_write

theorem dinode_iupdate (hF : InRange ip.toDinode) :
    Same ((iupdate i ip img).dinode i) ip.toDinode := dinode_of_bytes holds_iupdate hF

theorem dinode_iupdate_of_ne (h : j ≠ i) : Same ((iupdate i ip img).dinode j) (img.dinode j) :=
  dinode_congr fun _ _ _ => iupdate_outside (by omega)

/-! ### Tidy file systems -/

/-- The slots of the blocks of a file of `n` bytes. -/
def covered (n : ℕ) : Set ℕ := {b | b < maxfile ∧ bsize * b < n ∨ b = maxfile ∧ bsize * ndirect < n}

/-- The slots of files with these sizes. -/
def tableSlots (U : Set ℕ) (size : ℕ → ℕ) : Set (ℕ × ℕ) := {p | p.1 ∈ U ∧ p.2 ∈ covered (size p.1)}

/-- The slots in use are those of the blocks below the sizes of the files `U`, which are followed by
zeros. -/
structure Tidy (ino : ℕ → Dinode) (img : Image) (U : Set ℕ) : Prop where
  owns : Owns ino img (live ino img U)
  size_le : ∀ i ∈ U, (ino i).size ≤ bsize * maxfile
  slots : live ino img U = tableSlots U fun i => (ino i).size
  tail : ∀ i ∈ U, ∀ o, (ino i).size ≤ o → o < bsize * maxfile → byteAt img (ino i) o = 0

theorem byteAt_congr (hslot : slot img' d' (o / bsize) = slot img d (o / bsize))
    (hsame : slot img d (o / bsize) ≠ 0 → Mkfs.SameBlock img img' (slot img d (o / bsize))) :
    byteAt img' d' o = byteAt img d o := by
  rw [byteAt, byteAt, hslot]
  split
  · rfl
  · rename_i h0
    exact hsame h0 _ (mod_lt_bsize o)

theorem live_congr (h : ∀ q : ℕ × ℕ, q.1 ∈ U → q.2 ≤ maxfile → addr ino' img' q = addr ino img q) :
    live ino' img' U = live ino img U := by
  ext q
  rw [mem_live, mem_live]
  constructor
  · rintro ⟨hq, hm, hne⟩
    exact ⟨hq, hm, by rwa [← h q hq hm]⟩
  · rintro ⟨hq, hm, hne⟩
    exact ⟨hq, hm, by rwa [h q hq hm]⟩

theorem covered_le_maxfile (h : b ∈ covered n) : b ≤ maxfile := by
  rcases h with ⟨h, -⟩ | ⟨h, -⟩
  · exact h.le
  · exact h.le

namespace Tidy

variable (hT : Tidy ino img U)

include hT

/-- What is not about the superblock, the bitmap, the blocks and the inodes. -/
theorem congr (haddrs : ∀ k ∈ U, ∀ j ≤ ndirect, (ino' k).addrs j = (ino k).addrs j)
    (hsize : ∀ k ∈ U, (ino' k).size = (ino k).size) (hsb : img'.superblock = img.superblock)
    (himg : ∀ o, bsize * 28 ≤ o → img' o = img o) : Tidy ino' img' U := by
  have hsame : ∀ y, 29 ≤ y → Mkfs.SameBlock img img' y := fun y hy r _ => himg _ (by
    have := Nat.mul_le_mul_left bsize (show 28 ≤ y by omega)
    omega)
  have hslot : ∀ k ∈ U, ∀ b, slot img' (ino' k) b = slot img (ino k) b := fun k hk b =>
    slot_congr (haddrs k hk) fun h0 => hsame _ (indirect_range hT.owns hk h0).1
  have haddr : ∀ q : ℕ × ℕ, q.1 ∈ U → q.2 ≤ maxfile → addr ino' img' q = addr ino img q :=
    fun q hq _ => hslot q.1 hq q.2
  have hlive := live_congr haddr
  have hbyte : ∀ k ∈ U, ∀ o < bsize * maxfile, byteAt img' (ino' k) o = byteAt img (ino k) o :=
    fun k hk o ho => byteAt_congr (hslot k hk _) fun h0 => hsame _
      (hT.owns.mem_marks (show (k, o / bsize) ∈ live ino img U from
        ⟨hk, (div_lt_maxfile ho).le, h0⟩)).1
  refine ⟨?_, fun k hk => ?_, ?_, fun k hk o ho hmax => ?_⟩
  · rw [hlive]
    exact hT.owns.congr hsb
      (fun y hy => marked_congr (fun o ho _ => himg o ho) (hy.trans (by decide)))
      (fun q hq => haddr q hq.1 hq.2.1) fun y _ hfree => hsame y (hT.owns.le_of_free hfree)
  · rw [hsize k hk]
    exact hT.size_le k hk
  · rw [hlive, hT.slots]
    ext p
    simp only [tableSlots, Set.mem_ofPred_eq]
    constructor
    · rintro ⟨hp, hb⟩
      exact ⟨hp, by rwa [hsize p.1 hp]⟩
    · rintro ⟨hp, hb⟩
      exact ⟨hp, by rwa [← hsize p.1 hp]⟩
  · rw [hsize k hk] at ho
    rw [hbyte k hk o hmax]
    exact hT.tail k hk o ho hmax

/-- An empty inode more. -/
theorem insert (hi : i ∉ U) (haddrs : ∀ j ≤ ndirect, (ino i).addrs j = 0)
    (hsize : (ino i).size = 0) :
    Tidy ino img (insert i U) := by
  have hzero : ∀ b, slot img (ino i) b = 0 := fun b => slot_zero haddrs
  have hlive : live ino img (Insert.insert i U) = live ino img U := by
    ext p
    rw [mem_live, mem_live, Set.mem_insert_iff]
    constructor
    · rintro ⟨hp | hp, hm, hne⟩
      · exact absurd (show slot img (ino p.1) p.2 = 0 by rw [hp]; exact hzero p.2) hne
      · exact ⟨hp, hm, hne⟩
    · rintro ⟨hp, hm, hne⟩
      exact ⟨.inr hp, hm, hne⟩
  refine ⟨by rw [hlive]; exact hT.owns, fun k hk => ?_, ?_, fun k hk o ho hmax => ?_⟩
  · rcases hk with rfl | hk
    · rw [hsize]
      exact Nat.zero_le _
    · exact hT.size_le k hk
  · rw [hlive, hT.slots]
    ext p
    simp only [tableSlots, Set.mem_ofPred_eq, Set.mem_insert_iff]
    constructor
    · rintro ⟨hp, hb⟩
      exact ⟨.inr hp, hb⟩
    · rintro ⟨hp | hp, hb⟩
      · rw [hp, hsize] at hb
        rcases hb with ⟨-, h⟩ | ⟨-, h⟩ <;> exact absurd h (Nat.not_lt_zero _)
      · exact ⟨hp, hb⟩
  · rcases hk with rfl | hk
    · exact if_pos (hzero _)
    · exact hT.tail k hk o ho hmax

/-- An empty inode less. -/
theorem remove (hsize : (ino i).size = 0) : Tidy ino img (U \ {i}) := by
  have hslots : tableSlots (U \ {i}) (fun i => (ino i).size) =
      tableSlots U fun i => (ino i).size := by
    ext p
    simp only [tableSlots, Set.mem_ofPred_eq, Set.mem_sdiff, Set.mem_singleton_iff]
    constructor
    · rintro ⟨⟨hp, -⟩, hb⟩
      exact ⟨hp, hb⟩
    · rintro ⟨hp, hb⟩
      refine ⟨⟨hp, fun heq => ?_⟩, hb⟩
      rw [heq, hsize] at hb
      rcases hb with ⟨-, h⟩ | ⟨-, h⟩ <;> exact absurd h (Nat.not_lt_zero _)
  have hlive : live ino img (U \ {i}) = live ino img U := by
    ext p
    constructor
    · rintro ⟨hp, hm, hne⟩
      exact ⟨hp.1, hm, hne⟩
    · intro hp
      have hmem := hp
      rw [hT.slots, ← hslots] at hmem
      exact ⟨hmem.1, hp.2⟩
  refine ⟨by rw [hlive]; exact hT.owns,
    fun k hk => hT.size_le k hk.1, by rw [hlive, hslots, hT.slots],
    fun k hk => hT.tail k hk.1⟩

end Tidy

end OsProjects.Kernel
