import OsProjects.Mkfs.Build

/-!
# The finished image

`main` on a host directory that fits (`HostDir.Fits`): no `assert` fails, and the image holds the
inodes of `HostDir.inodes`, with the bits of the blocks in use in the bitmap (`main_spec`).
-/

namespace OsProjects.Mkfs

open Fsck

variable {s : Fs} {c : ℕ → List UInt8} {t : HostDir} {used b i j o : ℕ}

/-! ### Before the root directory -/

theorem fresh_img_zero (h : o < bsize ∨ bsize + 12 ≤ o) : fresh.img o = 0 := by
  show Bytes.write (fun _ => 0) bsize mkfsSuperblock.bytes o = 0
  rcases h with h | h
  · exact Bytes.write_of_lt h
  · refine Bytes.write_of_le ?_
    rw [Superblock.bytes, length_flatMap_const (Bytes.length_leBytes 4)]
    exact h

theorem superblock_fresh : fresh.img.superblock = mkfsSuperblock := by
  have h : fresh.img.Holds bsize ([1024, 995, 200].flatMap (Bytes.leBytes 4)) := Bytes.holds_write
  have hword : ∀ k (hk : k < 3), fresh.img.word 4 (bsize + 4 * k) = _ := fun k hk =>
    Bytes.word_of_words h hk
  exact congrArg₂ (fun x (y : ℕ × ℕ) => Superblock.mk x y.1 y.2) (hword 0 (by omega))
    (congrArg₂ Prod.mk (hword 1 (by omega)) (hword 2 (by omega)))

theorem superblock_congr {img img' : Image} (h : ∀ o < 2 * bsize, img' o = img o) :
    img'.superblock = img.superblock := by
  have hword : ∀ k < 9, img'.word 4 (bsize + k) = img.word 4 (bsize + k) := fun k hk =>
    Bytes.word_congr fun r hr => h _ (by unfold bsize; omega)
  rw [Image.superblock, Image.superblock, hword 4 (by omega), hword 8 (by omega),
    show img'.word 4 bsize = img.word 4 bsize from hword 0 (by omega)]

theorem dinode_fresh (i : ℕ) :
    (fresh.img.dinode i).type = 0 ∧ ∀ j ≤ ndirect, (fresh.img.dinode i).addrs j = 0 := by
  have hword : ∀ w k, fresh.img.word w (2 * bsize + 64 * i + k) = 0 := fun w k =>
    Bytes.word_zero fun r _ => fresh_img_zero (.inr (by unfold bsize; omega))
  refine ⟨hword 2 0, fun j _ => ?_⟩
  have hzero := hword 4 (12 + 4 * j)
  rwa [← Nat.add_assoc] at hzero

/-- The empty image. -/
theorem stored_fresh : Stored fresh fun _ => [] := by
  have hnone : slotsOf (blocksOf fun _ => []) 1 = ∅ := by
    ext ⟨j, b⟩
    simp [slotsOf, blocksOf, dataBlocks, bsize, ndirect]
  refine ⟨?_, by decide, le_rfl, rfl, fun _ _ => rfl, fun i _ _ => (dinode_fresh i).1,
    fun i hi h0 => ?_, fun _ _ => rfl⟩
  · show Held fresh.img.dinode fresh.img 29 (slotsOf (blocksOf fun _ => []) 1) (fun _ => []) 1
    rw [hnone]
    refine ⟨fun p hp => absurd hp (Set.notMem_empty p),
      fun p _ _ _ => slot_zero (dinode_fresh p.1).2,
      ?_, fun p hp => absurd hp (Set.notMem_empty p), fun o ho => fresh_img_zero (.inr ?_)⟩
    · rw [Set.Ico_self]
      exact Set.bijOn_empty _
    · unfold bsize at *
      omega
  · have hi : i < 1 := hi
    omega

/-! ### The bitmap -/

/-- The byte that `balloc` puts into the byte of a block. -/
theorem testBit_one_shiftLeft {k j : ℕ} (hk : k < 8) (hj : j < 8) :
    (1 <<< UInt8.ofNat k : UInt8).toNat.testBit j = decide (j = k) := by
  have hall : ∀ k < 8, ∀ j < 8, (1 <<< UInt8.ofNat k : UInt8).toNat.testBit j = decide (j = k) := by
    decide
  exact hall k hk j hj

/-- The bits of the first blocks. -/
theorem testBit_bitmap (b : ℕ) :
    (bitmap used (b / 8)).toNat.testBit (b % 8) = decide (b < used) := by
  induction used with
  | zero => simp [bitmap]
  | succ used ih =>
    have hstep : bitmap (used + 1) = Function.update (bitmap used) (used / 8)
        (bitmap used (used / 8) ||| 1 <<< UInt8.ofNat (used % 8)) := by
      rw [bitmap, List.range_succ, List.foldl_append]
      rfl
    rw [hstep]
    rcases eq_or_ne (b / 8) (used / 8) with heq | hne
    · rw [heq, Function.update_self, UInt8.toNat_or, Nat.testBit_or, ← heq, ih,
        testBit_one_shiftLeft (Nat.mod_lt _ (by omega)) (Nat.mod_lt _ (by omega)), ← Bool.decide_or]
      exact decide_eq_decide.2 (by omega)
    · rw [Function.update_of_ne hne, ih]
      exact decide_eq_decide.2 (by omega)

/-- `balloc` marks the blocks in use, and the rest of the image stays. -/
theorem balloc_spec (s : Fs) (hle : used ≤ 1024) : ∃ s', balloc used s = some s' ∧
    s'.freeblock = s.freeblock ∧ (∀ o, o < bsize * 28 ∨ bsize * 29 ≤ o → s'.img o = s.img o) ∧
    ∀ b < bsize * 8, s'.img.marked b = decide (b < used) := by
  have hlen : ((List.range bsize).map (bitmap used)).length = bsize := by
    rw [List.length_map, List.length_range]
  refine ⟨_, if_pos (by unfold bsize; omega), rfl, fun o ho => ?_, fun b hb => ?_⟩
  · rcases ho with ho | ho
    · exact Bytes.write_of_lt ho
    · exact Bytes.write_of_le (by rw [hlen]; exact ho)
  · have hdiv : b / 8 < bsize := by omega
    have hbyte : (s.img.write (bsize * bitmapBlock) ((List.range bsize).map (bitmap used)))
        (bsize * bitmapBlock + b / 8) = bitmap used (b / 8) := by
      rw [Bytes.write_inside (by rwa [hlen]), List.getD_eq_getElem _ _ (by rwa [hlen]),
        List.getElem_map, List.getElem_range]
    rw [← testBit_bitmap, ← hbyte]
    rfl

/-! ### The program -/

/-- An image with the inodes of `t`: what they hold is in the blocks from 29 to `free`, and these
blocks and those before them are marked. -/
structure Finished (t : HostDir) (img : Image) (free : ℕ) (c : ℕ → List UInt8) : Prop where
  superblock : img.superblock = mkfsSuperblock
  bootBlock : ∀ o < bsize, img o = 0
  held : Held img.dinode img free (slotsOf (blocksOf c) (2 + t.count)) c (2 + t.count)
  free_le : free ≤ 1024
  count_le : 2 + t.count ≤ 200
  marked : ∀ b < bsize * 8, img.marked b = decide (b < free)
  unused : ∀ i < 200, i = 0 ∨ 2 + t.count ≤ i → (img.dinode i).type = 0
  nlink : ∀ i < 2 + t.count, i ≠ 0 → (img.dinode i).nlink = 1
  nil : c 0 = []
  bytes : ∀ e ∈ t.inodes, c e.1 = e.2.bytes e.1
  type : ∀ e ∈ t.inodes, (img.dinode e.1).type = e.2.type
  size : ∀ e ∈ t.inodes, e.2.type = tFile → (img.dinode e.1).size = (c e.1).length

/-- **The image of a host directory** that fits. -/
theorem main_spec (ht : t.Fits) : ∃ s c, main t = some s ∧ Finished t s.img s.freeblock c := by
  have hinodes := ht.inodes
  have hblocks := ht.blocks
  rw [HostDir.inodes, tableCost_cons, Content.size] at hblocks
  have hlinks := t.length_links_le 2
  have hmono := cost_mono (show 32 ≤ 32 + 16 * (t.links 2).length by omega)
  have hN : fresh.freeinode = 1 := rfl
  have hfree : fresh.freeblock = 29 := rfl
  have hsub : ∀ s₁ c₁, Open s₁ c₁ 1 → s₁.freeinode = 2 → s₁.freeblock = 29 + cost 32 →
      c₁ 1 = dotBytes 1 1 → ∃ s₂ c₂, addEntries t 1 s₁ = some s₂ ∧ Built t 1 s₁ c₁ s₂ c₂ := by
    intro s₁ c₁ ho₁ hfi₁ hfb₁ hc₁
    have hmaxfile : bsize * maxfile = 71680 := by decide
    refine addEntries_step t ho₁ ⟨by omega, ht.files, ?_, ?_⟩
    · rw [hc₁, length_dotBytes]
      omega
    · rw [hfi₁, hfb₁, hc₁, length_dotBytes]
      unfold grow
      omega
  obtain ⟨s, c, hdir, ⟨hst, hkeeps, hhas, hfb, hfi⟩⟩ := addDir_step 1 stored_fresh (by decide)
    (by rw [hfree]; omega) t hsub (by omega)
  replace hfb :
    s.freeblock = 29 + (cost (32 + 16 * (t.links 2).length) + tableCost (t.table 1 2)) :=
    hfb
  replace hfi : s.freeinode = 2 + t.count := hfi
  have hlt : 2 + t.count ≤ 200 := hfi ▸ hst.inodes.2
  obtain ⟨s', hballoc, hfb', hsame, hmarked⟩ :=
    balloc_spec s (show s.usedblocks ≤ 1024 by rw [hst.used]; omega)
  have hinode : ∀ i < 200, Same (s'.img.dinode i) (s.img.dinode i) := fun i hi =>
    dinode_congr fun o _ ho => hsame o (.inl (by unfold bsize at *; omega))
  have hlow : ∀ o < 2 * bsize, s'.img o = fresh.img o := fun o ho =>
    (hsame o (.inl (by unfold bsize at *; omega))).trans (hst.low o ho)
  have hmem : ∀ e ∈ t.inodes, e.1 < 200 := fun e he => by
    have := (hhas e he).lt
    omega
  rw [hst.used] at hmarked
  have hheld := hst.stores
  rw [Stores, hfi] at hheld
  refine ⟨s', c, ?_, ?_⟩
  · rw [main, mkfs_eq, Option.bind_eq_bind, Option.bind_some, ialloc_eq (by decide),
      Option.bind_eq_bind, Option.bind_some]
    show (addDir t 1 1 (newInode tDir fresh) >>= fun s => balloc s.usedblocks s) = some s'
    rw [show addDir t 1 1 (newInode tDir fresh) = some s from hdir, Option.bind_eq_bind,
      Option.bind_some, hballoc]
  · rw [hfb']
    refine ⟨(superblock_congr hlow).trans superblock_fresh, fun o ho => ?_,
      hheld.congr (fun i hi => (hinode i (hi.trans_le hlt)).addrs) (fun o ho => hsame o (.inr ho))
        hst.blocks, by omega, hlt, hmarked, fun i hi h => ?_, fun i hi h0 => ?_,
      (hkeeps 0 Nat.one_pos).1, fun e he => (hhas e he).bytes, fun e he => ?_, fun e he hf => ?_⟩
    · rw [hlow o (by omega)]
      exact fresh_img_zero (.inl ho)
    · rw [(hinode i hi).type]
      exact hst.free i hi (by rwa [hfi])
    · rw [(hinode i (hi.trans_le hlt)).nlink]
      exact hst.nlink i (by rwa [hfi]) h0
    · exact (hinode e.1 (hmem e he)).type.trans (hhas e he).type
    · exact (hinode e.1 (hmem e he)).size.trans ((hhas e he).size hf)

end OsProjects.Mkfs
