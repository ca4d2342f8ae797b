import OsProjects.Kernel.Store

/-!
# Room on the disk

A write leaves a tidy image only if all files together, as large as they are then, fit into the 995
data blocks (`writei_not_wf`).  The bitmap has more bits than the disk has blocks, and when no block
is free `balloc` returns a number behind the end of the disk (`Full.balloc`).  The write goes on
with it, and it stays in the inode or in the indirect block (`writeLoop_beyond`).
-/

namespace OsProjects.Kernel

open Fsck Mkfs

variable {ino : ℕ → Dinode} {img img' : Image} {H : Set (ℕ × ℕ)} {U : Set ℕ}
  {i j b k n x off : ℕ} {ip ip' : Inode} {src : List UInt8}

/-! ### Counting slots -/

theorem ncard_covered (h : n ≤ bsize * maxfile) : (covered n).ncard = cost n := by
  have hblocks : dataBlocks n ≤ maxfile := by
    unfold dataBlocks maxfile ndirect nindirect bsize at *
    omega
  have hdirect : ({b | b < maxfile ∧ bsize * b < n} : Set ℕ) = Set.Iio (dataBlocks n) := by
    ext b
    simp only [Set.mem_ofPred_eq, Set.mem_Iio]
    unfold dataBlocks maxfile ndirect nindirect bsize at *
    omega
  have hcard : (Set.Iio (dataBlocks n)).ncard = dataBlocks n := by
    rw [← Finset.coe_Iio, Set.ncard_coe_finset, Nat.card_Iio]
  have hind : bsize * ndirect < n ↔ ndirect < dataBlocks n := by
    unfold dataBlocks ndirect bsize
    omega
  rw [cost, slotCount]
  split
  · rename_i hlt
    have hset : covered n = insert maxfile (Set.Iio (dataBlocks n)) := by
      rw [← hdirect]
      ext b
      simp only [covered, Set.mem_ofPred_eq, Set.mem_insert_iff]
      have := hind.2 hlt
      omega
    rw [hset, Set.ncard_insert_of_notMem (fun h => absurd (Set.mem_Iio.1 h) (not_lt.2 hblocks))
      (Set.finite_Iio _), hcard]
  · rename_i hle
    have hset : covered n = Set.Iio (dataBlocks n) := by
      rw [← hdirect]
      ext b
      simp only [covered, Set.mem_ofPred_eq]
      have := mt hind.1 hle
      omega
    rw [hset, hcard]

/-- The blocks that files of these sizes take. -/
def totalCost (U : Set ℕ) [DecidablePred (· ∈ U)] (size : ℕ → ℕ) : ℕ :=
  ((List.range 200).map fun i => if i ∈ U then cost (size i) else 0).sum

theorem finite_covered (n : ℕ) : (covered n).Finite :=
  (Set.finite_le_nat maxfile).subset fun _ hb => covered_le_maxfile hb

theorem ncard_tableSlots [DecidablePred (· ∈ U)] {size : ℕ → ℕ} (hU : ∀ i ∈ U, i < 200)
    (hsize : ∀ i ∈ U, size i ≤ bsize * maxfile) : (tableSlots U size).ncard = totalCost U size := by
  suffices h : ∀ N, (tableSlots {i | i ∈ U ∧ i < N} size).ncard =
      ((List.range N).map fun i => if i ∈ U then cost (size i) else 0).sum by
    have hset : ({i | i ∈ U ∧ i < 200} : Set ℕ) = U :=
      Set.ext fun i => ⟨fun h => h.1, fun h => ⟨h, hU i h⟩⟩
    have h200 := h 200
    rwa [hset] at h200
  intro N
  induction N with
  | zero =>
    have hempty : tableSlots {i | i ∈ U ∧ i < 0} size = ∅ :=
      Set.eq_empty_of_forall_notMem fun p hp => Nat.not_lt_zero _ hp.1.2
    rw [hempty, Set.ncard_empty]
    rfl
  | succ N ih =>
    rw [List.range_succ, List.map_append, List.sum_append, ← ih, List.map_singleton,
      List.sum_singleton]
    have hfin : (tableSlots {i | i ∈ U ∧ i < N} size).Finite := by
      refine ((Set.finite_Iio N).prod (Set.finite_le_nat maxfile)).subset ?_
      exact fun p hp => ⟨hp.1.2, covered_le_maxfile hp.2⟩
    split
    · rename_i hN
      have hset : tableSlots {i | i ∈ U ∧ i < N + 1} size =
          tableSlots {i | i ∈ U ∧ i < N} size ∪ Prod.mk N '' covered (size N) := by
        ext ⟨k, b⟩
        simp only [tableSlots, Set.mem_ofPred_eq, Set.mem_union, Set.mem_image, Prod.mk.injEq]
        constructor
        · rintro ⟨⟨hk, hlt⟩, hb⟩
          rcases Nat.lt_succ_iff_lt_or_eq.1 hlt with hlt | rfl
          · exact .inl ⟨⟨hk, hlt⟩, hb⟩
          · exact .inr ⟨b, hb, rfl, rfl⟩
        · rintro (⟨⟨hk, hlt⟩, hb⟩ | ⟨c, hc, rfl, rfl⟩)
          · exact ⟨⟨hk, by omega⟩, hb⟩
          · exact ⟨⟨hN, by omega⟩, hc⟩
      have hdisj : Disjoint (tableSlots {i | i ∈ U ∧ i < N} size)
          (Prod.mk N '' covered (size N)) := by
        refine Set.disjoint_left.2 fun p hp hp' => ?_
        obtain ⟨c, -, rfl⟩ := hp'
        exact lt_irrefl _ hp.1.2
      rw [hset, Set.ncard_union_eq hdisj hfin ((finite_covered _).image _),
        Set.ncard_image_of_injective _ (Prod.mk_right_injective N), ncard_covered (hsize N hN)]
    · rename_i hN
      have hset : tableSlots {i | i ∈ U ∧ i < N + 1} size =
          tableSlots {i | i ∈ U ∧ i < N} size := by
        ext p
        constructor
        · rintro ⟨⟨hk, hlt⟩, hb⟩
          exact ⟨⟨hk, by
            rcases Nat.lt_succ_iff_lt_or_eq.1 hlt with hlt | heq
            · exact hlt
            · exact absurd (heq ▸ hk) hN⟩, hb⟩
        · rintro ⟨⟨hk, hlt⟩, hb⟩
          exact ⟨⟨hk, by omega⟩, hb⟩
      rw [hset, Nat.add_zero]

/-! ### A full disk -/

/-- No block of the disk is free. -/
structure Full (img : Image) : Prop where
  superblock : img.superblock = mkfsSuperblock
  marked : ∀ x < 1024, img.marked x = true

/-- With 995 slots in use every block is marked. -/
theorem Owns.full (hO : Owns ino img H) (hfull : H.ncard = 995) : Full img := by
  have hmarks : marks img = Set.Ico 29 1024 := by
    refine Set.eq_of_subset_of_ncard_le (fun x hx => ⟨hx.1, hx.2.1⟩) ?_ (Set.finite_Ico 29 1024)
    rw [hO.ncard_marks, hfull, ← Finset.coe_Ico, Set.ncard_coe_finset, Nat.card_Ico]
  refine ⟨hO.superblock, fun x hx => ?_⟩
  rcases Nat.lt_or_ge x 29 with h29 | h29
  · exact hO.low x h29
  · have hmem : x ∈ marks img := by
      rw [hmarks]
      exact ⟨h29, hx⟩
    exact hmem.2.2

/-- **`balloc` on a full disk** returns a number behind its end. -/
theorem Full.balloc (hF : Full img) (h : balloc img = some (x, img')) :
    1024 ≤ x ∧ x < bpb ∧ img' = setMark x img := by
  have hgroups : (List.range ((mkfsSuperblock.size + bpb - 1) / bpb)).map (bpb * ·) = [0] := by
    decide
  rw [Kernel.balloc, hF.superblock, hgroups] at h
  obtain ⟨y, hy, h⟩ := Option.bind_eq_some_iff.1 h
  obtain ⟨rfl, rfl⟩ := Prod.mk.inj (Option.some.inj h)
  have hfind : freeBit mkfsSuperblock img 0 = some y := by
    rw [ballocLoop] at hy
    split at hy
    · rename_i bi hbi
      rw [hbi, ← Option.some.inj hy, Nat.zero_add]
    · cases hy
  unfold freeBit at hfind
  have hlt : y < bpb := List.mem_range.1 (List.mem_of_find?_eq_some hfind)
  have hfree := List.find?_some hfind
  rw [Nat.zero_add, isFree_eq hlt, Bool.not_eq_true'] at hfree
  refine ⟨?_, hlt, rfl⟩
  by_contra hx
  rw [hF.marked y (not_le.1 hx)] at hfree
  cases hfree

/-- The inodes have the same addresses where the first has one, and agree otherwise. -/
def Kept (ip ip' : Inode) : Prop := SameHead ip ip' ∧ ∀ j, ip.addrs j ≠ 0 → ip'.addrs j = ip.addrs j

theorem Kept.refl (ip : Inode) : Kept ip ip := ⟨.refl ip, fun _ _ => rfl⟩

theorem Kept.trans {ip₁ ip₂ : Inode} (h : Kept ip ip₁) (h' : Kept ip₁ ip₂) : Kept ip ip₂ :=
  ⟨h.1.trans h'.1, fun j h0 => by
    have h₁ := h.2 j h0
    rw [h'.2 j (h₁ ▸ h0), h₁]⟩

theorem bmapAddr_kept (h : bmapAddr ip j img = some (ip', img')) : Kept ip ip' := by
  rw [bmapAddr] at h
  split at h
  · rename_i h0
    obtain ⟨⟨x, img₁⟩, -, h⟩ := Option.bind_eq_some_iff.1 h
    obtain ⟨rfl, -⟩ := Prod.mk.inj (Option.some.inj h)
    refine ⟨⟨rfl, rfl, rfl, rfl, rfl⟩, fun k hk => setAddr_ne ?_⟩
    rintro rfl
    exact hk h0
  · obtain ⟨rfl, -⟩ := Prod.mk.inj (Option.some.inj h)
    exact .refl ip

theorem bmap_kept {bn : ℕ} (h : bmap ip bn img = some (x, ip', img')) : Kept ip ip' := by
  rw [bmap] at h
  split at h
  · obtain ⟨⟨ip₁, img₁⟩, hmap, h⟩ := Option.bind_eq_some_iff.1 h
    obtain ⟨-, h⟩ := Prod.mk.inj (Option.some.inj h)
    obtain ⟨rfl, -⟩ := Prod.mk.inj h
    exact bmapAddr_kept hmap
  split at h
  · obtain ⟨⟨ip₁, img₁⟩, hmap, h⟩ := Option.bind_eq_some_iff.1 h
    obtain ⟨⟨y, img₂⟩, -, h⟩ := Option.bind_eq_some_iff.1 h
    obtain ⟨-, h⟩ := Prod.mk.inj (Option.some.inj h)
    obtain ⟨rfl, -⟩ := Prod.mk.inj h
    exact bmapAddr_kept hmap
  · cases h

/-- What the first pass of the loop of `writei` has done. -/
theorem writeLoop_cases (hn : n ≠ 0) (h : writeLoop ip src off n img = some (ip', img')) :
    ∃ x ip₁ img₁ m, m = min n (bsize - off % bsize) ∧
      bmap ip (off / bsize) img = some (x, ip₁, img₁) ∧
      writeLoop ip₁ (src.drop m) (off + m) (n - m)
        (img₁.write (bsize * x + off % bsize) (src.take m)) = some (ip', img') := by
  cases hbmap : bmap ip (off / bsize) img with
  | none =>
    rw [writeLoop, if_neg hn, hbmap] at h
    cases h
  | some r =>
    obtain ⟨x, ip₁, img₁⟩ := r
    rw [writeLoop_step hn hbmap] at h
    exact ⟨x, ip₁, img₁, _, rfl, rfl, h⟩

theorem step_lt {m : ℕ} (hn : n ≠ 0) (hm : m = min n (bsize - off % bsize)) : n - m < n :=
  hm ▸ step_pos hn

theorem writeLoop_kept (h : writeLoop ip src off n img = some (ip', img')) : Kept ip ip' := by
  induction n using Nat.strongRecOn generalizing ip img src off with
  | ind n ih =>
  rcases Nat.eq_zero_or_pos n with rfl | hn
  · rw [writeLoop_zero] at h
    obtain ⟨rfl, -⟩ := Prod.mk.inj (Option.some.inj h)
    exact .refl ip
  · have hn := Nat.pos_iff_ne_zero.1 hn
    obtain ⟨x, ip₁, img₁, m, hm, hbmap, hloop⟩ := writeLoop_cases hn h
    exact (bmap_kept hbmap).trans (ih (n - m) (step_lt hn hm) hloop)

/-- On a full disk the words of the indirect block `b` are empty from word `k` on, and word `k₀` is
behind the end of the disk. -/
structure Spilled (img : Image) (b k₀ k : ℕ) : Prop where
  full : Full img
  lt : k₀ < k
  word : 1024 ≤ img.word 4 (wordOff b k₀)
  empty : ∀ c, k ≤ c → c < nindirect → img.word 4 (wordOff b c) = 0

/-- A new block behind the end for an empty word, and a write to it. -/
theorem Full.spill (r : ℕ) (bs : List UInt8) (hF : Full img) (h29 : 29 ≤ b) (hb : b < 1024)
    (hk : k < nindirect) (hempty : ∀ c, k ≤ c → c < nindirect → img.word 4 (wordOff b c) = 0)
    (hentry : bmapEntry b k img = some (x, img')) :
    Spilled (img'.write (bsize * x + r) bs) b k (k + 1) ∧
      ∀ c < k, Bytes.word (img'.write (bsize * x + r) bs) 4 (wordOff b c) =
        img.word 4 (wordOff b c) := by
  rw [bmapEntry, if_pos (hempty k le_rfl hk)] at hentry
  obtain ⟨⟨y, img₁⟩, hy, hentry⟩ := Option.bind_eq_some_iff.1 hentry
  obtain ⟨rfl, rfl⟩ := Prod.mk.inj (Option.some.inj hentry)
  obtain ⟨hge, hlt, rfl⟩ := hF.balloc hy
  have hk : k < 128 := hk
  have hlt : y < 4096 := hlt
  -- the write is behind the end of the disk
  have hdisk : ∀ o < bsize * 1024,
      Bytes.write (setEntry b k y (setMark y img)) (bsize * y + r) bs o =
        setEntry b k y (setMark y img) o := fun o ho =>
    Bytes.write_of_lt (by unfold bsize at *; omega)
  have hlow : ∀ o < bsize * 29, setEntry b k y (setMark y img) o = setMark y img o := fun o ho =>
    Bytes.write_of_lt (by unfold wordOff bsize at *; omega)
  have hword : ∀ c < nindirect, Bytes.word
      (Bytes.write (setEntry b k y (setMark y img)) (bsize * y + r) bs) 4 (wordOff b c) =
        if c = k then y else img.word 4 (wordOff b c) := fun c hc => by
    have hc : c < 128 := hc
    have hcongr : ∀ o < 4, Bytes.write (setEntry b k y (setMark y img)) (bsize * y + r) bs
        (wordOff b c + o) = setEntry b k y (setMark y img) (wordOff b c + o) := fun o ho =>
      hdisk _ (by unfold wordOff bsize at *; omega)
    rw [Bytes.word_congr hcongr]
    split
    · rename_i heq
      rw [heq]
      exact Bytes.word_write (hlt.trans (by norm_num))
    · rename_i hne
      refine Bytes.word_congr fun o ho => ?_
      rw [setEntry_of_ne hne ho]
      exact setMark_outside hlt (.inr (by unfold wordOff bsize at *; omega))
  show Spilled (Bytes.write (setEntry b k y (setMark y img)) (bsize * y + r) bs) b k (k + 1) ∧
    ∀ c < k, Bytes.word (Bytes.write (setEntry b k y (setMark y img)) (bsize * y + r) bs) 4
      (wordOff b c) = img.word 4 (wordOff b c)
  refine ⟨⟨⟨?_, fun z hz => ?_⟩, Nat.lt_succ_self k, ?_, fun c hkc hc => ?_⟩, fun c hc => ?_⟩
  · refine (superblock_low fun o ho => ?_).trans hF.superblock
    rw [hdisk o (by unfold bsize at *; omega), hlow o (by unfold bsize at *; omega)]
    exact setMark_outside hlt (.inl ho)
  · rw [marked_congr (fun o _ ho => (hdisk o (by unfold bsize at *; omega)).trans (hlow o ho))
      (hz.trans (by decide)), marked_setMark hlt, hF.marked z hz, Bool.true_or]
  · rw [hword k hk, if_pos rfl]
    exact hge
  · rw [hword c hc, if_neg (by omega), hempty c (by omega) hc]
  · rw [hword c (hc.trans hk), if_neg (by omega)]

/-- The word stays behind the end for the rest of the loop. -/
theorem writeLoop_spilled {k₀ : ℕ} (h29 : 29 ≤ ip.addrs ndirect) (hb : ip.addrs ndirect < 1024)
    (hd : ndirect ≤ off / bsize) (hmax : off + n ≤ bsize * maxfile)
    (hS : Spilled img (ip.addrs ndirect) k₀ (off / bsize - ndirect))
    (h : writeLoop ip src off n img = some (ip', img')) :
    1024 ≤ img'.word 4 (wordOff (ip.addrs ndirect) k₀) := by
  induction n using Nat.strongRecOn generalizing img src off with
  | ind n ih =>
  rcases Nat.eq_zero_or_pos n with rfl | hpos
  · rw [writeLoop_zero] at h
    obtain ⟨-, rfl⟩ := Prod.mk.inj (Option.some.inj h)
    exact hS.word
  have hn := Nat.pos_iff_ne_zero.1 hpos
  obtain ⟨x, ip₁, img₁, m, hm, hbmap, hloop⟩ := writeLoop_cases hn h
  have hbn : off / bsize < maxfile := div_lt_maxfile (by omega)
  have hk : off / bsize - ndirect < nindirect := by
    unfold maxfile at hbn
    omega
  have h0 : ip.addrs ndirect ≠ 0 := by omega
  rw [bmap, if_neg (not_lt.2 hd), if_pos hk, bmapAddr, if_neg h0] at hbmap
  obtain ⟨⟨ip₂, img₃⟩, hold, hbmap⟩ := Option.bind_eq_some_iff.1 hbmap
  obtain ⟨rfl, rfl⟩ := Prod.mk.inj (Option.some.inj hold)
  obtain ⟨⟨y, img₂⟩, hentry, hbmap⟩ := Option.bind_eq_some_iff.1 hbmap
  obtain ⟨rfl, hpair⟩ := Prod.mk.inj (Option.some.inj hbmap)
  obtain ⟨rfl, rfl⟩ := Prod.mk.inj hpair
  have hmod := mod_lt_bsize off
  obtain ⟨hS', hold⟩ := hS.full.spill (off % bsize) (src.take m) h29 hb hk hS.empty hentry
  by_cases hend : n - m = 0
  · rw [hend, writeLoop_zero] at hloop
    obtain ⟨-, rfl⟩ := Prod.mk.inj (Option.some.inj hloop)
    rw [hold k₀ hS.lt]
    exact hS.word
  · have hnext : (off + m) / bsize = off / bsize + 1 := by
      unfold bsize at *
      omega
    refine ih (n - m) (step_lt hn hm) (by omega) (by omega) ?_ hloop
    rw [hnext, show off / bsize + 1 - ndirect = off / bsize - ndirect + 1 by omega]
    refine ⟨hS'.full, hS.lt.trans (Nat.lt_succ_self _), ?_, hS'.empty⟩
    rw [hold k₀ hS.lt]
    exact hS.word

/-- An address of the inode, or an entry of its indirect block, is behind the end of the disk. -/
def Beyond (ip : Inode) (img : Image) : Prop :=
  (∃ j ≤ ndirect, 1024 ≤ ip.addrs j ∧ ip.addrs j < bpb) ∨
    (29 ≤ ip.addrs ndirect ∧ ip.addrs ndirect < 1024) ∧
      ∃ k < nindirect, 1024 ≤ img.word 4 (wordOff (ip.addrs ndirect) k)

theorem Beyond.of_kept {j : ℕ} (hj : j ≤ ndirect) (hge : 1024 ≤ ip.addrs j) (hlt : ip.addrs j < bpb)
    (h : Kept ip ip') : Beyond ip' img := by
  have heq := h.2 j (by omega)
  exact .inl ⟨j, hj, by omega, by omega⟩

section Overfull

variable (hO : Owns ino img (live ino img U)) (hi : i ∈ U) (hip : ip.toDinode = ino i)

include hO

omit hip hi in
theorem Owns.no_room {p : ℕ × ℕ} (h : 995 < (live ino img U ∪ {p}).ncard) :
    p ∉ live ino img U ∧ Full img := by
  have hle := hO.ncard_le
  by_cases hp : p ∈ live ino img U
  · rw [Set.union_eq_left.2 (Set.singleton_subset_iff.2 hp)] at h
    omega
  · rw [Set.union_singleton, Set.ncard_insert_of_notMem hp hO.finite] at h
    exact ⟨hp, hO.full (by omega)⟩

include hi hip

/-- An address for which there is no room. -/
theorem bmapAddr_full (hj : j ≤ ndirect)
    (hno : 995 < (live ino img U ∪ {(i, if j = ndirect then maxfile else j)}).ncard)
    (h : bmapAddr ip j img = some (ip', img')) : 1024 ≤ ip'.addrs j ∧ ip'.addrs j < bpb := by
  obtain ⟨hp, hfull⟩ := hO.no_room hno
  have h0 : ip.addrs j = 0 := by
    by_contra h0
    refine hp ⟨hi, ?_, ?_⟩
    · unfold maxfile
      dsimp only
      split <;> omega
    · rw [addr, ← hip]
      split
      · rename_i heq
        rwa [slot_indirect, ← heq]
      · rwa [slot_direct (by omega)]
  rw [bmapAddr, if_pos h0] at h
  obtain ⟨⟨x, img₁⟩, hx, h⟩ := Option.bind_eq_some_iff.1 h
  obtain ⟨rfl, -⟩ := Prod.mk.inj (Option.some.inj h)
  rw [show (withAddr ip j x).addrs j = x from setAddr_self]
  obtain ⟨hge, hlt, -⟩ := hfull.balloc hx
  exact ⟨hge, hlt⟩

omit hO in
/-- The empty entries of the indirect block. -/
theorem empty_entries (hb : (ino i).addrs ndirect ≠ 0)
    (hnone : ∀ c, ndirect + k ≤ c → c < maxfile → (i, c) ∉ live ino img U) :
    ∀ c, k ≤ c → c < nindirect → img.word 4 (wordOff (ip.addrs ndirect) c) = 0 := by
  intro c hkc hc
  have hd : ndirect ≤ ndirect + c := Nat.le_add_right _ _
  have hm : ndirect + c < maxfile := Nat.add_lt_add_left hc ndirect
  by_contra h0
  refine hnone (ndirect + c) (Nat.add_le_add_left hkc _) hm ⟨hi, hm.le, ?_⟩
  rw [addr, slot_entry hd hm hb, Nat.add_sub_cancel_left, ← hip]
  exact h0

/-- A direct block for which there is no room. -/
theorem bmap_full_direct {bn : ℕ} (hd : bn < ndirect)
    (hno : 995 < (live ino img U ∪ needs i bn).ncard)
    (h : bmap ip bn img = some (x, ip', img')) : 1024 ≤ ip'.addrs bn ∧ ip'.addrs bn < bpb := by
  have hneeds : needs i bn = {(i, if bn = ndirect then maxfile else bn)} := by
    rw [if_neg (Nat.ne_of_lt hd)]
    ext ⟨k, b⟩
    simp only [needs, Set.mem_ofPred_eq, Set.mem_singleton_iff, Prod.mk.injEq]
    omega
  rw [hneeds] at hno
  rw [bmap, if_pos hd] at h
  obtain ⟨⟨ip₂, img₂⟩, hmap, h⟩ := Option.bind_eq_some_iff.1 h
  obtain ⟨-, h⟩ := Prod.mk.inj (Option.some.inj h)
  obtain ⟨rfl, -⟩ := Prod.mk.inj h
  exact bmapAddr_full hO hi hip hd.le hno hmap

/-- An entry of the indirect block for which there is no room, or no room for the indirect block;
the write to it is behind the end of the disk. -/
theorem bmap_full_indirect (r : ℕ) (bs : List UInt8) (hk : k < nindirect)
    (hdown : ∀ c, ndirect + k ≤ c → c < maxfile → (i, c) ∈ live ino img U →
      (i, ndirect + k) ∈ live ino img U)
    (hno : 995 < (live ino img U ∪ needs i (ndirect + k)).ncard)
    (h : bmap ip (ndirect + k) img = some (x, ip', img')) :
    1024 ≤ ip'.addrs ndirect ∧ ip'.addrs ndirect < bpb ∨
      (29 ≤ ip'.addrs ndirect ∧ ip'.addrs ndirect < 1024) ∧
        Spilled (img'.write (bsize * x + r) bs) (ip'.addrs ndirect) k (k + 1) := by
  have hneeds : live ino img U ∪ needs i (ndirect + k) = live ino img U ∪
      {(i, if ndirect = ndirect then maxfile else ndirect)} ∪ {(i, ndirect + k)} := by
    rw [if_pos rfl, Set.union_assoc]
    congr 1
    ext ⟨c, b⟩
    simp only [needs, Set.mem_ofPred_eq, Set.mem_union, Set.mem_singleton_iff, Prod.mk.injEq]
    omega
  rw [bmap, if_neg (by omega), Nat.add_sub_cancel_left, if_pos hk] at h
  obtain ⟨⟨ip₂, img₂⟩, hmap, h⟩ := Option.bind_eq_some_iff.1 h
  obtain ⟨⟨y, img₃⟩, hentry, h⟩ := Option.bind_eq_some_iff.1 h
  obtain ⟨rfl, hpair⟩ := Prod.mk.inj (Option.some.inj h)
  obtain ⟨rfl, rfl⟩ := Prod.mk.inj hpair
  rcases Nat.lt_or_ge 995 (live ino img U ∪
      {(i, if ndirect = ndirect then maxfile else ndirect)}).ncard with hind | hind
  · exact .inl (bmapAddr_full hO hi hip le_rfl hind hmap)
  obtain ⟨ip₃, img₄, hmap', hext, -⟩ := bmapAddr_spec hO hi hip le_rfl hind
  rw [hmap'] at hmap
  obtain ⟨rfl, rfl⟩ := Prod.mk.inj (Option.some.inj hmap)
  rw [if_pos rfl] at hext
  have hself : ip₃.toDinode = Function.update ino i ip₃.toDinode i :=
    (Function.update_self i ip₃.toDinode ino).symm
  have hmem : (i, maxfile) ∈ live (Function.update ino i ip₃.toDinode) img₄ U := by
    rw [hext.live]
    exact .inr rfl
  have hb : (Function.update ino i ip₃.toDinode i).addrs ndirect ≠ 0 := by
    have hne := hmem.2.2
    rwa [addr, slot_indirect] at hne
  have hrange := indirect_range hext.owns hi hb
  rw [← hself] at hrange
  obtain ⟨hp, hfull⟩ := hext.owns.no_room (p := (i, ndirect + k)) (by
    rw [hext.live]
    rwa [hneeds, if_pos rfl] at hno)
  have hnone : ∀ c, ndirect + k ≤ c → c < maxfile →
      (i, c) ∉ live (Function.update ino i ip₃.toDinode) img₄ U := by
    intro c hkc hc hl
    rw [hext.live] at hl hp
    rcases hl with hl | hl
    · exact hp (.inl (hdown c hkc hc hl))
    · have := (Prod.mk.inj (Set.mem_singleton_iff.1 hl)).2
      omega
  have hempty := empty_entries hi hself hb hnone
  obtain ⟨hS, -⟩ := hfull.spill r bs hrange.1 hrange.2 hk hempty hentry
  exact .inr ⟨hrange, hS⟩

/-- The first block that the loop writes finds no room. -/
theorem writeLoop_first {m : ℕ} (hn : n ≠ 0) (hm : m = min n (bsize - off % bsize))
    (hmax : off + n ≤ bsize * maxfile)
    (hdown : ∀ c, off / bsize ≤ c → c < maxfile → (i, c) ∈ live ino img U →
      (i, off / bsize) ∈ live ino img U)
    (hno : 995 < (live ino img U ∪ needs i (off / bsize)).ncard) {ip₁ : Inode} {img₁ : Image}
    (hbmap : bmap ip (off / bsize) img = some (x, ip₁, img₁))
    (hloop : writeLoop ip₁ (src.drop m) (off + m) (n - m)
      (img₁.write (bsize * x + off % bsize) (src.take m)) = some (ip', img')) :
    Beyond ip' img' := by
  have hbn : off / bsize < maxfile := div_lt_maxfile (by omega)
  have hmod := mod_lt_bsize off
  rcases lt_or_ge (off / bsize) ndirect with hd | hd
  · obtain ⟨hge, hlt⟩ := bmap_full_direct hO hi hip hd hno hbmap
    exact .of_kept hd.le hge hlt (writeLoop_kept hloop)
  obtain ⟨k, hk⟩ := Nat.exists_eq_add_of_le hd
  have hkn : k < nindirect := by
    unfold maxfile at hbn
    omega
  rw [hk] at hdown hno hbmap
  rcases bmap_full_indirect hO hi hip (off % bsize) (src.take m) hkn hdown hno hbmap with
    ⟨hge, hlt⟩ | ⟨hrange, hS⟩
  · exact .of_kept le_rfl hge hlt (writeLoop_kept hloop)
  have hkept := (writeLoop_kept hloop).2 ndirect (by omega)
  refine .inr ⟨by rw [hkept]; exact hrange, k, hkn, ?_⟩
  rw [hkept]
  by_cases hend : n - m = 0
  · rw [hend, writeLoop_zero] at hloop
    obtain ⟨-, rfl⟩ := Prod.mk.inj (Option.some.inj hloop)
    exact hS.word
  · have hnext : (off + m) / bsize = off / bsize + 1 := by
      unfold bsize at *
      omega
    refine writeLoop_spilled hrange.1 hrange.2 (by omega) (by omega) ?_ hloop
    rwa [hnext, hk, show ndirect + k + 1 - ndirect = k + 1 by omega]

/-- **A write without room** leaves an address behind the end of the disk. -/
theorem writeLoop_beyond (hlen : n ≤ src.length) (hmax : off + n ≤ bsize * maxfile)
    (hdown : ∀ b c, off / bsize ≤ b → b ≤ c → c < maxfile → (i, c) ∈ live ino img U →
      (i, b) ∈ live ino img U)
    (hno : 995 < (live ino img U ∪ spans i off n).ncard)
    (h : writeLoop ip src off n img = some (ip', img')) : Beyond ip' img' := by
  induction n using Nat.strongRecOn generalizing ino ip img src off with
  | ind n ih =>
  rcases Nat.eq_zero_or_pos n with rfl | hpos
  · have hempty : spans i off 0 = ∅ :=
      Set.eq_empty_of_forall_notMem fun p hp => absurd hp.2.1 (lt_irrefl 0)
    rw [hempty, Set.union_empty] at hno
    have := hO.ncard_le
    omega
  have hn := Nat.pos_iff_ne_zero.1 hpos
  have hbn : off / bsize < maxfile := div_lt_maxfile (by omega)
  have hmod := mod_lt_bsize off
  obtain ⟨x, ip₁, img₁, m, hm, hbmap, hloop⟩ := writeLoop_cases hn h
  rcases Nat.lt_or_ge 995 (live ino img U ∪ needs i (off / bsize)).ncard with hfirst | hroom
  · exact writeLoop_first hO hi hip hn hm hmax (fun c => hdown _ c le_rfl) hfirst hbmap hloop
  -- the first block is there, or there is room for it
  obtain ⟨ip₂, img₂, hbmap', hext, -⟩ := bmap_spec hO hi hip hbn hroom
  rw [hbmap'] at hbmap
  obtain ⟨rfl, hpair⟩ := Prod.mk.inj (Option.some.inj hbmap)
  obtain ⟨rfl, rfl⟩ := Prod.mk.inj hpair
  have hmem : (i, off / bsize) ∈ live (Function.update ino i ip₂.toDinode) img₂ U := by
    rw [hext.live]
    exact .inr ⟨rfl, .inl rfl⟩
  have hfit : off % bsize + (src.take m).length ≤ bsize := by
    rw [List.length_take]
    omega
  have hblock := hext.owns.write_block hmem hbn hfit
  have hlive := hblock.live
  rw [hext.live, Set.union_empty] at hlive
  have hlen₁ : n - m ≤ (src.drop m).length := by
    rw [List.length_drop]
    omega
  have hmax₁ : off + m + (n - m) ≤ bsize * maxfile := by omega
  refine ih (n - m) (step_lt hn hm) hblock.owns (Function.update_self i ip₂.toDinode ino).symm hlen₁
    hmax₁ (fun b c hb hbc hc hl => ?_) ?_ hloop
  · have hstart : off / bsize ≤ (off + m) / bsize := Nat.div_le_div_right (Nat.le_add_right _ _)
    rw [hlive] at hl ⊢
    rcases hl with hl | ⟨-, heq | ⟨heq, -⟩⟩
    · exact .inl (hdown b c (hstart.trans hb) hbc hc hl)
    · dsimp only at heq
      exact .inr ⟨rfl, .inl (by dsimp only; omega)⟩
    · dsimp only at heq
      omega
  · rw [hlive, Set.union_assoc, hm, ← spans_eq hpos hmax]
    exact hno

end Overfull

theorem Tidy.slot_lt (hT : Tidy ino img U) (hi : i ∈ U) (hb : b ≤ maxfile) :
    slot img (ino i) b < 1024 := by
  by_cases h0 : slot img (ino i) b = 0
  · rw [h0]
    decide
  · exact (hT.owns.mem_marks (show (i, b) ∈ live ino img U from ⟨hi, hb, h0⟩)).2.1

/-- An inode with such an address is written back. -/
theorem Beyond.not_wf (hB : Beyond ip img) (h1 : 1 ≤ i) (h200 : i < 200) (h0 : ip.type ≠ 0)
    (hlt : ip.type < 2 ^ 16) : ¬Wf (iupdate i ip img) := by
  intro hW
  have hholds : (iupdate i ip img).Holds (2 * bsize + 64 * i) (bytes ip) := holds_iupdate
  have htype := type_of_bytes hholds
  rw [Nat.mod_eq_of_lt hlt] at htype
  have hi : i ∈ inodes (iupdate i ip img) := ⟨h1, h200, by rwa [htype]⟩
  have haddrs : ∀ j ≤ ndirect, ip.addrs j < bpb →
      ((iupdate i ip img).dinode i).addrs j = ip.addrs j := fun j hj hbpb =>
    (addrs_of_bytes holds_iupdate hj).trans (Nat.mod_eq_of_lt (hbpb.trans (by decide)))
  rcases hB with ⟨j, hj, hge, hbpb⟩ | ⟨hrange, k, hk, hge⟩
  · have := hW.addrs_lt hi hj
    rw [haddrs j hj hbpb] at this
    omega
  · have hm : ndirect + k < maxfile := Nat.add_lt_add_left hk ndirect
    have hind := haddrs ndirect le_rfl (hrange.2.trans (by decide))
    have hword : (iupdate i ip img).word 4 (wordOff (ip.addrs ndirect) k) =
        img.word 4 (wordOff (ip.addrs ndirect) k) :=
      Bytes.word_congr fun o _ => iupdate_outside (.inr (by unfold wordOff bsize; omega))
    have hslot := hW.slot_lt hi hm.le
    rw [slot_entry (Nat.le_add_right _ _) hm (by rw [hind]; omega), hind, Nat.add_sub_cancel_left,
      hword] at hslot
    omega

/-- The blocks of all files when file `i` has grown. -/
theorem ncard_grown [DecidablePred (· ∈ inodes img)] (hW : Wf img) (hm : m ≤ bsize * maxfile) :
    (tableSlots (inodes img) (Function.update (fun k => (img.dinode k).size) i m)).ncard =
      totalCost (inodes img) (Function.update (fun k => (img.dinode k).size) i m) := by
  refine ncard_tableSlots (fun k hk => hk.2.1) fun k hk => ?_
  rcases eq_or_ne k i with rfl | hne
  · rwa [Function.update_self]
  · rw [Function.update_of_ne hne]
    exact hW.size_le k hk

/-- **A write without room** leaves an image that is not tidy. -/
theorem writei_not_wf {r : Option ℕ} (hW : Wf img) (hi : i ∈ inodes img)
    (hip : Same ip.toDinode (img.dinode i)) (hoff : off ≤ (img.dinode i).size)
    (hlen : off + src.length < 2 ^ 32) (hn : n = min src.length (bsize * maxfile - off))
    (hno : 995 < (tableSlots (inodes img) (Function.update (fun k => (img.dinode k).size) i
      (max (img.dinode i).size (off + n)))).ncard)
    (h : writei i ip src off img = some (r, ip', img')) : ¬Wf img' := by
  have hle := hW.size_le i hi
  have hmax : off + n ≤ bsize * maxfile := by omega
  have hcut := sub_cut (by rw [Nat.mul_comm]; omega) hlen
  rw [← hn] at hcut
  have hT := hW.copy hip
  have hself : Function.update img.dinode i ip.toDinode i = ip.toDinode :=
    Function.update_self _ _ _
  have hlive : live (Function.update img.dinode i ip.toDinode) img (inodes img) =
      tableSlots (inodes img) fun k => (img.dinode k).size := by
    rw [← hW.slots]
    refine live_congr fun q _ _ => ?_
    rcases eq_or_ne q.1 i with hq | hq
    · rw [addr, addr, hq, hself]
      exact slot_congr hip.addrs fun _ => sameBlock_refl
    · exact addr_update_of_ne hq
  -- no block is missing below the end of a file
  have hdown : ∀ b c, off / bsize ≤ b → b ≤ c → c < maxfile →
      (i, c) ∈ live (Function.update img.dinode i ip.toDinode) img (inodes img) →
      (i, b) ∈ live (Function.update img.dinode i ip.toDinode) img (inodes img) := by
    intro b c _ hbc hc hl
    rw [hlive] at hl ⊢
    refine ⟨hi, .inl ⟨hbc.trans_lt hc, ?_⟩⟩
    rcases hl.2 with ⟨-, hlt⟩ | ⟨heq, -⟩
    · exact (Nat.mul_le_mul_left bsize hbc).trans_lt hlt
    · dsimp only at heq
      omega
  have hgrow : (img.dinode i).size < off + n := by
    by_contra hge
    rw [max_eq_left (not_lt.1 hge), Function.update_eq_self, ← hW.slots] at hno
    exact absurd hW.owns.ncard_le (not_le.2 hno)
  cases hloop : writeLoop ip src off n img with
  | none =>
    rw [writei, if_neg (by rw [Nat.mod_eq_of_lt hlen, hip.size]; omega), hcut] at h
    simp only [hloop] at h
    cases h
  | some s =>
    obtain ⟨ip₁, img₁⟩ := s
    have hhead := (writeLoop_kept hloop).1
    have hbeyond := writeLoop_beyond hT.owns hi hself.symm (by omega) hmax hdown (by
      rw [hlive, tableSlots_spans hi hoff hmax]
      exact hno) hloop
    rw [writei_eq (by rw [Nat.mod_eq_of_lt hlen, hip.size]; omega) hcut hloop,
      if_pos ⟨by omega, by rw [hhead.size, hip.size]; exact hgrow⟩] at h
    obtain ⟨-, hpair⟩ := Prod.mk.inj (Option.some.inj h)
    obtain ⟨-, rfl⟩ := Prod.mk.inj hpair
    have htype : ip₁.type = (img.dinode i).type := hhead.type.trans hip.type
    exact Beyond.not_wf hbeyond hi.1 hi.2.1 (htype ▸ hi.2.2)
      (htype ▸ (inRange_dinode img i).type)

end OsProjects.Kernel
