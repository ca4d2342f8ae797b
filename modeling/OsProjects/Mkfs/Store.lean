import OsProjects.Mkfs.Model

/-!
# Files in blocks

What the inodes and the blocks of an image under construction hold.  Every file has slots, one for
each of its blocks and one for its indirect block, and the slots in use and the blocks handed out
correspond one to one (`Held`).  A new block goes to one slot (`Held.take`), and a write to a block
of a file changes the contents of that file only (`Held.write`).
-/

namespace OsProjects.Mkfs

open Fsck

variable {ino ino' : ℕ → Dinode} {img img' : Image} {free N i j b k x : ℕ} {H : Set (ℕ × ℕ)}
  {c c' : ℕ → List UInt8} {d d' : Dinode} {p q : ℕ × ℕ}

theorem rsect_eq {sec : ℕ} (h : sec < 1024) : rsect sec = some () := if_pos h

@[simp] theorem setAddr_self : (setAddr d j x).addrs j = x := by
  rw [setAddr]
  exact Function.update_self j x d.addrs

theorem setAddr_ne (h : k ≠ j) : (setAddr d j x).addrs k = d.addrs k := by
  rw [setAddr]
  exact Function.update_of_ne h x d.addrs

/-! ### Slots -/

/-- The block in slot `b` of an inode, 0 if there is none: the blocks of the file in order, and the
indirect block in slot `maxfile`. -/
def slot (img : Image) (d : Dinode) (b : ℕ) : ℕ :=
  if b < ndirect then d.addrs b
  else if b < maxfile then
    if d.addrs ndirect = 0 then 0 else img.word 4 (wordOff (d.addrs ndirect) (b - ndirect))
  else d.addrs ndirect

theorem slot_direct (h : b < ndirect) : slot img d b = d.addrs b := if_pos h

theorem slot_indirect : slot img d maxfile = d.addrs ndirect := by
  rw [slot, if_neg (by decide), if_neg (lt_irrefl _)]

theorem slot_entry (hb : ndirect ≤ b) (h : b < maxfile) (h0 : d.addrs ndirect ≠ 0) :
    slot img d b = img.word 4 (wordOff (d.addrs ndirect) (b - ndirect)) := by
  rw [slot, if_neg (not_lt.2 hb), if_pos h, if_neg h0]

theorem slot_entry_zero (hb : ndirect ≤ b) (h : b < maxfile) (h0 : d.addrs ndirect = 0) :
    slot img d b = 0 := by
  rw [slot, if_neg (not_lt.2 hb), if_pos h, if_pos h0]

/-- Block `y` is the same in both images. -/
def SameBlock (img img' : Image) (y : ℕ) : Prop :=
  ∀ r < bsize, img' (bsize * y + r) = img (bsize * y + r)

theorem SameBlock.word (h : SameBlock img img' x) (hk : k < nindirect) :
    img'.word 4 (wordOff x k) = img.word 4 (wordOff x k) := by
  refine Bytes.word_congr fun r hr => ?_
  have hk : k < 128 := hk
  rw [wordOff, Nat.add_assoc]
  exact h (4 * k + r) (by unfold bsize; omega)

theorem slot_congr (ha : ∀ j ≤ ndirect, d'.addrs j = d.addrs j)
    (hw : d.addrs ndirect ≠ 0 → SameBlock img img' (d.addrs ndirect)) :
    slot img' d' b = slot img d b := by
  unfold slot
  rw [ha ndirect le_rfl]
  split
  · exact ha b (by omega)
  split
  · split
    · rfl
    · rename_i hb h0
      exact (hw h0).word (by unfold maxfile at hb; omega)
  · rfl

theorem slot_of_indirect (hb : ndirect ≤ b) (h : d'.addrs ndirect = d.addrs ndirect) :
    slot img d' b = slot img d b := by
  rw [slot, slot, if_neg (not_lt.2 hb), if_neg (not_lt.2 hb), h]

/-- The block in a slot of an inode of the table. -/
def addr (ino : ℕ → Dinode) (img : Image) (p : ℕ × ℕ) : ℕ := slot img (ino p.1) p.2

/-! ### The invariant -/

/-- The first `N` inodes of the table `ino` have the contents `c`; the slots `H` are those in use,
and have the blocks from 29 to `free`. -/
structure Held (ino : ℕ → Dinode) (img : Image) (free : ℕ) (H : Set (ℕ × ℕ)) (c : ℕ → List UInt8)
    (N : ℕ) : Prop where
  slots : ∀ p ∈ H, p.1 < N ∧ p.2 ≤ maxfile
  held : ∀ p : ℕ × ℕ, p.1 < N → p.2 ≤ maxfile → p ∉ H → addr ino img p = 0
  owned : Set.BijOn (addr ino img) H (Set.Ico 29 free)
  data : ∀ p ∈ H, p.2 < maxfile → ∀ r < bsize,
    img (bsize * addr ino img p + r) = (c p.1).getD (bsize * p.2 + r) 0
  clear : ∀ o, bsize * free ≤ o → img o = 0

namespace Held

variable (hH : Held ino img free H c N)

include hH

theorem mem_Ico (hp : p ∈ H) : 29 ≤ addr ino img p ∧ addr ino img p < free := hH.owned.mapsTo hp

theorem ne_zero (hp : p ∈ H) : addr ino img p ≠ 0 := by
  have := hH.mem_Ico hp
  omega

theorem mem_iff (hN : p.1 < N) (hm : p.2 ≤ maxfile) : p ∈ H ↔ addr ino img p ≠ 0 := by
  refine ⟨hH.ne_zero, fun h => ?_⟩
  by_contra hp
  exact h (hH.held p hN hm hp)

theorem indirect_mem (hi : i < N) (h0 : (ino i).addrs ndirect ≠ 0) : (i, maxfile) ∈ H := by
  by_contra hp
  have hzero := hH.held (i, maxfile) hi le_rfl hp
  rw [addr, slot_indirect] at hzero
  exact h0 hzero

/-- An indirect block is none of the other blocks. -/
theorem indirect_ne (hi : i < N) (h0 : (ino i).addrs ndirect ≠ 0) (hp : p ∈ H)
    (hb : p ≠ (i, maxfile)) : (ino i).addrs ndirect ≠ addr ino img p := by
  intro heq
  refine hb (hH.owned.injOn hp (hH.indirect_mem hi h0) ?_)
  rw [← heq, addr, slot_indirect]

theorem indirect_lt (hi : i < N) (h0 : (ino i).addrs ndirect ≠ 0) :
    29 ≤ (ino i).addrs ndirect ∧ (ino i).addrs ndirect < free := by
  have := hH.mem_Ico (hH.indirect_mem hi h0)
  rwa [addr, slot_indirect] at this

theorem addrs_le (hi : i < N) (hj : j ≤ ndirect) : (ino i).addrs j ≤ free := by
  have hslot : ∀ b ≤ maxfile, addr ino img (i, b) ≤ free := by
    intro b hb
    by_cases hp : (i, b) ∈ H
    · exact (hH.mem_Ico hp).2.le
    · rw [hH.held (i, b) hi hb hp]
      exact Nat.zero_le _
  rcases lt_or_eq_of_le hj with hj | rfl
  · have hle := hslot j (by unfold maxfile; omega)
    rwa [addr, slot_direct hj] at hle
  · have hle := hslot maxfile le_rfl
    rwa [addr, slot_indirect] at hle

/-- The next block goes to slot `p`. -/
theorem take (hN : p.1 < N) (hm : p.2 ≤ maxfile) (hp : p ∉ H) (hfree : 29 ≤ free)
    (haddr : ∀ q : ℕ × ℕ, q.1 < N → q.2 ≤ maxfile → q ≠ p → addr ino' img' q = addr ino img q)
    (hnew : addr ino' img' p = free)
    (hsame : ∀ q ∈ H, q.2 < maxfile → SameBlock img img' (addr ino img q))
    (hclear : ∀ o, bsize * free ≤ o → img' o = 0)
    (hlen : p.2 < maxfile → (c p.1).length ≤ bsize * p.2) :
    Held ino' img' (free + 1) (insert p H) c N := by
  have hold : ∀ q ∈ H, addr ino' img' q = addr ino img q := fun q hq =>
    haddr q (hH.slots q hq).1 (hH.slots q hq).2 fun h => hp (h ▸ hq)
  refine ⟨?_, ?_, ?_, ?_, fun o ho => hclear o (by unfold bsize at *; omega)⟩
  · rintro q (rfl | hq)
    · exact ⟨hN, hm⟩
    · exact hH.slots q hq
  · intro q hqN hqm hq
    have hne : q ≠ p := fun h => hq (h ▸ Set.mem_insert q H)
    rw [haddr q hqN hqm hne]
    exact hH.held q hqN hqm fun h => hq (Set.mem_insert_of_mem _ h)
  · have hbij : Set.BijOn (addr ino' img') H (Set.Ico 29 free) :=
      hH.owned.congr fun q hq => (hold q hq).symm
    have hins := hbij.insert (a := p) (by rw [hnew]; simp)
    rwa [hnew, Set.Ico_insert_right hfree, ← Set.Ico_succ_right_eq_Icc] at hins
  · rintro q (rfl | hq) hqm r hr
    · rw [hnew, hclear _ (Nat.le_add_right _ _), List.getD_eq_default]
      exact (hlen hqm).trans (Nat.le_add_right _ _)
    · rw [hold q hq, hsame q hq hqm r hr]
      exact hH.data q hq hqm r hr

/-- A write to the block in slot `p`. -/
theorem write (hp : p ∈ H) (hm : p.2 < maxfile)
    (hsame : ∀ y, y ≠ addr ino img p → SameBlock img img' y)
    (hblock : ∀ r < bsize, img' (bsize * addr ino img p + r) = (c' p.1).getD (bsize * p.2 + r) 0)
    (hc : ∀ q : ℕ × ℕ, q ≠ p → ∀ r < bsize,
      (c' q.1).getD (bsize * q.2 + r) 0 = (c q.1).getD (bsize * q.2 + r) 0) :
    Held ino img' free H c' N := by
  have haddr : ∀ q : ℕ × ℕ, q.1 < N → addr ino img' q = addr ino img q := fun q hq =>
    slot_congr (fun _ _ => rfl) fun h0 => hsame _ (hH.indirect_ne hq h0 hp fun heq => by
      rw [heq] at hm
      exact lt_irrefl _ hm)
  refine ⟨hH.slots, fun q hN hqm hq => ?_, ?_, fun q hq hqm r hr => ?_, fun o ho => ?_⟩
  · rw [haddr q hN]
    exact hH.held q hN hqm hq
  · exact hH.owned.congr fun q hq => (haddr q (hH.slots q hq).1).symm
  · rw [haddr q (hH.slots q hq).1]
    rcases eq_or_ne q p with rfl | hne
    · exact hblock r hr
    · rw [hc q hne r hr, hsame _ (fun heq => hne (hH.owned.injOn hq hp heq)) r hr]
      exact hH.data q hq hqm r hr
  · have hlt := (hH.mem_Ico hp).2
    have hmod := Nat.mod_lt o (show 0 < bsize by decide)
    have hdiv : bsize * (o / bsize) + o % bsize = o := Nat.div_add_mod o bsize
    have hle : free ≤ o / bsize := (Nat.le_div_iff_mul_le (by decide)).2 (by rwa [Nat.mul_comm])
    have hsameo := hsame (o / bsize) (by omega) _ hmod
    rw [hdiv] at hsameo
    rw [hsameo]
    exact hH.clear o ho

end Held

/-! ### Taking a block -/

theorem addr_update_of_ne (h : q.1 ≠ i) :
    addr (Function.update ino i d) img q = addr ino img q := by
  rw [addr, Function.update_of_ne h]
  rfl

theorem addr_update_self : addr (Function.update ino i d) img (i, b) = slot img d b := by
  rw [addr, Function.update_self]

theorem sameBlock_refl : SameBlock img img x := fun _ _ => rfl

/-- A new block for a direct address. -/
theorem Held.take_direct (hH : Held (Function.update ino i d) img free H c N) (hi : i < N)
    (hj : j < ndirect) (h0 : d.addrs j = 0) (hfree : 29 ≤ free) (hlen : (c i).length ≤ bsize * j) :
    Held (Function.update ino i (setAddr d j free)) img (free + 1)
      (insert (i, j) H) c N := by
  have hm : j ≤ maxfile := by
    unfold maxfile
    omega
  have hp : (i, j) ∉ H := fun hp => hH.ne_zero hp (by rwa [addr_update_self, slot_direct hj])
  refine hH.take hi hm hp hfree (fun q hN hqm hne => ?_) ?_ (fun _ _ _ => sameBlock_refl) hH.clear
    fun _ => hlen
  · rcases eq_or_ne q.1 i with h | h
    · obtain ⟨_, b⟩ := q
      obtain rfl : _ = i := h
      have hbj : b ≠ j := fun hb => hne (by rw [hb])
      rw [addr_update_self, addr_update_self]
      rcases lt_or_ge b ndirect with hd | hd
      · rw [slot_direct hd, slot_direct hd]
        exact setAddr_ne hbj
      · exact slot_of_indirect hd (setAddr_ne (Nat.ne_of_gt hj))
    · rw [addr_update_of_ne h, addr_update_of_ne h]
  · rw [addr_update_self, slot_direct hj]
    exact setAddr_self

/-- A new indirect block. -/
theorem Held.take_indirect (hH : Held (Function.update ino i d) img free H c N) (hi : i < N)
    (h0 : d.addrs ndirect = 0) (hfree : 29 ≤ free) :
    Held (Function.update ino i (setAddr d ndirect free)) img
      (free + 1) (insert (i, maxfile) H) c N := by
  have hp : (i, maxfile) ∉ H := fun hp => hH.ne_zero hp (by rwa [addr_update_self, slot_indirect])
  refine hH.take hi le_rfl hp hfree (fun q hN hqm hne => ?_) ?_ (fun _ _ _ => sameBlock_refl)
    hH.clear fun h => absurd h (lt_irrefl _)
  · rcases eq_or_ne q.1 i with h | h
    · obtain ⟨_, b⟩ := q
      obtain rfl : _ = i := h
      have hb : b < maxfile := lt_of_le_of_ne hqm fun hb => hne (by rw [hb])
      rw [addr_update_self, addr_update_self]
      rcases lt_or_ge b ndirect with hd | hd
      · rw [slot_direct hd, slot_direct hd]
        exact setAddr_ne (Nat.ne_of_lt hd)
      -- The words of the new block are 0, as all of it.
      · rw [slot_entry_zero hd hb h0, slot_entry hd hb (by rw [setAddr_self]; omega), setAddr_self]
        refine Bytes.word_zero fun r _ => hH.clear _ ?_
        rw [wordOff, Nat.add_assoc]
        exact Nat.le_add_right _ _
    · rw [addr_update_of_ne h, addr_update_of_ne h]
  · rw [addr_update_self, slot_indirect]
    exact setAddr_self

theorem write_word_sameBlock (hk : k < nindirect) {y : ℕ} (hy : y ≠ b) {v : ℕ} :
    SameBlock img (img.write (wordOff b k) (Bytes.leBytes 4 v)) y := by
  intro r hr
  have hk : k < 128 := hk
  unfold wordOff bsize at *
  rcases Nat.lt_or_gt_of_ne hy with h | h
  · exact Bytes.write_of_lt (by omega)
  · exact Bytes.write_of_le (by rw [Bytes.length_leBytes]; omega)

/-- A new block for an entry of the indirect block. -/
theorem Held.take_entry (hH : Held ino img free H c N) (hi : i < N) (hk : k < nindirect)
    (hb : (ino i).addrs ndirect ≠ 0) (h0 : img.word 4 (wordOff ((ino i).addrs ndirect) k) = 0)
    (hfree : 29 ≤ free) (hlt : free < 2 ^ 32) (hlen : (c i).length ≤ bsize * (ndirect + k)) :
    Held ino (img.write (wordOff ((ino i).addrs ndirect) k) (Bytes.leBytes 4 free)) (free + 1)
      (insert (i, ndirect + k) H) c N := by
  have hd : ndirect ≤ ndirect + k := Nat.le_add_right _ _
  have hm : ndirect + k < maxfile := Nat.add_lt_add_left hk ndirect
  have hsub : ndirect + k - ndirect = k := Nat.add_sub_cancel_left _ _
  have hp : (i, ndirect + k) ∉ H := fun hp => hH.ne_zero hp (by
    rw [addr, slot_entry hd hm hb, hsub]
    exact h0)
  have hrange := hH.indirect_lt hi hb
  refine hH.take hi hm.le hp hfree (fun q hN hqm hne => ?_) ?_ (fun q hq hqm => ?_) (fun o ho => ?_)
    fun _ => hlen
  · rcases eq_or_ne q.1 i with h | h
    · obtain ⟨_, b⟩ := q
      obtain rfl : _ = i := h
      show slot _ (ino _) b = slot _ (ino _) b
      unfold slot
      split
      · rfl
      split
      · refine Bytes.word_congr fun r hr => ?_
        have hbk : b ≠ ndirect + k := fun h => hne (by rw [h])
        unfold wordOff
        rcases Nat.lt_or_gt_of_ne hbk with h | h
        · exact Bytes.write_of_lt (by omega)
        · exact Bytes.write_of_le (by rw [Bytes.length_leBytes]; omega)
      · rfl
    · refine slot_congr (fun _ _ => rfl) fun h0 => write_word_sameBlock hk fun heq => h ?_
      have hpair := hH.owned.injOn (hH.indirect_mem hN h0) (hH.indirect_mem hi hb) (by
        rw [addr, slot_indirect, addr, slot_indirect]
        exact heq)
      exact congrArg Prod.fst hpair
  · rw [addr, slot_entry hd hm hb, hsub]
    exact Bytes.word_write hlt
  · refine write_word_sameBlock hk fun heq => ?_
    refine hH.indirect_ne hi hb hq (fun hpair => ?_) heq.symm
    rw [hpair] at hqm
    exact lt_irrefl _ hqm
  · rw [Bytes.write_of_le]
    · exact hH.clear o ho
    · have hk : k < 128 := hk
      rw [Bytes.length_leBytes]
      unfold wordOff bsize at *
      omega

/-! ### The block for an offset -/

/-- The slots of `N` inodes that have `nb i` blocks each. -/
def slotsOf (nb : ℕ → ℕ) (N : ℕ) : Set (ℕ × ℕ) :=
  {p | p.1 < N ∧ (p.2 < nb p.1 ∨ p.2 = maxfile ∧ ndirect < nb p.1)}

/-- The number of slots of a file of `n` blocks. -/
def slotCount (n : ℕ) : ℕ := if ndirect < n then n + 1 else n

/-- The state `s'` is `s` with `k` more blocks; blocks below 29 are unchanged. -/
structure Grows (s s' : Fs) (k : ℕ) : Prop where
  freeblock : s'.freeblock = s.freeblock + k
  usedblocks : s'.usedblocks = s.usedblocks + k
  freeinode : s'.freeinode = s.freeinode
  low : ∀ o < bsize * 29, s'.img o = s.img o

theorem Grows.refl (s : Fs) : Grows s s 0 := ⟨rfl, rfl, rfl, fun _ _ => rfl⟩

theorem Grows.trans {s s' s'' : Fs} {m n : ℕ} (h : Grows s s' m) (h' : Grows s' s'' n) :
    Grows s s'' (m + n) :=
  ⟨by rw [h'.freeblock, h.freeblock, Nat.add_assoc],
    by rw [h'.usedblocks, h.usedblocks, Nat.add_assoc], h'.freeinode.trans h.freeinode,
    fun o ho => (h'.low o ho).trans (h.low o ho)⟩

section Blocks

variable {nb : ℕ → ℕ} {s : Fs}

theorem notMem_slotsOf (h : nb i ≤ b) (hb : b < maxfile) : (i, b) ∉ slotsOf nb N := by
  rintro ⟨-, hlt | ⟨heq, -⟩⟩
  · exact absurd h (not_le.2 hlt)
  · exact absurd heq (Nat.ne_of_lt hb)

theorem slotsOf_update_succ (hi : i < N) (hne : nb i ≠ ndirect) :
    slotsOf (Function.update nb i (nb i + 1)) N = insert (i, nb i) (slotsOf nb N) := by
  ext ⟨j, b⟩
  rcases eq_or_ne j i with rfl | hj
  · simp only [slotsOf, Set.mem_ofPred_eq, Function.update_self, Set.mem_insert_iff,
      Prod.mk.injEq, true_and]
    omega
  · simp [slotsOf, hj]

theorem slotsOf_update_indirect (hi : i < N) (hnb : nb i = ndirect) :
    slotsOf (Function.update nb i (nb i + 1)) N =
      insert (i, nb i) (insert (i, maxfile) (slotsOf nb N)) := by
  ext ⟨j, b⟩
  rcases eq_or_ne j i with rfl | hj
  · simp only [slotsOf, Set.mem_ofPred_eq, Function.update_self, Set.mem_insert_iff,
      Prod.mk.injEq, true_and]
    omega
  · simp [slotsOf, hj]

/-- An entry of the indirect block is missing. -/
theorem needEntry_new (hH : Held ino s.img s.freeblock H c N) (hi : i < N) (hk : k < nindirect)
    (hb : (ino i).addrs ndirect ≠ 0) (hp : (i, ndirect + k) ∉ H) (hfree : 29 ≤ s.freeblock)
    (hlt : s.freeblock < 2 ^ 32) (hlen : (c i).length ≤ bsize * (ndirect + k)) :
    Held ino (needEntry ((ino i).addrs ndirect) k s).img
        (needEntry ((ino i).addrs ndirect) k s).freeblock (insert (i, ndirect + k) H) c N ∧
      Grows s (needEntry ((ino i).addrs ndirect) k s) 1 := by
  have hm : ndirect + k < maxfile := Nat.add_lt_add_left hk ndirect
  have h0 : s.img.word 4 (wordOff ((ino i).addrs ndirect) k) = 0 := by
    have hzero := hH.held (i, ndirect + k) hi hm.le hp
    rwa [addr, slot_entry (Nat.le_add_right _ _) hm hb, Nat.add_sub_cancel_left] at hzero
  rw [needEntry, if_pos h0]
  refine ⟨hH.take_entry hi hk hb h0 hfree hlt hlen, rfl, rfl, rfl, fun o ho => ?_⟩
  have hrange := (hH.indirect_lt hi hb).1
  refine Bytes.write_of_lt ?_
  unfold wordOff bsize at *
  omega

/-- The block is there. -/
theorem blockFor_old (hH : Held (Function.update ino i d) s.img s.freeblock (slotsOf nb N) c N)
    (hi : i < N) (hb : b < nb i) (hm : b < maxfile) (hle : s.freeblock ≤ 1024) :
    blockFor b s d = some (slot s.img d b, s, d) := by
  have hmem : (i, b) ∈ slotsOf nb N := ⟨hi, .inl hb⟩
  have hne := hH.ne_zero hmem
  rw [addr_update_self] at hne
  rcases lt_or_ge b ndirect with hd | hd
  · rw [slot_direct hd] at hne
    have haddr : needAddr b s d = (s, d) := if_neg hne
    rw [blockFor, if_pos hd, haddr, slot_direct hd]
  · have hind : d.addrs ndirect ≠ 0 := by
      have hmem : (i, maxfile) ∈ slotsOf nb N := ⟨hi, .inr ⟨rfl, lt_of_le_of_lt hd hb⟩⟩
      have hne := hH.ne_zero hmem
      rwa [addr_update_self, slot_indirect] at hne
    rw [slot_entry hd hm hind] at hne
    have haddr : needAddr ndirect s d = (s, d) := if_neg hind
    have hentry : needEntry (d.addrs ndirect) (b - ndirect) s = s := if_neg hne
    have hrange := hH.indirect_lt hi (by rwa [Function.update_self])
    rw [Function.update_self] at hrange
    rw [blockFor, if_neg (not_lt.2 hd), haddr, slot_entry hd hm hind]
    dsimp only
    rw [rsect_eq (by omega), hentry]
    rfl

/-- The block is a new one. -/
theorem blockFor_new (hH : Held (Function.update ino i d) s.img s.freeblock (slotsOf nb N) c N)
    (hi : i < N) (hm : nb i < maxfile) (hlen : (c i).length ≤ bsize * nb i)
    (hfree : 29 ≤ s.freeblock)
    (hfit : s.freeblock + (slotCount (nb i + 1) - slotCount (nb i)) ≤ 1024) :
    ∃ s' d', blockFor (nb i) s d = some (slot s'.img d' (nb i), s', d') ∧
      Held (Function.update ino i d') s'.img s'.freeblock
        (slotsOf (Function.update nb i (nb i + 1)) N) c N ∧
      Grows s s' (slotCount (nb i + 1) - slotCount (nb i)) ∧
      d'.type = d.type ∧ d'.nlink = d.nlink ∧ d'.size = d.size := by
  have hnew : (i, nb i) ∉ slotsOf nb N := notMem_slotsOf le_rfl hm
  rcases lt_or_ge (nb i) ndirect with hd | hd
  · have h0 : d.addrs (nb i) = 0 := by
      have hzero := hH.held (i, nb i) hi hm.le hnew
      rwa [addr_update_self, slot_direct hd] at hzero
    have haddr : needAddr (nb i) s d = (takeBlock s,
        setAddr d (nb i) s.freeblock) := if_pos h0
    refine ⟨takeBlock s, setAddr d (nb i) s.freeblock, ?_, ?_, ?_, rfl, rfl, rfl⟩
    · rw [blockFor, if_pos hd, haddr, slot_direct hd]
    · rw [slotsOf_update_succ hi (Nat.ne_of_lt hd)]
      exact hH.take_direct hi hd h0 hfree hlen
    · have hcount : slotCount (nb i + 1) - slotCount (nb i) = 1 := by
        unfold slotCount
        rw [if_neg (by omega), if_neg (by omega)]
        omega
      rw [hcount]
      exact ⟨rfl, rfl, rfl, fun _ _ => rfl⟩
  obtain ⟨k, hk⟩ := Nat.exists_eq_add_of_le hd
  have hkm : k < nindirect := by
    unfold maxfile at hm
    omega
  have hsub : nb i - ndirect = k := by omega
  rcases eq_or_ne (nb i) ndirect with heq | hne
  · have hcount : slotCount (nb i + 1) - slotCount (nb i) = 1 + 1 := by
      unfold slotCount
      rw [heq, if_pos (Nat.lt_succ_self _), if_neg (lt_irrefl _)]
      omega
    rw [hcount] at hfit
    have hind : d.addrs ndirect = 0 := by
      have hout : (i, maxfile) ∉ slotsOf nb N := by
        rintro ⟨-, hlt | ⟨-, hlt⟩⟩
        · exact absurd hm (not_lt.2 hlt.le)
        · exact absurd heq (Nat.ne_of_gt hlt)
      have hzero := hH.held (i, maxfile) hi le_rfl hout
      rwa [addr_update_self, slot_indirect] at hzero
    have haddr : needAddr ndirect s d = (takeBlock s,
        setAddr d ndirect s.freeblock) := if_pos hind
    have hH' := hH.take_indirect hi hind hfree
    have hself : (Function.update ino i (setAddr d ndirect s.freeblock) i).addrs ndirect =
        s.freeblock := by
      rw [Function.update_self, setAddr_self]
    have hentry := needEntry_new (s := takeBlock s) hH' hi hkm (by rw [hself]; omega)
      (by
        rintro (hpair | hmem)
        · exact absurd (congrArg Prod.snd hpair) (by rw [← hk]; exact Nat.ne_of_lt hm)
        · exact hnew (hk ▸ hmem))
      (Nat.le_succ_of_le hfree) (show s.freeblock + 1 < 2 ^ 32 by omega) (hk ▸ hlen)
    rw [hself] at hentry
    refine ⟨needEntry s.freeblock k (takeBlock s), setAddr d ndirect s.freeblock, ?_, ?_, ?_, rfl,
      rfl,
      rfl⟩
    · rw [blockFor, if_neg (not_lt.2 hd), haddr]
      dsimp only
      rw [setAddr_self, hsub, rsect_eq (by omega), slot_entry hd hm (by rw [setAddr_self]; omega),
        setAddr_self, hsub]
      rfl
    · rw [slotsOf_update_indirect hi heq]
      rw [← hk] at hentry
      exact hentry.1
    · have htake : Grows s (takeBlock s) 1 := ⟨rfl, rfl, rfl, fun _ _ => rfl⟩
      rw [hcount]
      exact htake.trans hentry.2
  · have hlt : ndirect < nb i := lt_of_le_of_ne hd hne.symm
    have hcount : slotCount (nb i + 1) - slotCount (nb i) = 1 := by
      unfold slotCount
      rw [if_pos (by omega), if_pos hlt]
      omega
    rw [hcount] at hfit
    have hind : d.addrs ndirect ≠ 0 := by
      have hmem : (i, maxfile) ∈ slotsOf nb N := ⟨hi, .inr ⟨rfl, hlt⟩⟩
      have h0 := hH.ne_zero hmem
      rwa [addr_update_self, slot_indirect] at h0
    have haddr : needAddr ndirect s d = (s, d) := if_neg hind
    have hself : Function.update ino i d i = d := Function.update_self i d ino
    have hentry := needEntry_new hH hi hkm (by rwa [hself]) (hk ▸ hnew) hfree (by omega) (hk ▸ hlen)
    rw [hself, ← hk] at hentry
    have hrange := hH.indirect_lt hi (by rwa [hself])
    rw [hself] at hrange
    refine ⟨needEntry (d.addrs ndirect) k s, d, ?_, ?_, ?_, rfl, rfl, rfl⟩
    · rw [blockFor, if_neg (not_lt.2 hd), haddr]
      dsimp only
      rw [hsub, rsect_eq (by omega), slot_entry hd hm hind, hsub]
      rfl
    · rw [slotsOf_update_succ hi hne]
      exact hentry.1
    · rw [hcount]
      exact hentry.2

end Blocks

/-! ### Appending -/

/-- The number of blocks of `n` bytes. -/
def dataBlocks (n : ℕ) : ℕ := (n + (bsize - 1)) / bsize

/-- The blocks that a file of `n` bytes takes, the indirect block included. -/
def cost (n : ℕ) : ℕ := slotCount (dataBlocks n)

theorem cost_mono {m n : ℕ} (h : m ≤ n) : cost m ≤ cost n := by
  have hle : dataBlocks m ≤ dataBlocks n := Nat.div_le_div_right (by omega)
  unfold cost slotCount
  split <;> split <;> omega

/-- The blocks of each inode. -/
def blocksOf (c : ℕ → List UInt8) (i : ℕ) : ℕ := dataBlocks (c i).length

theorem blocksOf_update {l : List UInt8} : blocksOf (Function.update c i l) =
    Function.update (blocksOf c) i (dataBlocks l.length) := by
  funext j
  rcases eq_or_ne j i with rfl | hj
  · rw [blocksOf, Function.update_self, Function.update_self]
  · rw [blocksOf, Function.update_of_ne hj, Function.update_of_ne hj, blocksOf]

/-- The first `N` inodes of the table `ino` have the contents `c`. -/
def Stores (ino : ℕ → Dinode) (s : Fs) (c : ℕ → List UInt8) (N : ℕ) : Prop :=
  Held ino s.img s.freeblock (slotsOf (blocksOf c) N) c N

section Append

variable {s : Fs} {off : ℕ} {l : List UInt8}

/-- More bytes in the last block of a file. -/
theorem Held.append (hH : Held ino img free H c N) (hp : (i, b) ∈ H) (hb : b < maxfile)
    (hle : bsize * b ≤ (c i).length) (hlen : (c i).length + l.length ≤ bsize * (b + 1)) :
    Held ino (img.write (bsize * addr ino img (i, b) + ((c i).length - bsize * b)) l) free H
      (Function.update c i (c i ++ l)) N := by
  obtain ⟨r, hr⟩ := Nat.exists_eq_add_of_le hle
  have hsub : (c i).length - bsize * b = r := by omega
  have hmul : bsize * (b + 1) = bsize * b + bsize := Nat.mul_succ _ _
  rw [hsub]
  refine hH.write hp hb (fun y hy r' hr' => ?_) (fun r' hr' => ?_) fun q hq r' hr' => ?_
  · rcases Nat.lt_or_gt_of_ne hy with h | h
    · refine Bytes.write_of_lt ?_
      have hmul := Nat.mul_le_mul_left bsize (Nat.succ_le_of_lt h)
      rw [Nat.mul_succ] at hmul
      omega
    · refine Bytes.write_of_le ?_
      have hmul := Nat.mul_le_mul_left bsize (Nat.succ_le_of_lt h)
      rw [Nat.mul_succ] at hmul
      omega
  · rw [Function.update_self]
    rcases lt_or_ge r' r with h | h
    · rw [Bytes.write_of_lt (by omega), hH.data _ hp hb r' hr',
        List.getD_append _ _ _ _ (by dsimp only; omega)]
    obtain ⟨t, rfl⟩ := Nat.exists_eq_add_of_le h
    have hidx : bsize * b + (r + t) = (c i).length + t := by omega
    rw [← Nat.add_assoc, ← Nat.add_assoc] at *
    rcases lt_or_ge t l.length with ht | ht
    · rw [Bytes.write_inside ht]
      show l.getD t 0 = (c i ++ l).getD (bsize * b + r + t) 0
      rw [hidx, List.getD_append_right _ _ _ _ (Nat.le_add_right _ _), Nat.add_sub_cancel_left]
    · rw [Bytes.write_of_le (by omega), List.getD_eq_default _ _ (by
        rw [List.length_append]
        dsimp only
        omega)]
      have hdata := hH.data _ hp hb (r + t) (by omega)
      rw [← Nat.add_assoc] at hdata
      rw [hdata, List.getD_eq_default _ _ (by dsimp only; omega)]
  · rcases eq_or_ne q.1 i with h | h
    · obtain ⟨_, b'⟩ := q
      obtain rfl : _ = i := h
      have hne : b' ≠ b := fun heq => hq (by rw [heq])
      rw [Function.update_self]
      dsimp only at *
      rcases Nat.lt_or_gt_of_ne hne with h | h
      · have hmul := Nat.mul_le_mul_left bsize (Nat.succ_le_of_lt h)
        rw [Nat.mul_succ] at hmul
        exact List.getD_append _ _ _ _ (by omega)
      · have hmul' := Nat.mul_le_mul_left bsize (Nat.succ_le_of_lt h)
        rw [Nat.mul_succ] at hmul'
        rw [List.getD_eq_default _ _ (by rw [List.length_append]; omega),
          List.getD_eq_default _ _ (by omega)]
    · rw [Function.update_of_ne h]

/-- The block for the end of a file. -/
theorem blockFor_spec (hS : Stores (Function.update ino i d) s c N) (hi : i < N)
    (hoff : off = (c i).length) (hm : off / bsize < maxfile) (hfree : 29 ≤ s.freeblock)
    (hfit : s.freeblock + (slotCount (off / bsize + 1) - slotCount (blocksOf c i)) ≤ 1024) :
    ∃ s' d', blockFor (off / bsize) s d = some (slot s'.img d' (off / bsize), s', d') ∧
      Held (Function.update ino i d') s'.img s'.freeblock
        (slotsOf (Function.update (blocksOf c) i (off / bsize + 1)) N) c N ∧
      Grows s s' (slotCount (off / bsize + 1) - slotCount (blocksOf c i)) ∧
      d'.type = d.type ∧ d'.nlink = d.nlink ∧ d'.size = d.size := by
  have hblocks : blocksOf c i = (off + 511) / 512 := by
    rw [blocksOf, dataBlocks, hoff]
    rfl
  have hdiv : off / bsize = off / 512 := rfl
  by_cases h0 : off % 512 = 0
  · have heq : blocksOf c i = off / bsize := by omega
    have hnew :=
      blockFor_new hS hi (by rw [heq]; exact hm) (by rw [heq, ← hoff]; unfold bsize; omega)
      hfree (by rwa [heq] at hfit ⊢)
    rw [heq] at hnew ⊢
    exact hnew
  · have heq : blocksOf c i = off / bsize + 1 := by omega
    refine ⟨s, d, blockFor_old hS hi (by omega) hm (by omega), ?_, ?_, rfl, rfl, rfl⟩
    · rw [← heq, Function.update_eq_self]
      exact hS
    · rw [heq, Nat.sub_self]
      exact .refl s

/-- One turn of the loop of `iappend`. -/
theorem turn_spec (hS : Stores (Function.update ino i d) s c N) (hi : i < N)
    (hoff : off = (c i).length) (hm : off / bsize < maxfile) (hfree : 29 ≤ s.freeblock)
    (hl : 0 < l.length) (hfit : off + l.length ≤ (off / bsize + 1) * bsize)
    (hroom : s.freeblock + (cost (off + l.length) - cost off) ≤ 1024) :
    ∃ x s' d', blockFor (off / bsize) s d = some (x, s', d') ∧ x < 1024 ∧
      Stores (Function.update ino i d')
        (put (bsize * x + (off - off / bsize * bsize)) l s') (Function.update c i (c i ++ l)) N ∧
      Grows s (put (bsize * x + (off - off / bsize * bsize)) l s')
        (cost (off + l.length) - cost off) ∧
      d'.type = d.type ∧ d'.nlink = d.nlink ∧ d'.size = d.size := by
  have hdata : dataBlocks (off + l.length) = off / bsize + 1 := by
    unfold dataBlocks bsize at *
    omega
  rw [cost, hdata, cost] at hroom
  obtain ⟨s', d', hblock, hH, hgrows, hhead⟩ := blockFor_spec hS hi hoff hm hfree
    (by rw [blocksOf, ← hoff]; exact hroom)
  have hdiv : bsize * (off / bsize) ≤ off := Nat.mul_div_le off bsize
  have hmem : (i, off / bsize) ∈ slotsOf (Function.update (blocksOf c) i (off / bsize + 1)) N :=
    ⟨hi, .inl (by rw [Function.update_self]; exact Nat.lt_succ_self _)⟩
  have happend := hH.append hmem hm (by omega) (l := l) (by rw [← hoff, Nat.mul_comm]; exact hfit)
  have hslot : addr (Function.update ino i d') s'.img (i, off / bsize) =
      slot s'.img d' (off / bsize) :=
    addr_update_self
  rw [hslot, ← hoff, Nat.mul_comm bsize (off / bsize)] at happend
  have hrange := hH.mem_Ico hmem
  rw [hslot] at hrange
  have hgb := hgrows.freeblock
  rw [blocksOf, ← hoff] at hgb
  refine ⟨_, s', d', hblock, by omega, ?_, ?_, hhead⟩
  · rw [Stores, blocksOf_update, List.length_append, ← hoff, hdata]
    exact happend
  · rw [cost, hdata, cost, hoff]
    refine ⟨?_, ?_, hgrows.freeinode, fun o ho => ?_⟩
    · rw [← hoff]
      exact hgrows.freeblock.trans (by rw [blocksOf, ← hoff])
    · rw [← hoff]
      exact hgrows.usedblocks.trans (by rw [blocksOf, ← hoff])
    · rw [← hoff]
      refine (Bytes.write_of_lt ?_).trans (hgrows.low o ho)
      unfold bsize at *
      omega

theorem appendLoop_nil : appendLoop s d off [] = some (s, d, off) := by
  rw [appendLoop, if_pos rfl]

/-- The first turn and the others. -/
theorem appendLoop_cons {s' : Fs} (hl : l ≠ []) (hm : off / bsize < maxfile)
    (hblock : blockFor (off / bsize) s d = some (x, s', d')) (hx : x < 1024) :
    appendLoop s d off l = appendLoop
      (put (bsize * x + (off - off / bsize * bsize))
        (l.take (min l.length ((off / bsize + 1) * bsize - off))) s')
      d' (off + min l.length ((off / bsize + 1) * bsize - off))
      (l.drop (min l.length ((off / bsize + 1) * bsize - off))) := by
  rw [appendLoop, if_neg hl]
  dsimp only
  rw [if_pos hm, hblock]
  simp only [Option.bind_eq_bind, Option.bind_some, rsect_eq hx]

/-- The loop of `iappend`. -/
theorem appendLoop_spec (hS : Stores (Function.update ino i d) s c N) (hi : i < N)
    (hoff : off = (c i).length) (hmax : off + l.length ≤ bsize * maxfile) (hfree : 29 ≤ s.freeblock)
    (hfit : s.freeblock + (cost (off + l.length) - cost off) ≤ 1024) :
    ∃ s' d', appendLoop s d off l = some (s', d', off + l.length) ∧
      Stores (Function.update ino i d') s' (Function.update c i (c i ++ l)) N ∧
      Grows s s' (cost (off + l.length) - cost off) ∧
      d'.type = d.type ∧ d'.nlink = d.nlink ∧ d'.size = d.size := by
  induction hn : l.length using Nat.strong_induction_on generalizing s d off c l with
  | _ n ih =>
    rcases eq_or_ne l [] with rfl | hl
    · obtain rfl : n = 0 := hn.symm
      refine ⟨s, d, appendLoop_nil, ?_, ?_, rfl, rfl, rfl⟩
      · rw [List.append_nil, Function.update_eq_self]
        exact hS
      · rw [Nat.add_zero, Nat.sub_self]
        exact .refl s
    have hpos : 0 < l.length := List.length_pos_iff.2 hl
    have hm : off / bsize < maxfile := (Nat.div_lt_iff_lt_mul (by decide)).2 (by
      rw [Nat.mul_comm]
      omega)
    have hroom : off < (off / bsize + 1) * bsize := by
      unfold bsize
      omega
    generalize hn₁ : min l.length ((off / bsize + 1) * bsize - off) = n₁
    have hle : n₁ ≤ l.length := by omega
    have htake : (l.take n₁).length = n₁ := by rw [List.length_take, min_eq_left hle]
    have hdrop : (l.drop n₁).length = l.length - n₁ := List.length_drop
    have hmono : cost off ≤ cost (off + n₁) ∧ cost (off + n₁) ≤ cost (off + l.length) :=
      ⟨cost_mono (by omega), cost_mono (by omega)⟩
    obtain ⟨x, s', d', hblock, hx, hS', hgrows, hty, hnl, hsz⟩ :=
      turn_spec (l := l.take n₁) hS hi hoff
      hm hfree (by omega) (by omega) (by rw [htake]; omega)
    rw [htake] at hgrows
    have hsum : off + n₁ + (l.drop n₁).length = off + l.length := by omega
    have hgb := hgrows.freeblock
    obtain ⟨s'', d'', hloop, hS'', hgrows', hty', hnl', hsz'⟩ :=
      ih (l.drop n₁).length (by omega) hS'
      (by rw [Function.update_self, List.length_append, htake, ← hoff]) (by omega)
      (by rw [hgb]; omega) (by rw [hsum, hgb]; omega) rfl
    rw [hsum] at hloop hgrows'
    refine ⟨s'', d'', ?_, ?_, ?_, hty'.trans hty, hnl'.trans hnl, hsz'.trans hsz⟩
    · rw [appendLoop_cons hl hm hblock hx, hn₁, hloop, hn]
    · rw [Function.update_self, Function.update_idem, List.append_assoc,
        List.take_append_drop] at hS''
      exact hS''
    · have hg := hgrows.trans hgrows'
      rw [show cost (off + n₁) - cost off + (cost (off + l.length) - cost (off + n₁)) =
        cost (off + l.length) - cost off by omega, hn] at hg
      exact hg

end Append

end OsProjects.Mkfs
