import OsProjects.Kernel.Blocks

/-!
# Allocating blocks

What `balloc` returns (`balloc_spec`), and what a file system is after blocks have been allocated
for some slots (`Extended`): the slots in use are those and the ones before, which keep their
blocks, and the new blocks are empty.  `bmap` allocates the slots of one block of a file, as far as
they are missing (`bmap_spec`).
-/

namespace OsProjects.Kernel

open Fsck Mkfs

variable {ino ino' ino'' : ℕ → Dinode} {img img' img'' : Image} {H S T : Set (ℕ × ℕ)} {U : Set ℕ}
  {i j b k n x y o : ℕ} {p q : ℕ × ℕ} {d : Dinode} {ip : Inode}

/-! ### A free block -/

/-- `balloc` returns the first free block. -/
theorem balloc_first (hsb : img.superblock = mkfsSuperblock) (hx : x < bpb)
    (hfree : img.marked x = false) (hfirst : ∀ y < x, img.marked y = true) :
    balloc img = some (x, setMark x img) := by
  have hfind : freeBit mkfsSuperblock img 0 = some x := by
    unfold freeBit
    refine List.find?_range_eq_some.2 ⟨?_, List.mem_range.2 hx, fun y hy => ?_⟩
    · rw [Nat.zero_add, isFree_eq hx, hfree]
      rfl
    · rw [Nat.zero_add, isFree_eq (hy.trans hx), hfirst y hy]
      rfl
  have hgroups : (List.range ((mkfsSuperblock.size + bpb - 1) / bpb)).map (bpb * ·) = [0] := by
    decide
  have hloop : ballocLoop mkfsSuperblock img [0] = some x := by
    simp only [ballocLoop, hfind, Nat.zero_add]
  rw [balloc, hsb, hgroups, hloop]
  rfl

theorem balloc_spec (hO : Owns ino img H) (hlt : H.ncard < 995) :
    ∃ x, balloc img = some (x, setMark x img) ∧ 29 ≤ x ∧ x < 1024 ∧ img.marked x = false := by
  obtain ⟨y, hy, hfree⟩ := hO.exists_free hlt
  have hex : ∃ y, img.marked y = false := ⟨y, hfree⟩
  classical
  refine ⟨Nat.find hex, ?_, hO.le_of_free (Nat.find_spec hex),
    (Nat.find_min' hex hfree).trans_lt hy,
    Nat.find_spec hex⟩
  refine balloc_first hO.superblock ?_ (Nat.find_spec hex) fun z hz => ?_
  · exact ((Nat.find_min' hex hfree).trans_lt hy).trans (by decide)
  · have := Nat.find_min hex hz
    simpa using this

theorem setMark_sameBlock (hx : x < 1024) (hy : 29 ≤ y) : Mkfs.SameBlock img (setMark x img) y := by
  intro r _
  refine setMark_outside (hx.trans (by decide)) (.inr ?_)
  exact (Nat.mul_le_mul_left bsize hy).trans (Nat.le_add_right _ _)

theorem superblock_low (h : ∀ o < bsize * 28, img' o = img o) : img'.superblock = img.superblock :=
  superblock_congr fun o ho => h o (by unfold bsize at *; omega)

/-! ### More slots -/

/-- From `ino`, `img` to `ino'`, `img'` the slots `S` have been allocated where they were not in
use. -/
structure Extended (ino : ℕ → Dinode) (img : Image) (ino' : ℕ → Dinode) (img' : Image) (U : Set ℕ)
    (S : Set (ℕ × ℕ)) : Prop where
  owns : Owns ino' img' (live ino' img' U)
  live : live ino' img' U = live ino img U ∪ S
  kept : ∀ q ∈ Kernel.live ino img U, addr ino' img' q = addr ino img q
  same : ∀ q ∈ Kernel.live ino img U, q.2 < maxfile → Mkfs.SameBlock img img' (addr ino img q)
  zero : ∀ q ∈ S, q ∉ Kernel.live ino img U → q.2 < maxfile →
    ∀ r < bsize, img' (bsize * addr ino' img' q + r) = 0
  low : ∀ o < bsize * 28, img' o = img o

theorem mem_live : p ∈ live ino img U ↔ p.1 ∈ U ∧ p.2 ≤ maxfile ∧ addr ino img p ≠ 0 := Iff.rfl

namespace Extended

theorem refl (hO : Owns ino img (Kernel.live ino img U)) (hS : S ⊆ Kernel.live ino img U) :
    Extended ino img ino img U S :=
  ⟨hO, (Set.union_eq_left.2 hS).symm, fun _ _ => rfl, fun _ _ _ => sameBlock_refl,
    fun _ hq hn => absurd (hS hq) hn, fun _ _ => rfl⟩

theorem trans (h : Extended ino img ino' img' U S) (h' : Extended ino' img' ino'' img'' U T) :
    Extended ino img ino'' img'' U (S ∪ T) := by
  have hsub : ∀ q ∈ Kernel.live ino img U, q ∈ Kernel.live ino' img' U := fun q hq => by
    rw [h.live]
    exact .inl hq
  refine ⟨h'.owns, by rw [h'.live, h.live, Set.union_assoc], fun q hq => ?_, fun q hq hm r hr => ?_,
    fun q hq hn hm r hr => ?_, fun o ho => (h'.low o ho).trans (h.low o ho)⟩
  · rw [h'.kept q (hsub q hq), h.kept q hq]
  · have hsame := h'.same q (hsub q hq) hm r hr
    rw [h.kept q hq] at hsame
    rw [hsame, h.same q hq hm r hr]
  · by_cases hS : q ∈ S
    · have hq' : q ∈ Kernel.live ino' img' U := by
        rw [h.live]
        exact .inr hS
      rw [h'.kept q hq', h'.same q hq' hm r hr]
      exact h.zero q hS hn hm r hr
    · have hT : q ∈ T := hq.resolve_left hS
      refine h'.zero q hT (fun hq' => ?_) hm r hr
      rw [h.live] at hq'
      exact hq'.elim hn hS

end Extended

/-- A free block for a slot without one. -/
theorem Owns.extend (hO : Owns ino img (live ino img U)) (hp : p.1 ∈ U) (hm : p.2 ≤ maxfile)
    (h0 : addr ino img p = 0) (hx : x < 1024) (hfree : img.marked x = false)
    (hmark : ∀ y < 1024, img'.marked y = (img.marked y || decide (y = x)))
    (hnew : addr ino' img' p = x)
    (hother : ∀ q : ℕ × ℕ, q.1 ∈ U → q.2 ≤ maxfile → q ≠ p → addr ino' img' q = addr ino img q)
    (hsame : ∀ y, 29 ≤ y → (∀ k, (k, maxfile) ∈ live ino img U → y ≠ addr ino img (k, maxfile)) →
      Mkfs.SameBlock img img' y)
    (hlow : ∀ o < bsize * 28, img' o = img o) : Extended ino img ino' img' U {p} := by
  have hx0 : x ≠ 0 := by
    have := hO.le_of_free hfree
    omega
  have hpl : p ∉ live ino img U := fun h => h.2.2 h0
  have hkept : ∀ q ∈ live ino img U, addr ino' img' q = addr ino img q := fun q hq =>
    hother q hq.1 hq.2.1 fun heq => hpl (heq ▸ hq)
  have hlive : live ino' img' U = insert p (live ino img U) := by
    ext q
    rw [Set.mem_insert_iff, mem_live, mem_live]
    by_cases hqp : q = p
    · subst hqp
      simp only [hnew, true_or, iff_true]
      exact ⟨hp, hm, hx0⟩
    · constructor
      · rintro ⟨hq, hqm, hne⟩
        rw [hother q hq hqm hqp] at hne
        exact .inr ⟨hq, hqm, hne⟩
      · rintro (h | ⟨hq, hqm, hne⟩)
        · exact absurd h hqp
        · exact ⟨hq, hqm, by rwa [hother q hq hqm hqp]⟩
  have hfreeSame : ∀ y < 1024, img.marked y = false → Mkfs.SameBlock img img' y := fun y _ hy =>
    hsame y (hO.le_of_free hy) fun k hk => (hO.ne_addr hy hk).symm
  refine ⟨?_, by rw [hlive, Set.union_singleton], hkept, fun q hq hqm => ?_,
    fun q hq _ _ r hr => ?_,
    hlow⟩
  · rw [hlive]
    exact hO.take hx hfree (superblock_low hlow) hmark hkept hnew fun y hy h _ => hfreeSame y hy h
  · refine hsame _ (hO.mem_marks hq).1 fun k hk heq => ?_
    have := hO.owned.injOn hq hk heq
    rw [this] at hqm
    exact lt_irrefl _ hqm
  · rw [Set.mem_singleton_iff.1 hq, hnew, hfreeSame x hx hfree r hr]
    exact hO.clear x hx hfree r hr

/-! ### The addresses of an inode -/

/-- Word `k` of block `b` is set to `x`. -/
def setEntry (b k x : ℕ) (img : Image) : Image := img.write (wordOff b k) (Bytes.leBytes 4 x)

section Inode

variable (hO : Owns ino img (live ino img U)) (hi : i ∈ U)

include hO hi

omit hO in
theorem live_indirect (h0 : (ino i).addrs ndirect ≠ 0) : (i, maxfile) ∈ live ino img U :=
  ⟨hi, le_rfl, by rwa [addr, slot_indirect]⟩

theorem indirect_range (h0 : (ino i).addrs ndirect ≠ 0) :
    29 ≤ (ino i).addrs ndirect ∧ (ino i).addrs ndirect < 1024 := by
  have h := hO.mem_marks (live_indirect hi h0)
  rw [addr, slot_indirect] at h
  exact ⟨h.1, h.2.1⟩

/-- A new block for address `j` of an inode, a direct one or that of the indirect block. -/
theorem extend_addr (hj : j ≤ ndirect) (h0 : (ino i).addrs j = 0) (hx : x < 1024)
    (hfree : img.marked x = false) :
    Extended ino img (Function.update ino i (setAddr (ino i) j x)) (setMark x img) U
      {(i, if j = ndirect then maxfile else j)} := by
  have hbpb : x < bpb := hx.trans (by decide)
  have hslot : ∀ d : Dinode, ∀ img : Image,
      slot img d (if j = ndirect then maxfile else j) = d.addrs j := by
    intro d img
    split
    · rename_i h
      rw [slot_indirect, h]
    · exact slot_direct (by omega)
  have hsame : ∀ y, 29 ≤ y → Mkfs.SameBlock img (setMark x img) y :=
    fun y hy => setMark_sameBlock hx hy
  refine hO.extend hi ?_ ?_ hx hfree (fun y _ => marked_setMark hbpb) ?_ (fun q hq hqm hne => ?_)
    (fun y hy _ => hsame y hy) fun o ho => setMark_outside hbpb (.inl ho)
  · unfold maxfile
    dsimp only
    split <;> omega
  · rw [addr, hslot]
    exact h0
  · rw [addr_update_self, hslot]
    exact setAddr_self
  -- the words of an indirect block are not touched, and those of a new one are 0
  have hkept : ∀ (d : Dinode) (b : ℕ), (d.addrs ndirect ≠ 0 → 29 ≤ d.addrs ndirect) →
      slot (setMark x img) d b = slot img d b := fun d b h =>
    slot_congr (fun _ _ => rfl) fun h0 => hsame _ (h h0)
  obtain ⟨k, b⟩ := q
  have hind : (ino k).addrs ndirect ≠ 0 → 29 ≤ (ino k).addrs ndirect := fun h0 =>
    (indirect_range hO hq h0).1
  rcases eq_or_ne k i with rfl | hk
  · rw [addr_update_self, addr]
    have hb : b ≠ if j = ndirect then maxfile else j := fun h => hne (by rw [h])
    rcases lt_or_ge b ndirect with hd | hd
    · have hbj : b ≠ j := by
        rintro rfl
        rw [if_neg (by omega)] at hb
        exact hb rfl
      rw [slot_direct hd, slot_direct hd]
      exact setAddr_ne hbj
    · rcases eq_or_ne j ndirect with rfl | hjn
      · rw [if_pos rfl] at hb
        have hbm : b < maxfile := lt_of_le_of_ne hqm hb
        rw [slot_entry_zero hd hbm h0, slot_entry hd hbm (by
          rw [setAddr_self]
          have := hO.le_of_free hfree
          omega), setAddr_self]
        refine Bytes.word_zero fun r hr => ?_
        have hbk : b - ndirect < 128 := by
          unfold maxfile nindirect at hbm
          omega
        rw [wordOff, Nat.add_assoc, hsame x (hO.le_of_free hfree) _ (by unfold bsize; omega)]
        exact hO.clear x hx hfree _ (by unfold bsize; omega)
      · rw [← hkept (ino k) b hind]
        exact slot_of_indirect hd (setAddr_ne (Ne.symm hjn))
  · rw [addr_update_of_ne hk, addr, addr]
    exact hkept _ _ hind

omit hO hi in
theorem setEntry_of_ne (hb : b ≠ k) {r : ℕ} (hr : r < 4) :
    setEntry y k x img (wordOff y b + r) = img (wordOff y b + r) := by
  unfold setEntry wordOff
  rcases Nat.lt_or_gt_of_ne hb with h | h
  · exact Bytes.write_of_lt (by omega)
  · exact Bytes.write_of_le (by rw [Bytes.length_leBytes]; omega)

/-- A new block for an entry of the indirect block. -/
theorem extend_entry (hk : k < nindirect) (hb : (ino i).addrs ndirect ≠ 0)
    (h0 : img.word 4 (wordOff ((ino i).addrs ndirect) k) = 0) (hx : x < 1024)
    (hfree : img.marked x = false) :
    Extended ino img ino (setEntry ((ino i).addrs ndirect) k x (setMark x img)) U
      {(i, ndirect + k)} := by
  have hbpb : x < bpb := hx.trans (by decide)
  have hd : ndirect ≤ ndirect + k := Nat.le_add_right _ _
  have hm : ndirect + k < maxfile := Nat.add_lt_add_left hk ndirect
  have hsub : ndirect + k - ndirect = k := Nat.add_sub_cancel_left _ _
  have hrange := indirect_range hO hi hb
  have hk' : k < 128 := hk
  -- the entry is written behind the bitmap
  have hoff : ∀ o, o < bsize * 29 →
      setEntry ((ino i).addrs ndirect) k x (setMark x img) o = setMark x img o := fun o ho =>
    Bytes.write_of_lt (by unfold wordOff bsize at *; omega)
  have hmarked : ∀ y < 1024, (setEntry ((ino i).addrs ndirect) k x (setMark x img)).marked y =
      (img.marked y || decide (y = x)) := fun y hy => by
    rw [marked_congr (fun o _ ho => hoff o ho) (hy.trans (by decide)), marked_setMark hbpb]
  have hsame : ∀ y, 29 ≤ y → y ≠ (ino i).addrs ndirect →
      Mkfs.SameBlock img (setEntry ((ino i).addrs ndirect) k x (setMark x img)) y :=
    fun y hy hne r hr => (write_word_sameBlock hk hne r hr).trans (setMark_sameBlock hx hy r hr)
  refine hO.extend hi hm.le ?_ hx hfree hmarked ?_ (fun q hq hqm hne => ?_) (fun y hy h => ?_)
    fun o ho => ?_
  · rw [addr, slot_entry hd hm hb, hsub]
    exact h0
  · rw [addr, slot_entry hd hm hb, hsub]
    exact Bytes.word_write (hx.trans (by norm_num))
  · obtain ⟨m, b⟩ := q
    rcases eq_or_ne m i with rfl | hmi
    · have hbk : b ≠ ndirect + k := fun h => hne (by rw [h])
      rcases lt_or_ge b ndirect with hbd | hbd
      · rw [addr, addr, slot_direct hbd, slot_direct hbd]
      rcases eq_or_ne b maxfile with rfl | hbm
      · rw [addr, addr, slot_indirect, slot_indirect]
      have hbm : b < maxfile := lt_of_le_of_ne hqm hbm
      have hbn : b - ndirect < 128 := by
        unfold maxfile nindirect at hbm
        omega
      rw [addr, addr, slot_entry hbd hbm hb, slot_entry hbd hbm hb]
      refine Bytes.word_congr fun r hr => ?_
      rw [setEntry_of_ne (by omega) hr, wordOff, Nat.add_assoc]
      exact setMark_sameBlock hx hrange.1 _ (by unfold bsize; omega)
    · refine slot_congr (fun _ _ => rfl) fun h0 => hsame _ (indirect_range hO hq h0).1 fun heq =>
        hmi ?_
      have hpair := hO.owned.injOn (live_indirect hq h0) (live_indirect hi hb) (by
        rw [addr, slot_indirect, addr, slot_indirect]
        exact heq)
      exact congrArg Prod.fst hpair
  · refine hsame y hy fun heq => h i (live_indirect hi hb) ?_
    rw [addr, slot_indirect]
    exact heq
  · rw [hoff o (by unfold bsize at *; omega)]
    exact setMark_outside hbpb (.inl ho)

end Inode

/-! ### `bmap` -/

/-- The inodes agree but for their addresses. -/
structure SameHead (ip ip' : Inode) : Prop where
  type : ip'.type = ip.type
  nlink : ip'.nlink = ip.nlink
  size : ip'.size = ip.size
  major : ip'.major = ip.major
  minor : ip'.minor = ip.minor

theorem SameHead.refl (ip : Inode) : SameHead ip ip := ⟨rfl, rfl, rfl, rfl, rfl⟩

theorem SameHead.trans {ip ip' ip'' : Inode} (h : SameHead ip ip') (h' : SameHead ip' ip'') :
    SameHead ip ip'' :=
  ⟨h'.type.trans h.type, h'.nlink.trans h.nlink, h'.size.trans h.size, h'.major.trans h.major,
    h'.minor.trans h.minor⟩

/-- The slots of block `bn` of file `i`. -/
def needs (i bn : ℕ) : Set (ℕ × ℕ) := {p | p.1 = i ∧ (p.2 = bn ∨ p.2 = maxfile ∧ ndirect ≤ bn)}

theorem Owns.room (hO : Owns ino img (live ino img U)) (hp : p ∉ live ino img U)
    (h : (live ino img U ∪ {p}).ncard ≤ 995) : (live ino img U).ncard < 995 := by
  rw [Set.union_singleton, Set.ncard_insert_of_notMem hp hO.finite] at h
  omega

section Bmap

variable (hO : Owns ino img (live ino img U)) (hi : i ∈ U) (hip : ip.toDinode = ino i)

include hO hi hip

theorem bmapAddr_spec (hj : j ≤ ndirect)
    (hroom : (live ino img U ∪ {(i, if j = ndirect then maxfile else j)}).ncard ≤ 995) :
    ∃ ip' img', bmapAddr ip j img = some (ip', img') ∧
      Extended ino img (Function.update ino i ip'.toDinode) img' U
        {(i, if j = ndirect then maxfile else j)} ∧ SameHead ip ip' := by
  have hslot : addr ino img (i, if j = ndirect then maxfile else j) = ip.addrs j := by
    rw [addr, ← hip]
    split
    · rename_i h
      rw [slot_indirect, h]
    · exact slot_direct (by omega)
  have hle : (if j = ndirect then maxfile else j) ≤ maxfile := by
    unfold maxfile
    split <;> omega
  by_cases h0 : ip.addrs j = 0
  · have hp : (i, if j = ndirect then maxfile else j) ∉ live ino img U :=
      fun h => h.2.2 (hslot.trans h0)
    obtain ⟨x, hx, -, hlt, hfree⟩ := balloc_spec hO (hO.room hp hroom)
    refine ⟨withAddr ip j x, setMark x img, ?_, ?_, ⟨rfl, rfl, rfl, rfl, rfl⟩⟩
    · rw [bmapAddr, if_pos h0, hx]
      rfl
    · have hext := extend_addr hO hi hj (by rw [← hip]; exact h0) hlt hfree
      rw [← hip] at hext
      exact hext
  · refine ⟨ip, img, by rw [bmapAddr, if_neg h0]; rfl, ?_, SameHead.refl ip⟩
    rw [hip, Function.update_eq_self]
    refine Extended.refl hO (Set.singleton_subset_iff.2 ⟨hi, hle, ?_⟩)
    rwa [hslot]

theorem bmapEntry_spec (hk : k < nindirect) (hb : (ino i).addrs ndirect ≠ 0)
    (hroom : (live ino img U ∪ {(i, ndirect + k)}).ncard ≤ 995) :
    ∃ img', bmapEntry (ip.addrs ndirect) k img = some (addr ino img' (i, ndirect + k), img') ∧
      Extended ino img ino img' U {(i, ndirect + k)} := by
  have hd : ndirect ≤ ndirect + k := Nat.le_add_right _ _
  have hm : ndirect + k < maxfile := Nat.add_lt_add_left hk ndirect
  have hsub : ndirect + k - ndirect = k := Nat.add_sub_cancel_left _ _
  have haddr : ∀ img : Image, addr ino img (i, ndirect + k) =
      img.word 4 (wordOff ((ino i).addrs ndirect) k) := fun img => by
    rw [addr, slot_entry hd hm hb, hsub]
  have hind : ip.addrs ndirect = (ino i).addrs ndirect := by rw [← hip]
  rw [hind]
  by_cases h0 : img.word 4 (wordOff ((ino i).addrs ndirect) k) = 0
  · have hp : (i, ndirect + k) ∉ live ino img U := fun h => h.2.2 ((haddr img).trans h0)
    obtain ⟨x, hx, -, hlt, hfree⟩ := balloc_spec hO (hO.room hp hroom)
    refine ⟨setEntry ((ino i).addrs ndirect) k x (setMark x img), ?_,
      extend_entry hO hi hk hb h0 hlt hfree⟩
    rw [bmapEntry, if_pos h0, hx, haddr]
    have hword : (setEntry ((ino i).addrs ndirect) k x (setMark x img)).word 4
        (wordOff ((ino i).addrs ndirect) k) = x := Bytes.word_write (hlt.trans (by norm_num))
    rw [hword]
    rfl
  · refine ⟨img, ?_, Extended.refl hO (Set.singleton_subset_iff.2 ⟨hi, hm.le, ?_⟩)⟩
    · rw [bmapEntry, if_neg h0, haddr]
      rfl
    · rwa [haddr]

/-- **`bmap`** finds the block of a file, or allocates it. -/
theorem bmap_spec {bn : ℕ} (hbn : bn < maxfile)
    (hroom : (live ino img U ∪ needs i bn).ncard ≤ 995) :
    ∃ ip' img', bmap ip bn img =
        some (addr (Function.update ino i ip'.toDinode) img' (i, bn), ip', img') ∧
      Extended ino img (Function.update ino i ip'.toDinode) img' U (needs i bn) ∧
      SameHead ip ip' := by
  have hfin : (live ino img U ∪ needs i bn).Finite := by
    refine hO.finite.union ((Set.finite_singleton (i, bn)).insert (i, maxfile) |>.subset ?_)
    rintro ⟨k, b⟩ ⟨hk, hb | ⟨hb, -⟩⟩
    · right
      exact Prod.ext hk hb
    · left
      exact Prod.ext hk hb
  rcases lt_or_ge bn ndirect with hd | hd
  · have hneeds : needs i bn = {(i, if bn = ndirect then maxfile else bn)} := by
      rw [if_neg (Nat.ne_of_lt hd)]
      ext ⟨k, b⟩
      simp only [needs, Set.mem_ofPred_eq, Set.mem_singleton_iff, Prod.mk.injEq]
      omega
    rw [hneeds] at hroom ⊢
    obtain ⟨ip', img', heq, hext, hhead⟩ := bmapAddr_spec hO hi hip hd.le hroom
    refine ⟨ip', img', ?_, hext, hhead⟩
    rw [bmap, if_pos hd, heq, addr_update_self, slot_direct hd]
    rfl
  obtain ⟨k, rfl⟩ := Nat.exists_eq_add_of_le hd
  have hk : k < nindirect := by
    unfold maxfile at hbn
    omega
  have hsub : ndirect + k - ndirect = k := Nat.add_sub_cancel_left _ _
  have hneeds : needs i (ndirect + k) =
      {(i, if ndirect = ndirect then maxfile else ndirect)} ∪ {(i, ndirect + k)} := by
    rw [if_pos rfl]
    ext ⟨m, b⟩
    simp only [needs, Set.mem_ofPred_eq, Set.mem_union, Set.mem_singleton_iff, Prod.mk.injEq, hd]
    tauto
  have hfirst : (live ino img U ∪ {(i, if ndirect = ndirect then maxfile else ndirect)}).ncard ≤
      995 := by
    refine (Set.ncard_le_ncard ?_ hfin).trans hroom
    rw [hneeds]
    exact Set.union_subset_union_right _ Set.subset_union_left
  obtain ⟨ip₁, img₁, heq₁, hext₁, hhead₁⟩ := bmapAddr_spec hO hi hip le_rfl hfirst
  have hb : (Function.update ino i ip₁.toDinode i).addrs ndirect ≠ 0 := by
    have hmem : (i, maxfile) ∈ live (Function.update ino i ip₁.toDinode) img₁ U := by
      rw [hext₁.live, if_pos rfl]
      exact .inr rfl
    have hne := hmem.2.2
    rwa [addr, slot_indirect] at hne
  have hself : ip₁.toDinode = Function.update ino i ip₁.toDinode i :=
    (Function.update_self i ip₁.toDinode ino).symm
  obtain ⟨img₂, heq₂, hext₂⟩ := bmapEntry_spec hext₁.owns hi hself hk hb (by
    rw [hext₁.live, Set.union_assoc, ← hneeds]
    exact hroom)
  refine ⟨ip₁, img₂, ?_, ?_, hhead₁⟩
  · rw [bmap, if_neg (not_lt.2 hd), hsub, if_pos hk, heq₁, Option.bind_eq_bind, Option.bind_some]
    simp only [heq₂, Option.bind_eq_bind, Option.bind_some]
    rfl
  · rw [hneeds]
    exact hext₁.trans hext₂

end Bmap

end OsProjects.Kernel
