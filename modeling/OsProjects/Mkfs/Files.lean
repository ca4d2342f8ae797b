import OsProjects.Mkfs.Store

/-!
# Operations on files

What `ialloc`, `iappend`, `fixSize` and `balloc` do to an image under construction whose inodes hold
known contents (`Stored`).
-/

namespace OsProjects.Mkfs

open Fsck

variable {img img' : Image} {i j o : ℕ} {d d' d'' : Dinode} {s s' : Fs} {c : ℕ → List UInt8}
  {l : List UInt8}
  {ip : Inode}

/-! ### Inodes -/

/-- The fields of two inodes are the same. -/
structure Same (d d' : Dinode) : Prop where
  type : d.type = d'.type
  nlink : d.nlink = d'.nlink
  size : d.size = d'.size
  addrs : ∀ j ≤ ndirect, d.addrs j = d'.addrs j

theorem Same.refl (d : Dinode) : Same d d := ⟨rfl, rfl, rfl, fun _ _ => rfl⟩

theorem Same.trans (h : Same d d') (h' : Same d' d'') : Same d d'' :=
  ⟨h.type.trans h'.type, h.nlink.trans h'.nlink, h.size.trans h'.size,
    fun j hj => (h.addrs j hj).trans (h'.addrs j hj)⟩

/-- The values fit the fields of an inode. -/
structure Fits (d : Dinode) : Prop where
  type : d.type < 2 ^ 16
  nlink : d.nlink = 1
  size : d.size < 2 ^ 32
  addrs : ∀ j ≤ ndirect, d.addrs j < 2 ^ 32

theorem inodeOff_eq : inodeOff i = 2 * bsize + 64 * i := by
  unfold inodeOff i2b ipb bsize
  omega

theorem i2b_lt (h : i < 200) : i2b i < 1024 := by
  unfold i2b ipb
  omega

/-- The bytes of an inode are written. -/
def putInode (i : ℕ) (ip : Inode) (s : Fs) : Fs := put (inodeOff i) (bytes ip) s

theorem winode_eq (h : i < 200) : winode i ip s = some (putInode i ip s) := by
  rw [winode, rsect_eq (i2b_lt h)]
  rfl

theorem rinode_eq (h : i < 200) :
    ∃ ip, rinode i s = some ip ∧ ip.toDinode = s.img.dinode i := by
  refine ⟨_, by rw [rinode, rsect_eq (i2b_lt h)]; rfl, ?_⟩
  rw [inodeOff_eq]
  rfl

/-- A new inode. -/
def newInode (type : ℕ) (s : Fs) : Fs :=
  putInode s.freeinode ⟨⟨type, 1, 0, fun _ => 0⟩, 0, 0⟩ { s with freeinode := s.freeinode + 1 }

theorem ialloc_eq {type : ℕ} (h : s.freeinode < 200) :
    ialloc type s = some (s.freeinode, newInode type s) := by
  simp only [ialloc, winode_eq h]
  rfl

theorem length_bytes : (bytes ip).length = 64 := by
  rw [bytes, List.length_append, length_flatMap_const (Bytes.length_leBytes 2),
    length_flatMap_const (Bytes.length_leBytes 4)]
  simp [ndirect]

/-- Reading back what `winode` has written. -/
theorem dinode_of_holds (hF : Fits ip.toDinode) (h : img.Holds (2 * bsize + 64 * i) (bytes ip)) :
    Same (img.dinode i) ip.toDinode := by
  rw [bytes] at h
  have hleft := h.left
  have hright := h.right
  rw [length_flatMap_const (Bytes.length_leBytes 2)] at hright
  have htwo : ∀ k (hk : k < 4), img.word 2 (2 * bsize + 64 * i + 2 * k) = _ := fun k hk =>
    Bytes.word_of_words hleft hk
  have hfour : ∀ k (hk : k < 14), img.word 4 (2 * bsize + 64 * i + 8 + 4 * k) = _ := fun k hk =>
    Bytes.word_of_words hright (by
      rw [List.length_cons, List.length_map, List.length_range]
      exact hk)
  refine ⟨?_, ?_, ?_, fun j hj => ?_⟩
  · have hword := htwo 0 (by omega)
    rw [Nat.mul_zero, Nat.add_zero] at hword
    exact hword.trans (Nat.mod_eq_of_lt hF.type)
  · have hword := htwo 3 (by omega)
    show toShort (img.word 2 (2 * bsize + 64 * i + 2 * 3)) = ip.nlink
    rw [hword, hF.nlink]
    rfl
  · have hword := hfour 0 (by omega)
    rw [Nat.mul_zero, Nat.add_zero] at hword
    exact hword.trans (Nat.mod_eq_of_lt hF.size)
  · have hj' : j < 13 := Nat.lt_succ_of_le hj
    have hword := hfour (j + 1) (by omega)
    show img.word 4 (2 * bsize + 64 * i + 12 + 4 * j) = ip.addrs j
    rw [show 2 * bsize + 64 * i + 12 + 4 * j = 2 * bsize + 64 * i + 8 + 4 * (j + 1) by omega, hword,
      List.getD_cons_succ,
      List.getD_eq_getElem _ _ (by rw [List.length_map, List.length_range]; exact hj'),
      List.getElem_map, List.getElem_range]
    exact Nat.mod_eq_of_lt (hF.addrs j hj)

/-- An inode depends on its own 64 bytes. -/
theorem dinode_congr (h : ∀ o, 2 * bsize + 64 * i ≤ o → o < 2 * bsize + 64 * i + 64 →
    img' o = img o) : Same (img'.dinode i) (img.dinode i) := by
  have hword : ∀ w k, k + w ≤ 64 → img'.word w (2 * bsize + 64 * i + k) =
      img.word w (2 * bsize + 64 * i + k) := fun w k hk =>
    Bytes.word_congr fun r hr => h _ (by omega) (by omega)
  refine ⟨hword 2 0 (by omega), congrArg toShort (hword 2 6 (by omega)), hword 4 8 (by omega),
    fun j hj => ?_⟩
  have hj : j ≤ 12 := hj
  show img'.word 4 (2 * bsize + 64 * i + 12 + 4 * j) = img.word 4 (2 * bsize + 64 * i + 12 + 4 * j)
  rw [Nat.add_assoc]
  exact hword 4 (12 + 4 * j) (by omega)

theorem putInode_self (hF : Fits ip.toDinode) :
    Same ((putInode i ip s).img.dinode i) ip.toDinode := by
  refine dinode_of_holds hF ?_
  rw [← inodeOff_eq]
  exact Bytes.holds_write

theorem putInode_outside (h : o < 2 * bsize + 64 * i ∨ 2 * bsize + 64 * i + 64 ≤ o) :
    (putInode i ip s).img o = s.img o := by
  show s.img.write (inodeOff i) (bytes ip) o = s.img o
  rw [inodeOff_eq]
  rcases h with h | h
  · exact Bytes.write_of_lt h
  · exact Bytes.write_of_le (by rwa [length_bytes])

theorem putInode_of_ne (h : j ≠ i) : Same ((putInode i ip s).img.dinode j) (s.img.dinode j) :=
  dinode_congr fun o h₁ h₂ => putInode_outside (by omega)

/-! ### The state -/

/-- The image that `mkfs` makes. -/
def fresh : Fs where
  img := Bytes.write (fun _ => 0) bsize mkfsSuperblock.bytes
  freeblock := 29
  usedblocks := 29
  freeinode := 1

theorem mkfs_eq : mkfs 995 200 1024 = some fresh := rfl

/-- The in-use inodes of the image hold the contents `c`. -/
structure Stored (s : Fs) (c : ℕ → List UInt8) : Prop where
  stores : Stores s.img.dinode s c s.freeinode
  inodes : 1 ≤ s.freeinode ∧ s.freeinode ≤ 200
  blocks : 29 ≤ s.freeblock
  used : s.usedblocks = s.freeblock
  empty : ∀ i, s.freeinode ≤ i → c i = []
  free : ∀ i < 200, i = 0 ∨ s.freeinode ≤ i → (s.img.dinode i).type = 0
  nlink : ∀ i < s.freeinode, i ≠ 0 → (s.img.dinode i).nlink = 1
  low : ∀ o < 2 * bsize, s.img o = fresh.img o

/-- The contents are in the inodes up to their sizes, and in blocks from 29 on. -/
theorem Held.congr {ino ino' : ℕ → Dinode} {free N : ℕ} {H : Set (ℕ × ℕ)}
    (hH : Held ino img free H c N) (hino :
    ∀ i < N, ∀ j ≤ ndirect, (ino' i).addrs j = (ino i).addrs j)
    (himg : ∀ o, bsize * 29 ≤ o → img' o = img o) (hfree : 29 ≤ free) :
    Held ino' img' free H c N := by
  have hsame : ∀ y, 29 ≤ y → SameBlock img img' y := fun y hy r hr =>
    himg _ ((Nat.mul_le_mul_left bsize hy).trans (Nat.le_add_right _ _))
  have haddr : ∀ p : ℕ × ℕ, p.1 < N → addr ino' img' p = addr ino img p := fun p hp =>
    slot_congr (hino p.1 hp) fun h0 => hsame _ (hH.indirect_lt hp h0).1
  refine ⟨hH.slots, fun p hN hm hp => ?_, ?_, fun p hp hm r hr => ?_, fun o ho => ?_⟩
  · rw [haddr p hN]
    exact hH.held p hN hm hp
  · exact hH.owned.congr fun p hp => (haddr p (hH.slots p hp).1).symm
  · rw [haddr p (hH.slots p hp).1, hsame _ (hH.mem_Ico hp).1 r hr]
    exact hH.data p hp hm r hr
  · rw [himg o ((Nat.mul_le_mul_left bsize hfree).trans ho)]
    exact hH.clear o ho

/-- One more inode without blocks. -/
theorem Held.grow {ino : ℕ → Dinode} {free N : ℕ} (nb : ℕ → ℕ)
    (hH : Held ino img free (slotsOf nb N) c N) (hnb : nb N = 0)
    (hzero : ∀ b ≤ maxfile, slot img (ino N) b = 0) :
    Held ino img free (slotsOf nb (N + 1)) c (N + 1) := by
  have hslots : slotsOf nb (N + 1) = slotsOf nb N := by
    ext ⟨j, b⟩
    simp only [slotsOf, Set.mem_ofPred_eq]
    rcases eq_or_ne j N with rfl | hj
    · simp [hnb]
    · rw [Nat.lt_succ_iff_lt_or_eq, or_iff_left hj]
  rw [hslots]
  refine ⟨fun p hp => ⟨Nat.lt_succ_of_lt (hH.slots p hp).1, (hH.slots p hp).2⟩,
    fun p hN hm hp => ?_, hH.owned, hH.data, hH.clear⟩
  rcases Nat.lt_succ_iff_lt_or_eq.1 hN with hlt | heq
  · exact hH.held p hlt hm hp
  · rw [addr, heq]
    exact hzero p.2 hm

theorem slot_zero (h : ∀ j ≤ ndirect, d.addrs j = 0) {b : ℕ} : slot img d b = 0 := by
  unfold slot
  split
  · exact h b (by omega)
  split
  · exact if_pos (h _ le_rfl)
  · exact h _ le_rfl

namespace Stored

variable (hs : Stored s c)

include hs

/-- The inode of file `i` is written with other values. -/
theorem putInode (ip : Inode) {s₁ : Fs} {k : ℕ} {c₁ : ℕ → List UInt8} (hi : i < s.freeinode)
    (h0 : i ≠ 0) (hS : Stores (Function.update s.img.dinode i ip.toDinode) s₁ c₁ s.freeinode)
    (hgrows : Grows s s₁ k) (hc : ∀ j, j ≠ i → c₁ j = c j) (hF : Fits ip.toDinode) :
    Stored (putInode i ip s₁) c₁ ∧ Same ((Mkfs.putInode i ip s₁).img.dinode i) ip.toDinode ∧
      ∀ j < 200, j ≠ i → Same ((Mkfs.putInode i ip s₁).img.dinode j) (s.img.dinode j) := by
  have hlt : i < 200 := hi.trans_le hs.inodes.2
  have hself : Same ((Mkfs.putInode i ip s₁).img.dinode i) ip.toDinode := putInode_self hF
  have hother :
      ∀ j < 200, j ≠ i → Same ((Mkfs.putInode i ip s₁).img.dinode j) (s.img.dinode j) := by
    intro j hj hne
    refine (putInode_of_ne hne).trans (dinode_congr fun o _ ho => hgrows.low o ?_)
    unfold bsize at *
    omega
  have hfb := hgrows.freeblock
  have hblocks := hs.blocks
  refine ⟨⟨?_, ?_, ?_, ?_, fun j hj => ?_, fun j hj hfree => ?_, fun j hj hne => ?_,
    fun o ho => ?_⟩,
    hself, hother⟩
  · show Held _ _ s₁.freeblock (slotsOf (blocksOf c₁) s₁.freeinode) c₁ s₁.freeinode
    rw [hgrows.freeinode]
    refine hS.congr (fun j hj k hk => ?_) (fun o ho => ?_) (by omega)
    · rcases eq_or_ne j i with rfl | hne
      · rw [Function.update_self]
        exact hself.addrs k hk
      · rw [Function.update_of_ne hne]
        exact (hother j (hj.trans_le hs.inodes.2) hne).addrs k hk
    · refine putInode_outside (.inr ?_)
      unfold bsize at *
      omega
  · show 1 ≤ s₁.freeinode ∧ s₁.freeinode ≤ 200
    rw [hgrows.freeinode]
    exact hs.inodes
  · show 29 ≤ s₁.freeblock
    omega
  · show s₁.usedblocks = s₁.freeblock
    rw [hgrows.usedblocks, hfb, hs.used]
  · have hj : s.freeinode ≤ j := hgrows.freeinode ▸ hj
    rw [hc j (by omega)]
    exact hs.empty j hj
  · have hfree : j = 0 ∨ s.freeinode ≤ j := hgrows.freeinode ▸ hfree
    rw [(hother j hj (by omega)).type]
    exact hs.free j hj hfree
  · have hj : j < s.freeinode := hgrows.freeinode ▸ hj
    rcases eq_or_ne j i with rfl | hji
    · exact hself.nlink.trans hF.nlink
    · rw [(hother j (hj.trans_le hs.inodes.2) hji).nlink]
      exact hs.nlink j hj hne
  · rw [putInode_outside (.inl (by omega)), hgrows.low o (by unfold bsize at *; omega)]
    exact hs.low o ho

omit hs in
theorem type_lt (i : ℕ) : (s.img.dinode i).type < 2 ^ 16 := Bytes.word_lt _ _ _

/-- `iappend` -/
theorem iappend (hi : i < s.freeinode) (h0 : i ≠ 0)
    (hsize : (s.img.dinode i).size = (c i).length)
    (hmax : (c i).length + l.length ≤ bsize * maxfile)
    (hfit : s.freeblock + (cost ((c i).length + l.length) - cost (c i).length) ≤ 1024) :
    ∃ s', iappend i l s = some s' ∧ Stored s' (Function.update c i (c i ++ l)) ∧
      s'.freeblock = s.freeblock + (cost ((c i).length + l.length) - cost (c i).length) ∧
      s'.freeinode = s.freeinode ∧ (s'.img.dinode i).type = (s.img.dinode i).type ∧
      (s'.img.dinode i).size = (c i).length + l.length ∧
      ∀ j < 200, j ≠ i → Same (s'.img.dinode j) (s.img.dinode j) := by
  have hS : Stores (Function.update s.img.dinode i (s.img.dinode i)) s c s.freeinode := by
    rw [Function.update_eq_self]
    exact hs.stores
  obtain ⟨s₁, d, hloop, hS₁, hgrows, hty, hnl, hsz⟩ := appendLoop_spec hS hi rfl hmax hs.blocks hfit
  obtain ⟨ip, hread, hip⟩ := rinode_eq (s := s) (hi.trans_le hs.inodes.2)
  have hgb := hgrows.freeblock
  have hblocks := hs.blocks
  have hmaxfile : bsize * maxfile = 71680 := by decide
  have haddrs : ∀ j ≤ ndirect, d.addrs j < 2 ^ 32 := fun j hj => by
    have hle := hS₁.addrs_le hi hj
    rw [Function.update_self] at hle
    omega
  have hF : Fits { d with size := (c i).length + l.length } :=
    ⟨by rw [hty]; exact type_lt i, by rw [hnl]; exact hs.nlink i hi h0,
      lt_of_le_of_lt hmax (by rw [hmaxfile]; decide), haddrs⟩
  have hS₂ : Stores (Function.update s.img.dinode i { d with size := (c i).length + l.length }) s₁
      (Function.update c i (c i ++ l)) s.freeinode := by
    refine hS₁.congr (fun j _ k _ => ?_) (fun _ _ => rfl) (by omega)
    rcases eq_or_ne j i with rfl | hne
    · rw [Function.update_self, Function.update_self]
    · rw [Function.update_of_ne hne, Function.update_of_ne hne]
  obtain ⟨hst, hself, hother⟩ := hs.putInode
    { ip with toDinode := { d with size := (c i).length + l.length } } hi h0 hS₂ hgrows
    (fun j hne => Function.update_of_ne hne _ _) hF
  refine ⟨_, ?_, hst, hgb, hgrows.freeinode, hself.type.trans hty, hself.size, hother⟩
  rw [Mkfs.iappend, hread, Option.bind_eq_bind, Option.bind_some, hip, hsize, hloop,
    Option.bind_eq_bind, Option.bind_some]
  exact winode_eq (hi.trans_le hs.inodes.2)

/-- `fixSize` changes nothing but a size. -/
theorem fixSize (hi : i < s.freeinode) (h0 : i ≠ 0) (hsize : (s.img.dinode i).size < 2 ^ 31) :
    ∃ s', fixSize i s = some s' ∧ Stored s' c ∧ s'.freeblock = s.freeblock ∧
      s'.freeinode = s.freeinode ∧ (s'.img.dinode i).type = (s.img.dinode i).type ∧
      ∀ j < 200, j ≠ i → Same (s'.img.dinode j) (s.img.dinode j) := by
  obtain ⟨ip, hread, hip⟩ := rinode_eq (s := s) (hi.trans_le hs.inodes.2)
  rw [← hip] at hsize
  generalize hd : ({ ip with size := (ip.size / bsize + 1) * bsize } : Inode) = d
  have hty : d.type = (s.img.dinode i).type := by rw [← hd, ← hip]
  have hnl : d.nlink = (s.img.dinode i).nlink := by rw [← hd, ← hip]
  have hsz : d.size < 2 ^ 32 := by
    rw [← hd]
    dsimp only
    unfold bsize
    omega
  have hblocks := hs.blocks
  have haddrs : ∀ j, d.addrs j = (s.img.dinode i).addrs j := fun j => by rw [← hd, ← hip]
  have hS : Stores (Function.update s.img.dinode i d.toDinode) s c s.freeinode := by
    refine hs.stores.congr (fun j _ k _ => ?_) (fun _ _ => rfl) hblocks
    rcases eq_or_ne j i with rfl | hne
    · rw [Function.update_self, haddrs]
    · rw [Function.update_of_ne hne]
  have hF : Fits d.toDinode := by
    refine ⟨by rw [hty]; exact type_lt i, by rw [hnl]; exact hs.nlink i hi h0, hsz, fun j _ => ?_⟩
    rw [haddrs]
    exact Bytes.word_lt _ _ _
  obtain ⟨hst, hself, hother⟩ := hs.putInode d hi h0 hS (.refl s) (fun _ _ => rfl) hF
  refine ⟨_, ?_, hst, rfl, rfl, hself.type.trans hty, hother⟩
  rw [Mkfs.fixSize, hread, Option.bind_eq_bind, Option.bind_some, hd]
  exact winode_eq (hi.trans_le hs.inodes.2)

/-- `ialloc` -/
theorem newInode {t : ℕ} (hN : s.freeinode < 200) (ht : t < 2 ^ 16) :
    Stored (newInode t s) c ∧ (Mkfs.newInode t s).freeblock = s.freeblock ∧
      (Mkfs.newInode t s).freeinode = s.freeinode + 1 ∧
      Same ((Mkfs.newInode t s).img.dinode s.freeinode) ⟨t, 1, 0, fun _ => 0⟩ ∧
      ∀ j < 200, j ≠ s.freeinode → Same ((Mkfs.newInode t s).img.dinode j) (s.img.dinode j) := by
  have hF : Fits (⟨⟨t, 1, 0, fun _ => 0⟩, 0, 0⟩ : Inode).toDinode :=
    ⟨ht, rfl, Nat.two_pow_pos 32, fun _ _ => Nat.two_pow_pos 32⟩
  have hself : Same ((Mkfs.newInode t s).img.dinode s.freeinode) ⟨t, 1, 0, fun _ => 0⟩ :=
    putInode_self hF
  have hother : ∀ j < 200, j ≠ s.freeinode →
      Same ((Mkfs.newInode t s).img.dinode j) (s.img.dinode j) := fun j _ hne => putInode_of_ne hne
  have hinodes := hs.inodes
  refine ⟨⟨?_, ⟨by exact Nat.le_add_left 1 _, hN⟩, hs.blocks, hs.used,
    fun j hj => hs.empty j (Nat.le_of_succ_le hj), fun j hj hfree => ?_, fun j hj hne => ?_,
    fun o ho => ?_⟩, rfl, rfl, hself, hother⟩
  · refine Held.grow (blocksOf c) (hs.stores.congr (fun j hj k hk => ?_) (fun o ho => ?_)
      hs.blocks) ?_ fun b hb => ?_
    · exact (hother j (hj.trans hN) (Nat.ne_of_lt hj)).addrs k hk
    · refine putInode_outside (.inr ?_)
      unfold bsize at *
      omega
    · rw [blocksOf, hs.empty _ le_rfl]
      rfl
    · refine slot_zero fun k hk => hself.addrs k hk
  · have hne : j ≠ s.freeinode := by
      rcases hfree with rfl | hfree
      · omega
      · exact Nat.ne_of_gt hfree
    rw [(hother j hj hne).type]
    exact hs.free j hj (hfree.imp id Nat.le_of_succ_le)
  · rcases eq_or_ne j s.freeinode with rfl | hji
    · exact hself.nlink
    · have hlt : j < s.freeinode := lt_of_le_of_ne (Nat.le_of_lt_succ hj) hji
      rw [(hother j (hlt.trans hN) hji).nlink]
      exact hs.nlink j hlt hne
  · exact (putInode_outside (.inl (by omega))).trans (hs.low o ho)

end Stored

end OsProjects.Mkfs
