import OsProjects.Kernel.Store

/-!
# Giving blocks back

`bfree` zeroes a block and clears its mark (`bfree_spec`); what giving back some slots does to the
others is `Released`.  `itrunc` gives back every slot of a file (`itrunc_spec`), the entries of the
indirect block before the block itself, so that a file that has lost its last link leaves the
other files as they are, and the blocks it had empty and free (`iput_spec`).
-/

namespace OsProjects.Kernel

open Fsck Mkfs

variable {ino ino' ino'' : ℕ → Dinode} {img img' img'' : Image} {H S T : Set (ℕ × ℕ)} {U : Set ℕ}
  {i j b k n x y o type : ℕ} {p q : ℕ × ℕ} {d : Dinode} {ip : Inode}

/-! ### One block -/

/-- Block `x` is zeroed and its bit cleared. -/
def freed (x : ℕ) (img : Image) : Image :=
  clearMark x (img.write (bsize * x) (List.replicate bsize 0))

theorem write_zeros_sameBlock (hy : y ≠ x) :
    Mkfs.SameBlock img (img.write (bsize * x) (List.replicate bsize 0)) y := by
  have hlen : 0 + (List.replicate bsize (0 : UInt8)).length ≤ bsize := by
    rw [List.length_replicate, Nat.zero_add]
  exact write_sameBlock hlen hy

theorem zeros_outside (h : o < bsize * x) :
    img.write (bsize * x) (List.replicate bsize 0) o = img o := Bytes.write_of_lt h

theorem freed_sameBlock (hx : x < 1024) (hy : 29 ≤ y) (hne : y ≠ x) :
    Mkfs.SameBlock img (freed x img) y := by
  intro r hr
  refine (clearMark_outside (hx.trans (by decide)) (.inr ?_)).trans (write_zeros_sameBlock hne r hr)
  exact (Nat.mul_le_mul_left bsize hy).trans (Nat.le_add_right _ _)

theorem freed_zero (h29 : 29 ≤ x) (hx : x < 1024) (hr : n < bsize) :
    freed x img (bsize * x + n) = 0 := by
  have hlen : n < (List.replicate bsize (0 : UInt8)).length := by rwa [List.length_replicate]
  have hout : bsize * 29 ≤ bsize * x + n :=
    (Nat.mul_le_mul_left bsize h29).trans (Nat.le_add_right _ _)
  rw [freed, clearMark_outside (hx.trans (by decide)) (.inr hout), Bytes.write_inside hlen,
    List.getD_replicate _ hr]

theorem freed_low (h29 : 29 ≤ x) (hx : x < 1024) (ho : o < bsize * 28) : freed x img o = img o := by
  rw [freed, clearMark_outside (hx.trans (by decide)) (.inl ho)]
  exact zeros_outside (by unfold bsize at *; omega)

theorem marked_freed (h29 : 29 ≤ x) (hx : x < 1024) (hy : y < 1024) :
    (freed x img).marked y = (img.marked y && !decide (y = x)) := by
  have hsame : Image.marked (img.write (bsize * x) (List.replicate bsize 0)) y = img.marked y :=
    marked_congr (fun o _ ho => zeros_outside (by unfold bsize at *; omega)) (hy.trans (by decide))
  rw [freed, marked_clearMark (hx.trans (by decide)), hsame]

theorem bfree_spec (hsb : img.superblock = mkfsSuperblock) (h29 : 29 ≤ x) (hx : x < 1024)
    (hmarked : img.marked x = true) : bfree x img = some (freed x img) := by
  have hb : x < bpb := hx.trans (by decide)
  have hsb' : (bzero x img).superblock = mkfsSuperblock :=
    (superblock_congr fun o ho => zeros_outside (by unfold bsize at *; omega)).trans hsb
  have hused : isFree mkfsSuperblock (bzero x img) x = false := by
    rw [isFree_eq hb, bzero,
      marked_congr (fun o _ ho => zeros_outside (by unfold bsize at *; omega)) hb, hmarked]
    rfl
  rw [bfree]
  simp only [hsb', hused]
  rfl

/-- What the slots `H` of the inodes `U` are while file `i` is being truncated. -/
structure Partly (ino : ℕ → Dinode) (img : Image) (U : Set ℕ) (i : ℕ) (H : Set (ℕ × ℕ)) : Prop where
  owns : Owns ino img H
  range : ∀ q ∈ H, q.1 ∈ U ∧ q.2 ≤ maxfile
  indirect : ∀ b, (i, b) ∈ H → ndirect ≤ b → (i, maxfile) ∈ H
  other : ∀ k ∈ U, k ≠ i → ∀ b ≤ maxfile, addr ino img (k, b) ≠ 0 → (k, b) ∈ H

/-- From `ino`, `img` to `ino'`, `img'` the slots `S` of file `i` have been given back. -/
structure Released (ino : ℕ → Dinode) (img : Image) (ino' : ℕ → Dinode) (img' : Image) (U : Set ℕ)
    (i : ℕ) (H S : Set (ℕ × ℕ)) : Prop where
  partly : Partly ino' img' U i (H \ S)
  kept : ∀ q ∈ H \ S, addr ino' img' q = addr ino img q
  indirect : (i, maxfile) ∈ H \ S → Mkfs.SameBlock img img' ((ino i).addrs ndirect) ∧
    (ino' i).addrs ndirect = (ino i).addrs ndirect
  bytes : ∀ k ∈ U, k ≠ i → ∀ o < bsize * maxfile, byteAt img' (ino' k) o = byteAt img (ino k) o
  low : ∀ o < bsize * 28, img' o = img o

namespace Released

theorem refl (hP : Partly ino img U i H) (hS : ∀ q ∈ S, q ∉ H) :
    Released ino img ino img U i H S := by
  have hdiff : H \ S = H := Set.ext fun q => ⟨fun h => h.1, fun h => ⟨h, fun hs => hS q hs h⟩⟩
  exact ⟨by rwa [hdiff], fun _ _ => rfl, fun _ => ⟨sameBlock_refl, rfl⟩, fun _ _ _ _ _ => rfl,
    fun _ _ => rfl⟩

/-- The entries of the indirect block, as long as it is in use. -/
theorem addr_eq (h : Released ino img ino' img' U i H S) (hm : (i, maxfile) ∈ H \ S)
    (hb : ndirect ≤ b) : addr ino' img' (i, b) = addr ino img (i, b) := by
  obtain ⟨hsame, haddr⟩ := h.indirect hm
  show slot img' (ino' i) b = slot img (ino i) b
  rw [slot_of_indirect hb haddr]
  exact slot_congr (fun _ _ => rfl) fun _ => hsame

theorem mono (h : Released ino img ino' img' U i H S) (hST : H \ S = H \ T) :
    Released ino img ino' img' U i H T := by
  refine ⟨?_, fun q hq => h.kept q (by rwa [hST]), fun hq => h.indirect (by rwa [hST]), h.bytes,
    h.low⟩
  rw [← hST]
  exact h.partly

theorem trans (h : Released ino img ino' img' U i H S)
    (h' : Released ino' img' ino'' img'' U i (H \ S) T) :
    Released ino img ino'' img'' U i H (S ∪ T) := by
  have hdiff : H \ (S ∪ T) = (H \ S) \ T := Set.sdiff_sdiff.symm
  refine ⟨by rw [hdiff]; exact h'.partly, fun q hq => ?_, fun hq => ?_, fun k hk hne o ho => ?_,
    fun o ho => (h'.low o ho).trans (h.low o ho)⟩
  · rw [hdiff] at hq
    rw [h'.kept q hq, h.kept q hq.1]
  · rw [hdiff] at hq
    obtain ⟨hsame, haddr⟩ := h.indirect hq.1
    obtain ⟨hsame', haddr'⟩ := h'.indirect hq
    rw [haddr] at hsame' haddr'
    exact ⟨fun r hr => (hsame' r hr).trans (hsame r hr), haddr'⟩
  · rw [h'.bytes k hk hne o ho, h.bytes k hk hne o ho]

end Released

/-- Slot `c` of file `i` is given back; `d` is the inode afterwards. -/
theorem Partly.release {c : ℕ} (hP : Partly ino img U i H) (hp : (i, c) ∈ H)
    (hdirect : ∀ b < ndirect, b ≠ c → d.addrs b = (ino i).addrs b)
    (hind : ∀ b, (i, b) ∈ H → b ≠ c → ndirect ≤ b →
      d.addrs ndirect = (ino i).addrs ndirect ∧ c ≠ maxfile) :
    bfree (addr ino img (i, c)) img = some (freed (addr ino img (i, c)) img) ∧
      Released ino img (Function.update ino i d) (freed (addr ino img (i, c)) img) U i H
      {(i, c)} := by
  have hO := hP.owns
  obtain ⟨h29, hlt, hmarked⟩ := hO.mem_marks hp
  have hlow : ∀ o < bsize * 28, freed (addr ino img (i, c)) img o = img o := fun o ho =>
    freed_low h29 hlt ho
  have hsame :
      ∀ q ∈ H, q ≠ (i, c) → Mkfs.SameBlock img (freed (addr ino img (i, c)) img) (addr ino img q) :=
    fun q hq hne => freed_sameBlock hlt (hO.mem_marks hq).1 fun heq =>
    hne (hO.owned.injOn hq hp heq)
  have hsameInd : ∀ k, (k, maxfile) ∈ H → (k, maxfile) ≠ (i, c) →
      Mkfs.SameBlock img (freed (addr ino img (i, c)) img) ((ino k).addrs ndirect) :=
      fun k hk hne => by
    have hslot : addr ino img (k, maxfile) = (ino k).addrs ndirect := slot_indirect
    rw [← hslot]
    exact hsame _ hk hne
  have hother : ∀ k ∈ U, k ≠ i → ∀ b, addr (Function.update ino i d)
      (freed (addr ino img (i, c)) img) (k, b) = addr ino img (k, b) := fun k hk hne b => by
    rw [addr_update_of_ne hne]
    refine slot_congr (fun _ _ => rfl) fun h0 => hsameInd k ?_ fun heq => hne (Prod.mk.inj heq).1
    exact hP.other k hk hne maxfile le_rfl (by rwa [addr, slot_indirect])
  have hkept : ∀ q ∈ H \ {(i, c)}, addr (Function.update ino i d)
      (freed (addr ino img (i, c)) img) q = addr ino img q := by
    rintro ⟨k, b⟩ ⟨hq, hne⟩
    rcases eq_or_ne k i with rfl | hk
    · have hbc : b ≠ c := fun h => hne (by rw [h]; rfl)
      rw [addr_update_self]
      show slot _ d b = slot img (ino k) b
      rcases lt_or_ge b ndirect with hd | hd
      · rw [slot_direct hd, slot_direct hd]
        exact hdirect b hd hbc
      · obtain ⟨haddr, hcm⟩ := hind b hq hbc hd
        rw [slot_of_indirect hd haddr]
        exact slot_congr (fun _ _ => rfl) fun _ =>
          hsameInd k (hP.indirect b hq hd) fun heq => hcm (Prod.mk.inj heq).2.symm
    · exact hother k (hP.range _ hq).1 hk b
  have howns : Owns (Function.update ino i d) (freed (addr ino img (i, c)) img) (H \ {(i, c)}) :=
    hO.release hp (superblock_low hlow) (fun y hy => marked_freed h29 hlt hy) hkept
      (fun r hr => freed_zero h29 hlt hr) fun y _ hfree =>
        freed_sameBlock hlt (hO.le_of_free hfree) fun heq => hO.ne_addr hfree hp heq.symm
  refine ⟨bfree_spec hO.superblock h29 hlt hmarked,
    ⟨howns, fun q hq => hP.range q hq.1, fun b hb hd => ?_, fun k hk hne b hb h0 => ?_⟩, hkept,
    fun hm => ?_, fun k hk hne o ho => ?_, hlow⟩
  · have hbc : b ≠ c := fun h => hb.2 (by rw [h]; rfl)
    exact ⟨hP.indirect b hb.1 hd, fun heq => (hind b hb.1 hbc hd).2 (Prod.mk.inj heq).2.symm⟩
  · rw [hother k hk hne] at h0
    exact ⟨hP.other k hk hne b hb h0, fun heq => hne (Prod.mk.inj heq).1⟩
  · have hmc : (i, maxfile) ≠ (i, c) := fun heq => hm.2 heq
    rw [Function.update_self]
    exact ⟨hsameInd i hm.1 hmc, (hind maxfile hm.1 (fun heq => hmc (by rw [heq])) (by decide)).1⟩
  · refine byteAt_congr (hother k hk hne (o / bsize)) fun h0 => ?_
    have hmem := hP.other k hk hne (o / bsize) (div_lt_maxfile ho).le h0
    exact hsame _ hmem fun heq => hne (Prod.mk.inj heq).1

/-! ### The loops of `itrunc` -/

theorem Partly.of_live (hO : Owns ino img (live ino img U)) :
    Partly ino img U i (live ino img U) := by
  refine ⟨hO, fun q hq => ⟨hq.1, hq.2.1⟩, fun b hb hd => live_indirect hb.1 fun h0 => ?_,
    fun k hk _ b hb h0 => ⟨hk, hb, h0⟩⟩
  rcases eq_or_ne b maxfile with rfl | hne
  · exact hb.2.2 (slot_indirect.trans h0)
  · exact hb.2.2 (slot_entry_zero hd (lt_of_le_of_ne hb.2.1 hne) h0)

/-- The direct blocks. -/
theorem truncAddr_loop (hO : Owns ino img (live ino img U)) (hi : i ∈ U) (hip : ip.toDinode = ino i)
    (hk : k ≤ ndirect) : ∃ ip' img', (List.range k).foldlM truncAddr (ip, img) = some (ip', img') ∧
      Released ino img (Function.update ino i ip'.toDinode) img' U i (live ino img U)
        {q | q.1 = i ∧ q.2 < k} ∧
      SameHead ip ip' ∧ (∀ j < k, ip'.addrs j = 0) ∧ ∀ j, k ≤ j → ip'.addrs j = ip.addrs j := by
  induction k with
  | zero =>
    refine ⟨ip, img, rfl, ?_, SameHead.refl ip, fun j hj => absurd hj (Nat.not_lt_zero j),
      fun _ _ => rfl⟩
    rw [hip, Function.update_eq_self]
    exact Released.refl (Partly.of_live hO) fun q hq => absurd hq.2 (Nat.not_lt_zero _)
  | succ k ih =>
    obtain ⟨ip₁, img₁, hloop, hrel, hhead, hzero, hrest⟩ := ih (by omega)
    have hstep : (List.range (k + 1)).foldlM truncAddr (ip, img) = truncAddr (ip₁, img₁) k := by
      rw [List.range_succ, List.foldlM_append, hloop, Option.bind_eq_bind, Option.bind_some,
        List.foldlM_cons]
      cases truncAddr (ip₁, img₁) k <;> rfl
    have hset : ({q | q.1 = i ∧ q.2 < k + 1} : Set (ℕ × ℕ)) =
        {q | q.1 = i ∧ q.2 < k} ∪ {(i, k)} := by
      ext ⟨m, b⟩
      simp only [Set.mem_ofPred_eq, Set.mem_union, Set.mem_singleton_iff, Prod.mk.injEq]
      omega
    have hd : k < ndirect := hk
    have hkm : k ≤ maxfile := by
      unfold maxfile
      omega
    have hslot : addr (Function.update ino i ip₁.toDinode) img₁ (i, k) = ip₁.addrs k := by
      rw [addr_update_self, slot_direct hd]
    have hold : addr ino img (i, k) = ip.addrs k := by
      rw [addr, slot_direct hd, ← hip]
    rw [hstep, truncAddr, hset]
    by_cases h0 : ip₁.addrs k = 0
    · refine ⟨ip₁, img₁, if_pos h0, ?_, hhead, fun j hj => ?_, fun j hj => hrest j (by omega)⟩
      · refine hrel.mono
          (Set.ext fun q => ⟨fun hq => ⟨hq.1, fun hs => ?_⟩, fun hq => ⟨hq.1, fun hs =>
          hq.2 (.inl hs)⟩⟩)
        rcases hs with hs | hs
        · exact hq.2 hs
        · refine hq.1.2.2 ?_
          rw [Set.mem_singleton_iff.1 hs, hold, ← hrest k le_rfl, h0]
      · rcases Nat.lt_succ_iff_lt_or_eq.1 hj with hj | rfl
        · exact hzero j hj
        · exact h0
    · have hmem : (i, k) ∈ live ino img U \ {q | q.1 = i ∧ q.2 < k} := by
        refine ⟨⟨hi, hkm, ?_⟩, fun hs => lt_irrefl _ hs.2⟩
        rw [hold, ← hrest k le_rfl]
        exact h0
      obtain ⟨hfree, hrel'⟩ := hrel.partly.release (d := setAddr ip₁.toDinode k 0) hmem
        (fun b _ hb => by rw [Function.update_self]; exact setAddr_ne hb)
        (fun b _ _ _ => ⟨by rw [Function.update_self]; exact setAddr_ne (by omega), by
          unfold maxfile
          omega⟩)
      rw [hslot] at hfree hrel'
      rw [Function.update_idem] at hrel'
      refine ⟨withAddr ip₁ k 0, _, by rw [if_neg h0, hfree]; rfl, hrel.trans hrel',
        hhead.trans ⟨rfl, rfl, rfl, rfl, rfl⟩, fun j hj => ?_, fun j hj => ?_⟩
      · rcases Nat.lt_succ_iff_lt_or_eq.1 hj with hj | rfl
        · exact (setAddr_ne (Nat.ne_of_lt hj)).trans (hzero j hj)
        · exact setAddr_self
      · exact (setAddr_ne (Nat.ne_of_gt hj)).trans (hrest j (by omega))

/-- The blocks of the indirect block. -/
theorem truncEntry_loop (hP : Partly ino img U i H) (hm : (i, maxfile) ∈ H)
    (hmem : ∀ b < maxfile, ndirect ≤ b → addr ino img (i, b) ≠ 0 → (i, b) ∈ H)
    {a : ℕ → ℕ} (ha : ∀ j < nindirect, a j = addr ino img (i, ndirect + j)) (hk : k ≤ nindirect) :
    ∃ img', (List.range k).foldlM (fun img j => if a j = 0 then some img else bfree (a j) img) img =
        some img' ∧
      Released ino img ino img' U i H {q | q.1 = i ∧ ndirect ≤ q.2 ∧ q.2 < ndirect + k} := by
  induction k with
  | zero =>
    refine ⟨img, rfl, Released.refl hP fun q hq => ?_⟩
    have := hq.2
    omega
  | succ k ih =>
    obtain ⟨img₁, hloop, hrel⟩ := ih (by omega)
    have hstep : (List.range (k + 1)).foldlM
        (fun img j => if a j = 0 then some img else bfree (a j) img) img =
        if a k = 0 then some img₁ else bfree (a k) img₁ := by
      rw [List.range_succ, List.foldlM_append, hloop, Option.bind_eq_bind, Option.bind_some,
        List.foldlM_cons]
      cases (if a k = 0 then some img₁ else bfree (a k) img₁) <;> rfl
    have hset : ({q | q.1 = i ∧ ndirect ≤ q.2 ∧ q.2 < ndirect + (k + 1)} : Set (ℕ × ℕ)) =
        {q | q.1 = i ∧ ndirect ≤ q.2 ∧ q.2 < ndirect + k} ∪ {(i, ndirect + k)} := by
      ext ⟨m, b⟩
      simp only [Set.mem_ofPred_eq, Set.mem_union, Set.mem_singleton_iff, Prod.mk.injEq]
      omega
    have hkm : ndirect + k < maxfile := Nat.add_lt_add_left hk ndirect
    have hd : ndirect ≤ ndirect + k := Nat.le_add_right _ _
    have hm₁ : (i, maxfile) ∈ H \ {q | q.1 = i ∧ ndirect ≤ q.2 ∧ q.2 < ndirect + k} := by
      refine ⟨hm, fun hs => ?_⟩
      have h := hs.2.2
      dsimp only at h
      omega
    have hak : a k = addr ino img₁ (i, ndirect + k) := by
      rw [ha k hk, hrel.addr_eq hm₁ hd]
    rw [hstep, hset]
    by_cases h0 : a k = 0
    · refine ⟨img₁, if_pos h0, hrel.trans (Released.refl hrel.partly fun q hq hH => ?_)⟩
      rw [Set.mem_singleton_iff.1 hq] at hH
      exact hrel.partly.owns.ne_zero hH (hak.symm.trans h0)
    · have hp : (i, ndirect + k) ∈ H \ {q | q.1 = i ∧ ndirect ≤ q.2 ∧ q.2 < ndirect + k} := by
        refine ⟨hmem _ hkm hd ?_, fun hs => ?_⟩
        · rw [← ha k hk]
          exact h0
        · exact absurd hs.2.2 (lt_irrefl _)
      obtain ⟨hfree, hrel'⟩ := hrel.partly.release (d := ino i) hp (fun _ _ _ => rfl)
        fun _ _ _ _ => ⟨rfl, Nat.ne_of_lt hkm⟩
      rw [Function.update_eq_self] at hrel'
      rw [← hak] at hfree hrel'
      exact ⟨_, by rw [if_neg h0]; exact hfree, hrel.trans hrel'⟩

/-- The indirect block with what it refers to. -/
theorem truncIndirect_spec (hP : Partly ino img U i H) (hi : i ∈ U) (hip : ip.toDinode = ino i)
    (hmem : ∀ b, b ≤ maxfile → ndirect ≤ b → addr ino img (i, b) ≠ 0 → (i, b) ∈ H) :
    ∃ ip' img', truncIndirect ip img = some (ip', img') ∧
      Released ino img (Function.update ino i ip'.toDinode) img' U i H
      {q | q.1 = i ∧ ndirect ≤ q.2} ∧
      SameHead ip ip' ∧ ip'.addrs ndirect = 0 ∧ ∀ j < ndirect, ip'.addrs j = ip.addrs j := by
  have haddr : ip.addrs ndirect = (ino i).addrs ndirect := by rw [← hip]
  have hind : addr ino img (i, maxfile) = ip.addrs ndirect := by
    rw [addr, slot_indirect, haddr]
  by_cases h0 : ip.addrs ndirect = 0
  · refine ⟨ip, img, if_pos h0, ?_, SameHead.refl ip, h0, fun _ _ => rfl⟩
    rw [hip, Function.update_eq_self]
    refine Released.refl hP fun q hq hH => ?_
    obtain ⟨m, b⟩ := q
    obtain ⟨rfl, hd⟩ := hq
    exact hP.owns.ne_zero (hP.indirect b hH hd) (hind.trans h0)
  · have hm : (i, maxfile) ∈ H := hmem maxfile le_rfl (by decide) (by rwa [hind])
    have hrange := hP.owns.mem_marks hm
    rw [hind] at hrange
    have ha : ∀ j < nindirect, img.word 4 (wordOff (ip.addrs ndirect) j) =
        addr ino img (i, ndirect + j) := fun j hj => by
      rw [addr, slot_entry (Nat.le_add_right _ _) (Nat.add_lt_add_left hj ndirect)
        (by rwa [← haddr]), Nat.add_sub_cancel_left, haddr]
    obtain ⟨img₁, hloop, hrel⟩ := truncEntry_loop hP hm (fun b hb hd => hmem b hb.le hd) ha le_rfl
    have hm₁ : (i, maxfile) ∈ H \ {q | q.1 = i ∧ ndirect ≤ q.2 ∧ q.2 < ndirect + nindirect} :=
      ⟨hm, fun hs => absurd hs.2.2 (lt_irrefl _)⟩
    obtain ⟨hfree, hrel'⟩ := hrel.partly.release (d := setAddr (ino i) ndirect 0) hm₁
      (fun b hb _ => setAddr_ne (Nat.ne_of_lt hb))
      (fun b hb hne hd => absurd ⟨rfl, hd, lt_of_le_of_ne (hP.range _ hb.1).2 hne⟩ hb.2)
    rw [hrel.kept _ hm₁, hind] at hfree hrel'
    refine ⟨withAddr ip ndirect 0, freed (ip.addrs ndirect) img₁, ?_, ?_, ⟨rfl, rfl, rfl, rfl, rfl⟩,
      setAddr_self, fun j hj => setAddr_ne (Nat.ne_of_lt hj)⟩
    · rw [truncIndirect, if_neg h0]
      simp only [hloop, hfree, Option.bind_eq_bind, Option.bind_some]
      rfl
    · have hall := hrel.trans hrel'
      rw [← hip] at hall
      refine hall.mono
        (Set.ext fun q => ⟨fun hq => ⟨hq.1, fun hs => hq.2 ?_⟩, fun hq => ⟨hq.1, fun hs =>
        hq.2 ?_⟩⟩)
      · obtain ⟨m, b⟩ := q
        obtain ⟨rfl, hd⟩ := hs
        rcases eq_or_ne b maxfile with rfl | hne
        · exact .inr rfl
        · exact .inl ⟨rfl, hd, lt_of_le_of_ne (hP.range _ hq.1).2 hne⟩
      · rcases hs with ⟨hs, hd, -⟩ | hs
        · exact ⟨hs, hd⟩
        · rw [Set.mem_singleton_iff.1 hs]
          exact ⟨rfl, Nat.le_add_right _ _⟩

/-- The slots of a file that has been truncated. -/
theorem Released.tidy (h : Released ino img (Function.update ino i d) img' U i (live ino img U)
    {q | q.1 = i}) (hT : Tidy ino img U) (hi : i ∈ U) {d' : Dinode}
    (hzero : ∀ j ≤ ndirect, d'.addrs j = 0) (hsize : d'.size = 0) :
    Tidy (Function.update ino i d') img' U := by
  have hself : ∀ b, addr (Function.update ino i d') img' (i, b) = 0 := fun b => by
    rw [addr_update_self]
    exact slot_zero hzero
  have hother : ∀ k b, k ≠ i → addr (Function.update ino i d') img' (k, b) =
      addr (Function.update ino i d) img' (k, b) := fun k b hk => by
    rw [addr_update_of_ne hk, addr_update_of_ne hk]
  have hlive : live (Function.update ino i d') img' U = live ino img U \ {q | q.1 = i} := by
    ext ⟨k, b⟩
    rcases eq_or_ne k i with rfl | hk
    · exact ⟨fun hq => absurd (hself b) hq.2.2, fun hq => absurd rfl hq.2⟩
    · constructor
      · rintro ⟨hq, hm, h0⟩
        rw [hother k b hk] at h0
        exact h.partly.other k hq hk b hm h0
      · intro hq
        refine ⟨hq.1.1, hq.1.2.1, ?_⟩
        rw [hother k b hk, h.kept _ hq]
        exact hq.1.2.2
  refine ⟨?_, fun k hk => ?_, ?_, fun k hk o ho hlt => ?_⟩
  · rw [hlive]
    refine h.partly.owns.congr rfl (fun _ _ => rfl) (fun q hq => ?_) fun _ _ _ => sameBlock_refl
    obtain ⟨k, b⟩ := q
    exact hother k b hq.2
  · rcases eq_or_ne k i with rfl | hne
    · rw [Function.update_self, hsize]
      exact Nat.zero_le _
    · rw [Function.update_of_ne hne]
      exact hT.size_le k hk
  · rw [hlive, hT.slots]
    ext ⟨k, b⟩
    rcases eq_or_ne k i with rfl | hk
    · refine ⟨fun hq => absurd rfl hq.2, fun hq => ?_⟩
      have hb := hq.2
      dsimp only at hb
      rw [Function.update_self, hsize] at hb
      rcases hb with ⟨-, hb⟩ | ⟨-, hb⟩ <;> exact absurd hb (Nat.not_lt_zero _)
    · constructor
      · rintro ⟨⟨hq, hb⟩, -⟩
        refine ⟨hq, ?_⟩
        dsimp only at hb ⊢
        rwa [Function.update_of_ne hk]
      · rintro ⟨hq, hb⟩
        dsimp only at hb
        rw [Function.update_of_ne hk] at hb
        exact ⟨⟨hq, hb⟩, hk⟩
  · rcases eq_or_ne k i with rfl | hne
    · rw [Function.update_self]
      exact if_pos (slot_zero hzero)
    · rw [Function.update_of_ne hne] at ho ⊢
      have hbyte := h.bytes k hk hne o hlt
      rw [Function.update_of_ne hne] at hbyte
      rw [hbyte]
      exact hT.tail k hk o ho hlt

/-! ### Files without links, and new ones -/

theorem contents_empty (h : d.size = 0) : contents img d = [] := by
  rw [contents, h]
  rfl

/-- The loops of `itrunc` give back all blocks of the file. -/
theorem itrunc_loops (hO : Owns ino img (live ino img U)) (hi : i ∈ U) (hip : ip.toDinode = ino i) :
    ∃ ip₁ img₁ ip₂ img₂, (List.range ndirect).foldlM truncAddr (ip, img) = some (ip₁, img₁) ∧
      truncIndirect ip₁ img₁ = some (ip₂, img₂) ∧
      Released ino img (Function.update ino i ip₂.toDinode) img₂ U i (live ino img U)
      {q | q.1 = i} ∧
      (∀ j ≤ ndirect, ip₂.addrs j = 0) ∧ ip₂.type = ip.type ∧ ip₂.nlink = ip.nlink := by
  obtain ⟨ip₁, img₁, hloop, hrel, hhead, hzero, hrest⟩ := truncAddr_loop hO hi hip le_rfl
  -- the indirect block has not been touched yet
  have hind : ∀ b, b ≤ maxfile → ndirect ≤ b →
      addr (Function.update ino i ip₁.toDinode) img₁ (i, b) ≠ 0 →
      (i, b) ∈ live ino img U \ {q | q.1 = i ∧ q.2 < ndirect} := by
    intro b hb hd h0
    have hnot : ∀ c, ndirect ≤ c → (i, c) ∉ ({q | q.1 = i ∧ q.2 < ndirect} : Set (ℕ × ℕ)) :=
      fun c hc h => absurd h.2 (not_lt.2 hc)
    have hne : (ino i).addrs ndirect ≠ 0 := by
      intro hz
      have hz₁ : ip₁.addrs ndirect = 0 := by rw [hrest ndirect le_rfl, ← hz, ← hip]
      rw [addr_update_self] at h0
      rcases eq_or_ne b maxfile with rfl | hbm
      · exact h0 (slot_indirect.trans hz₁)
      · exact h0 (slot_entry_zero hd (lt_of_le_of_ne hb hbm) hz₁)
    have hm : (i, maxfile) ∈ live ino img U \ {q | q.1 = i ∧ q.2 < ndirect} :=
      ⟨live_indirect hi hne, hnot _ (by decide)⟩
    rw [hrel.addr_eq hm hd] at h0
    exact ⟨⟨hi, hb, h0⟩, hnot b hd⟩
  obtain ⟨ip₂, img₂, htrunc, hrel₂, hhead₂, hz₂, hrest₂⟩ := truncIndirect_spec hrel.partly hi
    (Function.update_self i ip₁.toDinode ino).symm hind
  rw [Function.update_idem] at hrel₂
  refine ⟨ip₁, img₁, ip₂, img₂, hloop, htrunc, ?_, fun j hj => ?_, hhead₂.type.trans hhead.type,
    hhead₂.nlink.trans hhead.nlink⟩
  · refine (hrel.trans hrel₂).mono ?_
    have hset : ({q | q.1 = i ∧ q.2 < ndirect} ∪ {q | q.1 = i ∧ ndirect ≤ q.2} : Set (ℕ × ℕ)) =
        {q | q.1 = i} := by
      ext q
      simp only [Set.mem_union, Set.mem_ofPred_eq]
      omega
    rw [hset]
  · rcases eq_or_ne j ndirect with rfl | hne
    · exact hz₂
    · have hd : j < ndirect := lt_of_le_of_ne hj hne
      rw [hrest₂ j hd, hzero j hd]

/-- **`itrunc`** empties a file. -/
theorem itrunc_spec (hW : Wf img) (hi : i ∈ inodes img) (hip : Same ip.toDinode (img.dinode i)) :
    ∃ ip' img', itrunc i ip img = some (ip', img') ∧ Same (img'.dinode i) ip'.toDinode ∧
      ip'.size = 0 ∧ (∀ j ≤ ndirect, ip'.addrs j = 0) ∧ ip'.type = ip.type ∧ ip'.nlink = ip.nlink ∧
      Changed img i (some ⟨(img.dinode i).type, (img.dinode i).nlink, []⟩) img' := by
  have hT₀ := hW.copy hip
  obtain ⟨ip₁, img₁, ip₂, img₂, hloop, htrunc, hall, haddrs, htype, hnlink⟩ :=
    itrunc_loops hT₀.owns hi
    (Function.update_self i ip.toDinode img.dinode).symm
  have hT : Tidy (Function.update (Function.update img.dinode i ip.toDinode) i
      ({ ip₂ with size := 0 } : Inode).toDinode) img₂ (inodes img) := hall.tidy hT₀ hi haddrs rfl
  rw [Function.update_idem] at hT
  have hF : InRange ({ ip₂ with size := 0 } : Inode).toDinode := by
    have hr := inRange_dinode img i
    refine ⟨(htype.trans hip.type) ▸ hr.type, (hnlink.trans hip.nlink) ▸ hr.nlink,
      Nat.two_pow_pos 32,
      fun j hj => ?_⟩
    exact (haddrs j hj).trans_lt (Nat.two_pow_pos 32)
  have hchanged := hT.sync_iupdate hi hF (by
      dsimp only
      rw [htype, hip.type]
      exact hi.2.2)
    (fun k hk hne o ho => by
      have hbyte := hall.bytes k hk hne o ho
      rwa [Function.update_of_ne hne, Function.update_of_ne hne] at hbyte) hW.size_le hall.low
  refine ⟨{ ip₂ with size := 0 }, iupdate i { ip₂ with size := 0 } img₂, ?_, dinode_iupdate hF,
    rfl, haddrs, htype, hnlink, ?_⟩
  · rw [itrunc, hloop, Option.bind_eq_bind, Option.bind_some]
    simp only [htrunc, Option.bind_some]
    rfl
  · rwa [contents_empty rfl, show (File.mk ip₂.type ip₂.nlink []) =
      ⟨(img.dinode i).type, (img.dinode i).nlink, []⟩ by
        rw [htype, hip.type, hnlink, hip.nlink]] at hchanged

/-- An inode without blocks is written, whatever its type was and is. -/
theorem Wf.putEmpty (hW : Wf img) (h1 : 1 ≤ i) (hlt : i < 200) (hF : InRange ip.toDinode)
    (haddrs : ∀ j ≤ ndirect, ip.addrs j = 0) (hsize : ip.size = 0)
    (hold : i ∈ inodes img → (img.dinode i).size = 0) :
    Changed img i (if ip.type = 0 then none else some ⟨ip.type, ip.nlink, []⟩)
    (iupdate i ip img) := by
  have hself : Same ((iupdate i ip img).dinode i) ip.toDinode := dinode_iupdate hF
  have hother : ∀ k, k ≠ i → Same ((iupdate i ip img).dinode k) (img.dinode k) := fun k hne =>
    dinode_iupdate_of_ne hne
  have hdata : ∀ o, bsize * 28 ≤ o → iupdate i ip img o = img o := fun o ho =>
    iupdate_outside (.inr (by unfold bsize at *; omega))
  have hsb : (iupdate i ip img).superblock = img.superblock :=
    superblock_congr fun o ho => iupdate_outside (.inl (by omega))
  have hbase : Tidy (iupdate i ip img).dinode (iupdate i ip img) (inodes img \ {i}) := by
    have hremove : Tidy img.dinode img (inodes img \ {i}) := by
      by_cases hi : i ∈ inodes img
      · exact hW.remove (hold hi)
      · have hdiff : inodes img \ {i} = inodes img := Set.ext fun k => ⟨fun h => h.1, fun h =>
          ⟨h, fun heq => hi (Set.mem_singleton_iff.1 heq ▸ h)⟩⟩
        rw [hdiff]
        exact hW
    exact hremove.congr (fun k hk => (hother k hk.2).addrs) (fun k hk => (hother k hk.2).size) hsb
      hdata
  have hfront : ∀ o < 2 * bsize, iupdate i ip img o = img o := fun o ho =>
    iupdate_outside (.inl (by omega))
  have hfiles : ∀ k, k ≠ i → files (iupdate i ip img) k = files img k := by
    intro k hne
    refine files_of_ne (fun _ => hother k hne) fun hk o ho => ?_
    have hlt := ho.trans_le (hW.size_le k hk)
    have hsame : ∀ y, 29 ≤ y → Mkfs.SameBlock img (iupdate i ip img) y :=
      fun y hy r _ => hdata _ (by
      have := Nat.mul_le_mul_left bsize (show 28 ≤ y by omega)
      omega)
    refine byteAt_congr (slot_congr (hother k hne).addrs fun h0 => hsame _
      (indirect_range hW.owns hk h0).1) fun h0 => hsame _ ?_
    exact (hW.owns.mem_marks (show (k, o / bsize) ∈ live img.dinode img (inodes img) from
      ⟨hk, (div_lt_maxfile hlt).le, h0⟩)).1
  have hmem : ∀ k, k ≠ i → (k ∈ inodes (iupdate i ip img) ↔ k ∈ inodes img) := fun k hne => by
    constructor
    · exact fun h => ⟨h.1, h.2.1, by rw [← (hother k hne).type]; exact h.2.2⟩
    · exact fun h => ⟨h.1, h.2.1, by rw [(hother k hne).type]; exact h.2.2⟩
  by_cases ht : ip.type = 0
  · have hi' : i ∉ inodes (iupdate i ip img) := fun h => h.2.2 (by rw [hself.type, ht])
    have hU : inodes (iupdate i ip img) = inodes img \ {i} := by
      ext k
      rcases eq_or_ne k i with rfl | hne
      · exact ⟨fun h => absurd h hi', fun h => absurd rfl h.2⟩
      · exact ⟨fun h => ⟨(hmem k hne).1 h, hne⟩, fun h => (hmem k hne).2 h.1⟩
    refine ⟨by rw [Wf, hU]; exact hbase, funext fun k => ?_, fun k _ => hother k, hfront⟩
    rcases eq_or_ne k i with rfl | hne
    · rw [Function.update_self, if_pos ht, files_none hi']
    · rw [Function.update_of_ne hne, hfiles k hne]
  · have hi' : i ∈ inodes (iupdate i ip img) := ⟨h1, hlt, by rwa [hself.type]⟩
    have hU : inodes (iupdate i ip img) = insert i (inodes img \ {i}) := by
      ext k
      rcases eq_or_ne k i with rfl | hne
      · exact ⟨fun _ => .inl rfl, fun _ => hi'⟩
      · exact ⟨fun h => .inr ⟨(hmem k hne).1 h, hne⟩, fun h => (hmem k hne).2
          (h.resolve_left hne).1⟩
    have hsize' : ((iupdate i ip img).dinode i).size = 0 := hself.size.trans hsize
    refine ⟨?_, funext fun k => ?_, fun k _ => hother k, hfront⟩
    · rw [Wf, hU]
      exact hbase.insert (fun h => h.2 rfl) (fun j hj => (hself.addrs j hj).trans (haddrs j hj))
        hsize'
    · rcases eq_or_ne k i with rfl | hne
      · rw [Function.update_self, if_neg ht, files_eq hi', hself.type, hself.nlink,
          contents_empty hsize']
      · rw [Function.update_of_ne hne, hfiles k hne]

/-- **`iput`**: a file that has lost its last link is gone, and nothing else is. -/
theorem iput_spec (hW : Wf img) (hi : i ∈ inodes img) (hip : Same ip.toDinode (img.dinode i))
    (h0 : (img.dinode i).nlink = 0) :
    ∃ img', iput i ip img = some img' ∧ Changed img i none img' := by
  obtain ⟨ip₁, img₁, htrunc, hself, hsize, haddrs, -, hnlink, hchanged⟩ := itrunc_spec hW hi hip
  have hi₁ : i ∈ inodes img₁ := mem_inodes.2 ⟨_, by rw [hchanged.files, Function.update_self]⟩
  have hF : InRange ({ ip₁ with type := 0 } : Inode).toDinode := by
    have hr := inRange_dinode img₁ i
    exact ⟨Nat.two_pow_pos 16, hself.nlink ▸ hr.nlink, hsize.trans_lt (Nat.two_pow_pos 32),
      fun j hj => (haddrs j hj).trans_lt (Nat.two_pow_pos 32)⟩
  have hchanged₂ := hchanged.wf.putEmpty hi.1 hi.2.1 hF haddrs hsize fun _ => hself.size.trans hsize
  rw [if_pos rfl] at hchanged₂
  refine ⟨_, ?_, hchanged.trans hchanged₂⟩
  rw [iput, if_pos (hip.nlink.trans h0), htrunc]
  rfl

/-- A file that still has links stays. -/
theorem iput_of_links (h0 : ip.nlink ≠ 0) : iput i ip img = some img := if_neg h0

/-- **`ialloc`** makes a new empty file. -/
theorem ialloc_spec (hW : Wf img) (htype : type < 2 ^ 16) (h0 : type ≠ 0) {inum : ℕ}
    (h : ialloc type img = some (inum, img')) :
    files img inum = none ∧ 1 ≤ inum ∧ inum < 200 ∧ Changed img inum (some ⟨type, 0, []⟩) img' := by
  rw [ialloc, hW.owns.superblock] at h
  obtain ⟨i, hfind, h⟩ := Option.bind_eq_some_iff.1 h
  obtain ⟨rfl, rfl⟩ := Prod.mk.inj (Option.some.inj h)
  have hfree : (img.dinode i).type = 0 := by
    have := List.find?_some hfind
    rwa [decide_eq_true_eq, toDinode_inodeAt] at this
  have hmem := List.mem_of_find?_eq_some hfind
  have hrange : 1 ≤ i ∧ i < 200 := by
    obtain ⟨j, hj, rfl⟩ := List.mem_drop_iff_getElem.1 hmem
    rw [List.getElem_range]
    rw [List.length_range] at hj
    exact ⟨Nat.le_add_right _ _, by rwa [Nat.add_comm]⟩
  have hnot : i ∉ inodes img := fun hi => hi.2.2 hfree
  have hF : InRange (⟨⟨type, 0, 0, fun _ => 0⟩, 0, 0⟩ : Inode).toDinode :=
    ⟨htype, ⟨by norm_num, by norm_num⟩, Nat.two_pow_pos 32, fun _ _ => Nat.two_pow_pos 32⟩
  have hchanged := hW.putEmpty hrange.1 hrange.2 hF (fun _ _ => rfl) rfl fun hi => absurd hi hnot
  rw [if_neg h0] at hchanged
  exact ⟨files_none hnot, hrange.1, hrange.2, hchanged⟩

end OsProjects.Kernel
