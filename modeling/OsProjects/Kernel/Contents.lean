import OsProjects.Kernel.Allocation

/-!
# The contents of files

Byte `o` of a file is in its block `o / bsize`, and is 0 where there is no block (`byteAt`).
Allocating changes no contents (`Extended.byteAt_eq`), a write to a block of a file changes those of
that file (`Owns.write_block`).  The loop of `writei` puts its bytes into the file and needs the
slots `spans` for it (`writeLoop_spec`); the loop of `readi` returns the bytes of the file
(`readLoop_spec`).
-/

namespace OsProjects.Kernel

open Fsck Mkfs

variable {ino ino' ino'' : ℕ → Dinode} {img img' img'' : Image} {S T : Set (ℕ × ℕ)} {U : Set ℕ}
  {i j b k m n r x y o off : ℕ} {p q : ℕ × ℕ} {d : Dinode} {ip : Inode} {bs cs src : List UInt8}

/-- Byte `o` of a file. -/
def byteAt (img : Image) (d : Dinode) (o : ℕ) : UInt8 :=
  if slot img d (o / bsize) = 0 then 0 else img (bsize * slot img d (o / bsize) + o % bsize)

theorem div_lt_maxfile (h : o < bsize * maxfile) : o / bsize < maxfile := Nat.div_lt_of_lt_mul h

theorem mod_lt_bsize (o : ℕ) : o % bsize < bsize := Nat.mod_lt _ (by decide)

theorem Extended.byteAt_eq (h : Extended ino img ino' img' U S) (hk : k ∈ U)
    (ho : o < bsize * maxfile) :
    byteAt img' (ino' k) o = byteAt img (ino k) o := by
  have hm := div_lt_maxfile ho
  have hslot : ∀ (ino : ℕ → Dinode) (img : Image), slot img (ino k) (o / bsize) =
      addr ino img (k, o / bsize) := fun _ _ => rfl
  rw [byteAt, byteAt, hslot, hslot]
  by_cases h0 : addr ino img (k, o / bsize) = 0
  · rw [if_pos h0]
    split
    · rfl
    · rename_i hne
      have hmem : (k, o / bsize) ∈ Kernel.live ino' img' U := ⟨hk, hm.le, hne⟩
      rw [h.live] at hmem
      exact h.zero _ (hmem.resolve_left fun hl => hl.2.2 h0) (fun hl => hl.2.2 h0) hm _
        (mod_lt_bsize o)
  · have hmem : (k, o / bsize) ∈ Kernel.live ino img U := ⟨hk, hm.le, h0⟩
    rw [if_neg h0, h.kept _ hmem, if_neg h0]
    exact h.same _ hmem hm _ (mod_lt_bsize o)

/-! ### A write to a block -/

/-- From `ino`, `img` to `ino'`, `img'` the slots `S` have been allocated as far as they were
missing, and `bs` has been written to file `i` from offset `off` on. -/
structure Written (ino : ℕ → Dinode) (img : Image) (ino' : ℕ → Dinode) (img' : Image) (U : Set ℕ)
    (S : Set (ℕ × ℕ)) (i off : ℕ) (bs : List UInt8) : Prop where
  owns : Owns ino' img' (live ino' img' U)
  live : live ino' img' U = live ino img U ∪ S
  kept : ∀ q ∈ Kernel.live ino img U, addr ino' img' q = addr ino img q
  self : ∀ o < bsize * maxfile, byteAt img' (ino' i) o = (Bytes.write (byteAt img (ino i)) off bs) o
  other : ∀ k ∈ U, k ≠ i → ∀ o < bsize * maxfile, byteAt img' (ino' k) o = byteAt img (ino k) o
  low : ∀ o < bsize * 28, img' o = img o

theorem write_sameBlock (hlen : r + bs.length ≤ bsize) (hne : y ≠ x) :
    Mkfs.SameBlock img (img.write (bsize * x + r) bs) y := by
  intro s hs
  rcases Nat.lt_or_gt_of_ne hne with h | h
  · refine Bytes.write_of_lt ?_
    have hmul := Nat.mul_le_mul_left bsize (Nat.succ_le_of_lt h)
    rw [Nat.mul_succ] at hmul
    omega
  · refine Bytes.write_of_le ?_
    have hmul := Nat.mul_le_mul_left bsize (Nat.succ_le_of_lt h)
    rw [Nat.mul_succ] at hmul
    omega

theorem write_shift (hb : y / bsize = b) {f : Bytes}
    (hf : f y = img (bsize * x + y % bsize)) :
    img.write (bsize * x + r) bs (bsize * x + y % bsize) = f.write (bsize * b + r) bs y := by
  have hdiv := Nat.div_add_mod y bsize
  rw [hb] at hdiv
  rcases lt_or_ge (y % bsize) r with hlt | hge
  · rw [Bytes.write_of_lt (by omega), Bytes.write_of_lt (by omega), hf]
  rcases lt_or_ge (y % bsize) (r + bs.length) with hin | hout
  · obtain ⟨s, hs⟩ := Nat.exists_eq_add_of_le hge
    rw [hs, ← Nat.add_assoc, Bytes.write_inside (by omega),
      show y = bsize * b + r + s by omega, Bytes.write_inside (by omega)]
  · rw [Bytes.write_of_le (by omega), Bytes.write_of_le (by omega), hf]

theorem Owns.write_block (hO : Owns ino img (live ino img U)) (hp : (i, b) ∈ live ino img U)
    (hb : b < maxfile) (hlen : r + bs.length ≤ bsize) :
    Written ino img ino (img.write (bsize * addr ino img (i, b) + r) bs) U ∅ i (bsize * b + r)
    bs := by
  have hrange := hO.mem_marks hp
  have hlow : ∀ o < bsize * 29, (img.write (bsize * addr ino img (i, b) + r) bs) o = img o :=
    fun o ho => Bytes.write_of_lt (by
      have := Nat.mul_le_mul_left bsize hrange.1
      omega)
  have hsame : ∀ y, y ≠ addr ino img (i, b) →
      Mkfs.SameBlock img (img.write (bsize * addr ino img (i, b) + r) bs) y := fun y hy =>
    write_sameBlock hlen hy
  -- no indirect block is written
  have haddr : ∀ q : ℕ × ℕ, q.1 ∈ U →
      addr ino (img.write (bsize * addr ino img (i, b) + r) bs) q = addr ino img q := fun q hq =>
    slot_congr (fun _ _ => rfl) fun h0 => hsame _ fun heq => by
      have hpair := hO.owned.injOn (live_indirect hq h0) hp (by rw [addr, slot_indirect]; exact heq)
      rw [← (Prod.mk.inj hpair).2] at hb
      exact lt_irrefl _ hb
  have hlive : live ino (img.write (bsize * addr ino img (i, b) + r) bs) U = live ino img U := by
    ext q
    rw [mem_live, mem_live]
    constructor
    · rintro ⟨hq, hqm, hne⟩
      rw [haddr q hq] at hne
      exact ⟨hq, hqm, hne⟩
    · rintro ⟨hq, hqm, hne⟩
      rw [← haddr q hq] at hne
      exact ⟨hq, hqm, hne⟩
  refine ⟨?_, by rw [hlive, Set.union_empty], fun q hq => haddr q hq.1, fun o ho => ?_,
    fun k hk hne o ho => ?_,
    fun o ho => hlow o (by unfold bsize at *; omega)⟩
  · rw [hlive]
    refine hO.congr (superblock_low fun o ho => hlow o (by unfold bsize at *; omega))
      (fun y hy => marked_congr (fun o _ ho => hlow o ho) (hy.trans (by decide)))
      (fun q hq => haddr q hq.1) fun y _ hfree => hsame y fun heq => hO.ne_addr hfree hp heq.symm
  · have hslot : slot (img.write (bsize * addr ino img (i, b) + r) bs) (ino i) (o / bsize) =
        slot img (ino i) (o / bsize) := haddr (i, o / bsize) hp.1
    rcases eq_or_ne (o / bsize) b with hob | hob
    · have hx : slot img (ino i) (o / bsize) = addr ino img (i, b) := by rw [hob]; rfl
      rw [byteAt, hslot, hx, if_neg hp.2.2]
      exact write_shift hob (by rw [byteAt, hx, if_neg hp.2.2])
    · have hdiv := Nat.div_add_mod o bsize
      have hmod := mod_lt_bsize o
      have hout : (Bytes.write (byteAt img (ino i)) (bsize * b + r) bs) o =
          byteAt img (ino i) o := by
        rcases Nat.lt_or_gt_of_ne hob with h | h
        · refine Bytes.write_of_lt ?_
          have hmul := Nat.mul_le_mul_left bsize (Nat.succ_le_of_lt h)
          rw [Nat.mul_succ] at hmul
          omega
        · refine Bytes.write_of_le ?_
          have hmul := Nat.mul_le_mul_left bsize (Nat.succ_le_of_lt h)
          rw [Nat.mul_succ] at hmul
          omega
      rw [hout, byteAt, byteAt, hslot]
      split
      · rfl
      · rename_i h0
        refine hsame _ (fun heq => hob ?_) _ hmod
        have hmem : (i, o / bsize) ∈ live ino img U := ⟨hp.1, (div_lt_maxfile ho).le, h0⟩
        exact (Prod.mk.inj (hO.owned.injOn hmem hp heq)).2
  · have hslot : slot (img.write (bsize * addr ino img (i, b) + r) bs) (ino k) (o / bsize) =
        slot img (ino k) (o / bsize) := haddr (k, o / bsize) hk
    rw [byteAt, byteAt, hslot]
    split
    · rfl
    · rename_i h0
      refine hsame _ (fun heq => hne ?_) _ (mod_lt_bsize o)
      have hmem : (k, o / bsize) ∈ live ino img U := ⟨hk, (div_lt_maxfile ho).le, h0⟩
      exact (Prod.mk.inj (hO.owned.injOn hmem hp heq)).1

/-! ### Writing -/

/-- The slots that `n` bytes of file `i` from offset `off` on need. -/
def spans (i off n : ℕ) : Set (ℕ × ℕ) :=
  {p | p.1 = i ∧ 0 < n ∧ (off / bsize ≤ p.2 ∧ p.2 < maxfile ∧ bsize * p.2 < off + n ∨
    p.2 = maxfile ∧ bsize * ndirect < off + n)}

/-- The first block of a span and the rest of it. -/
theorem spans_eq (hn : 0 < n) (hmax : off + n ≤ bsize * maxfile) :
    spans i off n = needs i (off / bsize) ∪
      spans i (off + min n (bsize - off % bsize)) (n - min n (bsize - off % bsize)) := by
  have hdiv := Nat.div_add_mod off bsize
  have hmod := mod_lt_bsize off
  ext ⟨k, b⟩
  simp only [spans, needs, Set.mem_ofPred_eq, Set.mem_union]
  unfold maxfile ndirect nindirect bsize at *
  rcases Nat.le_total n (512 - off % 512) with h | h
  · rw [min_eq_left h]
    omega
  · rw [min_eq_right h]
    omega

theorem needs_subset_spans (hn : 0 < n) (hmax : off + n ≤ bsize * maxfile) :
    needs i (off / bsize) ⊆ spans i off n := by
  rw [spans_eq hn hmax]
  exact Set.subset_union_left

theorem finite_spans : (spans i off n).Finite := by
  refine ((Set.finite_le_nat maxfile).image (Prod.mk i)).subset ?_
  rintro ⟨k, b⟩ ⟨hk, -, ⟨-, hb, -⟩ | ⟨hb, -⟩⟩
  · exact ⟨b, hb.le, Prod.ext hk.symm rfl⟩
  · exact ⟨b, hb.le, Prod.ext hk.symm rfl⟩

theorem write_append (f : Bytes) (o : ℕ) (bs cs : List UInt8) :
    (f.write o bs).write (o + bs.length) cs = f.write o (bs ++ cs) := by
  funext a
  rcases lt_or_ge a o with h | h
  · rw [Bytes.write_of_lt (by omega), Bytes.write_of_lt h, Bytes.write_of_lt h]
  obtain ⟨k, rfl⟩ := Nat.exists_eq_add_of_le h
  rcases lt_or_ge k bs.length with hk | hk
  · rw [Bytes.write_of_lt (by omega), Bytes.write_inside hk,
      Bytes.write_inside (by rw [List.length_append]; omega), List.getD_append _ _ _ _ hk]
  obtain ⟨m, rfl⟩ := Nat.exists_eq_add_of_le hk
  rcases lt_or_ge m cs.length with hm | hm
  · rw [← Nat.add_assoc, Bytes.write_inside hm, Nat.add_assoc,
      Bytes.write_inside (by rw [List.length_append]; omega),
      List.getD_append_right _ _ _ _ (by omega),
      Nat.add_sub_cancel_left]
  · rw [Bytes.write_of_le (by omega), Bytes.write_of_le (by omega),
      Bytes.write_of_le (by rw [List.length_append]; omega)]

namespace Written

theorem of_extended (h : Extended ino img ino' img' U S) (hi : i ∈ U) :
    Written ino img ino' img' U S i off [] := by
  refine ⟨h.owns, h.live, h.kept, fun o ho => ?_, fun k hk _ o ho => h.byteAt_eq hk ho, h.low⟩
  have hnil : (Bytes.write (byteAt img (ino i)) off []) o = byteAt img (ino i) o := by
    rcases lt_or_ge o off with hlt | hge
    · exact Bytes.write_of_lt hlt
    · exact Bytes.write_of_le hge
  rw [hnil, h.byteAt_eq hi ho]

theorem trans (h : Written ino img ino' img' U S i off bs)
    (h' : Written ino' img' ino'' img'' U T i (off + bs.length) cs) :
    Written ino img ino'' img'' U (S ∪ T) i off (bs ++ cs) := by
  refine ⟨h'.owns, by rw [h'.live, h.live, Set.union_assoc], fun q hq => ?_, fun o ho => ?_,
    fun k hk hne o ho => ?_, fun o ho => (h'.low o ho).trans (h.low o ho)⟩
  · rw [h'.kept q (by rw [h.live]; exact .inl hq), h.kept q hq]
  · rw [← write_append, h'.self o ho]
    unfold Bytes.write
    rw [h.self o ho]
    rfl
  · rw [h'.other k hk hne o ho, h.other k hk hne o ho]

/-- Where no slot was missing the addresses are the same. -/
theorem addr_eq (h : Written ino img ino' img' U S i off bs) (hS : S ⊆ Kernel.live ino img U)
    (hq : q.1 ∈ U) (hm : q.2 ≤ maxfile) : addr ino' img' q = addr ino img q := by
  have hlive : Kernel.live ino' img' U = Kernel.live ino img U := by
    rw [h.live, Set.union_eq_left.2 hS]
  by_cases h0 : addr ino img q = 0
  · rw [h0]
    by_contra hne
    have hmem : q ∈ Kernel.live ino' img' U := ⟨hq, hm, hne⟩
    rw [hlive] at hmem
    exact hmem.2.2 h0
  · exact h.kept q ⟨hq, hm, h0⟩

end Written

theorem writeLoop_zero : writeLoop ip src off 0 img = some (ip, img) := by
  rw [writeLoop, if_pos rfl]

theorem writeLoop_step {ip' : Inode} {img' : Image} (hn : n ≠ 0)
    (hbmap : bmap ip (off / bsize) img = some (x, ip', img')) :
    writeLoop ip src off n img = writeLoop ip' (src.drop (min n (bsize - off % bsize)))
      (off + min n (bsize - off % bsize)) (n - min n (bsize - off % bsize))
      (img'.write (bsize * x + off % bsize) (src.take (min n (bsize - off % bsize)))) := by
  rw [writeLoop, if_neg hn, hbmap]
  rfl

/-- **The loop of `writei`** puts `n` bytes into the file. -/
theorem writeLoop_spec (hO : Owns ino img (live ino img U)) (hi : i ∈ U) (hip : ip.toDinode = ino i)
    (hlen : n ≤ src.length) (hmax : off + n ≤ bsize * maxfile)
    (hroom : (live ino img U ∪ spans i off n).ncard ≤ 995) :
    ∃ ip' img', writeLoop ip src off n img = some (ip', img') ∧
      Written ino img (Function.update ino i ip'.toDinode) img' U (spans i off n) i off
      (src.take n) ∧
      SameHead ip ip' := by
  induction n using Nat.strongRecOn generalizing ino ip img src off with
  | ind n ih =>
  have hself : Function.update ino i ip.toDinode = ino := by rw [hip, Function.update_eq_self]
  rcases Nat.eq_zero_or_pos n with rfl | hn
  · refine ⟨ip, img, writeLoop_zero, ?_, SameHead.refl ip⟩
    rw [hself, List.take_zero]
    refine Written.of_extended (Extended.refl hO ?_) hi
    rintro p ⟨-, hlt, -⟩
    exact absurd hlt (lt_irrefl 0)
  have hfin : (live ino img U ∪ spans i off n).Finite := hO.finite.union finite_spans
  have hdiv := Nat.div_add_mod off bsize
  have hmod := mod_lt_bsize off
  have hbn : off / bsize < maxfile := div_lt_maxfile (by omega)
  obtain ⟨m, hm⟩ : ∃ m, m = min n (bsize - off % bsize) := ⟨_, rfl⟩
  have hmpos : 0 < m := by omega
  have hmlen : (src.take m).length = m := by
    rw [List.length_take]
    omega
  have hroom₁ : (live ino img U ∪ needs i (off / bsize)).ncard ≤ 995 :=
    (Set.ncard_le_ncard (Set.union_subset_union_right _ (needs_subset_spans hn hmax)) hfin).trans
    hroom
  obtain ⟨ip₁, img₁, hbmap, hext, hhead⟩ := bmap_spec hO hi hip hbn hroom₁
  have hmem : (i, off / bsize) ∈ live (Function.update ino i ip₁.toDinode) img₁ U := by
    rw [hext.live]
    exact .inr ⟨rfl, .inl rfl⟩
  have hfit : off % bsize + (src.take m).length ≤ bsize := by
    rw [hmlen]
    omega
  have hblock := hext.owns.write_block hmem hbn hfit
  rw [hdiv] at hblock
  have hfirst : Written ino img _ _ U _ i off ([] ++ src.take m) :=
    (Written.of_extended hext hi).trans (by rw [List.length_nil, Nat.add_zero]; exact hblock)
  rw [List.nil_append, Set.union_empty] at hfirst
  have hlen₁ : n - m ≤ (src.drop m).length := by
    rw [List.length_drop]
    omega
  have hmax₁ : off + m + (n - m) ≤ bsize * maxfile := by omega
  obtain ⟨ip₂, img₂, hloop, hrest, hhead₂⟩ := ih (n - m) (by omega) hfirst.owns
    (Function.update_self i ip₁.toDinode ino).symm hlen₁ hmax₁ (by
      rw [hfirst.live, Set.union_assoc, hm, ← spans_eq hn hmax]
      exact hroom)
  rw [Function.update_idem] at hrest
  refine ⟨ip₂, img₂, ?_, ?_, hhead.trans hhead₂⟩
  · rw [writeLoop_step (Nat.pos_iff_ne_zero.1 hn) hbmap, ← hm]
    exact hloop
  · have hall : Written ino img _ _ U _ i off (src.take m ++ (src.drop m).take (n - m)) :=
      hfirst.trans (by rw [hmlen]; exact hrest)
    rw [← List.take_add, show m + (n - m) = n by omega, hm, ← spans_eq hn hmax] at hall
    exact hall

/-! ### Reading -/

/-- `bmap` of a block that is there changes nothing. -/
theorem bmap_old {bn : ℕ} (hbn : bn < maxfile) (h0 : slot img ip.toDinode bn ≠ 0) :
    bmap ip bn img = some (slot img ip.toDinode bn, ip, img) := by
  rcases lt_or_ge bn ndirect with hd | hd
  · rw [slot_direct hd] at h0 ⊢
    rw [bmap, if_pos hd, bmapAddr, if_neg h0]
    rfl
  · have hb : ip.addrs ndirect ≠ 0 := fun h => h0 (slot_entry_zero hd hbn h)
    have hk : bn - ndirect < nindirect := by
      unfold maxfile at hbn
      omega
    rw [slot_entry hd hbn hb] at h0 ⊢
    rw [bmap, if_neg (not_lt.2 hd), if_pos hk, bmapAddr, if_neg hb]
    simp only [pure, Option.bind_eq_bind, Option.bind_some, bmapEntry, if_neg h0]

/-- The blocks of the `n` bytes from `off` on are there. -/
def Backed (img : Image) (d : Dinode) (off n : ℕ) : Prop :=
  off + n ≤ bsize * maxfile ∧ ∀ b, off / bsize ≤ b → bsize * b < off + n → slot img d b ≠ 0

/-- **The loop of `readi`** returns the bytes of the file. -/
theorem readLoop_spec (h : Backed img ip.toDinode off n) : readLoop ip off n img =
    some ((List.range n).map fun r => byteAt img ip.toDinode (off + r), ip, img) := by
  induction n using Nat.strongRecOn generalizing off with
  | ind n ih =>
  rcases Nat.eq_zero_or_pos n with rfl | hn
  · rw [readLoop, if_pos rfl]
    rfl
  obtain ⟨hmax, hall⟩ := h
  have hdiv := Nat.div_add_mod off bsize
  have hmod := mod_lt_bsize off
  have hbn : off / bsize < maxfile := div_lt_maxfile (by omega)
  have h0 := hall (off / bsize) le_rfl (by omega)
  obtain ⟨m, hm⟩ : ∃ m, m = min n (bsize - off % bsize) := ⟨_, rfl⟩
  have hmn : m ≤ n := by omega
  have hbacked : Backed img ip.toDinode (off + m) (n - m) := ⟨by omega, fun b hb hlt' =>
    hall b ((Nat.div_le_div_right (Nat.le_add_right off m)).trans hb) (by omega)⟩
  have hrest := ih (n - m) (by omega) hbacked
  have hbytes : (List.range m).map (fun r => img (bsize * slot img ip.toDinode (off / bsize) +
      off % bsize + r)) = (List.range m).map fun r => byteAt img ip.toDinode (off + r) := by
    refine List.map_congr_left fun r hr => ?_
    have hr := List.mem_range.1 hr
    have hdiv' : (off + r) / bsize = off / bsize := by
      unfold bsize at *
      omega
    have hmod' : (off + r) % bsize = off % bsize + r := by
      unfold bsize at *
      omega
    rw [byteAt, hdiv', if_neg h0, hmod', Nat.add_assoc]
  have hsplit : (List.range n).map (fun r => byteAt img ip.toDinode (off + r)) =
      (List.range m).map (fun r => byteAt img ip.toDinode (off + r)) ++
        (List.range (n - m)).map fun r => byteAt img ip.toDinode (off + m + r) := by
    conv_lhs => rw [show n = m + (n - m) by omega]
    rw [List.range_add, List.map_append, List.map_map]
    congr 1
    exact List.map_congr_left fun r _ => by rw [Function.comp_apply, Nat.add_assoc]
  rw [readLoop, if_neg (Nat.pos_iff_ne_zero.1 hn), bmap_old hbn h0, Option.bind_eq_bind,
    Option.bind_some]
  simp only [← hm, hrest, Option.bind_eq_bind, Option.bind_some]
  rw [hsplit, hbytes]
  rfl

end OsProjects.Kernel
