import OsProjects.Kernel.Inodes

/-!
# Reading and writing files

A file is its type, the number of its links and its bytes (`File`), and the files of an image are
those of its inodes in use (`files`).  On a tidy image `readi` returns a piece of a file and changes
nothing (`readi_spec`); `writei` puts bytes into one file, and leaves the others and the tidiness
alone (`writei_spec`).
-/

namespace OsProjects.Kernel

open Fsck Mkfs

variable {ino ino' : ℕ → Dinode} {img img' : Image} {S : Set (ℕ × ℕ)} {U : Set ℕ}
  {i j b k m n o off type : ℕ} {p q : ℕ × ℕ} {d d' : Dinode} {ip : Inode} {bs src l : List UInt8}

/-- The inodes in use. -/
def inodes (img : Image) : Set ℕ := {i | 1 ≤ i ∧ i < 200 ∧ (img.dinode i).type ≠ 0}

/-- A tidy image. -/
def Wf (img : Image) : Prop := Tidy img.dinode img (inodes img)

/-- A file, without its device numbers. -/
structure File where
  type : ℕ
  nlink : ℤ
  data : List UInt8

/-- The bytes of a file. -/
def contents (img : Image) (d : Dinode) : List UInt8 := (List.range d.size).map (byteAt img d)

/-- The files of an image, by inode number. -/
def files (img : Image) (i : ℕ) : Option File :=
  if 1 ≤ i ∧ i < 200 ∧ (img.dinode i).type ≠ 0 then
    some ⟨(img.dinode i).type, (img.dinode i).nlink, contents img (img.dinode i)⟩
  else none

theorem files_eq (hi : i ∈ inodes img) : files img i =
    some ⟨(img.dinode i).type, (img.dinode i).nlink, contents img (img.dinode i)⟩ := if_pos hi

theorem files_none (hi : i ∉ inodes img) : files img i = none := if_neg hi

theorem mem_inodes : i ∈ inodes img ↔ ∃ f, files img i = some f := by
  constructor
  · exact fun hi => ⟨_, files_eq hi⟩
  · rintro ⟨f, hf⟩
    by_contra hi
    rw [files_none hi] at hf
    cases hf

theorem toDinode_inodeAt : (inodeAt img (inodeOff i)).toDinode = img.dinode i := by
  rw [inodeOff_eq]
  rfl

theorem same_inodeAt : Same (inodeAt img (inodeOff i)).toDinode (img.dinode i) := by
  rw [toDinode_inodeAt]
  exact .refl _

/-- `ilock` of an inode in use. -/
theorem ilock_eq (hi : i ∈ inodes img) : ilock i img = some (inodeAt img (inodeOff i)) := by
  have htype : (inodeAt img (inodeOff i)).type = (img.dinode i).type := by rw [toDinode_inodeAt]
  exact if_neg (by rw [htype]; exact hi.2.2)

theorem length_contents : (contents img d).length = d.size := by
  rw [contents, List.length_map, List.length_range]

theorem getElem_contents (h : o < (contents img d).length) :
    (contents img d)[o] = byteAt img d o := by
  simp only [contents, List.getElem_map, List.getElem_range]

/-- Another file has changed. -/
theorem files_of_ne (hother : k < 200 → Same (img'.dinode k) (img.dinode k))
    (hbyte : k ∈ inodes img → ∀ o < (img.dinode k).size,
      byteAt img' (img'.dinode k) o = byteAt img (img.dinode k) o) :
    files img' k = files img k := by
  by_cases hk : k ∈ inodes img
  · have hsame := hother hk.2.1
    have hk' : k ∈ inodes img' := ⟨hk.1, hk.2.1, by rw [hsame.type]; exact hk.2.2⟩
    have hcontents : contents img' (img'.dinode k) = contents img (img.dinode k) := by
      rw [contents, contents, hsame.size]
      exact List.map_congr_left fun o ho => hbyte hk o (List.mem_range.1 ho)
    rw [files_eq hk, files_eq hk', hsame.type, hsame.nlink, hcontents]
  · have hk' : k ∉ inodes img' :=
      fun h => hk ⟨h.1, h.2.1, by rw [← (hother h.2.1).type]; exact h.2.2⟩
    rw [files_none hk, files_none hk']

/-! ### Reading -/

theorem Same.symm (h : Same d d') : Same d' d :=
  ⟨h.type.symm, h.nlink.symm, h.size.symm, fun j hj => (h.addrs j hj).symm⟩

theorem byteAt_same (h : Same d' d) (o : ℕ) : byteAt img d' o = byteAt img d o :=
  byteAt_congr (slot_congr h.addrs fun _ => sameBlock_refl) fun _ => sameBlock_refl

theorem contents_same (h : Same d' d) : contents img d' = contents img d := by
  rw [contents, contents, h.size]
  exact List.map_congr_left fun o _ => byteAt_same h o

/-- The inode of a file is the copy in memory. -/
theorem Wf.copy (hW : Wf img) (hip : Same d (img.dinode i)) :
    Tidy (Function.update img.dinode i d) img (inodes img) := by
  refine hW.congr (fun k _ j hj => ?_) (fun k _ => ?_) rfl fun _ _ => rfl
  · rcases eq_or_ne k i with rfl | hne
    · rw [Function.update_self, hip.addrs j hj]
    · rw [Function.update_of_ne hne]
  · rcases eq_or_ne k i with rfl | hne
    · rw [Function.update_self, hip.size]
    · rw [Function.update_of_ne hne]

theorem Tidy.backed (hT : Tidy ino img U) (hi : i ∈ U) (h : off + n ≤ (ino i).size) :
    Backed img (ino i) off n := by
  have hle := hT.size_le i hi
  refine ⟨h.trans hle, fun b _ hlt => ?_⟩
  have hb : b < maxfile := by
    have hlt' := hlt.trans_le (h.trans hle)
    exact Nat.lt_of_mul_lt_mul_left hlt'
  have hmem : (i, b) ∈ live ino img U := by
    rw [hT.slots]
    exact ⟨hi, .inl ⟨hb, hlt.trans_le h⟩⟩
  exact hmem.2.2

/-- A piece of a file. -/
theorem map_byteAt (h : off + n ≤ d.size) :
    (List.range n).map (fun r => byteAt img d (off + r)) = ((contents img d).drop off).take n := by
  refine List.ext_getElem ?_ fun o ho ho' => ?_
  · rw [List.length_map, List.length_range, List.length_take, List.length_drop, length_contents]
    omega
  · rw [List.getElem_map, List.getElem_range, List.getElem_take, List.getElem_drop,
      getElem_contents]

/-- **`readi`** returns a piece of the file. -/
theorem readi_spec (hT : Tidy ino img U) (hi : i ∈ U) (hip : ip.toDinode = ino i)
    (hoff : off ≤ (ino i).size) (hn : off + n < 2 ^ 32) :
    readi ip off n img = some (some (((contents img (ino i)).drop off).take n), ip, img) := by
  have hsize : ip.size = (ino i).size := by rw [← hip]
  have hmod : (off + n) % 2 ^ 32 = off + n := Nat.mod_eq_of_lt hn
  obtain ⟨m, hm⟩ : ∃ m, m = if (ino i).size < off + n then (ino i).size - off else n := ⟨_, rfl⟩
  have hle : off + m ≤ (ino i).size := by
    rw [hm]
    split <;> omega
  have hcut : ((contents img (ino i)).drop off).take n =
      ((contents img (ino i)).drop off).take m := by
    rw [hm]
    split
    · rw [List.take_of_length_le, List.take_of_length_le]
      · rw [List.length_drop, length_contents]
      · rw [List.length_drop, length_contents]
        omega
    · rfl
  have hloop := readLoop_spec (hip ▸ hT.backed hi hle)
  rw [readi, hsize, hmod, if_neg (by omega), ← hm]
  simp only [hloop, Option.bind_eq_bind, Option.bind_some, hip, map_byteAt hle, hcut]
  rfl

/-- A piece that does not start in the file. -/
theorem readi_behind (h : ip.size < off ∨ (off + n) % 2 ^ 32 < off) :
    readi ip off n img = some (none, ip, img) := if_pos h

/-! ### Writing -/

/-- The list `l` with `bs` in it from place `off` on. -/
def splice (l : List UInt8) (off : ℕ) (bs : List UInt8) : List UInt8 :=
  l.take off ++ bs ++ l.drop (off + bs.length)

theorem length_splice (h : off ≤ l.length) :
    (splice l off bs).length = max l.length (off + bs.length) := by
  rw [splice, List.length_append, List.length_append, List.length_take, List.length_drop]
  omega

theorem getD_splice (h : off ≤ l.length) (ho : o < max l.length (off + bs.length)) :
    (splice l off bs).getD o 0 = (Bytes.write (fun o => l.getD o 0) off bs) o := by
  have htake : (l.take off).length = off := by
    rw [List.length_take]
    omega
  rw [splice, List.append_assoc]
  rcases lt_or_ge o off with hlt | hge
  · rw [List.getD_append _ _ _ _ (by omega), Bytes.write_of_lt hlt, List.getD_eq_getElem?_getD,
      List.getElem?_take_of_lt hlt, ← List.getD_eq_getElem?_getD]
  obtain ⟨r, rfl⟩ := Nat.exists_eq_add_of_le hge
  rw [List.getD_append_right _ _ _ _ (by omega), htake, Nat.add_sub_cancel_left]
  rcases lt_or_ge r bs.length with hr | hr
  · rw [List.getD_append _ _ _ _ hr, Bytes.write_inside hr]
  · obtain ⟨s, rfl⟩ := Nat.exists_eq_add_of_le hr
    rw [List.getD_append_right _ _ _ _ hr, Nat.add_sub_cancel_left, Bytes.write_of_le (by omega),
      List.getD_eq_getElem?_getD, List.getElem?_drop, ← List.getD_eq_getElem?_getD, Nat.add_assoc]

/-- The contents after a write. -/
theorem contents_write (hoff : off ≤ d.size) (hsize : d'.size = max d.size (off + bs.length))
    (hmax : d'.size ≤ bsize * maxfile)
    (htail : ∀ o, d.size ≤ o → o < bsize * maxfile → byteAt img d o = 0)
    (hself : ∀ o < bsize * maxfile, byteAt img' d' o = (Bytes.write (byteAt img d) off bs) o) :
    contents img' d' = splice (contents img d) off bs := by
  have hlen : (contents img d).length = d.size := length_contents
  refine List.ext_getElem ?_ fun o ho ho' => ?_
  · rw [length_contents, length_splice (by omega), hlen, hsize]
  · rw [length_contents] at ho
    have hget : ∀ o < bsize * maxfile, (contents img d).getD o 0 = byteAt img d o := by
      intro o ho
      rcases lt_or_ge o d.size with hlt | hge
      · rw [List.getD_eq_getElem _ _ (by rwa [hlen]), getElem_contents]
      · rw [List.getD_eq_default _ _ (by rwa [hlen]), htail o hge ho]
    rw [← List.getD_eq_getElem _ 0 ho', getD_splice (by omega) (by rw [hlen, ← hsize]; exact ho)]
    have hwrite : (Bytes.write (fun o => (contents img d).getD o 0) off bs) o =
        (Bytes.write (byteAt img d) off bs) o := by
      unfold Bytes.write
      dsimp only
      rw [hget o (by omega)]
    rw [hwrite, ← hself o (by omega), getElem_contents]

theorem tableSlots_spans {size : ℕ → ℕ} (hi : i ∈ U) (hoff : off ≤ size i)
    (hmax : off + n ≤ bsize * maxfile) :
    tableSlots U size ∪ spans i off n =
      tableSlots U (Function.update size i (max (size i) (off + n))) := by
  ext ⟨k, b⟩
  simp only [tableSlots, spans, Set.mem_union, Set.mem_ofPred_eq]
  rcases eq_or_ne k i with rfl | hk
  · rw [Function.update_self]
    simp only [covered, Set.mem_ofPred_eq]
    unfold maxfile ndirect nindirect bsize at *
    rcases Nat.le_total (size k) (off + n) with h | h
    · rw [max_eq_right h]
      constructor
      · rintro (⟨-, h⟩ | ⟨-, -, h⟩)
        · exact ⟨hi, by omega⟩
        · exact ⟨hi, by omega⟩
      · rintro ⟨-, h⟩
        by_cases hlt : (b < 12 + 128 ∧ 512 * b < size k) ∨ (b = 12 + 128 ∧ 512 * 12 < size k)
        · exact .inl ⟨hi, hlt⟩
        · exact .inr ⟨trivial, by omega, by omega⟩
    · rw [max_eq_left h]
      constructor
      · rintro (h | ⟨-, -, h⟩)
        · exact h
        · exact ⟨hi, by omega⟩
      · exact .inl
  · rw [Function.update_of_ne hk]
    tauto

/-- After a write, with the size of the file as it is then. -/
theorem Written.tidy (h : Written ino img (Function.update ino i d) img' U (spans i off n) i off bs)
    (hT : Tidy ino img U) (hi : i ∈ U) (hoff : off ≤ (ino i).size) (hn : bs.length = n)
    (hmax : off + n ≤ bsize * maxfile) (haddrs : ∀ j ≤ ndirect, d'.addrs j = d.addrs j)
    (hsize : d'.size = max (ino i).size (off + n)) : Tidy (Function.update ino i d') img' U := by
  have haddr : ∀ q : ℕ × ℕ, q.1 ∈ U → q.2 ≤ maxfile →
      addr (Function.update ino i d') img' q = addr (Function.update ino i d) img' q := by
    rintro ⟨k, b⟩ - -
    rcases eq_or_ne k i with rfl | hk
    · rw [addr_update_self, addr_update_self]
      exact slot_congr haddrs fun _ => sameBlock_refl
    · rw [addr_update_of_ne hk, addr_update_of_ne hk]
  have hlive := live_congr haddr
  have hbyte : ∀ o, byteAt img' d' o = byteAt img' d o := fun o =>
    byteAt_congr (slot_congr haddrs fun _ => sameBlock_refl) fun _ => sameBlock_refl
  have hsizes : (fun k => (Function.update ino i d' k).size) =
      Function.update (fun k => (ino k).size) i (max (ino i).size (off + n)) := by
    funext k
    rcases eq_or_ne k i with rfl | hk
    · rw [Function.update_self, Function.update_self, hsize]
    · rw [Function.update_of_ne hk, Function.update_of_ne hk]
  refine ⟨?_, fun k hk => ?_, ?_, fun k hk o ho hlt => ?_⟩
  · rw [hlive]
    exact h.owns.congr rfl (fun _ _ => rfl) (fun q hq => haddr q hq.1 hq.2.1) fun _ _ _ =>
      sameBlock_refl
  · rcases eq_or_ne k i with rfl | hne
    · rw [Function.update_self, hsize]
      have := hT.size_le k hk
      omega
    · rw [Function.update_of_ne hne]
      exact hT.size_le k hk
  · rw [hlive, h.live, hT.slots, tableSlots_spans hi hoff hmax, hsizes]
  · rcases eq_or_ne k i with rfl | hne
    · rw [Function.update_self] at ho ⊢
      have hself := h.self o hlt
      rw [Function.update_self] at hself
      rw [hbyte, hself, Bytes.write_of_le (by omega)]
      exact hT.tail k hk o (by omega) hlt
    · rw [Function.update_of_ne hne] at ho ⊢
      have hother := h.other k hk hne o hlt
      rw [Function.update_of_ne hne] at hother
      rw [hother]
      exact hT.tail k hk o ho hlt

theorem sub_cut (hoff : off ≤ maxfile * bsize) (hlen : off + src.length < 2 ^ 32) :
    (if maxfile * bsize < (off + src.length) % 2 ^ 32 then usub (maxfile * bsize) off
      else src.length) = min src.length (bsize * maxfile - off) := by
  rw [Nat.mod_eq_of_lt hlen, usub, Nat.mul_comm bsize]
  have hle : maxfile * bsize < 2 ^ 32 := by decide
  split <;> omega

theorem Tidy.addrs_lt (hT : Tidy ino img U) (hi : i ∈ U) (hj : j ≤ ndirect) :
    (ino i).addrs j < 1024 := by
  by_cases h0 : (ino i).addrs j = 0
  · rw [h0]
    decide
  rcases eq_or_ne j ndirect with rfl | hne
  · exact (indirect_range hT.owns hi h0).2
  · have hd : j < ndirect := lt_of_le_of_ne hj hne
    have hm : j ≤ maxfile := by
      unfold maxfile
      omega
    have hmem : (i, j) ∈ live ino img U := ⟨hi, hm, by rwa [addr, slot_direct hd]⟩
    have hlt := (hT.owns.mem_marks hmem).2.1
    rwa [addr, slot_direct hd] at hlt

/-- File `i` of the image has become `f`; the other inodes and what is in front of them are as they
were. -/
structure Changed (img : Image) (i : ℕ) (f : Option File) (img' : Image) : Prop where
  wf : Wf img'
  files : files img' = Function.update (files img) i f
  others : ∀ k < 200, k ≠ i → Same (img'.dinode k) (img.dinode k)
  front : ∀ o < 2 * bsize, img' o = img o

/-- The same file has changed twice. -/
theorem Changed.trans {f f' : Option File} {img'' : Image} (h : Changed img i f img')
    (h' : Changed img' i f' img'') : Changed img i f' img'' where
  wf := h'.wf
  files := by rw [h'.files, h.files, Function.update_idem]
  others k hk hne := (h'.others k hk hne).trans (h.others k hk hne)
  front o ho := (h'.front o ho).trans (h.front o ho)

/-- The disk when the inode of file `i` is on it again: `d` is what is in memory. -/
theorem Tidy.sync (hT : Tidy (Function.update img.dinode i d) img' (inodes img))
    (hi : i ∈ inodes img) (htype : d.type ≠ 0)
    (hbytes : ∀ k ∈ inodes img, k ≠ i → ∀ o < bsize * maxfile,
      byteAt img' (img.dinode k) o = byteAt img (img.dinode k) o)
    (hsize : ∀ k ∈ inodes img, (img.dinode k).size ≤ bsize * maxfile) {img'' : Image}
    (hself : Same (img''.dinode i) d) (hother :
    ∀ k < 200, k ≠ i → Same (img''.dinode k) (img.dinode k))
    (hfront : ∀ o < 2 * bsize, img'' o = img o) (hsb : img''.superblock = img'.superblock)
    (hdata : ∀ o, bsize * 28 ≤ o → img'' o = img' o) :
    Changed img i (some ⟨d.type, d.nlink, contents img' d⟩) img'' := by
  have hmem : ∀ k, k ∈ inodes img'' ↔ k ∈ inodes img := fun k => by
    rcases eq_or_ne k i with rfl | hne
    · exact ⟨fun _ => hi, fun _ => ⟨hi.1, hi.2.1, by rwa [hself.type]⟩⟩
    · constructor
      · exact fun h => ⟨h.1, h.2.1, by rw [← (hother k h.2.1 hne).type]; exact h.2.2⟩
      · exact fun h => ⟨h.1, h.2.1, by rw [(hother k h.2.1 hne).type]; exact h.2.2⟩
  have hino : ∀ k ∈ inodes img, Same (img''.dinode k) (Function.update img.dinode i d k) := by
    intro k hk
    rcases eq_or_ne k i with rfl | hne
    · rw [Function.update_self]
      exact hself
    · rw [Function.update_of_ne hne]
      exact hother k hk.2.1 hne
  have hblock : ∀ y, 29 ≤ y → Mkfs.SameBlock img' img'' y := fun y hy r _ => hdata _ (by
    have := Nat.mul_le_mul_left bsize (show 28 ≤ y by omega)
    omega)
  have hbyte : ∀ k ∈ inodes img, ∀ o < bsize * maxfile, byteAt img'' (img''.dinode k) o =
      byteAt img' (Function.update img.dinode i d k) o := fun k hk o ho => by
    refine byteAt_congr ?_ fun h0 => hblock _ ?_
    · exact slot_congr (hino k hk).addrs fun h0 => hblock _ (indirect_range hT.owns hk h0).1
    · exact (hT.owns.mem_marks (show (k, o / bsize) ∈ live _ img' (inodes img) from
        ⟨hk, (div_lt_maxfile ho).le, h0⟩)).1
  refine ⟨?_, funext fun k => ?_, hother, hfront⟩
  · rw [Wf, Set.ext hmem]
    exact hT.congr (fun k hk => (hino k hk).addrs) (fun k hk => (hino k hk).size) hsb hdata
  rcases eq_or_ne k i with rfl | hne
  · have hle : d.size ≤ bsize * maxfile := by
      have := hT.size_le k hi
      rwa [Function.update_self] at this
    have hcontents : contents img'' (img''.dinode k) = contents img' d := by
      rw [contents, contents, hself.size]
      refine List.map_congr_left fun o ho => ?_
      rw [hbyte k hi o ((List.mem_range.1 ho).trans_le hle), Function.update_self]
    rw [files_eq ((hmem k).2 hi), Function.update_self, hself.type, hself.nlink, hcontents]
  · rw [Function.update_of_ne hne]
    refine files_of_ne (fun hk => hother k hk hne) fun hk o ho => ?_
    have hlt := ho.trans_le (hsize k hk)
    rw [hbyte k hk o hlt, Function.update_of_ne hne, hbytes k hk hne o hlt]

/-- The same where the inode has just been written. -/
theorem Tidy.sync_iupdate (hT : Tidy (Function.update img.dinode i ip.toDinode) img' (inodes img))
    (hi : i ∈ inodes img) (hF : InRange ip.toDinode) (htype : ip.type ≠ 0)
    (hbytes : ∀ k ∈ inodes img, k ≠ i → ∀ o < bsize * maxfile,
      byteAt img' (img.dinode k) o = byteAt img (img.dinode k) o)
    (hsize : ∀ k ∈ inodes img, (img.dinode k).size ≤ bsize * maxfile)
    (hlow : ∀ o < bsize * 28, img' o = img o) :
    Changed img i (some ⟨ip.type, ip.nlink, contents img' ip.toDinode⟩) (iupdate i ip img') :=
  hT.sync hi htype hbytes hsize (dinode_iupdate hF)
    (fun k hk hne => (dinode_iupdate_of_ne hne).trans (dinode_congr fun o _ ho => hlow o (by
      unfold bsize at *
      omega)))
    (fun o ho => (iupdate_outside (.inl (by omega))).trans (hlow o (by unfold bsize at *; omega)))
    (superblock_congr fun o ho => iupdate_outside (.inl (by omega)))
    fun o ho => iupdate_outside (.inr (by have := hi.2.1; unfold bsize at *; omega))

theorem writei_eq {ip' : Inode} (hoff : ¬(ip.size < off ∨ (off + src.length) % 2 ^ 32 < off))
    (hcut : (if maxfile * bsize < (off + src.length) % 2 ^ 32 then usub (maxfile * bsize) off
      else src.length) = n) (hloop : writeLoop ip src off n img = some (ip', img')) :
    writei i ip src off img =
      if 0 < n ∧ ip'.size < off + n then
        some (some n, { ip' with size := off + n }, iupdate i { ip' with size := off + n } img')
      else some (some n, ip', img') := by
  rw [writei, if_neg hoff, hcut]
  simp only [hloop, Option.bind_eq_bind, Option.bind_some]
  split <;> rfl

/-- **`writei`** puts the bytes into the file, as far as the largest file goes. -/
theorem writei_spec (hW : Wf img) (hi : i ∈ inodes img) (hip : Same ip.toDinode (img.dinode i))
    (hoff : off ≤ (img.dinode i).size) (hlen : off + src.length < 2 ^ 32)
    (hn : n = min src.length (bsize * maxfile - off))
    (hroom : (tableSlots (inodes img) (Function.update (fun k => (img.dinode k).size) i
      (max (img.dinode i).size (off + n)))).ncard ≤ 995) :
    ∃ ip' img', writei i ip src off img = some (some n, ip', img') ∧
    Same (img'.dinode i) ip'.toDinode ∧
      Changed img i (some ⟨(img.dinode i).type, (img.dinode i).nlink,
        splice (contents img (img.dinode i)) off (src.take n)⟩) img' := by
  have hle := hW.size_le i hi
  have hmax : off + n ≤ bsize * maxfile := by omega
  have htake : (src.take n).length = n := by
    rw [List.length_take]
    omega
  have hcut := sub_cut (by rw [Nat.mul_comm]; omega) hlen
  rw [← hn] at hcut
  obtain ⟨ino, hino⟩ : ∃ ino, ino = Function.update img.dinode i ip.toDinode := ⟨_, rfl⟩
  have hT₀ : Tidy ino img (inodes img) := hino ▸ hW.copy hip
  have hself₀ : ino i = ip.toDinode := by rw [hino, Function.update_self]
  have hoff₀ : off ≤ (ino i).size := by rwa [hself₀, hip.size]
  have hidem : ∀ d, Function.update ino i d = Function.update img.dinode i d := fun d => by
    rw [hino, Function.update_idem]
  have hsizes : (fun k => (ino k).size) = fun k => (img.dinode k).size := by
    funext k
    rcases eq_or_ne k i with rfl | hne
    · rw [hself₀, hip.size]
    · rw [hino, Function.update_of_ne hne]
  have hspans : live ino img (inodes img) ∪ spans i off n = tableSlots (inodes img)
      (Function.update (fun k => (img.dinode k).size) i (max (img.dinode i).size (off + n))) := by
    rw [hT₀.slots, tableSlots_spans hi hoff₀ hmax, hsizes, hself₀, hip.size]
  obtain ⟨ip₁, img₁, hloop, hw, hhead⟩ := writeLoop_spec hT₀.owns hi hself₀.symm
    (show n ≤ src.length by omega) hmax (by rw [hspans]; exact hroom)
  have hlow : ∀ k < 200, Same (img₁.dinode k) (img.dinode k) := fun k hk =>
    dinode_congr fun o _ ho => hw.low o (by unfold bsize at *; omega)
  have hsize₁ : ip₁.size = (img.dinode i).size := hhead.size.trans hip.size
  have htype₁ : ip₁.type = (img.dinode i).type := hhead.type.trans hip.type
  have hnlink₁ : ip₁.nlink = (img.dinode i).nlink := hhead.nlink.trans hip.nlink
  have hother : ∀ k ∈ inodes img, k ≠ i → ∀ o < bsize * maxfile,
      byteAt img₁ (img.dinode k) o = byteAt img (img.dinode k) o := fun k hk hne o ho => by
    have h := hw.other k hk hne o ho
    rwa [Function.update_of_ne hne, hino, Function.update_of_ne hne] at h
  have hcontents : ∀ d' : Dinode, (∀ j ≤ ndirect, d'.addrs j = ip₁.addrs j) →
      d'.size = max (img.dinode i).size (off + n) →
      contents img₁ d' = splice (contents img (img.dinode i)) off (src.take n) := by
    intro d' haddrs hsz
    refine contents_write hoff (by rw [htake, hsz]) (by omega) (hW.tail i hi) fun o ho => ?_
    have hself := hw.self o ho
    rw [Function.update_self, hself₀, funext (byteAt_same hip)] at hself
    rw [← hself]
    exact byteAt_congr (slot_congr haddrs fun _ => sameBlock_refl) fun _ => sameBlock_refl
  have htidy : ∀ d' : Dinode, (∀ j ≤ ndirect, d'.addrs j = ip₁.addrs j) →
      d'.size = max (img.dinode i).size (off + n) →
      Tidy (Function.update img.dinode i d') img₁ (inodes img) := by
    intro d' haddrs hsz
    have h := hw.tidy hT₀ hi hoff₀ htake hmax haddrs (by rw [hsz, hself₀, hip.size])
    rwa [hidem] at h
  rw [writei_eq (by rw [Nat.mod_eq_of_lt hlen, hip.size]; omega) hcut hloop]
  by_cases hgrow : 0 < n ∧ ip₁.size < off + n
  · -- the file has grown, and its inode is written back
    have hsz : off + n = max (img.dinode i).size (off + n) := by omega
    have hT := htidy ({ ip₁ with size := off + n } : Inode).toDinode (fun _ _ => rfl) hsz
    have hF : InRange ({ ip₁ with size := off + n } : Inode).toDinode := by
      have hr := inRange_dinode img i
      refine ⟨htype₁ ▸ hr.type, hnlink₁ ▸ hr.nlink,
        (show off + n ≤ 71680 from hmax).trans_lt (by norm_num), fun j hj => ?_⟩
      have hlt := hT.addrs_lt hi hj
      rw [Function.update_self] at hlt
      exact hlt.trans (by norm_num)
    have hchanged := hT.sync_iupdate hi hF (by rw [htype₁]; exact hi.2.2) hother hW.size_le hw.low
    refine ⟨_, _, if_pos hgrow, dinode_iupdate hF, ?_⟩
    rw [hcontents ({ ip₁ with size := off + n } : Inode).toDinode (fun _ _ => rfl) hsz] at hchanged
    simpa only [htype₁, hnlink₁] using hchanged
  · -- all blocks were there
    have hsz : ip₁.size = max (img.dinode i).size (off + n) := by omega
    have hT := htidy ip₁.toDinode (fun _ _ => rfl) hsz
    have hsub : spans i off n ⊆ live ino img (inodes img) := by
      refine Set.union_eq_left.1 ?_
      rw [hspans, ← hsz, hsize₁, Function.update_eq_self, hT₀.slots, hsizes]
    have hself : Same (img₁.dinode i) ip₁.toDinode := by
      refine (hlow i hi.2.1).trans
        ((Same.symm hip).trans ⟨hhead.type.symm, hhead.nlink.symm, hhead.size.symm,
        fun j hj => ?_⟩)
      have haddr := fun b hb => hw.addr_eq hsub (q := (i, b)) hi hb
      simp only [addr_update_self] at haddr
      rcases eq_or_ne j ndirect with rfl | hne
      · have h := haddr maxfile le_rfl
        rw [slot_indirect, addr, slot_indirect, hself₀] at h
        exact h.symm
      · have hd : j < ndirect := lt_of_le_of_ne hj hne
        have h := haddr j (by unfold maxfile; omega)
        rw [slot_direct hd, addr, slot_direct hd, hself₀] at h
        exact h.symm
    have hchanged := hT.sync hi (by rw [htype₁]; exact hi.2.2) hother hW.size_le hself
      (fun k hk _ => hlow k hk) (fun o ho => hw.low o (by unfold bsize at *; omega)) rfl fun _ _ =>
      rfl
    refine ⟨_, _, if_neg hgrow, hself, ?_⟩
    rwa [hcontents _ (fun _ _ => rfl) hsz, htype₁, hnlink₁] at hchanged

end OsProjects.Kernel
