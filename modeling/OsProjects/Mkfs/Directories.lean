import OsProjects.Fsck.Acceptance
import OsProjects.Mkfs.Blocks

/-!
# The directories of the finished image

What the checker reads of a directory: `"."`, `".."`, its links and empty entries
(`Finished.exists_entries`).
-/

namespace OsProjects.Mkfs

open Fsck

variable {t : HostDir} {img : Image} {free x p b k m n : ℕ} {c : ℕ → List UInt8} {l : List Link}
  {name : List UInt8} {records : List (ℕ × List UInt8)}

/-! ### Entries -/

/-- What the checks look at in an entry. -/
def kind (de : Dirent) : ℕ × Bool × Bool := (de.inum, de.isDot, de.isDotDot)

/-- The same for what `mkfs` writes. -/
def recordKind (r : ℕ × List UInt8) : ℕ × Bool × Bool :=
  (r.1, decide (r.2 = [46]), decide (r.2 = [46, 46]))

/-- The bytes of an entry. -/
def recordBytes (r : ℕ × List UInt8) : List UInt8 := direntBytes r.1 r.2

theorem length_recordBytes (r : ℕ × List UInt8) : (recordBytes r).length = 16 :=
  length_direntBytes _ _

theorem getD_name (hk : k < 14) : ((name ++ List.replicate 14 0).take 14).getD k 0 =
    name.getD k 0 := by
  rw [List.getD_eq_getElem?_getD, List.getElem?_take, if_pos hk, ← List.getD_eq_getElem?_getD]
  rcases Nat.lt_or_ge k name.length with h | h
  · rw [List.getD_append _ _ _ _ h]
  · rw [List.getD_append_right _ _ _ _ h, List.getD_eq_default name _ h]
    exact List.getD_replicate _ (by omega)

/-- An entry that is read back. -/
theorem kind_of_holds {a : ℕ} (h : img.Holds (blockOff a + 16 * k) (direntBytes n name))
    (hn : n < 2 ^ 16) (hnul : 0 ∉ name) : kind (img.dirent a k) = recordKind (n, name) := by
  have hword := Bytes.word_of_bytes h.left
  rw [Bytes.length_leBytes, Bytes.leNat_leBytes, Nat.mod_eq_of_lt (by simpa using hn)] at hword
  have hright := h.right
  rw [Bytes.length_leBytes] at hright
  have hname : ∀ j < 14, (img.dirent a k).name j = name.getD j 0 := fun j hj => by
    rw [← getD_name hj]
    exact hright j (by rw [List.length_take, List.length_append, List.length_replicate]; omega)
  have h0 := hname 0 (by omega)
  have h1 := hname 1 (by omega)
  have h2 := hname 2 (by omega)
  rw [kind, recordKind]
  refine Prod.ext hword (Prod.ext ?_ ?_)
  · show (img.dirent a k).isDot = decide (name = [46])
    simp only [Dirent.isDot, strEq, h0, h1]
    rcases name with _ | ⟨x, _ | ⟨y, rest⟩⟩
    · decide
    · simp
    · have hy : y ≠ 0 := fun h => hnul (by simp [h])
      simp [hy]
  · show (img.dirent a k).isDotDot = decide (name = [46, 46])
    simp only [Dirent.isDotDot, strEq, h0, h1, h2]
    rcases name with _ | ⟨x, _ | ⟨y, _ | ⟨z, rest⟩⟩⟩
    · decide
    · simp
    · simp
    · have hz : z ≠ 0 := fun h => hnul (by simp [h])
      simp [hz]

/-- Behind the last record there are empty ones. -/
theorem elim_recordBytes (records : List (ℕ × List UInt8)) (m : ℕ) (hk : k < 16) :
    (records[m]?.elim 0 fun r => (recordBytes r).getD k 0) =
      (recordBytes (records.getD m (0, []))).getD k 0 := by
  rcases Nat.lt_or_ge m records.length with h | h
  · rw [List.getD_eq_getElem _ _ h, List.getElem?_eq_getElem h]
    rfl
  · have hempty : recordBytes (0, []) = List.replicate 16 0 := by decide
    rw [List.getD_eq_default _ _ h, List.getElem?_eq_none h, hempty, List.getD_replicate _ hk]
    rfl

/-! ### Blocks -/

namespace Finished

variable (hF : Finished t img free c)

include hF

/-- The entries of a block of a directory whose contents are `records`. -/
theorem kind_dirent (hx : x < 2 + t.count) (hc : c x = records.flatMap recordBytes)
    (hrecords : ∀ r ∈ records, r.1 < 2 ^ 16 ∧ 0 ∉ r.2) (hb : b < blocksOf c x) (hmax : b < maxfile)
    (hk : k < direntPerBlock) :
    kind (img.dirent (addr img.dinode img (x, b)) k) =
      recordKind (records.getD (direntPerBlock * b + k) (0, [])) := by
  have hk : k < 32 := hk
  have hp : (x, b) ∈ slotsOf (blocksOf c) (2 + t.count) := ⟨hx, .inl hb⟩
  have hrange := hF.held.mem_Ico hp
  have hfree := hF.free_le
  have hoff : blockOff (addr img.dinode img (x, b)) = bsize * addr img.dinode img (x, b) := by
    unfold blockOff bsize
    omega
  have hrecord : (records.getD (direntPerBlock * b + k) (0, [])).1 < 2 ^ 16 ∧
      0 ∉ (records.getD (direntPerBlock * b + k) (0, [])).2 := by
    rcases Nat.lt_or_ge (direntPerBlock * b + k) records.length with h | h
    · rw [List.getD_eq_getElem _ _ h]
      exact hrecords _ (List.getElem_mem h)
    · rw [List.getD_eq_default _ _ h]
      simp
  have helim := fun j (hj : j < 16) => elim_recordBytes records (direntPerBlock * b + k) hj
  generalize records.getD (direntPerBlock * b + k) (0, []) = r at hrecord helim
  obtain ⟨n, name⟩ := r
  refine kind_of_holds (fun j hj => ?_) hrecord.1 hrecord.2
  rw [length_direntBytes] at hj
  have hdata := hF.held.data _ hp hmax (16 * k + j) (by unfold bsize; omega)
  rw [hoff, Nat.add_assoc, hdata, hc,
    show bsize * b + (16 * k + j) = 16 * (direntPerBlock * b + k) + j by
      unfold bsize direntPerBlock; omega,
    getD_flatMap length_recordBytes hj, helim j hj]
  rfl

/-- The blocks of a directory. -/
theorem dirEntries_eq (hx : x < 2 + t.count) (hle : blocksOf c x ≤ ndirect) :
    (img.dinode x).addrs ndirect = 0 ∧ dirEntries img (img.dinode x) =
      (List.range (blocksOf c x)).flatMap fun b => img.dirents (addr img.dinode img (x, b)) := by
  have hsplit : maxfile = ndirect + nindirect := rfl
  have hpos : 0 < nindirect := by decide
  have hindirect : (img.dinode x).addrs ndirect = 0 := by
    have hzero := hF.held.held (x, maxfile) hx le_rfl fun hp => by
      have hcase := hp.2
      simp only at hcase
      omega
    rwa [addr, slot_indirect] at hzero
  have hslot : ∀ b < ndirect, ((img.dinode x).addrs b = 0 ↔ blocksOf c x ≤ b) := by
    intro b hb
    have hiff := hF.mem_slots hx (show b ≤ maxfile by omega)
    rw [addr, slot_direct hb] at hiff
    rw [← not_iff_not, ← ne_eq, ← hiff]
    simp only [slotsOf, Set.mem_ofPred_eq, hx, true_and]
    omega
  refine ⟨hindirect, ?_⟩
  rw [dirEntries, if_pos hindirect, List.append_nil]
  obtain ⟨r, hr⟩ := Nat.exists_eq_add_of_le hle
  rw [hr, List.range_add, List.flatMap_append]
  have hrest : ((List.range r).map (blocksOf c x + ·)).flatMap (fun j =>
      if (img.dinode x).addrs j = 0 then [] else img.dirents ((img.dinode x).addrs j)) = [] := by
    refine List.flatMap_eq_nil_iff.2 fun j hj => ?_
    obtain ⟨k, hk, rfl⟩ := List.mem_map.1 hj
    have := List.mem_range.1 hk
    exact if_pos ((hslot _ (by omega)).2 (Nat.le_add_right _ _))
  rw [hrest, List.append_nil]
  refine List.flatMap_congr fun b hb => ?_
  have hb := List.mem_range.1 hb
  rw [if_neg fun h => absurd ((hslot b (by omega)).1 h) (not_le.2 hb), addr, slot_direct (by omega)]

/-- What the checks look at in a directory. -/
theorem map_kind (hx : x < 2 + t.count) (hc : c x = records.flatMap recordBytes)
    (hrecords : ∀ r ∈ records, r.1 < 2 ^ 16 ∧ 0 ∉ r.2) (hle : blocksOf c x ≤ ndirect) :
    ∃ n, (dirEntries img (img.dinode x)).map kind =
      records.map recordKind ++ List.replicate n (0, false, false) := by
  have hlen : (c x).length = 16 * records.length := by
    rw [hc, length_flatMap_const length_recordBytes]
  have hfit : records.length ≤ direntPerBlock * blocksOf c x := by
    rw [blocksOf, hlen]
    unfold dataBlocks direntPerBlock bsize
    omega
  refine ⟨direntPerBlock * blocksOf c x - records.length, ?_⟩
  rw [(hF.dirEntries_eq hx hle).2, List.map_flatMap]
  refine Eq.trans ?_ (map_getD_range recordKind records (0, []) hfit)
  rw [← flatMap_range_range]
  refine List.flatMap_congr fun b hb => ?_
  have hb := List.mem_range.1 hb
  rw [Image.dirents, List.map_map]
  refine List.map_congr_left fun k hk => ?_
  exact hF.kind_dirent hx hc hrecords hb (by unfold maxfile; omega) (List.mem_range.1 hk)

end Finished

/-- The entries of a directory: `"."`, `".."`, the links and empty entries. -/
structure Listing (img : Image) (x parent : ℕ) (l : List Link) (dot dotdot : Dirent)
    (links rest : List Dirent) : Prop where
  entries : dirEntries img (img.dinode x) = dot :: dotdot :: (links ++ rest)
  dot : kind dot = (x, true, false)
  dotdot : kind dotdot = (parent, false, true)
  links : links.map kind = l.map fun e => (e.1, false, false)
  rest : ∀ de ∈ rest, kind de = (0, false, false)

/-- **A directory** of the image. -/
theorem Finished.exists_listing (hF : Finished t img free c) (ht : t.Fits) {parent : ℕ}
    (h : (x, .dir parent l) ∈ t.inodes) :
    (img.dinode x).addrs ndirect = 0 ∧
      ∃ dot dotdot links rest, Listing img x parent l dot dotdot links rest := by
  have hmem := HostDir.mem_inodes h
  have hbound := hF.count_le
  have hle : blocksOf c x ≤ ndirect := by
    rw [blocksOf, hF.length_contents h]
    exact (ht.dataBlocks_le h).2 rfl
  have hparent : parent < 200 := by
    rcases ht.parent h with ⟨-, rfl⟩ | ⟨-, hlt, -⟩ <;> omega
  have hc : c x = ((x, [46]) :: (parent, [46, 46]) :: l.map fun e => (e.1, e.2.bytes)).flatMap
      recordBytes := by
    rw [hF.bytes _ h, Content.bytes, dotBytes, List.flatMap_cons, List.flatMap_cons,
      List.flatMap_map,
      List.append_assoc]
    rfl
  have hrecords : ∀ r ∈ (x, [46]) :: (parent, [46, 46]) :: l.map fun e => (e.1, e.2.bytes),
      r.1 < 2 ^ 16 ∧ 0 ∉ r.2 := by
    have hdot : (0 : UInt8) ∉ [46] ∧ (0 : UInt8) ∉ [46, 46] := by decide
    refine List.forall_mem_cons.2 ⟨⟨by omega, hdot.1⟩,
      List.forall_mem_cons.2 ⟨⟨by omega, hdot.2⟩, fun r hr => ?_⟩⟩
    obtain ⟨e, he, rfl⟩ := List.mem_map.1 hr
    have hlt := HostDir.mem_named_of_links h (List.mem_map_of_mem he)
    exact ⟨by omega, e.2.nul⟩
  obtain ⟨n, hkinds⟩ := hF.map_kind hmem.2 hc hrecords hle
  have hnamed : (l.map fun e => (e.1, e.2.bytes)).map recordKind =
      l.map fun e => (e.1, false, false) := by
    rw [List.map_map]
    refine List.map_congr_left fun e he => ?_
    have hskip := ht.not_skipped h e he
    rw [Name.skipped, not_or] at hskip
    rw [Function.comp_apply, recordKind, decide_eq_false hskip.1, decide_eq_false hskip.2]
  rw [List.map_cons, List.map_cons, hnamed, List.cons_append, List.cons_append] at hkinds
  obtain ⟨dot, des, hdes, hdot, hkinds⟩ := List.map_eq_cons_iff.1 hkinds
  obtain ⟨dotdot, des', rfl, hdotdot, hkinds⟩ := List.map_eq_cons_iff.1 hkinds
  obtain ⟨links, rest, rfl, hlinks, hrest⟩ := List.map_eq_append_iff.1 hkinds
  refine ⟨(hF.dirEntries_eq hmem.2 hle).1, dot, dotdot, links, rest, hdes, hdot, hdotdot, hlinks,
    fun de hde => ?_⟩
  have hkind := List.mem_map_of_mem (f := kind) hde
  rw [hrest] at hkind
  exact List.eq_of_mem_replicate hkind

end OsProjects.Mkfs
