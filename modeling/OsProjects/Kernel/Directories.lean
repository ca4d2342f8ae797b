import Mathlib.Data.List.Find
import OsProjects.Foundation.SlotTable
import OsProjects.Kernel.Runs
import OsProjects.Mkfs.Directories

/-!
# Directories

The bytes of a directory are a table of slots (`entries`), with the names up to their NUL or to 14
bytes as keys (`key`).  `dirlookup` finds a slot of it (`dirlookup_spec`), `dirlink` puts a value
into it (`dirlink_spec`), and writing zeros over an entry clears its slot (`entries_splice`).
-/

namespace OsProjects.Kernel

open Fsck Mkfs

variable {img img' : Image} {i b k m n off inum : ℕ} {ip : Inode} {name data bs : List UInt8}
  {p q : ℕ → UInt8} {de de' : Dirent}

/-! ### Names -/

/-- A name in a buffer of 14 bytes. -/
def nameOf (s : ℕ → UInt8) : List UInt8 := ((List.range dirsiz).map s).takeWhile (· ≠ 0)

/-- The name that is looked up. -/
def key (name : List UInt8) : List UInt8 := nameOf (nameBuffer name)

theorem strncmp_eq_zero (n : ℕ) : strncmp p q n = 0 ↔
    ((List.range n).map p).takeWhile (· ≠ 0) = ((List.range n).map q).takeWhile (· ≠ 0) := by
  induction n generalizing p q with
  | zero => simp [strncmp]
  | succ n ih =>
    rw [strncmp, List.range_succ_eq_map, List.map_cons, List.map_cons, List.map_map, List.map_map,
      List.takeWhile_cons, List.takeWhile_cons]
    by_cases hp : p 0 = 0
    · rw [if_neg fun h => h.1 hp]
      simp only [hp]
      by_cases hq : q 0 = 0
      · simp [hq]
      · simp only [ne_eq, hq]
        have hne : (q 0).toNat ≠ 0 := fun h => hq (UInt8.toNat_inj.1 h)
        simp [hne]
    · by_cases hpq : p 0 = q 0
      · rw [if_pos ⟨hp, hpq⟩, ih, ← hpq]
        simp [hp, Function.comp_def]
      · rw [if_neg fun h => hpq h.2]
        have hne : (p 0).toNat ≠ (q 0).toNat := fun h => hpq (UInt8.toNat_inj.1 h)
        refine iff_of_false (by omega) fun h => ?_
        by_cases hq : q 0 = 0
        · simp [hp, hq] at h
        · simp only [ne_eq, hp, hq, not_false_eq_true, decide_true, if_true, List.cons.injEq] at h
          exact hpq h.1

theorem namecmp_eq_zero : namecmp p q = 0 ↔ nameOf p = nameOf q := strncmp_eq_zero dirsiz

theorem nameOf_congr (h : ∀ n < dirsiz, p n = q n) : nameOf p = nameOf q :=
  congrArg (List.takeWhile _) (List.map_congr_left fun n hn => h n (List.mem_range.1 hn))

/-! ### Entries -/

/-- The slot of an entry. -/
def slotOf (de : Dirent) : Option (List UInt8 × ℕ) :=
  if de.inum = 0 then none else some (nameOf de.name, de.inum)

/-- Entry `k` in the bytes of a directory. -/
def record (m : Bytes) (k : ℕ) : Dirent := ⟨m.word 2 (16 * k), fun n => m (16 * k + 2 + n)⟩

/-- The entries of a directory. -/
def entries (data : List UInt8) : SlotTable (List UInt8) ℕ :=
  (List.range (data.length / 16)).map fun k => slotOf (record (fun o => data.getD o 0) k)

theorem matchesName_eq : matchesName name de = SlotTable.holds (key name) (slotOf de) := by
  unfold matchesName slotOf
  by_cases h0 : de.inum = 0
  · simp [h0, SlotTable.holds]
  · simp only [h0, ne_eq, not_false_eq_true, decide_true, Bool.true_and, if_false, SlotTable.holds,
      namecmp_eq_zero]
    exact decide_eq_decide.2 ⟨Eq.symm, Eq.symm⟩

theorem slotOf_congr (hinum : de.inum = de'.inum) (hname : ∀ n < dirsiz, de.name n = de'.name n) :
    slotOf de = slotOf de' := by
  rw [slotOf, slotOf, hinum, nameOf_congr hname]

theorem word_congr_shift {m m' : Bytes} {w a a' : ℕ} (h : ∀ r < w, m (a + r) = m' (a' + r)) :
    m.word w a = m'.word w a' := by
  induction w generalizing a a' with
  | zero => rfl
  | succ w ih =>
    have h0 : m a = m' a' := h 0 (Nat.succ_pos w)
    rw [Bytes.word, Bytes.word, h0, ih fun r hr => ?_]
    rw [Nat.add_right_comm, Nat.add_assoc, Nat.add_right_comm a', Nat.add_assoc a']
    exact h (r + 1) (Nat.succ_lt_succ hr)

theorem record_congr {m m' : Bytes} (h : ∀ r < 16, m (16 * k + r) = m' (16 * n + r)) :
    slotOf (record m k) = slotOf (record m' n) := by
  refine slotOf_congr ?_ fun r hr => ?_
  · exact word_congr_shift fun r hr => h r (by omega)
  · show m (16 * k + 2 + r) = m' (16 * n + 2 + r)
    have hr : r < 14 := hr
    rw [Nat.add_assoc, Nat.add_assoc, h (2 + r) (by omega)]

theorem length_entries : (entries data).length = data.length / 16 := by
  rw [entries, List.length_map, List.length_range]

theorem getElem_entries (h : k < (entries data).length) :
    (entries data)[k] = slotOf (record (fun o => data.getD o 0) k) := by
  simp only [entries, List.getElem_map, List.getElem_range]

theorem entries_append {data' : List UInt8} (h : 16 ∣ data.length) :
    entries (data ++ data') = entries data ++ entries data' := by
  obtain ⟨m, hm⟩ := h
  have hdiv : data.length / 16 = m := by omega
  refine List.ext_getElem ?_ fun k hk hk' => ?_
  · rw [List.length_append, length_entries, length_entries, length_entries, List.length_append]
    omega
  rw [getElem_entries]
  rw [length_entries, List.length_append] at hk
  rcases Nat.lt_or_ge k m with hlt | hge
  · rw [List.getElem_append_left (by rwa [length_entries, hdiv]), getElem_entries]
    exact record_congr fun r hr => List.getD_append _ _ _ _ (by omega)
  · rw [List.getElem_append_right (by rwa [length_entries, hdiv]), getElem_entries]
    refine record_congr fun r hr => ?_
    rw [List.getD_append_right _ _ _ _ (by omega), length_entries]
    congr 1
    omega

theorem entries_take : entries (data.take (16 * k)) = (entries data).take k := by
  refine List.ext_getElem ?_ fun j hj hj' => ?_
  · rw [length_entries, List.length_take, List.length_take, length_entries]
    omega
  · rw [List.length_take, length_entries] at hj'
    rw [getElem_entries, List.getElem_take, getElem_entries]
    refine record_congr fun r hr => ?_
    rw [List.getD_eq_getElem?_getD, List.getElem?_take, if_pos (by omega),
      List.getD_eq_getElem?_getD]

theorem entries_drop : entries (data.drop (16 * k)) = (entries data).drop k := by
  refine List.ext_getElem ?_ fun j hj hj' => ?_
  · rw [length_entries, List.length_drop, List.length_drop, length_entries]
    omega
  · rw [getElem_entries, List.getElem_drop, getElem_entries]
    refine record_congr fun r hr => ?_
    rw [List.getD_eq_getElem?_getD, List.getElem?_drop, List.getD_eq_getElem?_getD]
    congr 2
    omega

/-- An entry that is written over another, or behind the last. -/
theorem entries_splice {e : Option (List UInt8 × ℕ)} (h16 : 16 ∣ data.length)
    (hk : 16 * k ≤ data.length) (hbs : entries bs = [e]) (hlen : bs.length = 16) :
    entries (splice data (16 * k) bs) =
    (entries data).take k ++ e :: (entries data).drop (k + 1) := by
  have htake : (data.take (16 * k)).length = 16 * k := by
    rw [List.length_take]
    omega
  rw [splice, List.append_assoc, entries_append (by rw [htake]; exact Nat.dvd_mul_right 16 k),
    entries_append (by rw [hlen]), hbs, hlen, entries_take, ← Nat.mul_succ, entries_drop,
    List.singleton_append]

/-- The bytes that `dirlink` writes. -/
theorem entries_direntBytes (hinum : inum ≠ 0) (hlt : inum < 2 ^ 16) :
    entries (direntBytes inum name) = [some (key name, inum)] := by
  have hlen : (direntBytes inum name).length = 16 := length_direntBytes _ _
  obtain ⟨m, hm⟩ : ∃ m : Bytes, m = fun o => (direntBytes inum name).getD o 0 := ⟨_, rfl⟩
  have hholds : m.Holds 0 (direntBytes inum name) := fun k _ => by rw [Nat.zero_add, hm]
  have hword := Bytes.word_of_bytes hholds.left
  have hname := hholds.right
  rw [Bytes.length_leBytes] at hname
  rw [Bytes.length_leBytes, Bytes.leNat_leBytes, Nat.mod_eq_of_lt (by simpa using hlt)] at hword
  have hkey : nameOf (record m 0).name = key name := nameOf_congr fun k hk => by
    have hk : k < 14 := hk
    show m (0 + 2 + k) = name.getD k 0
    rw [← getD_name hk]
    exact hname k (by rw [List.length_take, List.length_append, List.length_replicate]; omega)
  have hrecord : (record m 0).inum = inum := hword
  rw [entries, hlen, ← hm]
  show [slotOf (record m 0)] = _
  rw [slotOf, hrecord, if_neg hinum, hkey]

/-- The bytes that `sys_unlink` writes. -/
theorem entries_zeros : entries (List.replicate 16 0) = [none] := by decide

/-! ### Looking up -/

theorem find?_range {α : Type*} (P : α → Bool) (f : ℕ → α) (n : ℕ) :
    ((List.range n).find? fun k => P (f k)) = ((List.range n).map f).findIdx? P := by
  induction n with
  | zero => rfl
  | succ n ih =>
    rw [List.range_succ, List.find?_append, List.map_append, List.findIdx?_append, ih,
      List.length_map, List.length_range, List.map_singleton, List.findIdx?_singleton]
    cases ((List.range n).map f).findIdx? P with
    | some k => rfl
    | none =>
      by_cases h : P (f n) = true
      · simp [h]
      · simp [h]

/-- The loop over the blocks of a directory that are there. -/
theorem lookupLoop_spec {bns : List ℕ}
    (hbns : ∀ bn ∈ bns, bn < maxfile ∧ slot img ip.toDinode bn ≠ 0) :
    lookupLoop name ip img bns =
      some (((bns.flatMap fun bn => (List.range 32).map fun k => 32 * bn + k).find? fun k =>
        SlotTable.holds (key name) (slotOf (record (byteAt img ip.toDinode) k))).map fun k =>
          (16 * k, (record (byteAt img ip.toDinode) k).inum), ip, img) := by
  induction bns with
  | nil => rfl
  | cons bn bns ih =>
    obtain ⟨⟨hbn, h0⟩, hbns⟩ := List.forall_mem_cons.1 hbns
    obtain ⟨x, hx⟩ : ∃ x, x = slot img ip.toDinode bn := ⟨_, rfl⟩
    have hbyte : ∀ r < bsize, byteAt img ip.toDinode (bsize * bn + r) = img (bsize * x + r) := by
      intro r hr
      have hdiv : (bsize * bn + r) / bsize = bn := by
        unfold bsize at *
        omega
      have hmod : (bsize * bn + r) % bsize = r := by
        unfold bsize at *
        omega
      rw [byteAt, hdiv, hmod, if_neg h0, hx]
    have hinum : ∀ k < 32, (direntAt img x k).inum =
        (record (byteAt img ip.toDinode) (32 * bn + k)).inum := by
      intro k hk
      refine word_congr_shift fun r hr => ?_
      rw [Nat.add_assoc, ← hbyte _ (by unfold bsize; omega)]
      congr 1
      unfold bsize
      omega
    have hslot : ∀ k < 32, slotOf (direntAt img x k) =
        slotOf (record (byteAt img ip.toDinode) (32 * bn + k)) := by
      intro k hk
      refine slotOf_congr (hinum k hk) fun r hr => ?_
      have hr : r < 14 := hr
      show img (bsize * x + 16 * k + 2 + r) = byteAt img ip.toDinode (16 * (32 * bn + k) + 2 + r)
      rw [Nat.add_assoc, Nat.add_assoc, ← hbyte _ (by unfold bsize; omega)]
      congr 1
      unfold bsize
      omega
    have hmatch : ∀ k ∈ List.range direntPerBlock, matchesName name (direntAt img x k) =
        SlotTable.holds (key name) (slotOf (record (byteAt img ip.toDinode) (32 * bn + k))) :=
      fun k hk => by rw [matchesName_eq, hslot k (List.mem_range.1 hk)]
    have hfind : ((List.range direntPerBlock).find? fun k => matchesName name (direntAt img x k)) =
        (List.range 32).find? fun k =>
          SlotTable.holds (key name) (slotOf (record (byteAt img ip.toDinode) (32 * bn + k))) :=
      List.find?_congr hmatch
    rw [lookupLoop, bmap_old hbn h0, Option.bind_eq_bind, Option.bind_some, ← hx]
    simp only [hfind]
    rw [List.flatMap_cons, List.find?_append, List.find?_map, ih hbns]
    simp only [Function.comp_def]
    cases hcase : (List.range 32).find? fun k =>
        SlotTable.holds (key name) (slotOf (record (byteAt img ip.toDinode) (32 * bn + k))) with
    | none => rfl
    | some k =>
      have hk : k < 32 := List.mem_range.1 (List.mem_of_find?_eq_some hcase)
      have hoff' : bsize * bn + 16 * k = 16 * (32 * bn + k) := by
        unfold bsize
        omega
      simp only [Option.map_some, Option.some_or, hinum k hk, hoff']
      rfl

theorem slotOf_inum : ((slotOf de).elim 0 Prod.snd) = de.inum := by
  rw [slotOf]
  split
  · rename_i h
    exact h.symm
  · rfl

theorem entries_contents {d : Dinode} : entries (contents img d) =
    (List.range (d.size / 16)).map fun k => slotOf (record (byteAt img d) k) := by
  rw [entries, length_contents]
  refine List.map_congr_left fun k hk => record_congr fun r hr => ?_
  have hk := List.mem_range.1 hk
  have hlt : 16 * k + r < (contents img d).length := by
    rw [length_contents]
    omega
  rw [List.getD_eq_getElem _ _ hlt, getElem_contents]

variable (hW : Wf img) (hi : i ∈ inodes img) (hip : Same ip.toDinode (img.dinode i))

/-- What `dirlookup` returns for a slot. -/
def found (es : SlotTable (List UInt8) ℕ) (k : ℕ) : ℕ × ℕ :=
  (16 * k, (es.getD k none).elim 0 Prod.snd)

include hW hi hip

/-- **`dirlookup`** finds the slot of the name. -/
theorem dirlookup_spec (hdir : (img.dinode i).type = tDir) (h16 : 16 ∣ (img.dinode i).size) :
    dirlookup ip name img = some (((entries (contents img (img.dinode i))).findIdx?
      (SlotTable.holds (key name))).map (found (entries (contents img (img.dinode i)))), ip,
      img) := by
  have hle := hW.size_le i hi
  obtain ⟨n, hn⟩ := h16
  obtain ⟨r, hr⟩ : ∃ r, 32 * dataBlocks (img.dinode i).size = n + r := by
    refine ⟨32 * dataBlocks (img.dinode i).size - n, ?_⟩
    unfold dataBlocks bsize
    omega
  have hbacked : Backed img (img.dinode i) 0 (img.dinode i).size :=
    hW.backed hi (by rw [Nat.zero_add])
  have hbns : ∀ bn ∈ List.range (dataBlocks (img.dinode i).size), bn < maxfile ∧
      slot img ip.toDinode bn ≠ 0 := by
    intro bn hbn
    have hlt : bsize * bn < (img.dinode i).size := by
      have := List.mem_range.1 hbn
      unfold dataBlocks bsize at *
      omega
    rw [slot_congr hip.addrs fun _ => sameBlock_refl]
    exact ⟨Nat.lt_of_mul_lt_mul_left (hlt.trans_le hle), hbacked.2 bn (Nat.zero_le _)
      (by rwa [Nat.zero_add])⟩
  -- behind the last entry there are zeros
  have htail : ((List.range r).map (n + ·)).find? (fun k => SlotTable.holds (key name)
      (slotOf (record (byteAt img (img.dinode i)) k))) = none := by
    refine List.find?_eq_none.2 fun k hk => ?_
    obtain ⟨j, hj, rfl⟩ := List.mem_map.1 hk
    have hj := List.mem_range.1 hj
    have hinum : (record (byteAt img (img.dinode i)) (n + j)).inum = 0 :=
      Bytes.word_zero fun o ho => by
      refine hW.tail i hi _ (by omega) ?_
      unfold dataBlocks bsize at *
      omega
    rw [slotOf, if_pos hinum]
    exact Bool.false_ne_true
  rw [dirlookup, if_pos (hip.type.trans hdir), hip.size, lookupLoop_spec hbns,
    funext (byteAt_same hip), flatMap_range_range (fun k => k) 32, List.map_id', hr, List.range_add,
      List.find?_append,
    htail, Option.or_none, entries_contents, ← find?_range]
  have hdiv : (img.dinode i).size / 16 = n := by omega
  rw [hdiv]
  cases hcase : (List.range n).find? fun k =>
      SlotTable.holds (key name) (slotOf (record (byteAt img (img.dinode i)) k)) with
  | none => rfl
  | some k =>
    have hk : k < n := List.mem_range.1 (List.mem_of_find?_eq_some hcase)
    rw [Option.map_some, Option.map_some, found, List.getD_eq_getElem _ _ (by simpa using hk),
      List.getElem_map, List.getElem_range, slotOf_inum]

/-- Reading one entry. -/
theorem readEntry_spec (hk : 16 * k + 16 ≤ (img.dinode i).size) : ∃ de,
    readEntry ip (16 * k) img = some (de, ip, img) ∧
      entryInum de = (record (byteAt img (img.dinode i)) k).inum := by
  have hle := hW.size_le i hi
  have hmax : bsize * maxfile = 71680 := by decide
  have hread : readi ip (16 * k) 16 img =
      some (some (((contents img (img.dinode i)).drop (16 * k)).take 16), ip, img) := by
    rw [readi_some hW hi hip (by omega) (by omega), if_pos ⟨by omega, by omega⟩]
  have hlen : (((contents img (img.dinode i)).drop (16 * k)).take 16).length = 16 := by
    rw [List.length_take, List.length_drop, length_contents]
    omega
  refine ⟨_, by rw [readEntry, hread, Option.bind_eq_bind, Option.bind_some]; exact if_pos hlen, ?_⟩
  rw [← map_byteAt hk]
  rfl

/-- The loop over the entries `ks` that looks for an empty one. -/
theorem emptyLoop_spec {last : ℕ} {ks : List ℕ}
    (hks : ∀ k ∈ ks, 16 * k + 16 ≤ (img.dinode i).size) :
    emptyLoop ip img last (ks.map (16 * ·)) = some ((ks.find? fun k =>
      (slotOf (record (byteAt img (img.dinode i)) k)).isNone).elim last (16 * ·), ip, img) := by
  induction ks with
  | nil => rfl
  | cons k ks ih =>
    obtain ⟨hk, hks⟩ := List.forall_mem_cons.1 hks
    obtain ⟨de, hread, hinum⟩ := readEntry_spec hW hi hip hk
    rw [List.map_cons, emptyLoop, hread, Option.bind_eq_bind, Option.bind_some, List.find?_cons]
    dsimp only
    rw [hinum, slotOf]
    by_cases h0 : (record (byteAt img (img.dinode i)) k).inum = 0
    · rw [if_pos h0, if_pos h0]
      rfl
    · rw [if_neg h0, if_neg h0, ih hks]
      rfl

variable (h16 : 16 ∣ (img.dinode i).size)

include h16

omit hW hi hip in
theorem entryOffs_eq : entryOffs (img.dinode i).size =
    (List.range ((img.dinode i).size / 16)).map (16 * ·) := by
  rw [entryOffs]
  congr 2
  omega

/-- The offset that `dirlink` writes to. -/
theorem emptyLoop_eq : emptyLoop ip img (16 * ((ip.size + 15) / 16)) (entryOffs ip.size) =
    some (16 * SlotTable.free (entries (contents img (img.dinode i))), ip, img) := by
  have hlast : (ip.size + 15) / 16 = (img.dinode i).size / 16 := by
    rw [hip.size]
    omega
  rw [hlast, hip.size, entryOffs_eq h16, emptyLoop_spec hW hi hip fun k hk => by
    have := List.mem_range.1 hk
    omega, find?_range, SlotTable.free_eq, ← entries_contents, length_entries, length_contents]
  cases (entries (contents img (img.dinode i))).findIdx? Option.isNone <;> rfl

variable (hdir : (img.dinode i).type = tDir)

include hdir

theorem dirlookup_none
    (h : SlotTable.lookup (key name) (entries (contents img (img.dinode i))) = none) :
    dirlookup ip name img = some (none, ip, img) := by
  rw [dirlookup_spec hW hi hip hdir h16, SlotTable.findIdx?_eq_none_iff.2 h]
  rfl

theorem dirlookup_some
    (h : SlotTable.lookup (key name) (entries (contents img (img.dinode i))) = some inum) :
    ∃ k, (entries (contents img (img.dinode i))).findIdx? (SlotTable.holds (key name)) = some k ∧
      dirlookup ip name img = some (some (16 * k, inum), ip, img) := by
  rw [dirlookup_spec hW hi hip hdir h16]
  cases hk : (entries (contents img (img.dinode i))).findIdx? (SlotTable.holds (key name)) with
  | none =>
    rw [SlotTable.findIdx?_eq_none_iff.1 hk] at h
    cases h
  | some k =>
    refine ⟨k, rfl, ?_⟩
    rw [SlotTable.lookup_of_findIdx? hk, Option.map_eq_some_iff] at h
    obtain ⟨e, he, rfl⟩ := h
    rw [Option.map_some, found, he]
    rfl

/-- **`dirlink`** of a name that is there. -/
theorem dirlink_exists
    (h : SlotTable.lookup (key name) (entries (contents img (img.dinode i))) ≠ none) :
    dirlink i ip name inum img = some (-1, ip, img) := by
  obtain ⟨j, hj⟩ := Option.ne_none_iff_exists'.1 h
  obtain ⟨k, -, hlookup⟩ := dirlookup_some hW hi hip h16 hdir hj
  rw [dirlink, hlookup]
  rfl

/-- **`dirlink`** of a new name puts it into the first empty slot, if there is room on the disk. -/
theorem dirlink_spec {f : File} (hf : files img i = some f)
    (hnone : SlotTable.lookup (key name) (entries f.data) = none) (hinum : inum ≠ 0)
    (hlt : inum < 2 ^ 16) {data' : List UInt8}
    (hdata : data' = splice f.data (16 * SlotTable.free (entries f.data)) (direntBytes inum name))
    (hused : used (Function.update (files img) i (some { f with data := data' })) ≤ 995)
    {r : ℤ} {ip' : Inode} (h : dirlink i ip name inum img = some (r, ip', img')) :
    r = 0 ∧ Changed img i (some { f with data := data' }) img' ∧
      entries data' = SlotTable.put (key name) inum (entries f.data) ∧ 16 ∣ data'.length := by
  rw [files_eq hi] at hf
  obtain rfl := Option.some.inj hf
  dsimp only at hnone hdata ⊢
  obtain ⟨off, hoff⟩ : ∃ off, off = 16 * SlotTable.free (entries (contents img (img.dinode i))) :=
    ⟨_, rfl⟩
  have hle := hW.size_le i hi
  have hmax : bsize * maxfile = 71680 := by decide
  have hfree := SlotTable.free_le (t := entries (contents img (img.dinode i)))
  rw [length_entries, length_contents] at hfree
  have hlen : (direntBytes inum name).length = 16 := length_direntBytes _ _
  have hoffle : off ≤ (img.dinode i).size := by omega
  have h16' : 16 ∣ (contents img (img.dinode i)).length := by rwa [length_contents]
  have hsum : off + (direntBytes inum name).length < 2 ^ 32 := by
    rw [hlen]
    omega
  have hentries : entries data' =
      SlotTable.put (key name) inum (entries (contents img (img.dinode i))) := by
    rw [hdata,
      entries_splice h16' (by rw [length_contents]; omega) (entries_direntBytes hinum hlt) hlen,
      SlotTable.put_eq]
  have hlength : 16 ∣ data'.length := by
    rw [hdata, ← hoff, length_splice (by rwa [length_contents]), length_contents, hlen]
    rcases max_choice (img.dinode i).size (off + 16) with h | h <;> rw [h]
    · exact h16
    · exact ⟨_, by rw [hoff, Nat.mul_succ]⟩
  rw [dirlink, dirlookup_none hW hi hip h16 hdir hnone, Option.bind_eq_bind, Option.bind_some] at h
  dsimp only at h
  rw [emptyLoop_eq hW hi hip h16, Option.bind_eq_bind, Option.bind_some, ← hoff] at h
  dsimp only at h
  obtain ⟨⟨ip₁, img₁⟩, hentry, h⟩ := Option.bind_eq_some_iff.1 h
  obtain ⟨rfl, hpair⟩ := Prod.mk.inj (Option.some.inj h)
  obtain ⟨rfl, rfl⟩ := Prod.mk.inj hpair
  rw [writeEntry] at hentry
  obtain ⟨⟨c, ip₂, img₂⟩, hcase, hentry⟩ := Option.bind_eq_some_iff.1 hentry
  dsimp only at hentry
  split at hentry
  · rename_i hc
    obtain ⟨rfl, rfl⟩ := Prod.mk.inj (Option.some.inj hentry)
    -- a directory of the largest size takes no more entries
    by_cases hroom : off + 16 ≤ bsize * maxfile
    · have hn16 : 16 = min (direntBytes inum name).length (bsize * maxfile - off) := by omega
      have htake : (direntBytes inum name).take 16 = direntBytes inum name :=
        List.take_of_length_le hlen.le
      obtain ⟨hwrite, -⟩ := writei_some hW hi hip hoffle hsum hn16 (files_eq hi) rfl
      rw [htake, hoff, ← hdata] at hwrite
      obtain ⟨ip₃, img₃, hwrite, -, hchanged⟩ := hwrite hused
      rw [← hoff, hcase] at hwrite
      obtain ⟨-, hpair⟩ := Prod.mk.inj (Option.some.inj hwrite)
      obtain ⟨-, rfl⟩ := Prod.mk.inj hpair
      exact ⟨rfl, hchanged, hentries, hlength⟩
    · have hoff' : off = bsize * maxfile := by omega
      have hn0 : 0 = min (direntBytes inum name).length (bsize * maxfile - off) := by omega
      have hsame : splice (contents img (img.dinode i)) off [] = contents img (img.dinode i) := by
        rw [splice, List.append_nil, List.length_nil, Nat.add_zero, List.take_append_drop]
      obtain ⟨hwrite, -⟩ := writei_some hW hi hip hoffle hsum hn0 (files_eq hi) rfl
      rw [List.take_zero, hsame, ← files_eq hi, Function.update_eq_self] at hwrite
      obtain ⟨ip₃, img₃, hwrite, -⟩ := hwrite (used_le hW)
      rw [hcase] at hwrite
      obtain ⟨rfl, -⟩ := Prod.mk.inj (Option.some.inj hwrite)
      cases hc
  · cases hentry

omit hdir in
/-- Zeros over an entry. -/
theorem clear_spec {f : File} (hf : files img i = some f) (hk : k < (entries f.data).length) :
    ∃ ip' img' data', writeEntry i ip (16 * k) (List.replicate 16 0) img = some (ip', img') ∧
      Same ip'.toDinode (img'.dinode i) ∧ Changed img i (some { f with data := data' }) img' ∧
      data'.length = f.data.length ∧ entries data' = (entries f.data).set k none := by
  rw [files_eq hi] at hf
  obtain rfl := Option.some.inj hf
  dsimp only at hk ⊢
  have hlt := hk
  rw [length_entries, length_contents] at hlt
  have hle := hW.size_le i hi
  have hmax : bsize * maxfile = 71680 := by decide
  have hlen : (List.replicate 16 (0 : UInt8)).length = 16 := List.length_replicate
  obtain ⟨data', hdata⟩ : ∃ data',
    data' = splice (contents img (img.dinode i)) (16 * k) (List.replicate 16 0) := ⟨_, rfl⟩
  have hlength : data'.length = (contents img (img.dinode i)).length := by
    rw [hdata, length_splice (by rw [length_contents]; omega), hlen, length_contents]
    omega
  have hn : 16 = min (List.replicate 16 (0 : UInt8)).length (bsize * maxfile - 16 * k) := by
    rw [hlen]
    omega
  obtain ⟨hwrite, -⟩ := writei_some hW hi hip (show 16 * k ≤ (img.dinode i).size by omega)
    (by rw [hlen]; omega) hn (files_eq hi) rfl
  rw [List.take_of_length_le hlen.le, ← hdata] at hwrite
  have hused : used (Function.update (files img) i
      (some ⟨(img.dinode i).type, (img.dinode i).nlink, data'⟩)) ≤ 995 := by
    refine (used_update_le ?_).trans (used_le hW)
    rw [files_eq hi, Option.elim_some, Option.elim_some, hlength]
  obtain ⟨ip', img', hsome, hsame, hchanged⟩ := hwrite hused
  refine ⟨ip', img', data', ?_, hsame, hchanged, hlength, ?_⟩
  · rw [writeEntry, hsome]
    rfl
  · rw [hdata,
      entries_splice (by rwa [length_contents]) (by rw [length_contents]; omega) entries_zeros hlen,
      List.set_eq_take_append_cons_drop, if_pos hk]

end OsProjects.Kernel
