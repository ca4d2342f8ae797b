import OsProjects.Kernel.Room
import OsProjects.Kernel.Truncation
import OsProjects.Foundation.Run

/-!
# The file system as a store of files

What the system calls do with one inode (`Op`), on the image (`exec`) and on a table of files
(`Spec`).  A run on an image whose operations find room on the disk is a run on the table
(`run_refines`), and it loses no block (`run_marks`).  An operation leaves a tidy image exactly if
the table allows it and the disk has room for its outcome (`exec_wf_iff`): the kernel goes on when
no block is free, with numbers behind the end of the disk.
-/

namespace OsProjects.Kernel

open Fsck Mkfs

variable {img img' : Image} {U : Set ℕ} {i k m n off type inum : ℕ} {src : List UInt8}

/-- What is done with a locked inode. -/
inductive Op
  | create (type : ℕ)
  | link (inum : ℕ) (nlink : ℤ)
  | read (inum off n : ℕ)
  | write (inum : ℕ) (src : List UInt8) (off : ℕ)
  | put (inum : ℕ)

/-- What comes back. -/
inductive Result
  | inode (inum : ℕ)
  | done
  | data (dst : Option (List UInt8))
  | count (n : Option ℕ)

/-- An operation on the image. -/
def exec : Op → Image → Option (Result × Image)
  | .create type, img => do
      let (inum, img) ← ialloc type img
      pure (.inode inum, img)
  | .link i nlink, img => do
      let ip ← ilock i img
      pure (.done, iupdate i { ip with nlink := nlink } img)
  | .read i off n, img => do
      let ip ← ilock i img
      let (dst, _, img) ← readi ip off n img
      pure (.data dst, img)
  | .write i src off, img => do
      let ip ← ilock i img
      let (n, _, img) ← writei i ip src off img
      pure (.count n, img)
  | .put i, img => do
      let ip ← ilock i img
      let img ← iput i ip img
      pure (.done, img)

/-- The arguments fit their types, and devices are left out. -/
def Op.Legal (fs : ℕ → Option File) : Op → Prop
  | create type => type ≠ 0 ∧ type < 2 ^ 16
  | link i nlink => 1 ≤ i ∧ i < 200 ∧ -2 ^ 15 ≤ nlink ∧ nlink < 2 ^ 15
  | read i off n => 1 ≤ i ∧ i < 200 ∧ (∀ f, fs i = some f → f.type ≠ tDev) ∧ off < 2 ^ 32 ∧ n <
    2 ^ 32
  | write i src off => 1 ≤ i ∧ i < 200 ∧ (∀ f, fs i = some f → f.type ≠ tDev) ∧ off < 2 ^ 32 ∧
      src.length < 2 ^ 32
  | put i => 1 ≤ i ∧ i < 200

/-- An operation on a table of files, with its result. -/
inductive Spec : (ℕ → Option File) → Op × Result → (ℕ → Option File) → Prop
  | create {fs : ℕ → Option File} {type i : ℕ} (hfree : fs i = none) (h1 : 1 ≤ i) (h200 : i < 200) :
      Spec fs (.create type, .inode i) (Function.update fs i (some ⟨type, 0, []⟩))
  | link {fs : ℕ → Option File} {f : File} {i : ℕ} {nlink : ℤ} (hf : fs i = some f) :
      Spec fs (.link i nlink, .done) (Function.update fs i (some { f with nlink := nlink }))
  | read {fs : ℕ → Option File} {f : File} {i off n : ℕ} (hf : fs i = some f)
      (hoff : off ≤ f.data.length) (hn : off + n < 2 ^ 32) :
      Spec fs (.read i off n, .data (some ((f.data.drop off).take n))) fs
  | readBehind {fs : ℕ → Option File} {f : File} {i off n : ℕ} (hf : fs i = some f)
      (hoff : f.data.length < off ∨ 2 ^ 32 ≤ off + n) : Spec fs (.read i off n, .data none) fs
  | write {fs : ℕ → Option File} {f : File} {i off n : ℕ} {src : List UInt8} (hf : fs i = some f)
      (hoff : off ≤ f.data.length) (hlen : off + src.length < 2 ^ 32)
      (hn : n = min src.length (bsize * maxfile - off)) :
      Spec fs (.write i src off, .count (some n))
        (Function.update fs i (some { f with data := splice f.data off (src.take n) }))
  | writeBehind {fs : ℕ → Option File} {f : File} {i off : ℕ} {src : List UInt8}
    (hf : fs i = some f)
      (hoff : f.data.length < off ∨ 2 ^ 32 ≤ off + src.length) :
      Spec fs (.write i src off, .count none) fs
  | put {fs : ℕ → Option File} {f : File} {i : ℕ} (hf : fs i = some f) (h0 : f.nlink = 0) :
      Spec fs (.put i, .done) (Function.update fs i none)
  | putLinked {fs : ℕ → Option File} {f : File} {i : ℕ} (hf : fs i = some f) (h0 : f.nlink ≠ 0) :
      Spec fs (.put i, .done) fs

/-! ### Blocks in use -/

instance : DecidablePred (· ∈ inodes img) := fun i =>
  inferInstanceAs (Decidable (1 ≤ i ∧ i < 200 ∧ (img.dinode i).type ≠ 0))

/-- The blocks that the files of a table take. -/
def used (fs : ℕ → Option File) : ℕ :=
  ((List.range 200).map fun i => (fs i).elim 0 fun f => cost f.data.length).sum

/-- The disk has room for whatever the operation makes of the files. -/
def Op.Fits (fs : ℕ → Option File) (op : Op) : Prop :=
  ∀ r fs', Spec fs (op, r) fs' → used fs' ≤ 995

/-- A legal operation on the image, with room for it. -/
def KStep (img : Image) (e : Op × Result) (img' : Image) : Prop :=
  e.1.Legal (files img) ∧ e.1.Fits (files img) ∧ exec e.1 img = some (e.2, img')

theorem totalCost_eq_used [DecidablePred (· ∈ U)] {size : ℕ → ℕ} {fs : ℕ → Option File}
    (h : ∀ i < 200, ((fs i).elim 0 fun f => cost f.data.length) =
    if i ∈ U then cost (size i) else 0) :
    totalCost U size = used fs := by
  unfold totalCost used
  refine congrArg List.sum (List.map_congr_left fun i hi => ?_)
  exact (h i (List.mem_range.1 hi)).symm

theorem cost_files (i : ℕ) : ((files img i).elim 0 fun f => cost f.data.length) =
    if i ∈ inodes img then cost (img.dinode i).size else 0 := by
  split
  · rename_i hi
    rw [files_eq hi, Option.elim_some, length_contents]
  · rename_i hi
    rw [files_none hi, Option.elim_none]

/-- **No block is lost**: what is marked in the bitmap are as many blocks as the files take. -/
theorem ncard_marks (hW : Wf img) : (marks img).ncard = used (files img) := by
  rw [hW.owns.ncard_marks, hW.slots, ncard_tableSlots (fun k hk => hk.2.1) hW.size_le]
  exact totalCost_eq_used fun i _ => cost_files i

theorem used_le (hW : Wf img) : used (files img) ≤ 995 := by
  rw [← ncard_marks hW, hW.owns.ncard_marks]
  exact hW.owns.ncard_le

theorem totalCost_update (hi : i ∈ inodes img) {f : File} (hlen : f.data.length = m) :
    totalCost (inodes img) (Function.update (fun k => (img.dinode k).size) i m) =
      used (Function.update (files img) i (some f)) := by
  refine totalCost_eq_used fun k _ => ?_
  rcases eq_or_ne k i with rfl | hne
  · rw [Function.update_self, Function.update_self, if_pos hi, Option.elim_some, hlen]
  · rw [Function.update_of_ne hne, Function.update_of_ne hne]
    exact cost_files k

/-! ### One operation -/

theorem ilock_some {ip : Inode} (h1 : 1 ≤ i) (h200 : i < 200) (h : ilock i img = some ip) :
    i ∈ inodes img ∧ ip = inodeAt img (inodeOff i) := by
  rw [ilock] at h
  split at h
  · cases h
  · rename_i htype
    rw [toDinode_inodeAt] at htype
    exact ⟨⟨h1, h200, htype⟩, (Option.some.inj h).symm⟩

/-- Another number of links. -/
theorem link_spec (hW : Wf img) (hi : i ∈ inodes img) {nlink : ℤ}
    (hn : -2 ^ 15 ≤ nlink ∧ nlink < 2 ^ 15) {f : File} (hf : files img i = some f) :
    Changed img i (some { f with nlink := nlink })
      (iupdate i { inodeAt img (inodeOff i) with nlink := nlink } img) := by
  have hd : (inodeAt img (inodeOff i)).toDinode = img.dinode i := toDinode_inodeAt
  obtain ⟨ip, hip⟩ : ∃ ip : Inode, ip = { inodeAt img (inodeOff i) with nlink := nlink } := ⟨_, rfl⟩
  have htype : ip.type = (img.dinode i).type := by rw [hip, ← hd]
  have hsize : ip.size = (img.dinode i).size := by rw [hip, ← hd]
  have haddrs : ∀ j ≤ ndirect, ip.addrs j = (img.dinode i).addrs j := fun j _ => by rw [hip, ← hd]
  have hr := inRange_dinode img i
  have hF : InRange ip.toDinode := by
    refine ⟨htype ▸ hr.type, ?_, hsize ▸ hr.size, fun j hj => haddrs j hj ▸ hr.addrs j hj⟩
    rw [hip]
    exact hn
  have hT : Tidy (Function.update img.dinode i ip.toDinode) img (inodes img) := by
    refine hW.congr (fun k _ j hj => ?_) (fun k _ => ?_) rfl fun _ _ => rfl
    · rcases eq_or_ne k i with rfl | hne
      · rw [Function.update_self, haddrs j hj]
      · rw [Function.update_of_ne hne]
    · rcases eq_or_ne k i with rfl | hne
      · rw [Function.update_self, hsize]
      · rw [Function.update_of_ne hne]
  have hcontents : contents img ip.toDinode = contents img (img.dinode i) := by
    rw [contents, contents, hsize]
    exact List.map_congr_left fun o _ => byteAt_congr (slot_congr haddrs fun _ => sameBlock_refl)
      fun _ => sameBlock_refl
  rw [← hip]
  have hchanged := hT.sync_iupdate hi hF (by rw [htype]; exact hi.2.2) (fun _ _ _ _ _ => rfl)
    hW.size_le fun _ _ => rfl
  rw [files_eq hi] at hf
  obtain rfl := Option.some.inj hf
  rwa [htype, hcontents, show ip.nlink = nlink by rw [hip]] at hchanged

theorem readi_some {ip : Inode} (hW : Wf img) (hi : i ∈ inodes img)
    (hip : Same ip.toDinode (img.dinode i)) (hoff : off < 2 ^ 32) (hn : n < 2 ^ 32) :
    readi ip off n img = some (if off ≤ (img.dinode i).size ∧ off + n < 2 ^ 32 then
      some (((contents img (img.dinode i)).drop off).take n) else none, ip, img) := by
  split
  · rename_i h
    have hself : Function.update img.dinode i ip.toDinode i = ip.toDinode :=
      Function.update_self _ _ _
    rw [readi_spec (hW.copy hip) hi hself.symm (by rw [hself, hip.size]; exact h.1) h.2, hself,
      contents_same hip]
  · refine readi_behind ?_
    rw [hip.size]
    omega

/-- A write that starts behind the end of the file, or at an offset that overflows. -/
theorem writei_behind {ip : Inode} (hlen : src.length < 2 ^ 32) (hoff : off < 2 ^ 32)
    (h : ip.size < off ∨ 2 ^ 32 ≤ off + src.length) :
    writei i ip src off img = some (none, ip, img) := by
  rw [writei, if_pos (by omega)]

/-- A write of `n` bytes: with room for it the file is spliced, without it the image is not tidy. -/
theorem writei_some {ip : Inode} (hW : Wf img) (hi : i ∈ inodes img)
    (hip : Same ip.toDinode (img.dinode i))
    (hoff : off ≤ (img.dinode i).size) (hlen : off + src.length < 2 ^ 32)
    (hn : n = min src.length (bsize * maxfile - off)) {f : File} (hf : files img i = some f)
    {fs : ℕ → Option File}
    (hfs : fs = Function.update (files img) i
      (some { f with data := splice f.data off (src.take n) })) :
    (used fs ≤ 995 → ∃ ip' img', writei i ip src off img = some (some n, ip', img') ∧
      Same ip'.toDinode (img'.dinode i) ∧
      Changed img i (some { f with data := splice f.data off (src.take n) }) img') ∧
    (995 < used fs → ∀ r ip' img', writei i ip src off img = some (r, ip', img') → ¬Wf img') := by
  rw [files_eq hi] at hf
  obtain rfl := Option.some.inj hf
  have hle := hW.size_le i hi
  have htake : (src.take n).length = n := by
    rw [List.length_take]
    omega
  have hlength : (splice (contents img (img.dinode i)) off (src.take n)).length =
      max (img.dinode i).size (off + n) := by
    rw [length_splice (by rwa [length_contents]), length_contents, htake]
  have hused : (tableSlots (inodes img) (Function.update (fun k => (img.dinode k).size) i
      (max (img.dinode i).size (off + n)))).ncard = used fs := by
    rw [ncard_grown hW (by omega), hfs]
    exact totalCost_update hi hlength
  rw [← hused]
  refine ⟨fun hroom => ?_, fun hno r ip' img' hwrite => ?_⟩
  · obtain ⟨ip', img', hwrite, hself, hchanged⟩ := writei_spec hW hi hip hoff hlen hn hroom
    exact ⟨ip', img', hwrite, Same.symm hself, hchanged⟩
  · exact writei_not_wf hW hi hip hoff hlen hn hno hwrite

/-- **One operation** on a tidy image is one on its files and leaves it tidy, unless what it makes
of them does not fit the disk. -/
theorem exec_spec {op : Op} {r : Result} (hW : Wf img) (hlegal : op.Legal (files img))
    (h : exec op img = some (r, img')) :
    Wf img' ∧ Spec (files img) (op, r) (files img') ∨
      ¬Wf img' ∧ ∃ r fs, Spec (files img) (op, r) fs ∧ 995 < used fs := by
  cases op with
  | create type =>
    obtain ⟨⟨inum, img₁⟩, halloc, h⟩ := Option.bind_eq_some_iff.1 h
    obtain ⟨rfl, rfl⟩ := Prod.mk.inj (Option.some.inj h)
    obtain ⟨hfree, h1, h200, hchanged⟩ := ialloc_spec hW hlegal.2 hlegal.1 halloc
    rw [hchanged.files]
    exact .inl ⟨hchanged.wf, .create hfree h1 h200⟩
  | link i nlink =>
    obtain ⟨h1, h200, hn⟩ := hlegal
    obtain ⟨ip, hip, h⟩ := Option.bind_eq_some_iff.1 h
    obtain ⟨hi, rfl⟩ := ilock_some h1 h200 hip
    obtain ⟨rfl, rfl⟩ := Prod.mk.inj (Option.some.inj h)
    have hchanged := link_spec hW hi hn (files_eq hi)
    rw [hchanged.files]
    exact .inl ⟨hchanged.wf, .link (files_eq hi)⟩
  | read i off n =>
    obtain ⟨h1, h200, -, hoff, hn⟩ := hlegal
    obtain ⟨ip, hip, h⟩ := Option.bind_eq_some_iff.1 h
    obtain ⟨hi, rfl⟩ := ilock_some h1 h200 hip
    rw [readi_some hW hi same_inodeAt hoff hn] at h
    obtain ⟨rfl, rfl⟩ := Prod.mk.inj (Option.some.inj h)
    refine .inl ⟨hW, ?_⟩
    split
    · rename_i hin
      exact .read (files_eq hi) (by rw [length_contents]; exact hin.1) hin.2
    · refine .readBehind (files_eq hi) ?_
      rw [length_contents]
      omega
  | write i src off =>
    obtain ⟨h1, h200, -, hoff, hlen⟩ := hlegal
    obtain ⟨ip, hip, h⟩ := Option.bind_eq_some_iff.1 h
    obtain ⟨hi, rfl⟩ := ilock_some h1 h200 hip
    obtain ⟨⟨c, ip₁, img₁⟩, hwrite, h⟩ := Option.bind_eq_some_iff.1 h
    obtain ⟨rfl, rfl⟩ := Prod.mk.inj (Option.some.inj h)
    have hsize : (inodeAt img (inodeOff i)).size = (img.dinode i).size := by rw [toDinode_inodeAt]
    by_cases hin : off ≤ (img.dinode i).size ∧ off + src.length < 2 ^ 32
    · obtain ⟨n, hn⟩ : ∃ n, n = min src.length (bsize * maxfile - off) := ⟨_, rfl⟩
      obtain ⟨hroom, hno⟩ := writei_some hW hi same_inodeAt hin.1 hin.2 hn (files_eq hi) rfl
      have hspec : Spec (files img) (.write i src off, .count (some n)) _ :=
        .write (files_eq hi) (by rw [length_contents]; exact hin.1) hin.2 hn
      rcases Nat.lt_or_ge 995 (used (Function.update (files img) i (some
          { (⟨(img.dinode i).type, (img.dinode i).nlink, contents img (img.dinode i)⟩ : File) with
            data := splice (contents img (img.dinode i)) off (src.take n) }))) with hlt | hle
      · exact .inr ⟨hno hlt _ _ _ hwrite, _, _, hspec, hlt⟩
      · obtain ⟨ip₂, img₂, hwrite₂, -, hchanged⟩ := hroom hle
        rw [hwrite] at hwrite₂
        obtain ⟨rfl, hpair⟩ := Prod.mk.inj (Option.some.inj hwrite₂)
        obtain ⟨-, rfl⟩ := Prod.mk.inj hpair
        rw [hchanged.files]
        exact .inl ⟨hchanged.wf, hspec⟩
    · rw [writei_behind hlen hoff (by rw [hsize]; omega)] at hwrite
      obtain ⟨rfl, heq⟩ := Prod.mk.inj (Option.some.inj hwrite)
      obtain ⟨-, rfl⟩ := Prod.mk.inj heq
      refine .inl ⟨hW, .writeBehind (files_eq hi) ?_⟩
      rw [length_contents]
      omega
  | put i =>
    obtain ⟨h1, h200⟩ := hlegal
    obtain ⟨ip, hip, h⟩ := Option.bind_eq_some_iff.1 h
    obtain ⟨hi, rfl⟩ := ilock_some h1 h200 hip
    obtain ⟨img₁, hput, h⟩ := Option.bind_eq_some_iff.1 h
    obtain ⟨rfl, rfl⟩ := Prod.mk.inj (Option.some.inj h)
    by_cases h0 : (img.dinode i).nlink = 0
    · obtain ⟨img₂, hput', hchanged⟩ := iput_spec hW hi same_inodeAt h0
      rw [hput] at hput'
      obtain rfl := Option.some.inj hput'
      rw [hchanged.files]
      exact .inl ⟨hchanged.wf, .put (files_eq hi) h0⟩
    · rw [iput_of_links (by rwa [toDinode_inodeAt])] at hput
      obtain rfl := Option.some.inj hput
      exact .inl ⟨hW, .putLinked (files_eq hi) h0⟩

/-- With room for it, the operation is one on the files. -/
theorem KStep.spec {e : Op × Result} (hW : Wf img) (h : KStep img e img') :
    Wf img' ∧ Spec (files img) e (files img') := by
  obtain ⟨hlegal, hfits, hexec⟩ := h
  rcases exec_spec hW hlegal hexec with hspec | ⟨-, r, fs, hspec, hlt⟩
  · exact hspec
  · exact absurd (hfits r fs hspec) (not_le.2 hlt)

/-! ### Runs -/

/-- **Every run on a tidy image** is a run on its table of files. -/
theorem run_refines {es : List (Op × Result)} (hW : Wf img) (h : Run KStep img es img') :
    Wf img' ∧ Run Spec (files img) es (files img') := by
  induction h with
  | nil img => exact ⟨hW, .nil _⟩
  | cons hstep hrun ih =>
    obtain ⟨hW₁, hspec⟩ := hstep.spec hW
    obtain ⟨hW₂, hruns⟩ := ih hW₁
    exact ⟨hW₂, .cons hspec hruns⟩

/-- **No run loses a block**: as many are marked at its end as the files take then. -/
theorem run_marks {es : List (Op × Result)} (hW : Wf img) (h : Run KStep img es img') :
    (marks img').ncard = used (files img') ∧ used (files img') ≤ 995 := by
  have hW' := h.invariant hW fun _ _ _ hI hstep => (KStep.spec hI hstep).1
  exact ⟨ncard_marks hW', used_le hW'⟩

theorem used_update_le {fs : ℕ → Option File} {f : Option File}
    (h : (f.elim 0 fun f => cost f.data.length) ≤ (fs i).elim 0 fun f => cost f.data.length) :
    used (Function.update fs i f) ≤ used fs := by
  refine List.sum_le_sum fun k _ => ?_
  rcases eq_or_ne k i with rfl | hne
  · rwa [Function.update_self]
  · rw [Function.update_of_ne hne]

theorem used_create {fs : ℕ → Option File} (hfree : fs i = none) :
    used (Function.update fs i (some ⟨type, 0, []⟩)) = used fs := by
  refine congrArg List.sum (List.map_congr_left fun k _ => ?_)
  rcases eq_or_ne k i with rfl | hne
  · have hempty : cost 0 = 0 := by decide
    rwa [Function.update_self, hfree, Option.elim_some, Option.elim_none]
  · rw [Function.update_of_ne hne]

theorem ialloc_isSome (hW : Wf img) (h1 : 1 ≤ i) (h200 : i < 200) (hfree : files img i = none) :
    (ialloc type img).isSome = true := by
  have hfind : (((List.range img.superblock.ninodes).drop 1).find? fun inum =>
      decide ((inodeAt img (inodeOff inum)).type = 0)).isSome = true := by
    rw [List.find?_isSome]
    refine ⟨i, ?_, ?_⟩
    · rw [hW.owns.superblock, List.mem_drop_iff_getElem]
      refine ⟨i - 1, ?_, ?_⟩
      · rw [List.length_range]
        exact (by omega : i - 1 + 1 < 200)
      · rw [List.getElem_range]
        omega
    · rw [decide_eq_true_eq, toDinode_inodeAt]
      by_contra htype
      rw [files_eq ⟨h1, h200, htype⟩] at hfree
      cases hfree
  obtain ⟨inum, hinum⟩ := Option.isSome_iff_exists.1 hfind
  have hlt : inum < 200 := by
    have hmem := List.mem_of_mem_drop (List.mem_of_find?_eq_some hinum)
    rw [hW.owns.superblock] at hmem
    exact List.mem_range.1 hmem
  rw [ialloc, hinum]
  rfl

/-- The outcomes of an operation take the same number of blocks. -/
theorem Spec.used_eq {fs fs₁ fs₂ : ℕ → Option File} {op : Op} {r s : Result}
    (h : Spec fs (op, r) fs₁) (h' : Spec fs (op, s) fs₂) : used fs₁ = used fs₂ := by
  cases h with
  | create hfree _ _ =>
    cases h' with
    | create hfree' _ _ => rw [used_create hfree, used_create hfree']
  | link hf =>
    cases h' with
    | link hf' =>
      obtain rfl := Option.some.inj (hf.symm.trans hf')
      rfl
  | read _ _ _ => cases h' <;> rfl
  | readBehind _ _ => cases h' <;> rfl
  | write hf hoff hlen hn =>
    cases h' with
    | write hf' _ _ hn' =>
      obtain rfl := Option.some.inj (hf.symm.trans hf')
      rw [hn, hn']
    | writeBehind hf' hoff' =>
      obtain rfl := Option.some.inj (hf.symm.trans hf')
      omega
  | writeBehind hf hoff =>
    cases h' with
    | write hf' hoff' hlen' _ =>
      obtain rfl := Option.some.inj (hf.symm.trans hf')
      omega
    | writeBehind _ _ => rfl
  | put hf h0 =>
    cases h' with
    | put _ _ => rfl
    | putLinked hf' h0' =>
      obtain rfl := Option.some.inj (hf.symm.trans hf')
      exact absurd h0 h0'
  | putLinked hf h0 =>
    cases h' with
    | put hf' h0' =>
      obtain rfl := Option.some.inj (hf.symm.trans hf')
      exact absurd h0' h0
    | putLinked _ _ => rfl

/-- An operation that the table allows, and that fits, goes through. -/
theorem exec_some {op : Op} {r : Result} {fs : ℕ → Option File} (hW : Wf img)
    (hlegal : op.Legal (files img)) (h : Spec (files img) (op, r) fs) (hused : used fs ≤ 995) :
    ∃ s img', exec op img = some (s, img') := by
  have hlock : ∀ {i f}, files img i = some f → ilock i img = some (inodeAt img (inodeOff i)) :=
    fun hf => ilock_eq (mem_inodes.2 ⟨_, hf⟩)
  cases h with
  | create hfree h1 h200 =>
    obtain ⟨s, hs⟩ := Option.isSome_iff_exists.1 (ialloc_isSome hW h1 h200 hfree)
    rw [exec, hs]
    exact ⟨_, _, rfl⟩
  | link hf =>
    rw [exec, hlock hf]
    exact ⟨_, _, rfl⟩
  | read hf hoff hn =>
    rw [exec, hlock hf, Option.bind_eq_bind, Option.bind_some,
      readi_some hW (mem_inodes.2 ⟨_, hf⟩) same_inodeAt hlegal.2.2.2.1 hlegal.2.2.2.2]
    exact ⟨_, _, rfl⟩
  | readBehind hf hoff =>
    rw [exec, hlock hf, Option.bind_eq_bind, Option.bind_some,
      readi_some hW (mem_inodes.2 ⟨_, hf⟩) same_inodeAt hlegal.2.2.2.1 hlegal.2.2.2.2]
    exact ⟨_, _, rfl⟩
  | write hf hoff hlen hn =>
    have hi := mem_inodes.2 ⟨_, hf⟩
    have hsize := hoff
    rw [files_eq hi] at hf
    obtain rfl := Option.some.inj hf
    rw [length_contents] at hsize
    obtain ⟨ip', img', hwrite, -⟩ :=
      (writei_some hW hi same_inodeAt hsize hlen hn (files_eq hi) rfl).1 hused
    rw [exec, ilock_eq hi, Option.bind_eq_bind, Option.bind_some, hwrite]
    exact ⟨_, _, rfl⟩
  | @writeBehind _ i _ _ hf hoff =>
    have hi := mem_inodes.2 ⟨_, hf⟩
    rw [files_eq hi] at hf
    obtain rfl := Option.some.inj hf
    rw [length_contents] at hoff
    have hsize : (inodeAt img (inodeOff i)).size = (img.dinode i).size := by rw [toDinode_inodeAt]
    rw [exec, ilock_eq hi, Option.bind_eq_bind, Option.bind_some,
      writei_behind hlegal.2.2.2.2 hlegal.2.2.2.1 (by rwa [hsize])]
    exact ⟨_, _, rfl⟩
  | put hf h0 =>
    have hi := mem_inodes.2 ⟨_, hf⟩
    rw [files_eq hi] at hf
    obtain rfl := Option.some.inj hf
    obtain ⟨img', hput, -⟩ := iput_spec hW hi same_inodeAt h0
    rw [exec, ilock_eq hi, Option.bind_eq_bind, Option.bind_some, hput]
    exact ⟨_, _, rfl⟩
  | putLinked hf h0 =>
    have hi := mem_inodes.2 ⟨_, hf⟩
    rw [files_eq hi] at hf
    obtain rfl := Option.some.inj hf
    rw [exec, ilock_eq hi, Option.bind_eq_bind, Option.bind_some,
      iput_of_links (by rwa [toDinode_inodeAt])]
    exact ⟨_, _, rfl⟩

/-- A step of the table that fits is one of the image. -/
theorem exists_step {op : Op} {r : Result} {fs : ℕ → Option File} (hW : Wf img)
    (hlegal : op.Legal (files img)) (h : Spec (files img) (op, r) fs) (hused : used fs ≤ 995) :
    ∃ s img', KStep img (op, s) img' := by
  obtain ⟨s, img', hexec⟩ := exec_some hW hlegal h hused
  refine ⟨s, img', hlegal, fun t fs' h' => ?_, hexec⟩
  rwa [← h.used_eq h']

/-- **An operation goes through and leaves a tidy image** exactly if the table has a step for it
whose files fit the disk. -/
theorem exec_wf_iff {op : Op} (hW : Wf img) (hlegal : op.Legal (files img)) :
    (∃ r img', exec op img = some (r, img') ∧ Wf img') ↔
      ∃ r fs, Spec (files img) (op, r) fs ∧ used fs ≤ 995 := by
  constructor
  · rintro ⟨r, img', hexec, hW'⟩
    rcases exec_spec hW hlegal hexec with ⟨-, hspec⟩ | ⟨hnot, -⟩
    · exact ⟨r, _, hspec, used_le hW'⟩
    · exact absurd hW' hnot
  · rintro ⟨r, fs, hspec, hused⟩
    obtain ⟨s, img', hstep⟩ := exists_step hW hlegal hspec hused
    exact ⟨s, img', hstep.2.2, (hstep.spec hW).1⟩

end OsProjects.Kernel
