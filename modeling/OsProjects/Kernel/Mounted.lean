import OsProjects.Kernel.Runs
import OsProjects.Mkfs.Accepted
import OsProjects.Mkfs.Sizes

/-!
# The first image

The image that `mkfs` makes of a host directory is tidy, and its files are those of the host
(`main_files`), if no directory has entries that fill its blocks: there the size that `add_dir`
rounds up to is a block more than the directory has.
-/

namespace OsProjects.Kernel

open Fsck Mkfs

variable {t : HostDir} {img : Image} {free i b o : ℕ} {c : ℕ → List UInt8} {e : ℕ × Content}

/-- No directory has entries that fill its blocks. -/
def NoneFull (t : HostDir) : Prop := ∀ e ∈ t.inodes, e.2.type = tDir → e.2.size % bsize ≠ 0

instance (t : HostDir) : Decidable (NoneFull t) := inferInstanceAs (Decidable (∀ _ ∈ _, _))

/-- The size on the disk. -/
def diskSize : Content → ℕ
  | .file data => data.length
  | .dir _ links => rounded (32 + 16 * links.length)

/-- What an inode holds on the disk; that of a directory is followed by empty entries. -/
def diskFile (i : ℕ) (content : Content) : File :=
  ⟨content.type, 1, content.bytes i ++ List.replicate (diskSize content - content.size) 0⟩

theorem size_le_diskSize (content : Content) : content.size ≤ diskSize content := by
  cases content with
  | file data => exact le_rfl
  | dir parent links =>
    show 32 + 16 * links.length ≤ ((32 + 16 * links.length) / 512 + 1) * 512
    omega

theorem diskSize_le (ht : t.Fits) (he : e ∈ t.inodes) : diskSize e.2 ≤ bsize * maxfile := by
  have hle := (ht.dataBlocks_le he).1
  have hcount := ht.inodes
  have hlinks := HostDir.length_links he
  obtain ⟨i, content⟩ := e
  cases content with
  | file data =>
    change (data.length + 511) / 512 ≤ 140 at hle
    show data.length ≤ 71680
    omega
  | dir parent links =>
    change links.length ≤ t.count at hlinks
    show ((32 + 16 * links.length) / 512 + 1) * 512 ≤ 71680
    omega

/-- The blocks below the size are those of the contents. -/
theorem mem_covered (hN : NoneFull t) (he : e ∈ t.inodes) (hle : dataBlocks e.2.size ≤ maxfile) :
    b ∈ covered (diskSize e.2) ↔
      b < dataBlocks e.2.size ∨ b = maxfile ∧ ndirect < dataBlocks e.2.size := by
  obtain ⟨i, content⟩ := e
  have hfull := hN _ he
  cases content with
  | file data =>
    change (data.length + 511) / 512 ≤ 140 at hle
    show b < 140 ∧ 512 * b < data.length ∨ b = 140 ∧ 512 * 12 < data.length ↔
      b < (data.length + 511) / 512 ∨ b = 140 ∧ 12 < (data.length + 511) / 512
    omega
  | dir parent links =>
    have hfull : (32 + 16 * links.length) % 512 ≠ 0 := hfull rfl
    change (32 + 16 * links.length + 511) / 512 ≤ 140 at hle
    show b < 140 ∧ 512 * b < ((32 + 16 * links.length) / 512 + 1) * 512 ∨
        b = 140 ∧ 512 * 12 < ((32 + 16 * links.length) / 512 + 1) * 512 ↔
      b < (32 + 16 * links.length + 511) / 512 ∨ b = 140 ∧ 12 < (32 + 16 * links.length + 511) / 512
    omega

section Finished

variable (hF : Finished t img free c)

include hF

theorem mem_inodes_iff : i ∈ inodes img ↔ 1 ≤ i ∧ i < 2 + t.count := by
  have hle := hF.count_le
  constructor
  · rintro ⟨h1, h200, hty⟩
    refine ⟨h1, ?_⟩
    by_contra h
    exact hty (hF.unused i h200 (by omega))
  · rintro ⟨h1, hlt⟩
    exact ⟨h1, by omega, hF.type_ne_zero h1 hlt⟩

theorem pos_of_mem_slotsOf (h : (i, b) ∈ slotsOf (blocksOf c) (2 + t.count)) : 1 ≤ i := by
  by_contra hi
  obtain rfl : i = 0 := by omega
  have hnone : blocksOf c 0 = 0 := by
    rw [blocksOf, hF.nil]
    rfl
  have hcase := h.2
  simp only [hnone] at hcase
  omega

/-- The slots in use are those with contents. -/
theorem live_eq : live img.dinode img (inodes img) = slotsOf (blocksOf c) (2 + t.count) := by
  ext ⟨i, b⟩
  rw [mem_live]
  constructor
  · rintro ⟨hi, hb, h0⟩
    exact (hF.mem_slots ((mem_inodes_iff hF).1 hi).2 hb).2 h0
  · intro h
    obtain ⟨hlt, hb⟩ := hF.held.slots _ h
    exact ⟨(mem_inodes_iff hF).2 ⟨pos_of_mem_slotsOf hF h, hlt⟩, hb, (hF.mem_slots hlt hb).1 h⟩

theorem marks_eq : marks img = Set.Ico 29 free := by
  have hle := hF.free_le
  ext x
  simp only [marks, Set.mem_ofPred_eq, Set.mem_Ico]
  constructor
  · rintro ⟨h29, hlt, hmarked⟩
    rw [hF.marked x (by unfold bsize; omega), decide_eq_true_eq] at hmarked
    exact ⟨h29, hmarked⟩
  · rintro ⟨h29, hlt⟩
    refine ⟨h29, by omega, ?_⟩
    rw [hF.marked x (by unfold bsize; omega), decide_eq_true_eq]
    exact hlt

theorem length_contents_eq (he : e ∈ t.inodes) : (c e.1).length = e.2.size := by
  rw [hF.bytes e he, Content.length_bytes]

/-- The root directory has a block. -/
theorem free_gt : 29 < free := by
  have hroot : (1, Content.dir 1 (t.links 2)) ∈ t.inodes := List.mem_cons_self
  have hlen := length_contents_eq hF hroot
  have hpos : 0 < blocksOf c 1 := by
    rw [blocksOf, hlen]
    show 0 < (32 + 16 * (t.links 2).length + 511) / 512
    omega
  have hmem : (1, 0) ∈ slotsOf (blocksOf c) (2 + t.count) :=
    ⟨Nat.lt_of_lt_of_le Nat.one_lt_two (Nat.le_add_right _ _), .inl hpos⟩
  have hrange := hF.held.mem_Ico hmem
  omega

theorem owns_live : Owns img.dinode img (live img.dinode img (inodes img)) := by
  have hgt := free_gt hF
  refine ⟨hF.superblock, ?_, fun x hx => ?_, fun x hx hfree r hr => ?_⟩
  · rw [live_eq hF, marks_eq hF]
    exact hF.held.owned
  · rw [hF.marked x (by unfold bsize; omega), decide_eq_true_eq]
    omega
  · rw [hF.marked x (by unfold bsize; omega), decide_eq_false_iff_not, not_lt] at hfree
    exact hF.held.clear _ ((Nat.mul_le_mul_left bsize hfree).trans (Nat.le_add_right _ _))

/-- The bytes of an inode are its contents and zeros. -/
theorem byteAt_eq_getD (hi : i < 2 + t.count) (ho : o < bsize * maxfile) :
    byteAt img (img.dinode i) o = (c i).getD o 0 := by
  have hb : o / bsize < maxfile := div_lt_maxfile ho
  have hdiv : bsize * (o / bsize) + o % bsize = o := Nat.div_add_mod o bsize
  have hmem := hF.mem_slots hi hb.le
  rw [byteAt]
  split
  · rename_i h0
    have hnot : ¬o / bsize < blocksOf c i := fun hlt => hmem.1 ⟨hi, .inl hlt⟩ h0
    rw [List.getD_eq_default]
    unfold blocksOf dataBlocks bsize at hnot
    omega
  · rename_i h0
    have hdata := hF.held.data _ (hmem.2 h0) hb _ (mod_lt_bsize o)
    rwa [hdiv] at hdata

variable (ht : t.Fits) (hS : Sized img t.inodes) (hN : NoneFull t)

include hS

theorem size_eq (he : e ∈ t.inodes) : (img.dinode e.1).size = diskSize e.2 := by
  obtain ⟨i, content⟩ := e
  cases content with
  | file data => exact (hF.size _ he rfl).trans (length_contents_eq hF he)
  | dir parent links => exact hS i parent links he

include ht hN

/-- **The image is tidy.** -/
theorem wf_of_finished : Wf img := by
  have hcontent : ∀ i ∈ inodes img, ∃ content, (i, content) ∈ t.inodes := fun i hi =>
    HostDir.exists_content hi.1 ((mem_inodes_iff hF).1 hi).2
  refine ⟨owns_live hF, fun i hi => ?_, ?_, fun i hi o ho hmax => ?_⟩
  · obtain ⟨content, he⟩ := hcontent i hi
    rw [size_eq hF hS he]
    exact diskSize_le ht he
  · rw [live_eq hF]
    ext ⟨i, b⟩
    constructor
    · intro h
      have h1 := pos_of_mem_slotsOf hF h
      obtain ⟨content, he⟩ := HostDir.exists_content h1 h.1
      refine ⟨(mem_inodes_iff hF).2 ⟨h1, h.1⟩, ?_⟩
      show b ∈ covered (img.dinode i).size
      have hb := h.2
      rw [size_eq hF hS he, mem_covered hN he (ht.dataBlocks_le he).1, ← length_contents_eq hF he]
      exact hb
    · rintro ⟨hi, hb⟩
      obtain ⟨content, he⟩ := hcontent i hi
      have hb : b ∈ covered (img.dinode i).size := hb
      rw [size_eq hF hS he, mem_covered hN he (ht.dataBlocks_le he).1,
        ← length_contents_eq hF he] at hb
      exact ⟨((mem_inodes_iff hF).1 hi).2, hb⟩
  · obtain ⟨content, he⟩ := hcontent i hi
    rw [size_eq hF hS he] at ho
    rw [byteAt_eq_getD hF ((mem_inodes_iff hF).1 hi).2 hmax, List.getD_eq_default]
    rw [length_contents_eq hF he]
    exact (size_le_diskSize content).trans ho

omit hN in
theorem files_of_mem (he : e ∈ t.inodes) : files img e.1 = some (diskFile e.1 e.2) := by
  have hlt := HostDir.mem_inodes he
  have hi : e.1 ∈ inodes img := (mem_inodes_iff hF).2 hlt
  have hlen := length_contents_eq hF he
  have hle := size_le_diskSize e.2
  have hmax := diskSize_le ht he
  have hcontents : contents img (img.dinode e.1) =
      e.2.bytes e.1 ++ List.replicate (diskSize e.2 - e.2.size) 0 := by
    rw [← hF.bytes e he]
    refine List.ext_getElem ?_ fun o ho ho' => ?_
    · rw [Kernel.length_contents, size_eq hF hS he, List.length_append, List.length_replicate, hlen]
      omega
    · rw [Kernel.length_contents, size_eq hF hS he] at ho
      rw [getElem_contents, byteAt_eq_getD hF hlt.2 (ho.trans_le hmax),
        ← List.getD_eq_getElem _ 0 ho']
      rcases Nat.lt_or_ge o (c e.1).length with h | h
      · rw [List.getD_append _ _ _ _ h]
      · rw [List.getD_append_right _ _ _ _ h, List.getD_eq_default _ _ h,
          List.getD_replicate _ (by omega)]
  rw [files_eq hi, hcontents, hF.type e he, hF.nlink e.1 hlt.2 (by omega)]
  rfl

end Finished

/-- The image is made, and its files are those of the host directory. -/
theorem exists_mounted (ht : t.Fits) (hN : NoneFull t) : ∃ s, main t = some s ∧ Wf s.img ∧
    (∀ i content, (i, content) ∈ t.inodes → files s.img i = some (diskFile i content)) ∧
    ∀ i, i ∉ t.inodes.map Prod.fst → files s.img i = none := by
  obtain ⟨s, c, hmain, hF⟩ := main_spec ht
  have hS := main_sized ht hmain
  refine ⟨s, hmain, wf_of_finished hF ht hS hN, fun i content he => files_of_mem hF ht hS he,
    fun i hi => files_none fun hmem => hi ?_⟩
  rw [HostDir.fst_inodes, List.mem_range'_1]
  have := (mem_inodes_iff hF).1 hmem
  omega

/-! ### A run on a first image -/

theorem noneFull_sampleDir : NoneFull sampleDir := by decide

/-- The first image, with the file that is in directory `d`. -/
theorem exists_sample : ∃ img, Wf img ∧ files img 3 = some ⟨tFile, 1, [104, 105, 33]⟩ := by
  obtain ⟨s, -, hW, hfiles, -⟩ := exists_mounted fits_sampleDir noneFull_sampleDir
  exact ⟨s.img, hW, hfiles 3 (.file [104, 105, 33]) (.tail _ (.tail _ (.head _)))⟩

theorem legal_overwrite (h : files img 3 = some ⟨tFile, 1, [104, 105, 33]⟩) :
    (Op.write 3 [72] 0).Legal (files img) := by
  refine ⟨by decide, by decide, fun f hf => ?_, by decide, by decide⟩
  rw [h] at hf
  obtain rfl := Option.some.inj hf
  decide

/-- The table after the first byte of the file has been written. -/
theorem spec_overwrite (hW : Wf img) (h : files img 3 = some ⟨tFile, 1, [104, 105, 33]⟩) :
    ∃ fs, Spec (files img) (.write 3 [72] 0, .count (some 1)) fs ∧ used fs ≤ 995 := by
  refine ⟨_, .write h (Nat.zero_le _) (by decide) (by decide),
    (used_update_le ?_).trans (used_le hW)⟩
  rw [h]
  exact le_rfl

/-- A file is changed, loses its link and is dropped. -/
theorem exists_session : ∃ img img', Wf img ∧ Run KStep img
    [(.write 3 [72] 0, .count (some 1)), (.link 3 0, .done), (.put 3, .done)] img' := by
  obtain ⟨img, hW, hf⟩ := exists_sample
  obtain ⟨fs, hspec, hused⟩ := spec_overwrite hW hf
  obtain ⟨r, img₁, hstep⟩ := exists_step hW (legal_overwrite hf) hspec hused
  obtain ⟨hW₁, hspec₁⟩ := hstep.spec hW
  obtain ⟨rfl, f, hf₁⟩ : r = .count (some 1) ∧ ∃ f, files img₁ 3 = some f := by
    generalize files img₁ = fs₁ at hspec₁
    cases hspec₁ with
    | write hf' hoff hlen hn =>
      rw [hn]
      exact ⟨rfl, _, Function.update_self _ _ _⟩
    | writeBehind hf' hoff =>
      rw [hf] at hf'
      obtain rfl := Option.some.inj hf'
      rcases hoff with hoff | hoff
      · cases hoff
      · exact absurd hoff (by decide)
  have hused₁ : used (Function.update (files img₁) 3 (some { f with nlink := 0 })) ≤ 995 := by
    refine (used_update_le ?_).trans (used_le hW₁)
    rw [hf₁]
    exact le_rfl
  have hlegal₁ : (Op.link 3 0).Legal (files img₁) := ⟨by decide, by decide, by decide, by decide⟩
  obtain ⟨r, img₂, hstep₂⟩ := exists_step hW₁ hlegal₁ (.link hf₁) hused₁
  obtain ⟨hW₂, hspec₂⟩ := hstep₂.spec hW₁
  obtain ⟨rfl, f, hf₂, h0⟩ : r = .done ∧ ∃ f, files img₂ 3 = some f ∧ f.nlink = 0 := by
    generalize files img₂ = fs₂ at hspec₂
    cases hspec₂
    exact ⟨rfl, _, Function.update_self _ _ _, rfl⟩
  have hused₂ : used (Function.update (files img₂) 3 none) ≤ 995 :=
    (used_update_le (Nat.zero_le _)).trans (used_le hW₂)
  have hlegal₂ : (Op.put 3).Legal (files img₂) := ⟨by decide, by decide⟩
  obtain ⟨r, img₃, hstep₃⟩ := exists_step hW₂ hlegal₂ (.put hf₂ h0) hused₂
  obtain rfl : r = .done := by
    have hspec₃ := (hstep₃.spec hW₂).2
    generalize files img₃ = fs₃ at hspec₃
    cases hspec₃ <;> rfl
  exact ⟨img, img₃, hW, .cons hstep (.cons hstep₂ (Run.single_iff.2 hstep₃))⟩

theorem run_refines_session : ∃ img img', Wf img' ∧ Run Spec (files img)
    [(.write 3 [72] 0, .count (some 1)), (.link 3 0, .done), (.put 3, .done)] (files img') := by
  obtain ⟨img, img', hW, hrun⟩ := exists_session
  exact ⟨img, img', run_refines hW hrun⟩

theorem run_marks_session : ∃ img img', Run KStep img
      [(.write 3 [72] 0, .count (some 1)), (.link 3 0, .done), (.put 3, .done)] img' ∧
    (marks img').ncard = used (files img') ∧ used (files img') ≤ 995 := by
  obtain ⟨img, img', hW, hrun⟩ := exists_session
  exact ⟨img, img', hrun, run_marks hW hrun⟩

theorem exec_wf_iff_overwrite : ∃ img, files img 3 = some ⟨tFile, 1, [104, 105, 33]⟩ ∧
    ((∃ r img', exec (.write 3 [72] 0) img = some (r, img') ∧ Wf img') ↔
      ∃ r fs, Spec (files img) (.write 3 [72] 0, r) fs ∧ used fs ≤ 995) := by
  obtain ⟨img, hW, hf⟩ := exists_sample
  exact ⟨img, hf, exec_wf_iff hW (legal_overwrite hf)⟩

end OsProjects.Kernel
