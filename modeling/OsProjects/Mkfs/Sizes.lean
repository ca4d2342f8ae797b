import OsProjects.Mkfs.Image

/-!
# The sizes of the directories

`add_dir` ends with rounding the size of the directory up, to the multiple of the block size above
that of its entries (`Finished.sized`).  Where the entries fill the last block this is one block
more than the directory has.
-/

namespace OsProjects.Mkfs

open Fsck

variable {s s' : Fs} {c c' : ℕ → List UInt8} {cur i j N : ℕ} {l : List UInt8} {t : HostDir}
  {T T' : List (ℕ × Content)} {img img' : Image}

/-- `((din.size/BSIZE) + 1) * BSIZE` -/
def rounded (n : ℕ) : ℕ := (n / bsize + 1) * bsize

/-- The directories of a table have their sizes. -/
def Sized (img : Image) (T : List (ℕ × Content)) : Prop :=
  ∀ x parent l, (x, Content.dir parent l) ∈ T → (img.dinode x).size = rounded (32 + 16 * l.length)

theorem Sized.congr (h : Sized img T) (hsame : ∀ e ∈ T, Same (img'.dinode e.1) (img.dinode e.1)) :
    Sized img' T := fun x parent l hmem => (hsame _ hmem).size.trans (h x parent l hmem)

theorem Sized.append (h : Sized img T) (h' : Sized img T') : Sized img (T ++ T') := by
  intro x parent l hmem
  rcases List.mem_append.1 hmem with hmem | hmem
  · exact h x parent l hmem
  · exact h' x parent l hmem

theorem Sized.cons {parent : ℕ} {links : List Link} (h : Sized img T)
    (hsize : (img.dinode i).size = rounded (32 + 16 * links.length)) :
    Sized img ((i, .dir parent links) :: T) := by
  intro x parent' l hmem
  rcases List.mem_cons.1 hmem with heq | hmem
  · obtain ⟨rfl, hdir⟩ := Prod.mk.inj heq
    obtain ⟨-, rfl⟩ := Content.dir.inj hdir
    exact hsize
  · exact h x parent' l hmem

theorem fixSize_size (hs : Stored s c) (hi : i < s.freeinode) (h0 : i ≠ 0)
    (hsize : (s.img.dinode i).size < 2 ^ 31) (h : fixSize i s = some s') :
    (s'.img.dinode i).size = rounded (s.img.dinode i).size := by
  have hlt := hi.trans_le hs.inodes.2
  obtain ⟨ip, hread, hip⟩ := rinode_eq (s := s) hlt
  rw [fixSize, hread, Option.bind_eq_bind, Option.bind_some, winode_eq hlt] at h
  obtain rfl := Option.some.inj h
  rw [← hip] at hsize ⊢
  refine (putInode_self ⟨?_, ?_, ?_, fun j _ => ?_⟩).size
  · show ip.type < 2 ^ 16
    rw [hip]
    exact Stored.type_lt i
  · show ip.nlink = 1
    rw [hip]
    exact hs.nlink i hi h0
  · show (ip.size / bsize + 1) * bsize < 2 ^ 32
    unfold bsize
    omega
  · show ip.addrs j < 2 ^ 32
    rw [hip]
    exact Bytes.word_lt _ _ _

/-- A new directory, if those of its entries have their sizes. -/
theorem addDir_sized (parent : ℕ) (hs : Stored s c) (hN : s.freeinode < 200)
    (hfit : s.freeblock + cost 32 ≤ 1024) (t : HostDir)
    (hsub : ∀ s₁ c₁, Open s₁ c₁ s.freeinode → s₁.freeinode = s.freeinode + 1 →
      s₁.freeblock = s.freeblock + cost 32 → c₁ s.freeinode = dotBytes s.freeinode parent →
      ∃ s₂ c₂, addEntries t s.freeinode s₁ = some s₂ ∧ Built t s.freeinode s₁ c₁ s₂ c₂ ∧
        Sized s₂.img (t.table s.freeinode (s.freeinode + 1)))
    (hsize : 32 + 16 * t.count < 2 ^ 31)
    (h : addDir t s.freeinode parent (newInode tDir s) = some s') :
    Sized s'.img ((s.freeinode, .dir parent (t.links (s.freeinode + 1))) ::
      t.table s.freeinode (s.freeinode + 1)) := by
  have hty : tDir < 2 ^ 16 := by decide
  have hnew := open_new hs hN hty
  have hnil : c s.freeinode = [] := hs.empty _ le_rfl
  obtain ⟨-, hfb, hfi, -, -⟩ := hs.newInode hN hty
  obtain ⟨s₁, c₁, hdots, hE₁, hfb₁, hfi₁⟩ := addDots_step parent hnew hnil (by rw [hfb]; exact hfit)
  have hc₁ : c₁ s.freeinode = dotBytes s.freeinode parent := by
    rw [hE₁.added, hnil]
    rfl
  have hN₁ : s₁.freeinode = s.freeinode + 1 := hfi₁.trans hfi
  obtain ⟨s₂, c₂, hentries, hB, hsized⟩ := hsub s₁ c₁ (hE₁.stays hnew) hN₁ (by rw [hfb₁, hfb]) hc₁
  have hlinks := t.length_links_le (s.freeinode + 1)
  have hopen₂ := (hE₁.trans hB.extends_).stays hnew
  have hsize₂ : (s₂.img.dinode s.freeinode).size =
      32 + 16 * (t.links (s.freeinode + 1)).length := by
    rw [hB.extends_.size, hB.extends_.added, hc₁, List.length_append, length_dotBytes,
      length_flatMap_const length_linkBytes, hN₁]
  have hlt : (s₂.img.dinode s.freeinode).size < 2 ^ 31 := by
    rw [hsize₂]
    omega
  obtain ⟨s₃, hfix, -, -, -, -, hother⟩ := hopen₂.stored.fixSize hopen₂.lt hopen₂.ne_zero hlt
  have hs₃ : s₃ = s' := by
    simp only [addDir, hdots, hentries, Option.bind_eq_bind, Option.bind_some, hfix] at h
    exact Option.some.inj h
  subst hs₃
  have hfi₂ := hB.freeinode
  have hle := hopen₂.stored.inodes.2
  refine (hsized.congr fun e he => ?_).cons ?_
  · have hmem := t.mem_table he
    exact hother e.1 (by omega) (by omega)
  · rw [fixSize_size hopen₂.stored hopen₂.lt hopen₂.ne_zero hlt hfix, hsize₂]

/-- The directories among the entries of a directory. -/
theorem addEntries_sized (t : HostDir) (ho : Open s c cur) (hR : Room t cur s c)
    (h : addEntries t cur s = some s') : Sized s'.img (t.table cur s.freeinode) := by
  induction t generalizing cur s c s' with
  | nil => exact fun x parent l hmem => absurd hmem (List.not_mem_nil)
  | file name reads rest ih =>
    obtain ⟨hinodes, hfiles, hspace, hblocks⟩ := hR
    by_cases hskip : name.skipped
    · rw [addEntries, if_pos hskip] at h
      simp only [HostDir.count, HostDir.links, HostDir.table, if_pos hskip]
        at hinodes hspace hblocks ⊢
      exact ih ho ⟨hinodes, hfiles.2, hspace, hblocks⟩ h
    simp only [HostDir.count, HostDir.links, HostDir.table, if_neg hskip, List.length_cons,
      tableCost_cons, Content.size, grow_entries] at hinodes hspace hblocks ⊢
    obtain ⟨s₁, c₁, hreads, hE₁, -, hfb₁, hfi₁⟩ :=
      file_step ho (by omega) (hfiles.1 hskip) (by omega)
    obtain ⟨s₂, c₂, hlink, hE, -, hfb₂, hfi₂⟩ := hE₁.link ho (by omega) (by omega) s.freeinode name
    have hlen : (c₂ cur).length = (c cur).length + 16 := by
      rw [hE.added, List.length_append, length_linkBytes]
    have hN : s₂.freeinode = s.freeinode + 1 := hfi₂.trans hfi₁
    rw [addEntries_file hskip (by omega), hreads] at h
    simp only [Option.bind_eq_bind, Option.bind_some, hlink] at h
    have hrest := ih (hE.stays ho) ⟨by omega, hfiles.2, by omega, by rw [hN, hlen]; omega⟩ h
    rw [hN] at hrest
    intro x parent l hmem
    rcases List.mem_cons.1 hmem with heq | hmem
    · cases (Prod.mk.inj heq).2
    · exact hrest x parent l hmem
  | dir name sub rest ihs ih =>
    obtain ⟨hinodes, hfiles, hspace, hblocks⟩ := hR
    by_cases hskip : name.skipped
    · rw [addEntries, if_pos hskip] at h
      simp only [HostDir.count, HostDir.links, HostDir.table, if_pos hskip]
        at hinodes hspace hblocks ⊢
      exact ih ho ⟨hinodes, hfiles.2, hspace, hblocks⟩ h
    simp only [HostDir.count, HostDir.links, HostDir.table, if_neg hskip, List.length_cons,
      tableCost_cons, tableCost_append, Content.size, grow_entries] at hinodes hspace hblocks ⊢
    have hlinks := sub.length_links_le (s.freeinode + 1)
    have hmono := cost_mono (show 32 ≤ 32 + 16 * (sub.links (s.freeinode + 1)).length by omega)
    have hsub : ∀ s₁ c₁, Open s₁ c₁ s.freeinode → s₁.freeinode = s.freeinode + 1 →
        s₁.freeblock = s.freeblock + cost 32 → c₁ s.freeinode = dotBytes s.freeinode cur →
        ∃ s₂ c₂, addEntries sub s.freeinode s₁ = some s₂ ∧ Built sub s.freeinode s₁ c₁ s₂ c₂ ∧
          Sized s₂.img (sub.table s.freeinode (s.freeinode + 1)) := by
      intro s₁ c₁ ho₁ hfi₁ hfb₁ hc₁
      have hmaxfile : bsize * maxfile = 71680 := by decide
      have hroom : Room sub s.freeinode s₁ c₁ := by
        refine ⟨by omega, hfiles.1 hskip, ?_, ?_⟩
        · rw [hc₁, length_dotBytes]
          omega
        · rw [hfi₁, hfb₁, hc₁, length_dotBytes]
          unfold grow
          omega
      obtain ⟨s₂, c₂, hadd, hB⟩ := addEntries_step sub ho₁ hroom
      have hsized := ihs ho₁ hroom hadd
      rw [hfi₁] at hsized
      exact ⟨s₂, c₂, hadd, hB, hsized⟩
    have hbuilt : ∀ s₁ c₁, Open s₁ c₁ s.freeinode → s₁.freeinode = s.freeinode + 1 →
        s₁.freeblock = s.freeblock + cost 32 → c₁ s.freeinode = dotBytes s.freeinode cur →
        ∃ s₂ c₂, addEntries sub s.freeinode s₁ = some s₂ ∧ Built sub s.freeinode s₁ c₁ s₂ c₂ := by
      intro s₁ c₁ ho₁ hfi₁ hfb₁ hc₁
      obtain ⟨s₂, c₂, hadd, hB, -⟩ := hsub s₁ c₁ ho₁ hfi₁ hfb₁ hc₁
      exact ⟨s₂, c₂, hadd, hB⟩
    obtain ⟨s₂, c₂, hdir, ⟨hst, hkeeps, -, hfb₁, hfi₁⟩⟩ := addDir_step cur ho.stored (by omega)
      (by omega) sub hbuilt (by omega)
    have hnew := addDir_sized cur ho.stored (by omega) (by omega) sub hsub (by omega) hdir
    have hE₁ : Extends s c s₂ c₂ cur [] := .idle ho hst (by omega) hkeeps
    obtain ⟨s₃, c₃, hlink, hE, hE₂, hfb₂, hfi₂⟩ :=
      hE₁.link ho (by omega) (by omega) s.freeinode name
    have hlen : (c₃ cur).length = (c cur).length + 16 := by
      rw [hE.added, List.length_append, length_linkBytes]
    have hN : s₃.freeinode = s.freeinode + 1 + sub.count := hfi₂.trans hfi₁
    have hroom : Room rest cur s₃ c₃ := ⟨by omega, hfiles.2, by omega, by rw [hN, hlen]; omega⟩
    rw [addEntries_dir hskip (by omega), hdir] at h
    simp only [Option.bind_eq_bind, Option.bind_some, hlink] at h
    obtain ⟨s₄, c₄, hadd, hB⟩ := addEntries_step rest (hE.stays ho) hroom
    have hrest := ih (hE.stays ho) hroom h
    rw [h] at hadd
    obtain rfl := Option.some.inj hadd
    rw [hN] at hrest
    rw [← List.cons_append]
    refine (hnew.congr fun e he => ?_).append hrest
    have hmem : s.freeinode ≤ e.1 ∧ e.1 < s₂.freeinode := by
      rcases List.mem_cons.1 he with rfl | he
      · exact ⟨le_rfl, by omega⟩
      · have := sub.mem_table he
        omega
    have hcur := ho.lt
    have hne : e.1 ≠ cur := by omega
    exact ((hB.extends_.keeps e.1 (by omega) hne).2).trans (hE₂.keeps e.1 hmem.2 hne).2

/-- **The directories** of the image of a host directory that fits. -/
theorem main_sized (ht : t.Fits) (h : main t = some s) : Sized s.img t.inodes := by
  have hinodes := ht.inodes
  have hblocks := ht.blocks
  rw [HostDir.inodes, tableCost_cons, Content.size] at hblocks
  have hlinks := t.length_links_le 2
  have hmono := cost_mono (show 32 ≤ 32 + 16 * (t.links 2).length by omega)
  have hfree : fresh.freeblock = 29 := rfl
  have hsub : ∀ s₁ c₁, Open s₁ c₁ 1 → s₁.freeinode = 2 → s₁.freeblock = 29 + cost 32 →
      c₁ 1 = dotBytes 1 1 → ∃ s₂ c₂, addEntries t 1 s₁ = some s₂ ∧ Built t 1 s₁ c₁ s₂ c₂ ∧
        Sized s₂.img (t.table 1 2) := by
    intro s₁ c₁ ho₁ hfi₁ hfb₁ hc₁
    have hmaxfile : bsize * maxfile = 71680 := by decide
    have hroom : Room t 1 s₁ c₁ := by
      refine ⟨by omega, ht.files, ?_, ?_⟩
      · rw [hc₁, length_dotBytes]
        omega
      · rw [hfi₁, hfb₁, hc₁, length_dotBytes]
        unfold grow
        omega
    obtain ⟨s₂, c₂, hadd, hB⟩ := addEntries_step t ho₁ hroom
    have hsized := addEntries_sized t ho₁ hroom hadd
    rw [hfi₁] at hsized
    exact ⟨s₂, c₂, hadd, hB, hsized⟩
  have hbuilt : ∀ s₁ c₁, Open s₁ c₁ 1 → s₁.freeinode = 2 → s₁.freeblock = 29 + cost 32 →
      c₁ 1 = dotBytes 1 1 → ∃ s₂ c₂, addEntries t 1 s₁ = some s₂ ∧ Built t 1 s₁ c₁ s₂ c₂ := by
    intro s₁ c₁ ho₁ hfi₁ hfb₁ hc₁
    obtain ⟨s₂, c₂, hadd, hB, -⟩ := hsub s₁ c₁ ho₁ hfi₁ hfb₁ hc₁
    exact ⟨s₂, c₂, hadd, hB⟩
  obtain ⟨s₁, c, hdir, hM⟩ := addDir_step 1 stored_fresh (by decide) (by rw [hfree]; omega) t hbuilt
    (by omega)
  have hsized : Sized s₁.img t.inodes := addDir_sized 1 stored_fresh (by decide)
    (by rw [hfree]; omega) t hsub (by omega) hdir
  have hfi : s₁.freeinode = 2 + t.count := hM.freeinode
  have hfb : s₁.freeblock = 29 + (cost (32 + 16 * (t.links 2).length) + tableCost (t.table 1 2)) :=
    hM.freeblock
  obtain ⟨s₂, hballoc, -, hsame, -⟩ := balloc_spec s₁
    (show s₁.usedblocks ≤ 1024 by rw [hM.stored.used]; omega)
  have hs : s₂ = s := by
    rw [main, mkfs_eq, Option.bind_eq_bind, Option.bind_some, ialloc_eq (by decide),
      Option.bind_eq_bind, Option.bind_some] at h
    have h : (addDir t 1 1 (newInode tDir fresh) >>= fun s => balloc s.usedblocks s) = some s := h
    rw [show addDir t 1 1 (newInode tDir fresh) = some s₁ from hdir, Option.bind_eq_bind,
      Option.bind_some, hballoc] at h
    exact Option.some.inj h
  subst hs
  refine hsized.congr fun e he => dinode_congr fun o _ ho => hsame o (.inl ?_)
  have hmem := HostDir.mem_inodes he
  unfold bsize at *
  omega

end OsProjects.Mkfs
