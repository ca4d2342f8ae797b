import OsProjects.Mkfs.Files
import OsProjects.Mkfs.Table

/-!
# Copying a directory

Each step of `addDir` adds bytes to one inode and leaves the others unchanged (`Extends`).  Where
there is room, the entries of a host directory are added with the inodes of `HostDir.table`
(`addEntries_step`), and no `assert` fails.
-/

namespace OsProjects.Mkfs

open Fsck

variable {s s' s'' : Fs} {c c' c'' : ℕ → List UInt8} {cur i j N : ℕ} {l l' : List UInt8}
  {name : Name} {t sub rest : HostDir} {reads : List (List UInt8)}

/-! ### Steps -/

/-- An inode that bytes can be added to: its size is that of its contents. -/
structure Open (s : Fs) (c : ℕ → List UInt8) (i : ℕ) : Prop where
  stored : Stored s c
  lt : i < s.freeinode
  ne_zero : i ≠ 0
  size : (s.img.dinode i).size = (c i).length

/-- The inode is there and holds its content; the size of a file is the number of its bytes. -/
structure Has (s : Fs) (c : ℕ → List UInt8) (e : ℕ × Content) : Prop where
  lt : e.1 < s.freeinode
  bytes : c e.1 = e.2.bytes e.1
  type : (s.img.dinode e.1).type = e.2.type
  size : e.2.type = tFile → (s.img.dinode e.1).size = (c e.1).length

/-- From `s` to `s'` the bytes `l` have been added to inode `i`, and the other inodes that were
there are unchanged. -/
structure Extends (s : Fs) (c : ℕ → List UInt8) (s' : Fs) (c' : ℕ → List UInt8) (i : ℕ)
    (l : List UInt8) : Prop where
  stored : Stored s' c'
  mono : s.freeinode ≤ s'.freeinode
  added : c' i = c i ++ l
  type : (s'.img.dinode i).type = (s.img.dinode i).type
  size : (s'.img.dinode i).size = (c' i).length
  keeps : ∀ j < s.freeinode, j ≠ i → c' j = c j ∧ Same (s'.img.dinode j) (s.img.dinode j)

namespace Extends

theorem refl (h : Open s c i) : Extends s c s c i [] :=
  ⟨h.stored, le_rfl, (List.append_nil _).symm, rfl, h.size, fun _ _ _ => ⟨rfl, .refl _⟩⟩

/-- The inode can be added to again. -/
theorem stays (h : Extends s c s' c' i l) (hi : Open s c i) : Open s' c' i :=
  ⟨h.stored, hi.lt.trans_le h.mono, hi.ne_zero, h.size⟩

theorem trans (h : Extends s c s' c' i l) (h' : Extends s' c' s'' c'' i l') :
    Extends s c s'' c'' i (l ++ l') := by
  refine ⟨h'.stored, h.mono.trans h'.mono, by rw [h'.added, h.added, List.append_assoc],
    h'.type.trans h.type, h'.size, fun j hj hne => ?_⟩
  obtain ⟨hc, hsame⟩ := h.keeps j hj hne
  obtain ⟨hc', hsame'⟩ := h'.keeps j (hj.trans_le h.mono) hne
  exact ⟨hc'.trans hc, hsame'.trans hsame⟩

theorem has {e : ℕ × Content} (h : Extends s c s' c' i l) (he : Has s c e) (hne : e.1 ≠ i) :
    Has s' c' e := by
  obtain ⟨hc, hsame⟩ := h.keeps e.1 he.lt hne
  exact ⟨he.lt.trans_le h.mono, hc.trans he.bytes, hsame.type.trans he.type,
    fun hf => by rw [hsame.size, hc, he.size hf]⟩

/-- The inodes that were there are unchanged. -/
theorem idle (ho : Open s c i) (hst : Stored s' c') (hmono : s.freeinode ≤ s'.freeinode)
    (hkeeps : ∀ j < s.freeinode, c' j = c j ∧ Same (s'.img.dinode j) (s.img.dinode j)) :
    Extends s c s' c' i [] := by
  obtain ⟨hc, hsame⟩ := hkeeps i ho.lt
  exact ⟨hst, hmono, by rw [hc, List.append_nil], hsame.type, by rw [hsame.size, hc, ho.size],
    fun j hj _ => hkeeps j hj⟩

/-- What is added to a new inode leaves those that were there unchanged. -/
theorem keeps_of_new {ty : ℕ} (hs : Stored s c) (hN : s.freeinode < 200) (hty : ty < 2 ^ 16)
    (h : Extends (newInode ty s) c s' c' s.freeinode l) (hj : j < s.freeinode) :
    c' j = c j ∧ Same (s'.img.dinode j) (s.img.dinode j) := by
  obtain ⟨-, -, hfi, -, hother⟩ := hs.newInode hN hty
  have hne : j ≠ s.freeinode := Nat.ne_of_lt hj
  obtain ⟨hc, hsame⟩ := h.keeps j (by omega) hne
  exact ⟨hc, hsame.trans (hother j (hj.trans hN) hne)⟩

end Extends

/-! ### Files -/

/-- The blocks that `n` more bytes take in a file of `m` bytes. -/
def grow (m n : ℕ) : ℕ := cost (m + n) - cost m

theorem grow_zero {m : ℕ} : grow m 0 = 0 := Nat.sub_self _

theorem zero_grow {n : ℕ} : grow 0 n = cost n := by
  have h0 : cost 0 = 0 := by decide
  rw [grow, Nat.zero_add, h0, Nat.sub_zero]

theorem grow_add {m n k : ℕ} : grow m (n + k) = grow m n + grow (m + n) k := by
  have h₁ : cost m ≤ cost (m + n) := cost_mono (Nat.le_add_right _ _)
  have h₂ : cost (m + n) ≤ cost (m + n + k) := cost_mono (Nat.le_add_right _ _)
  unfold grow
  rw [← Nat.add_assoc]
  omega

theorem grow_entries {m k : ℕ} :
    grow m (16 * (k + 1)) = grow m 16 + grow (m + 16) (16 * k) := by
  rw [Nat.mul_succ, Nat.add_comm, grow_add]

theorem append_step (ho : Open s c i)
    (hmax : (c i).length + l.length ≤ bsize * maxfile)
    (hfit : s.freeblock + grow (c i).length l.length ≤ 1024) :
    ∃ s' c', iappend i l s = some s' ∧ Extends s c s' c' i l ∧
      s'.freeblock = s.freeblock + grow (c i).length l.length ∧ s'.freeinode = s.freeinode := by
  obtain ⟨s', heq, hst, hfb, hfi, hty, hsz, hother⟩ :=
    ho.stored.iappend ho.lt ho.ne_zero ho.size hmax hfit
  have hself : Function.update c i (c i ++ l) i = c i ++ l := Function.update_self _ _ _
  refine ⟨s', _, heq, ⟨hst, hfi.ge, hself, hty, ?_, fun j hj hne => ?_⟩, hfb, hfi⟩
  · rw [hsz, hself, List.length_append]
  · exact ⟨Function.update_of_ne hne _ _, hother j (hj.trans_le ho.stored.inodes.2) hne⟩

/-- The loop that reads a file. -/
theorem reads_step (ho : Open s c i)
    (hmax : (c i).length + reads.flatten.length ≤ bsize * maxfile)
    (hfit : s.freeblock + grow (c i).length reads.flatten.length ≤ 1024) :
    ∃ s' c', reads.foldlM (fun s buf => iappend i buf s) s = some s' ∧
      Extends s c s' c' i reads.flatten ∧
      s'.freeblock = s.freeblock + grow (c i).length reads.flatten.length ∧
      s'.freeinode = s.freeinode := by
  induction reads generalizing s c with
  | nil =>
    refine ⟨s, c, rfl, .refl ho, ?_, rfl⟩
    rw [List.flatten_nil, List.length_nil, grow_zero, Nat.add_zero]
  | cons buf reads ih =>
    rw [List.flatten_cons, List.length_append] at hmax hfit
    rw [grow_add] at hfit
    obtain ⟨s₁, c₁, happend, hE, hfb, hfi⟩ := append_step (l := buf) ho (by omega) (by omega)
    have hlen : (c₁ i).length = (c i).length + buf.length := by rw [hE.added, List.length_append]
    obtain ⟨s₂, c₂, hloop, hE', hfb', hfi'⟩ := ih (hE.stays ho) (by omega)
      (by rw [hfb, hlen]; omega)
    refine ⟨s₂, c₂, ?_, ?_, ?_, hfi'.trans hfi⟩
    · rw [List.foldlM_cons, happend]
      exact hloop
    · rw [List.flatten_cons]
      exact hE.trans hE'
    · rw [hfb', hfb, hlen, List.flatten_cons, List.length_append, grow_add, Nat.add_assoc]

theorem addDots_step (parent : ℕ) (ho : Open s c i) (hnil : c i = [])
    (hfit : s.freeblock + cost 32 ≤ 1024) :
    ∃ s' c', addDots i parent s = some s' ∧ Extends s c s' c' i (dotBytes i parent) ∧
      s'.freeblock = s.freeblock + cost 32 ∧ s'.freeinode = s.freeinode := by
  have hgrow : cost 32 = grow 0 16 + grow 16 16 := by decide
  have hmaxfile : bsize * maxfile = 71680 := by decide
  have hdot : (direntBytes i [46]).length = 16 := length_direntBytes _ _
  have hdotdot : (direntBytes parent [46, 46]).length = 16 := length_direntBytes _ _
  have hlen : (c i).length = 0 := by rw [hnil]; rfl
  obtain ⟨s₁, c₁, happend, hE, hfb, hfi⟩ := append_step (l := direntBytes i [46]) ho
    (by omega) (by rw [hlen, hdot]; omega)
  have hlen₁ : (c₁ i).length = 16 := by rw [hE.added, List.length_append, hlen, hdot]
  obtain ⟨s₂, c₂, happend', hE', hfb', hfi'⟩ := append_step (l := direntBytes parent [46, 46])
    (hE.stays ho) (by omega) (by rw [hfb, hlen, hlen₁, hdot, hdotdot]; omega)
  refine ⟨s₂, c₂, ?_, hE.trans hE', ?_, hfi'.trans hfi⟩
  · rw [addDots, happend]
    exact happend'
  · rw [hfb', hfb, hlen, hlen₁, hdot, hdotdot, hgrow, Nat.add_assoc]

/-! ### Directories -/

/-- What adding the entries of `t` to directory `cur` comes to. -/
structure Built (t : HostDir) (cur : ℕ) (s : Fs) (c : ℕ → List UInt8) (s' : Fs)
    (c' : ℕ → List UInt8) : Prop where
  extends_ : Extends s c s' c' cur ((t.links s.freeinode).flatMap linkBytes)
  has : ∀ e ∈ t.table cur s.freeinode, Has s' c' e
  freeinode : s'.freeinode = s.freeinode + t.count
  freeblock : s'.freeblock = s.freeblock +
    (grow (c cur).length (16 * (t.links s.freeinode).length) + tableCost (t.table cur s.freeinode))

/-- There are inodes, space in the directory and blocks enough for the entries of `t`. -/
structure Room (t : HostDir) (cur : ℕ) (s : Fs) (c : ℕ → List UInt8) : Prop where
  inodes : s.freeinode + t.count ≤ 200
  files : t.FilesFit
  space : (c cur).length + 16 * t.count ≤ bsize * maxfile
  blocks : s.freeblock + (grow (c cur).length (16 * (t.links s.freeinode).length) +
    tableCost (t.table cur s.freeinode)) ≤ 1024

/-! ### The entries of a directory -/

/-- The entry for a new inode is added to directory `cur`. -/
theorem Extends.link (h : Extends s c s' c' cur []) (ho : Open s c cur)
    (hspace : (c cur).length + 16 ≤ bsize * maxfile)
    (hfit : s'.freeblock + grow (c cur).length 16 ≤ 1024) (N : ℕ) (name : Name) :
    ∃ s'' c'', iappend cur (direntBytes N name.bytes) s' = some s'' ∧
      Extends s c s'' c'' cur (linkBytes (N, name)) ∧
      Extends s' c' s'' c'' cur (linkBytes (N, name)) ∧
      s''.freeblock = s'.freeblock + grow (c cur).length 16 ∧ s''.freeinode = s'.freeinode := by
  have hc : c' cur = c cur := by rw [h.added, List.append_nil]
  have hlen : (direntBytes N name.bytes).length = 16 := length_direntBytes _ _
  obtain ⟨s'', c'', happend, hE, hfb, hfi⟩ :=
    append_step (l := direntBytes N name.bytes) (h.stays ho)
    (by rw [hc, hlen]; exact hspace) (by rw [hc, hlen]; exact hfit)
  rw [hc, hlen] at hfb
  exact ⟨s'', c'', happend, h.trans hE, hE, hfb, hfi⟩

/-- A new inode. -/
theorem open_new {ty : ℕ} (hs : Stored s c) (hN : s.freeinode < 200) (hty : ty < 2 ^ 16) :
    Open (newInode ty s) c s.freeinode := by
  obtain ⟨hst, -, hfi, hsame, -⟩ := hs.newInode hN hty
  have h1 := hs.inodes.1
  exact ⟨hst, by omega, by omega, by rw [hsame.size, hs.empty _ le_rfl]; rfl⟩

/-- A file of the host. -/
theorem file_step (ho : Open s c cur) (hN : s.freeinode < 200)
    (hmax : reads.flatten.length ≤ bsize * maxfile)
    (hfit : s.freeblock + cost reads.flatten.length ≤ 1024) :
    ∃ s' c', reads.foldlM (fun s' buf => iappend s.freeinode buf s') (newInode tFile s) = some s' ∧
      Extends s c s' c' cur [] ∧ Has s' c' (s.freeinode, .file reads.flatten) ∧
      s'.freeblock = s.freeblock + cost reads.flatten.length ∧
      s'.freeinode = s.freeinode + 1 := by
  have hty : tFile < 2 ^ 16 := by decide
  have hnew := open_new ho.stored hN hty
  have hnil : c s.freeinode = [] := ho.stored.empty _ le_rfl
  obtain ⟨-, hfb, hfi, hsame, -⟩ := ho.stored.newInode hN hty
  have hlen : (c s.freeinode).length = 0 := by rw [hnil]; rfl
  obtain ⟨s', c', hloop, hE, hfb', hfi'⟩ := reads_step hnew (by rw [hlen, Nat.zero_add]; exact hmax)
    (by rw [hlen, zero_grow, hfb]; exact hfit)
  rw [hlen, zero_grow, hfb] at hfb'
  refine ⟨s', c', hloop, .idle ho hE.stored (by omega) fun j hj =>
    Extends.keeps_of_new ho.stored hN hty hE hj, ⟨by rw [hfi', hfi]; exact Nat.lt_succ_self _, ?_,
      hE.type.trans hsame.type, fun _ => hE.size⟩, hfb', hfi'.trans hfi⟩
  rw [hE.added, hnil]
  rfl

/-- What making a directory of `t`, with inode `s.freeinode`, comes to: the inodes that were there
are unchanged. -/
structure Made (t : HostDir) (parent : ℕ) (s : Fs) (c : ℕ → List UInt8) (s' : Fs)
    (c' : ℕ → List UInt8) : Prop where
  stored : Stored s' c'
  keeps : ∀ j < s.freeinode, c' j = c j ∧ Same (s'.img.dinode j) (s.img.dinode j)
  has : ∀ e ∈ (s.freeinode, Content.dir parent (t.links (s.freeinode + 1))) ::
    t.table s.freeinode (s.freeinode + 1), Has s' c' e
  freeblock : s'.freeblock = s.freeblock + (cost (32 + 16 * (t.links (s.freeinode + 1)).length) +
    tableCost (t.table s.freeinode (s.freeinode + 1)))
  freeinode : s'.freeinode = s.freeinode + 1 + t.count

/-- A new directory, if the entries of `t` can be added to it. -/
theorem addDir_step (parent : ℕ) (hs : Stored s c) (hN : s.freeinode < 200)
    (hfit : s.freeblock + cost 32 ≤ 1024) (t : HostDir)
    (hsub : ∀ s₁ c₁, Open s₁ c₁ s.freeinode → s₁.freeinode = s.freeinode + 1 →
      s₁.freeblock = s.freeblock + cost 32 → c₁ s.freeinode = dotBytes s.freeinode parent →
      ∃ s₂ c₂, addEntries t s.freeinode s₁ = some s₂ ∧ Built t s.freeinode s₁ c₁ s₂ c₂)
    (hsize : 32 + 16 * t.count < 2 ^ 31) :
    ∃ s' c', addDir t s.freeinode parent (newInode tDir s) = some s' ∧ Made t parent s c s' c' := by
  have hty : tDir < 2 ^ 16 := by decide
  have hnew := open_new hs hN hty
  have hnil : c s.freeinode = [] := hs.empty _ le_rfl
  obtain ⟨-, hfb, hfi, hsame, -⟩ := hs.newInode hN hty
  obtain ⟨s₁, c₁, hdots, hE₁, hfb₁, hfi₁⟩ := addDots_step parent hnew hnil
    (by rw [hfb]; exact hfit)
  have hc₁ : c₁ s.freeinode = dotBytes s.freeinode parent := by
    rw [hE₁.added, hnil]
    rfl
  have hN₁ : s₁.freeinode = s.freeinode + 1 := hfi₁.trans hfi
  obtain ⟨s₂, c₂, hentries, ⟨hB, hhas, hfi₂, hfb₂⟩⟩ := hsub s₁ c₁ (hE₁.stays hnew) hN₁
    (by rw [hfb₁, hfb]) hc₁
  rw [hN₁] at hB hhas hfi₂ hfb₂
  have hlinks := t.length_links_le (s.freeinode + 1)
  have hE₂ := hE₁.trans hB
  have hc₂ : c₂ s.freeinode = dotBytes s.freeinode parent ++
      (t.links (s.freeinode + 1)).flatMap linkBytes := by
    rw [hE₂.added, hnil, List.nil_append]
  have hopen₂ := hE₂.stays hnew
  obtain ⟨s₃, hfix, hst, hfb₃, hfi₃, hty₃, hother⟩ :=
    hopen₂.stored.fixSize hopen₂.lt hopen₂.ne_zero (by
    rw [hE₂.size, hc₂, List.length_append, length_dotBytes, length_flatMap_const length_linkBytes]
    omega)
  have hle := hopen₂.stored.inodes.2
  refine ⟨s₃, c₂, ?_, hst, fun j hj => ?_,
    List.forall_mem_cons.2 ⟨?_, fun e he => ?_⟩, ?_, ?_⟩
  · simp only [addDir, hdots, hentries, Option.bind_eq_bind, Option.bind_some, hfix]
  · obtain ⟨hc, hsame'⟩ := Extends.keeps_of_new hs hN hty hE₂ hj
    exact ⟨hc, (hother j (by omega) (Nat.ne_of_lt hj)).trans hsame'⟩
  · refine ⟨by rw [hfi₃]; exact hopen₂.lt, hc₂, hty₃.trans (hE₂.type.trans hsame.type),
      fun hf => ?_⟩
    cases hf
  · have hmem := t.mem_table he
    have hold := hhas e he
    have hsame' := hother e.1 (by omega) (by omega)
    exact ⟨by rw [hfi₃]; exact hold.lt, hold.bytes, hsame'.type.trans hold.type,
      fun hf => by rw [hsame'.size, hold.size hf]⟩
  · rw [hfb₃, hfb₂, hfb₁, hfb, hc₁, length_dotBytes, Nat.add_assoc, ← Nat.add_assoc (cost 32)]
    congr 2
    have hmono := cost_mono (show 32 ≤ 32 + 16 * (t.links (s.freeinode + 1)).length by omega)
    unfold grow
    omega
  · rw [hfi₃, hfi₂]

theorem addEntries_file (hskip : ¬name.skipped) (hN : s.freeinode < 200) :
    addEntries (.file name reads rest) cur s = (do
      let s₁ ← reads.foldlM (fun s' buf => iappend s.freeinode buf s') (newInode tFile s)
      let s₂ ← iappend cur (direntBytes s.freeinode name.bytes) s₁
      addEntries rest cur s₂) := by
  rw [addEntries, if_neg hskip, ialloc_eq hN]
  rfl

/-- A subdirectory is added by `add_dir`. -/
theorem addEntries_dir (hskip : ¬name.skipped) (hN : s.freeinode < 200) :
    addEntries (.dir name sub rest) cur s = (do
      let s₁ ← addDir sub s.freeinode cur (newInode tDir s)
      let s₂ ← iappend cur (direntBytes s.freeinode name.bytes) s₁
      addEntries rest cur s₂) := by
  rw [addEntries, if_neg hskip, ialloc_eq hN]
  simp only [addDir, bind_assoc]
  rfl

/-- **The entries of a directory**, if there is room for them. -/
theorem addEntries_step (t : HostDir) (ho : Open s c cur) (hR : Room t cur s c) :
    ∃ s' c', addEntries t cur s = some s' ∧ Built t cur s c s' c' := by
  induction t generalizing cur s c with
  | nil =>
    refine ⟨s, c, rfl, .refl ho, by simp [HostDir.table], rfl, ?_⟩
    rw [HostDir.links, HostDir.table, List.length_nil, Nat.mul_zero, grow_zero]
    rfl
  | file name reads rest ih =>
    obtain ⟨hinodes, hfiles, hspace, hblocks⟩ := hR
    by_cases hskip : name.skipped
    · simp only [HostDir.count, HostDir.links, HostDir.table, if_pos hskip]
        at hinodes hspace hblocks
      obtain ⟨s', c', hadd, hB, hhas, hfi, hfb⟩ := ih ho ⟨hinodes, hfiles.2, hspace, hblocks⟩
      refine ⟨s', c', by rw [addEntries, if_pos hskip, hadd], ?_⟩
      refine ⟨?_, ?_, ?_, ?_⟩ <;> simpa only
        [HostDir.count, HostDir.links, HostDir.table, if_pos hskip]
    simp only [HostDir.count, HostDir.links, HostDir.table, if_neg hskip, List.length_cons,
      tableCost_cons, Content.size, grow_entries] at hinodes hspace hblocks
    obtain ⟨s₁, c₁, hreads, hE₁, hhas₁, hfb₁, hfi₁⟩ := file_step ho (by omega) (hfiles.1 hskip)
      (by omega)
    obtain ⟨s₂, c₂, hlink, hE, hE₂, hfb₂, hfi₂⟩ := hE₁.link ho (by omega) (by omega)
      s.freeinode name
    have hlen : (c₂ cur).length = (c cur).length + 16 := by
      rw [hE.added, List.length_append, length_linkBytes]
    have hN : s₂.freeinode = s.freeinode + 1 := hfi₂.trans hfi₁
    obtain ⟨s₃, c₃, hadd, hB, hhas, hfi, hfb⟩ := ih (hE.stays ho)
      ⟨by omega, hfiles.2, by omega, by rw [hN, hlen]; omega⟩
    rw [hN] at hB hhas hfi
    rw [hN, hlen] at hfb
    have hne : s.freeinode ≠ cur := Nat.ne_of_gt ho.lt
    refine ⟨s₃, c₃, ?_, ?_, ?_, ?_, ?_⟩
    · rw [addEntries_file hskip (by omega), hreads]
      simp only [Option.bind_eq_bind, Option.bind_some, hlink, hadd]
    · rw [HostDir.links, if_neg hskip]
      exact hE.trans hB
    · rw [HostDir.table, if_neg hskip]
      exact List.forall_mem_cons.2 ⟨hB.has (hE₂.has hhas₁ hne) hne, hhas⟩
    · rw [HostDir.count, if_neg hskip]
      omega
    · simp only [HostDir.links, HostDir.table, if_neg hskip, List.length_cons, tableCost_cons,
        Content.size, grow_entries]
      omega
  | dir name sub rest ihs ih =>
    obtain ⟨hinodes, hfiles, hspace, hblocks⟩ := hR
    by_cases hskip : name.skipped
    · simp only [HostDir.count, HostDir.links, HostDir.table, if_pos hskip]
        at hinodes hspace hblocks
      obtain ⟨s', c', hadd, hB, hhas, hfi, hfb⟩ := ih ho ⟨hinodes, hfiles.2, hspace, hblocks⟩
      refine ⟨s', c', by rw [addEntries, if_pos hskip, hadd], ?_⟩
      refine ⟨?_, ?_, ?_, ?_⟩ <;> simpa only
        [HostDir.count, HostDir.links, HostDir.table, if_pos hskip]
    simp only [HostDir.count, HostDir.links, HostDir.table, if_neg hskip, List.length_cons,
      tableCost_cons, tableCost_append, Content.size, grow_entries] at hinodes hspace hblocks
    have hlinks := sub.length_links_le (s.freeinode + 1)
    have hmono := cost_mono (show 32 ≤ 32 + 16 * (sub.links (s.freeinode + 1)).length by omega)
    have hsub : ∀ s₁ c₁, Open s₁ c₁ s.freeinode → s₁.freeinode = s.freeinode + 1 →
        s₁.freeblock = s.freeblock + cost 32 → c₁ s.freeinode = dotBytes s.freeinode cur →
        ∃ s₂ c₂, addEntries sub s.freeinode s₁ = some s₂ ∧ Built sub s.freeinode s₁ c₁ s₂ c₂ := by
      intro s₁ c₁ ho₁ hfi₁ hfb₁ hc₁
      have hmaxfile : bsize * maxfile = 71680 := by decide
      refine ihs ho₁ ⟨by omega, hfiles.1 hskip, ?_, ?_⟩
      · rw [hc₁, length_dotBytes]
        omega
      · rw [hfi₁, hfb₁, hc₁, length_dotBytes]
        unfold grow
        omega
    obtain ⟨s₂, c₂, hdir, ⟨hst, hkeeps, hhas₁, hfb₁, hfi₁⟩⟩ := addDir_step cur ho.stored (by omega)
      (by omega) sub hsub (by omega)
    have hE₁ : Extends s c s₂ c₂ cur [] := .idle ho hst (by omega) hkeeps
    obtain ⟨s₃, c₃, hlink, hE, hE₂, hfb₂, hfi₂⟩ := hE₁.link ho (by omega) (by omega)
      s.freeinode name
    have hlen : (c₃ cur).length = (c cur).length + 16 := by
      rw [hE.added, List.length_append, length_linkBytes]
    have hN : s₃.freeinode = s.freeinode + 1 + sub.count := hfi₂.trans hfi₁
    obtain ⟨s₄, c₄, hadd, hB, hhas, hfi, hfb⟩ := ih (hE.stays ho)
      ⟨by omega, hfiles.2, by omega, by rw [hN, hlen]; omega⟩
    rw [hN] at hB hhas hfi
    rw [hN, hlen] at hfb
    have hnew : ∀ e ∈ (s.freeinode, Content.dir cur (sub.links (s.freeinode + 1))) ::
        sub.table s.freeinode (s.freeinode + 1), e.1 ≠ cur := by
      intro e he
      have hlt := ho.lt
      rcases List.mem_cons.1 he with rfl | he
      · exact Nat.ne_of_gt hlt
      · have := sub.mem_table he
        omega
    refine ⟨s₄, c₄, ?_, ?_, ?_, ?_, ?_⟩
    · rw [addEntries_dir hskip (by omega), hdir]
      simp only [Option.bind_eq_bind, Option.bind_some, hlink, hadd]
    · rw [HostDir.links, if_neg hskip]
      exact hE.trans hB
    · rw [HostDir.table, if_neg hskip, ← List.cons_append]
      intro e he
      rcases List.mem_append.1 he with he | he
      · exact hB.has (hE₂.has (hhas₁ e he) (hnew e he)) (hnew e he)
      · exact hhas e he
    · rw [HostDir.count, if_neg hskip]
      omega
    · simp only [HostDir.links, HostDir.table, if_neg hskip, List.length_cons, tableCost_cons,
        tableCost_append, Content.size, grow_entries]
      omega

end OsProjects.Mkfs
