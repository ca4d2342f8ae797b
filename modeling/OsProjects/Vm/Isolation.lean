import OsProjects.Vm.Mprotect

/-!
# Page directories of different processes

The memory of the kernel with all its page directories: `setupkvm` and `copyuvm` make them,
`allocuvm`, `deallocuvm`, `mprotect` and `munprotect` change them, `freevm` frees them; the kernel
allocates frames for other purposes, and the owners of frames write into them.  In every state that
is reached from boot, each directory has its address space, and no two of them share a frame
(`isolated_reached`).
-/

namespace OsProjects.Vm

open Alloc (Fault Kmem Part partA partB pgsize pointers kfree kinit managedFrames Conserved Frames
  frameMemory)
open Space

/-- Memory, the page directories in use, and the frames in use for other purposes: kernel stacks and
pipes. -/
structure State where
  kmem : Kmem
  pgdirs : List ℕ
  others : List ℕ

/-- The operations on page directories, and what else happens to memory. -/
inductive Event
  | setupkvm
  | allocuvm (d oldsz newsz : ℕ)
  | deallocuvm (d oldsz newsz : ℕ)
  | copyuvm (d sz : ℕ)
  | freevm (d : ℕ)
  | mprotect (d addr : ℕ) (len : ℤ)
  | munprotect (d addr : ℕ) (len : ℤ)
  | kalloc
  | kfree (v : ℕ)
  | write (next : ℕ → ℕ)

/-- The directories after a call that returns a new one or `NULL`. -/
def newDir (d : ℕ) (pgdirs : List ℕ) : List ℕ := if d = 0 then pgdirs else d :: pgdirs

namespace State

/-- The frame of a user page. -/
def UserFrame (st : State) (v : ℕ) : Prop :=
  ∃ d ∈ st.pgdirs, ∃ p < 160, Present (lookup st.kmem d p) ∧ pteAddr (lookup st.kmem d p) = v

end State

section Steps

variable (P : Part) (data end_ : ℕ)

/-- One event.  The sizes that `deallocuvm` and `copyuvm` are given are sizes of processes, which
`allocuvm` keeps below `USERTOP`. -/
def Step (st : State) : Event → State → Prop
  | .setupkvm, st' => ∃ d s, setupkvm P.kalloc data st.kmem = .ok (d, s) ∧
      st' = ⟨s, newDir d st.pgdirs, st.others⟩
  | .allocuvm d oldsz newsz, st' => d ∈ st.pgdirs ∧ ∃ sz s,
      allocuvm P.kalloc end_ d oldsz newsz st.kmem = .ok (sz, s) ∧ st' = { st with kmem := s }
  | .deallocuvm d oldsz newsz, st' => d ∈ st.pgdirs ∧ oldsz ≤ usertop ∧ ∃ s,
      deallocuvm P.kalloc end_ d oldsz newsz st.kmem = .ok s ∧ st' = { st with kmem := s }
  | .copyuvm d sz, st' => d ∈ st.pgdirs ∧ sz ≤ usertop ∧ ∃ d' s,
      copyuvm P.kalloc data end_ d sz st.kmem = .ok (d', s) ∧
      st' = ⟨s, newDir d' st.pgdirs, st.others⟩
  | .freevm d, st' => d ∈ st.pgdirs ∧ ∃ s, freevm P.kalloc end_ d st.kmem = .ok s ∧
      st' = ⟨s, st.pgdirs.filter (· ≠ d), st.others⟩
  | .mprotect d addr len, st' => d ∈ st.pgdirs ∧ ∃ r s,
      mprotect P.kalloc d addr len st.kmem = .ok (r, s) ∧ st' = { st with kmem := s }
  | .munprotect d addr len, st' => d ∈ st.pgdirs ∧ ∃ r s,
      munprotect P.kalloc d addr len st.kmem = .ok (r, s) ∧ st' = { st with kmem := s }
  | .kalloc, st' => ∃ r s, P.kalloc st.kmem = .ok (r, s) ∧
      st' = ⟨s, st.pgdirs, if r = 0 then st.others else r :: st.others⟩
  | .kfree v, st' => v ∈ st.others ∧ ∃ s, kfree end_ v st.kmem = .ok s ∧
      st' = ⟨s, st.pgdirs, st.others.filter (· ≠ v)⟩
  | .write next, st' =>
      (∀ a, (∀ v, v ∈ st.others ∨ st.UserFrame v → ¬(v ≤ a ∧ a < v + pgsize)) →
        next a = st.kmem.next a) ∧
      st' = { st with kmem := { st.kmem with next := next } }

/-- After `kinit`. -/
def Boot (st : State) : Prop :=
  ∃ mem, kinit end_ P.stride (Kmem.boot mem) = .ok st.kmem ∧ st.pgdirs = [] ∧ st.others = []

/-- The states of the kernel from boot on. -/
def Reached (st : State) : Prop := Reachable (Boot P end_) (Step P data end_) st

end Steps

/-! ### The invariant -/

/-- The frames of each owner: a page directory, or the rest of the kernel. -/
def own (G : ℕ → Option Space) (others : List ℕ) : Option ℕ → Set ℕ
  | none => {v | v ∈ others}
  | some d => {v | ∃ A, G d = some A ∧ v ∈ A.frames}

/-- Each directory has its address space, and the owners share no frame. -/
structure Isolated (frames : List ℕ) (st : State) (G : ℕ → Option Space) : Prop where
  conserved : Conserved frames st.kmem
  live : ∀ d, d ∈ st.pgdirs ↔ ∃ A, G d = some A
  space : ∀ d A, G d = some A → A.dir = d ∧ A.Ready ∧ A.Holds st.kmem
  separated : Separated frameMemory st.kmem (own G st.others)

variable {P : Part} {data end_ : ℕ} {frames : List ℕ} {st st' : State} {G G' : ℕ → Option Space}
  {s : Kmem} {A A' : Space} {d v : ℕ} {i : Option ℕ} {F : Set ℕ} {pgdirs' others' : List ℕ}

theorem own_update (x : Option Space) : own (Function.update G d x) st.others =
    Function.update (own G st.others) (some d) {v | ∃ A, x = some A ∧ v ∈ A.frames} := by
  funext j
  rcases eq_or_ne j (some d) with rfl | hne
  · rw [Function.update_self, own, Function.update_self]
  · rw [Function.update_of_ne hne]
    cases j with
    | none => rfl
    | some e =>
      have he : e ≠ d := fun h => hne (congrArg some h)
      rw [own, Function.update_of_ne he]
      rfl

theorem own_others (others' : List ℕ) : own G others' =
    Function.update (own G st.others) none {v | v ∈ others'} := by
  funext j
  cases j with
  | none => rw [Function.update_self]; rfl
  | some e => rw [Function.update_of_ne (by simp)]; rfl

namespace Isolated

theorem own_eq (hA : G d = some A) : own G st.others (some d) = A.frames := by
  ext v
  show (∃ B, G d = some B ∧ v ∈ B.frames) ↔ v ∈ A.frames
  simp [hA]

/-- A step of one owner. -/
theorem step (hI : Isolated frames st G)
    (hc : Confined frameMemory st.kmem (own G st.others i) s F) (hC : Conserved frames s)
    (hown : own G' others' = Function.update (own G st.others) i F)
    (hlive : ∀ d, d ∈ pgdirs' ↔ ∃ A, G' d = some A)
    (hold : ∀ d A, G' d = some A → some d ≠ i → G d = some A)
    (hnew : ∀ d A, G' d = some A → some d = i → A.dir = d ∧ A.Ready ∧ A.Holds s) :
    Isolated frames ⟨s, pgdirs', others'⟩ G' := by
  refine ⟨hC, hlive, fun d A hA => ?_, ?_⟩
  · by_cases hd : some d = i
    · exact hnew d A hA hd
    · have hA' := hold d A hA hd
      obtain ⟨hdir, hready, hholds⟩ := hI.space d A hA'
      refine ⟨hdir, hready, hholds.others hc fun v hv => ?_⟩
      exact hI.separated.disjoint (some d) i hd v ⟨A, hA', hv⟩
  · show Separated frameMemory s (own G' others')
    rw [hown]
    exact hI.separated.step hc

/-- An operation on one page directory. -/
theorem evolve (hI : Isolated frames st G) (hA : G d = some A)
    (hev : Evolves frames st.kmem A s A') :
    Isolated frames { st with kmem := s } (Function.update G d (some A')) := by
  obtain ⟨hdir, hready, -⟩ := hI.space d A hA
  have hset : {v | ∃ B, some A' = some B ∧ v ∈ B.frames} = A'.frames := by
    ext v
    simp
  refine hI.step (i := some d) (F := A'.frames) ?_ hev.conserved ?_ (fun e => ?_)
    (fun e B hB hne => ?_) fun e B hB he => ?_
  · rw [own_eq hA]
    exact hev.confined
  · rw [own_update, hset]
  · rw [hI.live]
    rcases eq_or_ne e d with rfl | hne
    · rw [Function.update_self]
      exact iff_of_true ⟨A, hA⟩ ⟨A', rfl⟩
    · rw [Function.update_of_ne hne]
  · rwa [Function.update_of_ne fun h => hne (congrArg some h)] at hB
  · obtain rfl := Option.some.inj he
    rw [Function.update_self] at hB
    obtain rfl := Option.some.inj hB
    exact ⟨hev.dir.trans hdir, hev.ready hready, hev.holds⟩

/-- A new page directory, or none. -/
theorem create (hI : Isolated frames st G) (hC : Conserved frames s)
    (hnull : d = 0 → Confined frameMemory st.kmem ∅ s ∅)
    (hnew : d ≠ 0 → ∃ A : Space, A.dir = d ∧ A.Holds s ∧ A.Ready ∧
      Confined frameMemory st.kmem ∅ s A.frames) :
    ∃ G', Isolated frames ⟨s, newDir d st.pgdirs, st.others⟩ G' := by
  by_cases h0 : d = 0
  · have hc := (hnull h0).frame (hI.separated.live none) fun v _ => Set.notMem_empty v
    rw [Set.empty_union] at hc
    refine ⟨G, hI.step (i := none) hc hC ?_ (fun e => ?_) (fun _ _ hB _ => hB) fun _ _ _ => nofun⟩
    · exact own_others st.others
    · rw [newDir, if_pos h0]
      exact hI.live e
  · obtain ⟨A, hdir, hholds, hready, hc⟩ := hnew h0
    -- The directory was free before.
    have hfree : G d = none := by
      by_contra hne
      obtain ⟨B, hB⟩ := Option.ne_none_iff_exists'.1 hne
      obtain ⟨hBdir, -, hBholds⟩ := hI.space d B hB
      have hmem : d ∈ frameMemory.live st.kmem := hBdir ▸ hBholds.paging.dir_mem
      exact hc.fresh d (.inl (hdir ▸ List.mem_cons_self)) hmem
    have hset : {v | ∃ B, some A = some B ∧ v ∈ B.frames} = A.frames := by
      ext v
      simp
    have hempty : own G st.others (some d) = ∅ := by
      ext v
      show (∃ B, G d = some B ∧ v ∈ B.frames) ↔ v ∈ (∅ : Set ℕ)
      simp [hfree]
    refine ⟨Function.update G d (some A), hI.step (i := some d) (F := A.frames) ?_ hC ?_
      (fun e => ?_) (fun e B hB hne => ?_) fun e B hB he => ?_⟩
    · rwa [hempty]
    · rw [own_update, hset]
    · rw [newDir, if_neg h0, List.mem_cons, hI.live]
      rcases eq_or_ne e d with rfl | hne
      · rw [Function.update_self]
        exact iff_of_true (.inl rfl) ⟨A, rfl⟩
      · rw [Function.update_of_ne hne, or_iff_right hne]
    · rwa [Function.update_of_ne fun h => hne (congrArg some h)] at hB
    · obtain rfl := Option.some.inj he
      rw [Function.update_self] at hB
      obtain rfl := Option.some.inj hB
      exact ⟨hdir, hready, hholds⟩

/-- `mprotect` and `munprotect` keep every frame. -/
theorem protect (hF : Frames end_ frames) (hI : Isolated frames st G) {f : ℕ → ℕ}
    (hf : KeepsFrame f) (hd : d ∈ st.pgdirs) {kalloc : Kmem → Except Fault (ℕ × Kmem)} {addr : ℕ}
    {len r : ℤ} (hk : protect kalloc f d addr len st.kmem = .ok (r, s)) :
    ∃ G', Isolated frames { st with kmem := s } G' := by
  obtain ⟨A, hA⟩ := (hI.live d).1 hd
  obtain ⟨rfl, hready, hholds⟩ := hI.space d A hA
  obtain ⟨hbad, hgood⟩ := protect_spec kalloc hF hf hI.conserved hholds hready addr len
  by_cases hc : addr % pgsize ≠ 0 ∨ usertop < User.regionEnd addr len ∨ len ≤ 0
  · obtain ⟨-, rfl⟩ := Prod.mk.inj (Except.ok.inj (hk.symm.trans (hbad hc)))
    exact ⟨G, hI⟩
  · obtain ⟨t, ht, hev, -⟩ := hgood hc
    obtain ⟨-, rfl⟩ := Prod.mk.inj (Except.ok.inj (hk.symm.trans ht))
    exact ⟨_, hI.evolve hA hev⟩

/-- A page directory is freed. -/
theorem free (hI : Isolated frames st G) (hA : G d = some A) (hC : Conserved frames s)
    (hc : Confined frameMemory st.kmem A.frames s ∅) :
    Isolated frames ⟨s, st.pgdirs.filter (· ≠ d), st.others⟩ (Function.update G d none) := by
  have hset : {v | ∃ B : Space, none = some B ∧ v ∈ B.frames} = (∅ : Set ℕ) := by
    ext v
    simp
  refine hI.step (i := some d) (F := ∅) ?_ hC ?_ (fun e => ?_) (fun e B hB hne => ?_)
    fun e B hB he => ?_
  · rwa [own_eq hA]
  · rw [own_update, hset]
  · rw [List.mem_filter, hI.live]
    rcases eq_or_ne e d with rfl | hne
    · simp
    · rw [Function.update_of_ne hne]
      simp [hne]
  · rwa [Function.update_of_ne fun h => hne (congrArg some h)] at hB
  · obtain rfl := Option.some.inj he
    rw [Function.update_self] at hB
    cases hB

/-- The rest of the kernel takes or gives back frames. -/
theorem other (hI : Isolated frames st G) (hC : Conserved frames s)
    (hc : Confined frameMemory st.kmem {v | v ∈ st.others} s {v | v ∈ others'}) :
    Isolated frames ⟨s, st.pgdirs, others'⟩ G :=
  hI.step (i := none) hc hC (own_others others') hI.live (fun _ _ hB _ => hB) fun _ _ _ => nofun

/-- The owners of user frames and other frames write into them. -/
theorem write (hF : Frames end_ frames) (hI : Isolated frames st G) {next : ℕ → ℕ}
    (hw : ∀ a, (∀ v, v ∈ st.others ∨ st.UserFrame v → ¬(v ≤ a ∧ a < v + pgsize)) →
      next a = st.kmem.next a) :
    Isolated frames { st with kmem := { st.kmem with next := next } } G := by
  -- A user frame belongs to an address space, and is not one of its tables.
  have huser : ∀ v, st.UserFrame v → ∃ d A, G d = some A ∧ v ∈ A.frames ∧
      v ∉ A.dir :: A.tables.map Prod.snd := by
    rintro v ⟨d, hd, p, hp, hpresent, haddr⟩
    obtain ⟨A, hA⟩ := (hI.live d).1 hd
    obtain ⟨rfl, -, hholds⟩ := hI.space d A hA
    obtain ⟨w, hu⟩ := (hholds.present_iff hp).1 hpresent
    obtain rfl : w = v := (hholds.pteAddr_eq hu).symm.trans haddr
    exact ⟨_, A, hA, .inr ⟨p, hu⟩, hholds.apart p w hu⟩
  have hmem : ∀ v, v ∈ st.others ∨ st.UserFrame v → v ∈ st.kmem.allocated := by
    rintro v (hv | hv)
    · exact hI.separated.live none hv
    · obtain ⟨d, A, hA, hvA, -⟩ := huser v hv
      exact hI.separated.live (some d) ⟨A, hA, hvA⟩
  refine ⟨Alloc.write_conserved hF hI.conserved fun a ha => hw a fun v hv hin =>
    ha ⟨v, hmem v hv, hin⟩,
    hI.live, fun d A hA => ?_, ⟨hI.separated.live, hI.separated.disjoint⟩⟩
  obtain ⟨hdir, hready, hholds⟩ := hI.space d A hA
  refine ⟨hdir, hready, hholds.congr (fun v hv => hholds.frames_subset hv) fun w hwA i hi => ?_⟩
  refine hw _ fun v hv => Alloc.word_outside hF hI.conserved (hmem v hv)
    (hholds.frames_subset (.inl hwA)) ?_ hi
  rintro rfl
  rcases hv with hv | hv
  · exact hI.separated.disjoint (some d) none (by simp) w ⟨A, hA, .inl hwA⟩ hv
  · obtain ⟨e, B, hB, hwB, hnot⟩ := huser w hv
    rcases eq_or_ne e d with rfl | hne
    · obtain rfl := Option.some.inj (hA.symm.trans hB)
      exact hnot hwA
    · exact hI.separated.disjoint (some e) (some d) (fun h => hne (Option.some.inj h)) w
        ⟨B, hB, hwB⟩ ⟨A, hA, .inl hwA⟩

/-- Every event keeps the directories apart. -/
theorem preserved (hP : P = partA ∨ P = partB) (hL : Layout data) (hF : Frames end_ frames)
    (hI : Isolated frames st G) {e : Event} (hs : Step P data end_ st e st') :
    ∃ G', Isolated frames st' G' := by
  have hC := hI.conserved
  cases e with
  | setupkvm =>
    obtain ⟨d, s, hk, rfl⟩ := hs
    obtain ⟨hCs, hnull, hnew⟩ := setupkvm_evolves hP hF hL hC hk
    refine hI.create hCs hnull fun h0 => ?_
    obtain ⟨T, hT, hready, hc⟩ := hnew h0
    exact ⟨⟨d, T, fun _ => none⟩, rfl, hT, hready, hc⟩
  | allocuvm d oldsz newsz =>
    obtain ⟨hd, sz, s, hk, rfl⟩ := hs
    obtain ⟨A, hA⟩ := (hI.live d).1 hd
    obtain ⟨rfl, hready, hholds⟩ := hI.space d A hA
    obtain ⟨A', hev, -⟩ := allocuvm_evolves hP hF hC hholds hready hk
    exact ⟨_, hI.evolve hA hev⟩
  | deallocuvm d oldsz newsz =>
    obtain ⟨hd, hsz, s, hk, rfl⟩ := hs
    obtain ⟨A, hA⟩ := (hI.live d).1 hd
    obtain ⟨rfl, hready, hholds⟩ := hI.space d A hA
    obtain ⟨A', hev, -⟩ := deallocuvm_evolves hF hsz hC hholds hready hk
    exact ⟨_, hI.evolve hA hev⟩
  | copyuvm d sz =>
    obtain ⟨-, hsz, d', s, hk, rfl⟩ := hs
    obtain ⟨hCs, hnull, hnew⟩ := copyuvm_evolves hP hF hL hsz hC hk
    exact hI.create hCs hnull hnew
  | freevm d =>
    obtain ⟨hd, s, hk, rfl⟩ := hs
    obtain ⟨A, hA⟩ := (hI.live d).1 hd
    obtain ⟨rfl, hready, hholds⟩ := hI.space d A hA
    obtain ⟨hCs, hc⟩ := freevm_confined hF hC hholds hready hk
    exact ⟨_, hI.free hA hCs hc⟩
  | mprotect d addr len =>
    obtain ⟨hd, r, s, hk, rfl⟩ := hs
    exact hI.protect hF keepsFrame_clear hd hk
  | munprotect d addr len =>
    obtain ⟨hd, r, s, hk, rfl⟩ := hs
    exact hI.protect hF keepsFrame_set hd hk
  | kalloc =>
    obtain ⟨r, s, hk, rfl⟩ := hs
    obtain ⟨hCs, -⟩ := Alloc.kalloc_ok hP hF hC hk
    have hc := (Alloc.kalloc_confined hP hF hC hk).frame (hI.separated.live none)
      fun v _ => Set.notMem_empty v
    rw [Set.empty_union] at hc
    refine ⟨G, hI.other hCs (hc.mono fun v hv => ?_)⟩
    split at hv
    · exact .inr hv
    · rename_i h0
      rcases List.mem_cons.1 hv with rfl | hv
      · exact .inl ⟨rfl, h0⟩
      · exact .inr hv
  | kfree v =>
    obtain ⟨hv, s, hk, rfl⟩ := hs
    obtain ⟨hCs, hc⟩ := Alloc.kfree_confined hF hC (hI.separated.live none) hv hk
    refine ⟨G, hI.other hCs (hc.mono fun w hw => ?_)⟩
    obtain ⟨hw, hne⟩ := List.mem_filter.1 hw
    exact ⟨hw, fun he => absurd he (by simpa using hne)⟩
  | write next =>
    obtain ⟨hw, rfl⟩ := hs
    exact ⟨G, hI.write hF hw⟩

end Isolated

/-! ### Runs -/

/-- **Isolation** in every state from boot on. -/
theorem isolated_reached (hP : P = partA ∨ P = partB) (hL : Layout data)
    (hr : Reached P data end_ st) : Frames end_ (managedFrames end_ P.stride) ∧
      ∃ G, Isolated (managedFrames end_ P.stride) st G := by
  obtain ⟨st₀, es, ⟨mem, hk, hnil, hothers⟩, hrun⟩ := hr
  have hpos := Alloc.Part.stride_pos hP
  have hF := Alloc.frames_of_kinit hpos hk
  have hk' := Alloc.kinit_conserved hpos hk
  generalize managedFrames end_ P.stride = frames at hF hk'
  refine ⟨hF, hrun.invariant (I := fun st => ∃ G, Isolated frames st G) ?_ fun st e st' hI hs => ?_⟩
  · refine ⟨fun _ => none, hk'.1, fun d => ?_, nofun, ?_, ?_⟩
    · simp [hnil]
    · rintro (_ | d) v hv
      · simp [own, hothers] at hv
      · simp [own] at hv
    · rintro (_ | d) j - v hv
      · simp [own, hothers] at hv
      · simp [own] at hv
  · obtain ⟨G, hI⟩ := hI
    exact hI.preserved hP hL hF hs

end OsProjects.Vm
