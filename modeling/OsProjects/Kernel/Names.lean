import OsProjects.Kernel.Paths

/-!
# Directories as maps

A directory in which no name is twice is a map from names to inodes (`dirMap`).  Looking a name up,
linking it and clearing its entry are the operations of a map, whatever has been done to the
directories before (`names_run`), as long as there is room for the links.
-/

namespace OsProjects.Kernel

open Fsck Mkfs

variable {img img' : Image} {d inum : ℕ} {name : List UInt8} {f : File}

/-- What the calls do with the entries of a directory. -/
inductive NameOp
  | lookup (d : ℕ) (name : List UInt8)
  | link (d : ℕ) (name : List UInt8) (inum : ℕ)
  | clear (d : ℕ) (name : List UInt8)

/-- `dirlookup`, `dirlink`, and the part of `sys_unlink` that writes an empty entry: an inode
number, or what is returned. -/
def execName : NameOp → Image → Option ((Option ℕ ⊕ ℤ) × Image)
  | .lookup d name, img => do
      let dp ← ilock d img
      let (r, _, img) ← dirlookup dp name img
      pure (.inl (r.map Prod.snd), img)
  | .link d name inum, img => do
      let dp ← ilock d img
      let (r, _, img) ← dirlink d dp name inum img
      pure (.inr r, img)
  | .clear d name, img => do
      let dp ← ilock d img
      let (r, dp, img) ← dirlookup dp name img
      match r with
      | none => pure (.inr (-1), img)
      | some (off, _) => do
          let (_, img) ← writeEntry d dp off (List.replicate 16 0) img
          pure (.inr 0, img)

/-- A directory: entries of 16 bytes, and no name twice. -/
def IsMap (f : File) : Prop :=
  f.type = tDir ∧ 16 ∣ f.data.length ∧ (SlotTable.keys (entries f.data)).Nodup

instance (f : File) : Decidable (IsMap f) := inferInstanceAs (Decidable (_ ∧ _ ∧ _))

/-- The map of a directory. -/
def dirMap (fs : ℕ → Option File) (d : ℕ) : Option (List UInt8 → Option ℕ) :=
  (fs d).bind fun f => if IsMap f then some fun name =>
  SlotTable.lookup name (entries f.data) else none

/-- The directory of an operation. -/
def NameOp.dir : NameOp → ℕ
  | lookup d _ => d
  | link d _ _ => d
  | clear d _ => d

/-- The inode of a link fits its field. -/
def NameOp.Legal : NameOp → Prop
  | lookup _ _ => True
  | link _ _ inum => inum ≠ 0 ∧ inum < 2 ^ 16
  | clear _ _ => True

/-- The disk has room for the directory with the new entry. -/
def NameOp.Fits (fs : ℕ → Option File) : NameOp → Prop
  | lookup _ _ => True
  | link d name inum => ∀ f, fs d = some f → SlotTable.lookup (key name) (entries f.data) = none →
      used (Function.update fs d (some { f with
        data := splice f.data (16 * SlotTable.free (entries f.data)) (direntBytes inum name) })) ≤
          995
  | clear _ _ => True

/-- An operation on maps. -/
inductive NameSpec : (ℕ → Option (List UInt8 → Option ℕ)) → NameOp × (Option ℕ ⊕ ℤ) →
    (ℕ → Option (List UInt8 → Option ℕ)) → Prop
  | lookup {M : ℕ → Option (List UInt8 → Option ℕ)} {m : List UInt8 → Option ℕ} {d : ℕ}
      {name : List UInt8} (hd : M d = some m) : NameSpec M (.lookup d name, .inl (m (key name))) M
  | link {M : ℕ → Option (List UInt8 → Option ℕ)} {m : List UInt8 → Option ℕ} {d inum : ℕ}
      {name : List UInt8} (hd : M d = some m) (hnew : m (key name) = none) :
      NameSpec M (.link d name inum, .inr 0)
        (Function.update M d (some (Function.update m (key name) (some inum))))
  | linkExists {M : ℕ → Option (List UInt8 → Option ℕ)} {m : List UInt8 → Option ℕ} {d inum : ℕ}
      {name : List UInt8} (hd : M d = some m) (hold : m (key name) ≠ none) :
      NameSpec M (.link d name inum, .inr (-1)) M
  | clear {M : ℕ → Option (List UInt8 → Option ℕ)} {m : List UInt8 → Option ℕ} {d : ℕ}
      {name : List UInt8} (hd : M d = some m) (hold : m (key name) ≠ none) :
      NameSpec M (.clear d name, .inr 0)
      (Function.update M d (some (Function.update m (key name) none)))
  | clearMissing {M : ℕ → Option (List UInt8 → Option ℕ)} {m : List UInt8 → Option ℕ} {d : ℕ}
      {name : List UInt8} (hd : M d = some m) (hnone : m (key name) = none) :
      NameSpec M (.clear d name, .inr (-1)) M

/-- An operation on a directory of the image, with room for it. -/
def NameStep (img : Image) (e : NameOp × (Option ℕ ⊕ ℤ)) (img' : Image) : Prop :=
  e.1.Fits (files img) ∧ execName e.1 img = some (e.2, img')

theorem dirMap_eq_some {fs : ℕ → Option File} {m : List UInt8 → Option ℕ} :
    dirMap fs d = some m ↔ ∃ f, fs d = some f ∧ IsMap f ∧
      m = fun name => SlotTable.lookup name (entries f.data) := by
  rw [dirMap, Option.bind_eq_some_iff]
  refine exists_congr fun f => and_congr_right fun _ => ?_
  split
  · rename_i h
    rw [Option.some_inj, eq_comm]
    exact (and_iff_right h).symm
  · rename_i h
    exact iff_of_false (fun h => by cases h) fun hand => h hand.1

theorem dirMap_update {fs : ℕ → Option File} {m : List UInt8 → Option ℕ} (hdir : IsMap f)
    (hm : (fun name => SlotTable.lookup name (entries f.data)) = m) :
    dirMap (Function.update fs d (some f)) = Function.update (dirMap fs) d (some m) := by
  funext k
  rcases eq_or_ne k d with rfl | hne
  · rw [Function.update_self]
    exact dirMap_eq_some.2 ⟨f, Function.update_self _ _ _, hdir, hm.symm⟩
  · rw [Function.update_of_ne hne, dirMap, dirMap, Function.update_of_ne hne]

theorem dirMap_files {m : List UInt8 → Option ℕ} (h : dirMap (files img) d = some m) :
    d ∈ inodes img ∧ (img.dinode d).type = tDir ∧ 16 ∣ (img.dinode d).size ∧
      (SlotTable.keys (entries (contents img (img.dinode d)))).Nodup ∧
      m = fun s => SlotTable.lookup s (entries (contents img (img.dinode d))) := by
  obtain ⟨f, hf, ⟨hty, h16, hU⟩, rfl⟩ := dirMap_eq_some.1 h
  have hi : d ∈ inodes img := mem_inodes.2 ⟨f, hf⟩
  rw [files_eq hi] at hf
  obtain rfl := Option.some.inj hf
  exact ⟨hi, hty, by rwa [← length_contents], hU, rfl⟩

theorem lookup_names {m : List UInt8 → Option ℕ} {r : Option ℕ ⊕ ℤ} (hW : Wf img)
    (hm : dirMap (files img) d = some m) (h : execName (.lookup d name) img = some (r, img')) :
    img' = img ∧ r = .inl (m (key name)) := by
  obtain ⟨hi, hty, h16, -, rfl⟩ := dirMap_files hm
  rw [execName, ilock_eq hi, Option.bind_eq_bind, Option.bind_some] at h
  cases hlook : SlotTable.lookup (key name) (entries (contents img (img.dinode d))) with
  | none =>
    rw [dirlookup_none hW hi same_inodeAt h16 hty hlook] at h
    obtain ⟨rfl, rfl⟩ := Prod.mk.inj (Option.some.inj h)
    exact ⟨rfl, congrArg Sum.inl hlook.symm⟩
  | some j =>
    obtain ⟨k, -, hfound⟩ := dirlookup_some hW hi same_inodeAt h16 hty hlook
    rw [hfound] at h
    obtain ⟨rfl, rfl⟩ := Prod.mk.inj (Option.some.inj h)
    exact ⟨rfl, congrArg Sum.inl hlook.symm⟩

theorem link_names {m : List UInt8 → Option ℕ} {r : Option ℕ ⊕ ℤ} (hW : Wf img) (h0 : inum ≠ 0)
    (hlt : inum < 2 ^ 16) (hm : dirMap (files img) d = some m)
    (hfits : (NameOp.link d name inum).Fits (files img))
    (h : execName (.link d name inum) img = some (r, img')) :
    Wf img' ∧ (m (key name) = none → r = .inr 0 ∧ dirMap (files img') =
        Function.update (dirMap (files img)) d (some (Function.update m (key name) (some inum)))) ∧
      (m (key name) ≠ none → r = .inr (-1) ∧ img' = img) := by
  obtain ⟨hi, hty, h16, hU, rfl⟩ := dirMap_files hm
  rw [execName, ilock_eq hi, Option.bind_eq_bind, Option.bind_some] at h
  obtain ⟨⟨r₁, ip₁, img₁⟩, hlink, h⟩ := Option.bind_eq_some_iff.1 h
  obtain ⟨rfl, rfl⟩ := Prod.mk.inj (Option.some.inj h)
  by_cases hlook : SlotTable.lookup (key name) (entries (contents img (img.dinode d))) = none
  · obtain ⟨rfl, hchanged, hentries, h16'⟩ := dirlink_spec hW hi same_inodeAt h16 hty (files_eq hi)
      hlook h0 hlt rfl (hfits _ (files_eq hi) hlook) hlink
    refine ⟨hchanged.wf, fun _ => ⟨rfl, ?_⟩, fun hold => absurd hlook hold⟩
    rw [hchanged.files]
    refine dirMap_update ⟨hty, h16', ?_⟩ ?_
    · rw [hentries]
      exact SlotTable.nodup_put hU hlook
    · funext s
      rw [hentries, SlotTable.lookup_put hlook, Function.update_apply]
  · rw [dirlink_exists hW hi same_inodeAt h16 hty hlook] at hlink
    obtain ⟨rfl, heq⟩ := Prod.mk.inj (Option.some.inj hlink)
    obtain ⟨-, rfl⟩ := Prod.mk.inj heq
    exact ⟨hW, fun hnew => absurd hnew hlook, fun _ => ⟨rfl, rfl⟩⟩

theorem clear_names {m : List UInt8 → Option ℕ} {r : Option ℕ ⊕ ℤ} (hW : Wf img)
    (hm : dirMap (files img) d = some m) (h : execName (.clear d name) img = some (r, img')) :
    Wf img' ∧ (m (key name) ≠ none → r = .inr 0 ∧ dirMap (files img') =
        Function.update (dirMap (files img)) d (some (Function.update m (key name) none))) ∧
      (m (key name) = none → r = .inr (-1) ∧ img' = img) := by
  obtain ⟨hi, hty, h16, hU, rfl⟩ := dirMap_files hm
  rw [execName, ilock_eq hi, Option.bind_eq_bind, Option.bind_some] at h
  cases hlook : SlotTable.lookup (key name) (entries (contents img (img.dinode d))) with
  | none =>
    rw [dirlookup_none hW hi same_inodeAt h16 hty hlook] at h
    obtain ⟨rfl, rfl⟩ := Prod.mk.inj (Option.some.inj h)
    exact ⟨hW, fun hold => absurd hlook hold, fun _ => ⟨rfl, rfl⟩⟩
  | some j =>
    obtain ⟨k, hk, hfound⟩ := dirlookup_some hW hi same_inodeAt h16 hty hlook
    have hklt : k < (entries (contents img (img.dinode d))).length :=
      (List.findIdx?_eq_some_iff_getElem.1 hk).1
    obtain ⟨ip', img₁, data', hwrite, -, hchanged, hlength, hentries⟩ :=
      clear_spec hW hi same_inodeAt h16 (files_eq hi) hklt
    rw [hfound, Option.bind_eq_bind, Option.bind_some] at h
    dsimp only at h
    rw [hwrite] at h
    obtain ⟨rfl, rfl⟩ := Prod.mk.inj (Option.some.inj h)
    have hsome : SlotTable.lookup (key name) (entries (contents img (img.dinode d))) ≠ none := by
      rw [hlook]
      exact Option.some_ne_none j
    refine ⟨hchanged.wf, fun _ => ⟨rfl, ?_⟩, fun hnone => absurd hnone hsome⟩
    rw [hchanged.files]
    refine dirMap_update ⟨hty, ?_, ?_⟩ ?_
    · show 16 ∣ data'.length
      rw [hlength, length_contents]
      exact h16
    · rw [hentries]
      exact hU.sublist SlotTable.keys_set_sublist
    · funext s
      rw [hentries, SlotTable.lookup_clear hU hk, Function.update_apply]

/-- No directory is lost. -/
theorem NameSpec.isSome {M M' : ℕ → Option (List UInt8 → Option ℕ)} {e : NameOp × (Option ℕ ⊕ ℤ)}
    (h : NameSpec M e M') (hd : (M d).isSome = true) : (M' d).isSome = true := by
  have hupdate : ∀ {k : ℕ} {m : List UInt8 → Option ℕ},
      (Function.update M k (some m) d).isSome = true := by
    intro k m
    rcases eq_or_ne d k with rfl | hne
    · rw [Function.update_self]
      rfl
    · rwa [Function.update_of_ne hne]
  cases h with
  | lookup | linkExists | clearMissing => exact hd
  | link | clear => exact hupdate

/-- **One operation** is one on the maps. -/
theorem NameStep.spec {e : NameOp × (Option ℕ ⊕ ℤ)} (hW : Wf img) (hlegal : e.1.Legal)
    (hsome : (dirMap (files img) e.1.dir).isSome = true) (h : NameStep img e img') :
    Wf img' ∧ NameSpec (dirMap (files img)) e (dirMap (files img')) := by
  obtain ⟨op, r⟩ := e
  obtain ⟨hfits, h⟩ := h
  obtain ⟨m, hm⟩ := Option.isSome_iff_exists.1 hsome
  cases op with
  | lookup d name =>
    obtain ⟨rfl, rfl⟩ := lookup_names hW hm h
    exact ⟨hW, .lookup hm⟩
  | link d name inum =>
    obtain ⟨hW', hnew, hold⟩ := link_names hW hlegal.1 hlegal.2 hm hfits h
    by_cases hnone : m (key name) = none
    · obtain ⟨rfl, heq⟩ := hnew hnone
      rw [heq]
      exact ⟨hW', .link hm hnone⟩
    · obtain ⟨rfl, rfl⟩ := hold hnone
      exact ⟨hW', .linkExists hm hnone⟩
  | clear d name =>
    obtain ⟨hW', hold, hnew⟩ := clear_names hW hm h
    by_cases hnone : m (key name) = none
    · obtain ⟨rfl, rfl⟩ := hnew hnone
      exact ⟨hW', .clearMissing hm hnone⟩
    · obtain ⟨rfl, heq⟩ := hold hnone
      rw [heq]
      exact ⟨hW', .clear hm hnone⟩

/-- **Every run** on the directories of a tidy image is a run on their maps. -/
theorem names_run {es : List (NameOp × (Option ℕ ⊕ ℤ))} (hW : Wf img)
    (hes : ∀ e ∈ es, e.1.Legal ∧ (dirMap (files img) e.1.dir).isSome = true)
    (h : Run NameStep img es img') :
    Wf img' ∧ Run NameSpec (dirMap (files img)) es (dirMap (files img')) := by
  induction h with
  | nil img => exact ⟨hW, .nil _⟩
  | cons hstep hrun ih =>
    obtain ⟨he, hes⟩ := List.forall_mem_cons.1 hes
    obtain ⟨hW₁, hspec⟩ := hstep.spec hW he.1 he.2
    obtain ⟨hW₂, hruns⟩ := ih hW₁ fun e hmem => ⟨(hes e hmem).1, hspec.isSome (hes e hmem).2⟩
    exact ⟨hW₂, .cons hspec hruns⟩

end OsProjects.Kernel
