import AlexOS.Lib.Run
import AlexOS.Loader.Image
import AlexOS.Mm.SpaceFrames
import AlexOS.Mm.Sv39
import AlexOS.Mm.Tenure
import AlexOS.Task.Ownership

/-!
# The kernel's half of every space

Spaces made by `load` and `duplicate`, given a stack, grown by `adjust_brk`,
written by their programs and dropped, while the kernel keeps its own table as it
is. Each of them has the kernel's entries in the upper half of its root, and what
it maps itself lies in the lower half.
-/

namespace AlexOS

open Bytes PageTable AddressSpace

variable {σ : Type} {A : CountedAllocator σ} {kernel : PageTable} {s s' : Phys σ}
  {sp sp' : AddressSpace} {rest : Multiset Frame} {r : Region}

/-- A user's space: its own regions below, the kernel's root entries above. -/
structure AddressSpace.Shares (A : CountedAllocator σ) (kernel : PageTable) (s : Phys σ)
    (sp : AddressSpace) (rest : Multiset Frame) : Prop where
  sound : Sound A 256 [] s sp rest
  upper : ∀ i, 256 ≤ i → i < 512 → entry s.mem sp.table.root i = entry s.mem kernel.root i
  low : ∀ r ∈ sp.regions, r.end_ ≤ userMaxAddr

theorem Region.User.clear (u : r.User) : r.Clear 256 [] := by
  refine ⟨fun v _ hi => ?_, by simp, fun h => ?_⟩
  · have hv := Nat.lt_of_lt_of_le hi u.pages_le
    simp only [pages] at hv
    simp only [rootIndex]
    omega
  · rw [u.framed] at h
    cases h

theorem Region.User.words (u : r.User) (aligned : r.end_ % pageSize = 0) : r.Words := by
  have hend := u.below
  have hperm := u.perm
  simp only [userMaxAddr] at hend
  exact ⟨by omega, aligned, by omega⟩

/-! ## One space -/

section
variable (hk : (⟨kernel.root, 0⟩ : Frame) ∈ rest)
include hk

theorem AddressSpace.Shares.changed (h : sp.Shares A kernel s rest)
    (sound : Sound A 256 [] s' sp' rest) (changed : Changed 256 rest s sp.table s' sp'.table)
    (low : ∀ r ∈ sp'.regions, r.end_ ≤ userMaxAddr) : sp'.Shares A kernel s' rest := by
  refine ⟨sound, fun i lo hi => ?_, low⟩
  rw [changed.root, changed.upper i lo hi, entry_held hk changed.kept hi]
  exact h.upper i lo hi

theorem AddressSpace.Shares.pushed (h : sp.Shares A kernel s rest) (u : r.User)
    {big : List (List Nat)} (sound : Sound A 256 big s' sp' rest)
    (changed : Changed 256 rest s sp.table s' sp'.table) (framed : r.backing = .framed → big = [])
    (regions : ∀ r' ∈ sp'.regions, r' ∈ sp.regions ∨ r'.end_ = r.end_) :
    sp'.Shares A kernel s' rest := by
  obtain rfl := framed u.framed
  refine h.changed hk sound changed fun r' hr' => ?_
  rcases regions r' hr' with hr' | e
  · exact h.low r' hr'
  · rw [e]
    exact u.below

theorem AddressSpace.Shares.push (h : sp.Shares A kernel s rest) (u : r.User)
    (empty : r.frames = []) (aligned : r.end_ % pageSize = 0) {res : Except MapError Unit}
    (heq : sp.push A.toFrameAllocator s r = some (res, s', sp')) :
    sp'.Shares A kernel s' rest ∧ Kept rest s.mem s'.mem := by
  obtain ⟨big, sound, changed, framed, regions⟩ :=
    push_sound h.sound u.clear (u.words aligned) empty heq
  exact ⟨h.pushed hk u sound changed framed regions, changed.kept⟩

theorem AddressSpace.Shares.pushWithOffset (h : sp.Shares A kernel s rest) (u : r.User)
    (empty : r.frames = []) (aligned : r.end_ % pageSize = 0) {res : Except MapError Unit}
    {offset : Nat} {data : List UInt8}
    (heq : sp.pushWithOffset A.toFrameAllocator s r offset data = some (res, s', sp')) :
    sp'.Shares A kernel s' rest ∧ Kept rest s.mem s'.mem := by
  obtain ⟨big, sound, changed, framed, regions⟩ :=
    pushWithOffset_sound h.sound u.clear (u.words aligned) empty heq
  exact ⟨h.pushed hk u sound changed framed regions, changed.kept⟩

theorem AddressSpace.new_shares (holds : A.Holds s rest)
    (heq : AddressSpace.new A.toFrameAllocator s = (some sp, s')) :
    sp.Shares A kernel (sp.mapKernelHalf s' kernel) rest ∧
      Kept rest s.mem (sp.mapKernelHalf s' kernel).mem := by
  obtain ⟨sound, hregions, kept⟩ := new_sound_kernel kernel holds heq
  refine ⟨⟨sound, fun i lo hi => ?_, by simp [hregions]⟩, kept⟩
  obtain ⟨-, -, kept'⟩ := new_sound holds heq
  rw [mapKernelHalf, entry_shareUpperHalf _ _ _ lo hi, entry_held hk kept' hi]
  exact (entry_held hk kept hi).symm

theorem Loader.load_shares {image : List UInt8} {res : Except LoadError LoadedImage}
    (holds : A.Holds s rest) (heq : load A.toFrameAllocator s kernel image = some (res, s')) :
    Built (fun s' sp => sp.Shares A kernel s' rest ∧ Kept rest s.mem s'.mem)
      (fun s' => A.Holds s' rest ∧ Kept rest s.mem s'.mem) LoadedImage.space s' res := by
  refine load_rule (F := fun s' sp => sp.Shares A kernel s' rest ∧ Kept rest s.mem s'.mem)
    holds ⟨holds, .refl _ _⟩ (new_shares hk holds) id ?_ ?_ heq
  · rintro s₁ sp r offset data res' s₂ sp' ⟨h, kept⟩ u empty aligned hpush
    obtain ⟨h', kept'⟩ := h.pushWithOffset hk u empty aligned hpush
    exact ⟨⟨h', kept.trans kept'⟩, fun _ => ⟨h', kept.trans kept'⟩⟩
  · rintro s₁ sp ⟨h, kept⟩
    obtain ⟨s₂, hdrop, holds₂, kept₂⟩ := h.sound.drop
    exact ⟨s₂, hdrop, holds₂, kept.trans kept₂⟩

theorem mapUserStack_shares {top : Option Nat} (h : sp.Shares A kernel s rest)
    (heq : mapUserStack A.toFrameAllocator s sp = some (top, s', sp')) :
    sp'.Shares A kernel s' rest ∧ Kept rest s.mem s'.mem := by
  obtain ⟨r, hnew, u, empty, -, -, hend⟩ := userStack_region
  rcases hpush : sp.push A.toFrameAllocator s r with _ | ⟨res, s₁, sp₁⟩
  · simp [mapUserStack, hnew, hpush] at heq
  have h' := h.push hk u empty (by rw [hend]; decide) hpush
  simp only [mapUserStack, hnew, hpush, Option.bind_eq_bind, Option.bind_some] at heq
  rcases res with e | ⟨⟩ <;>
    simp only [Option.some.injEq, Prod.mk.injEq] at heq <;>
    obtain ⟨-, rfl, rfl⟩ := heq <;>
    exact h'

/-- Whatever the break and the top of the heap were. -/
theorem adjustBrk_shares {p p' : Process} {delta : Int} {res : Option Nat}
    (h : sp.Shares A kernel s rest) (hsp : p.space = some sp)
    (heq : adjustBrk A.toFrameAllocator s p delta = some (res, s', p')) :
    ∃ sp', p'.space = some sp' ∧ sp'.Shares A kernel s' rest ∧ Kept rest s.mem s'.mem := by
  rcases adjustBrk_cases A.toFrameAllocator s p delta with ⟨res₁, brk, heq₁, -, -⟩ |
    ⟨sp₀, new, r, hspace, -, -, -, hr, heq₁⟩
  · rw [heq₁] at heq
    obtain ⟨-, rfl, rfl⟩ := heq
    exact ⟨sp, hsp, h, .refl _ _⟩
  obtain rfl := Option.some.inj (hsp.symm.trans hspace)
  rcases hpush : sp.push A.toFrameAllocator s r with _ | ⟨res', s₁, sp₁⟩ <;> rw [heq₁, hpush] at heq
  · cases heq
  obtain ⟨h', kept⟩ := h.push hk hr.user hr.empty hr.end_aligned hpush
  rcases res' with e | ⟨⟩ <;> obtain ⟨-, rfl, rfl⟩ := heq <;> exact ⟨sp₁, rfl, h', kept⟩

theorem AddressSpace.duplicate_shares {res : Option AddressSpace} (holds : A.Holds s rest)
    (words : ∀ r ∈ sp.regions, r.Words) (low : ∀ r ∈ sp.regions, r.end_ ≤ userMaxAddr)
    (heq : sp.duplicate A.toFrameAllocator s kernel = some (res, s')) :
    (match res with
      | none => A.Holds s' rest
      | some child => child.Shares A kernel s' rest) ∧ Kept rest s.mem s'.mem := by
  have root : ∀ r ∈ sp.regions, r.backing = .framed →
      ∀ v, pageNum r.start ≤ v → v < pageNum r.end_ → rootIndex v < 256 := by
    intro r hr _ v _ hi
    have := low r hr
    simp only [userMaxAddr, pageNum, pageSize, rootIndex] at *
    omega
  rcases hnew : AddressSpace.new A.toFrameAllocator s with ⟨_ | child, s₁⟩
  · simp only [duplicate, hnew, Option.some.injEq, Prod.mk.injEq] at heq
    obtain ⟨rfl, rfl⟩ := heq
    obtain rfl := new_none holds hnew
    exact ⟨holds, .refl _ _⟩
  obtain ⟨h, kept⟩ := new_shares hk holds hnew
  obtain ⟨-, hregions, -⟩ := new_sound_kernel kernel holds hnew
  simp only [duplicate, hnew] at heq
  obtain ⟨hdup, kept', hchild⟩ := duplicateFrom_sound h.sound words root heq
  refine ⟨?_, kept.trans kept'⟩
  rcases res with _ | child'
  · exact hdup
  obtain ⟨changed, hends⟩ := hchild child' rfl
  refine h.changed hk hdup changed fun r' hr' => ?_
  obtain ⟨r, hr, e⟩ := hends r' hr'
  rw [hregions, List.nil_append] at hr
  rw [e]
  exact low r hr

end

theorem AddressSpace.Shares.writes {m : Mem} (h : sp.Shares A kernel s rest)
    (hk : (⟨kernel.root, 0⟩ : Frame) ∈ rest) (w : WritesIn sp.owned s.mem m) :
    sp.Shares A kernel { s with mem := m } rest ∧ Kept rest s.mem m := by
  obtain ⟨sound, changed⟩ := h.sound.writes w
  exact ⟨h.changed hk sound changed h.low, changed.kept⟩

theorem AddressSpace.Shares.kept {rest' : Multiset Frame} (h : sp.Shares A kernel s rest)
    (hk : (⟨kernel.root, 0⟩ : Frame) ∈ kernel.frames) (holds : A.Holds s' (sp.frames + rest'))
    (kept : Kept (sp.frames + kernel.frames) s.mem s'.mem) : sp.Shares A kernel s' rest' := by
  have keptT : Kept sp.table.frames s.mem s'.mem :=
    kept.mono ((Multiset.le_add_right _ _).trans (Multiset.le_add_right _ _))
  refine ⟨h.sound.kept holds keptT, fun i lo hi => ?_, h.low⟩
  rw [h.sound.table.owns.tables.entry_kept keptT h.sound.table.root_within rfl hi,
    entry_held (Multiset.mem_coe.mpr hk) (kept.mono (Multiset.le_add_left _ _)) hi]
  exact h.upper i lo hi

/-- The walk for an address of the upper half goes on where the kernel's does. -/
theorem AddressSpace.Shares.walk (h : sp.Shares A kernel s rest) {va : Nat}
    (hv : 256 ≤ rootIndex (pageNum va)) :
    Sv39.walk s.mem sp.table.root va = Sv39.walk s.mem kernel.root va := by
  have e := h.upper _ hv (Nat.mod_lt _ (by decide))
  by_cases hva : Sv39.Canonical va
  · rw [Sv39.walk_eq _ _ hva, Sv39.walk_eq _ _ hva, indices_eq, ← rootIndex]
    simp only [Sv39.walkFrom, e]
  · rw [Sv39.walk, Sv39.walk, if_neg hva, if_neg hva]

theorem AddressSpace.Shares.leaf (h : sp.Shares A kernel s rest) {v : Nat}
    (hv : 256 ≤ rootIndex v) :
    leafPte s.mem (indices v) sp.table.root = leafPte s.mem (indices v) kernel.root := by
  have e := h.upper _ hv (Nat.mod_lt _ (by decide))
  rw [indices_eq, ← rootIndex]
  simp only [leafPte, e]

/-! ## Every run -/

/-- `KERNEL_SPACE`'s table. -/
structure KernelTable where
  table : PageTable
  root_mem : (⟨table.root, 0⟩ : Frame) ∈ table.frames

/-- The spaces of user processes and the frames everyone else holds. -/
structure UserSpaces (σ : Type) where
  phys : Phys σ
  rest : Multiset Frame
  spaces : Multiset AddressSpace

namespace UserSpaces

section
variable (A : CountedAllocator σ) (kernel : KernelTable)

def tenure : Tenure A AddressSpace where
  frames := AddressSpace.frames
  base := kernel.table.frames
  Ok s sp rest := sp.Shares A kernel.table s rest
  holds h := h.sound.holds
  stable h holds kept := h.kept kernel.root_mem holds kept

inductive Step : UserSpaces σ → Unit → UserSpaces σ → Prop where
  | load {w : UserSpaces σ} {image : List UInt8} {loaded : Loader.LoadedImage} {s : Phys σ} :
      Loader.load A.toFrameAllocator w.phys kernel.table image = some (.ok loaded, s) →
      Step w () { w with phys := s, spaces := loaded.space ::ₘ w.spaces }
  | noLoad {w : UserSpaces σ} {image : List UInt8} {e : Loader.LoadError} {s : Phys σ} :
      Loader.load A.toFrameAllocator w.phys kernel.table image = some (.error e, s) →
      Step w () { w with phys := s }
  | mapUserStack {w : UserSpaces σ} {sp sp' : AddressSpace} {sps : Multiset AddressSpace}
      {top : Option Nat} {s : Phys σ} : w.spaces = sp ::ₘ sps →
      AlexOS.mapUserStack A.toFrameAllocator w.phys sp = some (top, s, sp') →
      Step w () { w with phys := s, spaces := sp' ::ₘ sps }
  /-- For a process with any break and any top of its heap. -/
  | adjustBrk {w : UserSpaces σ} {sp sp' : AddressSpace} {sps : Multiset AddressSpace}
      {p p' : Process} {delta : Int} {res : Option Nat} {s : Phys σ} : w.spaces = sp ::ₘ sps →
      p.space = some sp → p'.space = some sp' →
      AlexOS.adjustBrk A.toFrameAllocator w.phys p delta = some (res, s, p') →
      Step w () { w with phys := s, spaces := sp' ::ₘ sps }
  | duplicate {w : UserSpaces σ} {sp child : AddressSpace} {s : Phys σ} : sp ∈ w.spaces →
      sp.duplicate A.toFrameAllocator w.phys kernel.table = some (some child, s) →
      Step w () { w with phys := s, spaces := child ::ₘ w.spaces }
  | noDuplicate {w : UserSpaces σ} {sp : AddressSpace} {s : Phys σ} : sp ∈ w.spaces →
      sp.duplicate A.toFrameAllocator w.phys kernel.table = some (none, s) →
      Step w () { w with phys := s }
  | drop {w : UserSpaces σ} {sp : AddressSpace} {sps : Multiset AddressSpace} {s : Phys σ} :
      w.spaces = sp ::ₘ sps → sp.drop A.toFrameAllocator w.phys = some s →
      Step w () { w with phys := s, spaces := sps }
  /-- A program, or the kernel for it, writes the pages of its regions. -/
  | store {w : UserSpaces σ} {sp : AddressSpace} {sps : Multiset AddressSpace} {m : Mem} :
      w.spaces = sp ::ₘ sps → WritesIn sp.owned w.phys.mem m →
      Step w () { w with phys := { w.phys with mem := m } }
  /-- The rest of the kernel uses what it holds itself, but not `KERNEL_SPACE`. -/
  | rest {w : UserSpaces σ} {rest : Multiset Frame} {s : Phys σ} :
      A.Holds s ((tenure A kernel).total w.spaces + rest) → kernel.table.frames ≤ rest →
      Kept ((tenure A kernel).total w.spaces + kernel.table.frames) w.phys.mem s.mem →
      Step w () { w with phys := s, rest := rest }

def system : System (UserSpaces σ) Unit where
  init w := A.Holds w.phys w.rest ∧ kernel.table.frames ≤ w.rest ∧ w.spaces = 0
  step := Step A kernel

end

variable {kernel : KernelTable} {w w' : UserSpaces σ}

theorem Step.all (h : Step A kernel w () w')
    (all : (tenure A kernel).All w.phys w.spaces w.rest) :
    (tenure A kernel).All w'.phys w'.spaces w'.rest ∧
      Kept kernel.table.frames w.phys.mem w'.phys.mem := by
  have hk (sps : Multiset AddressSpace) :
      (⟨kernel.table.root, 0⟩ : Frame) ∈ (tenure A kernel).total sps + w.rest :=
    Multiset.mem_add.mpr (.inr (Multiset.mem_of_le all.base kernel.root_mem))
  have base {m : Mem} (sps : Multiset AddressSpace)
      (kept : Kept ((tenure A kernel).total sps + w.rest) w.phys.mem m) :
      Kept kernel.table.frames w.phys.mem m :=
    kept.mono (all.base.trans (Multiset.le_add_left _ _))
  cases h with
  | load h =>
    obtain ⟨ok, kept⟩ := Loader.load_shares (hk _) all.holds h
    exact ⟨all.add ok kept, base _ kept⟩
  | noLoad h =>
    obtain ⟨holds, kept⟩ := Loader.load_shares (hk _) all.holds h
    exact ⟨all.same holds kept, base _ kept⟩
  | mapUserStack hw h =>
    rw [hw] at all
    obtain ⟨ok, kept⟩ := mapUserStack_shares (hk _) (all.each _ _ rfl) h
    exact ⟨all.change ok kept, base _ kept⟩
  | adjustBrk hw hp hp' h =>
    rw [hw] at all
    obtain ⟨sp', hsp', ok, kept⟩ := adjustBrk_shares (hk _) (all.each _ _ rfl) hp h
    obtain rfl := Option.some.inj (hp'.symm.trans hsp')
    exact ⟨all.change ok kept, base _ kept⟩
  | duplicate hsp h =>
    obtain ⟨sps, -, ok⟩ := all.mem hsp
    obtain ⟨ok', kept⟩ := duplicate_shares (hk _) all.holds ok.sound.words ok.low h
    exact ⟨all.add ok' kept, base _ kept⟩
  | noDuplicate hsp h =>
    obtain ⟨sps, -, ok⟩ := all.mem hsp
    obtain ⟨holds, kept⟩ := duplicate_shares (hk _) all.holds ok.sound.words ok.low h
    exact ⟨all.same holds kept, base _ kept⟩
  | drop hw h =>
    rw [hw] at all
    obtain ⟨s', heq, holds, kept⟩ := (all.each _ _ rfl).sound.drop
    obtain rfl := Option.some.inj (heq.symm.trans h)
    exact ⟨all.drop holds kept, base _ kept⟩
  | store hw h =>
    obtain ⟨ok, kept⟩ := (all.each _ _ hw).writes (hk _) h
    refine ⟨?_, base _ kept⟩
    rw [hw] at all ⊢
    exact all.change ok kept
  | rest holds hbase kept =>
    exact ⟨all.elsewhere holds hbase kept, kept.mono (Multiset.le_add_left _ _)⟩

theorem Reach.all (h : Reach (system A kernel) w) :
    (tenure A kernel).All w.phys w.spaces w.rest := by
  refine Reach.invariant (S := system A kernel) _ ?_ (fun _ _ _ all hs => (Step.all hs all).1) h
  rintro w ⟨holds, hbase, hspaces⟩
  rw [hspaces]
  exact .start holds hbase

/-- Every space sees the kernel as `KERNEL_SPACE` has it, maps pages of the lower
half only, and no step writes a frame of the kernel's table. -/
theorem reach_kernel_half (h : Reach (system A kernel) w) :
    (∀ sp ∈ w.spaces,
      (∀ va, 256 ≤ rootIndex (pageNum va) → Sv39.walk w.phys.mem sp.table.root va =
        Sv39.walk w.phys.mem kernel.table.root va) ∧
      (∀ v, 256 ≤ rootIndex v → leafPte w.phys.mem (indices v) sp.table.root =
        leafPte w.phys.mem (indices v) kernel.table.root) ∧
      ∀ r ∈ sp.regions, r.end_ ≤ userMaxAddr ∧
        ∀ v, pageNum r.start ≤ v → v < pageNum r.end_ → rootIndex v < 256) ∧
    ∀ w', Step A kernel w () w' → Kept kernel.table.frames w.phys.mem w'.phys.mem := by
  have all := Reach.all h
  refine ⟨fun sp hsp => ?_, fun w' hs => (hs.all all).2⟩
  obtain ⟨_, -, ok⟩ := all.mem hsp
  exact ⟨fun va hv => ok.walk hv, fun v hv => ok.leaf hv,
    fun r hr => ⟨ok.low r hr, ok.sound.root r hr⟩⟩

/-- A small program loaded after boot, with one frame as the kernel's table. -/
theorem image_step : ∃ (kernel : KernelTable) (w : UserSpaces Buddy.BuddyAllocator)
    (s' : Buddy.State) (sp : AddressSpace), Buddy.merging.Holds w.phys w.rest ∧
      kernel.table.frames ≤ w.rest ∧ w.spaces = 0 ∧ sp.regions ≠ [] ∧
      Step Buddy.merging kernel w () { w with phys := s', spaces := {sp} } := by
  obtain ⟨s, -, holds, havail⟩ := Buddy.merging_boot
  obtain ⟨f, s₁, hf, havail₁⟩ := CountedAllocator.alloc_one holds (by omega)
  obtain ⟨order, holds₁, -⟩ := Buddy.merging.alloc_some holds hf
  have hroot : (⟨f.ppn, 0⟩ : Frame) ∈ [f] := by
    rw [← order]
    exact List.mem_singleton_self f
  obtain ⟨res, s', hload, out⟩ := Loader.load_cases ⟨f.ppn, [f]⟩ Loader.smallImage holds₁
  rcases out with ⟨l, rfl, -, -, -, -, loaded, -⟩ | ⟨-, bad⟩
  · refine ⟨⟨⟨f.ppn, [f]⟩, hroot⟩, ⟨s₁, {f}, 0⟩, s', l.space, holds₁, by simp, rfl, fun hnil => ?_,
      .load hload⟩
    rw [hnil, Loader.smallImage_loads] at loaded
    cases loaded
  · exact absurd ⟨Loader.smallImage_accepts, by rw [Loader.smallImage_frames]; omega⟩ bad

theorem kernel_half_of_image : ∃ (w : UserSpaces Buddy.BuddyAllocator) (kernel : KernelTable)
    (sp : AddressSpace), w.spaces = {sp} ∧ sp.regions ≠ [] ∧
      ∀ va, 256 ≤ rootIndex (pageNum va) → Sv39.walk w.phys.mem sp.table.root va =
        Sv39.walk w.phys.mem kernel.table.root va := by
  obtain ⟨kernel, w, s', sp, holds, hbase, hspaces, hne, step⟩ := image_step
  have start : Reach (system Buddy.merging kernel) w := .init ⟨holds, hbase, hspaces⟩
  obtain ⟨halves, -⟩ := reach_kernel_half (.step () start step)
  exact ⟨_, kernel, sp, rfl, hne, (halves sp (Multiset.mem_singleton_self _)).1⟩

end UserSpaces

end AlexOS
