import AlexOS.Mm.Coalesce
import AlexOS.Mm.Contents
import AlexOS.Mm.SpaceFrames

/-!
# What a fork shares

`duplicate` on a space built of regions of the lower half. A copy that comes
back has the parent's pages with the parent's flags and bytes, in frames of its
own, and from then on a write through one space is not seen in the other.
-/

namespace AlexOS

open Bytes PageTable

variable {σ : Type} {A : CountedAllocator σ} {s s' : Phys σ} {m m' : Mem} {r c : Region}
  {sp child : AddressSpace} {rest rest' : Multiset Frame} {kernel : PageTable}

/-! ## Regions that are copies -/

structure Region.CopyOf (m : Mem) (r c : Region) : Prop where
  perm : c.perm = r.perm
  pages : SamePages m r.frames c.frames

def Copies (m : Mem) (rs cs : List Region) : Prop := List.Forall₂ (Region.CopyOf m) rs cs

theorem Copies.kept {rs cs : List Region} (h : Copies m rs cs)
    (kept : Kept ((rs.flatMap Region.owned : List Frame) +
      (cs.flatMap Region.owned : List Frame)) m m') :
    Copies m' rs cs := by
  induction h with
  | nil => exact .nil
  | @cons r c rs cs h _ ih =>
    simp only [List.flatMap_cons, ← Multiset.coe_add] at kept
    refine .cons ⟨h.perm, h.pages.kept (kept.mono ?_)⟩ (ih (kept.mono ?_))
    · exact add_le_add (Multiset.le_add_right _ _) (Multiset.le_add_right _ _)
    · exact add_le_add (Multiset.le_add_left _ _) (Multiset.le_add_left _ _)

theorem Copies.append_one {rs cs : List Region} (h : Copies m rs cs) (hc : r.CopyOf m c) :
    Copies m (rs ++ [r]) (cs ++ [c]) :=
  List.rel_append h (.cons hc .nil)

/-- Copies have the same pages, with the same flags and bytes. -/
theorem Copies.same {va : Nat} (h : Copies m sp.regions child.regions) (exact : sp.Exact m)
    (exact' : child.Exact m) (hva : va < userMaxAddr) :
    (translate m child.table (pageNum va)).map Pte.flags =
        (translate m sp.table (pageNum va)).map Pte.flags ∧
      child.byteAt m va = sp.byteAt m va := by
  have hlow := pageNum_low hva
  by_cases hmem : ∃ r ∈ sp.regions, pageNum va ∈ r.frames.map Prod.fst
  · obtain ⟨r, hr, hkey⟩ := hmem
    obtain ⟨⟨v, f⟩, he, hv⟩ := List.mem_map.mp hkey
    obtain ⟨c, hc, hcopy⟩ := forall₂_mem_left h hr
    obtain ⟨⟨w, g⟩, hd, hw, hbytes⟩ := forall₂_mem_left hcopy.pages he
    have he : (pageNum va, f) ∈ r.frames := hv ▸ he
    have hd : (pageNum va, g) ∈ c.frames := by rw [← hv, ← hw]; exact hd
    have u := exact.regions r hr
    have u' := exact'.regions c hc
    rw [exact.translate_page hr he, exact'.translate_page hc hd, exact.byteAt_page hr he,
      exact'.byteAt_page hc hd, hcopy.perm]
    refine ⟨?_, congrArg some (hbytes _ (Nat.mod_lt _ (by decide)))⟩
    rw [Option.map_some, Option.map_some, Pte.flags_new _ (PteFlags.present_lt u.perm),
      Pte.flags_new _ (PteFlags.present_lt u.perm)]
  · have free : ∀ r ∈ sp.regions, pageNum va ∉ r.frames.map Prod.fst :=
      fun r hr hkey => hmem ⟨r, hr, hkey⟩
    have free' : ∀ c ∈ child.regions, pageNum va ∉ c.frames.map Prod.fst := by
      intro c hc hkey
      obtain ⟨d, hd, hv⟩ := List.mem_map.mp hkey
      obtain ⟨r, hr, hcopy⟩ := forall₂_mem_right h hc
      obtain ⟨e, he, hw, -⟩ := forall₂_mem_right hcopy.pages hd
      exact free r hr (List.mem_map.mpr ⟨e, he, hw.symm.trans hv⟩)
    rw [exact.translate_none hlow free, exact'.translate_none hlow free',
      exact.byteAt_none hva free,
      exact'.byteAt_none hva free']
    exact ⟨rfl, rfl⟩

/-! ## Duplicating -/

/-- The region `duplicate` makes for a whole one covers the same pages. -/
theorem copy_whole {copy : Region} (w : r.Whole) (hstart : copy.start = alignDown r.start)
    (hend : copy.end_ = (r.end_ + pageSize - 1) / pageSize * pageSize) :
    copy.start = r.start ∧ copy.end_ = r.end_ := by
  have := w.start_aligned
  have := w.end_aligned
  simp only [alignDown, pageSize] at *
  omega

theorem duplicateFrom_copies (ds : List Region) {rs : List Region}
    (holds : A.Holds s (sp.frames + rest))
    (h : sp.Exact s.mem) (users : ∀ r ∈ rs, r.User) (whole : ∀ r ∈ rs, r.Whole)
    (held : (((ds ++ rs).flatMap Region.owned : List Frame) : Multiset Frame) ≤ rest)
    (done : Copies s.mem ds sp.regions)
    (heq : AddressSpace.duplicateFrom A.toFrameAllocator s sp rs = some (some child, s')) :
    Copies s'.mem (ds ++ rs) child.regions := by
  induction rs generalizing s sp ds with
  | nil =>
    simp only [AddressSpace.duplicateFrom, Option.some.injEq, Prod.mk.injEq] at heq
    obtain ⟨rfl, rfl⟩ := heq
    rwa [List.append_nil]
  | cons r rs ih =>
    have u := users r List.mem_cons_self
    have w := whole r List.mem_cons_self
    obtain ⟨copy, hnew, uc, empty, hperm, hstart, hend⟩ := Region.new_user r.start u.below u.perm
    obtain ⟨hstart, hend⟩ := copy_whole w hstart hend
    obtain ⟨res', s₁, t', new, hmap, filled, out⟩ :=
      Region.mapInto_spec (h.toFormed.ok holds) uc.framed uc.perm uc.pages_le empty
    rw [AddressSpace.duplicateFrom, if_neg (by simp [u.framed]), hnew] at heq
    simp only [Option.bind_eq_bind, Option.bind_some, hmap] at heq
    rcases out with ⟨rfl, -, hlen, -⟩ | ⟨e, rfl, -⟩
    · have keys : new.map Prod.fst = r.frames.map Prod.fst := by
        rw [filled.keys, hlen, w.keys, Region.pageCount, Region.pageCount, hstart, hend]
      have total := A.apart filled.ok.holds
      have hr : (r.owned : Multiset Frame) ≤ rest := by
        refine le_trans ?_ held
        rw [List.flatMap_append, List.flatMap_cons, ← Multiset.coe_add, ← Multiset.coe_add]
        exact (Multiset.le_add_right _ _).trans (Multiset.le_add_left _ _)
      obtain ⟨mem, hcopy, same⟩ := copyFrames_pages (m := s₁.mem) keys (by rw [keys]; exact w.nodup)
        (fun p => (framesOver_mono
          (add_le_add_right (hr.trans (Multiset.le_add_left _ _)) _) p).trans
          ((framesOver_mono (Multiset.le_add_left _ _) p).trans (total p)))
        (fun e he => (filled.single e he).2)
      have hin := AddressSpace.copyFrames_spec (fun e he => (filled.single e he).2) hcopy
      have kept : Kept (sp.owned + rest) s₁.mem mem := hin.kept fun p =>
        (framesOver_mono (Multiset.le_add_left _ _) p).trans (total p)
      obtain ⟨holds₁, -⟩ := h.toFormed.fill uc filled
      have hin' : WritesIn (⟨t', sp.regions ++ [{ copy with frames := new }]⟩ : AddressSpace).owned
          s₁.mem mem := by
        apply hin.mono
        rw [AddressSpace.owned_append, ← Multiset.coe_add]
        exact Multiset.le_add_left _ _
      obtain ⟨holds₂, keptT, -, -⟩ := AddressSpace.write_owned holds₁ hin'
      have done' : Copies mem (ds ++ [r]) (sp.regions ++ [{ copy with frames := new }]) := by
        refine (done.kept ((filled.kept.trans kept).mono ?_)).append_one ⟨hperm, same⟩
        rw [add_comm]
        refine add_le_add_right (le_trans ?_ held) _
        rw [List.flatMap_append, ← Multiset.coe_add]
        exact Multiset.le_add_right _ _
      simp only [hcopy] at heq
      have := ih (ds ++ [r]) holds₂ ((h.fill uc filled).kept keptT)
        (fun r' hr' => users r' (List.mem_cons_of_mem r hr'))
        (fun r' hr' => whole r' (List.mem_cons_of_mem r hr'))
        (by rwa [List.append_assoc]) done' heq
      rwa [List.append_assoc] at this
    · simp [Option.bind_eq_some_iff] at heq

theorem AddressSpace.duplicate_copies (holds : A.Holds s rest) (users : ∀ r ∈ sp.regions, r.User)
    (whole : ∀ r ∈ sp.regions, r.Whole) (held : (sp.owned : Multiset Frame) ≤ rest)
    (heq : sp.duplicate A.toFrameAllocator s kernel = some (some child, s')) :
    Copies s'.mem sp.regions child.regions := by
  rcases hnew : new A.toFrameAllocator s with ⟨_ | sp₁, s₁⟩
  · simp [duplicate, hnew] at heq
  obtain ⟨holds₁, exact, hregions, -⟩ := new_spec kernel holds hnew
  simp only [duplicate, hnew] at heq
  exact duplicateFrom_copies [] holds₁ exact users whole held (by rw [hregions]; exact .nil) heq

/-! ## Two spaces side by side -/

/-- A space whose frames are left alone is as it was. -/
theorem AddressSpace.Exact.unchanged {va : Nat} (h : sp.Exact m) (kept : Kept sp.frames m m')
    (hva : va < userMaxAddr) : translate m' sp.table (pageNum va) =
      translate m sp.table (pageNum va) ∧
      sp.byteAt m' va = sp.byteAt m va := by
  have keptT : Kept sp.table.frames m m' := kept.mono (Multiset.le_add_right _ _)
  have h' := h.kept keptT
  have hlow := pageNum_low hva
  constructor
  · rw [translate_eq h'.tree hlow, translate_eq h.tree hlow, h.tree.leaf_kept keptT hlow]
  by_cases hmem : ∃ r ∈ sp.regions, pageNum va ∈ r.frames.map Prod.fst
  · obtain ⟨r, hr, hkey⟩ := hmem
    obtain ⟨⟨v, f⟩, he, hv⟩ := List.mem_map.mp hkey
    have he : (pageNum va, f) ∈ r.frames := hv ▸ he
    have hf : f ∈ sp.frames :=
      Multiset.mem_add.mpr (.inr (Multiset.mem_coe.mpr (mem_owned hr he)))
    rw [h'.byteAt_page hr he, h.byteAt_page hr he,
      pageByte_kept kept hf (show pageOffset va < pageSize from Nat.mod_lt _ (by decide))]
  · have free : ∀ r ∈ sp.regions, pageNum va ∉ r.frames.map Prod.fst :=
      fun r hr hkey => hmem ⟨r, hr, hkey⟩
    rw [h'.byteAt_none hva free, h.byteAt_none hva free]

/-- Calls of `copy_to_user`, each on the child or on the parent. -/
def storeAll (sp child : AddressSpace) (m : Mem) : List (Bool × Nat × List UInt8) → Mem
  | [] => m
  | (onChild, va, src) :: ws =>
    storeAll sp child ((if onChild then child else sp).copyToUser m va src).2 ws

theorem storeAll_append (sp child : AddressSpace) (m : Mem)
    (ws ws' : List (Bool × Nat × List UInt8)) :
    storeAll sp child m (ws ++ ws') = storeAll sp child (storeAll sp child m ws) ws' := by
  induction ws generalizing m with
  | nil => rfl
  | cons w ws ih => exact ih _

/-- Two exact spaces that hold no frame in common. -/
structure Apart (m : Mem) (sp child : AddressSpace) : Prop where
  exact : sp.Exact m
  exact' : child.Exact m
  apart : ∀ p, framesOver (child.frames + sp.frames) p ≤ 1

theorem Apart.symm (h : Apart m sp child) : Apart m child sp :=
  ⟨h.exact', h.exact, by rw [add_comm]; exact h.apart⟩

/-- What the child translates to is no frame of the parent. -/
theorem Apart.frame {va pa : Nat} (h : Apart m sp child) (hva : va < userMaxAddr)
    (hpa : translateAddr m child.table va = some pa) : framesOver sp.frames (pageNum pa) = 0 := by
  have hlow := pageNum_low hva
  rw [translateAddr, translate_eq h.exact'.tree hlow] at hpa
  split at hpa
  · rename_i hvalid
    obtain rfl := Option.some.inj hpa
    obtain ⟨r, hr, hf⟩ := h.exact'.frame hlow hvalid
    rw [pageNum_add _ (show pageOffset va < pageSize from Nat.mod_lt _ (by decide))]
    have held : (⟨Pte.ppn (leaf m child.table.root (pageNum va)), 0⟩ : Frame) ∈ child.frames :=
      Multiset.mem_add.mpr (.inr (Multiset.mem_coe.mpr (AddressSpace.mem_owned hr hf)))
    have hpos := framesOver_of_mem held (Nat.le_refl _) (by simp [Frame.count])
    have := h.apart (Pte.ppn (leaf m child.table.root (pageNum va)))
    rw [framesOver_add] at this
    simp only at hpos
    omega
  · cases hpa

/-- A store through the child is within its own pages. -/
theorem Apart.store (h : Apart m sp child) (va : Nat) (src : List UInt8) :
    Apart (child.copyToUser m va src).2 sp child ∧
      Kept sp.frames m (child.copyToUser m va src).2 := by
  have hone : ∀ p, framesOver child.frames p ≤ 1 := fun p =>
    (framesOver_mono (Multiset.le_add_right _ _) p).trans (h.apart p)
  have hin := AddressSpace.copyToUser_spec h.exact' hone va src
  have kept : Kept sp.frames m (child.copyToUser m va src).2 := hin.kept fun p =>
    (framesOver_mono (add_le_add_left (Multiset.le_add_left _ _) _) p).trans (h.apart p)
  exact ⟨⟨h.exact.kept (kept.mono (Multiset.le_add_right _ _)),
    h.exact'.writes hone hin, h.apart⟩, kept⟩

theorem Apart.storeAll (h : Apart m sp child) (ws : List (Bool × Nat × List UInt8)) :
    Apart (storeAll sp child m ws) sp child := by
  induction ws generalizing m with
  | nil => exact h
  | cons w ws ih =>
    obtain ⟨onChild, va, src⟩ := w
    cases onChild with
    | true => exact ih (h.store va src).1
    | false => exact ih (h.symm.store va src).1.symm

/-- Stores through one of them only leave the other's memory alone. -/
theorem Apart.stores_kept (h : Apart m sp child) {ws : List (Bool × Nat × List UInt8)} :
    ((∀ w ∈ ws, w.1 = true) → Kept sp.frames m (AlexOS.storeAll sp child m ws)) ∧
      ((∀ w ∈ ws, w.1 = false) → Kept child.frames m (AlexOS.storeAll sp child m ws)) := by
  induction ws generalizing m with
  | nil => exact ⟨fun _ => .refl _ _, fun _ => .refl _ _⟩
  | cons w ws ih =>
    obtain ⟨onChild, va, src⟩ := w
    constructor <;> intro all
    · obtain rfl : onChild = true := all _ List.mem_cons_self
      obtain ⟨h', kept⟩ := h.store va src
      exact kept.trans ((ih h').1 fun w hw => all w (List.mem_cons_of_mem _ hw))
    · obtain rfl : onChild = false := all _ List.mem_cons_self
      obtain ⟨h', kept⟩ := h.symm.store va src
      exact kept.trans ((ih h'.symm).2 fun w hw => all w (List.mem_cons_of_mem _ hw))

/-! ## Spaces built by pushing -/

/-- A space with or without the kernel's half, grown by framed regions that end at
`top` or below, written by its program, next to whatever the others do. -/
inductive Built (A : CountedAllocator σ) (top : Nat) :
    Phys σ → AddressSpace → Multiset Frame → Prop where
  | bare {s s' : Phys σ} {sp : AddressSpace} {rest : Multiset Frame} : A.Holds s rest →
      AddressSpace.new A.toFrameAllocator s = (some sp, s') → Built A top s' sp rest
  | new {s s' : Phys σ} {sp : AddressSpace} {rest : Multiset Frame} (kernel : PageTable) :
      A.Holds s rest → AddressSpace.new A.toFrameAllocator s = (some sp, s') →
      Built A top (sp.mapKernelHalf s' kernel) sp rest
  | push {s s' : Phys σ} {sp sp' : AddressSpace} {rest : Multiset Frame} {start end_ perm : Nat}
      {r : Region} : Built A top s sp rest → end_ ≤ top → perm < 2 ^ 10 →
      Region.new start end_ .framed perm = some r →
      sp.push A.toFrameAllocator s r = some (.ok (), s', sp') → Built A top s' sp' rest
  | contents {s : Phys σ} {sp : AddressSpace} {rest : Multiset Frame} {m : Mem} :
      Built A top s sp rest → WritesIn sp.owned s.mem m → Built A top { s with mem := m } sp rest
  | others {s s' : Phys σ} {sp : AddressSpace} {rest rest' : Multiset Frame} :
      Built A top s sp rest →
      A.Holds s' (sp.frames + rest') → Kept sp.frames s.mem s'.mem → Built A top s' sp rest'

theorem AddressSpace.bare_exact (holds : A.Holds s rest)
    (heq : AddressSpace.new A.toFrameAllocator s = (some sp, s')) :
    A.Holds s' (sp.frames + rest) ∧ sp.Exact s'.mem ∧ ∀ r ∈ sp.regions, r.Whole := by
  obtain ⟨t, hnew, rfl⟩ := new_table heq
  obtain ⟨ok, -, hleaf⟩ := PageTable.new_spec holds (show 256 ≤ 512 by decide) hnew
  refine ⟨by simpa [frames, owned] using ok.holds, ⟨⟨ok.tree, by simp⟩, fun v hv hvalid => ?_,
    by simp⟩, by simp⟩
  rw [hleaf v hv] at hvalid
  cases hvalid

theorem Built.sound (h : Built A userMaxAddr s sp rest) :
    A.Holds s (sp.frames + rest) ∧ sp.Exact s.mem ∧ ∀ r ∈ sp.regions, r.Whole := by
  induction h with
  | bare holds heq => exact AddressSpace.bare_exact holds heq
  | new kernel holds heq =>
    obtain ⟨holds', exact, hregions, -⟩ := AddressSpace.new_spec kernel holds heq
    exact ⟨holds', exact, by simp [hregions]⟩
  | push _ hend hperm hnew heq ih =>
    obtain ⟨holds, exact, whole⟩ := ih
    obtain ⟨r, hnew', u, empty, -, hstart, hlast⟩ := Region.new_user _ hend hperm
    obtain rfl := Option.some.inj (hnew.symm.trans hnew')
    obtain ⟨_, _, _, heq', holds', -, -, -, pushed⟩ :=
      AddressSpace.push_spec holds exact.toFormed u empty
    simp only [heq, Option.some.injEq, Prod.mk.injEq] at heq'
    obtain ⟨rfl, rfl, rfl⟩ := heq'
    cases pushed with
    | mapped _ exact' keys _ =>
      refine ⟨holds', exact' exact, fun r' hr' => ?_⟩
      rcases List.mem_append.mp hr' with hr' | hr'
      · exact whole r' hr'
      · rw [List.mem_singleton.mp hr']
        refine ⟨?_, ?_, keys⟩
        · rw [hstart]
          exact Nat.mul_mod_left _ _
        · rw [hlast]
          exact Nat.mul_mod_left _ _
  | contents _ hin ih =>
    obtain ⟨holds, exact, whole⟩ := ih
    obtain ⟨holds', keptT, -⟩ := AddressSpace.write_owned holds hin
    exact ⟨holds', exact.kept keptT, whole⟩
  | others _ holds kept ih =>
    exact ⟨holds, ih.2.1.kept (kept.mono (Multiset.le_add_right _ _)), ih.2.2⟩

/-- Whatever `duplicate` returns, the parent is as it was. A child translates what
the parent does, to frames of its own with the same flags and bytes, and after any
calls of `copy_to_user` on the two, those on one of them leave the other as it is. -/
theorem fork_copies {res : Option AddressSpace} (h : Built A userMaxAddr s sp rest)
    (heq : sp.duplicate A.toFrameAllocator s kernel = some (res, s')) :
    (∀ va < userMaxAddr, translate s'.mem sp.table (pageNum va) =
      translate s.mem sp.table (pageNum va) ∧
      sp.byteAt s'.mem va = sp.byteAt s.mem va) ∧
    ∀ child, res = some child → ∀ va < userMaxAddr,
      (translate s'.mem child.table (pageNum va)).map Pte.flags =
        (translate s'.mem sp.table (pageNum va)).map Pte.flags ∧
      child.byteAt s'.mem va = sp.byteAt s'.mem va ∧
      (∀ pa, translateAddr s'.mem child.table va = some pa →
        framesOver sp.frames (pageNum pa) = 0) ∧
      ∀ ws ws', (∀ w ∈ ws', w.1 = true) →
        sp.byteAt (storeAll sp child s'.mem (ws ++ ws')) va =
          sp.byteAt (storeAll sp child s'.mem ws) va ∧
        child.byteAt (storeAll sp child s'.mem (ws ++ ws'.map fun w => (false, w.2))) va =
          child.byteAt (storeAll sp child s'.mem ws) va := by
  obtain ⟨holds, exact, whole⟩ := h.sound
  obtain ⟨copied, kept⟩ := AddressSpace.duplicate_spec holds exact.regions heq
  have keptP : Kept sp.frames s.mem s'.mem := kept.mono (Multiset.le_add_right _ _)
  refine ⟨fun va hva => exact.unchanged keptP hva, ?_⟩
  rintro child rfl va hva
  obtain ⟨holds', exact'⟩ := copied
  have exactP := exact.kept (keptP.mono (Multiset.le_add_right _ _))
  have copies := AddressSpace.duplicate_copies holds exact.regions whole
    ((Multiset.le_add_left _ _).trans (Multiset.le_add_right _ _)) heq
  have pair : Apart s'.mem sp child := ⟨exactP, exact', fun p =>
    (framesOver_mono (by rw [← add_assoc]; exact Multiset.le_add_right _ _) p).trans
      (A.apart holds' p)⟩
  obtain ⟨hflags, hbyte⟩ := copies.same exactP exact' hva
  refine ⟨hflags, hbyte, fun pa hpa => pair.frame hva hpa, fun ws ws' all => ?_⟩
  have later := pair.storeAll ws
  constructor
  · rw [storeAll_append]
    exact (later.exact.unchanged (later.stores_kept.1 all) hva).2
  · rw [storeAll_append]
    exact (later.exact'.unchanged (later.stores_kept.2 (by simp)) hva).2

def userPage (fs : List (Nat × Frame)) : Region :=
  ⟨0x1000, 0x2000, .framed, PteFlags.rw ||| PteFlags.user, fs⟩

theorem userPage_new : Region.new 0x1000 0x2000 .framed (PteFlags.rw ||| PteFlags.user) =
    some (userPage []) := rfl

/-- A page is mapped at `0x1000` of a space that has none. -/
theorem userPage_pushed {t : PageTable} (ok : PageTable.Ok A.toFrameAllocator 256 s t rest)
    (clear : leaf s.mem t.root 1 = 0) (room : 3 ≤ A.avail s) :
    ∃ f s' t', (userPage []).mapInto A.toFrameAllocator s t =
      some (.ok (), s', t', userPage [(1, f)]) ∧
      PageTable.Ok A.toFrameAllocator 256 s' t' (f ::ₘ rest) ∧ A.avail s ≤ A.avail s' + 3 := by
  obtain ⟨f, -, s', t', -, hmap, ok', -, -, -, -, havail⟩ :=
    Region.mapPage_room (r := userPage []) ok
    (show 1 < pages 256 by decide) (by decide) (by rw [clear]; rfl) room
  exact ⟨f, s', t', Region.mapInto_one rfl (by decide) (by decide) hmap, ok', havail⟩

theorem fork_copies_page : ∃ (s s' : Buddy.State) (sp child : AddressSpace) (f : Frame),
    sp.regions = [userPage [(1, f)]] ∧
      sp.duplicate Buddy.merging.toFrameAllocator s ⟨0, []⟩ = some (some child, s') ∧
      child.byteAt s'.mem 0x1000 = sp.byteAt s'.mem 0x1000 := by
  obtain ⟨s₀, -, holds₀, havail₀⟩ := Buddy.merging_boot
  obtain ⟨g, s₁, hg, havail₁⟩ := CountedAllocator.alloc_one holds₀ (by omega)
  have hroot : PageTable.new Buddy.merging.toFrameAllocator s₀ = (some ⟨g.ppn, [g]⟩, s₁) := by
    simp [PageTable.new, hg]
  have hnew : AddressSpace.new Buddy.merging.toFrameAllocator s₀ =
      (some ⟨⟨g.ppn, [g]⟩, []⟩, s₁) := by
    simp [AddressSpace.new, hroot]
  obtain ⟨ok, -, hleaf⟩ := PageTable.new_spec holds₀ (show 256 ≤ 512 by decide) hroot
  obtain ⟨f, s₂, t, hinto, ok₂, havail₂⟩ := userPage_pushed ok (hleaf 1 (by decide)) (by omega)
  have hpush : AddressSpace.push Buddy.merging.toFrameAllocator s₁
      ⟨⟨g.ppn, [g]⟩, []⟩ (userPage []) =
      some (.ok (), s₂, ⟨t, [userPage [(1, f)]]⟩) := by
    simp [AddressSpace.push, hinto]
  have built : Built Buddy.merging userMaxAddr s₂ ⟨t, [userPage [(1, f)]]⟩ 0 :=
    .push (.bare holds₀ hnew) (by decide) (by decide) userPage_new hpush
  obtain ⟨c, s₃, hc, havail₃⟩ := CountedAllocator.alloc_one ok₂.holds (by omega)
  have hnew' : AddressSpace.new Buddy.merging.toFrameAllocator s₂ =
      (some ⟨⟨c.ppn, [c]⟩, []⟩, s₃) := by
    simp [AddressSpace.new, PageTable.new, hc]
  obtain ⟨holds₄, exact, -, -, hleaf', havail₄, -⟩ := AddressSpace.new_spec ⟨0, []⟩ ok₂.holds hnew'
  obtain ⟨d, s₅, t', hinto', -⟩ := userPage_pushed (exact.toFormed.ok holds₄)
    (hleaf' 1 (by decide)) (by omega)
  have hdup : (⟨t, [userPage [(1, f)]]⟩ : AddressSpace).duplicate
      Buddy.merging.toFrameAllocator s₂ ⟨0, []⟩ =
      some (some ⟨t', [userPage [(1, d)]]⟩, { s₅ with
        mem := writeBytes s₅.mem (baseAddr d.ppn)
          (readBytes s₅.mem (baseAddr f.ppn) pageSize) }) := by
    rw [AddressSpace.duplicate, hnew']
    simp only [AddressSpace.duplicateFrom]
    rw [if_neg (by simp [userPage]), show (userPage _).start = 0x1000 from rfl,
      show (userPage _).end_ = 0x2000 from rfl,
      show (userPage _).perm = PteFlags.rw ||| PteFlags.user from rfl, userPage_new]
    simp only [Option.bind_eq_bind, Option.bind_some, hinto']
    simp [userPage, AddressSpace.copyFrames]
  obtain ⟨-, copied⟩ := fork_copies built hdup
  exact ⟨s₂, _, _, _, f, rfl, hdup, (copied _ rfl 0x1000 (by decide)).2.1⟩

/-! ## Regions of the upper half -/

/-- A pool of sixteen frames hands out its first two in order. -/
theorem sixteen_boot : ∃ s s' : Buddy.State,
    Buddy.State.init (fun _ => 0) 0x80400000 0x80810000 = some s ∧ Buddy.merging.Holds s 0 ∧
      Buddy.merging.avail s = 16 ∧ Buddy.merging.allocOrder s 0 = (some ⟨0x80800, 0⟩, s') ∧
      s'.pool.freeLists 0 = 1 ∧ s'.pool.base = 0x80800 := by
  have hup : alignUp (0x80400000 : Usize).val = some 0x80400000 := by decide
  obtain ⟨s, hs⟩ := Buddy.init_isSome (fun _ => 0) hup
    (show pageNum 0x80400000 < pageNum (alignDown (0x80810000 : Usize).val) by decide) (by decide)
  obtain ⟨-, -, hcount, hbase, htop, -⟩ := Buddy.init_spec hup hs
  have hbase : s.pool.base = 0x80800 := hbase.trans (by decide)
  have htop : s.pool.base + s.pool.frames = 0x80810 := htop.trans (by decide)
  have hframes : s.pool.frames = 16 := by omega
  obtain ⟨b, hseed, rep, -, hbase', htop'⟩ := Buddy.init_seed hup hs
  have hframes' : b.pool.frames = 16 := by
    have : b.pool.base = 0x80800 := hbase'.trans (by decide)
    have : b.pool.base + b.pool.frames = 0x80810 := htop'.trans (by decide)
    omega
  have empty : ∀ k ≤ Buddy.maxOrder, b.pool.freeLists k = Buddy.nil := fun k hk =>
    (rep.linked k hk).head_eq
  have hs' : s = b.push 4 0 := by
    have hdone : ¬ 0 + 2 ^ 4 < (b.push 4 0).pool.frames := by
      rw [Buddy.push_pool]
      simp [hframes']
    rw [hseed, hframes', Buddy.State.seed, hframes', if_pos (by decide),
      show Buddy.State.seedOrder 16 0 Buddy.maxOrder = 4 by decide]
    exact if_neg hdone
  have hnil : (0 : Nat) ≠ Buddy.nil := by
    unfold Buddy.nil
    decide
  obtain ⟨s', halloc, hbase₁, hhead⟩ := Buddy.alloc_from (s := s) (d := 4) (x := 0) (by decide)
    (fun j hj => by
      rw [hs', Buddy.push_pool]
      exact (Function.update_of_ne (Nat.ne_of_lt hj) _ _).trans (empty j (hj.le.trans (by decide))))
    (by
      rw [hs', Buddy.push_pool]
      exact Function.update_self 4 0 b.pool.freeLists) hnil
  rw [hbase] at halloc hbase₁
  exact ⟨s, s', hs, Buddy.merging_start hs (by decide), by simp [Buddy.merging, hframes, hcount],
    halloc, hhead (by decide), hbase₁⟩

/-- A superpage of the linear window, over the first frames of the pool. -/
def hugePage : Region :=
  ⟨virtOffset + 0x80800000, virtOffset + 0x80a00000, .linear, PteFlags.rw, []⟩

/-- A page past the lower half, with the table indices of `hugePage`. -/
def highPage (fs : List (Nat × Frame)) : Region :=
  ⟨0x4080800000, 0x4080801000, .framed, PteFlags.rw ||| PteFlags.user, fs⟩

theorem highPage_new : Region.new 0x4080800000 0x4080801000 .framed
    (PteFlags.rw ||| PteFlags.user) =
    some (highPage []) := rfl

/-- The kernel maps the pool by a superpage. -/
theorem huge_page_pushed : ∃ (s : Buddy.State) (kernel : AddressSpace) (q : Nat),
    Buddy.merging.Holds s (⟨0x80800, 0⟩ ::ₘ kernel.frames) ∧ Buddy.merging.avail s = 13 ∧
      s.pool.base = 0x80800 ∧ kernel.table.root = 0x80801 ∧
      (⟨kernel.table.root, 0⟩ : Frame) ∈ kernel.table.frames ∧
        (⟨q, 0⟩ : Frame) ∈ kernel.table.frames ∧
      node s.mem kernel.table.root [258] = some q ∧
      entry s.mem q 4 = Pte.new 0x80800 (PteFlags.present PteFlags.rw) := by
  obtain ⟨s₀, s₁, -, holds₀, havail₀, hf, hhead, hbase₁⟩ := sixteen_boot
  obtain ⟨-, holds₁, -⟩ := Buddy.merging.alloc_some holds₀ hf
  have havail₁ := Buddy.merging.alloc_avail holds₀ hf
  obtain ⟨s₂, hg, hbase₂, -⟩ := Buddy.alloc_from (s := s₁) (d := 0) (by decide) (by simp) hhead (by
    unfold Buddy.nil
    decide)
  rw [hbase₁] at hg hbase₂
  have havail₂ := Buddy.merging.alloc_avail holds₁ hg
  have hnew : AddressSpace.new Buddy.merging.toFrameAllocator s₁ =
      (some ⟨⟨0x80801, [⟨0x80801, 0⟩]⟩, []⟩, s₂) := by
    have hg : Buddy.merging.allocOrder s₁ 0 = (some ⟨0x80801, 0⟩, s₂) := hg
    simp [AddressSpace.new, PageTable.new, hg]
  obtain ⟨sound, -⟩ := AddressSpace.new_sound holds₁ hnew
  have hempty : entry s₂.mem 0x80801 258 = 0 := by
    obtain ⟨-, -, -, zeroed⟩ := Buddy.merging.alloc_some holds₁ hg
    exact zeroed.entry (by decide)
  simp only [Frame.count, Nat.pow_zero] at havail₁ havail₂
  obtain ⟨q, s₃, t, hpush, hroot, hnode, hentry, havail₃, f₃, s', hf₃, hpool⟩ :=
    AddressSpace.superpage_pushed sound (r := hugePage) (v := 0xffffffc080800) rfl (by decide)
      (by decide) (by decide) (by decide) (by decide) (by decide) (by decide) hempty (by omega)
  have hclear : hugePage.Clear 512 [] :=
    ⟨fun v _ _ => Nat.mod_lt _ (by decide), by simp, fun _ => by decide⟩
  obtain ⟨big, sound', -⟩ := AddressSpace.push_sound sound hclear
    ⟨by decide, by decide, by decide⟩ rfl hpush
  have tables := sound'.table.owns.tables
  have hnode : node s₃.mem t.root [258] = some q := by rw [hroot]; exact hnode
  refine ⟨s₃, _, q, ?_, by omega, ?_, hroot, tables.held [] _ sound'.table.root_within rfl,
    tables.held [258] q (sound'.table.short (show 258 < 512 by decide) (by decide)) hnode,
      hnode, hentry⟩
  · have holds := sound'.holds
    rwa [Multiset.add_cons, add_zero] at holds
  · obtain ⟨-, L, inv, -⟩ := sound.holds
    obtain ⟨-, -, hbase, -⟩ := inv.allocOrder hf₃
    rw [hpool, hbase, hbase₂]

/-- A space with one page past the lower half, in the first frame of the pool. -/
theorem high_page_built : ∃ (s : Buddy.State) (sp : AddressSpace) (kernel : AddressSpace) (q : Nat),
    Built Buddy.merging (2 ^ 64) s sp kernel.frames ∧
      sp.regions = [highPage [(0x4080800, ⟨0x80800, 0⟩)]] ∧
      2 ≤ Buddy.merging.avail s ∧
      PageTable.Ok Buddy.merging.toFrameAllocator 512 s sp.table (⟨0x80800, 0⟩ ::ₘ kernel.frames) ∧
      leaf s.mem sp.table.root 0x4080800 = Pte.new 0x80800 (PteFlags.present (highPage []).perm) ∧
      Zeroed ⟨0x80800, 0⟩ s.mem ∧
      (⟨kernel.table.root, 0⟩ : Frame) ∈ kernel.table.frames ∧
        (⟨q, 0⟩ : Frame) ∈ kernel.table.frames ∧
      node s.mem kernel.table.root [258] = some q ∧
      entry s.mem q 4 = Pte.new 0x80800 (PteFlags.present PteFlags.rw) := by
  obtain ⟨s₀, kernel, q, holds₀, havail₀, hbase₀, hkroot, hkr, hkq, hnode, hentry⟩ :=
    huge_page_pushed
  obtain ⟨f, s₁, hf, havail₁⟩ := CountedAllocator.alloc_one holds₀ (by omega)
  have hbase₁ : s₁.pool.base = 0x80800 := by
    obtain ⟨-, L, inv, -⟩ := holds₀
    obtain ⟨-, -, hbase, -⟩ := inv.allocOrder hf
    rw [hbase, hbase₀]
  have hroot : PageTable.new Buddy.merging.toFrameAllocator s₀ = (some ⟨f.ppn, [f]⟩, s₁) := by
    simp [PageTable.new, hf]
  have hnew : AddressSpace.new Buddy.merging.toFrameAllocator s₀ =
      (some ⟨⟨f.ppn, [f]⟩, []⟩, s₁) := by
    simp [AddressSpace.new, hroot]
  obtain ⟨ok, kept₁, hleaf⟩ := PageTable.new_spec holds₀ (Nat.le_refl 512) hroot
  have holds₁ : Buddy.merging.Holds s₁ (⟨s₁.pool.base + 0, 0⟩ ::ₘ (f ::ₘ kernel.frames)) := by
    rw [hbase₁]
    simpa using ok.holds
  have hbuddy : (⟨s₁.pool.base + (0 ^^^ 1), 0⟩ : Frame) ∈ f ::ₘ kernel.frames := by
    rw [hbase₁, show 0x80800 + (0 ^^^ 1) = kernel.table.root from hkroot.symm]
    exact Multiset.mem_cons_of_mem (Multiset.mem_add.mpr (.inl hkr))
  obtain ⟨s₂, s₃, hfree, holds₂, kept₂, havail₂, hagain⟩ := Buddy.merging_again holds₁ hbuddy
  rw [hbase₁] at hagain
  have keptT : Kept ([f] : List Frame) s₁.mem s₂.mem :=
    kept₂.mono (Multiset.singleton_le.mpr (Multiset.mem_cons_self f _))
  have keptK : Kept kernel.frames s₁.mem s₂.mem := kept₂.mono (Multiset.le_cons_self _ _)
  have ok₂ : PageTable.Ok Buddy.merging.toFrameAllocator 512 s₂ ⟨f.ppn, [f]⟩ kernel.frames :=
    ⟨by simpa using holds₂, ok.tree.kept keptT⟩
  have hv : 0x4080800 < pages 512 := by decide
  have hclear : Pte.isValid (leaf s₂.mem f.ppn 0x4080800) = false := by
    rw [ok.tree.leaf_kept keptT hv, hleaf _ hv]
    rfl
  obtain ⟨g, _, s', t, hg, hmap, ok', hroot', kept', zeroed, hword, havail'⟩ :=
    Region.mapPage_room (r := highPage []) ok₂ hv (by decide) hclear (by omega)
  obtain rfl : g = ⟨0x80800, 0⟩ := by
    rw [hagain] at hg
    simpa using (Prod.mk.inj hg).1.symm
  have hpush : AddressSpace.push Buddy.merging.toFrameAllocator s₂
      ⟨⟨f.ppn, [f]⟩, []⟩ (highPage []) =
      some (.ok (), s', ⟨t, [highPage [(0x4080800, ⟨0x80800, 0⟩)]]⟩) := by
    have hinto : (highPage []).mapInto Buddy.merging.toFrameAllocator s₂ ⟨f.ppn, [f]⟩ =
        some (.ok (), s', t, highPage [(0x4080800, ⟨0x80800, 0⟩)]) :=
      Region.mapInto_one rfl (by decide) (by decide) hmap
    simp [AddressSpace.push, hinto]
  have built : Built Buddy.merging (2 ^ 64) s₂ ⟨⟨f.ppn, [f]⟩, []⟩ kernel.frames :=
    .others (.bare holds₀ hnew) (by simpa [AddressSpace.frames, AddressSpace.owned] using holds₂)
      (by simpa [AddressSpace.frames, AddressSpace.owned] using keptT)
  have keptAll : Kept kernel.table.frames s₀.mem s'.mem :=
    ((kept₁.mono (Multiset.le_cons_self _ _)).trans (keptK.trans kept')).mono
      (Multiset.le_add_right _ _)
  refine ⟨s', _, kernel, q, .push built (by decide) (by decide) highPage_new hpush,
    rfl, by omega, ok', ?_,
    zeroed, hkr, hkq, ?_, ?_⟩
  · rw [← hword, ← hroot']
  · rw [← hnode]
    simp only [node, tableBelow, Option.bind_some]
    rw [entry_held hkr keptAll (by decide)]
  · rw [entry_held hkq keptAll (by decide)]
    exact hentry

/-- The first byte of an entry has the flags. -/
theorem leafAt_first (m : Mem) (q ppn flags : Nat) :
    leafAt m q 0 ppn flags (baseAddr q) = UInt8.ofNat (PteFlags.present flags) := by
  have hbyte : leafAt m q 0 ppn flags (baseAddr q) =
      UInt8.ofNat (Pte.new ppn (PteFlags.present flags)) := by
    simp [leafAt, write64, writeLE, slot]
  have hlow : ppn <<< 10 % 2 ^ 64 % 2 ^ 8 = 0 := by
    rw [Nat.shiftLeft_eq]
    omega
  rw [hbyte, ← UInt8.toNat_inj, UInt8.toNat_ofNat', UInt8.toNat_ofNat', Pte.new, Nat.or_mod_two_pow,
    hlow, Nat.zero_or]

/-- The copy of the page goes through the kernel's superpage: `map` takes the
parent's own page for a table and writes the entry there. -/
theorem fork_above_lower_half : ∃ (s s' : Buddy.State) (sp kernel child : AddressSpace),
    Built Buddy.merging (2 ^ 64) s sp kernel.frames ∧
      sp.duplicate Buddy.merging.toFrameAllocator s kernel.table = some (some child, s') ∧
      sp.byteAt s.mem 0x4080800000 = some 0 ∧ sp.byteAt s'.mem 0x4080800000 = some 0xd7 := by
  obtain ⟨s, sp, kernel, q, built, hregions, havail, ok, hword, zeroed, hkr, hkq, hnode, hentry⟩ :=
    high_page_built
  generalize hlive : sp.table.frames + (⟨0x80800, 0⟩ ::ₘ kernel.frames) = live at ok
  have hpage : (⟨0x80800, 0⟩ : Frame) ∈ live := by simp [← hlive]
  have hkernel : ∀ p, (⟨p, 0⟩ : Frame) ∈ kernel.table.frames →
      (⟨p, 0⟩ : Frame) ∈ live := fun p hp => by
    rw [← hlive]
    exact Multiset.mem_add.mpr (.inr (Multiset.mem_cons_of_mem (Multiset.mem_add.mpr (.inl hp))))
  have holds : Buddy.merging.Holds s live := hlive ▸ ok.holds
  obtain ⟨c, s₁, hc, havail₁⟩ := CountedAllocator.alloc_one holds (by omega)
  obtain ⟨corder, -, kept₁, -⟩ := Buddy.merging.alloc_some holds hc
  have hnew : AddressSpace.new Buddy.merging.toFrameAllocator s =
      (some ⟨⟨c.ppn, [c]⟩, []⟩, s₁) := by
    simp [AddressSpace.new, PageTable.new, hc]
  obtain ⟨holds₂, -, -, kept₂, -, havail₂, -⟩ := AddressSpace.new_spec kernel.table holds hnew
  generalize hs₂ : AddressSpace.mapKernelHalf s₁ ⟨⟨c.ppn, [c]⟩, []⟩ kernel.table =
    s₂ at holds₂ kept₂ havail₂
  obtain ⟨g, s₃, hg, -⟩ := CountedAllocator.alloc_one holds₂ (by omega)
  obtain ⟨gorder, holds₃, kept₃, -⟩ := Buddy.merging.alloc_some holds₂ hg
  have kept : Kept live s.mem s₃.mem := kept₂.trans (kept₃.mono (Multiset.le_add_left _ _))
  have hchild : entry s₃.mem c.ppn 258 = entry s.mem kernel.table.root 258 := by
    have hroot : (⟨c.ppn, 0⟩ : Frame) ∈ (⟨⟨c.ppn, [c]⟩, []⟩ : AddressSpace).frames + live := by
      rw [← corder]
      simp [AddressSpace.frames]
    rw [entry_held hroot kept₃ (by decide), ← hs₂]
    exact (AddressSpace.entry_shareUpperHalf _ _ _ (by decide) (by decide)).trans
      (entry_held (hkernel _ hkr) kept₁ (by decide))
  have hnode₃ : node s₃.mem c.ppn [258] = some q := by
    rw [← hnode]
    simp only [node, tableBelow, Option.bind_some]
    rw [hchild]
  have hentry₃ : entry s₃.mem q 4 = Pte.new 0x80800 (PteFlags.present PteFlags.rw) :=
    (entry_held (hkernel _ hkq) kept (by decide)).trans hentry
  have hzero₃ : entry s₃.mem 0x80800 0 = 0 := by
    rw [entry_held hpage kept (by decide)]
    exact zeroed.entry (by decide)
  have hmap := map_through (A := Buddy.merging.toFrameAllocator) (t := ⟨c.ppn, [c]⟩) (p := 0x80800)
    g.ppn (highPage []).perm (show node s₃.mem c.ppn [rootIndex 0x4080800] = some q from hnode₃)
    (by rw [show 0x4080800 / 2 ^ 9 % 512 = 4 by decide, hentry₃]; decide)
    (by rw [show 0x4080800 / 2 ^ 9 % 512 = 4 by decide, hentry₃]; decide)
    (by rw [show 0x4080800 % 512 = 0 by decide, hzero₃]; rfl)
  have hinto : (highPage []).mapInto Buddy.merging.toFrameAllocator s₂ ⟨c.ppn, [c]⟩ =
      some (.ok (), { s₃ with mem := leafAt s₃.mem 0x80800 0 g.ppn (highPage []).perm },
        ⟨c.ppn, [c]⟩,
        highPage [(0x4080800, g)]) := by
    refine Region.mapInto_one (v := 0x4080800) rfl (by decide) (by decide) ?_
    simp only [Region.mapPage, hg, hmap]
    rfl
  generalize hm₄ : leafAt s₃.mem 0x80800 0 g.ppn (highPage []).perm = m₄ at hinto
  have hdup : sp.duplicate Buddy.merging.toFrameAllocator s kernel.table =
      some (some ⟨⟨c.ppn, [c]⟩, [highPage [(0x4080800, g)]]⟩, { s₃ with
        mem := writeBytes m₄ (baseAddr g.ppn) (readBytes m₄ (baseAddr 0x80800) pageSize) }) := by
    rw [AddressSpace.duplicate, hnew, hregions]
    simp only [hs₂, AddressSpace.duplicateFrom]
    rw [if_neg (by simp [highPage]), show (highPage _).start = 0x4080800000 from rfl,
      show (highPage _).end_ = 0x4080801000 from rfl,
      show (highPage _).perm = PteFlags.rw ||| PteFlags.user from rfl, highPage_new]
    simp only [Option.bind_eq_bind, Option.bind_some, hinto]
    simp [highPage, AddressSpace.copyFrames]
  have hbyte : ∀ m, Tree 512 m sp.table.root sp.table.frames →
      leaf m sp.table.root 0x4080800 = Pte.new 0x80800 (PteFlags.present (highPage []).perm) →
      sp.byteAt m 0x4080800000 = some (m (baseAddr 0x80800)) := fun m tree hm => by
    rw [AddressSpace.byteAt, translateAddr, show pageNum 0x4080800000 = 0x4080800 by decide,
      translate_eq tree (by decide), hm, if_pos (by decide)]
    rfl
  have apart : ∀ a, 0 < framesOver live (pageNum a) → m₄ a = writeBytes m₄ (baseAddr g.ppn)
      (readBytes m₄ (baseAddr 0x80800) pageSize) a := fun a ha => by
    have hover := Buddy.merging.apart holds₃ (pageNum a)
    rw [framesOver_cons, framesOver_add] at hover
    have hne : pageNum a ≠ g.ppn := fun e => by
      rw [e, gorder, Blocks.cover_eq_one (Nat.le_refl _) (Nat.lt_add_one _), ← e] at hover
      omega
    refine (writeBytes_apart m₄ ?_).symm
    rw [length_readBytes]
    simp only [baseAddr, pageNum, pageSize] at *
    omega
  have keptT : Kept sp.table.frames s.mem
      (writeBytes m₄ (baseAddr g.ppn) (readBytes m₄ (baseAddr 0x80800) pageSize)) := by
    intro a ha
    have hin : 0 < framesOver live (pageNum a) := by
      rw [← hlive, framesOver_add]
      omega
    have hne : pageNum a ≠ 0x80800 := fun e => by
      have hover := Buddy.merging.apart holds (pageNum a)
      rw [← hlive, framesOver_add, framesOver_cons, e,
        Blocks.cover_eq_one (Nat.le_refl _) (Nat.lt_add_one _), ← e] at hover
      omega
    rw [← apart a hin, ← hm₄, ← kept a hin]
    refine write64_apart s₃.mem _ ?_
    simp only [slot, baseAddr, pageNum, pageSize] at *
    omega
  refine ⟨s, _, sp, kernel, _, built, hdup, ?_, ?_⟩
  · rw [hbyte s.mem ok.tree hword]
    exact congrArg some (zeroed _ (by decide) (by decide))
  · rw [hbyte _ (ok.tree.kept keptT) ((ok.tree.leaf_kept keptT (by decide)).trans hword),
      ← apart _ (frame_held hpage (by decide)), ← hm₄]
    exact congrArg some (leafAt_first s₃.mem 0x80800 g.ppn _)

end AlexOS
