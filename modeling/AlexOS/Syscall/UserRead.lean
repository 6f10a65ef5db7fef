import AlexOS.Syscall.BadPointer
import AlexOS.Task.Heap

/-!
# What the kernel reads for a process

`copy_from_user` asks only whether an address has an entry, not what the entry allows.
Stack and heap are readable, so the kernel reads nothing the process could not read
itself exactly when every segment of the image that has a page asked for `PF_R`.
-/

namespace AlexOS

open Bytes PageTable AddressSpace UserPointers

variable {σ : Type} {A : CountedAllocator σ} {s s' : Phys σ} {m m' : Mem} {p : Process}
  {sp sp' : AddressSpace} {r : Region} {rest : Multiset Frame} {kernel : PageTable}
  {image : List UInt8} {w w' : Heap σ}

/-- The bytes a read needs are bytes the process may read. -/
structure Process.ReadsOwn (m : Mem) (p : Process) (sp : AddressSpace) : Prop where
  copy : ∀ va len bs, sp.copyFromUser m va len = some bs → (sp.view m).Grants readable va len
  cstr : ∀ va max str, sp.readCstr m va max = some str →
    (sp.view m).Grants readable va (str.length + 1)
  write : ∀ fd ptr len, 0 ≤ sysWrite m p fd ptr len → (sp.view m).Grants readable ptr len

def UserView.Readable (v : UserView) : Prop :=
  ∀ a x, v a = some x → PteFlags.contains x.1 readable = true

theorem UserView.Readable.grants {v : UserView} (h : v.Readable) {va : Nat} {bs : List UInt8}
    (reads : v.Reads va bs) : v.Grants readable va bs.length := by
  intro a lo hi
  have hbyte := reads (a - va) (by omega)
  rw [Nat.add_sub_cancel' lo] at hbyte
  obtain ⟨x, hx, -⟩ := Option.map_eq_some_iff.mp hbyte
  exact ⟨x, hx, h a x hx⟩

theorem UserView.Readable.readsOwn (h : (sp.view m).Readable) (space : p.space = some sp) :
    p.ReadsOwn m sp := by
  have copy : ∀ va len bs, sp.copyFromUser m va len = some bs →
      (sp.view m).Grants readable va len := by
    intro va len bs heq
    obtain ⟨rfl, reads⟩ := copyFromUser_iff.mp heq
    exact h.grants reads
  refine ⟨copy, fun va max str heq => ?_, fun fd ptr len hret => ?_⟩
  · obtain ⟨got, cstr, rfl, -⟩ := readCstrFrom_some heq
    have := h.grants cstr.2
    rwa [List.length_append] at this
  · rcases hbuf : sp.copyFromUser m ptr len with _ | bs
    · simp only [sysWrite, space, Option.bind_some, hbuf] at hret
      split_ifs at hret <;> exact absurd hret (by decide)
    · exact copy ptr len bs hbuf

/-! ## Spaces all of whose pages are readable -/

structure AddressSpace.AllReadable (m : Mem) (sp : AddressSpace) : Prop where
  regions : ∀ r ∈ sp.regions, r.frames ≠ [] →
    PteFlags.contains (PteFlags.present r.perm) readable = true
  leaves : ∀ v, v < pages 256 → Pte.isValid (leaf m sp.table.root v) = true →
    PteFlags.contains (Pte.flags (leaf m sp.table.root v)) readable = true

theorem AddressSpace.AllReadable.view (h : sp.AllReadable m) (formed : sp.Formed m) :
    (sp.view m).Readable := by
  intro a x hx
  rw [AddressSpace.view] at hx
  split_ifs at hx with ha
  rw [translate_eq formed.tree (pageNum_low ha)] at hx
  split_ifs at hx with hvalid
  · rw [← Option.some.inj hx]
    exact h.leaves _ (pageNum_low ha) hvalid
  · cases hx

theorem AddressSpace.Exact.allReadable (h : sp.Exact m)
    (regions : ∀ r ∈ sp.regions, r.frames ≠ [] →
      PteFlags.contains (PteFlags.present r.perm) readable = true) : sp.AllReadable m := by
  refine ⟨regions, fun v hv hvalid => ?_⟩
  obtain ⟨r, hr, f, he⟩ := h.owner v hv hvalid
  have u := h.regions r hr
  rw [h.word r hr _ he, Pte.flags_new _ (PteFlags.present_lt u.perm)]
  exact regions r hr (List.ne_nil_of_mem he)

/-- Mapping readable pages leaves no other kind behind, even when it fails. -/
theorem AddressSpace.AllReadable.push (h : sp.AllReadable s.mem) (formed : sp.Formed s.mem)
    (holds : A.Holds s (sp.frames + rest)) (u : r.User) (empty : r.frames = [])
    (hr : PteFlags.contains (PteFlags.present r.perm) readable = true)
    {res : Except MapError Unit} (heq : push A.toFrameAllocator s sp r = some (res, s', sp')) :
    sp'.AllReadable s'.mem := by
  obtain ⟨res₁, s₁, sp₁, new, heq₁, -, formed', -, root, -, entries, others, out⟩ :=
    push_leaves holds formed u empty
  obtain ⟨rfl, rfl, rfl⟩ := Option.some.inj (heq.symm.trans heq₁)
  refine ⟨fun r' hr' hne => ?_, fun v hv hvalid => ?_⟩
  · rcases out with ⟨-, -, -, hregions⟩ | ⟨-, -, -, -, hregions⟩ <;> rw [hregions] at hr'
    · rcases List.mem_append.mp hr' with hr' | hr'
      · exact h.regions r' hr' hne
      · rw [List.mem_singleton.mp hr']
        exact hr
    · exact h.regions r' hr' hne
  · rw [root] at hvalid ⊢
    by_cases hnew : v ∈ new.map Prod.fst
    · obtain ⟨e, he, rfl⟩ := List.mem_map.mp hnew
      obtain ⟨-, -, hword⟩ := entries e he
      rw [hword, Pte.flags_new _ (PteFlags.present_lt u.perm)]
      exact hr
    · rw [others v hv hnew] at hvalid ⊢
      exact h.leaves v hv hvalid

/-! ## Runs -/

namespace Heap

theorem Step.allReadable (h : Step A kernel w () w')
    (backed : w.proc.Backed A w.phys sp w.rest w.base) (readable_ : sp.AllReadable w.phys.mem) :
    ∃ sp', w'.proc.space = some sp' ∧ sp'.AllReadable w'.phys.mem := by
  cases h with
  | @sbrk delta res s p heq =>
    rcases adjustBrk_cases A.toFrameAllocator w.phys w.proc delta with
      ⟨res, brk, heq', -⟩ | ⟨_, new, r, hspace, -, -, -, hr, heq'⟩
    · obtain ⟨rfl, rfl, rfl⟩ := Option.some.inj (heq.symm.trans heq')
      exact ⟨sp, backed.space, readable_⟩
    obtain rfl := Option.some.inj (hspace.symm.trans backed.space)
    obtain ⟨⟨out, s₁, sp₁⟩, hpush, hout⟩ := Option.map_eq_some_iff.mp (heq'.symm.trans heq)
    have after := readable_.push backed.agrees.toFormed backed.formed.space_holds hr.user hr.empty
      (by rw [hr.perm]; decide) hpush
    rcases out with e | ⟨⟩ <;> cases hout <;> exact ⟨sp₁, rfl, after⟩
  | @fork mach child k s b heq =>
    obtain ⟨⟨-, exact'⟩, -⟩ := forkFrom_spec backed.holds backed.formed.users heq
    obtain ⟨⟨m, copies⟩, -⟩ := backed.formed.forkFrom_copies backed.agrees.whole heq
    refine ⟨child, rfl, exact'.allReadable fun c hc hne => ?_⟩
    obtain ⟨r, hr, copy⟩ := forall₂_mem_right copies hc
    rw [copy.perm]
    refine readable_.regions r hr fun hnil => hne ?_
    have := copy.pages
    rw [hnil] at this
    exact List.forall₂_nil_left_iff.mp this
  | @other s rest holds kept =>
    refine ⟨sp, backed.space, readable_.regions, fun v hv hvalid => ?_⟩
    have hleaf := backed.agrees.tree.leaf_kept (kept sp backed.space) hv
    rw [hleaf] at hvalid ⊢
    exact readable_.leaves v hv hvalid

theorem Reach.allReadable {w₀ : Heap σ} (start : w₀.proc.space = some sp)
    (readable_ : sp.AllReadable w₀.phys.mem) (h : Reach ((system A kernel).startAt w₀) w) :
    ∃ sp', w.proc.space = some sp' ∧ sp'.AllReadable w.phys.mem := by
  induction h with
  | init hs =>
    obtain rfl := hs.2
    exact ⟨sp, start, readable_⟩
  | step a hr hstep ih =>
    obtain ⟨sp', hspace, after⟩ := ih
    obtain ⟨_, backed⟩ := Reach.backed hr.of_startAt
    obtain rfl := Option.some.inj (hspace.symm.trans backed.space)
    exact Step.allReadable hstep backed after

end Heap

theorem Loader.Segment.readable_iff (g : Loader.Segment) :
    PteFlags.contains (PteFlags.present g.perm) readable = true ↔ g.flags &&& Loader.pfR ≠ 0 := by
  rw [Loader.Segment.perm]
  split <;> split <;> split <;> simp_all <;> decide

/-- A page of a segment has the permissions of the segment, and the kernel reads it. -/
theorem Heap.Created.page (created : Heap.Created A kernel image w) {ph v : Nat}
    (hph : ph ∈ Loader.loads image) (hv : v ∈ Loader.spanPages image ph) :
    ∃ sp b, w.proc.space = some sp ∧ sp.copyFromUser w.phys.mem (baseAddr v) 1 = some [b] ∧
      sp.view w.phys.mem (baseAddr v) =
        some (PteFlags.present (Loader.segmentAt image ph).perm, b) := by
  obtain ⟨args, i, s, s', live, holds, hprep, space, ok, -⟩ := created.prepared
  obtain ⟨m, rs, stack, hregions, loaded, -⟩ := prepare_regions holds hprep
  obtain ⟨r, hr, hold⟩ := forall₂_mem_left loaded hph
  obtain ⟨⟨v, f⟩, he, rfl⟩ := List.mem_map.mp (hold.mem_keys.mpr hv)
  have hmem : r ∈ i.space.regions := hregions ▸ List.mem_append_left _ hr
  have he' : (pageNum (baseAddr v), f) ∈ r.frames := by rwa [pageNum_baseAddr]
  have hview := (ok.exact i.space space).view_page hmem he'
  rw [hold.perm] at hview
  refine ⟨i.space, _, space, copyFromUser_iff.mpr ⟨rfl, ?_⟩, hview⟩
  exact UserView.Reads.cons.mpr ⟨by rw [hview]; rfl, .nil _ _⟩

theorem reads_own_iff (created : Heap.Created A kernel image w) :
    (∀ w', Reach ((Heap.system A kernel).startAt w) w' → ∀ sp, w'.proc.space = some sp →
      w'.proc.ReadsOwn w'.phys.mem sp) ↔
    ∀ ph ∈ Loader.loads image, Loader.spanPages image ph ≠ [] →
      Loader.pFlags image ph &&& Loader.pfR ≠ 0 := by
  constructor
  · intro own ph hph hne
    obtain ⟨v, hv⟩ := List.exists_mem_of_ne_nil _ hne
    obtain ⟨sp, b, space, hcopy, hview⟩ := created.page hph hv
    have reads := (own w (.init ⟨⟨image, created⟩, rfl⟩) sp space).copy _ _ _ hcopy
    obtain ⟨x, hx, hgrant⟩ := reads _ le_rfl (Nat.lt_succ_self _)
    rw [← Option.some.inj (hview.symm.trans hx)] at hgrant
    exact (Loader.segmentAt image ph).readable_iff.mp hgrant
  · intro asked w' run sp hspace
    obtain ⟨args, i, s, s', live, holds, hprep, space, ok, -⟩ := created.prepared
    obtain ⟨m, rs, stack, hregions, loaded, -, hstack⟩ := prepare_regions holds hprep
    have regions : ∀ r ∈ i.space.regions, r.frames ≠ [] →
        PteFlags.contains (PteFlags.present r.perm) readable = true := by
      intro r hr hne
      rw [hregions, List.mem_append, List.mem_singleton] at hr
      rcases hr with hr | rfl
      · obtain ⟨ph, hph, hold⟩ := forall₂_mem_right loaded hr
        obtain ⟨e, he⟩ := List.exists_mem_of_ne_nil _ hne
        rw [hold.perm]
        exact (Loader.segmentAt image ph).readable_iff.mpr
          (asked ph hph (List.ne_nil_of_mem (hold.mem_keys.mp (List.mem_map_of_mem he))))
      · rw [hstack]
        decide
    obtain ⟨sp', hspace', after⟩ :=
      Heap.Reach.allReadable space ((ok.exact i.space space).allReadable regions) run
    obtain ⟨_, backed⟩ := Heap.Reach.backed run.of_startAt
    obtain rfl := Option.some.inj (hspace.symm.trans hspace')
    obtain rfl := Option.some.inj (hspace.symm.trans backed.space)
    exact (after.view backed.agrees.toFormed).readsOwn hspace

/-- The small program writes out the first byte of its code, and reads only its own. -/
theorem small_image_reads_own : ∃ (w : Heap Buddy.BuddyAllocator) (sp : AddressSpace),
    Heap.Created Buddy.merging ⟨0, []⟩ Loader.smallImage w ∧ w.proc.space = some sp ∧
      sysWrite w.phys.mem w.proc Nr.stdout 0x1000 1 = 1 ∧
      ∀ w', Reach ((Heap.system Buddy.merging ⟨0, []⟩).startAt w) w' → ∀ sp',
        w'.proc.space = some sp' → w'.proc.ReadsOwn w'.phys.mem sp' := by
  obtain ⟨w, created⟩ := page_created Loader.smallImage_accepts smallImage_pages (by decide)
  obtain ⟨sp, b, space, hcopy, -⟩ := created.page
    (show 64 ∈ Loader.loads Loader.smallImage by decide)
    (show 1 ∈ Loader.spanPages Loader.smallImage 64 by decide)
  have hcopy : sp.copyFromUser w.phys.mem 0x1000 1 = some [b] := hcopy
  refine ⟨w, sp, created, space, ?_, (reads_own_iff created).mpr (by decide)⟩
  simp only [sysWrite, space, Option.bind_some, hcopy]
  decide

/-- The small image with a segment that may only be executed. -/
def executeOnlyImage : List UInt8 := Loader.smallImage.set 68 1

theorem executeOnlyImage_accepts : Loader.Accepts executeOnlyImage := by
  have hlength : executeOnlyImage.length = 124 := by
    simp only [executeOnlyImage, List.length_set, Loader.smallImage_length]
  exact Loader.accepts_one
    ⟨by rw [hlength]; decide, by decide, by decide, by decide, by decide, by decide⟩
    (show Loader.headers executeOnlyImage = [64] by decide) (by decide)
    ⟨by rw [hlength]; decide, by decide, by decide, by decide, by rw [hlength]; decide⟩

/-- The kernel writes out an instruction of a program that cannot read it. -/
theorem writes_execute_only : ∃ (w : Heap Buddy.BuddyAllocator) (sp : AddressSpace) (b : UInt8)
    (flags : Nat), Heap.Created Buddy.merging ⟨0, []⟩ executeOnlyImage w ∧ w.proc.space = some sp ∧
      sp.copyFromUser w.phys.mem 0x1000 1 = some [b] ∧
      sysWrite w.phys.mem w.proc Nr.stdout 0x1000 1 = 1 ∧
      sp.view w.phys.mem 0x1000 = some (flags, b) ∧
      PteFlags.contains flags PteFlags.read = false := by
  obtain ⟨w, created⟩ := page_created executeOnlyImage_accepts
    (show Loader.imagePages executeOnlyImage = [1] by decide) (by decide)
  obtain ⟨sp, b, space, hcopy, hview⟩ := created.page
    (show 64 ∈ Loader.loads executeOnlyImage by decide)
    (show 1 ∈ Loader.spanPages executeOnlyImage 64 by decide)
  have hcopy : sp.copyFromUser w.phys.mem 0x1000 1 = some [b] := hcopy
  refine ⟨w, sp, b, _, created, space, hcopy, ?_, hview, by decide⟩
  simp only [sysWrite, space, Option.bind_some, hcopy]
  decide

end AlexOS
