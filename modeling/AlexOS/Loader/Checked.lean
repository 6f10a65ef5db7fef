import AlexOS.Loader.Image
import AlexOS.Mm.Checked

/-!
# The loader with overflow checks on

`load` once more with every sum, product, difference and slice of the source as the
checked one: a sum that does not fit into a word panics, and so does a slice past the
end. The fields of the image are arbitrary, yet nothing panics, because each unchecked
sum comes after a check that bounds it: `phoff + i * phentsize` is small once the
first program header has been read.
-/

namespace AlexOS

open Bytes Checked

variable {σ : Type}

/-! ## The image -/

/-- A byte slice; none is longer than `isize::MAX`. -/
structure Slice where
  bytes : List UInt8
  short : bytes.length < 2 ^ 63

namespace Loader

/-- The read of `read_int!`, with its `copy_from_slice` into a buffer of `n` bytes. -/
def readIntChecked (image : Slice) (n off : Nat) : Fallible LoadError Nat := do
  let last ← okOr (add 64 off n) .truncated
  if image.bytes.length < last then throw .truncated
  let bytes ← lift (slice image.bytes off last)
  if bytes.length ≠ n then lift none
  return leValue bytes

def readHeaderChecked (image : Slice) : Fallible LoadError Header := do
  if image.bytes.length < 64 then throw .truncated
  let magic ← lift (slice image.bytes 0 4)
  if magic ≠ elfMagic then throw .badMagic
  let ident ← lift image.bytes[4]?
  if ident ≠ elfClass64 then throw .wrongFormat
  let encoding ← lift image.bytes[5]?
  if encoding ≠ elfData2Lsb then throw .wrongFormat
  let type ← readIntChecked image 2 16
  let machine ← readIntChecked image 2 18
  if type ≠ etExec ∨ machine ≠ emRiscv then throw .wrongFormat
  let entry ← readIntChecked image 8 24
  let phoff ← readIntChecked image 8 32
  let phentsize ← readIntChecked image 2 54
  let phnum ← readIntChecked image 2 56
  return ⟨entry, phoff, phentsize, phnum⟩

/-- The `i`-th program header. The sums with `ph` are not checked by the source. -/
def readSegmentChecked (image : Slice) (h : Header) (i : Nat) :
    Fallible LoadError (Option Segment) := do
  let offset ← lift (mul 64 i h.phentsize)
  let ph ← lift (add 64 h.phoff offset)
  let type ← readIntChecked image 4 ph
  if type ≠ ptLoad then return none
  let flags ← readIntChecked image 4 (← lift (add 64 ph 4))
  let offset ← readIntChecked image 8 (← lift (add 64 ph 8))
  let vaddr ← readIntChecked image 8 (← lift (add 64 ph 16))
  let filesz ← readIntChecked image 8 (← lift (add 64 ph 32))
  let memsz ← readIntChecked image 8 (← lift (add 64 ph 40))
  if memsz < filesz then throw .badSegment
  let last ← okOr (add 64 vaddr memsz) .badAddress
  if userMaxAddr < last ∨ vaddr < pageSize then throw .badAddress
  let fileEnd ← okOr (add 64 offset filesz) .truncated
  if image.bytes.length < fileEnd then throw .truncated
  let data ← lift (slice image.bytes offset fileEnd)
  return some ⟨flags, vaddr, last, data⟩

section
variable {image : Slice} {n off : Nat}

theorem readIntChecked_eq : (readIntChecked image n off).run =
    some (readInt image.bytes n off) := by
  have short := image.short
  rw [readIntChecked, readInt]
  by_cases hlast : off + n < 2 ^ 64
  swap
  · rw [add_none (by omega), if_pos (by omega)]
    rfl
  rw [add_some hlast]
  by_cases inside : image.bytes.length < off + n
  · rw [if_pos inside]
    simp only [okOr, pure_bind, if_pos inside]
    rfl
  · simp only [okOr, pure_bind, if_neg inside]
    refine run_bind_lift (slice_some (Nat.le_add_right _ _) (Nat.not_lt.mp inside)) ?_
    rw [Nat.add_sub_cancel_left, if_neg (by simp; omega)]
    rfl

theorem readInt_ok {image : List UInt8} {v : Nat} (h : readInt image n off = .ok v) :
    off + n ≤ image.length := by
  rw [readInt] at h
  split_ifs at h with inside
  exact Nat.not_lt.mp inside

theorem readHeaderChecked_eq : (readHeaderChecked image).run = some (readHeader image.bytes) := by
  rw [readHeaderChecked, readHeader]
  by_cases hlength : image.bytes.length < 64
  · simp only [if_pos hlength]
    rfl
  simp only [if_neg hlength]
  refine run_bind_lift (slice_some (Nat.zero_le _) (by omega)) ?_
  rw [List.drop_zero, Nat.sub_zero]
  by_cases hmagic : image.bytes.take 4 ≠ elfMagic
  · simp only [if_pos hmagic]
    rfl
  simp only [if_neg hmagic]
  have at4 : image.bytes[4]? = some (image.bytes.getD 4 0) := by
    rw [List.getD_eq_getElem?_getD, List.getElem?_eq_getElem (by omega), Option.getD_some]
  have at5 : image.bytes[5]? = some (image.bytes.getD 5 0) := by
    rw [List.getD_eq_getElem?_getD, List.getElem?_eq_getElem (by omega), Option.getD_some]
  refine run_bind_lift at4 ?_
  by_cases hclass : image.bytes.getD 4 0 ≠ elfClass64
  · rw [if_pos hclass, if_pos (Or.inl hclass)]
    rfl
  rw [if_neg hclass]
  refine run_bind_lift at5 ?_
  by_cases hdata : image.bytes.getD 5 0 ≠ elfData2Lsb
  · rw [if_pos hdata, if_pos (Or.inr hdata)]
    rfl
  rw [if_neg hdata, if_neg (not_or.mpr ⟨hclass, hdata⟩)]
  refine run_bind readIntChecked_eq fun type _ => run_bind readIntChecked_eq fun machine _ => ?_
  by_cases hformat : type ≠ etExec ∨ machine ≠ emRiscv
  · simp only [if_pos hformat]
    rfl
  simp only [if_neg hformat]
  exact run_bind readIntChecked_eq fun _ _ => run_bind readIntChecked_eq fun _ _ =>
    run_bind readIntChecked_eq fun _ _ => run_bind readIntChecked_eq fun _ _ => rfl

/-- Once the type has been read, the other fields are near it and their addresses fit. -/
theorem readSegmentChecked_eq {h : Header} {i : Nat} (fits : h.phoff + i * h.phentsize < 2 ^ 64) :
    (readSegmentChecked image h i).run =
      some (readSegment image.bytes (h.phoff + i * h.phentsize)) := by
  have short := image.short
  rw [readSegmentChecked, readSegment]
  refine run_bind_lift (mul_some (by omega)) (run_bind_lift (add_some fits) ?_)
  generalize h.phoff + i * h.phentsize = ph
  refine run_bind readIntChecked_eq fun type htype => ?_
  have inside := readInt_ok htype
  by_cases hload : type ≠ ptLoad
  · simp only [if_pos hload]
    rfl
  simp only [if_neg hload]
  refine run_bind_lift (add_some (by omega)) (run_bind readIntChecked_eq fun flags _ => ?_)
  refine run_bind_lift (add_some (by omega)) (run_bind readIntChecked_eq fun offset _ => ?_)
  refine run_bind_lift (add_some (by omega)) (run_bind readIntChecked_eq fun vaddr _ => ?_)
  refine run_bind_lift (add_some (by omega)) (run_bind readIntChecked_eq fun filesz _ => ?_)
  refine run_bind_lift (add_some (by omega)) (run_bind readIntChecked_eq fun memsz _ => ?_)
  by_cases hsize : memsz < filesz
  · simp only [if_pos hsize]
    rfl
  simp only [if_neg hsize]
  by_cases hlast : vaddr + memsz < 2 ^ 64
  swap
  · have hhigh : userMaxAddr < vaddr + memsz := by
      simp only [userMaxAddr]
      omega
    rw [add_none (by omega), if_pos (Or.inl hhigh)]
    rfl
  rw [add_some hlast]
  simp only [okOr, pure_bind]
  by_cases haddr : userMaxAddr < vaddr + memsz ∨ vaddr < pageSize
  · simp only [if_pos haddr]
    rfl
  simp only [if_neg haddr]
  by_cases hfile : offset + filesz < 2 ^ 64
  swap
  · rw [add_none (by omega), if_pos (by omega)]
    rfl
  rw [add_some hfile]
  simp only [pure_bind]
  by_cases hdata : image.bytes.length < offset + filesz
  · simp only [if_pos hdata]
    rfl
  simp only [if_neg hdata]
  refine run_bind_lift (slice_some (Nat.le_add_right _ _) (Nat.not_lt.mp hdata)) ?_
  rw [Nat.add_sub_cancel_left]
  rfl

end

/-! ## Loading -/

section
variable (A : FrameAllocator σ)

def loadFromChecked (image : Slice) (h : Header) (s : Phys σ) (space : AddressSpace) (brk : Nat) :
    List Nat → Option (Except LoadError (AddressSpace × Nat) × Phys σ)
  | [] => some (.ok (space, brk), s)
  | i :: is =>
    match (readSegmentChecked image h i).run with
    | none => none
    | some (.error e) => do
      let s ← space.dropChecked A s
      some (.error e, s)
    | some (.ok none) => loadFromChecked image h s space brk is
    | some (.ok (some g)) => do
      let region ← Region.new g.vaddr g.end_ .framed g.perm
      match ← space.pushWithOffsetChecked A s region (g.vaddr % pageSize) g.data with
      | (.error _, s, space) =>
        let s ← space.dropChecked A s
        some (.error .outOfMemory, s)
      | (.ok (), s, space) =>
        let last ← roundUp 64 g.end_ pageSize
        loadFromChecked image h s space (max brk last) is

def loadChecked (s : Phys σ) (kernel : PageTable) (image : Slice) :
    Option (Except LoadError LoadedImage × Phys σ) :=
  match (readHeaderChecked image).run with
  | none => none
  | some (.error e) => some (.error e, s)
  | some (.ok h) =>
    match AddressSpace.new A s with
    | (none, s) => some (.error .outOfMemory, s)
    | (some space, s) => do
      match ← loadFromChecked A image h (space.mapKernelHalf s kernel) space 0
        (List.range h.phnum) with
      | (.error e, s) => some (.error e, s)
      | (.ok (space, brk), s) =>
        if brk = 0 then do
          let s ← space.dropChecked A s
          some (.error .badSegment, s)
        else some (.ok ⟨space, h.entry, brk⟩, s)

end

variable {A : FrameAllocator σ} {s : Phys σ} {image : Slice} {h : Header} {space : AddressSpace}
  {brk : Nat}

theorem readSegment_data {image : List UInt8} {ph : Nat} {g : Segment}
    (heq : readSegment image ph = .ok (some g)) : g.vaddr + g.data.length ≤ g.end_ := by
  rcases readSegment_cases image ph with ⟨⟨e, he⟩, -⟩ | ⟨hnone, -⟩ | ⟨hsome, hload, readable⟩
  · cases heq.symm.trans he
  · cases heq.symm.trans hnone
  · cases heq.symm.trans hsome
    have hsize := (readable.described hload).filesz
    have hlength := List.length_take_le (pFilesz image ph) (image.drop (pOffset image ph))
    simp only [segmentAt]
    omega

theorem readSegment_inside {image : List UInt8} {ph : Nat} {g : Option Segment}
    (heq : readSegment image ph = .ok g) : ph + 4 ≤ image.length := by
  rcases readSegment_cases image ph with ⟨⟨e, he⟩, -⟩ | ⟨-, -, readable⟩ | ⟨-, -, readable⟩
  · cases heq.symm.trans he
  · exact readable.kind
  · exact readable.kind

/-- One header, when its address fits. -/
theorem loadFromChecked_cons {i : Nat} {is : List Nat} (ends : space.EndsFit)
    (fits : h.phoff + i * h.phentsize < 2 ^ 64)
    (rest : h.phoff + i * h.phentsize + 4 ≤ image.bytes.length → ∀ s space brk,
      AddressSpace.EndsFit space →
      loadFromChecked A image h s space brk is = loadFrom A image.bytes h s space brk is) :
    loadFromChecked A image h s space brk (i :: is) =
      loadFrom A image.bytes h s space brk (i :: is) := by
  rw [loadFromChecked, loadFrom, readSegmentChecked_eq fits]
  rcases hsegment : readSegment image.bytes (h.phoff + i * h.phentsize) with e | _ | g
  · simp only [AddressSpace.dropChecked_eq ends]
  · exact rest (readSegment_inside hsegment) s space brk ends
  have hend := readSegment_end hsegment
  have hdata := readSegment_data hsegment
  obtain ⟨region, hnew, -, -, -, hstart, -⟩ := Region.new_user g.vaddr hend g.perm_lt
  have hlast := Region.new_end hnew
  have hdown : region.start + g.vaddr % pageSize = g.vaddr := by
    rw [hstart, alignDown]
    exact Nat.div_add_mod' g.vaddr pageSize
  have hpush : space.pushWithOffsetChecked A s region (g.vaddr % pageSize) g.data =
      space.pushWithOffset A s region (g.vaddr % pageSize) g.data := by
    refine AddressSpace.pushWithOffsetChecked_eq hlast ?_
    rw [hdown]
    simp only [userMaxAddr] at *
    omega
  have hround : roundUp 64 g.end_ pageSize = some (nextMultipleOf g.end_ pageSize) :=
    roundUp_some (by decide) (by simp only [userMaxAddr, pageSize] at *; omega)
  simp only [hnew, Option.bind_eq_bind, Option.bind_some, hpush, hround]
  rcases heq : space.pushWithOffset A s region (g.vaddr % pageSize) g.data with
    _ | ⟨e | ⟨⟩, s₁, space₁⟩
  · rfl
  · simp only [Option.bind_some, AddressSpace.dropChecked_eq (ends.pushWithOffset hlast heq)]
  · exact rest (readSegment_inside hsegment) s₁ space₁ _ (ends.pushWithOffset hlast heq)

/-- With the table of headers in the image, every header's address fits. -/
theorem loadFromChecked_eq {is : List Nat} (ends : space.EndsFit)
    (first : h.phoff ≤ image.bytes.length) (hsize : h.phentsize < 2 ^ 16)
    (his : ∀ i ∈ is, i < 2 ^ 16) :
    loadFromChecked A image h s space brk is = loadFrom A image.bytes h s space brk is := by
  have short := image.short
  induction is generalizing s space brk with
  | nil => rfl
  | cons i is ih =>
    have hi := his i List.mem_cons_self
    have hmul : i * h.phentsize ≤ 2 ^ 16 * 2 ^ 16 :=
      Nat.mul_le_mul (Nat.le_of_lt hi) (Nat.le_of_lt hsize)
    exact loadFromChecked_cons ends (by omega) fun _ s space brk ends =>
      ih ends fun j hj => his j (List.mem_cons_of_mem _ hj)

/-- What is loaded into a space with regions that fit has regions that fit. -/
theorem loadFrom_ends {image : List UInt8} {is : List Nat} {s' : Phys σ} {space' : AddressSpace}
    {brk' : Nat} (ends : space.EndsFit)
    (heq : loadFrom A image h s space brk is = some (.ok (space', brk'), s')) : space'.EndsFit := by
  induction is generalizing s space brk with
  | nil =>
    cases heq
    exact ends
  | cons i is ih =>
    rw [loadFrom] at heq
    rcases hsegment : readSegment image (h.phoff + i * h.phentsize) with e | _ | g <;>
      simp only [hsegment, Option.bind_eq_bind] at heq
    · obtain ⟨_, -, hs⟩ := Option.bind_eq_some_iff.mp heq
      cases hs
    · exact ih ends heq
    · obtain ⟨region, hnew, heq⟩ := Option.bind_eq_some_iff.mp heq
      obtain ⟨⟨e | ⟨⟩, s₁, space₁⟩, hpush, heq⟩ := Option.bind_eq_some_iff.mp heq
      · obtain ⟨_, -, hs⟩ := Option.bind_eq_some_iff.mp heq
        cases hs
      · exact ih (ends.pushWithOffset (Region.new_end hnew) hpush) heq

theorem loadChecked_eq (A : FrameAllocator σ) (s : Phys σ) (kernel : PageTable) (image : Slice) :
    loadChecked A s kernel image = load A s kernel image.bytes := by
  rw [loadChecked, load, readHeaderChecked_eq]
  rcases readHeader_cases image.bytes with ⟨⟨e, he⟩, -⟩ | ⟨hh, -⟩
  · rw [he]
  rw [hh]
  have hoff : (headerOf image.bytes).phoff < 2 ^ 64 := word_lt image.bytes 8 32
  have hsize : (headerOf image.bytes).phentsize < 2 ^ 16 := word_lt image.bytes 2 54
  have hnum : (headerOf image.bytes).phnum < 2 ^ 16 := word_lt image.bytes 2 56
  rcases hnew : AddressSpace.new A s with ⟨_ | space, s₁⟩
  · rfl
  have ends : space.EndsFit := by
    rw [AddressSpace.EndsFit, AddressSpace.new_regions hnew]
    exact fun _ hr => absurd hr List.not_mem_nil
  have hload : loadFromChecked A image (headerOf image.bytes)
    (space.mapKernelHalf s₁ kernel) space 0
      (List.range (headerOf image.bytes).phnum) = loadFrom A image.bytes (headerOf image.bytes)
      (space.mapKernelHalf s₁ kernel) space 0 (List.range (headerOf image.bytes).phnum) := by
    rcases hphnum : (headerOf image.bytes).phnum with _ | n
    · rfl
    rw [List.range_succ_eq_map]
    refine loadFromChecked_cons ends (by omega) fun first s space brk ends => ?_
    refine loadFromChecked_eq ends (by omega) hsize fun i hi => ?_
    obtain ⟨j, hj, rfl⟩ := List.mem_map.mp hi
    have := List.mem_range.mp hj
    omega
  simp only [hload]
  rcases heq : loadFrom A image.bytes (headerOf image.bytes) (space.mapKernelHalf s₁ kernel) space 0
    (List.range (headerOf image.bytes).phnum) with _ | ⟨e | ⟨space₁, brk⟩, s₂⟩
  · rfl
  · rfl
  · simp only [Option.bind_eq_bind, Option.bind_some,
      AddressSpace.dropChecked_eq (loadFrom_ends ends heq)]

theorem load_never_panics {A : CountedAllocator σ} {rest : Multiset Frame} (holds : A.Holds s rest)
    (kernel : PageTable) (image : Slice) :
    ∃ res s', loadChecked A.toFrameAllocator s kernel image = some (res, s') := by
  obtain ⟨res, s', heq, -⟩ := load_built kernel image.bytes holds
  exact ⟨res, s', (loadChecked_eq A.toFrameAllocator s kernel image).trans heq⟩

theorem small_image_never_panics : ∃ (s : Buddy.State) (res : Except LoadError LoadedImage)
    (s' : Buddy.State), loadChecked Buddy.merging.toFrameAllocator s ⟨0, []⟩
      ⟨smallImage, by rw [smallImage_length]; decide⟩ = some (res, s') := by
  obtain ⟨s, -, holds, -⟩ := Buddy.merging_boot
  obtain ⟨res, s', heq⟩ := load_never_panics holds ⟨0, []⟩
    ⟨smallImage, by rw [smallImage_length]; decide⟩
  exact ⟨s, res, s', heq⟩

end Loader

end AlexOS
