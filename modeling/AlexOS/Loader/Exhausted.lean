import AlexOS.Loader.Checked
import AlexOS.Mm.HeapRun

/-!
# Loading with the kernel heap

`load` from the header checks to the first table, with the block of the kernel heap that
`vec![frame]` takes. `heap.rs` answers null when a list is empty and no frame is left for it, and
`handle_alloc_error` turns that into a panic.
-/

namespace AlexOS.KernelHeap

open Loader Buddy

/-- `[Frame; 1]`: `ppn` and `order`. -/
def oneFrame : Layout := ⟨16, 3, by decide, by decide⟩

/-- `PageTable::new`. -/
def newTable (h : Heap) : Option (Option PageTable × Heap) :=
  match h.phys.allocOrder 0 with
  | (none, phys) => some (none, { h with phys })
  | (some frame, phys) => do
    let (block, h) ← Heap.alloc { h with phys } oneFrame
    if block = null then none else some (some ⟨frame.ppn, [frame]⟩, h)

/-- `load`, which goes on as `rest` does once it has the table of its space. -/
def loadOnHeap (rest : Header → PageTable → Heap → Option (Except LoadError LoadedImage × Heap))
    (h : Heap) (image : Slice) : Option (Except LoadError LoadedImage × Heap) :=
  match (readHeaderChecked image).run with
  | none => none
  | some (.error e) => some (.error e, h)
  | some (.ok header) => do
    match ← newTable h with
    | (none, h) => some (.error .outOfMemory, h)
    | (some table, h) => rest header table h

/-- Frames that are not handed out. -/
def left (s : Buddy.State) : Nat := s.pool.frames - s.pool.allocated

section
variable {h h' : Heap} {live : Multiset Block} {rest : Multiset Frame} {F : Class → List Nat}

theorem left_take (k : Books h live rest F) {f : Frame} {phys : Buddy.State}
    (heq : h.phys.allocOrder 0 = (some f, phys)) : left phys + 1 = left h.phys := by
  obtain ⟨L, inv⟩ := k.buddy
  have := inv.alloc_avail heq
  rw [Frame.count, (inv.allocOrder heq).1] at this
  exact this

theorem allocOrder_none (k : Books h live rest F) (hleft : left h.phys = 0) :
    (h.phys.allocOrder 0).1 = none := by
  rcases heq : h.phys.allocOrder 0 with ⟨_ | f, phys⟩
  · rfl
  · have := left_take k heq
    omega

theorem allocOrder_some (k : Books h live rest F) (hleft : 0 < left h.phys) :
    ∃ f phys, h.phys.allocOrder 0 = (some f, phys) := by
  obtain ⟨L, inv⟩ := k.buddy
  have hsome := inv.allocOrder_isSome hleft
  rcases heq : h.phys.allocOrder 0 with ⟨_ | f, phys⟩
  · rw [heq] at hsome
    cases hsome
  · exact ⟨f, phys, rfl⟩

theorem alloc_null_iff (k : Books h live rest F) {layout : Layout} {c : Class}
    (hc : layout.classFor = some c) :
    (∃ h', h.alloc layout = some (null, h')) ↔ h.free c = null ∧ left h.phys = 0 := by
  constructor
  · rintro ⟨h', heq⟩
    obtain ⟨hfree, hfull⟩ := k.small_refused hc heq
    exact ⟨hfree, Nat.sub_eq_zero_of_le hfull⟩
  · rintro ⟨hfree, hleft⟩
    have hnone := allocOrder_none k hleft
    rcases heq : h.phys.allocOrder 0 with ⟨f, phys⟩
    rw [heq] at hnone
    obtain rfl : f = none := hnone
    refine ⟨{ h with phys }, ?_⟩
    simp only [Heap.alloc, hc, if_pos hfree, Heap.refill, heq]
    rfl

/-- `PageTable::new` panics when it takes the last frame and its `Vec` needs another. -/
theorem newTable_none_iff (k : Books h live rest F) {c : Class}
    (hc : oneFrame.classFor = some c) : newTable h = none ↔ h.free c = null ∧ left h.phys = 1 := by
  by_cases hleft : 0 < left h.phys
  · obtain ⟨f, phys, heq⟩ := allocOrder_some k hleft
    have htake := left_take k heq
    have hnull := alloc_null_iff (k.take heq) hc
    rw [newTable, heq]
    constructor
    · intro hpanic
      rcases (k.take heq).alloc oneFrame with halloc | ⟨p, h₁, F', halloc, hne, -⟩
      · obtain ⟨hfree, hzero⟩ := hnull.mp ⟨_, halloc⟩
        have hzero : left phys = 0 := hzero
        exact ⟨hfree, by omega⟩
      · simp only [halloc, Option.bind_eq_bind, Option.bind_some, if_neg hne] at hpanic
        cases hpanic
    · rintro ⟨hfree, hone⟩
      obtain ⟨h₁, halloc⟩ := hnull.mpr ⟨hfree, show left phys = 0 by omega⟩
      simp only [halloc, Option.bind_eq_bind, Option.bind_some, if_true]
  · constructor
    · intro hpanic
      have hnone := allocOrder_none k (by omega)
      rcases heq : h.phys.allocOrder 0 with ⟨f, phys⟩
      rw [heq] at hnone
      obtain rfl : f = none := hnone
      rw [newTable, heq] at hpanic
      cases hpanic
    · rintro ⟨-, hone⟩
      omega

end

/-- Others take frames one by one until `n` are left. -/
theorem drained {w : World} (h : Reach system w) {n : Nat} (hn : n ≤ left w.heap.phys) :
    ∃ w', Reach system w' ∧ left w'.heap.phys = n ∧ w'.heap.free = w.heap.free := by
  obtain ⟨d, hd⟩ : ∃ d, left w.heap.phys = n + d := ⟨left w.heap.phys - n, by omega⟩
  induction d generalizing w with
  | zero => exact ⟨w, h, hd, rfl⟩
  | succ d ih =>
    obtain ⟨heap, live, rest⟩ := w
    obtain ⟨F, k⟩ := Reach.books h
    have hd : left heap.phys = n + (d + 1) := hd
    obtain ⟨f, phys, heq⟩ := allocOrder_some k (show 0 < left heap.phys by omega)
    have htake : left phys + 1 = left heap.phys := left_take k heq
    have hnext : Reach system ⟨{ heap with phys }, live, f ::ₘ rest⟩ :=
      .step .others h (.take heq)
    obtain ⟨w', hw', hleft, hfree⟩ := ih hnext (show n ≤ left phys by omega)
      (show left phys = n + d by omega)
    exact ⟨w', hw', hleft, hfree⟩

/-- Nothing has been freed to the heap and one frame is left: `load` panics on an image that it
accepts, whatever it would do next. -/
theorem load_panics_on_last_frame : ∃ w : World, Reach system w ∧ left w.heap.phys = 1 ∧
    ∀ rest, loadOnHeap rest w.heap ⟨smallImage, by rw [smallImage_length]; decide⟩ = none := by
  obtain ⟨s, hinit, -, havail⟩ := Buddy.boot
  have start : Reach system ⟨.new s, 0, 0⟩ := .init ⟨_, _, _, s, hinit, by decide, rfl⟩
  have hleft : left s = 0x7800 := havail
  obtain ⟨w, hw, hone, hfree⟩ := drained start (n := 1) (show 1 ≤ left s by omega)
  refine ⟨w, hw, hone, ?_⟩
  intro rest
  obtain ⟨F, k⟩ := Reach.books hw
  have hpanic := (newTable_none_iff k (c := ⟨1, by decide⟩) rfl).mpr ⟨congrFun hfree _, hone⟩
  rw [loadOnHeap, readHeaderChecked_eq]
  rcases readHeader_cases smallImage with ⟨-, hbad⟩ | ⟨hh, -⟩
  · exact absurd smallImage_accepts.toIdentified hbad
  · rw [hh]
    simp only [hpanic]
    rfl

end AlexOS.KernelHeap
