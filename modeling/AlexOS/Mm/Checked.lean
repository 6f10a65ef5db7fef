import AlexOS.Lib.Checked
import AlexOS.Mm.View

/-!
# Address spaces with overflow checks on

Regions and spaces once more, with every sum and difference of the source as the
checked one. Page numbers are far from the end of a word as long as a region ends
below it; the copies to and from user memory also go through the direct map, whose
pointers fit because every mapped frame lies in its window.
-/

namespace AlexOS

open Bytes Checked PageTable

variable {σ : Type}

/-! ## Regions -/

namespace Region

section
variable (A : FrameAllocator σ)

def mapPageChecked (s : Phys σ) (t : PageTable) (r : Region) (vpn : Nat) :
    Option (Except MapError Nat × Phys σ × PageTable × Region) := do
  match ← mapPage A s t r vpn with
  | (.error e, s, t, r) => some (.error e, s, t, r)
  | (.ok _, s, t, r) =>
    let next ← add 64 vpn 1
    some (.ok next, s, t, r)

def mapLinearChecked (s : Phys σ) (t : PageTable) (r : Region) (vpn : Nat) :
    Option (Except MapError Nat × Phys σ × PageTable × Region) := do
  let ppn ← sub vpn (pageNum virtOffset)
  let pages := superpageSize / pageSize
  let whole ← (if vpn % pages = 0 ∧ ppn % pages = 0 then
      (add 64 vpn pages).map fun last => decide (last ≤ pageNum r.end_)
    else some false : Option Bool)
  if whole then
    let (res, s, t) ← PageTable.mapAtLevel A s t vpn ppn r.perm 1
    let next ← add 64 vpn pages
    some (res.map fun _ => next, s, t, r)
  else
    let (res, s, t) := PageTable.map A s t vpn ppn r.perm
    let next ← add 64 vpn 1
    some (res.map fun _ => next, s, t, r)

def mapFromChecked : Nat → Phys σ → PageTable → Region → Nat →
    Option (Except MapError Unit × Phys σ × PageTable × Region)
  | 0, s, t, r, _ => some (.ok (), s, t, r)
  | turns + 1, s, t, r, vpn =>
    if pageNum r.end_ ≤ vpn then some (.ok (), s, t, r)
    else
      match (match r.backing with
        | .linear => mapLinearChecked A s t r vpn
        | .framed => mapPageChecked A s t r vpn) with
      | none => none
      | some (.error e, s, t, r) => some (.error e, s, t, r)
      | some (.ok vpn, s, t, r) => mapFromChecked turns s t r vpn

def mapIntoChecked (s : Phys σ) (t : PageTable) (r : Region) :
    Option (Except MapError Unit × Phys σ × PageTable × Region) :=
  mapFromChecked A r.pageCount s t r (pageNum r.start)

end

/-- The loop of `write_data`; a page without a frame is the `expect`. -/
def writeFromChecked (r : Region) (data : List UInt8) : Nat → Mem → Nat → Nat → Option Mem
  | 0, mem, _, _ => some mem
  | turns + 1, mem, written, pos =>
    if data.length ≤ written then some mem
    else do
      let va ← add 64 r.start pos
      let off := pos % pageSize
      let room ← sub pageSize off
      let left ← sub data.length written
      let n := min room left
      let frame ← r.frames.lookup (pageNum va)
      let mem := writeBytes mem (baseAddr frame.ppn + off) ((data.drop written).take n)
      let written ← add 64 written n
      let pos ← add 64 pos n
      writeFromChecked r data turns mem written pos

def writeDataChecked (r : Region) (mem : Mem) (offset : Nat) (data : List UInt8) : Option Mem :=
  writeFromChecked r data data.length mem 0 offset

variable {A : FrameAllocator σ} {s s' : Phys σ} {t t' : PageTable} {r r' : Region} {vpn : Nat}

theorem mapPageChecked_eq (hvpn : vpn + 1 < 2 ^ 64) :
    mapPageChecked A s t r vpn = mapPage A s t r vpn := by
  rw [mapPageChecked, add_some hvpn]
  rcases heq : mapPage A s t r vpn with _ | ⟨e | w, s', t', r'⟩
  · rfl
  · rfl
  · obtain ⟨rfl, -⟩ := mapPage_ok heq
    rfl

theorem mapLinearChecked_eq (hvpn : vpn + superpageSize / pageSize < 2 ^ 64) :
    mapLinearChecked A s t r vpn = mapLinear A s t r vpn := by
  have hnext : vpn + 1 < 2 ^ 64 := lt_of_le_of_lt (Nat.add_le_add_left (by decide) vpn) hvpn
  by_cases low : vpn < pageNum virtOffset
  · rw [mapLinear, if_pos low, mapLinearChecked, sub, if_neg (Nat.not_le.mpr low)]
    rfl
  simp only [mapLinear, if_neg low, mapLinearChecked, sub_some (Nat.not_lt.mp low), add_some hvpn,
    add_some hnext, Option.bind_eq_bind, Option.bind_some, Option.map_some]
  by_cases whole : vpn % (superpageSize / pageSize) = 0 ∧
      (vpn - pageNum virtOffset) % (superpageSize / pageSize) = 0
  swap
  · have : ¬ (vpn % (superpageSize / pageSize) = 0 ∧
        (vpn - pageNum virtOffset) % (superpageSize / pageSize) = 0 ∧
        vpn + superpageSize / pageSize ≤ pageNum r.end_) := fun h => whole ⟨h.1, h.2.1⟩
    simp only [if_neg whole, if_neg this, Option.bind_some, Bool.false_eq_true, if_false]
  by_cases fits : vpn + superpageSize / pageSize ≤ pageNum r.end_
  · simp only [whole, fits, and_self, if_true, decide_true, Option.bind_some]
    rcases PageTable.mapAtLevel A s t vpn (vpn - pageNum virtOffset) r.perm 1 with
      _ | ⟨res, s', t'⟩ <;>
      rfl
  · simp only [whole, fits, and_self, and_false, if_true, if_false, decide_false, Option.bind_some,
      Bool.false_eq_true]

theorem mapLinear_region {res : Except MapError Nat}
    (heq : mapLinear A s t r vpn = some (res, s', t', r')) : r' = r := by
  simp only [mapLinear] at heq
  split_ifs at heq
  · obtain ⟨x, -, hx⟩ := Option.map_eq_some_iff.mp heq
    cases hx
    rfl
  · cases heq
    rfl

theorem mapFromChecked_eq {turns : Nat} (hend : r.end_ < 2 ^ 64) :
    mapFromChecked A turns s t r vpn = mapFrom A turns s t r vpn := by
  induction turns generalizing s t r vpn with
  | zero => rfl
  | succ turns ih =>
    rw [mapFromChecked, mapFrom]
    by_cases done : pageNum r.end_ ≤ vpn
    · rw [if_pos done, if_pos done]
    have hvpn : vpn + superpageSize / pageSize < 2 ^ 64 := by
      simp only [pageNum, pageSize, superpageSize] at *
      omega
    have hnext : vpn + 1 < 2 ^ 64 := lt_of_le_of_lt (Nat.add_le_add_left (by decide) vpn) hvpn
    rw [if_neg done, if_neg done, mapLinearChecked_eq hvpn, mapPageChecked_eq hnext]
    rcases backing : r.backing with _ | _
    · rcases hstep : mapLinear A s t r vpn with _ | ⟨_ | w, s', t', r'⟩
      · rfl
      · rfl
      · obtain rfl := mapLinear_region hstep
        exact ih hend
    · rcases hstep : mapPage A s t r vpn with _ | ⟨_ | w, s', t', r'⟩
      · rfl
      · rfl
      · obtain ⟨-, f, rfl⟩ := mapPage_ok hstep
        exact ih hend

/-- A region keeps its ends while it is mapped. -/
theorem mapFrom_ends {turns : Nat} (heq : mapFrom A turns s t r vpn = some (.ok (), s', t', r')) :
    r'.start = r.start ∧ r'.end_ = r.end_ := by
  induction turns generalizing s t r vpn with
  | zero =>
    cases heq
    exact ⟨rfl, rfl⟩
  | succ turns ih =>
    rw [mapFrom] at heq
    split_ifs at heq with done
    · cases heq
      exact ⟨rfl, rfl⟩
    rcases backing : r.backing with _ | _ <;> simp only [backing] at heq
    · rcases hstep : mapLinear A s t r vpn with _ | ⟨_ | w, s₁, t₁, r₁⟩ <;> simp only [hstep] at heq
      · cases heq
      · cases heq
      · obtain rfl := mapLinear_region hstep
        exact ih heq
    · rcases hstep : mapPage A s t r vpn with _ | ⟨_ | w, s₁, t₁, r₁⟩ <;> simp only [hstep] at heq
      · cases heq
      · cases heq
      · obtain ⟨-, f, rfl⟩ := mapPage_ok hstep
        have hends := ih heq
        exact hends

theorem new_end {start end_ perm : Nat} {backing : Backing}
    (heq : Region.new start end_ backing perm = some r) : r.end_ < 2 ^ 64 := by
  rw [Region.new, Option.bind_eq_bind] at heq
  obtain ⟨last, hlast, hr⟩ := Option.bind_eq_some_iff.mp heq
  cases hr
  rw [alignUp] at hlast
  split_ifs at hlast with fits
  cases hlast
  simp only [pageSize] at *
  omega

theorem mapIntoChecked_eq (hend : r.end_ < 2 ^ 64) : mapIntoChecked A s t r = mapInto A s t r :=
  mapFromChecked_eq hend

theorem writeFromChecked_eq {data : List UInt8} {turns written pos : Nat} {mem : Mem}
    (hwritten : written ≤ data.length) (hlength : data.length < 2 ^ 64)
    (fits : r.start + pos + (data.length - written) < 2 ^ 64) :
    writeFromChecked r data turns mem written pos = writeFrom r turns mem pos
      (data.drop written) := by
  induction turns generalizing written pos mem with
  | zero => rfl
  | succ turns ih =>
    rw [writeFromChecked, writeFrom]
    by_cases done : data.length ≤ written
    · rw [if_pos done, if_pos (List.drop_eq_nil_of_le done)]
    have hoff : pos % pageSize ≤ pageSize := Nat.le_of_lt (Nat.mod_lt _ (by decide))
    have hne : data.drop written ≠ [] := by
      rw [Ne, List.drop_eq_nil_iff]
      exact done
    have hva : r.start + pos < 2 ^ 64 := by omega
    simp only [if_neg done, if_neg hne, add_some hva, sub_some hoff, sub_some hwritten,
      Option.bind_eq_bind, Option.bind_some, List.length_drop]
    rcases hframe : r.frames.lookup (pageNum (r.start + pos)) with _ | frame
    · rfl
    have hn : min (pageSize - pos % pageSize) (data.length - written) ≤ data.length - written :=
      Nat.min_le_right _ _
    rw [Option.bind_some, Option.bind_some, add_some (by omega), Option.bind_some,
      add_some (by omega), Option.bind_some, ih (by omega) (by omega), List.drop_drop]

theorem writeDataChecked_eq {mem : Mem} {offset : Nat} {data : List UInt8}
    (fits : r.start + offset + data.length < 2 ^ 64) :
    writeDataChecked r mem offset data = writeData r mem offset data := by
  rw [writeDataChecked, writeFromChecked_eq (Nat.zero_le _) (by omega) (by omega), List.drop_zero]
  rfl

/-- The loop of `unmap_from`. -/
def unmapPagesChecked (t : PageTable) (last : Nat) : Nat → Phys σ → Nat → Option (Phys σ)
  | 0, s, _ => some s
  | turns + 1, s, vpn =>
    if last ≤ vpn then some s
    else do
      let next ← add 64 vpn 1
      unmapPagesChecked t last turns (PageTable.unmap s t vpn).2 next

def unmapFromChecked (A : FrameAllocator σ) (s : Phys σ) (t : PageTable) (r : Region) :
    Option (Phys σ) := do
  let s ← unmapPagesChecked t (pageNum r.end_) r.pageCount s (pageNum r.start)
  dropFrames A s r.owned

theorem unmapPagesChecked_eq {last turns : Nat} (hlast : last < 2 ^ 64)
    (hturns : turns = last - vpn) :
    unmapPagesChecked t last turns s vpn = some (unmapPages s t (List.range' vpn turns)) := by
  induction turns generalizing s vpn with
  | zero => rfl
  | succ turns ih =>
    rw [unmapPagesChecked, if_neg (by omega), add_some (by omega), List.range'_succ]
    exact ih (by omega)

theorem unmapFromChecked_eq (hend : r.end_ < 2 ^ 64) :
    unmapFromChecked A s t r = unmapFrom A s t r := by
  have hlast : pageNum r.end_ < 2 ^ 64 := lt_of_le_of_lt (Nat.div_le_self _ _) hend
  rw [unmapFromChecked, unmapPagesChecked_eq hlast (show r.pageCount = _ from rfl)]
  rfl

end Region

/-! ## Spaces -/

/-- The frames the direct map reaches before addresses run out. -/
def directPages : Nat := (2 ^ 64 - virtOffset) / pageSize

/-- All that is handed out lies in the direct map. -/
def FrameAllocator.Direct (A : FrameAllocator σ) : Prop :=
  ∀ s live f, A.Holds s live → f ∈ live → f.ppn + f.count < directPages

namespace AddressSpace

section
variable (A : FrameAllocator σ)

def pushChecked (s : Phys σ) (sp : AddressSpace) (r : Region) :
    Option (Except MapError Unit × Phys σ × AddressSpace) := do
  match ← r.mapIntoChecked A s sp.table with
  | (.ok (), s, t, r) => some (.ok (), s, ⟨t, sp.regions ++ [r]⟩)
  | (.error e, s, t, r) =>
    let s ← dropFrames A s r.owned
    some (.error e, s, ⟨t, sp.regions⟩)

def pushWithOffsetChecked (s : Phys σ) (sp : AddressSpace) (r : Region) (offset : Nat)
    (data : List UInt8) : Option (Except MapError Unit × Phys σ × AddressSpace) := do
  match ← r.mapIntoChecked A s sp.table with
  | (.ok (), s, t, r) =>
    let mem ← r.writeDataChecked s.mem offset data
    some (.ok (), { s with mem := mem }, ⟨t, sp.regions ++ [r]⟩)
  | (.error e, s, t, r) =>
    let s ← dropFrames A s r.owned
    some (.error e, s, ⟨t, sp.regions⟩)

def dropRegionsChecked (s : Phys σ) (t : PageTable) : List Region → Option (Phys σ)
  | [] => some s
  | r :: rs => do
    let s ← r.unmapFromChecked A s t
    dropRegionsChecked s t rs

def dropChecked (s : Phys σ) (sp : AddressSpace) : Option (Phys σ) := do
  let s ← dropRegionsChecked A s sp.table sp.regions
  dropFrames A s sp.table.frames

def duplicateFromChecked (s : Phys σ) (child : AddressSpace) :
    List Region → Option (Option AddressSpace × Phys σ)
  | [] => some (some child, s)
  | r :: rs =>
    if r.backing ≠ .framed then duplicateFromChecked s child rs
    else do
      let copy ← Region.new r.start r.end_ .framed r.perm
      match ← copy.mapIntoChecked A s child.table with
      | (.error _, s, t, copy) =>
        let s ← dropFrames A s copy.owned
        let s ← dropChecked A s ⟨t, child.regions⟩
        some (none, s)
      | (.ok (), s, t, copy) =>
        match copyFrames copy.frames s.mem r.frames with
        | none =>
          let s ← dropFrames A s copy.owned
          let s ← dropChecked A s ⟨t, child.regions⟩
          some (none, s)
        | some mem => duplicateFromChecked { s with mem := mem } ⟨t, child.regions ++ [copy]⟩ rs

def duplicateChecked (s : Phys σ) (sp : AddressSpace) (kernel : PageTable) :
    Option (Option AddressSpace × Phys σ) :=
  match new A s with
  | (none, s) => some (none, s)
  | (some child, s) => duplicateFromChecked A (child.mapKernelHalf s kernel) child sp.regions

end

variable {A : FrameAllocator σ} {s s' : Phys σ} {sp sp' : AddressSpace} {r : Region}

/-- Every region of the space ends below the end of a word. -/
def EndsFit (sp : AddressSpace) : Prop := ∀ r ∈ sp.regions, r.end_ < 2 ^ 64

theorem EndsFit.append {t : PageTable} (h : sp.EndsFit) (hend : r.end_ < 2 ^ 64) :
    EndsFit ⟨t, sp.regions ++ [r]⟩ := by
  intro q hq
  rcases List.mem_append.mp hq with hq | hq
  · exact h q hq
  · rw [List.mem_singleton.mp hq]
    exact hend

theorem pushChecked_eq (hend : r.end_ < 2 ^ 64) : pushChecked A s sp r = push A s sp r := by
  refine bind_eq (Region.mapIntoChecked_eq hend) fun x _ => ?_
  rcases x with ⟨_ | ⟨⟩, _, _, _⟩ <;> rfl

theorem pushWithOffsetChecked_eq {offset : Nat} {data : List UInt8} (hend : r.end_ < 2 ^ 64)
    (fits : r.start + offset + data.length < 2 ^ 64) :
    pushWithOffsetChecked A s sp r offset data = pushWithOffset A s sp r offset data := by
  rw [pushWithOffsetChecked, pushWithOffset, Region.mapIntoChecked_eq hend]
  rcases hmap : r.mapInto A s sp.table with _ | ⟨e | ⟨⟩, s', t', r'⟩
  · rfl
  · rfl
  · have hstart := (Region.mapFrom_ends hmap).1
    simp only [Option.bind_eq_bind, Option.bind_some]
    rw [Region.writeDataChecked_eq (by rw [hstart]; exact fits)]

theorem EndsFit.pushWithOffset (h : sp.EndsFit) (hend : r.end_ < 2 ^ 64) {offset : Nat}
    {data : List UInt8} {res : Except MapError Unit}
    (heq : pushWithOffset A s sp r offset data = some (res, s', sp')) : sp'.EndsFit := by
  rw [AddressSpace.pushWithOffset] at heq
  rcases hmap : r.mapInto A s sp.table with _ | ⟨e | ⟨⟩, s₁, t₁, r₁⟩ <;>
    simp only [hmap, Option.bind_eq_bind, Option.bind_some, Option.bind_none] at heq
  · cases heq
  · obtain ⟨s₂, -, hs₂⟩ := Option.bind_eq_some_iff.mp heq
    cases hs₂
    exact h
  · obtain ⟨mem, -, hmem⟩ := Option.bind_eq_some_iff.mp heq
    cases hmem
    exact h.append ((Region.mapFrom_ends hmap).2 ▸ hend)

theorem dropRegionsChecked_eq {t : PageTable} {rs : List Region}
    (hends : ∀ r ∈ rs, r.end_ < 2 ^ 64) :
    dropRegionsChecked A s t rs = dropRegions A s t rs := by
  induction rs generalizing s with
  | nil => rfl
  | cons r rs ih =>
    rw [dropRegionsChecked, dropRegions, Region.unmapFromChecked_eq (hends r List.mem_cons_self)]
    simp only [ih fun q hq => hends q (List.mem_cons_of_mem _ hq)]

theorem dropChecked_eq (h : sp.EndsFit) : dropChecked A s sp = drop A s sp := by
  rw [dropChecked, drop, dropRegionsChecked_eq h]

theorem duplicateFromChecked_eq {child : AddressSpace} {rs : List Region} (h : child.EndsFit) :
    duplicateFromChecked A s child rs = duplicateFrom A s child rs := by
  induction rs generalizing s child with
  | nil => rfl
  | cons r rs ih =>
    rw [duplicateFromChecked, duplicateFrom]
    split_ifs with linear
    · exact ih h
    rcases hnew : Region.new r.start r.end_ .framed r.perm with _ | copy
    · rfl
    have hend : copy.end_ < 2 ^ 64 := Region.new_end hnew
    simp only [Option.bind_eq_bind, Option.bind_some, Region.mapIntoChecked_eq hend]
    rcases hmap : copy.mapInto A s child.table with _ | ⟨_ | ⟨⟩, s₁, t₁, copy₁⟩
    · rfl
    · have hdrop : ∀ s, dropChecked A s ⟨t₁, child.regions⟩ = drop A s ⟨t₁, child.regions⟩ :=
        fun s => dropChecked_eq h
      simp only [Option.bind_some, hdrop]
    · have hdrop : ∀ s, dropChecked A s ⟨t₁, child.regions⟩ = drop A s ⟨t₁, child.regions⟩ :=
        fun s => dropChecked_eq h
      have hend₁ : copy₁.end_ < 2 ^ 64 := (Region.mapFrom_ends hmap).2 ▸ hend
      simp only [Option.bind_some, hdrop]
      rcases copyFrames copy₁.frames s₁.mem r.frames with _ | mem
      · rfl
      · exact ih (h.append hend₁)

theorem new_regions (heq : new A s = (some sp, s')) : sp.regions = [] := by
  rw [new] at heq
  split at heq <;> cases heq
  rfl

theorem duplicateChecked_eq {kernel : PageTable} :
    duplicateChecked A s sp kernel = duplicate A s sp kernel := by
  rw [duplicateChecked, duplicate]
  rcases hnew : new A s with ⟨_ | child, s₁⟩
  · rfl
  · refine duplicateFromChecked_eq ?_
    rw [EndsFit, new_regions hnew]
    exact fun _ hr => absurd hr List.not_mem_nil

/-! ## User memory -/

/-- `PhysAddr::to_virt`. -/
def toVirt (pa : Nat) : Option Nat := add 64 pa virtOffset

def translateAddrChecked (mem : Mem) (t : PageTable) (va : Nat) : Option (Option Nat) :=
  match translate mem t (pageNum va) with
  | none => some none
  | some pte => (add 64 (baseAddr (Pte.ppn pte)) (pageOffset va)).map some

/-- The arithmetic of one turn of a copy: how much fits into the page, the pointer into
the direct map, and how far the copy is then. -/
def copyTurn (len copied va pa : Nat) : Option (Nat × Nat) := do
  let room ← sub pageSize (pageOffset va)
  let left ← sub len copied
  let n := min room left
  let _ ← toVirt pa
  let next ← add 64 copied n
  some (n, next)

/-- The loop of `copy_from_user`, `copied` bytes into it. A sum past the end of a
word is the `checked_add` of the source and no panic. -/
def copyFromUserFromChecked (t : PageTable) (mem : Mem) (addr len : Nat) :
    Nat → Nat → Option (Option (List UInt8))
  | 0, _ => some (some [])
  | turns + 1, copied =>
    if len ≤ copied then some (some [])
    else
      match add 64 addr copied with
      | none => some none
      | some va =>
        if userMaxAddr ≤ va then some none
        else do
          match ← translateAddrChecked mem t va with
          | none => some none
          | some pa =>
            let (n, next) ← copyTurn len copied va pa
            let rest ← copyFromUserFromChecked t mem addr len turns next
            some (rest.map (readBytes mem pa n ++ ·))

def copyFromUserChecked (sp : AddressSpace) (mem : Mem) (va len : Nat) :
    Option (Option (List UInt8)) :=
  copyFromUserFromChecked sp.table mem va len len 0

def copyToUserFromChecked (t : PageTable) (addr : Nat) (src : List UInt8) :
    Nat → Mem → Nat → Option (Option Unit × Mem)
  | 0, mem, _ => some (some (), mem)
  | turns + 1, mem, copied =>
    if src.length ≤ copied then some (some (), mem)
    else
      match add 64 addr copied with
      | none => some (none, mem)
      | some va =>
        if userMaxAddr ≤ va then some (none, mem)
        else
          match translate mem t (pageNum va) with
          | none => some (none, mem)
          | some pte =>
            if PteFlags.contains (Pte.flags pte) (PteFlags.write ||| PteFlags.user) = false then
              some (none, mem)
            else do
              match ← translateAddrChecked mem t va with
              | none => some (none, mem)
              | some pa =>
                let (n, next) ← copyTurn src.length copied va pa
                copyToUserFromChecked t addr src turns
                  (writeBytes mem pa ((src.drop copied).take n)) next

def copyToUserChecked (sp : AddressSpace) (mem : Mem) (va : Nat) (src : List UInt8) :
    Option (Option Unit × Mem) :=
  copyToUserFromChecked sp.table va src src.length mem 0

def readCstrFromChecked (sp : AddressSpace) (mem : Mem) (addr : Nat) :
    Nat → Nat → List UInt8 → Option (Option (List UInt8))
  | 0, _, _ => some none
  | n + 1, i, bytes =>
    match add 64 addr i with
    | none => some none
    | some va => do
      match ← sp.copyFromUserChecked mem va 1 with
      | none => some none
      | some byte =>
        if byte = [0] then some (fromUtf8 bytes)
        else readCstrFromChecked sp mem addr n (i + 1) (bytes ++ byte)

def readCstrChecked (sp : AddressSpace) (mem : Mem) (va max : Nat) : Option (Option (List UInt8)) :=
  readCstrFromChecked sp mem va max 0 []

variable {m : Mem} {va len : Nat}

/-- Every page of the lower half is backed by a frame the direct map reaches. -/
def Direct (m : Mem) (sp : AddressSpace) : Prop :=
  ∀ v pte, v < pages 256 → translate m sp.table v = some pte → Pte.ppn pte < directPages

theorem Exact.direct (h : Exact m sp) (low : ∀ f ∈ sp.owned, f.ppn < directPages) :
    Direct m sp := by
  intro v pte hv hpte
  rw [translate_eq h.tree hv] at hpte
  split_ifs at hpte with valid
  cases hpte
  obtain ⟨r, hr, he⟩ := h.frame hv valid
  exact low _ (mem_owned hr he)

theorem Formed.endsFit (h : Formed m sp) : sp.EndsFit := fun r hr =>
  lt_of_le_of_lt (h.regions r hr).below (by decide)

theorem owned_low (direct : A.Direct) {rest : Multiset Frame}
    (holds : A.Holds s (sp.frames + rest)) :
    ∀ f ∈ sp.owned, f.ppn < directPages := fun f hf =>
  lt_of_le_of_lt (Nat.le_add_right _ _) (direct s _ f holds
    (Multiset.mem_add.mpr (.inl (Multiset.mem_add.mpr (.inr (Multiset.mem_coe.mpr hf))))))

theorem Direct.translateAddr_eq (h : Direct m sp) (hva : va < userMaxAddr) :
    translateAddrChecked m sp.table va = some (translateAddr m sp.table va) ∧
      ∀ pa, translateAddr m sp.table va = some pa → toVirt pa = some (pa + virtOffset) := by
  rw [translateAddrChecked, translateAddr]
  rcases hpte : translate m sp.table (pageNum va) with _ | pte
  · exact ⟨rfl, fun _ hpa => by cases hpa⟩
  have hppn := h _ pte (pageNum_low hva) hpte
  have hoff : pageOffset va < pageSize := Nat.mod_lt _ (by decide)
  simp only [directPages, virtOffset, pageSize] at hppn hoff
  have hsum : add 64 (baseAddr (Pte.ppn pte)) (pageOffset va) =
      some (baseAddr (Pte.ppn pte) + pageOffset va) :=
    add_some (by simp only [baseAddr, pageSize]; omega)
  refine ⟨?_, fun pa hpa => ?_⟩
  · simp only [hsum, Option.map_some]
  · cases hpa
    exact add_some (by simp only [baseAddr, pageSize, virtOffset]; omega)

theorem copyTurn_eq {copied pa : Nat} (hlen : len < 2 ^ 64) (hcopied : copied ≤ len)
    (hvirt : toVirt pa = some (pa + virtOffset)) :
    copyTurn len copied va pa = some (min (pageSize - pageOffset va) (len - copied),
      copied + min (pageSize - pageOffset va) (len - copied)) := by
  have hoff : pageOffset va ≤ pageSize := Nat.le_of_lt (Nat.mod_lt _ (by decide))
  have hn : min (pageSize - pageOffset va) (len - copied) ≤ len - copied := Nat.min_le_right _ _
  rw [copyTurn, sub_some hoff, sub_some hcopied, hvirt]
  simp only [Option.bind_eq_bind, Option.bind_some]
  rw [add_some (by omega), Option.bind_some]

theorem copyFromUserFromChecked_eq {turns copied : Nat} (h : Direct m sp) (hlen : len < 2 ^ 64)
    (hcopied : copied ≤ len) :
    copyFromUserFromChecked sp.table m va len turns copied =
      some (copyFromUserFrom sp.table m turns (va + copied) (len - copied)) := by
  induction turns generalizing copied with
  | zero => rfl
  | succ turns ih =>
    rw [copyFromUserFromChecked, copyFromUserFrom]
    by_cases done : len ≤ copied
    · rw [if_pos done, if_pos (by omega)]
    rw [if_neg done, if_neg (by omega)]
    by_cases high : userMaxAddr ≤ va + copied
    · rw [if_pos high]
      by_cases fits : va + copied < 2 ^ 64
      · simp only [add_some fits, if_pos high]
      · rw [add_none (by omega)]
    have fits : va + copied < 2 ^ 64 := by
      simp only [userMaxAddr] at high
      omega
    obtain ⟨htranslate, hvirt⟩ := h.translateAddr_eq (Nat.not_le.mp high)
    simp only [add_some fits, if_neg high, htranslate, Option.bind_eq_bind, Option.bind_some]
    rcases hpa : translateAddr m sp.table (va + copied) with _ | pa
    · rfl
    have hn : min (pageSize - pageOffset (va + copied)) (len - copied) ≤ len - copied :=
      Nat.min_le_right _ _
    simp only [copyTurn_eq hlen hcopied (hvirt pa hpa), Option.bind_some]
    rw [ih (by omega), Option.bind_some, Nat.add_assoc, Nat.sub_sub]
    rcases copyFromUserFrom _ _ _ _ _ with _ | rest <;> rfl

theorem copyFromUserChecked_eq (h : Direct m sp) (hlen : len < 2 ^ 64) :
    sp.copyFromUserChecked m va len = some (sp.copyFromUser m va len) := by
  rw [copyFromUserChecked, copyFromUserFromChecked_eq h hlen (Nat.zero_le _)]
  rfl

theorem readCstrFromChecked_eq {n i : Nat} {bytes : List UInt8} (h : Direct m sp) :
    readCstrFromChecked sp m va n i bytes = some (readCstrFrom sp m n (va + i) bytes) := by
  induction n generalizing i bytes with
  | zero => rfl
  | succ n ih =>
    rw [readCstrFromChecked, readCstrFrom]
    by_cases fits : va + i < 2 ^ 64
    swap
    · have hcopy : sp.copyFromUser m (va + i) 1 = none := by
        rw [copyFromUser, copyFromUserFrom, if_neg (by decide), if_pos]
        simp only [userMaxAddr]
        omega
      rw [add_none (by omega), hcopy]
      rfl
    simp only [add_some fits, copyFromUserChecked_eq h (show 1 < 2 ^ 64 by decide),
      Option.bind_eq_bind, Option.bind_some]
    rcases sp.copyFromUser m (va + i) 1 with _ | byte
    · rfl
    by_cases nul : byte = [0]
    · simp only [if_pos nul, Option.bind_some]
    · simp only [if_neg nul, Option.bind_some]
      exact ih

theorem readCstrChecked_eq {max : Nat} (h : Direct m sp) :
    sp.readCstrChecked m va max = some (sp.readCstr m va max) :=
  readCstrFromChecked_eq h

/-- Writing through the table leaves the table as it is. -/
theorem copyToUserFromChecked_eq {src : List UInt8} {turns copied : Nat} (h : Exact m sp)
    (apart : ∀ p, framesOver sp.frames p ≤ 1) (low : ∀ f ∈ sp.owned, f.ppn < directPages)
    (hlen : src.length < 2 ^ 64) (hcopied : copied ≤ src.length) :
    copyToUserFromChecked sp.table va src turns m copied =
      some (copyToUserFrom sp.table turns m (va + copied) (src.drop copied)) := by
  induction turns generalizing m copied with
  | zero => rfl
  | succ turns ih =>
    rw [copyToUserFromChecked, copyToUserFrom]
    by_cases done : src.length ≤ copied
    · rw [if_pos done, if_pos (List.drop_eq_nil_of_le done)]
    have hne : src.drop copied ≠ [] := by
      rw [Ne, List.drop_eq_nil_iff]
      exact done
    rw [if_neg done, if_neg hne]
    by_cases high : userMaxAddr ≤ va + copied
    · rw [if_pos high]
      by_cases fits : va + copied < 2 ^ 64
      · simp only [add_some fits, if_pos high]
      · rw [add_none (by omega)]
    have fits : va + copied < 2 ^ 64 := by
      simp only [userMaxAddr] at high
      omega
    have hva := Nat.not_le.mp high
    obtain ⟨htranslate, hvirt⟩ := (h.direct low).translateAddr_eq hva
    simp only [add_some fits, if_neg high]
    rcases hpte : translate m sp.table (pageNum (va + copied)) with _ | pte
    · simp only
    have hpa : translateAddr m sp.table (va + copied) =
        some (baseAddr (Pte.ppn pte) + pageOffset (va + copied)) := by
      rw [translateAddr, hpte, Option.map_some]
    have hoff : pageOffset (va + copied) < pageSize := Nat.mod_lt _ (by decide)
    have hexact : ∀ n, n ≤ pageSize - pageOffset (va + copied) →
        Exact (writeBytes m (baseAddr (Pte.ppn pte) + pageOffset (va + copied))
          ((src.drop copied).take n)) sp := fun n hn =>
      (h.view_write apart hva hpte (by rw [List.length_take]; omega)).1
    generalize baseAddr (Pte.ppn pte) + pageOffset (va + copied) = pa at hpa hexact
    have hn : min (pageSize - pageOffset (va + copied)) (src.length - copied) ≤
        src.length - copied := Nat.min_le_right _ _
    simp only [htranslate, hpa, copyTurn_eq hlen hcopied (hvirt _ hpa), Option.bind_eq_bind,
      Option.bind_some, List.length_drop]
    split_ifs with denied
    · rfl
    rw [ih (hexact _ (Nat.min_le_left _ _)) (by omega), Nat.add_assoc, List.drop_drop]

theorem copyToUserChecked_eq {src : List UInt8} (h : Exact m sp)
    (apart : ∀ p, framesOver sp.frames p ≤ 1) (low : ∀ f ∈ sp.owned, f.ppn < directPages)
    (hlen : src.length < 2 ^ 64) :
    sp.copyToUserChecked m va src = some (sp.copyToUser m va src) := by
  rw [copyToUserChecked, copyToUserFromChecked_eq h apart low hlen (Nat.zero_le _)]
  rfl

end AddressSpace

end AlexOS
