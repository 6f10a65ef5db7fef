import AlexOS.Mm.PageTable

/-!
# Address spaces

`kernel/src/mm/space.rs`. Regions own the frames behind their pages, and a page
table maps them; nothing but the code below keeps the two in step. A value that
goes out of scope is dropped where the source drops it. `none` is a panic.
-/

namespace AlexOS

open Bytes

def virtOffset : Nat := 0xffffffc000000000

def superpageSize : Nat := 2 * 1024 * 1024

/-- `USER_MAX_ADDR`: one past the lower half. -/
def userMaxAddr : Nat := 0x4000000000

inductive Backing where
  | linear
  | framed
deriving DecidableEq, Repr

/-- Pages are mapped in ascending order, so the `BTreeMap` of a region's frames
is the list of its entries in the order they were inserted. -/
structure Region where
  start : Nat
  end_ : Nat
  backing : Backing
  perm : Nat
  frames : List (Nat × Frame)

structure AddressSpace where
  table : PageTable
  regions : List Region

variable {σ : Type}

/-- `Frame`s dropped one after another. -/
def dropFrames (A : FrameAllocator σ) (s : Phys σ) : List Frame → Option (Phys σ)
  | [] => some s
  | f :: fs => do
    let s ← A.free s f
    dropFrames A s fs

/-! ## Regions -/

namespace Region

def new (start end_ : Nat) (backing : Backing) (perm : Nat) : Option Region := do
  let end_ ← alignUp end_
  some ⟨alignDown start, end_, backing, perm, []⟩

def owned (r : Region) : List Frame := r.frames.map Prod.snd

def pageCount (r : Region) : Nat := pageNum r.end_ - pageNum r.start

section
variable (A : FrameAllocator σ)

/-- The `Framed` arm of `map_into`. The frame is dropped when `map` fails, since
it was not yet inserted. -/
def mapPage (s : Phys σ) (t : PageTable) (r : Region) (vpn : Nat) :
    Option (Except MapError Nat × Phys σ × PageTable × Region) :=
  match A.allocOrder s 0 with
  | (none, s) => some (.error .outOfMemory, s, t, r)
  | (some frame, s) =>
    match PageTable.map A s t vpn frame.ppn r.perm with
    | (.ok (), s, t) => some (.ok (vpn + 1), s, t, { r with frames := r.frames ++ [(vpn, frame)] })
    | (.error e, s, t) => (A.free s frame).map fun s => (.error e, s, t, r)

/-- The `Linear` arm of `map_into`, with a 2 MiB leaf where one fits. -/
def mapLinear (s : Phys σ) (t : PageTable) (r : Region) (vpn : Nat) :
    Option (Except MapError Nat × Phys σ × PageTable × Region) :=
  if vpn < pageNum virtOffset then none
  else
    let ppn := vpn - pageNum virtOffset
    let pages := superpageSize / pageSize
    if vpn % pages = 0 ∧ ppn % pages = 0 ∧ vpn + pages ≤ pageNum r.end_ then
      (PageTable.mapAtLevel A s t vpn ppn r.perm 1).map fun (res, s, t) =>
        (res.map fun _ => vpn + pages, s, t, r)
    else
      let (res, s, t) := PageTable.map A s t vpn ppn r.perm
      some (res.map fun _ => vpn + 1, s, t, r)

/-- The loop of `map_into` from `vpn` on; a turn covers at least one page. -/
def mapFrom : Nat → Phys σ → PageTable → Region → Nat →
    Option (Except MapError Unit × Phys σ × PageTable × Region)
  | 0, s, t, r, _ => some (.ok (), s, t, r)
  | turns + 1, s, t, r, vpn =>
    if pageNum r.end_ ≤ vpn then some (.ok (), s, t, r)
    else
      match (match r.backing with
        | .linear => mapLinear A s t r vpn
        | .framed => mapPage A s t r vpn) with
      | none => none
      | some (.error e, s, t, r) => some (.error e, s, t, r)
      | some (.ok vpn, s, t, r) => mapFrom turns s t r vpn

def mapInto (s : Phys σ) (t : PageTable) (r : Region) :
    Option (Except MapError Unit × Phys σ × PageTable × Region) :=
  mapFrom A r.pageCount s t r (pageNum r.start)

def unmapPages (s : Phys σ) (t : PageTable) : List Nat → Phys σ
  | [] => s
  | vpn :: vpns => unmapPages (PageTable.unmap s t vpn).2 t vpns

def unmapFrom (s : Phys σ) (t : PageTable) (r : Region) : Option (Phys σ) :=
  dropFrames A (unmapPages s t (List.range' (pageNum r.start) r.pageCount)) r.owned

end

/-- The loop of `write_data`; a turn writes at least one byte. The lookup is the
`expect`. -/
def writeFrom (r : Region) : Nat → Mem → Nat → List UInt8 → Option Mem
  | 0, mem, _, _ => some mem
  | turns + 1, mem, pos, data =>
    if data = [] then some mem
    else do
      let frame ← r.frames.lookup (pageNum (r.start + pos))
      let off := pos % pageSize
      let n := min (pageSize - off) data.length
      writeFrom r turns (writeBytes mem (baseAddr frame.ppn + off) (data.take n)) (pos + n)
        (data.drop n)

def writeData (r : Region) (mem : Mem) (offset : Nat) (data : List UInt8) : Option Mem :=
  writeFrom r data.length mem offset data

end Region

/-! ## Spaces -/

namespace AddressSpace

def owned (sp : AddressSpace) : List Frame := sp.regions.flatMap Region.owned

/-- All a space holds: its table's frames and its regions'. -/
def frames (sp : AddressSpace) : Multiset Frame := sp.table.frames + sp.owned

section
variable (A : FrameAllocator σ)

def new (s : Phys σ) : Option AddressSpace × Phys σ :=
  match PageTable.new A s with
  | (none, s) => (none, s)
  | (some t, s) => (some ⟨t, []⟩, s)

/-- A region that cannot be mapped is dropped on the way out, its frames with it. -/
def push (s : Phys σ) (sp : AddressSpace) (r : Region) :
    Option (Except MapError Unit × Phys σ × AddressSpace) := do
  match ← r.mapInto A s sp.table with
  | (.ok (), s, t, r) => some (.ok (), s, ⟨t, sp.regions ++ [r]⟩)
  | (.error e, s, t, r) =>
    let s ← dropFrames A s r.owned
    some (.error e, s, ⟨t, sp.regions⟩)

def pushWithOffset (s : Phys σ) (sp : AddressSpace) (r : Region) (offset : Nat)
    (data : List UInt8) : Option (Except MapError Unit × Phys σ × AddressSpace) := do
  match ← r.mapInto A s sp.table with
  | (.ok (), s, t, r) =>
    let mem ← r.writeData s.mem offset data
    some (.ok (), { s with mem := mem }, ⟨t, sp.regions ++ [r]⟩)
  | (.error e, s, t, r) =>
    let s ← dropFrames A s r.owned
    some (.error e, s, ⟨t, sp.regions⟩)

/-- The `Drop` of a space: its regions, then the fields, of which the table
still owns frames. -/
def dropRegions (s : Phys σ) (t : PageTable) : List Region → Option (Phys σ)
  | [] => some s
  | r :: rs => do
    let s ← r.unmapFrom A s t
    dropRegions s t rs

def drop (s : Phys σ) (sp : AddressSpace) : Option (Phys σ) := do
  let s ← dropRegions A s sp.table sp.regions
  dropFrames A s sp.table.frames

end

def mapKernelHalf (s : Phys σ) (sp : AddressSpace) (kernel : PageTable) : Phys σ :=
  { s with mem := PageTable.shareUpperHalf s.mem sp.table kernel }

/-- Page contents of `src` copied to the frames `dst` has for them. -/
def copyFrames (dst : List (Nat × Frame)) (mem : Mem) : List (Nat × Frame) → Option Mem
  | [] => some mem
  | (vpn, frame) :: src =>
    match dst.lookup vpn with
    | none => none
    | some copy =>
      copyFrames dst (writeBytes mem (baseAddr copy.ppn)
        (readBytes mem (baseAddr frame.ppn) pageSize))
        src

section
variable (A : FrameAllocator σ)

/-- The loop of `duplicate`. An early return drops the copy, then the child. -/
def duplicateFrom (s : Phys σ) (child : AddressSpace) :
    List Region → Option (Option AddressSpace × Phys σ)
  | [] => some (some child, s)
  | r :: rs =>
    if r.backing ≠ .framed then duplicateFrom s child rs
    else do
      let copy ← Region.new r.start r.end_ .framed r.perm
      match ← copy.mapInto A s child.table with
      | (.error _, s, t, copy) =>
        let s ← dropFrames A s copy.owned
        let s ← drop A s ⟨t, child.regions⟩
        some (none, s)
      | (.ok (), s, t, copy) =>
        match copyFrames copy.frames s.mem r.frames with
        | none =>
          let s ← dropFrames A s copy.owned
          let s ← drop A s ⟨t, child.regions⟩
          some (none, s)
        | some mem => duplicateFrom { s with mem := mem } ⟨t, child.regions ++ [copy]⟩ rs

def duplicate (s : Phys σ) (sp : AddressSpace) (kernel : PageTable) :
    Option (Option AddressSpace × Phys σ) :=
  match new A s with
  | (none, s) => some (none, s)
  | (some child, s) => duplicateFrom A (child.mapKernelHalf s kernel) child sp.regions

end

/-! ## User memory -/

/-- The loop of `copy_from_user` at `va`; a turn copies at least one byte. -/
def copyFromUserFrom (t : PageTable) (mem : Mem) : Nat → Nat → Nat → Option (List UInt8)
  | 0, _, _ => some []
  | turns + 1, va, len =>
    if len = 0 then some []
    else if userMaxAddr ≤ va then none
    else do
      let pa ← PageTable.translateAddr mem t va
      let n := min (pageSize - pageOffset va) len
      let rest ← copyFromUserFrom t mem turns (va + n) (len - n)
      some (readBytes mem pa n ++ rest)

def copyFromUser (sp : AddressSpace) (mem : Mem) (va len : Nat) : Option (List UInt8) :=
  copyFromUserFrom sp.table mem len va len

/-- The loop of `copy_to_user` at `va`. What a failing call has written stays. -/
def copyToUserFrom (t : PageTable) : Nat → Mem → Nat → List UInt8 → Option Unit × Mem
  | 0, mem, _, _ => (some (), mem)
  | turns + 1, mem, va, src =>
    if src = [] then (some (), mem)
    else if userMaxAddr ≤ va then (none, mem)
    else
      match PageTable.translate mem t (pageNum va) with
      | none => (none, mem)
      | some pte =>
        if PteFlags.contains (Pte.flags pte) (PteFlags.write ||| PteFlags.user) = false then
          (none, mem)
        else
          match PageTable.translateAddr mem t va with
          | none => (none, mem)
          | some pa =>
            let n := min (pageSize - pageOffset va) src.length
            copyToUserFrom t turns (writeBytes mem pa (src.take n)) (va + n) (src.drop n)

def copyToUser (sp : AddressSpace) (mem : Mem) (va : Nat) (src : List UInt8) : Option Unit × Mem :=
  copyToUserFrom sp.table src.length mem va src

/-- `String::from_utf8(bytes).ok()`; a string is its bytes. -/
def fromUtf8 (bytes : List UInt8) : Option (List UInt8) :=
  if (ByteArray.mk bytes.toArray).validateUTF8 then some bytes else none

def readCstrFrom (sp : AddressSpace) (mem : Mem) : Nat → Nat → List UInt8 → Option (List UInt8)
  | 0, _, _ => none
  | n + 1, va, bytes => do
    let byte ← sp.copyFromUser mem va 1
    if byte = [0] then fromUtf8 bytes else readCstrFrom sp mem n (va + 1) (bytes ++ byte)

def readCstr (sp : AddressSpace) (mem : Mem) (va max : Nat) : Option (List UInt8) :=
  readCstrFrom sp mem max va []

end AddressSpace

end AlexOS
