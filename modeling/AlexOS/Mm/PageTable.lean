import AlexOS.Mm.Owned
import Mathlib.Data.Nat.Bitwise

/-!
# Sv39 page tables

`kernel/src/mm/page_table.rs`. Entries are machine words in physical memory,
and a table is named by the number of the frame that holds it. Operations that
can allocate take the frame allocator as a parameter.
-/

namespace AlexOS

open Bytes

namespace PteFlags

def valid : Nat := 1
def read : Nat := 2
def write : Nat := 4
def exec : Nat := 8
def user : Nat := 16
def global : Nat := 32
def accessed : Nat := 64
def dirty : Nat := 128

def rw : Nat := read ||| write
def rwx : Nat := read ||| write ||| exec

def contains (f g : Nat) : Bool := f &&& g == g

def intersects (f g : Nat) : Bool := f &&& g != 0

/-- What `map` and `protect` store: `VALID` is implied, `ACCESSED` and `DIRTY`
are set eagerly. -/
def present (f : Nat) : Nat := f ||| valid ||| accessed ||| dirty

end PteFlags

/-! ## Entries -/

namespace Pte

def flagMask : Nat := 0x3ff

def empty : Nat := 0

def new (ppn flags : Nat) : Nat := (ppn <<< 10) % 2 ^ 64 ||| flags

def ppn (e : Nat) : Nat := (e >>> 10) &&& (2 ^ 44 - 1)

def flags (e : Nat) : Nat := e &&& flagMask

def setFlags (e flags : Nat) : Nat := (e &&& (2 ^ 64 - 1 - flagMask)) ||| flags

def isValid (e : Nat) : Bool := PteFlags.contains (flags e) PteFlags.valid

def isLeaf (e : Nat) : Bool := isValid e && PteFlags.intersects (flags e) PteFlags.rwx

end Pte

inductive MapError where
  | alreadyMapped
  | notMapped
  | outOfMemory
deriving DecidableEq, Repr

/-- The table's root and every frame it owns, root and interior alike. -/
structure PageTable where
  root : Nat
  frames : List Frame

/-- `VirtPageNum::indices`. -/
def indices (vpn : Nat) : List Nat :=
  [(vpn >>> 18) &&& 0x1ff, (vpn >>> 9) &&& 0x1ff, vpn &&& 0x1ff]

/-- `&table_at(ppn)[index]`. -/
def slot (ppn index : Nat) : Nat := baseAddr ppn + 8 * index

def entry (mem : Mem) (ppn index : Nat) : Nat := read64 mem (slot ppn index)

/-- Where the hardware's walk ends if no entry has a reserved encoding: the entry, a leaf
or in a last table, and how many levels are below it. -/
def leafPte (mem : Mem) : List Nat → Nat → Option (Nat × Nat)
  | [], _ => none
  | index :: rest, ppn =>
    let pte := entry mem ppn index
    if Pte.isValid pte = false then none
    else if rest = [] ∨ Pte.isLeaf pte = true then some (rest.length, pte)
    else leafPte mem rest (Pte.ppn pte)

/-- The address that an access to `va` reaches through a leaf with `level` levels below it. -/
def physAddr (level pte va : Nat) : Nat :=
  baseAddr (Pte.ppn pte) + va % (pageSize * ptePerTable ^ level)

namespace PageTable

variable {σ : Type}

section
variable (A : FrameAllocator σ)

def new (s : Phys σ) : Option PageTable × Phys σ :=
  match A.allocOrder s 0 with
  | (none, s) => (none, s)
  | (some f, s) => (some ⟨f.ppn, [f]⟩, s)

/-- One turn of the loop in `walk_create_to`: the table below an entry, made if
it is missing. -/
def descend (s : Phys σ) (t : PageTable) (ppn index : Nat) : Option Nat × Phys σ × PageTable :=
  if Pte.isValid (entry s.mem ppn index) then (some (Pte.ppn (entry s.mem ppn index)), s, t)
  else
    match A.allocOrder s 0 with
    | (none, s) => (none, s, t)
    | (some f, s) =>
      let mem := write64 s.mem (slot ppn index) (Pte.new f.ppn PteFlags.valid)
      (some (Pte.ppn (entry mem ppn index)), { s with mem := mem },
        { t with frames := t.frames ++ [f] })

/-- The loop of `walk_create_to` from `level` on. Running out of indices is the
`unreachable!`: `stop` is one of the levels. -/
def walkFrom (stop : Nat) :
    List Nat → Nat → Nat → Phys σ → PageTable → Option Nat × Phys σ × PageTable
  | [], _, _, s, t => (none, s, t)
  | index :: rest, level, ppn, s, t =>
    if level = stop then (some (slot ppn index), s, t)
    else
      match descend A s t ppn index with
      | (none, s, t) => (none, s, t)
      | (some ppn, s, t) => walkFrom stop rest (level + 1) ppn s t

def walkCreateTo (s : Phys σ) (t : PageTable) (vpn stop : Nat) :
    Option Nat × Phys σ × PageTable :=
  walkFrom A stop (indices vpn) 0 t.root s t

/-- `map_at_level` past its debug assertions. -/
def mapAt (s : Phys σ) (t : PageTable) (vpn ppn flags level : Nat) :
    Except MapError Unit × Phys σ × PageTable :=
  match walkCreateTo A s t vpn level with
  | (none, s, t) => (.error .outOfMemory, s, t)
  | (some p, s, t) =>
    if Pte.isValid (read64 s.mem p) then (.error .alreadyMapped, s, t)
    else (.ok (), { s with mem := write64 s.mem p (Pte.new ppn (PteFlags.present flags)) }, t)

/-- Pages covered by a leaf at `level`. -/
def levelPages (level : Nat) : Nat := 2 ^ (9 * (sv39Levels - 1 - level))

/-- `none` is a failed debug assertion. -/
def mapAtLevel (s : Phys σ) (t : PageTable) (vpn ppn flags level : Nat) :
    Option (Except MapError Unit × Phys σ × PageTable) :=
  if level < sv39Levels ∧ vpn % levelPages level = 0 ∧ ppn % levelPages level = 0 then
    some (mapAt A s t vpn ppn flags level)
  else none

def map (s : Phys σ) (t : PageTable) (vpn ppn flags : Nat) :
    Except MapError Unit × Phys σ × PageTable :=
  mapAt A s t vpn ppn flags (sv39Levels - 1)

theorem mapAtLevel_leaf (s : Phys σ) (t : PageTable) (vpn ppn flags : Nat) :
    mapAtLevel A s t vpn ppn flags (sv39Levels - 1) = some (map A s t vpn ppn flags) := by
  simp [mapAtLevel, levelPages, sv39Levels, map, Nat.mod_one]

end

/-- The loop of `walk_ptr` from `level` on. -/
def walkPtrFrom (mem : Mem) : List Nat → Nat → Nat → Option Nat
  | [], _, _ => none
  | index :: rest, level, ppn =>
    if level = sv39Levels - 1 then some (slot ppn index)
    else
      let pte := entry mem ppn index
      if Pte.isValid pte = false then none
      else if Pte.isLeaf pte then none
      else walkPtrFrom mem rest (level + 1) (Pte.ppn pte)

def walkPtr (mem : Mem) (t : PageTable) (vpn : Nat) : Option Nat :=
  walkPtrFrom mem (indices vpn) 0 t.root

def unmap (s : Phys σ) (t : PageTable) (vpn : Nat) : Except MapError Nat × Phys σ :=
  match walkPtr s.mem t vpn with
  | none => (.error .notMapped, s)
  | some p =>
    if Pte.isValid (read64 s.mem p) then
      (.ok (Pte.ppn (read64 s.mem p)), { s with mem := write64 s.mem p Pte.empty })
    else (.error .notMapped, s)

def translate (mem : Mem) (t : PageTable) (vpn : Nat) : Option Nat :=
  ((walkPtr mem t vpn).map (read64 mem)).filter Pte.isValid

def translateAddr (mem : Mem) (t : PageTable) (va : Nat) : Option Nat :=
  (translate mem t (pageNum va)).map fun pte => baseAddr (Pte.ppn pte) + pageOffset va

def protect (s : Phys σ) (t : PageTable) (vpn flags : Nat) : Except MapError Unit × Phys σ :=
  match walkPtr s.mem t vpn with
  | none => (.error .notMapped, s)
  | some p =>
    if Pte.isValid (read64 s.mem p) then
      let pte := Pte.setFlags (read64 s.mem p) (PteFlags.present flags)
      (.ok (), { s with mem := write64 s.mem p pte })
    else (.error .notMapped, s)

/-- `share_upper_half`: the root's upper 256 entries become the kernel's. -/
def shareUpperHalf (mem : Mem) (t kernel : PageTable) : Mem := fun a =>
  if slot t.root (ptePerTable / 2) ≤ a ∧ a < slot t.root ptePerTable then
    mem (a - baseAddr t.root + baseAddr kernel.root)
  else mem a

end PageTable

end AlexOS
