import AlexOS.Mm.SpaceLife

/-!
# The ELF loader

`kernel/src/loader.rs`. The header and the program headers are read out of a
bounds-checked slice; every `PT_LOAD` segment becomes a region of a new space,
which is dropped on any error.
-/

namespace AlexOS.Loader

open Bytes

inductive LoadError where
  | truncated
  | badMagic
  | wrongFormat
  | badAddress
  | badSegment
  | outOfMemory
deriving DecidableEq, Repr

structure LoadedImage where
  space : AddressSpace
  entry : Nat
  brk : Nat

def elfMagic : List UInt8 := [0x7f, 0x45, 0x4c, 0x46]
def elfClass64 : UInt8 := 2
def elfData2Lsb : UInt8 := 1
def etExec : Nat := 2
def emRiscv : Nat := 243
def ptLoad : Nat := 1
def pfX : Nat := 1
def pfW : Nat := 2
def pfR : Nat := 4

def leValue : List UInt8 → Nat
  | [] => 0
  | b :: bs => b.toNat + 256 * leValue bs

/-- `read_int!` of `n` bytes at `off`. -/
def readInt (image : List UInt8) (n off : Nat) : Except LoadError Nat :=
  if image.length < off + n then .error .truncated
  else .ok (leValue ((image.drop off).take n))

structure Header where
  entry : Nat
  phoff : Nat
  phentsize : Nat
  phnum : Nat
deriving DecidableEq, Repr

def readHeader (image : List UInt8) : Except LoadError Header := do
  if image.length < 64 then throw .truncated
  if image.take 4 ≠ elfMagic then throw .badMagic
  if image.getD 4 0 ≠ elfClass64 ∨ image.getD 5 0 ≠ elfData2Lsb then throw .wrongFormat
  let type ← readInt image 2 16
  let machine ← readInt image 2 18
  if type ≠ etExec ∨ machine ≠ emRiscv then throw .wrongFormat
  let entry ← readInt image 8 24
  let phoff ← readInt image 8 32
  let phentsize ← readInt image 2 54
  let phnum ← readInt image 2 56
  return ⟨entry, phoff, phentsize, phnum⟩

/-- A `PT_LOAD` entry that passed every check. -/
structure Segment where
  flags : Nat
  vaddr : Nat
  end_ : Nat
  data : List UInt8
deriving DecidableEq, Repr

/-- The program header at `ph`; `none` for one that is not loaded. Sums that
overflow are rejected as the sums that are too large are. -/
def readSegment (image : List UInt8) (ph : Nat) : Except LoadError (Option Segment) := do
  let type ← readInt image 4 ph
  if type ≠ ptLoad then return none
  let flags ← readInt image 4 (ph + 4)
  let offset ← readInt image 8 (ph + 8)
  let vaddr ← readInt image 8 (ph + 16)
  let filesz ← readInt image 8 (ph + 32)
  let memsz ← readInt image 8 (ph + 40)
  if memsz < filesz then throw .badSegment
  if userMaxAddr < vaddr + memsz ∨ vaddr < pageSize then throw .badAddress
  if image.length < offset + filesz then throw .truncated
  return some ⟨flags, vaddr, vaddr + memsz, (image.drop offset).take filesz⟩

def Segment.perm (g : Segment) : Nat :=
  PteFlags.user ||| (if g.flags &&& pfR ≠ 0 then PteFlags.read else 0) |||
    (if g.flags &&& pfW ≠ 0 then PteFlags.write else 0) |||
    (if g.flags &&& pfX ≠ 0 then PteFlags.exec else 0)

variable {σ : Type}

section
variable (A : FrameAllocator σ)

/-- The loop over the program headers, with the break so far. -/
def loadFrom (image : List UInt8) (h : Header) (s : Phys σ) (space : AddressSpace) (brk : Nat) :
    List Nat → Option (Except LoadError (AddressSpace × Nat) × Phys σ)
  | [] => some (.ok (space, brk), s)
  | i :: is =>
    match readSegment image (h.phoff + i * h.phentsize) with
    | .error e => do
      let s ← space.drop A s
      some (.error e, s)
    | .ok none => loadFrom image h s space brk is
    | .ok (some g) => do
      let region ← Region.new g.vaddr g.end_ .framed g.perm
      match ← space.pushWithOffset A s region (g.vaddr % pageSize) g.data with
      | (.error _, s, space) =>
        let s ← space.drop A s
        some (.error .outOfMemory, s)
      | (.ok (), s, space) =>
        loadFrom image h s space (max brk (nextMultipleOf g.end_ pageSize)) is

def load (s : Phys σ) (kernel : PageTable) (image : List UInt8) :
    Option (Except LoadError LoadedImage × Phys σ) :=
  match readHeader image with
  | .error e => some (.error e, s)
  | .ok h =>
    match AddressSpace.new A s with
    | (none, s) => some (.error .outOfMemory, s)
    | (some space, s) => do
      match ← loadFrom A image h (space.mapKernelHalf s kernel) space 0 (List.range h.phnum) with
      | (.error e, s) => some (.error e, s)
      | (.ok (space, brk), s) =>
        if brk = 0 then do
          let s ← space.drop A s
          some (.error .badSegment, s)
        else some (.ok ⟨space, h.entry, brk⟩, s)

end

/-! ## What a loaded image is -/

variable {A : CountedAllocator σ} {s s' : Phys σ} {rest : Multiset Frame} {image : List UInt8}

theorem Segment.perm_lt (g : Segment) : g.perm < 2 ^ 10 := by
  have choice : ∀ (p : Prop) [Decidable p] (x : Nat), x < 2 ^ 10 →
      (if p then x else 0) < 2 ^ 10 := by
    intro p _ x hx
    split <;> omega
  refine Nat.or_lt_two_pow (Nat.or_lt_two_pow (Nat.or_lt_two_pow (by decide) ?_) ?_) ?_ <;>
    exact choice _ _ (by decide)

/-- An accepted segment lies in the lower half. -/
theorem readSegment_end {ph : Nat} {g : Segment} (h : readSegment image ph = .ok (some g)) :
    g.end_ ≤ userMaxAddr := by
  simp only [readSegment, bind, Except.bind, pure, Except.pure, throw, throwThe,
    MonadExceptOf.throw] at h
  repeat' split at h
  all_goals cases h
  simp only
  omega

/-- What a step that builds a space leaves: a space that is as it should be, or
all it took given back. -/
def Built {ε α : Type} (P : Phys σ → AddressSpace → Prop) (D : Phys σ → Prop)
    (space : α → AddressSpace) (s' : Phys σ) : Except ε α → Prop
  | .error _ => D s'
  | .ok a => P s' (space a)

section
variable {P F : Phys σ → AddressSpace → Prop} {D : Phys σ → Prop}

/-- `P` holds of the space between two segments, `F` also after a push that failed. -/
theorem loadFrom_rule {h : Header} {space : AddressSpace} {brk : Nat} {is : List Nat}
    {res : Except LoadError (AddressSpace × Nat)} (start : P s space)
    (weaken : ∀ {s sp}, P s sp → F s sp)
    (push : ∀ {s sp r offset data res s' sp'}, P s sp → Region.User r → r.frames = [] →
      r.end_ % pageSize = 0 →
      sp.pushWithOffset A.toFrameAllocator s r offset data = some (res, s', sp') →
      F s' sp' ∧ (res = .ok () → P s' sp'))
    (drop : ∀ {s sp}, F s sp → ∃ s', sp.drop A.toFrameAllocator s = some s' ∧ D s')
    (heq : loadFrom A.toFrameAllocator image h s space brk is = some (res, s')) :
    Built P D Prod.fst s' res := by
  induction is generalizing s space brk with
  | nil =>
    simp only [loadFrom, Option.some.injEq, Prod.mk.injEq] at heq
    obtain ⟨rfl, rfl⟩ := heq
    exact start
  | cons i is ih =>
    rw [loadFrom] at heq
    split at heq
    · obtain ⟨s₁, hdrop, out⟩ := drop (weaken start)
      simp only [hdrop, Option.bind_eq_bind, Option.bind_some,
        Option.some.injEq, Prod.mk.injEq] at heq
      obtain ⟨rfl, rfl⟩ := heq
      exact out
    · exact ih start heq
    · rename_i g hg
      obtain ⟨r, hnew, u, empty, -, -, hend⟩ :=
        Region.new_user g.vaddr (readSegment_end hg) g.perm_lt
      rcases hpush : space.pushWithOffset A.toFrameAllocator s r (g.vaddr % pageSize) g.data with
        _ | ⟨res', s₁, space₁⟩
      · simp [hnew, hpush] at heq
      obtain ⟨failed, pushed⟩ := push start u empty (by rw [hend]; exact Nat.mul_mod_left _ _) hpush
      simp only [hnew, hpush, Option.bind_eq_bind, Option.bind_some] at heq
      rcases res' with e | ⟨⟩
      · obtain ⟨s₂, hdrop, out⟩ := drop failed
        simp only [hdrop, Option.bind_some, Option.some.injEq, Prod.mk.injEq] at heq
        obtain ⟨rfl, rfl⟩ := heq
        exact out
      · exact ih (pushed rfl) heq

theorem load_rule {kernel : PageTable} {res : Except LoadError LoadedImage}
    (holds : A.Holds s rest) (none : D s)
    (start : ∀ {sp s'}, AddressSpace.new A.toFrameAllocator s = (some sp, s') →
      P (sp.mapKernelHalf s' kernel) sp)
    (weaken : ∀ {s sp}, P s sp → F s sp)
    (push : ∀ {s sp r offset data res s' sp'}, P s sp → Region.User r → r.frames = [] →
      r.end_ % pageSize = 0 →
      sp.pushWithOffset A.toFrameAllocator s r offset data = some (res, s', sp') →
      F s' sp' ∧ (res = .ok () → P s' sp'))
    (drop : ∀ {s sp}, F s sp → ∃ s', sp.drop A.toFrameAllocator s = some s' ∧ D s')
    (heq : load A.toFrameAllocator s kernel image = some (res, s')) :
    Built P D LoadedImage.space s' res := by
  rw [load] at heq
  split at heq
  · simp only [Option.some.injEq, Prod.mk.injEq] at heq
    obtain ⟨rfl, rfl⟩ := heq
    exact none
  rename_i h _
  rcases hnew : AddressSpace.new A.toFrameAllocator s with ⟨_ | space, s₁⟩
  · obtain rfl := AddressSpace.new_none holds hnew
    simp only [hnew, Option.some.injEq, Prod.mk.injEq] at heq
    obtain ⟨rfl, rfl⟩ := heq
    exact none
  rcases hload : loadFrom A.toFrameAllocator image h (space.mapKernelHalf s₁ kernel) space 0
    (List.range h.phnum) with _ | ⟨res', s₂⟩
  · simp [hnew, hload] at heq
  have out := loadFrom_rule (start hnew) weaken push drop hload
  simp only [hnew, hload, Option.bind_eq_bind, Option.bind_some] at heq
  rcases res' with e | ⟨space', brk⟩
  · simp only [Option.some.injEq, Prod.mk.injEq] at heq
    obtain ⟨rfl, rfl⟩ := heq
    exact out
  by_cases hbrk : brk = 0
  · obtain ⟨s₃, hdrop, out⟩ := drop (weaken out)
    simp only [hbrk, if_true, hdrop, Option.bind_some, Option.some.injEq, Prod.mk.injEq] at heq
    obtain ⟨rfl, rfl⟩ := heq
    exact out
  · simp only [hbrk, if_false, Option.some.injEq, Prod.mk.injEq] at heq
    obtain ⟨rfl, rfl⟩ := heq
    exact out

end

/-- What `load` leaves: a space that is exact, or all it took given back. -/
def Outcome (A : CountedAllocator σ) (rest : Multiset Frame) {ε α : Type} (space : α → AddressSpace)
    (s' : Phys σ) : Except ε α → Prop
  | .error _ => A.Holds s' rest
  | .ok a => A.Holds s' ((space a).frames + rest) ∧ (space a).Exact s'.mem

theorem load_spec {kernel : PageTable} {res : Except LoadError LoadedImage}
    (holds : A.Holds s rest) (heq : load A.toFrameAllocator s kernel image = some (res, s')) :
    Outcome A rest LoadedImage.space s' res ∧ Kept rest s.mem s'.mem := by
  let F (s₁ : Phys σ) (sp : AddressSpace) : Prop :=
    A.Holds s₁ (sp.frames + rest) ∧ sp.Formed s₁.mem ∧ Kept rest s.mem s₁.mem
  have built := load_rule (P := fun s₁ sp => F s₁ sp ∧ sp.Exact s₁.mem) (F := F)
    (D := fun s' => A.Holds s' rest ∧ Kept rest s.mem s'.mem) holds ⟨holds, .refl _ _⟩ ?_ And.left
    ?_ ?_ heq
  · rcases res with e | loaded
    · exact built
    · exact ⟨⟨built.1.1, built.2⟩, built.1.2.2⟩
  · intro sp s₁ hnew
    obtain ⟨holds₁, exact, -, kept, -⟩ := AddressSpace.new_spec kernel holds hnew
    exact ⟨⟨holds₁, exact.toFormed, kept⟩, exact⟩
  · rintro s₁ sp r offset data res' s₂ sp' ⟨⟨holds₁, -, kept₁⟩, exact⟩ u empty - hpush
    obtain ⟨holds₂, formed, kept₂, exact₂⟩ :=
      AddressSpace.pushWithOffset_spec holds₁ exact u empty hpush
    exact ⟨⟨holds₂, formed, kept₁.trans kept₂⟩, fun ok =>
      ⟨⟨holds₂, formed, kept₁.trans kept₂⟩, exact₂ ok⟩⟩
  · rintro s₁ sp ⟨holds₁, formed, kept₁⟩
    obtain ⟨s₂, hdrop, holds₂, kept₂⟩ := AddressSpace.drop_spec formed holds₁
    exact ⟨s₂, hdrop, holds₂, kept₁.trans kept₂⟩

end AlexOS.Loader
