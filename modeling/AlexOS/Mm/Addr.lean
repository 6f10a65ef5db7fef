import AlexOS.Lib.Bytes

/-!
# Addresses and page numbers

`kernel/src/config.rs` and `kernel/src/mm/addr.rs`. Addresses and page numbers
are natural numbers; a `Usize` argument carries the range of the machine word.
The direct map shifts every physical address by one constant, so a pointer made
by `as_ptr` is named here by the physical address it reaches.
-/

namespace AlexOS

abbrev Usize := Fin (2 ^ 64)

def pageSize : Nat := 4096

def sv39Levels : Nat := 3

def ptePerTable : Nat := 512

/-- `usize::div_ceil`. -/
def divCeil (a b : Nat) : Nat := (a + b - 1) / b

/-- `usize::next_multiple_of`. -/
def nextMultipleOf (a b : Nat) : Nat := divCeil a b * b

def alignDown (a : Nat) : Nat := a / pageSize * pageSize

/-- Rounding up adds `PAGE_SIZE` before it masks; overflow checks are on, so an
address in the last page of the word's range panics. -/
def alignUp (a : Nat) : Option Nat :=
  if a + pageSize < 2 ^ 64 then some ((a + pageSize - 1) / pageSize * pageSize) else none

def pageOffset (a : Nat) : Nat := a % pageSize

/-- `PhysAddr::ppn` and `VirtAddr::vpn`. -/
def pageNum (a : Nat) : Nat := a / pageSize

/-- `base_addr` and `as_ptr` of a frame or page number. -/
def baseAddr (p : Nat) : Nat := p * pageSize

theorem pageNum_baseAddr (p : Nat) : pageNum (baseAddr p) = p :=
  Nat.mul_div_cancel p (by decide)

/-- A word inside one frame leaves every other frame alone. -/
theorem write64_frame {p a : Nat} (m : Bytes.Mem) (v off : Nat) (hoff : off + 8 ≤ pageSize)
    (h : pageNum a ≠ p) : Bytes.write64 m (baseAddr p + off) v a = m a := by
  apply Bytes.write64_apart
  simp only [pageNum, baseAddr, pageSize] at *
  omega

theorem divCeil_mul_ge {a b : Nat} (h : 0 < b) : a ≤ divCeil a b * b := by
  have := Nat.div_add_mod (a + b - 1) b
  have := Nat.mod_lt (a + b - 1) h
  rw [divCeil, Nat.mul_comm]
  omega

theorem le_divCeil {a b c : Nat} (h : 0 < b) (hc : c * b ≤ a) : c ≤ divCeil a b := by
  rw [divCeil, Nat.le_div_iff_mul_le h]
  omega

theorem divCeil_mono {a a' : Nat} (b : Nat) (h : a ≤ a') : divCeil a b ≤ divCeil a' b :=
  Nat.div_le_div_right (by omega)

/-- A block of `b` that ends by `a` is one of the blocks `div_ceil` counts. -/
theorem lt_divCeil {a b i : Nat} (h : 0 < b) (hi : i * b + b ≤ a) : i < divCeil a b :=
  le_divCeil h (by rw [Nat.succ_mul]; exact hi)

end AlexOS
