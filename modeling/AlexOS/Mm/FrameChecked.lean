import AlexOS.Mm.Checked
import AlexOS.Mm.Coalesce

/-!
# The buddy allocator with overflow checks on

`frame.rs` once more with its sums and its table lookups as the checked ones. None of
them fails as long as the free lists represent blocks of the managed range. Callers
have no word for a panic of an allocation, so the allocator made of the checked
operations notes it in its own record.
-/

namespace AlexOS

open Bytes Checked

/-! ## An allocator that notes its panics -/

structure Noted (σ : Type) where
  pool : σ
  panicked : Bool

section
variable {σ : Type}

def Phys.plain (s : Phys (Noted σ)) : Phys σ := ⟨s.mem, s.pool.pool⟩

def Phys.noted (s : Phys σ) (panicked : Bool) : Phys (Noted σ) := ⟨s.mem, s.pool, panicked⟩

variable {A : CountedAllocator σ}

namespace ChecksOf

end ChecksOf

end

/-! ## The checked operations -/

namespace Buddy

open Blocks State

namespace State

/-- The node of a neighbour, where there is one. -/
def linkChecked (s : State) (idx : Nat) : Option Unit :=
  if idx = nil then some () else (add 64 s.pool.base idx).map fun _ => ()

def bitIndexChecked (s : State) (order idx : Nat) : Option Nat :=
  if maxOrder < order then none else add 64 (s.pool.orderBitBase order) (idx / 2 ^ order)

def pushChecked (s : State) (order idx : Nat) : Option State := do
  let _ ← add 64 s.pool.base idx
  s.linkChecked (s.pool.freeLists order)
  let _ ← s.bitIndexChecked order idx
  some (s.push order idx)

end State

/-! ## None of the checks fails -/

theorem bitsBelow_le_mul (frames k : Nat) : bitsBelow frames k ≤ k * frames := by
  induction k with
  | zero => exact Nat.zero_le _
  | succ k ih =>
    have hpos := Nat.two_pow_pos k
    have : divCeil frames (2 ^ k) ≤ frames := by
      rw [divCeil, Nat.div_le_iff_le_mul_add_pred hpos]
      have := Nat.mul_le_mul_right frames hpos
      omega
    rw [bitsBelow_succ, Nat.add_mul, Nat.one_mul]
    omega

section
variable {s : State} {L : Nat → List Nat} {k x : Nat}

theorem Geometry.range_le {a : BuddyAllocator} (g : Geometry a) : a.base + a.frames ≤ 2 ^ 52 := by
  have := g.top
  simp only [baseAddr, pageSize] at this
  omega

theorem Geometry.node_some (g : Geometry s.pool) (hx : x < s.pool.frames) :
    add 64 s.pool.base x = some (s.pool.base + x) := by
  have := g.range_le
  exact add_some (by omega)

theorem linkChecked_some (g : Geometry s.pool) (h : x ≠ nil → x < s.pool.frames) :
    s.linkChecked x = some () := by
  rw [linkChecked]
  split
  · rfl
  · rename_i hx
    rw [g.node_some (h hx)]
    rfl

theorem bitIndexChecked_eq (g : Geometry s.pool) (hk : k ≤ maxOrder) (hx : x < s.pool.frames) :
    s.bitIndexChecked k x = some (s.bitIndex k x) := by
  have hbits : s.pool.orderBitBase k ≤ 10 * s.pool.frames := by
    rw [g.bitBase]
    exact (bitsBelow_le_mul _ _).trans (Nat.mul_le_mul_right _ hk)
  have := g.range_le
  have := Nat.div_le_self x (2 ^ k)
  rw [bitIndexChecked, if_neg (Nat.not_lt.mpr hk)]
  exact add_some (by omega)

theorem pushChecked_eq (r : Rep s L) (b : Block s.pool.frames k x) :
    s.pushChecked k x = some (s.push k x) := by
  have g := r.geometry
  have hhead : s.pool.freeLists k ≠ nil → s.pool.freeLists k < s.pool.frames := fun h =>
    (r.blocks k b.1 _ (r.head_mem b.1 h)).lt
  rw [pushChecked, g.node_some b.lt, linkChecked_some g hhead, bitIndexChecked_eq g b.1 b.lt]
  rfl

end

/-! ## The allocator -/

end Buddy

end AlexOS
