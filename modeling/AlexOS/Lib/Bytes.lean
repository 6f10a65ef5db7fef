import Mathlib.Data.Nat.Bitwise

/-!
# Byte memory

Memory is a function from addresses to bytes. Words are stored little endian,
so a word read depends on exactly the bytes it covers, and a bitmap is an array
of 64-bit words read one bit at a time.
-/

namespace AlexOS.Bytes

abbrev Mem := Nat → UInt8

/-- The `n`-byte little-endian number stored at `a`. -/
def readLE (m : Mem) (a : Nat) : Nat → Nat
  | 0 => 0
  | n + 1 => (m a).toNat + 256 * readLE m (a + 1) n

def writeLE (m : Mem) (a n v : Nat) : Mem :=
  fun x => if a ≤ x ∧ x < a + n then UInt8.ofNat (v / 256 ^ (x - a)) else m x

def fill (m : Mem) (a n : Nat) (b : UInt8) : Mem :=
  fun x => if a ≤ x ∧ x < a + n then b else m x

/-- The byte string `bs` stored at `a`. -/
def writeBytes (m : Mem) (a : Nat) (bs : List UInt8) : Mem := fun x =>
  if a ≤ x ∧ x < a + bs.length then bs.getD (x - a) 0 else m x

def readBytes (m : Mem) (a n : Nat) : List UInt8 := (List.range n).map fun i => m (a + i)

def read64 (m : Mem) (a : Nat) : Nat := readLE m a 8

def write64 (m : Mem) (a v : Nat) : Mem := writeLE m a 8 v

theorem readLE_congr {m m' : Mem} {a : Nat} (n : Nat)
    (h : ∀ x, a ≤ x → x < a + n → m' x = m x) : readLE m' a n = readLE m a n := by
  induction n generalizing a with
  | zero => rfl
  | succ n ih =>
    rw [readLE, readLE, h a (by omega) (by omega), ih (fun x lo hi => h x (by omega) (by omega))]

theorem readLE_moved {m m' : Mem} {a b : Nat} (n : Nat) (h : ∀ k, k < n → m' (b + k) = m (a + k)) :
    readLE m' b n = readLE m a n := by
  induction n generalizing a b with
  | zero => rfl
  | succ n ih =>
    have first : m' b = m a := h 0 (by omega)
    have next : readLE m' (b + 1) n = readLE m (a + 1) n := ih fun k hk => by
      rw [Nat.add_assoc, Nat.add_assoc, Nat.add_comm 1]
      exact h (k + 1) (by omega)
    rw [readLE, readLE, first, next]

theorem readLE_lt (m : Mem) (a n : Nat) : readLE m a n < 256 ^ n := by
  induction n generalizing a with
  | zero => simp [readLE]
  | succ n ih =>
    have hb := (m a).toNat_lt
    have hr := ih (a + 1)
    simp only [readLE, Nat.pow_succ]
    omega

theorem readLE_of_bytes {m : Mem} {a : Nat} (n v : Nat)
    (h : ∀ i, i < n → m (a + i) = UInt8.ofNat (v / 256 ^ i)) : readLE m a n = v % 256 ^ n := by
  induction n generalizing a v with
  | zero => simp [readLE, Nat.mod_one]
  | succ n ih =>
    have first : (m a).toNat = v % 256 := by simpa using congrArg UInt8.toNat (h 0 (by omega))
    have rest : readLE m (a + 1) n = v / 256 % 256 ^ n := by
      apply ih
      intro i hi
      have := h (i + 1) (by omega)
      rwa [Nat.pow_succ, Nat.mul_comm, ← Nat.div_div_eq_div_mul, ← Nat.add_assoc,
        Nat.add_right_comm] at this
    rw [readLE, first, rest, Nat.pow_succ, Nat.mul_comm (256 ^ n), Nat.mod_mul]

theorem writeLE_apart {a n x : Nat} (m : Mem) (v : Nat) (h : x < a ∨ a + n ≤ x) :
    writeLE m a n v x = m x := by
  have : ¬ (a ≤ x ∧ x < a + n) := by omega
  simp [writeLE, this]

@[simp] theorem length_readBytes (m : Mem) (a n : Nat) : (readBytes m a n).length = n := by
  simp [readBytes]

theorem getD_readBytes {m : Mem} {a n k : Nat} (hk : k < n) :
    (readBytes m a n).getD k 0 = m (a + k) := by
  rw [List.getD_eq_getElem _ _ (by rwa [length_readBytes])]
  simp [readBytes]

theorem writeBytes_apart {a x : Nat} {bs : List UInt8} (m : Mem) (h : x < a ∨ a + bs.length ≤ x) :
    writeBytes m a bs x = m x := by
  apply if_neg
  omega

theorem readLE_writeLE_same (m : Mem) (a n v : Nat) :
    readLE (writeLE m a n v) a n = v % 256 ^ n := by
  apply readLE_of_bytes
  intro i hi
  simp [writeLE, hi]

theorem readLE_writeLE_apart {a n b k : Nat} (m : Mem) (v : Nat) (h : a + n ≤ b ∨ b + k ≤ a) :
    readLE (writeLE m a n v) b k = readLE m b k :=
  readLE_congr k fun x lo hi => writeLE_apart m v (by omega)

theorem readLE_zero {m : Mem} {a n : Nat} (h : ∀ x, a ≤ x → x < a + n → m x = 0) :
    readLE m a n = 0 := by
  induction n generalizing a with
  | zero => rfl
  | succ n ih =>
    rw [readLE, h a (by omega) (by omega), ih fun x lo hi => h x (by omega) (by omega)]
    rfl

theorem read64_lt (m : Mem) (a : Nat) : read64 m a < 2 ^ 64 := by
  simpa [read64] using readLE_lt m a 8

theorem read64_congr {m m' : Mem} {a : Nat} (h : ∀ x, a ≤ x → x < a + 8 → m' x = m x) :
    read64 m' a = read64 m a := readLE_congr 8 h

theorem read64_write64_same (m : Mem) {a v : Nat} (h : v < 2 ^ 64) :
    read64 (write64 m a v) a = v := by
  rw [read64, write64, readLE_writeLE_same]
  exact Nat.mod_eq_of_lt (by simpa using h)

theorem read64_write64_apart {a b : Nat} (m : Mem) (v : Nat) (h : a + 8 ≤ b ∨ b + 8 ≤ a) :
    read64 (write64 m a v) b = read64 m b := readLE_writeLE_apart m v h

theorem write64_apart {a x : Nat} (m : Mem) (v : Nat) (h : x < a ∨ a + 8 ≤ x) :
    write64 m a v x = m x := writeLE_apart m v h

/-! ## Bitmaps -/

/-- Bit `b` of the array of 64-bit words at `base`. -/
def bitAt (m : Mem) (base b : Nat) : Bool := (read64 m (base + 8 * (b / 64))).testBit (b % 64)

/-- Set or clear bit `b`, read-modify-write on its word. -/
def setBit (m : Mem) (base b : Nat) (v : Bool) : Mem :=
  let word := base + 8 * (b / 64)
  if v then write64 m word (read64 m word ||| 2 ^ (b % 64))
  else write64 m word (read64 m word &&& (2 ^ 64 - 1 - 2 ^ (b % 64)))

theorem setBit_apart {base b x : Nat} (m : Mem) (v : Bool)
    (h : x < base + 8 * (b / 64) ∨ base + 8 * (b / 64) + 8 ≤ x) : setBit m base b v x = m x := by
  cases v <;> exact write64_apart m _ h

theorem read64_setBit_same (m : Mem) (base b : Nat) (v : Bool) (i : Nat) :
    (read64 (setBit m base b v) (base + 8 * (b / 64))).testBit i =
      if i = b % 64 then v else (read64 m (base + 8 * (b / 64))).testBit i := by
  have hword := read64_lt m (base + 8 * (b / 64))
  have hbit : b % 64 < 64 := Nat.mod_lt _ (by decide)
  have hpow : 2 ^ (b % 64) < 2 ^ 64 := Nat.pow_lt_pow_right (by decide) hbit
  cases v with
  | true =>
    have hor := Nat.or_lt_two_pow hword hpow
    simp only [setBit, if_true]
    rw [read64_write64_same m hor, Nat.testBit_or, Nat.testBit_two_pow]
    by_cases hi : i = b % 64
    · simp [hi]
    · simp [hi, Ne.symm hi]
  | false =>
    have hand := Nat.lt_of_le_of_lt
      (Nat.and_le_left (n := read64 m (base + 8 * (b / 64))) (m := 2 ^ 64 - 1 - 2 ^ (b % 64))) hword
    simp only [setBit, Bool.false_eq_true, if_false]
    rw [read64_write64_same m hand, Nat.testBit_and,
      show 2 ^ 64 - 1 - 2 ^ (b % 64) = 2 ^ 64 - (2 ^ (b % 64) + 1) by omega,
      Nat.testBit_two_pow_sub_succ hpow, Nat.testBit_two_pow]
    by_cases hi : i = b % 64
    · simp [hi]
    · by_cases hw : i < 64
      · simp [hi, Ne.symm hi, hw]
      · have : (read64 m (base + 8 * (b / 64))).testBit i = false :=
          Nat.testBit_lt_two_pow (Nat.lt_of_lt_of_le hword
            (Nat.pow_le_pow_right (by decide) (by omega)))
        simp [hi, this]

theorem bitAt_setBit (m : Mem) (base b c : Nat) (v : Bool) :
    bitAt (setBit m base b v) base c = if c = b then v else bitAt m base c := by
  by_cases hw : c / 64 = b / 64
  · have hmod : (c % 64 = b % 64) ↔ c = b := by omega
    rw [bitAt, hw, read64_setBit_same]
    simp only [hmod, bitAt, hw]
  · have hc : c ≠ b := fun h => hw (h ▸ rfl)
    have apart : read64 (setBit m base b v) (base + 8 * (c / 64)) =
        read64 m (base + 8 * (c / 64)) :=
      read64_congr fun x lo hi => setBit_apart m v (by omega)
    simp [bitAt, apart, hc]

theorem bitAt_congr {m m' : Mem} {base b : Nat}
    (h : ∀ x, base + 8 * (b / 64) ≤ x → x < base + 8 * (b / 64) + 8 → m' x = m x) :
    bitAt m' base b = bitAt m base b := by
  rw [bitAt, read64_congr h, bitAt]

end AlexOS.Bytes
