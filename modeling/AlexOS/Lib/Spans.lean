import Mathlib.Algebra.BigOperators.Group.Multiset.Basic
import Mathlib.Algebra.Order.BigOperators.Group.Multiset
import Mathlib.Data.Multiset.Bind

/-!
# Spans of addresses

A multiset of spans is judged by how many of them lie over an address. At most one over
each address makes any two of them disjoint, and cutting a span into equal pieces changes
nothing an address can see.
-/

namespace AlexOS.Spans

structure Span where
  start : Nat
  len : Nat
deriving DecidableEq

namespace Span

def covers (s : Span) (a : Nat) : Nat := if s.start ≤ a ∧ a < s.start + s.len then 1 else 0

def Apart (s t : Span) : Prop := s.start + s.len ≤ t.start ∨ t.start + t.len ≤ s.start

variable {s : Span} {a : Nat}

theorem covers_eq_one (lo : s.start ≤ a) (hi : a < s.start + s.len) : s.covers a = 1 :=
  if_pos ⟨lo, hi⟩

end Span

/-- Spans over the address `a`. -/
def depth (m : Multiset Span) (a : Nat) : Nat := (m.map fun s => s.covers a).sum

/-- Total length. -/
def bytes (m : Multiset Span) : Nat := (m.map Span.len).sum

variable {ι : Type} {s t : Span} {m : Multiset Span} {a : Nat}

@[simp] theorem depth_cons (s : Span) (m : Multiset Span) (a : Nat) :
    depth (s ::ₘ m) a = s.covers a + depth m a := by simp [depth]

@[simp] theorem depth_add (m n : Multiset Span) (a : Nat) :
    depth (m + n) a = depth m a + depth n a := by
  simp [depth]

theorem depth_map (m : Multiset ι) (f : ι → Span) (a : Nat) :
    depth (m.map f) a = (m.map fun i => (f i).covers a).sum := by
  simp [depth, Multiset.map_map]

theorem depth_bind (m : Multiset ι) (f : ι → Multiset Span) (a : Nat) :
    depth (m.bind f) a = (m.map fun i => depth (f i) a).sum := by
  simp [depth, Multiset.map_bind, Multiset.sum_bind]

/-- Cutting some of the spans up changes nothing an address can see. -/
theorem depth_cut {κ : Type} (m : Multiset ι) (n : Multiset κ) {f : ι → Multiset Span}
    {g : κ → Span} {k : ι → κ} (cut : ∀ i, depth (f i) a = (g (k i)).covers a) :
    depth (m.bind f + n.map g) a = ((m.map k + n).map fun x => (g x).covers a).sum := by
  simp [depth_bind, depth_map, cut]

@[simp] theorem bytes_cons (s : Span) (m : Multiset Span) : bytes (s ::ₘ m) = s.len + bytes m := by
  simp [bytes]

@[simp] theorem bytes_add (m n : Multiset Span) : bytes (m + n) = bytes m + bytes n := by
  simp [bytes]

theorem bytes_bind (m : Multiset ι) (f : ι → Multiset Span) :
    bytes (m.bind f) = (m.map fun i => bytes (f i)).sum := by
  simp [bytes, Multiset.map_bind, Multiset.sum_bind]

theorem depth_of_mem (h : s ∈ m) (lo : s.start ≤ a) (hi : a < s.start + s.len) : 0 < depth m a := by
  obtain ⟨rest, rfl⟩ := Multiset.exists_cons_of_mem h
  rw [depth_cons, s.covers_eq_one lo hi]
  omega

/-- With at most one span over each address, two of them do not meet. -/
theorem apart_of_depth (h : ∀ a, depth (s ::ₘ m) a ≤ 1) (ht : t ∈ m) (hs : 0 < s.len)
    (htlen : 0 < t.len) : s.Apart t := by
  by_contra meet
  simp only [Span.Apart, not_or, Nat.not_le] at meet
  have one := h (max s.start t.start)
  have first := s.covers_eq_one (a := max s.start t.start) (by omega) (by omega)
  have second := depth_of_mem (a := max s.start t.start) ht (by omega) (by omega)
  rw [depth_cons] at one
  omega

theorem nodup_of_depth (h : ∀ a, depth m a ≤ 1) (pos : ∀ s ∈ m, 0 < s.len) : m.Nodup := by
  refine Multiset.nodup_iff_ne_cons_cons.mpr fun s rest hm => ?_
  subst hm
  have hs := pos s (Multiset.mem_cons_self s _)
  have apart := apart_of_depth h (Multiset.mem_cons_self s rest) hs hs
  simp only [Span.Apart] at apart
  omega

theorem apart_of_ne (h : ∀ a, depth m a ≤ 1) (pos : ∀ s ∈ m, 0 < s.len) (hs : s ∈ m) (ht : t ∈ m)
    (hne : s ≠ t) : s.Apart t := by
  obtain ⟨rest, rfl⟩ := Multiset.exists_cons_of_mem hs
  have ht' := (Multiset.mem_cons.mp ht).resolve_left (Ne.symm hne)
  exact apart_of_depth h ht' (pos s hs) (pos t ht)

/-- `n` pieces of length `len`, from `start` upwards. -/
def pieces (start len n : Nat) : List Span := (List.range n).map fun i => ⟨start + i * len, len⟩

theorem pieces_succ (start len n : Nat) :
    (pieces start len (n + 1) : Multiset Span) =
      ⟨start + n * len, len⟩ ::ₘ (pieces start len n : Multiset Span) := by
  rw [pieces, List.range_succ, List.map_append, ← Multiset.coe_add, Multiset.add_comm]
  rfl

theorem depth_pieces (start len n a : Nat) :
    depth (pieces start len n) a = (⟨start, n * len⟩ : Span).covers a := by
  induction n with
  | zero => simp [pieces, depth, Span.covers]
  | succ n ih =>
    rw [pieces_succ, depth_cons, ih]
    simp only [Span.covers, Nat.add_mul, Nat.one_mul]
    split <;> split <;> split <;> omega

theorem map_start_pieces (start len n : Nat) :
    (pieces start len n).map Span.start = (List.range n).map fun i => start + i * len := by
  rw [pieces, List.map_map]
  rfl

/-- Spans of one length are kept or left out together. -/
theorem filter_len {n : Nat} (h : ∀ s ∈ m, s.len = n) (k : Nat) :
    m.filter (fun s => s.len = k) = if n = k then m else 0 := by
  split
  · rename_i heq
    exact Multiset.filter_eq_self.mpr fun s hs => (h s hs).trans heq
  · rename_i hne
    exact Multiset.filter_eq_nil.mpr fun s hs heq => hne ((h s hs).symm.trans heq)

theorem bytes_pieces (start len n : Nat) : bytes (pieces start len n) = n * len := by
  induction n with
  | zero => simp [pieces, bytes]
  | succ n ih => rw [pieces_succ, bytes_cons, ih, Nat.add_mul, Nat.one_mul, Nat.add_comm]

end AlexOS.Spans
