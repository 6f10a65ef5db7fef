import AlexOS.Lib.Run
import Mathlib.Logic.Function.Basic

/-!
# The receive ring of the UART

`RxRing` of `kernel/src/drivers/uart.rs` with the handler that fills it. Head and
tail run modulo 256, and one slot stays free so that a full ring is not taken for an
empty one. What waits in it is read off from `head` on; over any calls the ring
answers as a queue of 255 bytes does.
-/

namespace AlexOS

def RxRing.cap : Nat := 256

structure RxRing where
  buf : Nat → UInt8
  head : Nat
  tail : Nat
  head_lt : head < RxRing.cap
  tail_lt : tail < RxRing.cap

namespace RxRing

def new : RxRing := ⟨fun _ => 0, 0, 0, by decide, by decide⟩

/-- A full ring drops the byte. -/
def push (r : RxRing) (byte : UInt8) : Bool × RxRing :=
  if (r.tail + 1) % cap = r.head then (false, r)
  else (true, { r with
    buf := Function.update r.buf r.tail byte
    tail := (r.tail + 1) % cap
    tail_lt := Nat.mod_lt _ (by decide) })

def pop (r : RxRing) : Option (UInt8 × RxRing) :=
  if r.head = r.tail then none
  else some (r.buf r.head, { r with
    head := (r.head + 1) % cap
    head_lt := Nat.mod_lt _ (by decide) })

def isEmpty (r : RxRing) : Bool := r.head == r.tail

/-- The loop of `handle_interrupt` over what the UART has received: how many bytes
went into the ring, and what it left in the UART. The byte that did not fit is gone. -/
def handleInterrupt (r : RxRing) : List UInt8 → Nat × RxRing × List UInt8
  | [] => (0, r, [])
  | byte :: rest =>
    match r.push byte with
    | (false, r) => (0, r, rest)
    | (true, r) =>
      let (queued, r, rest) := r.handleInterrupt rest
      (queued + 1, r, rest)

/-- The bytes that wait. -/
def used (r : RxRing) : Nat := (r.tail + cap - r.head) % cap

theorem pop_none {r : RxRing} : r.pop = none ↔ r.used = 0 := by
  have := r.head_lt
  have := r.tail_lt
  simp only [pop, used, cap] at *
  split <;> simp <;> omega

theorem pop_some {r r' : RxRing} {byte : UInt8} (h : r.pop = some (byte, r')) :
    r'.used + 1 = r.used := by
  have := r.head_lt
  have := r.tail_lt
  rw [pop] at h
  split at h
  · cases h
  · obtain ⟨-, rfl⟩ := Prod.mk.inj (Option.some.inj h)
    simp only [used, cap] at *
    omega

/-! ## The queue it stands for -/

/-- The bytes from `head` on, oldest first. -/
def queued (r : RxRing) : List UInt8 :=
  (List.range r.used).map fun i => r.buf ((r.head + i) % cap)

theorem length_queued (r : RxRing) : r.queued.length = r.used := by simp [queued]

theorem full_iff (r : RxRing) : (r.tail + 1) % cap = r.head ↔ ¬ r.used < cap - 1 := by
  have := r.head_lt
  have := r.tail_lt
  simp only [used, cap] at *
  omega

theorem empty_iff (r : RxRing) : r.head = r.tail ↔ r.used = 0 := by
  have := r.head_lt
  have := r.tail_lt
  simp only [used, cap] at *
  omega

/-- The tail is the slot after the last one in use. -/
theorem tail_eq (r : RxRing) : r.tail = (r.head + r.used) % cap := by
  have := r.head_lt
  have := r.tail_lt
  simp only [used, cap] at *
  omega

theorem slot_ne_tail {r : RxRing} {i : Nat} (h : i < r.used) : (r.head + i) % cap ≠ r.tail := by
  have := r.head_lt
  have := r.tail_lt
  simp only [used, cap] at *
  omega

theorem queued_push {r : RxRing} (byte : UInt8) (room : r.used < cap - 1) :
    (r.push byte).1 = true ∧ (r.push byte).2.queued = r.queued ++ [byte] := by
  have notFull : ¬ (r.tail + 1) % cap = r.head := fun full => (full_iff r).mp full room
  rw [push, if_neg notFull]
  refine ⟨rfl, ?_⟩
  have hused : ({ r with
      buf := Function.update r.buf r.tail byte
      tail := (r.tail + 1) % cap
      tail_lt := Nat.mod_lt _ (by decide) } : RxRing).used = r.used + 1 := by
    have := r.head_lt
    have := r.tail_lt
    simp only [used, cap] at *
    omega
  rw [queued, hused, List.range_succ, List.map_append, queued]
  congr 1
  · apply List.map_congr_left
    intro i hi
    exact Function.update_of_ne (slot_ne_tail (List.mem_range.mp hi)) _ _
  · show [Function.update r.buf r.tail byte ((r.head + r.used) % cap)] = [byte]
    rw [← tail_eq, Function.update_self]

theorem push_failed {r : RxRing} {byte : UInt8} (h : (r.push byte).1 = false) :
    (r.push byte).2 = r := by
  rw [push] at h ⊢
  split at h
  · rw [if_pos (by assumption)]
  · cases h

theorem queued_pop {r r' : RxRing} {byte : UInt8} (h : r.pop = some (byte, r')) :
    r.queued = byte :: r'.queued := by
  have hused := pop_some h
  rw [pop] at h
  split at h
  · cases h
  · obtain ⟨rfl, rfl⟩ := Prod.mk.inj (Option.some.inj h)
    rw [queued, ← hused, List.range_succ_eq_map, List.map_cons, List.map_map, Nat.add_zero,
      Nat.mod_eq_of_lt r.head_lt, queued]
    congr 1
    apply List.map_congr_left
    intro i _
    simp only [Function.comp_apply, Nat.succ_eq_add_one, Nat.mod_add_mod]
    rw [Nat.add_assoc, Nat.add_comm 1 i]

theorem isEmpty_queued (r : RxRing) : r.isEmpty = r.queued.isEmpty := by
  rw [isEmpty, Bool.eq_iff_iff, beq_iff_eq, empty_iff, List.isEmpty_iff_length_eq_zero,
    length_queued]

/-- The handler queues what the UART holds as long as there is room. -/
theorem queued_handleInterrupt (r : RxRing) (rx : List UInt8) :
    (r.handleInterrupt rx).2.1.queued = r.queued ++ rx.take (cap - 1 - r.used) ∧
      (r.handleInterrupt rx).1 = min rx.length (cap - 1 - r.used) := by
  induction rx generalizing r with
  | nil => simp [handleInterrupt]
  | cons byte rest ih =>
    rw [handleInterrupt]
    by_cases room : r.used < cap - 1
    · obtain ⟨hok, hqueued⟩ := queued_push byte room
      obtain ⟨ihq, ihn⟩ := ih (r.push byte).2
      have hused : (r.push byte).2.used = r.used + 1 := by
        rw [← length_queued, hqueued, List.length_append, length_queued, List.length_singleton]
      have hsplit : cap - 1 - r.used = cap - 1 - (r.used + 1) + 1 := by omega
      rcases hpush : r.push byte with ⟨ok, r'⟩
      rw [hpush] at hok hqueued ihq ihn hused
      obtain rfl : ok = true := hok
      simp only [ihq, ihn, hqueued, hused, hsplit, List.take_succ_cons, List.append_assoc,
        List.singleton_append, List.length_cons, Nat.add_min_add_right, and_self]
    · have hfull := (full_iff r).mpr room
      have hzero : cap - 1 - r.used = 0 := by omega
      simp [push, hfull, hzero]

end RxRing

/-! ## Any calls in any order -/

namespace RxRing

inductive Op where
  | push (byte : UInt8)
  | pop
  | isEmpty
  | interrupt (rx : List UInt8)
deriving DecidableEq, Repr

inductive Answer where
  | pushed (ok : Bool)
  | popped (byte : Option UInt8)
  | empty (yes : Bool)
  | handled (queued : Nat)
deriving DecidableEq, Repr

def call (r : RxRing) : Op → Answer × RxRing
  | .push byte => (.pushed (r.push byte).1, (r.push byte).2)
  | .pop =>
    match r.pop with
    | none => (.popped none, r)
    | some (byte, r) => (.popped (some byte), r)
  | .isEmpty => (.empty r.isEmpty, r)
  | .interrupt rx => (.handled (r.handleInterrupt rx).1, (r.handleInterrupt rx).2.1)

end RxRing

/-- A queue of at most `capacity` bytes. -/
def Fifo.call (capacity : Nat) (q : List UInt8) : RxRing.Op → RxRing.Answer × List UInt8
  | .push byte =>
    if q.length < capacity then (.pushed true, q ++ [byte]) else (.pushed false, q)
  | .pop =>
    match q with
    | [] => (.popped none, [])
    | byte :: q => (.popped (some byte), q)
  | .isEmpty => (.empty q.isEmpty, q)
  | .interrupt rx =>
    (.handled (min rx.length (capacity - q.length)), q ++ rx.take (capacity - q.length))

namespace RxRing

/-- The bytes whose push returned true, those of the handler among them. -/
def accepted : List Op → List Answer → List UInt8
  | .push byte :: ops, .pushed true :: as => byte :: accepted ops as
  | .interrupt rx :: ops, .handled n :: as => rx.take n ++ accepted ops as
  | _ :: ops, _ :: as => accepted ops as
  | _, _ => []

/-- The bytes that pops returned. -/
def taken : List Answer → List UInt8
  | .popped (some byte) :: as => byte :: taken as
  | _ :: as => taken as
  | [] => []

theorem call_fifo (r : RxRing) (op : Op) :
    (r.call op).1 = (Fifo.call (cap - 1) r.queued op).1 ∧
      (r.call op).2.queued = (Fifo.call (cap - 1) r.queued op).2 := by
  cases op with
  | push byte =>
    rw [call, Fifo.call, length_queued]
    split
    · rename_i room
      obtain ⟨hok, hqueued⟩ := queued_push byte room
      exact ⟨congrArg Answer.pushed hok, hqueued⟩
    · rename_i full
      rw [push, if_pos ((full_iff r).mpr full)]
      exact ⟨rfl, rfl⟩
  | pop =>
    rcases hpop : r.pop with _ | ⟨byte, r'⟩
    · have hnil : r.queued = [] := by
        rw [← List.length_eq_zero_iff, length_queued]
        exact pop_none.mp hpop
      rw [call, hpop, hnil]
      exact ⟨rfl, rfl⟩
    · rw [call, hpop, queued_pop hpop]
      exact ⟨rfl, rfl⟩
  | isEmpty => exact ⟨congrArg Answer.empty (isEmpty_queued r), rfl⟩
  | interrupt rx =>
    obtain ⟨hqueued, hcount⟩ := queued_handleInterrupt r rx
    rw [call, Fifo.call, length_queued]
    exact ⟨congrArg Answer.handled hcount, hqueued⟩

/-- What a queue took in is what it gave out and what it still holds, in order. -/
theorem accepted_fifo (capacity : Nat) (q : List UInt8) (ops : List Op) :
    q ++ accepted ops (answers (Fifo.call capacity) q ops).1 =
      taken (answers (Fifo.call capacity) q ops).1 ++ (answers (Fifo.call capacity) q ops).2 := by
  induction ops generalizing q with
  | nil => simp [answers, accepted, taken]
  | cons op ops ih =>
    cases op with
    | push byte =>
      simp only [answers, Fifo.call]
      split
      · simpa [accepted, taken] using ih (q ++ [byte])
      · simpa [accepted, taken] using ih q
    | pop =>
      cases q with
      | nil => simpa [answers, Fifo.call, accepted, taken] using ih []
      | cons byte q => simpa [answers, Fifo.call, accepted, taken] using ih q
    | isEmpty => simpa [answers, Fifo.call, accepted, taken] using ih q
    | interrupt rx =>
      have htake : rx.take (min rx.length (capacity - q.length)) = rx.take (capacity - q.length) :=
        List.take_eq_take_iff.mpr (by omega)
      simpa [answers, Fifo.call, accepted, taken, htake] using
        ih (q ++ rx.take (capacity - q.length))

/-- Over any calls the ring answers as a queue of 255 bytes and holds what that queue
holds; a push that fails leaves it as it was, and what was pushed comes out in order. -/
theorem answers_fifo (ops : List Op) :
    let run := answers call new ops
    let spec := answers (Fifo.call 255) [] ops
    run.1 = spec.1 ∧ run.2.queued = spec.2 ∧
      (∀ byte, (run.2.push byte).1 = false → (run.2.push byte).2 = run.2) ∧
      accepted ops run.1 = taken run.1 ++ run.2.queued := by
  have refines := answers_refines (f := call) (g := Fifo.call (cap - 1))
    (R := fun r q => r.queued = q)
    (fun r q op same => same ▸ call_fifo r op) (show new.queued = [] from rfl) ops
  refine ⟨refines.1, refines.2, fun _ => push_failed, ?_⟩
  rw [refines.1, refines.2]
  exact accepted_fifo (cap - 1) [] ops

end RxRing

end AlexOS
