import AlexOS.Mm.FrameRun

/-!
# The allocator and the memory of its clients

`alloc_frames` of `kernel/src/mm/frame.rs` takes a block under the lock and
clears it after the lock is released, so other calls and the stores of other
owners come in between. Whatever the order, a live block is written by its
owner only, it is clear when it is returned, and a store by an owner changes
neither the lists nor the bitmap.
-/

namespace AlexOS

open Blocks Bytes

/-- The bytes of a block, `PAGE_SIZE << order` of them. -/
def Frame.Has (f : Frame) (a : Nat) : Prop :=
  baseAddr f.ppn ≤ a ∧ a < baseAddr f.ppn + pageSize <<< f.order

theorem Frame.has_iff {f : Frame} {a : Nat} :
    f.Has a ↔ f.ppn ≤ pageNum a ∧ pageNum a < f.ppn + f.count := by
  rw [Frame.Has, Nat.shiftLeft_eq, Frame.count]
  simp only [baseAddr, pageNum, pageSize]
  omega

theorem Kept.has {live : Multiset Frame} {m m' : Mem} {f : Frame} {a : Nat} (h : Kept live m m')
    (hf : f ∈ live) (ha : f.Has a) : m' a = m a := by
  obtain ⟨lo, hi⟩ := Frame.has_iff.mp ha
  exact h a (framesOver_of_mem hf lo hi)

/-- Two live blocks that share a byte are one. -/
theorem Frame.Has.unique {live : Multiset Frame} {f g : Frame} {a : Nat}
    (hfa : f.Has a) (hga : g.Has a)
    (apart : ∀ p, framesOver live p ≤ 1) (hf : f ∈ live) (hg : g ∈ live) : f = g := by
  obtain ⟨flo, fhi⟩ := Frame.has_iff.mp hfa
  obtain ⟨glo, ghi⟩ := Frame.has_iff.mp hga
  exact frame_unique (apart (pageNum a)) hf hg (cover_eq_one flo fhi) (cover_eq_one glo ghi)

namespace Buddy

open State

/-- The allocator, the blocks that were returned, and those `alloc_frames` is clearing,
each with the number of bytes done. -/
structure Clients where
  state : State
  live : List Frame
  clearing : List (Frame × Nat)

namespace Clients

inductive Op where
  | alloc (order : Nat)
  | allocFrames (order : Nat)
  | clear (frame : Frame)
  | returns (frame : Frame)
  | free (frame : Frame)
  | write (frame : Frame) (addr : Nat) (byte : UInt8)

/-- `alloc_frame` is `alloc_frames` of order 0, and `free_frames` is `free` under the lock. -/
inductive Step : Clients → Op → Clients → Prop where
  | alloc {s s' : State} {live : List Frame} {clearing : List (Frame × Nat)} {order ppn : Nat} :
      s.alloc order = (some ppn, s') →
      Step ⟨s, live, clearing⟩ (.alloc order) ⟨s', ⟨ppn, order⟩ :: live, clearing⟩
  | allocFrames {s s' : State} {live : List Frame}
      {clearing : List (Frame × Nat)} {order ppn : Nat} :
      s.alloc order = (some ppn, s') →
      Step ⟨s, live, clearing⟩ (.allocFrames order) ⟨s', live, (⟨ppn, order⟩, 0) :: clearing⟩
  | exhausted {s s' : State} {live : List Frame} {clearing : List (Frame × Nat)} {order : Nat}
      {op : Op} : op = .alloc order ∨ op = .allocFrames order → s.alloc order = (none, s') →
      Step ⟨s, live, clearing⟩ op ⟨s', live, clearing⟩
  | clear {s : State} {live : List Frame} {clearing : List (Frame × Nat)} {f : Frame} {n : Nat} :
      (f, n) ∈ clearing → n < pageSize <<< f.order →
      Step ⟨s, live, clearing⟩ (.clear f)
        ⟨{ s with mem := Function.update s.mem (baseAddr f.ppn + n) 0 },
          live, (f, n + 1) :: clearing.erase (f, n)⟩
  | returns {s : State} {live : List Frame} {clearing : List (Frame × Nat)} {f : Frame} :
      (f, pageSize <<< f.order) ∈ clearing →
      Step ⟨s, live, clearing⟩ (.returns f)
        ⟨s, f :: live, clearing.erase (f, pageSize <<< f.order)⟩
  | free {s s' : State} {live : List Frame} {clearing : List (Frame × Nat)} {f : Frame} :
      f ∈ live → s.free f.ppn f.order = some s' →
      Step ⟨s, live, clearing⟩ (.free f) ⟨s', live.erase f, clearing⟩
  | write {s : State} {live : List Frame} {clearing : List (Frame × Nat)} {f : Frame} {a : Nat}
      {v : UInt8} : f ∈ live → f.Has a →
      Step ⟨s, live, clearing⟩ (.write f a v)
        ⟨{ s with mem := Function.update s.mem a v }, live, clearing⟩

def system : System Clients Op where
  init c := (∃ mem start end_, State.init mem start end_ = some c.state) ∧ c.live = [] ∧
    c.clearing = []
  step := Step

/-- What one operation does to the memory of the others. -/
structure Undisturbed (c : Clients) (op : Op) (c' : Clients) : Prop where
  live : ∀ f ∈ c.live, f ∈ c'.live → ∀ a, f.Has a → (∀ v, op ≠ .write f a v) →
    c'.state.mem a = c.state.mem a
  clearing : ∀ x ∈ c.clearing, op ≠ .clear x.1 → ∀ a, x.1.Has a →
    c'.state.mem a = c.state.mem a
  zeroed : ∀ f, op = .returns f → f ∈ c'.live ∧ ∀ a, f.Has a → c'.state.mem a = 0
  /-- A store of an owner changes no word that the allocator goes by. -/
  lists : ∀ f a v, op = .write f a v → c'.state.pool = c.state.pool ∧
    (∀ k xs, k ≤ maxOrder → Chain.Linked c.state.next c.state.prev nil nil
      (c.state.pool.freeLists k) xs →
      ∀ x ∈ xs, c'.state.next x = c.state.next x ∧ c'.state.prev x = c.state.prev x) ∧
    ∀ b, c.state.pool.bitmap ≤ b →
      b < c.state.pool.bitmap + 8 * divCeil (bitsBelow c.state.pool.frames (maxOrder + 1)) 64 →
      c'.state.mem b = c.state.mem b

/-- All blocks that are handed out. -/
def held (c : Clients) : Multiset Frame := c.live + c.clearing.map Prod.fst

structure Ok (c : Clients) (L : Nat → List Nat) : Prop where
  inv : Inv c.state c.held L
  done : ∀ x ∈ c.clearing, ∀ j < x.2, c.state.mem (baseAddr x.1.ppn + j) = 0
  fits : ∀ x ∈ c.clearing, x.2 ≤ pageSize <<< x.1.order

section
variable {c c' : Clients} {L : Nat → List Nat} {op : Op} {f : Frame} {a n : Nat} {v : UInt8}

theorem mem_held_live (hf : f ∈ c.live) : f ∈ c.held :=
  Multiset.mem_add.mpr (.inl (Multiset.mem_coe.mpr hf))

theorem mem_held_clearing (hf : (f, n) ∈ c.clearing) : f ∈ c.held :=
  Multiset.mem_add.mpr (.inr (Multiset.mem_coe.mpr (List.mem_map_of_mem (f := Prod.fst) hf)))

theorem Ok.apart (h : c.Ok L) (hf : f ∈ c.live) (hfa : f.Has a) {x : Frame × Nat}
    (hx : x ∈ c.clearing) : ¬ x.1.Has a := by
  intro hxa
  obtain ⟨flo, fhi⟩ := Frame.has_iff.mp hfa
  obtain ⟨xlo, xhi⟩ := Frame.has_iff.mp hxa
  have hle := h.inv.live_le (pageNum a)
  have := framesOver_of_mem (Multiset.mem_coe.mpr hf) flo fhi
  have := framesOver_of_mem (Multiset.mem_coe.mpr (List.mem_map_of_mem (f := Prod.fst) hx)) xlo xhi
  rw [held, framesOver_add] at hle
  omega

theorem has_offset {j : Nat} (hj : j < pageSize <<< f.order) : f.Has (baseAddr f.ppn + j) :=
  ⟨Nat.le_add_right _ _, Nat.add_lt_add_left hj _⟩

theorem Ok.kept (h : c.Ok L) {m : Mem}
    (kept : Kept (c.clearing.map Prod.fst : List Frame) c.state.mem m) :
    ∀ x ∈ c.clearing, ∀ j < x.2, m (baseAddr x.1.ppn + j) = 0 := by
  intro x hx j hj
  have hin := Multiset.mem_coe.mpr (List.mem_map_of_mem (f := Prod.fst) hx)
  rw [kept.has hin (has_offset (Nat.lt_of_lt_of_le hj (h.fits x hx)))]
  exact h.done x hx j hj

theorem Ok.store (h : c.Ok L) (hf : f ∈ c.held) (ha : f.Has a) (v : UInt8) :
    Inv { c.state with mem := Function.update c.state.mem a v } c.held L := by
  refine h.inv.write fun b hb => Function.update_of_ne ?_ ..
  rintro rfl
  obtain ⟨lo, hi⟩ := Frame.has_iff.mp ha
  exact absurd hb (framesOver_of_mem hf lo hi).ne'

theorem clearing_perm {clearing : List (Frame × Nat)} (hx : (f, n) ∈ clearing) :
    (clearing.map Prod.fst : Multiset Frame) =
      f ::ₘ ((clearing.erase (f, n)).map Prod.fst : List Frame) := by
  rw [Multiset.cons_coe, Multiset.coe_eq_coe]
  exact (List.perm_cons_erase hx).map Prod.fst

theorem kept_held {m m' : Mem} (kept : Kept c.held m m') :
    Kept c.live m m' ∧ Kept (c.clearing.map Prod.fst : List Frame) m m' :=
  ⟨kept.mono (Multiset.le_add_right _ _), kept.mono (Multiset.le_add_left _ _)⟩

theorem Step.ok (h : Step c op c') (ok : c.Ok L) : ∃ L', c'.Ok L' := by
  cases h with
  | @alloc s s' live clearing order ppn heq =>
    rcases ok.inv.alloc order with none | ⟨_, _, L', heq', inv, -, -, kept⟩
    · exact nomatch none.symm.trans heq
    · obtain ⟨rfl, rfl⟩ : ppn = _ ∧ s' = _ := by simpa using heq.symm.trans heq'
      refine ⟨L', ?_, ok.kept (kept_held kept).2, ok.fits⟩
      rwa [held, ← Multiset.cons_coe, Multiset.cons_add]
  | @allocFrames s s' live clearing order ppn heq =>
    rcases ok.inv.alloc order with none | ⟨_, _, L', heq', inv, -, -, kept⟩
    · exact nomatch none.symm.trans heq
    · obtain ⟨rfl, rfl⟩ : ppn = _ ∧ s' = _ := by simpa using heq.symm.trans heq'
      refine ⟨L', ?_, List.forall_mem_cons.mpr ⟨nofun, ok.kept (kept_held kept).2⟩,
        List.forall_mem_cons.mpr ⟨Nat.zero_le _, ok.fits⟩⟩
      rwa [held, List.map_cons, ← Multiset.cons_coe, Multiset.add_cons]
  | @exhausted s s' live clearing order op hop heq =>
    rcases ok.inv.alloc order with none | ⟨_, _, _, heq', -⟩
    · obtain rfl : s' = s := by simpa using heq.symm.trans none
      exact ⟨L, ok⟩
    · exact nomatch heq'.symm.trans heq
  | @clear s live clearing f n hx hn =>
    have inv := ok.store (mem_held_clearing hx) (has_offset hn) 0
    refine ⟨L, ?_, ?_, ?_⟩
    · rw [held, clearing_perm hx] at inv
      rwa [held, List.map_cons, ← Multiset.cons_coe]
    · have keep : ∀ b, s.mem b = 0 → Function.update s.mem (baseAddr f.ppn + n) 0 b = 0 := by
        intro b hb
        rw [Function.update_apply, hb, ite_self]
      refine List.forall_mem_cons.mpr ⟨fun j hj => ?_, fun x hx' j hj => ?_⟩
      · by_cases hjn : j = n
        · rw [hjn]
          exact Function.update_self ..
        · exact keep (baseAddr f.ppn + j) (ok.done _ hx j
            (show j < n by have : j < n + 1 := hj; omega))
      · exact keep (baseAddr x.1.ppn + j) (ok.done x (List.mem_of_mem_erase hx') j hj)
    · exact List.forall_mem_cons.mpr ⟨Nat.succ_le_of_lt hn,
        fun x hx' => ok.fits x (List.mem_of_mem_erase hx')⟩
  | @returns s live clearing f hx =>
    refine ⟨L, ?_, fun x hx' => ok.done x (List.mem_of_mem_erase hx'),
      fun x hx' => ok.fits x (List.mem_of_mem_erase hx')⟩
    have inv := ok.inv
    rw [held, clearing_perm hx, Multiset.add_cons] at inv
    rwa [held, ← Multiset.cons_coe, Multiset.cons_add]
  | @free s s' live clearing f hf heq =>
    have inv := ok.inv
    rw [held, Multiset.coe_eq_coe.mpr (List.perm_cons_erase hf), ← Multiset.cons_coe,
      Multiset.cons_add] at inv
    obtain ⟨_, L', heq', inv', -, -, kept⟩ := inv.free
    obtain rfl : s' = _ := by simpa using heq.symm.trans heq'
    exact ⟨L', inv', ok.kept (kept.mono (Multiset.le_add_left _ _)), ok.fits⟩
  | @write s live clearing f a v hf ha =>
    refine ⟨L, ok.store (mem_held_live hf) ha v, fun x hx j hj => ?_, ok.fits⟩
    have hxa := has_offset (Nat.lt_of_lt_of_le hj (ok.fits x hx))
    have hne : baseAddr x.1.ppn + j ≠ a := fun e => ok.apart hf (e ▸ ha) hx hxa
    exact (Function.update_of_ne hne ..).trans (ok.done x hx j hj)

theorem Reach.ok (h : Reach system c) : ∃ L, c.Ok L := by
  refine Reach.invariant (fun c => ∃ L, c.Ok L) ?_ ?_ h
  · rintro c ⟨⟨mem, start, end_, hinit⟩, hlive, hclearing⟩
    obtain ⟨L, inv⟩ := Inv.start hinit
    refine ⟨L, ?_, by simp [hclearing], by simp [hclearing]⟩
    rw [held, hlive, hclearing]
    exact inv
  · rintro c op c' ⟨L, ok⟩ hstep
    exact Step.ok hstep ok

/-- The words of the free lists are the same in two states with the same lists. -/
theorem Rep.words {s s' : State} (r : Rep s L) (r' : Rep s' L) {k x : Nat} (hk : k ≤ maxOrder)
    (hx : x ∈ L k) : s'.next x = s.next x ∧ s'.prev x = s.prev x := by
  obtain ⟨xs, ys, hsplit⟩ := List.append_of_mem hx
  obtain ⟨hprev, hnext, -⟩ := r.neighbours hk hsplit
  obtain ⟨hprev', hnext', -⟩ := r'.neighbours hk hsplit
  exact ⟨hnext'.trans hnext.symm, hprev'.trans hprev.symm⟩

end

/-- An operation that stores nothing by itself disturbs nobody that stays. -/
theorem Undisturbed.of_kept {c c' : Clients} {op : Op}
    (live : ∀ f ∈ c.live, f ∈ c'.live → ∀ a, f.Has a → c'.state.mem a = c.state.mem a)
    (clearing : Kept (c.clearing.map Prod.fst : List Frame) c.state.mem c'.state.mem)
    (hreturns : ∀ f, op ≠ .returns f) (hwrite : ∀ f a v, op ≠ .write f a v) :
    c.Undisturbed op c' where
  live f hf hf' a ha _ := live f hf hf' a ha
  clearing _ hx _ _ ha :=
    clearing.has (Multiset.mem_coe.mpr (List.mem_map_of_mem (f := Prod.fst) hx)) ha
  zeroed f hf := absurd hf (hreturns f)
  lists f a v hf := absurd hf (hwrite f a v)

theorem reach_undisturbed {c c' : Clients} {op : Op} (h : Reach system c) (step : Step c op c') :
    c.Undisturbed op c' := by
  obtain ⟨L, ok⟩ := Reach.ok h
  cases step with
  | @alloc _ s' _ _ order ppn heq | @allocFrames _ s' _ _ order ppn heq =>
    rcases ok.inv.alloc order with none | ⟨_, _, _, heq', -, -, -, kept⟩
    · exact nomatch none.symm.trans heq
    · obtain ⟨rfl, rfl⟩ : ppn = _ ∧ s' = _ := by simpa using heq.symm.trans heq'
      obtain ⟨keptLive, keptClearing⟩ := kept_held kept
      exact .of_kept (fun f hf _ a => keptLive.has hf) keptClearing nofun nofun
  | @exhausted s s' live clearing order op hop heq =>
    rcases ok.inv.alloc order with none | ⟨_, _, _, heq', -⟩
    · obtain rfl : s' = s := by simpa using heq.symm.trans none
      exact .of_kept (fun _ _ _ _ _ => rfl) (Kept.refl _ _) (by rcases hop with rfl | rfl <;> nofun)
        (by rcases hop with rfl | rfl <;> nofun)
    · exact nomatch heq'.symm.trans heq
  | @clear s live clearing f n hx hn =>
    refine ⟨fun g hg _ a ha _ => ?_, fun x hx' hop a ha => ?_, nofun, nofun⟩
    · have hne : a ≠ baseAddr f.ppn + n := fun e => ok.apart hg (e ▸ ha) hx (has_offset hn)
      exact Function.update_of_ne hne ..
    · have hne : a ≠ baseAddr f.ppn + n := fun e => hop (congrArg Op.clear
        ((has_offset hn).unique (e ▸ ha) (fun p => ok.inv.live_le p) (mem_held_clearing hx)
          (mem_held_clearing (n := x.2) hx')))
      exact Function.update_of_ne hne ..
  | @returns s live clearing f hx =>
    refine ⟨fun _ _ _ _ _ _ => rfl, fun _ _ _ _ _ => rfl, ?_, nofun⟩
    rintro g hg
    obtain rfl := Op.returns.inj hg
    refine ⟨List.mem_cons_self, fun a ha => ?_⟩
    obtain ⟨j, rfl⟩ := Nat.exists_eq_add_of_le ha.1
    exact ok.done _ hx j (Nat.lt_of_add_lt_add_left ha.2)
  | @free s s' live clearing f hf heq =>
    have inv := ok.inv
    rw [held, Multiset.coe_eq_coe.mpr (List.perm_cons_erase hf), ← Multiset.cons_coe,
      Multiset.cons_add] at inv
    obtain ⟨_, _, heq', -, -, -, kept⟩ := inv.free
    obtain rfl : s' = _ := by simpa using heq.symm.trans heq'
    exact .of_kept (fun g _ hg a => (kept.mono (Multiset.le_add_right _ _)).has hg)
      (kept.mono (Multiset.le_add_left _ _)) nofun nofun
  | @write s live clearing f a v hf ha =>
    refine ⟨fun g hg _ b hb hop => ?_, fun x hx _ b hb => ?_, nofun, fun g b u hop => ?_⟩
    · have hne : b ≠ a := by
        rintro rfl
        obtain rfl := ha.unique hb (fun p => ok.inv.live_le p) (mem_held_live hf) (mem_held_live hg)
        exact hop v rfl
      exact Function.update_of_ne hne ..
    · have hne : b ≠ a := by
        rintro rfl
        exact ok.apart hf ha hx hb
      exact Function.update_of_ne hne ..
    · have inv' := ok.store (mem_held_live hf) ha v
      refine ⟨rfl, fun k xs hk hl x hx => ?_, fun b lo hi => Function.update_of_ne ?_ ..⟩
      · obtain rfl := hl.unique (ok.inv.rep.linked k hk)
        exact Rep.words ok.inv.rep inv'.rep hk hx
      · obtain ⟨i, hi', -⟩ := ok.inv.held f (mem_held_live hf)
        have below := ok.inv.rep.geometry.bitmapBelow
        have hlow : baseAddr s.pool.base ≤ baseAddr f.ppn :=
          Nat.mul_le_mul_right _ (by simp only at hi'; omega)
        have := ha.1
        simp only at below hi lo
        omega

/-- The loop of `write_bytes` runs to its end. -/
theorem Reach.cleared {c : Clients} {f : Frame} {n : Nat} (h : Reach system c)
    (hx : (f, n) ∈ c.clearing) (hn : n ≤ pageSize <<< f.order) :
    ∃ c', Reach system c' ∧ (f, pageSize <<< f.order) ∈ c'.clearing := by
  induction hleft : pageSize <<< f.order - n generalizing c n with
  | zero =>
    obtain rfl : n = pageSize <<< f.order := by omega
    exact ⟨c, h, hx⟩
  | succ left ih =>
    have hlt : n < pageSize <<< f.order := by omega
    exact ih (h.step (.clear f) (.clear hx hlt)) List.mem_cons_self hlt (by omega)

/-- After boot a page is taken, cleared and returned. -/
theorem undisturbed_after_boot : ∃ (c c' : Clients) (f : Frame), Reach system c ∧
    Step c (.returns f) c' ∧ c.Undisturbed (.returns f) c' ∧ ∀ a, f.Has a → c'.state.mem a = 0 := by
  obtain ⟨s, hs, holds, havail⟩ := boot
  have start : Reach system ⟨s, [], []⟩ := .init
    ⟨⟨fun _ => 0, 0x80400000, 0x88000000, hs⟩, rfl, rfl⟩
  obtain ⟨L, inv⟩ := holds.2
  have room : s.pool.frames - s.pool.allocated = 0x7800 := havail
  obtain ⟨ppn, s₁, halloc⟩ := inv.alloc_isSome (by omega)
  obtain ⟨c, reach, hx⟩ := Reach.cleared (start.step (.allocFrames 0) (.allocFrames halloc))
    List.mem_cons_self (Nat.zero_le _)
  have step := @Step.returns c.state c.live c.clearing _ hx
  have undisturbed := reach_undisturbed reach step
  exact ⟨c, _, ⟨ppn, 0⟩, reach, step, undisturbed, (undisturbed.zeroed _ rfl).2⟩

end Clients

end Buddy

end AlexOS
