import AlexOS.Syscall.Machine
import AlexOS.Task.Fresh
import AlexOS.Task.Sbrk

/-!
# Isolation of user memory

Every frame a process can reach through the lower half of its table is one its
own regions list for that page, as long as each `sbrk` either gets all the pages
it asks for or is refused at the first. One that fails in between drops frames
it leaves mapped.
-/

namespace AlexOS.Machine

open Bytes Blocks PageTable

variable {σ : Type} {A : CountedAllocator σ} {cfg : Config} {m m' : Machine σ} {p p' : Process}
  {ps : Multiset Process} {op : Op}

/-- What everyone but one process holds. -/
def others (kernel : Multiset Frame) (ps : Multiset Process) : Multiset Frame :=
  kernel + (ps.map Process.frames).sum

structure Isolated (A : CountedAllocator σ) (m : Machine σ) : Prop where
  /-- A valid entry is in a last table, and points at the frame a region of the
  space owns for that page. -/
  owned : ∀ p ∈ m.procs, ∀ sp, p.space = some sp → ∀ v, v < pages 256 → ∀ level pte,
    leafPte m.phys.mem (indices v) sp.table.root = some (level, pte) →
      level = 0 ∧ ∃ r ∈ sp.regions, (v, (⟨Pte.ppn pte, 0⟩ : Frame)) ∈ r.frames
  /-- That frame is neither free nor held by the kernel, by the space's own table or
  by another process. -/
  exclusive : ∀ p ps, m.procs = p ::ₘ ps → ∀ sp, p.space = some sp → ∀ v, v < pages 256 →
    ∀ level pte, leafPte m.phys.mem (indices v) sp.table.root = some (level, pte) →
      ¬ A.Free m.phys (Pte.ppn pte) ∧
      framesOver (others m.kernel ps + (p.kstack ::ₘ sp.table.frames)) (Pte.ppn pte) = 0

/-! ## The invariant -/

structure Inv (A : CountedAllocator σ) (m : Machine σ) : Prop where
  holds : A.Holds m.phys (others m.kernel m.procs)
  exact : ∀ p ∈ m.procs, p.Exact m.phys.mem

theorem frames_le_others {kernel : Multiset Frame} (hp : p ∈ ps) : p.frames ≤ others kernel ps :=
  (Multiset.single_le_sum (by simp) _ (Multiset.mem_map_of_mem _ hp)).trans
    (Multiset.le_add_left _ _)

theorem others_cons (kernel : Multiset Frame) (p : Process) (ps : Multiset Process) :
    others kernel (p ::ₘ ps) = p.frames + others kernel ps := by
  rw [others, others, Multiset.map_cons, Multiset.sum_cons, add_left_comm]

theorem Inv.focus (h : Inv A m) (here : m.procs = p ::ₘ ps) :
    p.Ok A m.phys (others m.kernel ps) ∧ ∀ q ∈ ps, q.Exact m.phys.mem := by
  refine ⟨⟨?_, h.exact p ?_⟩, fun q hq => h.exact q ?_⟩
  · rw [← others_cons, ← here]
    exact h.holds
  · rw [here]
    exact Multiset.mem_cons_self p ps
  · rw [here]
    exact Multiset.mem_cons_of_mem hq

section
variable {s : Phys σ} {boxes : Nat → Option TrapFrame} {next : Nat}

theorem exact_kept {kernel : Multiset Frame} {mem : Mem} (rest : ∀ q ∈ ps, q.Exact mem)
    (kept : Kept (others kernel ps) mem s.mem) : ∀ q ∈ ps, q.Exact s.mem :=
  fun q hq => (rest q hq).kept (kept.mono (frames_le_others hq))

/-- One process moved, and kept what the others hold. -/
theorem inv_of_focus {kernel : Multiset Frame} {mem : Mem} (rest : ∀ q ∈ ps, q.Exact mem)
    (ok : p.Ok A s (others kernel ps)) (kept : Kept (others kernel ps) mem s.mem) :
    Inv A ⟨s, kernel, p ::ₘ ps, boxes, next⟩ := by
  refine ⟨?_, fun q hq => ?_⟩
  · rw [others_cons]
    exact ok.holds
  · rcases Multiset.mem_cons.mp hq with rfl | hq
    · exact ok.exact
    · exact exact_kept rest kept q hq

end

/-! ## Steps -/

theorem pageNum_physAddr (pte va : Nat) : pageNum (physAddr 0 pte va) = Pte.ppn pte := by
  simp only [physAddr, pageNum, baseAddr, pageSize, Nat.pow_zero, Nat.mul_one]
  omega

theorem sysRead_ok {s : Phys σ} {rest : Multiset Frame} {fd ptr len : Nat} {input : List UInt8}
    {ret : Int} {mem : Mem} (h : p.Ok A s rest)
    (heq : sysRead s.mem p fd ptr len input = (ret, mem)) :
    p.Ok A { s with mem := mem } rest ∧ Kept rest s.mem mem := by
  have same : s.mem = mem → p.Ok A { s with mem := mem } rest ∧ Kept rest s.mem mem := by
    rintro rfl
    exact ⟨h, .refl _ _⟩
  rw [sysRead] at heq
  split at heq
  · exact same (Prod.mk.inj heq).2
  split at heq
  · exact same (Prod.mk.inj heq).2
  split at heq
  · exact same (Prod.mk.inj heq).2
  rcases hsp : p.space with _ | sp
  · rw [hsp] at heq
    exact same (Prod.mk.inj heq).2
  have hcopy := h.copyToUser hsp ptr (input.take len)
  rcases hres : sp.copyToUser s.mem ptr (input.take len) with ⟨_ | _, mem'⟩
  all_goals
    simp only [hsp, hres, Prod.mk.injEq] at heq hcopy
    obtain ⟨-, rfl⟩ := heq
    exact hcopy

theorem storeStatus_ok {s : Phys σ} {rest : Multiset Frame} (h : p.Ok A s rest) (ptr : Nat)
    (code : Int) : p.Ok A { s with mem := storeStatus s.mem p.space ptr code } rest ∧
      Kept rest s.mem (storeStatus s.mem p.space ptr code) := by
  unfold storeStatus
  split
  · exact ⟨h, .refl _ _⟩
  rcases hsp : p.space with _ | sp
  · exact ⟨h, .refl _ _⟩
  · exact h.copyToUser hsp ptr _

theorem sysExec_ok {s s' : Phys σ} {rest : Multiset Frame} {path argv : Nat}
    {res : Except Int Prepared} (h : p.Ok A s rest)
    (heq : sysExec A.toFrameAllocator s cfg p path argv = some (res, s')) :
    p.AfterExec A rest s' res ∧ Kept rest s.mem s'.mem := by
  have failed : ∀ e, some (.error e, s) = some (res, s') →
      p.AfterExec A rest s' res ∧ Kept rest s.mem s'.mem := by
    rintro e h'
    obtain ⟨rfl, rfl⟩ : .error e = res ∧ s = s' := by simpa using h'
    exact ⟨h, .refl _ _⟩
  rw [sysExec] at heq
  split at heq
  · exact failed _ heq
  split at heq
  · exact failed _ heq
  split at heq
  · exact failed _ heq
  split at heq
  · exact failed _ heq
  rename_i args _ _ image _
  rcases hexec : execCurrent A.toFrameAllocator s cfg.kernelTable p image args with _ | ⟨e | i, s₁⟩
  · simp [hexec] at heq
  all_goals
    have hspec := execCurrent_spec h hexec
    simp only [hexec, Option.map_some, Except.mapError, Option.some.injEq, Prod.mk.injEq] at heq
    obtain ⟨rfl, rfl⟩ := heq
    exact hspec

/-- What keeps memory isolated: the only call that can break it is a growing `sbrk`. -/
def Careful (A : CountedAllocator σ) (m : Machine σ) : Op → Prop
  | .sbrk p delta => Whole A m.phys p delta
  | _ => True

theorem Step.inv (hs : Step A.toFrameAllocator cfg m op m') (h : Inv A m) (g : Careful A m op) :
    Inv A m' := by
  cases hs with
  | newUser heq hbox =>
    obtain ⟨⟨holds, exact⟩, kept⟩ := newUser_spec h.holds heq
    refine inv_of_focus h.exact ⟨holds, fun sp hsp => ?_⟩ kept
    exact Option.some.inj hsp ▸ exact
  | noUser heq =>
    obtain ⟨holds, kept⟩ := newUser_spec h.holds heq
    exact ⟨holds, exact_kept h.exact kept⟩
  | kernel holds kept =>
    refine ⟨holds, fun q hq => (h.exact q hq).kept (kept.mono ?_)⟩
    exact Multiset.single_le_sum (by simp) _ (Multiset.mem_map_of_mem _ hq)
  | @store p ps space b va level pte byte here _ hsp hva hpte _ =>
    obtain ⟨ok, rest⟩ := h.focus here
    have exact := ok.exact space hsp
    have hlow := pageNum_low hva
    rw [leafPte_eq exact.tree hlow] at hpte
    split at hpte
    · rename_i hvalid
      obtain ⟨rfl, rfl⟩ := Prod.mk.inj (Option.some.inj hpte)
      obtain ⟨r, hr, hf⟩ := exact.frame hlow hvalid
      have hin : WritesIn space.owned m.phys.mem (Function.update m.phys.mem
          (physAddr 0 (leaf m.phys.mem space.table.root (pageNum va)) va) byte) := by
        intro a ha
        refine Function.update_of_ne ?_ ..
        rintro rfl
        have := frame_held (Multiset.mem_coe.mpr (AddressSpace.mem_owned hr hf))
          (pageNum_physAddr _ va)
        omega
      obtain ⟨ok', kept⟩ := ok.writes hsp hin
      have := @inv_of_focus _ _ _ _ _ m.boxes m.nextPid _ _ rest ok' kept
      rwa [← here] at this
    · cases hpte
  | ecall here _ =>
    obtain ⟨ok, rest⟩ := h.focus here
    exact inv_of_focus rest ⟨ok.holds, ok.exact⟩ (.refl _ _)
  | fault here _ heq =>
    obtain ⟨ok, rest⟩ := h.focus here
    obtain ⟨ok', kept⟩ := exitCurrent_spec ok heq
    exact inv_of_focus rest ok' kept
  | exit calls heq =>
    obtain ⟨ok, rest⟩ := h.focus calls.here
    obtain ⟨ok', kept⟩ := exitCurrent_spec ok heq
    exact inv_of_focus rest ok' kept
  | answer calls _ =>
    obtain ⟨ok, rest⟩ := h.focus calls.here
    exact inv_of_focus rest ⟨ok.holds, ok.exact⟩ (.refl _ _)
  | read calls heq =>
    obtain ⟨ok, rest⟩ := h.focus calls.here
    obtain ⟨ok', kept⟩ := sysRead_ok ok heq
    exact inv_of_focus rest ⟨ok'.holds, ok'.exact⟩ kept
  | @fork p ps b c f space k s calls heq hbox =>
    obtain ⟨ok, rest⟩ := h.focus calls.here
    obtain ⟨⟨holds, exact⟩, kept⟩ := forkFrom_spec h.holds ok.exact.users heq
    rw [calls.here] at holds kept
    have parent : others m.kernel ({ p with
        children := p.children ++ [m.nextPid]
        point := .setReturn b m.nextPid } ::ₘ ps) = others m.kernel (p ::ₘ ps) := by
      rw [others_cons, others_cons]
      rfl
    rw [← parent] at holds kept
    refine inv_of_focus (fun q hq => ?_) ⟨holds, fun sp hsp => Option.some.inj hsp ▸ exact⟩ kept
    rcases Multiset.mem_cons.mp hq with rfl | hq
    · exact ok.exact
    · exact rest q hq
  | noFork calls heq =>
    obtain ⟨ok, rest⟩ := h.focus calls.here
    obtain ⟨holds, kept⟩ := forkFrom_spec h.holds ok.exact.users heq
    rw [calls.here, others_cons] at holds kept
    refine inv_of_focus rest ⟨holds, ?_⟩ (kept.mono (Multiset.le_add_left _ _))
    exact ok.exact.kept (kept.mono (Multiset.le_add_right _ _))
  | exec calls heq hbox =>
    obtain ⟨ok, rest⟩ := h.focus calls.here
    obtain ⟨ok', kept⟩ := sysExec_ok ok heq
    exact inv_of_focus rest ⟨(ok' 0).holds, (ok' 0).exact⟩ kept
  | noExec calls heq =>
    obtain ⟨ok, rest⟩ := h.focus calls.here
    obtain ⟨ok', kept⟩ := sysExec_ok ok heq
    exact inv_of_focus rest ⟨ok'.holds, ok'.exact⟩ kept
  | @waitpid p c ps b f s calls _ _ _ heq =>
    obtain ⟨ok, rest⟩ := h.focus calls.here
    obtain ⟨ok', kept⟩ := storeStatus_ok ok (f.arg 1) c.exitCode
    have rest' := exact_kept (s := { m.phys with mem := _ }) rest kept
    have holds := ok'.holds
    rw [others_cons, add_left_comm, ← others_cons] at holds
    obtain ⟨holds', kept'⟩ := Process.drop_spec ⟨holds, rest' c (Multiset.mem_cons_self c ps)⟩ heq
    rw [others_cons] at holds' kept'
    have keptPs : Kept (others m.kernel ps) m.phys.mem _ :=
      kept.mono (by rw [others_cons]; exact Multiset.le_add_left _ _)
    refine inv_of_focus (fun q hq => rest q (Multiset.mem_cons_of_mem hq)) ⟨holds', ?_⟩
      (keptPs.trans (kept'.mono (Multiset.le_add_left _ _)))
    exact ok'.exact.kept (kept'.mono (Multiset.le_add_right _ _))
  | sbrk calls heq =>
    obtain ⟨ok, rest⟩ := h.focus calls.here
    obtain ⟨-, kept, -, -, whole, -⟩ := adjustBrk_spec ok heq
    exact inv_of_focus rest ⟨(whole g).holds, (whole g).exact⟩ kept
  | setReturn here _ =>
    obtain ⟨ok, rest⟩ := h.focus here
    exact inv_of_focus rest ⟨ok.holds, ok.exact⟩ (.refl _ _)
  | orphan here _ _ heq =>
    obtain ⟨ok, rest⟩ := h.focus here
    obtain ⟨holds, kept⟩ := Process.drop_spec ok heq
    exact ⟨holds, exact_kept rest kept⟩

/-! ## Every run -/

theorem Inv.isolated (h : Inv A m) : Isolated A m := by
  have entry : ∀ p ∈ m.procs, ∀ sp, p.space = some sp → ∀ v, v < pages 256 → ∀ level pte,
      leafPte m.phys.mem (indices v) sp.table.root = some (level, pte) →
        level = 0 ∧ ∃ r ∈ sp.regions, (v, (⟨Pte.ppn pte, 0⟩ : Frame)) ∈ r.frames := by
    intro p hp sp hsp v hv level pte hpte
    have exact := h.exact p hp sp hsp
    rw [leafPte_eq exact.tree hv] at hpte
    split at hpte
    · rename_i hvalid
      obtain ⟨rfl, rfl⟩ := Prod.mk.inj (Option.some.inj hpte)
      exact ⟨rfl, exact.frame hv hvalid⟩
    · cases hpte
  refine ⟨entry, fun p ps here sp hsp v hv level pte hpte => ?_⟩
  obtain ⟨-, r, hr, hf⟩ := entry p (by rw [here]; exact Multiset.mem_cons_self p ps) sp hsp v hv
    level pte hpte
  have hheld : 0 < framesOver sp.owned (Pte.ppn pte) :=
    framesOver_of_mem (Multiset.mem_coe.mpr (AddressSpace.mem_owned hr hf)) (Nat.le_refl _)
      (by simp [Frame.count])
  have holds := (h.focus here).1.holds
  have total : framesOver (p.frames + others m.kernel ps) (Pte.ppn pte) =
      framesOver sp.owned (Pte.ppn pte) +
        framesOver (others m.kernel ps + (p.kstack ::ₘ sp.table.frames)) (Pte.ppn pte) := by
    rw [Process.frames, hsp, Option.elim_some, AddressSpace.frames]
    simp only [framesOver_add, framesOver_cons]
    omega
  constructor
  · intro free
    have := A.free_apart holds free
    omega
  · have := A.apart holds (Pte.ppn pte)
    omega

theorem Reach.inv (h : Reach ((system A.toFrameAllocator cfg).guard (Careful A)) m) : Inv A m := by
  refine Reach.invariant (Inv A) ?_ ?_ h
  · rintro m ⟨holds, hprocs, -⟩
    refine ⟨by simpa [others, hprocs] using holds, fun p hp => ?_⟩
    rw [hprocs] at hp
    cases Multiset.notMem_zero p hp
  · rintro m op m' inv ⟨hs, g⟩
    exact hs.inv inv g

/-- A page mapped to a frame that is nobody's is not isolated. -/
theorem not_isolated_of_stale (hp : p ∈ m.procs) {rest : Multiset Frame}
    (h : p.Stale m.phys rest) : ¬ Isolated A m := by
  obtain ⟨sp, v, f, hsp, formed, hv, hf, hword, -, unlisted⟩ := h
  intro iso
  have hflags : PteFlags.present (PteFlags.rw ||| PteFlags.user) < 2 ^ 10 := by decide
  have hvalid : Pte.isValid (leaf m.phys.mem sp.table.root v) = true := by
    rw [hword]
    exact (Pte.isValid_new hf hflags).mpr (by decide)
  have hpte := leafPte_eq formed.tree hv
  rw [if_pos hvalid] at hpte
  obtain ⟨-, r, hr, he⟩ := iso.owned p hp sp hsp v hv 0 _ hpte
  exact unlisted r hr _ he rfl

theorem Step.dropped (hs : Step A.toFrameAllocator cfg m op m') (h : Inv A m)
    (g : ¬ Careful A m op) :
    ∃ p ps, m'.procs = p ::ₘ ps ∧ p.Dropped A m'.phys (others m'.kernel ps) := by
  cases hs with
  | @sbrk p p' ps b f res s calls heq =>
    obtain ⟨-, -, -, -, -, dropped⟩ := adjustBrk_spec (h.focus calls.here).1 heq
    obtain ⟨sp, v, f, s₁, kept, hsp, rest⟩ := dropped g
    exact ⟨_, ps, rfl, sp, v, f, s₁, kept, hsp, rest⟩
  | _ => exact absurd trivial g

/-- Along every run in which each growing `sbrk` is whole the machine is isolated,
and the next step keeps it so exactly when it is whole too. -/
theorem reach_isolated (h : Reach ((system A.toFrameAllocator cfg).guard (Careful A)) m) :
    Isolated A m ∧ ∀ op m', Step A.toFrameAllocator cfg m op m' →
      (Isolated A m' ↔ Careful A m op) := by
  have inv := Reach.inv h
  refine ⟨inv.isolated, fun op m' hs => ⟨fun iso => ?_, fun g => (hs.inv inv g).isolated⟩⟩
  by_contra g
  obtain ⟨p, ps, here, dropped⟩ := hs.dropped inv g
  exact not_isolated_of_stale (by rw [here]; exact Multiset.mem_cons_self p ps) dropped.stale iso

/-! ## One process after boot -/

def oneProgram : Config := ⟨⟨0, []⟩, [([0x61], Loader.smallImage)]⟩

/-- The frame of a process that calls `sbrk(delta)`. -/
def sbrkFrame (delta : Usize) : TrapFrame :=
  ⟨Function.update (Function.update (fun _ => 0) 10 delta) 17
    (Fin.ofNat (2 ^ 64) Nr.sbrk), 4⟩

def firstProcess (i : Prepared) (k : Frame) (point : Process.Point) : Process :=
  ⟨1, point, some i.space, 0, k, max i.brk userHeapBase, max i.brk userHeapBase, 0, none, []⟩

/-- The first process calls `sbrk`, with its heap still empty. -/
theorem first_calls (delta : Usize) : ∃ (m : Machine Buddy.BuddyAllocator) (p : Process)
    (sp : AddressSpace),
    Reach ((system Buddy.dram.toFrameAllocator oneProgram).guard (Careful Buddy.dram)) m ∧
      m.Calls p 0 0 (sbrkFrame delta) Nr.sbrk ∧ p.Formed Buddy.dram m.phys sp 0 ∧
      p.brk = userHeapBase ∧ p.heapTop = userHeapBase ∧
      Pte.isValid (leaf m.phys.mem sp.table.root (pageNum userHeapBase)) = false ∧
      0x6000 ≤ Buddy.dram.avail m.phys := by
  obtain ⟨s, s', i, k, holds, heq, hbrk, unmapped, frames⟩ := small_newUser
  have boot : Reach ((system Buddy.dram.toFrameAllocator oneProgram).guard (Careful Buddy.dram))
      ⟨s, 0, 0, fun _ => none, 1⟩ := .init ⟨holds, rfl, rfl⟩
  have created : Reach ((system Buddy.dram.toFrameAllocator oneProgram).guard (Careful Buddy.dram))
      ⟨s', 0, firstProcess i k (.user 0) ::ₘ 0,
        Function.update (fun _ => none) 0 (some (.newUser i)), 2⟩ :=
    boot.step .other ⟨.newUser heq rfl, trivial⟩
  have called : Reach ((system Buddy.dram.toFrameAllocator oneProgram).guard (Careful Buddy.dram))
      ⟨s', 0, firstProcess i k (.dispatch 0) ::ₘ 0,
        writeBox (Function.update (fun _ => none) 0 (some (.newUser i))) 0 fun _ =>
          sbrkFrame delta, 2⟩ :=
    created.step .other
      ⟨@Step.ecall _ _ _ _ (firstProcess i k (.user 0)) 0 0 0 (sbrkFrame delta).x rfl rfl, trivial⟩
  obtain ⟨⟨holds', exact'⟩, -⟩ := newUser_spec holds heq
  refine ⟨_, _, i.space, called, ⟨rfl, rfl, ?_, rfl⟩, ⟨rfl, ?_, exact'.toFormed⟩, hbrk, hbrk,
    unmapped, frames⟩
  · simp [writeBox]
  · exact holds'

theorem Calls.sbrk_step {A : FrameAllocator σ} {a : Usize} {delta : Int} {b : Nat} {s' : Phys σ}
    {res : Option Nat} (cfg : Config) (calls : m.Calls p ps b (sbrkFrame a) Nr.sbrk)
    (ha : toIsize a = delta) (heq : adjustBrk A m.phys p delta = some (res, s', p')) :
    Step A cfg m (.sbrk p delta) { m with
      phys := s'
      procs := { p' with point := .setReturn b (res.elim Nr.enomem Nat.cast) } ::ₘ ps } := by
  obtain rfl := ha
  exact .sbrk calls heq

/-- The first process gets a page of heap. -/
theorem isolated_after_sbrk : ∃ (m m' : Machine Buddy.BuddyAllocator) (p p' : Process),
    Reach ((system Buddy.dram.toFrameAllocator oneProgram).guard (Careful Buddy.dram)) m ∧
      Step Buddy.dram.toFrameAllocator oneProgram m (.sbrk p 0x1000) m' ∧ m'.procs = {p'} ∧
      p'.brk = userHeapBase + 0x1000 ∧ Isolated Buddy.dram m ∧ Isolated Buddy.dram m' := by
  obtain ⟨m, p, sp, run, calls, h, hbrk, htop, unmapped, frames⟩ :=
    first_calls (Fin.ofNat (2 ^ 64) 0x1000)
  have hnew : newBreak p 0x1000 = some (userHeapBase + 0x1000) :=
    newBreak_base hbrk (show 0x1000 ≤ 0x8000000 by decide)
  have fits : Region.Fits Buddy.dram m.phys sp.table (pageNum p.heapTop)
      (pageNum (nextMultipleOf (userHeapBase + 0x1000) pageSize) - pageNum p.heapTop) := by
    rw [htop]
    exact Region.fits_iff.mpr (Region.Room.one unmapped (by omega))
  obtain ⟨whole, ⟨-, s', p', heq⟩ | ⟨nofit, -⟩⟩ :=
    h.grow_cases (by decide) hnew (by rw [htop]; decide)
  · obtain ⟨iso, next⟩ := reach_isolated run
    have step := calls.sbrk_step oneProgram
      (show toIsize (Fin.ofNat (2 ^ 64) 0x1000) = 0x1000 by decide) heq
    refine ⟨m, _, p, _, run, step, rfl, ?_, iso, (next _ _ step).mpr (whole.mpr (.inl fits))⟩
    have moved := (adjustBrk_brk heq (by decide)).2
    rw [hbrk] at moved
    exact moved
  · exact absurd fits nofit

/-- It asks for more heap than there are frames. -/
theorem dropped_after_sbrk : ∃ (m m' : Machine Buddy.BuddyAllocator) (p p' : Process),
    Reach (system Buddy.dram.toFrameAllocator oneProgram) m ∧
      Step Buddy.dram.toFrameAllocator oneProgram m (.sbrk p 0x8000000) m' ∧ m'.procs = {p'} ∧
      p'.point = .setReturn 0 Nr.enomem ∧ p'.Dropped Buddy.dram m'.phys (others m'.kernel 0) ∧
      Buddy.dram.Holds m'.phys (p'.frames + others m'.kernel 0) := by
  obtain ⟨m, p, sp, run, calls, h, hbrk, htop, unmapped, frames⟩ :=
    first_calls (Fin.ofNat (2 ^ 64) 0x8000000)
  have hnew : newBreak p 0x8000000 = some (userHeapBase + 0x8000000) :=
    newBreak_base hbrk (Nat.le_refl 0x8000000)
  obtain ⟨whole, ⟨fits, -⟩ | ⟨nofit, s', sp', k, heq, -⟩⟩ :=
    h.grow_cases (by decide) hnew (by rw [htop]; decide)
  · have total : Buddy.dram.avail m.phys + _ = 0x7800 := Buddy.managing_total h.holds
    have enough := fits.2
    rw [htop] at enough
    simp only [pageNum, nextMultipleOf, divCeil, userHeapBase, pageSize] at enough
    omega
  · have careless : ¬ Whole Buddy.dram m.phys p 0x8000000 := by
      intro careful
      rcases whole.mp careful with fits | valid | low
      · exact nofit fits
      · rw [htop, unmapped] at valid
        cases valid
      · have := card_missing_le m.phys.mem sp.table.root (pageNum p.heapTop)
        omega
    obtain ⟨holds, -, -, -, -, dropped⟩ := adjustBrk_spec ((Reach.inv run).focus calls.here).1 heq
    obtain ⟨sp₁, v, f, s₁, kept, hsp, left⟩ := dropped careless
    exact ⟨m, _, p, _, run.of_guard, calls.sbrk_step oneProgram
      (show toIsize (Fin.ofNat (2 ^ 64) 0x8000000) = 0x8000000 by decide) heq, rfl, rfl,
      ⟨sp₁, v, f, s₁, kept, hsp, left⟩, holds⟩

theorem stale_after_sbrk : ∃ (m m' : Machine Buddy.BuddyAllocator) (p p' : Process)
    (ps : Multiset Process), Reach (system Buddy.dram.toFrameAllocator oneProgram) m ∧
      Step Buddy.dram.toFrameAllocator oneProgram m (.sbrk p 0x8000000) m' ∧
      m'.procs = p' ::ₘ ps ∧ p'.Stale m'.phys (others m'.kernel ps) ∧
      ¬ Isolated Buddy.dram m' := by
  obtain ⟨m, m', p, p', run, step, here, -, dropped, -⟩ := dropped_after_sbrk
  exact ⟨m, m', p, p', 0, run, step, here, dropped.stale,
    not_isolated_of_stale (here ▸ Multiset.mem_cons_self p' 0) dropped.stale⟩

end AlexOS.Machine
