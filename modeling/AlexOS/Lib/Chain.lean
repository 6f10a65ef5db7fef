import Mathlib.Data.List.Nodup

/-!
# Doubly linked chains

A chain is read off two link functions, `next` and `prev`, over any type of
cells with a sentinel. `Linked before head xs` says that following `next` from
`head` visits exactly `xs` and stops at the sentinel, and that every `prev`
names the cell visited just before it. Being visited by a list makes the chain
finite, so it has no cycle.
-/

namespace AlexOS.Chain

variable {α : Type}

def Linked (next prev : α → α) (nil : α) : α → α → List α → Prop
  | _, head, [] => head = nil
  | before, head, x :: xs =>
    head = x ∧ x ≠ nil ∧ prev x = before ∧ Linked next prev nil x (next x) xs

variable {next prev next' prev' : α → α} {nil before head : α} {xs ys : List α} {x : α}

theorem Linked.congr (h : Linked next prev nil before head xs)
    (hn : ∀ y ∈ xs, next' y = next y) (hp : ∀ y ∈ xs, prev' y = prev y) :
    Linked next' prev' nil before head xs := by
  induction xs generalizing before head with
  | nil => exact h
  | cons y ys ih =>
    obtain ⟨hh, hnil, hprev, rest⟩ := h
    refine ⟨hh, hnil, by rw [hp y List.mem_cons_self, hprev], ?_⟩
    rw [hn y List.mem_cons_self]
    exact ih rest (fun z hz => hn z (List.mem_cons_of_mem y hz))
      (fun z hz => hp z (List.mem_cons_of_mem y hz))

theorem Linked.ne_nil (h : Linked next prev nil before head xs) : ∀ y ∈ xs, y ≠ nil := by
  induction xs generalizing before head with
  | nil => simp
  | cons y ys ih =>
    obtain ⟨_, hnil, _, rest⟩ := h
    intro z hz
    rcases List.mem_cons.mp hz with rfl | hz
    · exact hnil
    · exact ih rest z hz

theorem Linked.head_eq (h : Linked next prev nil before head xs) : head = xs.headD nil := by
  cases xs with
  | nil => exact h
  | cons y ys => exact h.1

theorem Linked.eq_nil_iff (h : Linked next prev nil before head xs) : head = nil ↔ xs = [] := by
  cases xs with
  | nil => exact ⟨fun _ => rfl, fun _ => h⟩
  | cons y ys => simp [h.1, h.2.1]

/-- The links of a cell in the middle of a chain name its neighbours. -/
theorem Linked.links (h : Linked next prev nil before head (xs ++ x :: ys)) :
    prev x = xs.getLastD before ∧ next x = ys.headD nil := by
  induction xs generalizing before head with
  | nil => exact ⟨h.2.2.1, h.2.2.2.head_eq⟩
  | cons y zs ih =>
    have := ih h.2.2.2
    rwa [List.getLastD_cons]

theorem Linked.prev_next (h : Linked next prev nil before head xs) (hx : x ∈ xs)
    (hne : next x ≠ nil) : prev (next x) = x := by
  obtain ⟨as, bs, rfl⟩ := List.append_of_mem hx
  cases bs with
  | nil => exact absurd h.links.2 hne
  | cons b bs =>
    have here := h.links.2
    rw [List.append_cons] at h
    have there := h.links.1
    rw [List.headD_cons] at here
    simp only [List.getLastD_concat] at there
    rw [here, there]

theorem Linked.next_prev (h : Linked next prev nil before head xs) (hx : x ∈ xs)
    (hne : prev x ≠ before) : next (prev x) = x := by
  obtain ⟨as, bs, rfl⟩ := List.append_of_mem hx
  rcases List.eq_nil_or_concat as with rfl | ⟨cs, c, rfl⟩
  · exact absurd h.links.1 hne
  · have here := h.links.1
    rw [List.concat_eq_append, ← List.append_cons] at h
    simp only [List.concat_eq_append, List.getLastD_concat] at here
    rw [here, h.links.2, List.headD_cons]

/-- The head determines what is visited. -/
theorem Linked.unique (h : Linked next prev nil before head xs)
    (h' : Linked next prev nil before head ys) : xs = ys := by
  induction xs generalizing before head ys with
  | nil =>
    cases ys with
    | nil => rfl
    | cons y ys => exact absurd (h'.1.symm.trans h) h'.2.1
  | cons x xs ih =>
    obtain ⟨rfl, hnil, -, rest⟩ := h
    cases ys with
    | nil => exact absurd h' hnil
    | cons y ys =>
      obtain ⟨rfl, -, -, rest'⟩ := h'
      rw [ih rest rest']

/-- Pushing an unvisited cell in front. -/
theorem Linked.push (h : Linked next prev nil before head xs) (fresh : x ∉ xs) (hx : x ≠ nil)
    (nodup : xs.Nodup) (hnext : next' x = head) (hprev : prev' x = before)
    (hback : head ≠ nil → prev' head = x) (hn : ∀ y ∈ xs, next' y = next y)
    (hp : ∀ y ∈ xs, y ≠ head → prev' y = prev y) :
    Linked next' prev' nil before x (x :: xs) := by
  refine ⟨rfl, hx, hprev, ?_⟩
  rw [hnext]
  cases xs with
  | nil => exact h
  | cons y ys =>
    obtain ⟨rfl, hnil, -, rest⟩ := h
    refine ⟨rfl, hnil, hback hnil, ?_⟩
    rw [hn head List.mem_cons_self]
    have hy := (List.nodup_cons.mp nodup).1
    exact rest.congr (fun z hz => hn z (List.mem_cons_of_mem _ hz))
      (fun z hz => hp z (List.mem_cons_of_mem _ hz) fun e => hy (e ▸ hz))

/-- Unlinking a cell from anywhere in a chain: its two neighbours are joined,
or the head moves on when there is no cell before it. -/
theorem Linked.remove (h : Linked next prev nil before head (xs ++ x :: ys))
    (nodup : (xs ++ x :: ys).Nodup)
    (hnext : xs ≠ [] → next' (xs.getLastD before) = ys.headD nil)
    (hn : ∀ y ∈ xs ++ ys, xs = [] ∨ y ≠ xs.getLastD before → next' y = next y)
    (hprev : ys ≠ [] → prev' (ys.headD nil) = xs.getLastD before)
    (hp : ∀ y ∈ xs ++ ys, y ≠ ys.headD nil → prev' y = prev y) :
    Linked next' prev' nil before (if xs = [] then ys.headD nil else head) (xs ++ ys) := by
  induction xs generalizing before head with
  | nil =>
    obtain ⟨-, -, -, rest⟩ := h
    simp only [List.nil_append, if_true] at *
    cases ys with
    | nil => rfl
    | cons y ys =>
      obtain ⟨hy, hnil, -, rest⟩ := rest
      refine ⟨rfl, hnil, hprev (by simp), ?_⟩
      rw [hn y List.mem_cons_self (.inl trivial)]
      have hy' : y ∉ ys := (List.nodup_cons.mp (List.nodup_cons.mp nodup).2).1
      exact rest.congr (fun z hz => hn z (List.mem_cons_of_mem _ hz) (.inl trivial))
        (fun z hz => hp z (List.mem_cons_of_mem _ hz) fun e => hy' (by rwa [e] at hz))
  | cons a zs ih =>
    obtain ⟨rfl, hnil, ha, rest⟩ := h
    obtain ⟨hnot, nodup'⟩ := List.nodup_cons.mp nodup
    simp only [List.cons_append, reduceCtorEq, if_false]
    have hlast : (head :: zs).getLastD before = zs.getLastD head := List.getLastD_cons ..
    rw [hlast] at hnext hn hprev
    have hhead : ys ≠ [] → head ≠ ys.headD nil := by
      rintro hys rfl
      cases ys with
      | nil => exact hys rfl
      | cons y ys => simp at hnot
    have step := ih rest nodup' (fun _ => hnext (by simp))
      (fun y hy hor => hn y (List.mem_cons_of_mem _ hy) (hor.elim
        (fun hz => .inr fun e => hnot (by
          subst hz; subst e; exact List.mem_cons_of_mem x hy)) .inr))
      hprev (fun y hy => hp y (List.mem_cons_of_mem _ hy))
    refine ⟨rfl, hnil, ?_, ?_⟩
    · by_cases hys : ys = []
      · rw [hp head List.mem_cons_self (by simp [hys, hnil]), ha]
      · rw [hp head List.mem_cons_self (hhead hys), ha]
    · by_cases hz : zs = []
      · subst hz
        have : next' head = ys.headD nil := hnext (by simp)
        rw [this]
        simpa using step
      · have : head ≠ zs.getLastD head := by
          intro e
          apply hnot
          rw [e, List.getLastD_eq_getLast?, List.getLast?_eq_some_getLast hz]
          exact List.mem_append_left _ (List.getLast_mem hz)
        rw [hn head List.mem_cons_self (.inr this)]
        simpa [hz] using step

end AlexOS.Chain
