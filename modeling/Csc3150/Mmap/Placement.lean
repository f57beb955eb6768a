/-
**Where `sys_mmap` puts a region.**

The placement loop looks at the slots before the first free one only. What the rest of the table has
to satisfy for the new region to be clear of it is stated on the table and the request
(`VmaTable.Clear`): a slot counts when it starts below the room of every earlier slot that counts
(`VmaTable.Counts`), and a used slot after the free one has to start above the room of some counting
slot, or to end the requested length below all of them.

* `VmaTable.Placed.mmap` — the new region is placed, whatever the later slots hold;
* `VmaTable.apart_mmap_iff` — the regions stay disjoint exactly when `Clear` holds.
-/

import Csc3150.Mmap.Vma
import Mathlib.Data.List.Induction
import Mathlib.Order.Fin.Basic

namespace Csc3150.Mmap.VmaTable

variable {table : VmaTable} {slot : Fin VMASIZE} {assigned : Nat}

/-! ### The placement loop -/

theorem placeLoop_eq {slots : List (Fin VMASIZE)} {start : Nat}
    (run : placeLoop table slots start = (some slot, assigned)) :
    ∃ before after, slots = before ++ slot :: after ∧ (∀ i ∈ before, (table i).used = true) ∧
      (table slot).used = false ∧
      assigned = before.foldl (fun assigned i => lower (table i) assigned) start := by
  induction slots generalizing start with
  | nil => cases run
  | cons i rest ih =>
    rw [placeLoop] at run
    split at run
    · next used =>
      obtain ⟨before, after, rfl, allUsed, free, sum⟩ := ih run
      exact ⟨i :: before, after, rfl, List.forall_mem_cons.mpr ⟨used, allUsed⟩, free, sum⟩
    · next unused =>
      cases run
      exact ⟨[], rest, rfl, nofun, Bool.eq_false_iff.mpr unused, rfl⟩

theorem placeLoop_none {slots : List (Fin VMASIZE)} {start : Nat}
    (run : placeLoop table slots start = (none, assigned)) : ∀ i ∈ slots, (table i).used = true := by
  induction slots generalizing start with
  | nil => exact nofun
  | cons i rest ih =>
    rw [placeLoop] at run
    split at run
    · next used => exact List.forall_mem_cons.mpr ⟨used, ih run⟩
    · cases run

/-- The slots before one in the order of the table. -/
theorem mem_before {count : Nat} {i : Fin count} {before after : List (Fin count)}
    (split : List.finRange count = before ++ i :: after) (j : Fin count) : j ∈ before ↔ j < i := by
  have sorted : (before ++ i :: after).Pairwise (· < ·) := split ▸ List.pairwise_lt_finRange count
  rw [List.pairwise_append, List.pairwise_cons] at sorted
  obtain ⟨-, ⟨above, -⟩, below⟩ := sorted
  refine ⟨fun member => below j member i List.mem_cons_self, fun earlier => ?_⟩
  have member : j ∈ before ++ i :: after := split ▸ List.mem_finRange j
  rcases List.mem_append.mp member with here | there
  · exact here
  · rcases List.mem_cons.mp there with rfl | later
    · exact absurd earlier (lt_irrefl j)
    · exact absurd earlier (not_lt.mpr (above j later).le)

/-! ### The room of the counting slots -/

/-- Slot `i` starts below the room, `size` bytes below its start, of every earlier slot that does. -/
def Counts (table : VmaTable) (i : Fin VMASIZE) : Prop :=
  ∀ j, (earlier : j < i) → Counts table j → (table i).addr + (table j).size < (table j).addr
  termination_by i.val
  decreasing_by exact earlier

/-- A placed slot keeps its whole room above address zero. -/
theorem lower_eq {v : Vma} {i : Fin VMASIZE} (placed : v.Placed i) (assigned : Nat) :
    lower v assigned = if v.addr < assigned then v.addr - v.size else assigned := by
  have room : ((v.addr : Int) - v.size) = (v.addr - v.size : Nat) ∧ v.addr < 2 ^ 64 := by
    have high := placed.high i.isLt
    have small := v.size_lt
    have top := placed.top
    unfold TRAPFRAME TRAMPOLINE MAXVA PGSIZE at top
    omega
  rw [lower, placed.round_eq, room.1]
  unfold word
  split <;> omega

/-- The address the loop has reached after the slots before `slot`, by its bounds from below. -/
theorem le_assigned_iff {before : List (Fin VMASIZE)} {top : Nat} (placed : ∀ i ∈ before, (table i).Placed i)
    (below : ∀ i ∈ before, (table i).addr + (table i).size ≤ top)
    (sorted : before.Pairwise (· < ·)) (closed : ∀ i ∈ before, ∀ j, j < i → j ∈ before) (x : Nat) :
    x ≤ before.foldl (fun assigned i => lower (table i) assigned) top ↔
      x ≤ top ∧ ∀ i ∈ before, Counts table i → x + (table i).size ≤ (table i).addr := by
  induction before using List.reverseRecOn generalizing x with
  | nil => exact ⟨fun le => ⟨le, nofun⟩, fun both => both.1⟩
  | append_singleton before i ih =>
    rw [List.pairwise_append] at sorted
    obtain ⟨sortedBefore, -, above⟩ := sorted
    have earlier : ∀ {j}, j < i → j ∈ before := by
      intro j less
      rcases List.mem_append.mp (closed i (by simp) j less) with here | there
      · exact here
      · rw [List.mem_singleton.mp there] at less
        exact absurd less (lt_irrefl i)
    have here := placed i (by simp)
    have reached := ih (fun j member => placed j (List.mem_append_left _ member))
      (fun j member => below j (List.mem_append_left _ member)) sortedBefore
      fun j member l less => earlier (less.trans (above j member i (List.mem_singleton_self i)))
    have counts : Counts table i ↔
        (table i).addr < before.foldl (fun assigned i => lower (table i) assigned) top := by
      have inside : (table i).addr + 1 ≤ top :=
        (Nat.add_le_add_left here.nonempty _).trans (below i (by simp))
      rw [Counts, ← Nat.succ_le_iff, reached]
      refine ⟨fun all => ⟨inside, fun j member counted => ?_⟩, fun both j less counted => ?_⟩
      · have := all j (above j member i (List.mem_singleton_self i)) counted
        omega
      · have := both.2 j (earlier less) counted
        omega
    have high := here.high i.isLt
    have small := (table i).size_lt
    have inside := below i (by simp)
    rw [List.foldl_append, List.foldl_cons, List.foldl_nil, lower_eq here]
    by_cases counted : Counts table i
    · have lowered := counts.mp counted
      rw [if_pos lowered]
      constructor
      · intro le
        refine ⟨by omega, fun j member counts' => ?_⟩
        rcases List.mem_append.mp member with before' | last
        · exact ((reached x).mp (by omega)).2 j before' counts'
        · rw [List.mem_singleton.mp last]
          omega
      · rintro ⟨-, all⟩
        have := all i (by simp) counted
        omega
    · rw [if_neg (mt counts.mpr counted), reached]
      refine and_congr_right fun _ => ⟨fun all j member counts' => ?_, fun all j member => ?_⟩
      · rcases List.mem_append.mp member with before' | last
        · exact all j before' counts'
        · rw [List.mem_singleton.mp last] at counts'
          exact absurd counts' counted
      · exact all j (List.mem_append_left _ member)

/-! ### The chosen place -/

/-- The first free slot and the address below which its region goes. -/
structure Places (table : VmaTable) (slot : Fin VMASIZE) (assigned : Nat) : Prop where
  free : (table slot).used = false
  before : ∀ i, i < slot → (table i).used = true
  le_iff : ∀ x, x ≤ assigned ↔
    x ≤ TRAPFRAME ∧ ∀ i, i < slot → Counts table i → x + (table i).size ≤ (table i).addr
  aligned : assigned % PGSIZE = 0

theorem lower_aligned {v : Vma} {i : Fin VMASIZE} {assigned : Nat} (placed : v.Placed i)
    (aligned : assigned % PGSIZE = 0) : lower v assigned % PGSIZE = 0 := by
  have start := placed.aligned
  have pages := placed.pages
  unfold PGSIZE at *
  rw [lower_eq placed]
  split <;> omega

theorem place_spec (placed : table.Placed) (run : place table = (some slot, assigned)) :
    Places table slot assigned := by
  obtain ⟨before, after, split, used, free, rfl⟩ := placeLoop_eq run
  have member := mem_before split
  have sorted : (before ++ slot :: after).Pairwise (· < ·) :=
    split ▸ List.pairwise_lt_finRange VMASIZE
  have placedBefore : ∀ i ∈ before, (table i).Placed i := fun i here => placed i (used i here)
  refine ⟨free, fun i earlier => used i ((member i).mpr earlier), fun x => ?_, ?_⟩
  · rw [show MAXVA - 2 * PGSIZE = TRAPFRAME from rfl, le_assigned_iff placedBefore
      (fun i here => (placedBefore i here).top) (List.pairwise_append.mp sorted).1
      fun i here j less => (member j).mpr (less.trans ((member i).mp here))]
    simp only [member]
  · exact List.foldlRecOn (motive := fun assigned => assigned % PGSIZE = 0) before _ rfl
      fun assigned aligned i here => lower_aligned (placedBefore i here) aligned

namespace Places

variable (places : Places table slot assigned) (placed : table.Placed)

include places

theorem top : assigned ≤ TRAPFRAME := ((places.le_iff assigned).mp le_rfl).1

include placed in
theorem bottom : TRAPFRAME ≤ assigned + 2 * slot * 2 ^ 31 := by
  have reached : TRAPFRAME - 2 * slot * 2 ^ 31 ≤ assigned := by
    refine (places.le_iff _).mpr ⟨Nat.sub_le _ _, fun i earlier _ => ?_⟩
    have here := placed i (places.before i earlier)
    have bottom := here.bottom
    have high := here.high i.isLt
    have small := (table i).size_lt
    have next : i.val + 1 ≤ slot.val := earlier
    omega
  omega

include placed in
/-- The place is below every region of an earlier slot. -/
theorem le_addr {i : Fin VMASIZE} (earlier : i < slot) : assigned ≤ (table i).addr := by
  by_contra above
  obtain ⟨-, rooms⟩ := (places.le_iff ((table i).addr + 1)).mp (by omega)
  have here := placed i (places.before i earlier)
  by_cases counts : Counts table i
  · have := rooms i earlier counts
    omega
  · rw [Counts] at counts
    push Not at counts
    obtain ⟨j, less, counts', overlap⟩ := counts
    have := rooms j (less.trans earlier) counts'
    omega

end Places

/-- The region that `sys_mmap` makes below `assigned`. -/
structure IsNew (v : Vma) (assigned : Nat) : Prop where
  addr : v.addr = word (assigned - (PGROUNDUP_int v.length).toInt)
  positive : 0 < v.length.toInt
  pages : v.length.toInt % PGSIZE = 0
  used : v.used = true

namespace Places

variable {v : Vma} (places : Places table slot assigned) (placed : table.Placed)
  (fresh : IsNew v assigned)

include places placed fresh

theorem addr_eq : v.addr + v.size = assigned := by
  have bottom := places.bottom placed
  have top := places.top
  have small := v.size_lt
  have slots := slot.isLt
  have positive := fresh.positive
  unfold VMASIZE at slots
  unfold TRAPFRAME TRAMPOLINE MAXVA PGSIZE at bottom top
  rw [fresh.addr, PGROUNDUP_int_of_pages fresh.pages]
  unfold Vma.size word at *
  omega

theorem placed_new : v.Placed slot := by
  have sum := places.addr_eq placed fresh
  have pages := fresh.pages
  have positive := fresh.positive
  have aligned := places.aligned
  have whole : v.size % PGSIZE = 0 ∧ 0 < v.size := by
    unfold Vma.size PGSIZE at *
    omega
  refine ⟨?_, whole.1, whole.2, sum ▸ places.top, ?_⟩
  · unfold PGSIZE at *
    omega
  · have bottom := places.bottom placed
    have small := v.size_lt
    omega

end Places

theorem Placed.update (placed : table.Placed) {v : Vma} {i : Fin VMASIZE}
    (here : v.used = true → v.Placed i) : VmaTable.Placed (Function.update table i v) := by
  intro j used
  by_cases same : j = i
  · subst same
    rw [Function.update_self] at used ⊢
    exact here used
  · rw [Function.update_of_ne same] at used ⊢
    exact placed j used

/-! ### Disjoint regions -/

theorem range_disjoint_iff {v w : Vma} {i j : Nat} (placed : v.Placed i) (placed' : w.Placed j) :
    Disjoint v.range w.range ↔ v.addr + v.size ≤ w.addr ∨ w.addr + w.size ≤ v.addr := by
  have nonempty := placed.nonempty
  have nonempty' := placed'.nonempty
  rw [Vma.range, Vma.range, Set.Ico_disjoint_Ico]
  omega

/-- The used slots after the first free one leave `size` bytes clear where `sys_mmap` puts them: each
starts above the room of a counting slot before, or ends `size` bytes below all these rooms. -/
def Clear (table : VmaTable) (size : Nat) : Prop :=
  ∀ slot, (table slot).used = false → (∀ i, i < slot → (table i).used = true) →
    ∀ j, slot < j → (table j).used = true →
      (∃ i, i < slot ∧ Counts table i ∧ (table i).addr ≤ (table j).addr + (table i).size) ∨
      ((table j).addr + (table j).size + size ≤ TRAPFRAME ∧ ∀ i, i < slot → Counts table i →
        (table j).addr + (table j).size + size + (table i).size ≤ (table i).addr)

/-- There is one first free slot. -/
theorem Places.unique (places : Places table slot assigned) {other : Fin VMASIZE}
    (free : (table other).used = false) (before : ∀ i, i < other → (table i).used = true) :
    other = slot := by
  rcases lt_trichotomy other slot with less | same | greater
  · rw [places.before other less] at free
    cases free
  · exact same
  · have here := before slot greater
    rw [places.free] at here
    cases here

theorem Places.clear_iff (places : Places table slot assigned) (placed : table.Placed) {size : Nat} :
    Clear table size ↔ ∀ j, slot < j → (table j).used = true →
      assigned ≤ (table j).addr ∨ (table j).addr + (table j).size + size ≤ assigned := by
  have above : ∀ j, (table j).used = true → (assigned ≤ (table j).addr ↔
      ∃ i, i < slot ∧ Counts table i ∧ (table i).addr ≤ (table j).addr + (table i).size) := by
    intro j used
    have here := placed j used
    have top := here.top
    have nonempty := here.nonempty
    rw [← not_lt, ← Nat.succ_le_iff, places.le_iff, not_and]
    constructor
    · intro fails
      have rooms := fails (by omega)
      push Not at rooms
      obtain ⟨i, earlier, counts, overlap⟩ := rooms
      exact ⟨i, earlier, counts, by omega⟩
    · rintro ⟨i, earlier, counts, overlap⟩ - rooms
      have := rooms i earlier counts
      omega
  constructor
  · intro clear j later used
    rw [above j used, places.le_iff]
    exact clear slot places.free places.before j later used
  · intro clear other free before j later used
    obtain rfl := places.unique free before
    have here := clear j later used
    rwa [above j used, places.le_iff] at here

/-- **The regions stay disjoint exactly when the request is clear of the slots that the placement loop
does not look at.** -/
theorem apart_mmap_iff (placed : table.Placed) (apart : table.Apart)
    (places : Places table slot assigned) {v : Vma} (fresh : IsNew v assigned) :
    VmaTable.Apart (Function.update table slot v) ↔ Clear table v.size := by
  have sum := places.addr_eq placed fresh
  have here := places.placed_new placed fresh
  have meets : ∀ j, (table j).used = true → (Disjoint v.range (table j).range ↔
      assigned ≤ (table j).addr ∨ (table j).addr + (table j).size + v.size ≤ assigned) := by
    intro j used
    rw [range_disjoint_iff here (placed j used), sum]
    omega
  rw [places.clear_iff placed]
  constructor
  · intro disjoint j later used
    have pair := disjoint slot j later.ne
    rw [Function.update_self, Function.update_of_ne later.ne'] at pair
    exact (meets j used).mp (pair fresh.used used)
  · intro clear
    have all : ∀ j, j ≠ slot → (table j).used = true → Disjoint v.range (table j).range := by
      intro j different used
      rcases lt_or_gt_of_ne different with earlier | later
      · exact (meets j used).mpr (Or.inl (places.le_addr placed earlier))
      · exact (meets j used).mpr (clear j later used)
    intro i j different usedI usedJ
    by_cases first : i = slot
    · subst first
      rw [Function.update_self, Function.update_of_ne different.symm]
      rw [Function.update_of_ne different.symm] at usedJ
      exact all j different.symm usedJ
    · rw [Function.update_of_ne first] at usedI ⊢
      by_cases second : j = slot
      · subst second
        rw [Function.update_self]
        exact (all i first usedI).symm
      · rw [Function.update_of_ne second] at usedJ ⊢
        exact apart i j different usedI usedJ

end Csc3150.Mmap.VmaTable
