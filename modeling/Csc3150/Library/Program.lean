/-
**Programs over a state, and what they ensure.**

A `Prog` reads and changes a state and may stop with an error. Three judgements are used about it:

* `Ensures program before post` — if the program ends from state `before`, its result and final
  state satisfy `post` (`pure`, `bind`, `weaken`, `both`, `ite`, and `forM` for loops);
* `Returns program before post` — it does end, and its result and final state satisfy `post`;
* `Meets program before stops post` — if it ends, its result and final state satisfy `post`, and if it
  stops, its error satisfies `stops`.

They follow the structure of the program, one rule for each way of putting programs together.
-/

import Csc3150.Library.Outcome

namespace Program

/-- A program over a state of type `σ` that returns an `α` or stops with an `ε`. -/
abbrev Prog (ε σ α : Type) := StateT σ (Except ε) α

variable {ε σ α β : Type} {x : Prog ε σ α} {f : α → Prog ε σ β} {before after : σ}
  {post strong : α → σ → Prop} {last : β → σ → Prop}

/-! ### Sequencing -/

theorem bind_apply (x : Prog ε σ α) (f : α → Prog ε σ β) (before : σ) :
    (x >>= f) before = x before >>= fun result => f result.1 result.2 := rfl

theorem bind_run {a : α} (run : x before = .ok (a, after)) : (x >>= f) before = f a after := by
  rw [bind_apply, run]
  rfl

/-- A sequence ends when both parts do. -/
theorem bind_ends {b : β} {final : σ} :
    (x >>= f) before = .ok (b, final) ↔
      ∃ a middle, x before = .ok (a, middle) ∧ f a middle = .ok (b, final) := by
  rw [bind_apply, Outcome.bind_eq_ok]
  exact Prod.exists

/-- A sequence stops where one of its parts does. -/
theorem bind_stops {error : ε} :
    (x >>= f) before = .error error ↔
      x before = .error error ∨
        ∃ a middle, x before = .ok (a, middle) ∧ f a middle = .error error := by
  rw [bind_apply, Outcome.bind_eq_error]
  exact or_congr_right Prod.exists

/-! ### Partial correctness -/

/-- If the program ends, its result and final state satisfy `post`. -/
def Ensures (x : Prog ε σ α) (before : σ) (post : α → σ → Prop) : Prop :=
  ∀ a after, x before = .ok (a, after) → post a after

namespace Ensures

theorem pure {a : α} (holds : post a before) :
    Ensures (Pure.pure a : Prog ε σ α) before post := by
  intro a' after run
  cases run
  exact holds

theorem bind (first : Ensures x before post)
    (rest : ∀ a middle, post a middle → Ensures (f a) middle last) :
    Ensures (x >>= f) before last := by
  intro b final run
  obtain ⟨a, middle, head, tail⟩ := bind_ends.mp run
  exact rest a middle (first a middle head) b final tail

theorem weaken (first : Ensures x before strong) (weaker : ∀ a after, strong a after → post a after) :
    Ensures x before post :=
  fun a after run => weaker a after (first a after run)

theorem both (first : Ensures x before post) (second : Ensures x before strong) :
    Ensures x before fun a after => post a after ∧ strong a after :=
  fun a after run => ⟨first a after run, second a after run⟩

theorem ite {condition : Prop} [Decidable condition] {y : Prog ε σ α}
    (positive : condition → Ensures x before post) (negative : ¬ condition → Ensures y before post) :
    Ensures (if condition then x else y) before post := by
  by_cases holds : condition
  · rw [if_pos holds]
    exact positive holds
  · rw [if_neg holds]
    exact negative holds

/-- A loop over a list, by an invariant of the items that are done and the state. -/
theorem forM {ι : Type} {body : ι → Prog ε σ Unit} (holds : List ι → σ → Prop) (items : List ι)
    (start : holds [] before)
    (turn : ∀ done item rest, items = done ++ item :: rest → ∀ state, holds done state →
      Ensures (body item) state fun _ after => holds (done ++ [item]) after) :
    Ensures (items.forM body) before fun _ after => holds items after := by
  induction items generalizing before holds with
  | nil => exact pure start
  | cons item rest ih =>
    refine bind (turn [] item rest rfl before start) fun _ middle here => ?_
    refine ih (fun done => holds (item :: done)) here fun done next tail split => ?_
    exact turn (item :: done) next tail (congrArg (item :: ·) split)

/-- A loop over a list, by an invariant of the state. -/
theorem forM_invariant {ι : Type} {body : ι → Prog ε σ Unit} {holds : σ → Prop} {items : List ι}
    (start : holds before)
    (turn : ∀ item ∈ items, ∀ state, holds state →
      Ensures (body item) state fun _ after => holds after) :
    Ensures (items.forM body) before fun _ after => holds after :=
  forM (fun _ => holds) items start fun done item _ split =>
    turn item (split ▸ List.mem_append_right done List.mem_cons_self)

end Ensures

/-! ### Total correctness -/

/-- The program ends, and its result and final state satisfy `post`. -/
def Returns (x : Prog ε σ α) (before : σ) (post : α → σ → Prop) : Prop :=
  ∃ a after, x before = .ok (a, after) ∧ post a after

namespace Returns

theorem ensures (ends : Returns x before post) : Ensures x before post := by
  obtain ⟨a, after, run, holds⟩ := ends
  intro a' after' run'
  rw [run] at run'
  cases run'
  exact holds

end Returns

/-! ### Correctness with the errors that remain -/

/-- If the program ends, its result and final state satisfy `post`; if it stops, its error satisfies
`stops`. -/
structure Meets (x : Prog ε σ α) (before : σ) (stops : ε → Prop) (post : α → σ → Prop) : Prop where
  ends : ∀ a after, x before = .ok (a, after) → post a after
  halts : ∀ error, x before = .error error → stops error

namespace Meets

variable {stops fewer : ε → Prop}

theorem pure {a : α} (holds : post a before) :
    Meets (Pure.pure a : Prog ε σ α) before stops post :=
  ⟨Ensures.pure holds, fun _ run => nomatch run⟩

theorem trivial : Meets x before (fun _ => True) fun _ _ => True :=
  ⟨fun _ _ _ => True.intro, fun _ _ => True.intro⟩

theorem of_ok {a : α} (run : x before = .ok (a, after)) (holds : post a after) :
    Meets x before stops post := by
  refine ⟨fun a' after' run' => ?_, fun error run' => ?_⟩
  · rw [run] at run'
    cases run'
    exact holds
  · rw [run] at run'
    cases run'

theorem of_error {error : ε} (run : x before = .error error) (holds : stops error) :
    Meets x before stops post := by
  refine ⟨fun a' after' run' => ?_, fun error' run' => ?_⟩
  · rw [run] at run'
    cases run'
  · rw [run] at run'
    cases run'
    exact holds

theorem bind (first : Meets x before stops post)
    (rest : ∀ a middle, post a middle → Meets (f a) middle stops last) :
    Meets (x >>= f) before stops last := by
  refine ⟨fun b final run => ?_, fun error run => ?_⟩
  · obtain ⟨a, middle, head, tail⟩ := bind_ends.mp run
    exact (rest a middle (first.ends a middle head)).ends b final tail
  · rcases bind_stops.mp run with here | ⟨a, middle, head, tail⟩
    · exact first.halts error here
    · exact (rest a middle (first.ends a middle head)).halts error tail

theorem weaken (first : Meets x before fewer strong) (more : ∀ error, fewer error → stops error)
    (weaker : ∀ a after, strong a after → post a after) : Meets x before stops post :=
  ⟨fun a after run => weaker a after (first.ends a after run),
    fun error run => more error (first.halts error run)⟩

theorem congr {y : Prog ε σ α} (same : x before = y after) (first : Meets y after stops post) :
    Meets x before stops post :=
  ⟨fun a after run => first.ends a after (same ▸ run), fun error run => first.halts error (same ▸ run)⟩

theorem mono (first : Meets x before stops strong)
    (weaker : ∀ a after, strong a after → post a after) : Meets x before stops post :=
  first.weaken (fun _ here => here) weaker

theorem also (first : Meets x before stops post) (more : Ensures x before strong) :
    Meets x before stops fun a after => post a after ∧ strong a after :=
  ⟨Ensures.both first.ends more, first.halts⟩

theorem returns (first : Meets x before (fun _ => False) post) : Returns x before post := by
  cases run : x before with
  | ok result => exact ⟨result.1, result.2, run, first.ends _ _ run⟩
  | error error => exact (first.halts error run).elim

end Meets

theorem Returns.meets {stops : ε → Prop} (ends : Returns x before post) :
    Meets x before stops post := by
  obtain ⟨a, after, run, holds⟩ := ends
  exact .of_ok run holds

end Program
