/-
**Programs as sequences of atomic programs.**

A `Script` performs one atomic program after the other; what it performs next depends on the results
so far. It has two meanings:

* `run` — all of it at once, as one program (`run_bind`, `Meets.seq`);
* `Thread` steps — one atomic program at a time, in between steps of other scripts.

A script on a part of the state is performed on the whole state by `zoom`.
-/

import Csc3150.Library.Program

namespace Program

/-- An atomic program, and the script that follows with its result. -/
inductive Script (ε σ α : Type) : Type 1 where
  | done (a : α) : Script ε σ α
  | step {β : Type} (first : Prog ε σ β) (next : β → Script ε σ α) : Script ε σ α

namespace Script

variable {ε σ τ α β : Type}

/-- The script `f a` after the script with result `a`. -/
def bind : Script ε σ α → (α → Script ε σ β) → Script ε σ β
  | done a, f => f a
  | step first next, f => step first fun b => (next b).bind f

instance : Monad (Script ε σ) where
  pure := done
  bind := bind

/-- One atomic program. -/
def atomic (first : Prog ε σ α) : Script ε σ α := step first done

/-- Perform the script at once. -/
def run : Script ε σ α → Prog ε σ α
  | done a => pure a
  | step first next => first >>= fun b => (next b).run

/-- The script on a part of the state. -/
def zoom (part : τ → σ) (update : σ → τ → τ) : Script ε σ α → Script ε τ α
  | done a => done a
  | step first next =>
    step (fun whole => first (part whole) >>= fun result =>
      .ok (result.1, update result.2 whole)) fun b => (next b).zoom part update

@[simp] theorem run_pure (a : α) : (pure a : Script ε σ α).run = pure a := rfl

@[simp] theorem run_atomic (first : Prog ε σ α) : (atomic first).run = first := by
  funext before
  show first before >>= _ = first before
  cases first before <;> rfl

@[simp] theorem run_bind (x : Script ε σ α) (f : α → Script ε σ β) :
    (x >>= f).run = x.run >>= fun a => (f a).run := by
  induction x with
  | done a => rfl
  | step first next ih =>
    funext before
    show first before >>= (fun result => (next result.1 >>= f).run result.2) =
      (first before >>= fun result => (next result.1).run result.2) >>= _
    cases first before with
    | error error => rfl
    | ok result =>
      show (next result.1 >>= f).run result.2 = _
      rw [ih]
      rfl

/-- Scripts that go on in the same way after every result have the same run. -/
theorem run_bind_congr {x : Script ε σ α} {f g : α → Script ε σ β} {before : σ}
    (same : ∀ a middle, x.run before = .ok (a, middle) → (f a).run middle = (g a).run middle) :
    (x >>= f).run before = (x >>= g).run before := by
  rw [run_bind, run_bind, bind_apply, bind_apply]
  cases run : x.run before with
  | error error => rfl
  | ok result => exact same _ _ run

/-- Performing a script on a part of the state changes that part alone. -/
theorem run_zoom (part : τ → σ) (update : σ → τ → τ) (x : Script ε σ α)
    (same : ∀ whole, update (part whole) whole = whole)
    (back : ∀ whole s, part (update s whole) = s)
    (twice : ∀ whole s s', update s' (update s whole) = update s' whole) (whole : τ) :
    (x.zoom part update).run whole =
      x.run (part whole) >>= fun result => .ok (result.1, update result.2 whole) := by
  induction x generalizing whole with
  | done a =>
    show Except.ok (a, whole) = Except.ok (a, update (part whole) whole)
    rw [same]
  | step first next ih =>
    show (first (part whole) >>= _) >>= _ = (first (part whole) >>= _) >>= _
    cases first (part whole) with
    | error error => rfl
    | ok result =>
      show ((next result.1).zoom part update).run (update result.2 whole) =
        (next result.1).run result.2 >>= _
      rw [ih, back]
      simp only [twice]

end Script

namespace Ensures

variable {ε σ α β : Type} {before : σ} {post : α → σ → Prop} {last : β → σ → Prop}

/-- A script by its parts. -/
theorem seq {x : Script ε σ α} {f : α → Script ε σ β} (first : Ensures x.run before post)
    (rest : ∀ a middle, post a middle → Ensures (f a).run middle last) :
    Ensures (x >>= f).run before last := by
  rw [Script.run_bind]
  exact first.bind rest

/-- A script after one whose run is known. -/
theorem seq_run {x : Script ε σ α} {f : α → Script ε σ β} {a : α} {middle : σ}
    (run : x.run before = .ok (a, middle)) (rest : Ensures (f a).run middle last) :
    Ensures (x >>= f).run before last := by
  rw [Script.run_bind]
  intro b final ends
  rw [bind_run run] at ends
  exact rest b final ends

theorem atomic {x : Prog ε σ α} (first : Ensures x before post) :
    Ensures (Script.atomic x).run before post := by
  rwa [Script.run_atomic]

theorem done {a : α} (holds : post a before) :
    Ensures (Pure.pure a : Script ε σ α).run before post :=
  .pure holds

end Ensures

namespace Meets

variable {ε σ α β : Type} {before : σ} {stops : ε → Prop} {post : α → σ → Prop}
  {last : β → σ → Prop}

/-- A script by its parts. -/
theorem seq {x : Script ε σ α} {f : α → Script ε σ β} (first : Meets x.run before stops post)
    (rest : ∀ a middle, post a middle → Meets (f a).run middle stops last) :
    Meets (x >>= f).run before stops last := by
  rw [Script.run_bind]
  exact first.bind rest

/-- A script after one whose run is known. -/
theorem seq_run {x : Script ε σ α} {f : α → Script ε σ β} {a : α} {middle : σ}
    (run : x.run before = .ok (a, middle)) (rest : Meets (f a).run middle stops last) :
    Meets (x >>= f).run before stops last := by
  rw [Script.run_bind]
  exact rest.congr (bind_run run)

theorem atomic {x : Prog ε σ α} (first : Meets x before stops post) :
    Meets (Script.atomic x).run before stops post := by
  rwa [Script.run_atomic]

theorem done {a : α} (holds : post a before) :
    Meets (Pure.pure a : Script ε σ α).run before stops post :=
  .pure holds

/-- A loop over a list, by an invariant of the state. -/
theorem forM {ι : Type} {body : ι → Script ε σ Unit} {holds : σ → Prop} {items : List ι}
    (start : holds before)
    (turn : ∀ item state, holds state → Meets (body item).run state stops fun _ after => holds after) :
    Meets (items.forM body).run before stops fun _ after => holds after := by
  induction items generalizing before with
  | nil => exact .done start
  | cons item rest ih => exact .seq (turn item before start) fun _ middle here => ih here

end Meets

end Program
