import Mathlib.Data.List.Forall2

set_option autoImplicit false

/-!
Reasoning about work on a state: what one run ensures, and what two runs have in common.
-/

namespace Typestate

variable {σ τ α β γ δ : Type}

section Pairing

variable {R : α → β → Prop} {xs : List α} {ys : List β}

theorem exists_left_of_forall₂ (paired : List.Forall₂ R xs ys) {b : β} (member : b ∈ ys) :
    ∃ a ∈ xs, R a b := by
  induction paired with
  | nil => cases member
  | @cons a b' _ _ here _ ih =>
      rcases List.mem_cons.mp member with rfl | later
      · exact ⟨a, List.mem_cons_self, here⟩
      · obtain ⟨a', inside, known⟩ := ih later
        exact ⟨a', List.mem_cons_of_mem _ inside, known⟩

theorem exists_right_of_forall₂ (paired : List.Forall₂ R xs ys) {a : α} (member : a ∈ xs) :
    ∃ b ∈ ys, R a b :=
  exists_left_of_forall₂ (R := flip R) paired.flip member

theorem map_eq_of_forall₂ (label : α → γ) (key : β → γ)
    (paired : List.Forall₂ (fun a b => key b = label a) xs ys) : ys.map key = xs.map label := by
  induction paired with
  | nil => rfl
  | cons here _ ih => rw [List.map_cons, List.map_cons, here, ih]

end Pairing

/-- Work that starts in a state with the first property ends as the second one says. -/
def Ensures (before : σ → Prop) (work : StateM σ α) (after : α → σ → Prop) : Prop :=
  ∀ s, before s → after (work.run s).1 (work.run s).2

namespace Ensures

variable {before : σ → Prop}

theorem pure {after : α → σ → Prop} {a : α} (holds : ∀ s, before s → after a s) :
    Ensures before (pure a) after := holds

theorem bind {between : α → σ → Prop} {after : β → σ → Prop} {work : StateM σ α}
    {next : α → StateM σ β} (first : Ensures before work between)
    (second : ∀ a, Ensures (between a) (next a) after) :
    Ensures before (work >>= next) after :=
  fun s holds => second _ _ (first s holds)

end Ensures

/-- Work that never ends a property of the state. -/
def Keeps (property : σ → Prop) (work : StateM σ α) : Prop :=
  Ensures property work fun _ => property

namespace Keeps

variable {property : σ → Prop}

theorem pure (a : α) : Keeps property (pure a) := fun _ holds => holds

theorem bind {work : StateM σ α} {next : α → StateM σ β} (first : Keeps property work)
    (second : ∀ a, Keeps property (next a)) : Keeps property (work >>= next) :=
  Ensures.bind first second

theorem ite {condition : Prop} [Decidable condition] {work other : StateM σ α}
    (holds : Keeps property work) (fails : Keeps property other) :
    Keeps property (if condition then work else other) := by
  split
  · exact holds
  · exact fails

theorem foldlM {step : β → α → StateM σ β} (keeps : ∀ b a, Keeps property (step b a))
    (xs : List α) (b : β) : Keeps property (xs.foldlM step b) := by
  induction xs generalizing b with
  | nil => exact pure b
  | cons a rest ih =>
      rw [List.foldlM_cons]
      exact bind (keeps b a) ih

theorem mapM {step : α → StateM σ β} (keeps : ∀ a, Keeps property (step a)) (xs : List α) :
    Keeps property (xs.mapM step) := by
  induction xs with
  | nil => exact pure []
  | cons a rest ih =>
      rw [List.mapM_cons]
      exact bind (keeps a) fun b => bind ih fun bs => pure (b :: bs)

end Keeps

/-- Work whose result has a property wherever it starts. -/
def Yields (work : StateM σ α) (property : α → Prop) : Prop := ∀ s, property (work.run s).1

namespace Yields

theorem pure {property : α → Prop} {a : α} (holds : property a) :
    Yields (pure a : StateM σ α) property := fun _ => holds

theorem bind {between : α → Prop} {after : β → Prop} {work : StateM σ α}
    {next : α → StateM σ β} (first : Yields work between)
    (second : ∀ a, between a → Yields (next a) after) : Yields (work >>= next) after :=
  fun s => second _ (first s) _

theorem any (work : StateM σ α) : Yields work fun _ => True := fun _ => trivial

/-- Work whose own result does not matter for what comes after it. -/
theorem after {after : β → Prop} {work : StateM σ α} {next : α → StateM σ β}
    (second : ∀ a, Yields (next a) after) : Yields (work >>= next) after :=
  fun _ => second _ _

theorem ite {property : α → Prop} {condition : Prop} [Decidable condition]
    {work other : StateM σ α} (holds : condition → Yields work property)
    (fails : ¬condition → Yields other property) :
    Yields (if condition then work else other) property := by
  split
  · next decided => exact holds decided
  · next decided => exact fails decided

theorem foldlM {property : β → Prop} {step : β → α → StateM σ β} (xs : List α)
    (keeps : ∀ b, ∀ a ∈ xs, property b → Yields (step b a) property) {b : β}
    (holds : property b) : Yields (xs.foldlM step b) property := by
  induction xs generalizing b with
  | nil => exact pure holds
  | cons a rest ih =>
      rw [List.foldlM_cons]
      exact bind (keeps b a List.mem_cons_self holds) fun c kept =>
        ih (fun b' a' later => keeps b' a' (List.mem_cons_of_mem _ later)) kept

theorem mapM {property : α → β → Prop} {step : α → StateM σ β} (xs : List α)
    (each : ∀ a ∈ xs, Yields (step a) (property a)) :
    Yields (xs.mapM step) fun ys => List.Forall₂ property xs ys := by
  induction xs with
  | nil => exact pure .nil
  | cons a rest ih =>
      rw [List.mapM_cons]
      refine bind (each a List.mem_cons_self) fun b first =>
        bind (ih fun a' later => each a' (List.mem_cons_of_mem _ later)) fun ys others => ?_
      exact pure (.cons first others)

end Yields

/-- Two pieces of work that keep a relation of their states and have related results. -/
def Coupled (states : σ → τ → Prop) (results : α → β → Prop) (work : StateM σ α)
    (other : StateM τ β) : Prop :=
  ∀ s t, states s t →
    results (work.run s).1 (other.run t).1 ∧ states (work.run s).2 (other.run t).2

namespace Coupled

variable {states : σ → τ → Prop}

theorem pure {results : α → β → Prop} {a : α} {b : β} (related : results a b) :
    Coupled states results (pure a) (pure b) :=
  fun _ _ same => ⟨related, same⟩

theorem refl (work : StateM σ α) : Coupled Eq Eq work work := by
  intro s t same
  rw [same]
  exact ⟨rfl, rfl⟩

theorem bind {between : α → β → Prop} {results : γ → δ → Prop} {work : StateM σ α}
    {other : StateM τ β} {next : α → StateM σ γ} {otherNext : β → StateM τ δ}
    (first : Coupled states between work other)
    (second : ∀ a b, between a b → Coupled states results (next a) (otherNext b)) :
    Coupled states results (work >>= next) (other >>= otherNext) := by
  intro s t same
  obtain ⟨related, kept⟩ := first s t same
  exact second _ _ related _ _ kept

theorem ite {results : α → β → Prop} {condition : Prop} {yes otherYes : Decidable condition}
    {work second : StateM σ α} {other otherSecond : StateM τ β}
    (holds : condition → Coupled states results work other)
    (fails : ¬condition → Coupled states results second otherSecond) :
    Coupled states results (@ite _ condition yes work second)
      (@ite _ condition otherYes other otherSecond) := by
  by_cases decided : condition
  · simpa only [if_pos decided] using holds decided
  · simpa only [if_neg decided] using fails decided

/-- Work that is done for every element, by one run for the images of what the other does it
for. -/
theorem mapM (image : α → γ) (result : β → δ) {step : α → StateM σ β} {other : γ → StateM τ δ}
    (coupled : ∀ a, Coupled states (fun b d => d = result b) (step a) (other (image a)))
    (xs : List α) :
    Coupled states (fun bs ds => ds = bs.map result) (xs.mapM step)
      ((xs.map image).mapM other) := by
  induction xs with
  | nil => exact pure rfl
  | cons a rest ih =>
      rw [List.map_cons, List.mapM_cons, List.mapM_cons]
      refine bind (coupled a) fun b d first => bind ih fun bs ds others => pure ?_
      rw [first, others, List.map_cons]

theorem foldlM (image : α → γ) (result : β → δ) {step : β → α → StateM σ β}
    {other : δ → γ → StateM τ δ}
    (coupled : ∀ b a,
      Coupled states (fun c d => d = result c) (step b a) (other (result b) (image a)))
    (xs : List α) (b : β) :
    Coupled states (fun c d => d = result c) (xs.foldlM step b)
      ((xs.map image).foldlM other (result b)) := by
  induction xs generalizing b with
  | nil => exact pure rfl
  | cons a rest ih =>
      rw [List.map_cons, List.foldlM_cons, List.foldlM_cons]
      refine bind (coupled b a) fun c d same => ?_
      rw [same]
      exact ih c

end Coupled

end Typestate
