import Typestate.Proofs.Space.Orthogonality

set_option autoImplicit false

/-!
What being in one node says about being in another. A name stands for a state: a dimension for the
one that it refines, every other name for itself. One name implies another exactly if the state of
the second lies above the state of the first, so a state and its dimensions imply each other.
-/

namespace Typestate

namespace Space

variable {s : Space}

theorem stateOf_of_plain {n : String} (plain : s.isDimension n = false) : s.stateOf n = n := by
  simp [stateOf, plain]

theorem stateOf_of_isDimension {n : String} (dimension : s.isDimension n = true) :
    s.stateOf n = s.parentOf n := by
  simp [stateOf, dimension, parentOf]

variable (grown : s.Grown)

include grown

theorem Grown.above_stateOf (n : String) : s.Above (s.stateOf n) n := by
  unfold stateOf
  split
  · exact grown.above_parentOf n
  · exact grown.above_refl n

theorem Grown.isDimension_stateOf (n : String) : s.isDimension (s.stateOf n) = false := by
  cases dimension : s.isDimension n with
  | false => rwa [stateOf_of_plain dimension]
  | true =>
      rw [stateOf_of_isDimension dimension]
      exact grown.parentOf_of_isDimension dimension

theorem Grown.above_stateOf_iff {upper n : String} (plain : s.isDimension upper = false) :
    s.Above upper (s.stateOf n) ↔ s.Above upper n := by
  refine ⟨fun atop => grown.above_trans atop (grown.above_stateOf n), fun atop => ?_⟩
  cases dimension : s.isDimension n with
  | false => rwa [stateOf_of_plain dimension]
  | true =>
      rw [stateOf_of_isDimension dimension]
      exact ((grown.above_iff_of_ne (grown.ne_alive_of_isDimension dimension)).mp
        atop).resolve_left (ne_of_isDimension plain dimension)

theorem Grown.implies_iff (known needed : String) :
    s.implies known needed = true ↔ s.Above (s.stateOf needed) (s.stateOf known) := by
  rw [implies, covers_iff, grown.above_stateOf_iff (grown.isDimension_stateOf needed)]

omit grown in
theorem implies_iff_of_plain {known needed : String} (plain : s.isDimension needed = false) :
    s.implies known needed = true ↔ s.Above needed known := by
  rw [implies, covers_iff, stateOf_of_plain plain]

theorem Grown.implies_of_above {upper lower needed : String} (atop : s.Above upper lower)
    (implied : s.implies upper needed = true) : s.implies lower needed = true := by
  rw [implies, covers_iff] at implied ⊢
  exact grown.above_trans implied atop

theorem Grown.implies_self (n : String) : s.implies n n = true :=
  (grown.implies_iff n n).mpr (grown.above_refl _)

theorem Grown.implies_trans {a b c : String} (first : s.implies a b = true)
    (second : s.implies b c = true) : s.implies a c = true := by
  rw [grown.implies_iff] at first second ⊢
  exact grown.above_trans second first

theorem Grown.implies_both_iff {a b : String} :
    s.implies a b = true ∧ s.implies b a = true ↔ s.stateOf a = s.stateOf b := by
  rw [grown.implies_iff, grown.implies_iff]
  refine ⟨fun both => grown.above_antisymm both.2 both.1, fun same => ?_⟩
  rw [same]
  exact ⟨grown.above_refl _, grown.above_refl _⟩

theorem Grown.stateOf_eq_alive_iff {n : String} :
    s.stateOf n = alive ↔ n = alive ∨ n ∈ s.dimensions alive := by
  rw [grown.mem_dimensions_iff]
  cases dimension : s.isDimension n with
  | false => simp [stateOf_of_plain dimension]
  | true => simp [stateOf_of_isDimension dimension, grown.ne_alive_of_isDimension dimension]

theorem Grown.ne_alive_of_implies {known needed : String} (below : s.stateOf needed ≠ alive)
    (implied : s.implies known needed = true) : known ≠ alive := by
  rintro rfl
  rw [grown.implies_iff, stateOf_of_plain grown.isDimension_alive] at implied
  exact below (grown.eq_of_above_alive implied)

theorem Grown.lowestCommonState_above (a b : String) :
    s.Above (s.lowestCommonState a b) a ∧ s.Above (s.lowestCommonState a b) b := by
  obtain ⟨left, right, -⟩ := grown.lowestCommonAncestor_spec a b
  have lifted := grown.above_stateOf (s.lowestCommonAncestor a b)
  exact ⟨grown.above_trans lifted left, grown.above_trans lifted right⟩

end Space

end Typestate
