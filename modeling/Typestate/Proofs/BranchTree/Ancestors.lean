import Mathlib.Data.List.Chain
import Typestate.Proofs.BranchTree

set_option autoImplicit false

/-!
The way from a choice up to the root goes to earlier and earlier choices. So the first choice on one
way that is also on another is the latest that the two have in common, whichever is searched.
-/

namespace Typestate

namespace BranchTree

/-- Trees to which choices were added one by one, each under a choice that was there. -/
inductive Minted : BranchTree → Prop
  | new : Minted .new
  | mint {t : BranchTree} (minted : Minted t) {parent : Nat} (known : parent < t.size)
      (purpose : String) : Minted (t.mint parent purpose).1

/-- The whole way up: every choice is followed by the one it was made under, and the last one was
made under none. -/
structure WayUp (t : BranchTree) (id : Nat) (way : List Nat) : Prop where
  start : way.head? = some id
  step : way.IsChain fun lower upper => t.parent? lower = some upper
  stop : ∃ last, way.getLast? = some last ∧ t.parent? last = none

variable {t : BranchTree} {id parent : Nat}

theorem size_mint (t : BranchTree) (parent : Nat) (purpose : String) :
    (t.mint parent purpose).1.size = t.size + 1 := by
  simp [mint, size]

theorem Minted.rooted (minted : t.Minted) (known : id < t.size) : t.Rooted id := by
  induction minted generalizing id with
  | new =>
    have first : id = 0 := by simpa [BranchTree.new, size] using known
    rw [first]
    exact .new
  | @mint t minted parent above purpose ih =>
    rw [size_mint] at known
    by_cases latest : id = t.size
    · rw [latest]
      exact ((ih above).records_mint purpose).rooted
    · exact (ih (by omega)).mono (t.mint_le parent purpose)

theorem climb_root (top : t.parent? id = none) (steps : Nat) : t.climb steps id = [id] := by
  cases steps with
  | zero => rfl
  | succ steps => rw [climb, top]

theorem climb_under (known : t.parent? id = some parent) (steps : Nat) :
    t.climb (steps + 1) id = id :: t.climb steps parent := by
  rw [climb, known]

/-- Steps that are not needed to reach the root change nothing. -/
theorem Rooted.climb_eq (rooted : t.Rooted id) {steps more : Nat} (enough : id ≤ steps)
    (other : id ≤ more) : t.climb steps id = t.climb more id := by
  induction rooted generalizing steps more with
  | root some top => rw [climb_root top, climb_root top]
  | @under id parent above known earlier ih =>
    obtain ⟨fewer, rfl⟩ : ∃ k, steps = k + 1 := ⟨steps - 1, by omega⟩
    obtain ⟨fewer', rfl⟩ : ∃ k, more = k + 1 := ⟨more - 1, by omega⟩
    have same : t.climb fewer parent = t.climb fewer' parent := ih (by omega) (by omega)
    rw [climb_under known, climb_under known, same]

theorem ancestors_of_root (top : t.parent? id = none) : t.ancestors id = [id] :=
  climb_root top t.size

theorem Rooted.ancestors_eq (above : t.Rooted parent) (known : t.parent? id = some parent)
    (earlier : parent < id) : t.ancestors id = id :: t.ancestors parent := by
  have inside := lt_size_of_parent? known
  obtain ⟨steps, size⟩ : ∃ k, t.size = k + 1 := ⟨t.size - 1, by omega⟩
  have same : t.climb steps parent = t.climb t.size parent :=
    above.climb_eq (by omega) (by omega)
  rw [ancestors, ancestors, ← same, size, climb_under known]

namespace Rooted

theorem le_of_mem_ancestors (rooted : t.Rooted id) : ∀ a ∈ t.ancestors id, a ≤ id := by
  induction rooted with
  | root some top => simp [ancestors_of_root top]
  | @under id parent above known earlier ih =>
    rw [above.ancestors_eq known earlier]
    intro a member
    rcases List.mem_cons.mp member with rfl | higher
    · exact Nat.le_refl a
    · exact Nat.le_trans (ih a higher) (Nat.le_of_lt earlier)

theorem ancestors_decreasing (rooted : t.Rooted id) :
    (t.ancestors id).Pairwise fun lower upper => upper < lower := by
  induction rooted with
  | root some top => simp [ancestors_of_root top]
  | @under id parent above known earlier ih =>
    rw [above.ancestors_eq known earlier, List.pairwise_cons]
    refine ⟨fun a higher => ?_, ih⟩
    exact Nat.lt_of_le_of_lt (above.le_of_mem_ancestors a higher) earlier

theorem head_ancestors (rooted : t.Rooted id) : (t.ancestors id).head? = some id := by
  cases rooted with
  | root some top => rw [ancestors_of_root top, List.head?_cons]
  | under above known earlier => rw [above.ancestors_eq known earlier, List.head?_cons]

theorem last_ancestors (rooted : t.Rooted id) : (t.ancestors id).getLast? = some 0 := by
  induction rooted with
  | root some top => rw [ancestors_of_root top, List.getLast?_singleton]
  | under above known earlier ih =>
    rw [above.ancestors_eq known earlier, List.getLast?_cons, ih, Option.getD_some]

theorem ancestors_chain (rooted : t.Rooted id) :
    (t.ancestors id).IsChain fun lower upper => t.parent? lower = some upper := by
  induction rooted with
  | root some top =>
    rw [ancestors_of_root top]
    exact .singleton 0
  | @under id parent above known earlier ih =>
    rw [above.ancestors_eq known earlier, List.isChain_cons]
    refine ⟨fun upper first => ?_, ih⟩
    rw [above.head_ancestors, Option.mem_some_iff] at first
    rw [known, first]

theorem parent?_zero (rooted : t.Rooted id) : t.parent? 0 = none := by
  induction rooted with
  | root some top => exact top
  | under above known earlier ih => exact ih

theorem wayUp (rooted : t.Rooted id) : t.WayUp id (t.ancestors id) :=
  ⟨rooted.head_ancestors, rooted.ancestors_chain, 0, rooted.last_ancestors, rooted.parent?_zero⟩

/-- The choice found is the latest of those on both ways up. -/
theorem commonAncestor_spec {other : Nat} (rooted : t.Rooted id) (second : t.Rooted other) :
    t.commonAncestor id other ∈ t.ancestors id ∧ t.commonAncestor id other ∈ t.ancestors other ∧
      ∀ c ∈ t.ancestors id, c ∈ t.ancestors other → c ≤ t.commonAncestor id other := by
  unfold BranchTree.commonAncestor
  cases found : (t.ancestors other).find? fun c => (t.ancestors id).contains c with
  | none =>
    -- The root is on both ways.
    have missed := List.find?_eq_none.mp found 0 (List.mem_of_getLast? second.last_ancestors)
    simp [List.mem_of_getLast? rooted.last_ancestors] at missed
  | some meet =>
    obtain ⟨hit, before, after, shape, first⟩ := List.find?_eq_some_iff_append.mp found
    refine ⟨by simpa using hit, List.mem_of_find?_eq_some found, fun c left right => ?_⟩
    have order := second.ancestors_decreasing
    rw [shape] at order right
    rcases List.mem_append.mp right with lower | here
    · have missed := first c lower
      simp [left] at missed
    · rcases List.mem_cons.mp here with rfl | higher
      · exact Nat.le_refl c
      · have later := (List.pairwise_cons.mp (List.pairwise_append.mp order).2.1).1 c higher
        exact Nat.le_of_lt later

theorem commonAncestor_comm {other : Nat} (rooted : t.Rooted id) (second : t.Rooted other) :
    t.commonAncestor id other = t.commonAncestor other id := by
  obtain ⟨left, right, latest⟩ := rooted.commonAncestor_spec second
  obtain ⟨left', right', latest'⟩ := second.commonAncestor_spec rooted
  exact Nat.le_antisymm (latest' _ right left) (latest _ right' left')

end Rooted

/-- In a tree that grew choice by choice, the way up from a choice ends, goes to earlier and earlier
choices and arrives at the root. The common ancestor of two choices is the latest choice on both
ways, and it does not matter which of the two is named first. -/
theorem commonAncestor_is_youngest (minted : t.Minted) :
    (∀ a < t.size, t.WayUp a (t.ancestors a) ∧
      ((t.ancestors a).Pairwise fun lower upper => upper < lower) ∧
      (t.ancestors a).getLast? = some 0) ∧
    ∀ a < t.size, ∀ b < t.size,
      t.commonAncestor a b ∈ t.ancestors a ∧ t.commonAncestor a b ∈ t.ancestors b ∧
      (∀ c, c ∈ t.ancestors a → c ∈ t.ancestors b → c ≤ t.commonAncestor a b) ∧
      t.commonAncestor a b = t.commonAncestor b a := by
  constructor
  · intro a known
    have rooted := minted.rooted known
    exact ⟨rooted.wayUp, rooted.ancestors_decreasing, rooted.last_ancestors⟩
  · intro a known b known'
    have left := minted.rooted known
    have right := minted.rooted known'
    obtain ⟨onLeft, onRight, latest⟩ := left.commonAncestor_spec right
    exact ⟨onLeft, onRight, latest, left.commonAncestor_comm right⟩

/-- A call with two cases, of which the first asks to unpack in two ways, and a later call. -/
def twoCalls : BranchTree :=
  ((((BranchTree.new.mint 0 "case").1.mint 0 "case").1.mint 1 "unpack").1.mint 1 "unpack").1.mint 3
    "case" |>.1

theorem twoCalls_minted : twoCalls.Minted :=
  .mint (.mint (.mint (.mint (.mint .new (by decide) _) (by decide) _) (by decide) _)
    (by decide) _) (by decide) _

theorem commonAncestor_is_youngest_of_twoCalls :
    twoCalls.ancestors 5 = [5, 3, 1, 0] ∧ twoCalls.WayUp 5 [5, 3, 1, 0] ∧
      twoCalls.commonAncestor 5 4 = 1 ∧ twoCalls.commonAncestor 4 5 = 1 ∧
      twoCalls.commonAncestor 5 2 = 0 := by
  obtain ⟨ways, meets⟩ := commonAncestor_is_youngest twoCalls_minted
  have way : twoCalls.ancestors 5 = [5, 3, 1, 0] := by decide
  have meet : twoCalls.commonAncestor 5 4 = 1 := by decide
  refine ⟨way, ?_, meet, ?_, by decide⟩
  · rw [← way]
    exact (ways 5 (by decide)).1
  · rw [← (meets 5 (by decide) 4 (by decide)).2.2.2, meet]

end BranchTree

end Typestate
