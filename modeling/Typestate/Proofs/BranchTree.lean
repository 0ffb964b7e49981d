import Mathlib.Order.Defs.PartialOrder
import Typestate.BranchTree

set_option autoImplicit false

/-!
Branch trees only grow, and every choice lies above an earlier one. What is recorded of a branch
stays, and so does the way from its choice up to the root.
-/

namespace Typestate

namespace BranchTree

/-- A tree comes before those that have more choices after the same ones. -/
instance : Preorder BranchTree where
  le t u := t.nodes.toList <+: u.nodes.toList
  le_refl _ := List.prefix_rfl
  le_trans _ _ _ := List.IsPrefix.trans

variable {t u : BranchTree} {id parent : Nat}

theorem mint_le (t : BranchTree) (parent : Nat) (purpose : String) :
    t ≤ (t.mint parent purpose).1 := by
  change t.nodes.toList <+: (t.nodes.push _).toList
  simp

theorem size_le_of_le (grown : t ≤ u) : t.size ≤ u.size := by
  have lengths := List.IsPrefix.length_le grown
  simpa [size] using lengths

theorem parent?_of_le (grown : t ≤ u) (known : id < t.size) : u.parent? id = t.parent? id := by
  obtain ⟨more, shape⟩ := grown
  have node : u.nodes[id]? = t.nodes[id]? := by
    rw [← Array.getElem?_toList, ← shape, List.getElem?_append_left known,
      Array.getElem?_toList]
  rw [parent?, parent?, node]

theorem lt_size_of_parent? (known : t.parent? id = some parent) : id < t.size := by
  obtain ⟨node, found, -⟩ := Option.bind_eq_some_iff.mp known
  obtain ⟨inside, -⟩ := Array.getElem?_eq_some_iff.mp found
  exact inside

/-- The way up from a choice goes to earlier and earlier choices and ends at the root. -/
inductive Rooted (t : BranchTree) : Nat → Prop
  | root (some : 0 < t.size) (top : t.parent? 0 = none) : Rooted t 0
  | under {id parent : Nat} (above : Rooted t parent) (known : t.parent? id = some parent)
      (earlier : parent < id) : Rooted t id

namespace Rooted

theorem new : BranchTree.new.Rooted 0 := .root (by decide) (by decide)

theorem lt_size (rooted : t.Rooted id) : id < t.size := by
  cases rooted with
  | root some top => exact some
  | under above known earlier => exact lt_size_of_parent? known

theorem zero (rooted : t.Rooted id) : t.Rooted 0 := by
  induction rooted with
  | root some top => exact .root some top
  | under above known earlier ih => exact ih

theorem mono (grown : t ≤ u) (rooted : t.Rooted id) : u.Rooted id := by
  induction rooted with
  | root some top =>
    have larger := size_le_of_le grown
    exact .root (by omega) (by rw [parent?_of_le grown some, top])
  | @under id parent above known earlier ih =>
    exact .under ih (by rw [parent?_of_le grown (lt_size_of_parent? known), known]) earlier

theorem climb (rooted : t.Rooted id) (steps : Nat) : ∀ a ∈ t.climb steps id, t.Rooted a := by
  induction steps generalizing id with
  | zero =>
    intro a member
    rw [List.mem_singleton.mp member]
    exact rooted
  | succ steps ih =>
    rw [BranchTree.climb]
    cases rooted with
    | root some top =>
      intro a member
      rw [top] at member
      rw [List.mem_singleton.mp member]
      exact .root some top
    | under above known earlier =>
      rw [known]
      exact List.forall_mem_cons.mpr ⟨.under above known earlier, ih above⟩

theorem commonAncestor (rooted : t.Rooted id) (other : Nat) :
    t.Rooted (t.commonAncestor other id) := by
  unfold BranchTree.commonAncestor
  cases found : (t.ancestors id).find? fun a => (t.ancestors other).contains a with
  | none => exact rooted.zero
  | some a => exact rooted.climb t.size a (List.mem_of_find?_eq_some found)

end Rooted

/-- A branch is the root, or its choice was made in the tree under the choice that it names. -/
structure Records (t : BranchTree) (b : Branch) : Prop where
  rooted : t.Rooted b.choice
  made : b = .root ∨ t.parent? b.choice = some b.parent ∧ b.parent < b.choice

theorem Rooted.records_mint (rooted : t.Rooted parent) (purpose : String) :
    (t.mint parent purpose).1.Records ⟨parent, (t.mint parent purpose).2⟩ := by
  have made : (t.mint parent purpose).1.parent? (t.mint parent purpose).2 = some parent := by
    simp [mint, parent?, size]
  have earlier : parent < (t.mint parent purpose).2 := rooted.lt_size
  exact ⟨.under (rooted.mono (t.mint_le parent purpose)) made earlier, .inr ⟨made, earlier⟩⟩

theorem Records.mono {b : Branch} (grown : t ≤ u) (records : t.Records b) : u.Records b := by
  refine ⟨records.rooted.mono grown, records.made.imp_right fun made => ?_⟩
  rw [parent?_of_le grown (lt_size_of_parent? made.1)]
  exact made

/-- What can be said of a branch, also of one that is opened under it, as long as the tree only
grows. -/
structure Inherited (mark : BranchTree → Branch → Prop) : Prop where
  grows : ∀ {t u : BranchTree} {b : Branch}, t ≤ u → mark t b → mark u b
  opens : ∀ {t : BranchTree} {b : Branch} (purpose : String), mark t b →
    mark (t.fresh b purpose).1 (t.fresh b purpose).2

theorem records_inherited : Inherited Records :=
  ⟨Records.mono, fun purpose records => records.rooted.records_mint purpose⟩

end BranchTree

end Typestate
