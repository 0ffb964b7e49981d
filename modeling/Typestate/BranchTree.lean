set_option autoImplicit false

/-!
Where an analysis has branched. Every choice gets a number of its own, larger than all before, and
remembers the choice it was made under.
-/

namespace Typestate

/-- A choice, and the choice at which it branched off. -/
structure Branch where
  parent : Nat
  choice : Nat
  deriving DecidableEq, Inhabited, Repr

namespace Branch

def root : Branch := ⟨0, 0⟩

def text (b : Branch) : String := "c" ++ toString b.parent ++ "/c" ++ toString b.choice

/-- The one that was made later. -/
def younger (a b : Branch) : Branch := if b.choice ≤ a.choice then a else b

end Branch

structure BranchNode where
  parent : Option Nat
  purpose : String
  deriving DecidableEq, Inhabited, Repr

structure BranchTree where
  /-- The choices in the order of their numbers. -/
  nodes : Array BranchNode
  deriving Inhabited, Repr

namespace BranchTree

def new : BranchTree := ⟨#[⟨none, "root"⟩]⟩

def size (t : BranchTree) : Nat := t.nodes.size

def mint (t : BranchTree) (parent : Nat) (purpose : String) : BranchTree × Nat :=
  (⟨t.nodes.push ⟨some parent, purpose⟩⟩, t.size)

/-- A new choice under that of the given branch. -/
def fresh (t : BranchTree) (b : Branch) (purpose : String) : BranchTree × Branch :=
  let (next, choice) := t.mint b.choice purpose
  (next, ⟨b.choice, choice⟩)

def parent? (t : BranchTree) (id : Nat) : Option Nat := t.nodes[id]?.bind BranchNode.parent

def purpose (t : BranchTree) (id : Nat) : String := (t.nodes[id]?.map BranchNode.purpose).getD ""

def younger (a b : Nat) : Nat := if b ≤ a then a else b

/-- At most so many steps up from a choice. -/
def climb (t : BranchTree) : Nat → Nat → List Nat
  | 0, id => [id]
  | steps + 1, id =>
      match t.parent? id with
      | some parent => id :: t.climb steps parent
      | none => [id]

/-- A choice and those above it. No choice lies above itself, so the way up leaves the tree after no
more steps than the tree has choices. -/
def ancestors (t : BranchTree) (id : Nat) : List Nat := t.climb t.size id

def commonAncestor (t : BranchTree) (a b : Nat) : Nat :=
  ((t.ancestors b).find? fun id => (t.ancestors a).contains id).getD 0

end BranchTree

end Typestate
