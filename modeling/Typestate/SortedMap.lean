set_option autoImplicit false

/-!
Finite maps kept as lists of pairs in ascending order of their keys.
-/

namespace Typestate

structure SortedMap (κ ν : Type) where
  entries : List (κ × ν)
  deriving Repr

namespace SortedMap

variable {κ ν : Type}

def empty : SortedMap κ ν := ⟨[]⟩

instance : Inhabited (SortedMap κ ν) := ⟨empty⟩

instance [BEq κ] [BEq ν] : BEq (SortedMap κ ν) := ⟨fun a b => a.entries == b.entries⟩

def size (m : SortedMap κ ν) : Nat := m.entries.length

def keys (m : SortedMap κ ν) : List κ := m.entries.map Prod.fst

variable [DecidableEq κ]

def get? (m : SortedMap κ ν) (key : κ) : Option ν :=
  (m.entries.find? fun entry => entry.1 = key).map Prod.snd

def contains (m : SortedMap κ ν) (key : κ) : Bool := (m.get? key).isSome

variable [LT κ] [DecidableLT κ]

/-- Places a pair in front of the first greater key, in place of an equal one. -/
def insertInto (key : κ) (value : ν) : List (κ × ν) → List (κ × ν)
  | [] => [(key, value)]
  | entry :: rest =>
      if key = entry.1 then (key, value) :: rest
      else if key < entry.1 then (key, value) :: entry :: rest
      else entry :: insertInto key value rest

def insert (m : SortedMap κ ν) (key : κ) (value : ν) : SortedMap κ ν :=
  ⟨insertInto key value m.entries⟩

/-- All pairs of the second map put on top of the first. -/
def overlay (base top : SortedMap κ ν) : SortedMap κ ν :=
  top.entries.foldl (fun m entry => m.insert entry.1 entry.2) base

/-- The pairs of both maps. For a key of both, the map with more keys decides, and the first one
if they have equally many. -/
def union (a b : SortedMap κ ν) : SortedMap κ ν :=
  if a.size < b.size then a.overlay b else b.overlay a

end SortedMap

end Typestate
