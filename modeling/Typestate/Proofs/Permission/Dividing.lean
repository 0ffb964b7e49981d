import Typestate.Proofs.Permission.Bookkeeping
import Typestate.Proofs.Permission.Locality

set_option autoImplicit false

/-!
Moving a permission down to a node divides it exactly. What is orthogonal to the node is left to one
of the other parts each, what is not to none of them, and every part holds what the whole held.
-/

namespace Typestate

/-- The part for a node and the others, of which exactly one has each node beside it. -/
structure Permission.Division (p : Permission) (n : String) (part : Permission)
    (rest : List Permission) : Prop where
  root : part.root = n
  orthogonal : p.space.allOrthogonal ((part :: rest).map Permission.root) = true
  beside : ∀ m, p.covers m = true → p.space.orthogonal m n = true →
    rest.countP (fun q => q.covers m) = 1
  only : ∀ q ∈ rest, ∀ m, q.covers m = true → p.space.orthogonal m n = true
  shares : ∀ q ∈ part :: rest, ∀ m, q.covers m = true ∨ p.space.covers m q.root = true →
    q.shares.get m = p.shares.get m
  space : ∀ q ∈ part :: rest, q.space = p.space
  readOnly : ∀ q ∈ part :: rest, q.readOnly = p.readOnly
  frame : ∀ q ∈ part :: rest, q.frame = p.frame

namespace Pool

variable {S : Space} {frame : Bool}

theorem tidy_singleton {p : Permission} : Tidy p.space p.frame [p] :=
  tidy_cons.mpr ⟨rfl, rfl, nofun, .nil⟩

theorem Tidy.countP_covers (grown : S.Grown) {pool : Pool} (tidy : Tidy S frame pool)
    {q : Permission} (member : q ∈ pool) {m : String} (reached : q.covers m = true) :
    pool.countP (fun q => q.covers m) = 1 := by
  have above {q' : Permission} (inside : q' ∈ pool) (atop : q'.covers m = true) :
      S.Above q'.root m := (Permission.covers_iff (tidy.space q' inside)).mp atop
  have clash {q' : Permission} (inside : q' ∈ pool) (parted : S.Parted q'.root q.root) :
      ¬q'.covers m = true := fun atop =>
    grown.not_parted_self m (grown.parted_mono parted (above inside atop) (above member reached))
  -- What comes before and what comes after it in the list is beside it.
  obtain ⟨before, after, rfl⟩ := List.append_of_mem member
  obtain ⟨-, later, across⟩ := List.pairwise_append.mp tidy.apart
  have none : before.countP (fun q => q.covers m) = 0 := by
    rw [List.countP_eq_zero]
    intro q' inside
    exact clash (List.mem_append_left _ inside) (across q' inside q List.mem_cons_self)
  have nothing : after.countP (fun q => q.covers m) = 0 := by
    rw [List.countP_eq_zero]
    intro q' inside
    exact clash (List.mem_append_right _ (List.mem_cons_of_mem _ inside))
      ((List.pairwise_cons.mp later).1 q' inside).symm
  rw [List.countP_append, List.countP_cons, none, nothing, if_pos reached]

end Pool

namespace Permission

section MovingDown

variable {p : Permission} (grown : p.space.Grown) {n : String} (lower : p.covers n = true)
  (apart : n ≠ p.root)

include grown lower apart

theorem moveDown_rest {q : Permission} (member : q ∈ (p.moveDown n).2) :
    p.space.Above p.root q.root ∧ p.space.Parted q.root n := by
  have atop := (p.space.covers_iff p.root n).mp lower
  obtain ⟨way, beside, shape⟩ := beside_eq grown rfl atop apart.symm
  obtain ⟨d, sibling, rfl⟩ := List.mem_map.mp member
  rw [beside] at sibling
  obtain ⟨parted, below⟩ := (grown.siblings_parted shape).2 d sibling
  exact ⟨below, parted.symm⟩

theorem moveDown_tidy : Pool.Tidy p.space p.frame ((p.moveDown n).1 :: (p.moveDown n).2) := by
  have tidy := Pool.tidy_singleton.moveDown grown lower apart.symm
  rwa [List.nil_append] at tidy

theorem exists_moveDown_covers {m : String} (below : p.space.Above p.root m)
    (parted : p.space.Parted n m) : ∃ q ∈ (p.moveDown n).2, q.covers m = true := by
  have atop := (p.space.covers_iff p.root n).mp lower
  obtain ⟨way, beside, shape⟩ := beside_eq grown rfl atop apart.symm
  obtain ⟨d, sibling, overM⟩ := grown.exists_sibling_above shape parted below
  refine ⟨p.reroot d, ?_, (p.space.covers_iff d m).mpr overM⟩
  rw [moveDown, beside]
  exact List.mem_map_of_mem sibling

theorem moveDown_atop {q : Permission} (member : q ∈ (p.moveDown n).1 :: (p.moveDown n).2) :
    p.space.Above p.root q.root := by
  rcases List.mem_cons.mp member with rfl | other
  · exact (p.space.covers_iff p.root n).mp lower
  · exact (moveDown_rest grown lower apart other).1

end MovingDown

theorem eq_reroot_of_mem_moveDown {p q : Permission} {n : String}
    (member : q ∈ (p.moveDown n).1 :: (p.moveDown n).2) : q = p.reroot q.root := by
  rcases List.mem_cons.mp member with rfl | other
  · rfl
  · obtain ⟨d, -, rfl⟩ := List.mem_map.mp other
    rfl

/-- Moving down to a node below the root divides a permission. -/
theorem moveDown_division {p : Permission} (built : p.space.Built) (laid : p.shares.Laid)
    {n : String} (lower : p.covers n = true) (apart : n ≠ p.root) :
    p.Division n (p.moveDown n).1 (p.moveDown n).2 := by
  have grown := built.grown
  have tidy := moveDown_tidy grown lower apart
  obtain ⟨-, -, -, rest⟩ := Pool.tidy_cons.mp tidy
  constructor
  case root => rfl
  case orthogonal =>
    rw [grown.allOrthogonal_iff, List.pairwise_map]
    exact tidy.apart
  case beside =>
    intro m below orthogonal
    have parted := (grown.orthogonal_iff m n).mp orthogonal
    obtain ⟨q, member, reached⟩ := exists_moveDown_covers grown lower apart
      ((p.space.covers_iff p.root m).mp below) parted.symm
    exact rest.countP_covers grown member reached
  case only =>
    intro q member m reached
    have atop := (Permission.covers_iff (rest.space q member)).mp reached
    rw [grown.orthogonal_iff]
    exact grown.parted_mono (moveDown_rest grown lower apart member).2 atop (grown.above_refl n)
  case shares =>
    intro q member m reached
    have atop := moveDown_atop grown lower apart member
    have along : p.space.Above m q.root ∨ p.space.Above q.root m := by
      rw [← p.space.covers_iff, ← p.space.covers_iff]
      exact reached.symm.imp_right fun atop => tidy.space q member ▸ atop
    rw [eq_reroot_of_mem_moveDown member]
    exact Shares.get_reroot grown laid atop along
  case space => exact tidy.space
  case readOnly =>
    intro q member
    rw [eq_reroot_of_mem_moveDown member]
    rfl
  case frame => exact tidy.frame

end Permission

namespace Recorder

/-- A recorder with power, which works on a tape at a speed once it is on. -/
def draft : Space.Draft :=
  let powered := ((Space.Draft.new "Recorder").addDimension (some "power") alive ["on", "off"]
    false).1
  let loaded := (powered.addDimension (some "tape") "on" ["full", "blank"] false).1
  let running := (loaded.addDimension (some "speed") "on" ["slow", "fast"] false).1
  let tuned := (running.addDimension (some "gear") "fast" ["first", "second"] false).1
  (tuned.addDimension (some "noise") "fast" ["loud", "low"] false).1

theorem built : draft.space.Built :=
  ⟨draft, .addDimension (.addDimension (.addDimension (.addDimension (.addDimension
    (.new "Recorder") ..) ..) ..) ..) .., rfl⟩

/-- Of the power, with a fraction of its own at each node. -/
def permission : Permission :=
  ⟨⟨draft.space, "power", [("power", .named 0), (alive, .named 1)], .unknown 0⟩, true, true,
    ["blank"]⟩

/-- On the way to a gear there are the noise and, higher up, the tape. -/
theorem moveDown_division_gear :
    (permission.moveDown "second").2.map Permission.root = ["noise", "tape"] ∧
      permission.Division "second" (permission.moveDown "second").1
        (permission.moveDown "second").2 := by
  refine ⟨by decide +kernel, ?_⟩
  exact Permission.moveDown_division (p := permission) built (by decide +kernel)
    (by decide +kernel) (by decide +kernel)

end Recorder

end Typestate
