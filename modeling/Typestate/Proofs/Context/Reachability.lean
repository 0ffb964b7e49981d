import Typestate.Context.Check
import Typestate.Context.Compact
import Typestate.Proofs.Work

set_option autoImplicit false

/-!
Which contexts are stuck and which are unreachable. No context is both, and making one compact does
not change what it is.
-/

namespace Typestate

namespace Context

theorem allStuck_eq (es : List Context) : allStuck es = es.all isStuck := by
  induction es with
  | nil => rfl
  | cons e rest ih => rw [allStuck, ih, List.all_cons]

theorem anyStuck_eq (es : List Context) : anyStuck es = es.any isStuck := by
  induction es with
  | nil => rfl
  | cons e rest ih => rw [anyStuck, ih, List.any_cons]

theorem allUnreachable_eq (es : List Context) : allUnreachable es = es.all isUnreachable := by
  induction es with
  | nil => rfl
  | cons e rest ih => rw [allUnreachable, ih, List.all_cons]

theorem anyUnreachable_eq (es : List Context) : anyUnreachable es = es.any isUnreachable := by
  induction es with
  | nil => rfl
  | cons e rest ih => rw [anyUnreachable, ih, List.any_cons]

mutual

theorem not_stuck_and_unreachable : ∀ c : Context, (c.isStuck && c.isUnreachable) = false
  | .stuck _ | .packFailed _ _ | .unreachable _ | .tensor _ _ => rfl
  | .choice es => by
      have elements := not_stuck_and_unreachable_of_mem es
      rw [isStuck, isUnreachable, allStuck_eq, anyUnreachable_eq, Bool.eq_false_iff]
      intro both
      simp only [Bool.and_eq_true, List.all_eq_true, List.any_eq_true] at both
      obtain ⟨stuck, e, member, unreachable⟩ := both
      simpa [stuck e member, unreachable] using elements e member
  | .all es => by
      have elements := not_stuck_and_unreachable_of_mem es
      rw [isStuck, isUnreachable, anyStuck_eq, allUnreachable_eq, Bool.eq_false_iff]
      intro both
      simp only [Bool.and_eq_true, List.all_eq_true, List.any_eq_true] at both
      obtain ⟨⟨e, member, stuck⟩, unreachable⟩ := both
      simpa [unreachable e member, stuck] using elements e member

theorem not_stuck_and_unreachable_of_mem :
    ∀ es : List Context, ∀ e ∈ es, (e.isStuck && e.isUnreachable) = false
  | [], _, member => by simp at member
  | first :: rest, e, member => by
      rcases List.mem_cons.mp member with same | later
      · rw [same]
        exact not_stuck_and_unreachable first
      · exact not_stuck_and_unreachable_of_mem rest e later

end

mutual

theorem beq_agrees : ∀ a b : Context, a.beq b = true →
    a.isStuck = b.isStuck ∧ a.isUnreachable = b.isUnreachable
  | .choice xs, .choice ys, same => by
      have elements := beqList_agrees xs ys same
      simp only [isStuck, isUnreachable]
      exact ⟨elements.1, elements.2.2.2⟩
  | .all xs, .all ys, same => by
      have elements := beqList_agrees xs ys same
      simp only [isStuck, isUnreachable]
      exact ⟨elements.2.1, elements.2.2.1⟩
  | .stuck _, .stuck _, _ => ⟨rfl, rfl⟩
  | .packFailed _ _, .packFailed _ _, _ => ⟨rfl, rfl⟩
  | .unreachable _, .unreachable _, _ => ⟨rfl, rfl⟩
  | .tensor _ _, .tensor _ _, _ => ⟨rfl, rfl⟩

theorem beqList_agrees : ∀ xs ys : List Context, beqList xs ys = true →
    allStuck xs = allStuck ys ∧ anyStuck xs = anyStuck ys ∧
      allUnreachable xs = allUnreachable ys ∧ anyUnreachable xs = anyUnreachable ys
  | [], [], _ => ⟨rfl, rfl, rfl, rfl⟩
  | x :: xs, y :: ys, same => by
      rw [beqList, Bool.and_eq_true] at same
      obtain ⟨stuck, unreachable⟩ := beq_agrees x y same.1
      obtain ⟨allS, anyS, allU, anyU⟩ := beqList_agrees xs ys same.2
      simp only [allStuck, anyStuck, allUnreachable, anyUnreachable, stuck, unreachable, allS,
        anyS, allU, anyU, and_self]

end

end Context

namespace Junction

theorem absorbs_node (j : Junction) (es : List Context) :
    j.absorbs (j.node es) = es.any j.absorbs := by
  cases j with
  | choice => exact Context.anyUnreachable_eq es
  | all => exact Context.anyStuck_eq es

theorem ignores_node (j : Junction) (es : List Context) :
    j.ignores (j.node es) = es.all j.ignores := by
  cases j with
  | choice => exact Context.allStuck_eq es
  | all => exact Context.allUnreachable_eq es

theorem not_absorbs_and_ignores (j : Junction) (c : Context) :
    (j.absorbs c && j.ignores c) = false := by
  have apart := Context.not_stuck_and_unreachable c
  cases j with
  | choice => rwa [Bool.and_comm] at apart
  | all => exact apart

theorem beq_agrees (j : Junction) {a b : Context} (same : (a == b) = true) :
    j.absorbs a = j.absorbs b ∧ j.ignores a = j.ignores b := by
  obtain ⟨stuck, unreachable⟩ := Context.beq_agrees a b same
  cases j with
  | choice => exact ⟨unreachable, stuck⟩
  | all => exact ⟨stuck, unreachable⟩

theorem absorbs_elements (j : Junction) (c : Context) :
    (j.elements c).any j.absorbs = j.absorbs c := by
  cases j <;> cases c <;>
    simp [elements, absorbs, Context.isUnreachable, Context.isStuck, Context.anyUnreachable_eq,
      Context.anyStuck_eq]

theorem ignores_elements (j : Junction) (c : Context) :
    (j.elements c).all j.ignores = j.ignores c := by
  cases j <;> cases c <;>
    simp [elements, ignores, Context.isUnreachable, Context.isStuck, Context.allUnreachable_eq,
      Context.allStuck_eq]

theorem keepNew_agrees (j : Junction) (candidates survivors : List Context) :
    (candidates.foldl keepNew survivors).any j.absorbs =
        (survivors.any j.absorbs || candidates.any j.absorbs) ∧
      (candidates.foldl keepNew survivors).all j.ignores =
        (survivors.all j.ignores && candidates.all j.ignores) := by
  induction candidates generalizing survivors with
  | nil => simp
  | cons c rest ih =>
      obtain ⟨some, every⟩ := ih (keepNew survivors c)
      rw [List.foldl_cons, some, every]
      unfold keepNew
      split
      · next present =>
          -- The element is left out for an equal one, which decides the same.
          obtain ⟨s, member, same⟩ := List.contains_iff_exists_mem_beq.mp present
          obtain ⟨absorbs, ignores⟩ := j.beq_agrees same
          constructor
          · rw [List.any_cons, absorbs]
            cases deciding : j.absorbs s with
            | false => simp
            | true => simp [List.any_eq_true.mpr ⟨s, member, deciding⟩]
          · rw [List.all_cons, ignores]
            cases needless : j.ignores s with
            | true => simp
            | false =>
                have some : survivors.all j.ignores = false := by
                  rw [List.all_eq_false]
                  exact ⟨s, member, by simp [needless]⟩
                simp [some]
      · simp [Bool.or_assoc, Bool.and_assoc]

theorem close_agrees (j : Junction) {dropped : Option Context}
    (ignored : ∀ c, dropped = some c → j.ignores c = true) (survivors : List Context) :
    j.absorbs (j.close dropped survivors) = survivors.any j.absorbs ∧
      j.ignores (j.close dropped survivors) = survivors.all j.ignores := by
  match survivors with
  | [] =>
      cases dropped with
      | none => exact ⟨j.absorbs_node [], j.ignores_node []⟩
      | some c =>
          have ignores := ignored c rfl
          have apart := j.not_absorbs_and_ignores c
          simp_all [close]
  | [c] => simp [close]
  | c :: d :: rest => exact ⟨j.absorbs_node _, j.ignores_node _⟩

theorem compact_agrees (j : Junction) (es : List Context) :
    j.absorbs (j.compact false es) = es.any j.absorbs ∧
      j.ignores (j.compact false es) = es.all j.ignores := by
  unfold compact
  cases found : es.find? j.absorbs with
  | some e =>
      have member := List.mem_of_find?_eq_some found
      have absorbs := List.find?_some found
      have apart := j.not_absorbs_and_ignores e
      have some : es.any j.absorbs = true := List.any_eq_true.mpr ⟨e, member, absorbs⟩
      have notAll : es.all j.ignores = false := by
        rw [List.all_eq_false]
        exact ⟨e, member, by simp_all⟩
      simp_all
  | none =>
      -- None absorbs, so what is left are the elements that are not ignored, taken apart.
      have absorbs : ∀ e ∈ es, j.absorbs e = false := by
        simpa using List.find?_eq_none.mp found
      have ignored (c : Context) (first : es.find? j.ignores = some c) : j.ignores c = true :=
        List.find?_some first
      obtain ⟨closes, closesAll⟩ := j.close_agrees ignored
        (((es.filter fun e => !j.ignores e).flatMap j.elements).foldl keepNew [])
      obtain ⟨some, every⟩ := j.keepNew_agrees
        ((es.filter fun e => !j.ignores e).flatMap j.elements) []
      simp only [Bool.false_eq_true, if_false]
      rw [closes, closesAll, some, every]
      simp only [List.any_nil, Bool.false_or, List.all_nil, Bool.true_and, List.any_flatMap,
        List.all_flatMap, absorbs_elements, ignores_elements]
      constructor
      · have none : es.any j.absorbs = false := List.any_eq_false.mpr (by simpa using absorbs)
        rw [none, List.any_eq_false]
        intro e member
        simp [absorbs e (List.mem_filter.mp member).1]
      · rw [Bool.eq_iff_iff]
        simp only [List.all_eq_true, List.mem_filter, Bool.not_eq_true']
        constructor
        · intro every e member
          by_cases ignores : j.ignores e = true
          · exact ignores
          · exact every e ⟨member, by simpa using ignores⟩
        · exact fun every e member => every e member.1

/-- What the elements make of a node: in a choice one of them is enough, an obligation needs all. -/
def weigh : Junction → List Bool → Bool
  | .choice, flags => flags.any id
  | .all, flags => flags.all id

theorem weigh_map (j : Junction) (m : Context → Bool) (es : List Context) :
    j.weigh (es.map m) = match j with
      | .choice => es.any m
      | .all => es.all m := by
  cases j <;> simp [weigh, List.any_map, List.all_map]

end Junction

namespace Context

mutual

theorem compact_agrees : ∀ c : Context,
    (c.compact false).isStuck = c.isStuck ∧ (c.compact false).isUnreachable = c.isUnreachable
  | .stuck _ | .packFailed _ _ | .unreachable _ | .tensor _ _ => ⟨rfl, rfl⟩
  | .choice es => by
      obtain ⟨absorbs, ignores⟩ := Junction.choice.compact_agrees (compactList false es)
      obtain ⟨allS, -, -, anyU⟩ := compactList_agrees es
      rw [compact, isStuck, isUnreachable, allStuck_eq, anyUnreachable_eq, ← allS, ← anyU]
      exact ⟨ignores, absorbs⟩
  | .all es => by
      obtain ⟨absorbs, ignores⟩ := Junction.all.compact_agrees (compactList false es)
      obtain ⟨-, anyS, allU, -⟩ := compactList_agrees es
      rw [compact, isStuck, isUnreachable, anyStuck_eq, allUnreachable_eq, ← anyS, ← allU]
      exact ⟨absorbs, ignores⟩

theorem compactList_agrees : ∀ es : List Context,
    (compactList false es).all isStuck = es.all isStuck ∧
      (compactList false es).any isStuck = es.any isStuck ∧
      (compactList false es).all isUnreachable = es.all isUnreachable ∧
      (compactList false es).any isUnreachable = es.any isUnreachable
  | [] => ⟨rfl, rfl, rfl, rfl⟩
  | e :: es => by
      obtain ⟨stuck, unreachable⟩ := compact_agrees e
      obtain ⟨allS, anyS, allU, anyU⟩ := compactList_agrees es
      simp only [compactList, List.all_cons, List.any_cons, stuck, unreachable, allS, anyS, allU,
        anyU, and_self]

end

section Weighing

/-- A test of contexts that is decided for a node by its elements. -/
def Weighs (m : Context → Bool) : Prop :=
  ∀ (j : Junction) (es : List Context), m (j.node es) = j.weigh (es.map m)

theorem weighs_isUnreachable : Weighs isUnreachable := by
  intro j es
  rw [Junction.weigh_map]
  cases j with
  | choice => exact anyUnreachable_eq es
  | all => exact allUnreachable_eq es

theorem weighs_not_isStuck : Weighs fun c => !c.isStuck := by
  intro j es
  rw [Junction.weigh_map]
  cases j with
  | choice => simp [Junction.node, isStuck, allStuck_eq, List.not_all_eq_any_not]
  | all => simp [Junction.node, isStuck, anyStuck_eq, List.not_any_eq_all_not]

theorem Weighs.node_congr {m n : Context → Bool} (first : Weighs m) (second : Weighs n)
    (j : Junction) {es ds : List Context} (paired : List.Forall₂ (fun e d => n d = m e) es ds) :
    n (j.node ds) = m (j.node es) := by
  rw [first, second, map_eq_of_forall₂ m n paired]

theorem isStuck_node_congr (j : Junction) {es ds : List Context}
    (paired : List.Forall₂ (fun e d => d.isStuck = e.isStuck) es ds) :
    (j.node ds).isStuck = (j.node es).isStuck := by
  have opposite := weighs_not_isStuck.node_congr weighs_not_isStuck j
    (paired.imp fun e d same => by rw [same])
  simpa using opposite

end Weighing

end Context

end Typestate
