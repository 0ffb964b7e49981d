import Typestate.Proofs.Fraction.Monotonicity

set_option autoImplicit false

/-!
Classes only ever grow: whatever is done to a solution, all of a class is in one class afterwards,
and what was marked stays marked, also when a conflict ends solving early. So whatever stands beside
one in a sum is found to be zero, whether the constraints can be met or not.
-/

namespace Typestate

/-- The members and the mark of one class are found in another. -/
def TermClass.Within (c d : TermClass) : Prop :=
  (∀ t ∈ c.members, t ∈ d.members) ∧ (c.nonZero = true → d.nonZero = true)

namespace TermClass

theorem Within.refl (c : TermClass) : c.Within c := ⟨fun _ => id, id⟩

theorem Within.trans {c d e : TermClass} (first : c.Within d) (second : d.Within e) : c.Within e :=
  ⟨fun t member => second.1 t (first.1 t member), fun marked => second.2 (first.2 marked)⟩

theorem within_absorb (c other : TermClass) : c.Within (c.absorb other) := by
  refine ⟨fun t member => List.mem_append_left _ member, fun marked => ?_⟩
  simp [absorb, marked]

theorem absorbed_within (c other : TermClass) : other.Within (c.absorb other) := by
  refine ⟨fun t member => List.mem_append_right _ member, fun marked => ?_⟩
  simp [absorb, marked]

end TermClass

namespace Solution

/-- The second solution is in order and has kept all classes of the first, though maybe as parts of
larger ones. -/
structure GrowsInto (s next : Solution) : Prop extends Orderly next where
  kept : ∀ c ∈ s.classes, ∃ d ∈ next.classes, c.Within d

/-- A solution in order that has two terms in one class. -/
structure Together (a b : Term) (s : Solution) : Prop extends Orderly s where
  shared : ∃ c ∈ s.classes, a ∈ c.members ∧ b ∈ c.members

section Steps

variable {s next last : Solution} {a b x y : Term}

theorem GrowsInto.refl (orderly : s.Orderly) : s.GrowsInto s :=
  ⟨orderly, fun c member => ⟨c, member, .refl c⟩⟩

theorem GrowsInto.trans (first : s.GrowsInto next) (second : next.GrowsInto last) :
    s.GrowsInto last := by
  refine ⟨second.toOrderly, fun c member => ?_⟩
  obtain ⟨d, between, inner⟩ := first.kept c member
  obtain ⟨e, final, outer⟩ := second.kept d between
  exact ⟨e, final, inner.trans outer⟩

theorem Orderly.track (orderly : s.Orderly) (t : Term) : (s.track t).Orderly :=
  ⟨orderly.toDivided.track t, (knows_track s t).1 _ orderly.zero, (knows_track s t).1 _ orderly.one⟩

theorem mem_track {c : TermClass} (member : c ∈ s.classes) (t : Term) :
    c ∈ (s.track t).classes := by
  have single (s : Solution) (member : c ∈ s.classes) (f : Fraction) :
      c ∈ (s.trackFraction f).classes := by
    unfold trackFraction
    split
    · exact member
    · exact List.mem_append_left _ member
  cases t with
  | single f => exact single s member f
  | sum fs =>
      have kept : c ∈ (fs.foldl trackFraction s).classes :=
        List.foldlRecOn fs trackFraction (motive := fun s => c ∈ s.classes) member
          fun s member f _ => single s member f
      simp only [Solution.track]
      split
      · exact member
      · exact List.mem_append_left _ kept

theorem Orderly.growsInto_track (orderly : s.Orderly) (t : Term) : s.GrowsInto (s.track t) :=
  ⟨orderly.track t, fun c member => ⟨c, mem_track member t, .refl c⟩⟩

theorem merge_track (s : Solution) (a b : Term) :
    s.merge a b = ((s.track a).track b).merge a b := by
  have left : ((s.track a).track b).knows a = true :=
    (knows_track _ b).1 a (knows_track s a).2
  have right : ((s.track a).track b).knows b = true := (knows_track _ b).2
  rw [merge, merge, track_of_knows left, track_of_knows right]

theorem Orderly.exists_united (orderly : s.Orderly) (first : s.knows a = true) {moved : TermClass}
    (found : s.class? b = some moved) (apart : moved.has a = false) :
    ∃ c ∈ (s.united a b moved).classes, a ∈ c.members ∧ moved.Within c := by
  obtain ⟨c, member, inside⟩ := knows_iff.mp ((orderly.knows_united found apart first).mpr first)
  obtain ⟨d, -, rfl⟩ := List.mem_map.mp member
  have own : a ∈ d.members := (mem_unite.mp inside).elim id And.left
  refine ⟨_, member, inside, ?_⟩
  rw [unite, if_pos (by simpa [TermClass.has] using own)]
  exact TermClass.absorbed_within d moved

theorem within_unite (a : Term) (moved c : TermClass) : c.Within (unite a moved c) := by
  unfold unite
  split
  · exact TermClass.within_absorb c moved
  · exact .refl c

theorem Orderly.growsInto_united (orderly : s.Orderly) (first : s.knows a = true)
    {moved : TermClass} (found : s.class? b = some moved) (apart : moved.has a = false) :
    s.GrowsInto (s.united a b moved) := by
  obtain ⟨present, here⟩ := class?_mem found
  refine ⟨orderly.united found apart first, fun c inside => ?_⟩
  by_cases moves : c.has b = true
  · -- The class is the one that is put into another.
    have same := orderly.eq_of_mem inside present (by simpa [TermClass.has] using moves) here
    obtain ⟨d, member, -, within⟩ := orderly.exists_united first found apart
    exact ⟨d, member, same ▸ within⟩
  · have stays : c ∈ s.classes.filter fun c => !c.has b :=
      List.mem_filter.mpr ⟨inside, by simpa using moves⟩
    exact ⟨unite a moved c, List.mem_map_of_mem stays, within_unite a moved c⟩

theorem Orderly.growsInto_merge (orderly : s.Orderly) (a b : Term) :
    s.GrowsInto (s.merge a b) := by
  have tracked := (orderly.growsInto_track a).trans ((orderly.track a).growsInto_track b)
  have first : ((s.track a).track b).knows a = true := (knows_track _ b).1 a (knows_track s a).2
  obtain ⟨moved, found⟩ := exists_class? (knows_track (s.track a) b).2
  rw [merge_track, merge_eq first found]
  split
  · exact tracked
  · next apart =>
      exact tracked.trans (tracked.toOrderly.growsInto_united first found (by simpa using apart))

theorem Orderly.growsInto_makeNonZero (orderly : s.Orderly) (t : Term) :
    s.GrowsInto (s.makeNonZero t) := by
  refine (orderly.growsInto_track t).trans ⟨(orderly.track t).map_mark t, fun c member => ?_⟩
  refine ⟨mark t c, List.mem_map_of_mem member, ?_, ?_⟩
  · rw [mark_members]
    exact fun _ => id
  · unfold mark
    split
    · exact fun _ => rfl
    · exact id

theorem growsInto_invariant (s : Solution) : Invariant s.GrowsInto where
  track _ t grows := grows.trans (grows.growsInto_track t)
  merge _ a b grows := grows.trans (grows.growsInto_merge a b)
  mark _ t grows := grows.trans (grows.growsInto_makeNonZero t)
  refute _ _ grows :=
    ⟨⟨⟨grows.apart, grows.labelled, grows.sums, grows.summands⟩, grows.zero, grows.one⟩, grows.kept⟩

theorem Together.symm (together : Together x y s) : Together y x s := by
  obtain ⟨c, member, left, right⟩ := together.shared
  exact ⟨together.toOrderly, c, member, right, left⟩

theorem Together.trans {z : Term} (first : Together x y s) (second : Together y z s) :
    Together x z s := by
  obtain ⟨c, member, left, middle⟩ := first.shared
  obtain ⟨d, other, same, right⟩ := second.shared
  rw [first.eq_of_mem other member same middle] at right
  exact ⟨first.toOrderly, c, member, left, right⟩

theorem Together.class?_eq (together : Together x y s) : s.class? x = s.class? y := by
  obtain ⟨c, member, left, right⟩ := together.shared
  rw [together.class?_of_mem member left, together.class?_of_mem member right]

theorem Orderly.together_of_class? (orderly : s.Orderly) (known : s.knows y = true)
    (same : s.class? x = s.class? y) : Together x y s := by
  obtain ⟨c, found⟩ := exists_class? known
  exact ⟨orderly, c, (class?_mem found).1, (class?_mem (same.trans found)).2,
    (class?_mem found).2⟩

theorem Together.mono (together : Together x y s) (grows : s.GrowsInto next) :
    Together x y next := by
  obtain ⟨c, member, left, right⟩ := together.shared
  obtain ⟨d, later, within⟩ := grows.kept c member
  exact ⟨grows.toOrderly, d, later, within.1 x left, within.1 y right⟩

theorem Orderly.merge_together (orderly : s.Orderly) (a b : Term) : Together a b (s.merge a b) := by
  refine ⟨(orderly.growsInto_merge a b).toOrderly, ?_⟩
  have tracked := (orderly.track a).track b
  have first : ((s.track a).track b).knows a = true := (knows_track _ b).1 a (knows_track s a).2
  obtain ⟨moved, found⟩ := exists_class? (knows_track (s.track a) b).2
  obtain ⟨present, here⟩ := class?_mem found
  rw [merge_track, merge_eq first found]
  split
  · next same => exact ⟨moved, present, by simpa [TermClass.has] using same, here⟩
  · next apart =>
      obtain ⟨c, member, target, within⟩ := tracked.exists_united first found (by simpa using apart)
      exact ⟨c, member, target, within.1 b here⟩

end Steps

theorem together_invariant (x y : Term) : Invariant (Together x y) where
  track _ t together := together.mono (together.growsInto_track t)
  merge _ a b together := together.mono (together.growsInto_merge a b)
  mark _ t together := together.mono (together.growsInto_makeNonZero t)
  refute s c together :=
    together.mono ((growsInto_invariant s).refute s c (.refl together.toOrderly))

section Sums

variable {s : Solution}

theorem Orderly.makeZeros_together (orderly : s.Orderly) {ts : List Term}
    (known : ∀ t ∈ ts, s.knows t = true) {t : Term} (member : t ∈ ts) :
    Together (.single .zero) t (ts.foldl Solution.makeZero s) := by
  induction ts generalizing s with
  | nil => cases member
  | cons u rest ih =>
      have here : s.knows u = true := known u List.mem_cons_self
      obtain ⟨advance, -⟩ := orderly.makeZero here
      rcases List.mem_cons.mp member with rfl | later
      · exact (together_invariant _ _).makeZeros (orderly.merge_together _ _) rest
      · exact ih advance.orderly
          (fun v among => advance.known v (known v (List.mem_cons_of_mem _ among))) later

theorem Orderly.applySum_beside_one (orderly : s.Orderly) {fs before after : List Fraction}
    (member : fs ∈ s.sums) (parts : fs = before ++ .one :: after) {g : Fraction}
    (beside : g ∈ before ++ after) : Together (.single .zero) g (s.applySum fs) := by
  have sum : s.knows (.sum fs) = true := orderly.summands fs member _ List.mem_cons_self
  have single {f : Fraction} (inside : f ∈ fs) : s.knows f = true :=
    orderly.summands fs member _ (List.mem_cons_of_mem _ (List.mem_map_of_mem inside))
  have rest {before after : List Fraction} {f g : Fraction} (parts : fs = before ++ f :: after)
      (among : g ∈ before ++ after) : g ∈ fs :=
    parts ▸ List.perm_middle.mem_iff.mpr (List.mem_cons_of_mem f among)
  have all : s.isOne (.single .one) = true := (orderly.isOne_iff orderly.one).mpr rfl
  have large : ¬∀ f ∈ fs, s.isOne f = false := by
    intro small
    rw [small .one (by simp [parts])] at all
    cases all
  have step := applySum_step s fs
  generalize s.applySum fs = next at step
  cases step with
  | zero _ =>
      refine orderly.makeZeros_together (fun t among => ?_)
        (List.mem_map_of_mem (rest parts beside))
      obtain ⟨f, inside, rfl⟩ := List.mem_map.mp among
      exact single inside
  | one before' f after' found holds =>
      have first := (orderly.makeOne sum).1
      have known (t : Term) (among : t ∈ (before' ++ after').map Term.single) :
          (s.makeOne (.sum fs)).knows t = true := by
        obtain ⟨f, inside, rfl⟩ := List.mem_map.mp among
        exact first.known _ (single (rest found inside))
      have zeroed {h : Fraction} (among : h ∈ before' ++ after') :=
        first.orderly.makeZeros_together known (List.mem_map_of_mem among)
      -- Either the summand that was found is the one, or it is in one class with it.
      rcases Reading.eq_or_mem_of_append parts found with ⟨rfl, -, rfl⟩ | ⟨-, oneAmong⟩
      · exact zeroed beside
      · obtain ⟨left, right, shape⟩ := List.append_of_mem (rest parts beside)
        rcases Reading.eq_or_mem_of_append shape found with ⟨-, rfl, -⟩ | ⟨-, among⟩
        · have inside : g ∈ fs := rest parts beside
          have same : Together (.single .one) g s :=
            orderly.together_of_class? (single inside)
              ((orderly.isOne_iff (single inside)).mp holds).symm
          have kept := (together_invariant _ _).makeZeros
            ((together_invariant _ _).merge s (.single .one) (.sum fs) same)
            ((before' ++ after').map Term.single)
          exact (zeroed oneAmong).trans kept
        · exact zeroed among
  | spent small _ => exact absurd small large
  | alone small _ _ _ _ _ => exact absurd small large
  | several small _ _ => exact absurd small large

theorem Orderly.round_beside_one (orderly : s.Orderly) {constraints : List Constraint}
    (known : ∀ c ∈ constraints, ∀ t ∈ c.terms, s.knows t = true) {fs before after : List Fraction}
    (member : fs ∈ s.sums) (parts : fs = before ++ .one :: after) {g : Fraction}
    (beside : g ∈ before ++ after) : Together (.single .zero) g (s.round constraints) := by
  have first := (Advance.foldl Solution.apply Constraint.terms
    (fun _ _ orderly known => (orderly.apply known).1) constraints s orderly known).1
  unfold Solution.round
  -- The sum is looked at when some others have been, and after it come the rest of them.
  obtain ⟨earlier, later, shape⟩ := List.append_of_mem (first.sums ▸ member)
  have second := (Advance.foldl Solution.applySum (fun fs => Term.sum fs :: fs.map Term.single)
    (fun _ _ orderly known => (orderly.applySum known).1) earlier _ first.orderly
    fun gs among => first.orderly.summands gs (by rw [shape]; exact List.mem_append_left _ among)).1
  have reached := second.orderly.applySum_beside_one (second.sums ▸ first.sums ▸ member) parts
    beside
  simp only [shape, List.foldl_append, List.foldl_cons]
  exact List.foldlRecOn later _ reached fun _ together gs _ =>
    (together_invariant _ _).applySum together gs

theorem Orderly.saturate_beside_one (orderly : s.Orderly) {constraints : List Constraint}
    (known : ∀ c ∈ constraints, ∀ t ∈ c.terms, s.knows t = true) {fs before after : List Fraction}
    (member : fs ∈ s.sums) (parts : fs = before ++ .one :: after) {g : Fraction}
    (beside : g ∈ before ++ after) : Together (.single .zero) g (s.saturate constraints) := by
  fun_induction Solution.saturate constraints s with
  | case1 s next conflict => exact orderly.round_beside_one known member parts beside
  | case2 s next conflict less ih =>
      obtain ⟨advance, -⟩ := orderly.round known
      exact ih advance.orderly (fun c member t among => advance.known t (known c member t among))
        (advance.sums ▸ member)
  | case3 s next conflict less => exact orderly.round_beside_one known member parts beside

end Sums

theorem solve_orderly (constraints : List Constraint) : (solve constraints).Orderly :=
  ((growsInto_invariant initial).solve (.refl initial_orderly) constraints).toOrderly

/-- Beside one there is room for nothing, and solving finds that out in its first round. -/
theorem solve_isZero_beside_one {constraints : List Constraint} {c : Constraint}
    (member : c ∈ constraints) {fs before after : List Fraction} (among : .sum fs ∈ c.terms)
    (parts : fs = before ++ .one :: after) {g : Fraction} (beside : g ∈ before ++ after) :
    (solve constraints).isZero g = true := by
  obtain ⟨orderly, known⟩ := initial_orderly.tracks (constraints.flatMap Constraint.terms)
  have present (d : Constraint) (inside : d ∈ constraints) (t : Term) (here : t ∈ d.terms) :=
    known t (List.mem_flatMap.mpr ⟨d, inside, here⟩)
  have together := orderly.saturate_beside_one present
    (orderly.sums fs (present c member _ among)) parts beside
  have zeroed : Together (.single .zero) g (solve constraints) := together
  obtain ⟨d, inside, left, right⟩ := zeroed.shared
  exact (zeroed.isZero_iff (knows_of_mem inside right)).mpr zeroed.class?_eq.symm

end Solution

end Typestate
