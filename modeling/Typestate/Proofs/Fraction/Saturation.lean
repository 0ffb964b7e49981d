import Mathlib.Data.List.Basic
import Mathlib.Data.List.Pairwise
import Typestate.Proofs.Fraction.Soundness

set_option autoImplicit false

/-!
Solving ends in a solution that no constraint and no sum can add to. Every step on terms that are
known already either changes nothing, or uses up some of the room that is left, or meets a conflict.
-/

namespace Typestate

def TermClass.Labelled (c : TermClass) : Prop :=
  ∀ f, f ∈ c.literals ↔ f.isLiteral = true ∧ Term.single f ∈ c.members

theorem TermClass.ofTerm_labelled (t : Term) : (ofTerm t).Labelled := by
  intro f
  cases t with
  | single g =>
      by_cases literal : g.isLiteral = true
      · simp only [ofTerm, literal, if_true, List.mem_singleton, Term.single.injEq]
        exact ⟨fun same => ⟨same ▸ literal, same⟩, fun both => both.2⟩
      · simp only [ofTerm, literal, List.mem_singleton, Term.single.injEq]
        constructor
        · rintro ⟨⟩
        · exact fun both => absurd (both.2 ▸ both.1) literal
  | sum fs => simp [ofTerm]

theorem TermClass.Labelled.absorb {c other : TermClass} (first : c.Labelled)
    (second : other.Labelled) : (c.absorb other).Labelled := by
  intro f
  simp only [TermClass.absorb, List.mem_append, List.mem_filter, first f, second f,
    Bool.not_eq_true', List.contains_eq_mem, decide_eq_false_iff_not]
  tauto

namespace Solution

/-- Classes that share no term and know their literals, with the summands of every sum. -/
structure Divided (s : Solution) : Prop where
  apart : s.classes.Pairwise fun c d => ∀ t ∈ c.members, t ∉ d.members
  labelled : ∀ c ∈ s.classes, c.Labelled
  sums : ∀ fs, s.knows (.sum fs) = true → fs ∈ s.sums
  summands : ∀ fs ∈ s.sums, ∀ t ∈ Term.sum fs :: fs.map Term.single, s.knows t = true

structure Orderly (s : Solution) : Prop extends Divided s where
  zero : s.knows (.single .zero) = true
  one : s.knows (.single .one) = true

theorem knows_iff {s : Solution} {t : Term} :
    s.knows t = true ↔ ∃ c ∈ s.classes, t ∈ c.members := by
  simp [knows, class?, TermClass.has]

theorem knows_of_mem {s : Solution} {t : Term} {c : TermClass} (member : c ∈ s.classes)
    (inside : t ∈ c.members) : s.knows t = true :=
  knows_iff.mpr ⟨c, member, inside⟩

section Classes

variable {s : Solution}

theorem Orderly.eq_of_mem (orderly : s.Orderly) {c d : TermClass} (first : c ∈ s.classes)
    (second : d ∈ s.classes) {t : Term} (inside : t ∈ c.members) (also : t ∈ d.members) :
    c = d := by
  -- Pairwise speaks of one order of the two classes, but sharing no term is symmetric.
  by_contra different
  have symmetric : Std.Symm fun c d : TermClass => ∀ t ∈ c.members, t ∉ d.members :=
    ⟨fun _ _ apart t inside outside => apart t outside inside⟩
  exact orderly.apart.forall first second different t inside also

theorem Orderly.class?_of_mem (orderly : s.Orderly) {c : TermClass} (member : c ∈ s.classes)
    {t : Term} (inside : t ∈ c.members) : s.class? t = some c := by
  cases found : s.class? t with
  | none =>
      have known := knows_of_mem member inside
      simp [knows, found] at known
  | some d =>
      obtain ⟨second, also⟩ := class?_mem found
      rw [orderly.eq_of_mem second member also inside]

theorem Orderly.literal_iff (orderly : s.Orderly) {literal : Fraction}
    (kind : literal.isLiteral = true) {t : Term} {c : TermClass} (found : s.class? t = some c) :
    c.literals.contains literal = true ↔ s.class? t = s.class? literal := by
  have labelled := orderly.labelled c (class?_mem found).1 literal
  rw [List.contains_iff_mem, labelled, found]
  constructor
  · exact fun both => (orderly.class?_of_mem (class?_mem found).1 both.2).symm
  · exact fun same => ⟨kind, (class?_mem same.symm).2⟩

theorem Orderly.isZero_iff (orderly : s.Orderly) {t : Term} (known : s.knows t = true) :
    s.isZero t = true ↔ s.class? t = s.class? (.single .zero) := by
  obtain ⟨c, found⟩ := Option.isSome_iff_exists.mp known
  have looked : s.isZero t = c.literals.contains .zero := by simp [isZero, found]
  rw [looked]
  exact orderly.literal_iff rfl found

theorem Orderly.isOne_iff (orderly : s.Orderly) {t : Term} (known : s.knows t = true) :
    s.isOne t = true ↔ s.class? t = s.class? (.single .one) := by
  obtain ⟨c, found⟩ := Option.isSome_iff_exists.mp known
  have looked : s.isOne t = c.literals.contains .one := by simp [isOne, found]
  rw [looked]
  exact orderly.literal_iff rfl found

theorem exists_class? {t : Term} (known : s.knows t = true) : ∃ c, s.class? t = some c :=
  Option.isSome_iff_exists.mp known

theorem isNonZero_iff {t : Term} (known : s.knows t = true) :
    s.isNonZero t = true ↔ ∀ c, s.class? t = some c → c.nonZero = true := by
  obtain ⟨c, found⟩ := exists_class? known
  simp [isNonZero, found]

end Classes

section Tracking

theorem track_of_knows {s : Solution} {t : Term} (known : s.knows t = true) : s.track t = s := by
  cases t with
  | single f => simp [track, trackFraction, known]
  | sum fs => simp [track, known]

theorem knows_add (s : Solution) (t u : Term) (sums : List (List Fraction)) :
    Solution.knows { s with classes := s.classes ++ [.ofTerm t], sums } u = true ↔
      s.knows u = true ∨ u = t := by
  have member : u ∈ (TermClass.ofTerm t).members ↔ u = t := by
    cases t <;> simp [TermClass.ofTerm]
  simp only [knows_iff, List.mem_append, List.mem_singleton, or_and_right, exists_or]
  simp [member]

theorem knows_trackFraction (s : Solution) (f : Fraction) (t : Term) :
    (s.trackFraction f).knows t = true ↔ s.knows t = true ∨ t = .single f := by
  unfold trackFraction
  split
  · next known =>
      constructor
      · exact .inl
      · rintro (before | rfl)
        · exact before
        · exact known
  · exact knows_add s (.single f) t s.sums

theorem knows_trackFractions (s : Solution) (fs : List Fraction) (t : Term) :
    (fs.foldl trackFraction s).knows t = true ↔ s.knows t = true ∨ t ∈ fs.map Term.single := by
  induction fs generalizing s with
  | nil => simp
  | cons f rest ih =>
      rw [List.foldl_cons, ih, knows_trackFraction, List.map_cons, List.mem_cons, or_assoc]

theorem knows_track (s : Solution) (t : Term) :
    (∀ u, s.knows u = true → (s.track t).knows u = true) ∧ (s.track t).knows t = true := by
  cases t with
  | single f =>
      exact ⟨fun u before => (knows_trackFraction s f u).mpr (.inl before),
        (knows_trackFraction s f _).mpr (.inr rfl)⟩
  | sum fs =>
      by_cases known : s.knows (.sum fs) = true
      · rw [track_of_knows known]
        exact ⟨fun _ before => before, known⟩
      · simp only [track, known, Bool.false_eq_true, if_false]
        refine ⟨fun u before => (knows_add _ _ _ _).mpr (.inl ?_),
          (knows_add _ _ _ _).mpr (.inr rfl)⟩
        exact (knows_trackFractions s fs u).mpr (.inl before)

theorem Divided.add {s : Solution} (divided : s.Divided) {t : Term} (unknown : s.knows t ≠ true)
    {sums : List (List Fraction)} (old : ∀ fs ∈ s.sums, fs ∈ sums)
    (new : ∀ fs, t = .sum fs → fs ∈ sums)
    (only : ∀ fs ∈ sums, fs ∈ s.sums ∨
      t = .sum fs ∧ ∀ u ∈ fs.map Term.single, s.knows u = true) :
    Divided { s with classes := s.classes ++ [.ofTerm t], sums } := by
  have only_member : ∀ u ∈ (TermClass.ofTerm t).members, u = t := by
    intro u inside
    cases t <;> simpa [TermClass.ofTerm] using inside
  -- The new class is apart from the others since its term was in none of them.
  refine ⟨?_, ?_, ?_, ?_⟩
  · rw [List.pairwise_append]
    refine ⟨divided.apart, by simp, fun c first d last u inside also => unknown ?_⟩
    rw [List.mem_singleton.mp last] at also
    exact only_member u also ▸ knows_of_mem first inside
  · intro c inside
    rcases List.mem_append.mp inside with first | last
    · exact divided.labelled c first
    · rw [List.mem_singleton.mp last]
      exact TermClass.ofTerm_labelled t
  · intro fs known
    rcases (knows_add s t _ sums).mp known with before | same
    · exact old fs (divided.sums fs before)
    · exact new fs same.symm
  · intro fs inside u among
    rw [knows_add]
    rcases only fs inside with before | ⟨same, known⟩
    · exact .inl (divided.summands fs before u among)
    · rcases List.mem_cons.mp among with rfl | summand
      · exact .inr same.symm
      · exact .inl (known u summand)

theorem Divided.trackFraction {s : Solution} (divided : s.Divided) (f : Fraction) :
    (s.trackFraction f).Divided := by
  unfold Solution.trackFraction
  split
  · exact divided
  · next unknown => exact divided.add unknown (fun _ before => before) nofun fun _ => .inl

theorem Divided.track {s : Solution} (divided : s.Divided) (t : Term) : (s.track t).Divided := by
  have tracked (fs : List Fraction) (s : Solution) (divided : s.Divided) :
      (fs.foldl Solution.trackFraction s).Divided := by
    induction fs generalizing s with
    | nil => exact divided
    | cons f rest ih => exact ih _ (divided.trackFraction f)
  cases t with
  | single f => exact divided.trackFraction f
  | sum fs =>
      by_cases known : s.knows (.sum fs) = true
      · rw [track_of_knows known]
        exact divided
      · simp only [Solution.track, known, Bool.false_eq_true, if_false]
        -- Tracking the summands first makes no sum known.
        have unknown : (fs.foldl Solution.trackFraction s).knows (.sum fs) ≠ true := by
          simpa [knows_trackFractions] using known
        refine (tracked fs s divided).add unknown (fun gs before => List.mem_append_left _ before)
          ?_ ?_
        · rintro gs ⟨⟩
          simp
        · intro gs inside
          rcases List.mem_append.mp inside with before | last
          · exact .inl before
          · refine .inr ⟨by rw [List.mem_singleton.mp last], fun u among => ?_⟩
            rw [List.mem_singleton.mp last] at among
            exact (knows_trackFractions s fs u).mpr (.inr among)

theorem initial_orderly : initial.Orderly := by
  have empty : (Solution.mk [] [] none).Divided :=
    ⟨List.Pairwise.nil, nofun, by simp [knows_iff], nofun⟩
  refine ⟨(empty.trackFraction .zero).trackFraction .one, ?_, ?_⟩
  · exact (knows_trackFraction _ _ _).mpr (.inl ((knows_trackFraction _ _ _).mpr (.inr rfl)))
  · exact (knows_trackFraction _ _ _).mpr (.inr rfl)

theorem Orderly.tracks {s : Solution} (orderly : s.Orderly) (ts : List Term) :
    (ts.foldl track s).Orderly ∧ ∀ t ∈ ts, (ts.foldl track s).knows t = true := by
  have kept (ts : List Term) (s : Solution) {u : Term} (known : s.knows u = true) :
      (ts.foldl track s).knows u = true := by
    induction ts generalizing s with
    | nil => exact known
    | cons t rest ih => exact ih _ ((knows_track s t).1 u known)
  induction ts generalizing s with
  | nil => exact ⟨orderly, nofun⟩
  | cons t rest ih =>
      have tracked := knows_track s t
      have next : (s.track t).Orderly :=
        ⟨orderly.toDivided.track t, tracked.1 _ orderly.zero, tracked.1 _ orderly.one⟩
      obtain ⟨final, others⟩ := ih next
      refine ⟨final, fun u member => ?_⟩
      rcases List.mem_cons.mp member with rfl | later
      · exact kept rest _ tracked.2
      · exact others u later

end Tracking

/-- A step that keeps what is known. If it meets no conflict, it changes nothing or uses up room. -/
structure Advance (s next : Solution) : Prop where
  orderly : next.Orderly
  known : ∀ t, s.knows t = true → next.knows t = true
  sums : next.sums = s.sums
  conflict : next.conflict = none → s.conflict = none
  room : next.room ≤ s.room
  settled : next.room = s.room → next.conflict = none → next = s

namespace Advance

variable {s next last : Solution}

theorem refl (orderly : s.Orderly) : Advance s s :=
  ⟨orderly, fun _ known => known, rfl, id, Nat.le_refl _, fun _ _ => rfl⟩

theorem trans (first : Advance s next) (second : Advance next last) : Advance s last := by
  refine ⟨second.orderly, fun t known => second.known t (first.known t known),
    second.sums.trans first.sums, fun clean => first.conflict (second.conflict clean),
    second.room.trans first.room, fun same clean => ?_⟩
  -- No room was used on the whole, so none was used by either step.
  have upper := first.room
  have lower := second.room
  have unchanged := second.settled (by omega) clean
  rw [unchanged] at same ⊢
  exact first.settled same (second.conflict clean)

theorem middle (first : Advance s next) (second : Advance next last) (same : last = s)
    (clean : s.conflict = none) : next = s := by
  rw [same] at second
  exact first.settled (Nat.le_antisymm first.room second.room) (second.conflict clean)

/-- Steps for the elements of a list, each on terms that are known. If nothing changes on the whole,
none of them changes anything. -/
theorem foldl {α : Type} (step : Solution → α → Solution) (needs : α → List Term)
    (advances : ∀ s a, s.Orderly → (∀ t ∈ needs a, s.knows t = true) → Advance s (step s a))
    (xs : List α) (s : Solution) (orderly : s.Orderly)
    (known : ∀ a ∈ xs, ∀ t ∈ needs a, s.knows t = true) :
    Advance s (xs.foldl step s) ∧
      (xs.foldl step s = s → s.conflict = none → ∀ a ∈ xs, step s a = s) := by
  induction xs generalizing s with
  | nil => exact ⟨.refl orderly, fun _ _ => nofun⟩
  | cons a rest ih =>
      have first := advances s a orderly (known a List.mem_cons_self)
      obtain ⟨second, fixed⟩ := ih (step s a) first.orderly fun b later t needed =>
        first.known t (known b (List.mem_cons_of_mem _ later) t needed)
      refine ⟨first.trans second, fun same clean => ?_⟩
      rw [List.foldl_cons] at same
      have unchanged := first.middle second same clean
      rw [unchanged] at same fixed
      intro b member
      rcases List.mem_cons.mp member with rfl | later
      · exact unchanged
      · exact fixed same clean b later

end Advance

section Merging

variable {s : Solution} {a b : Term} {moved : TermClass}

def unite (a : Term) (moved c : TermClass) : TermClass := if c.has a then c.absorb moved else c

theorem mem_unite {t : Term} {c : TermClass} :
    t ∈ (unite a moved c).members ↔ t ∈ c.members ∨ a ∈ c.members ∧ t ∈ moved.members := by
  unfold unite
  by_cases here : c.has a = true
  · have inside : a ∈ c.members := by simpa [TermClass.has] using here
    simp [here, TermClass.absorb, inside]
  · have outside : a ∉ c.members := by simpa [TermClass.has] using here
    simp [here, outside]

/-- The solution with the class of the second term put into the class of the first. -/
def united (s : Solution) (a b : Term) (moved : TermClass) : Solution :=
  { s with classes := (s.classes.filter fun c => !c.has b).map (unite a moved) }

theorem merge_eq (first : s.knows a = true) (found : s.class? b = some moved) :
    s.merge a b = if moved.has a then s else s.united a b moved := by
  have second : s.knows b = true := by simp [knows, found]
  simp only [merge, track_of_knows first, track_of_knows second, found]
  rfl

theorem united_room (found : s.class? b = some moved) : (s.united a b moved).room < s.room := by
  obtain ⟨member, inside⟩ := class?_mem found
  -- One class less, and no class loses its mark.
  have fewer : (s.classes.filter fun c => !c.has b).length < s.classes.length := by
    rw [List.length_filter_lt_length_iff_exists]
    exact ⟨moved, member, by simpa [TermClass.has] using inside⟩
  have unmarked : ((s.united a b moved).classes.filter fun c => !c.nonZero).length ≤
      (s.classes.filter fun c => !c.nonZero).length := by
    simp only [united, ← List.countP_eq_length_filter, List.countP_map]
    refine Nat.le_trans (List.countP_mono_left fun c _ => ?_) List.filter_sublist.countP_le
    rw [Function.comp_apply, unite]
    split
    · simp only [TermClass.absorb, Bool.not_or, Bool.and_eq_true]
      exact And.left
    · exact id
  simp only [room]
  have length : (s.united a b moved).classes.length =
      (s.classes.filter fun c => !c.has b).length := List.length_map _
  omega

variable (orderly : s.Orderly) (found : s.class? b = some moved) (apart : moved.has a = false)

include orderly found in
theorem Orderly.not_mem_moved {c : TermClass} (member : c ∈ s.classes) (other : c.has b = false)
    {t : Term} (inside : t ∈ c.members) : t ∉ moved.members := by
  intro also
  obtain ⟨present, here⟩ := class?_mem found
  rw [orderly.eq_of_mem member present inside also] at other
  simp [TermClass.has, here] at other

include orderly found apart in
theorem Orderly.knows_united (first : s.knows a = true) {t : Term} :
    (s.united a b moved).knows t = true ↔ s.knows t = true := by
  obtain ⟨present, here⟩ := class?_mem found
  simp only [knows_iff, united, List.mem_map, List.mem_filter]
  constructor
  · rintro ⟨_, ⟨c, ⟨member, -⟩, rfl⟩, inside⟩
    rcases mem_unite.mp inside with own | ⟨-, other⟩
    · exact ⟨c, member, own⟩
    · exact ⟨moved, present, other⟩
  · rintro ⟨c, member, inside⟩
    by_cases stays : c.has b = true
    · -- The term was in the class that is moved, so it is where the first term is now.
      have same := orderly.eq_of_mem member present (by simpa [TermClass.has] using stays) here
      obtain ⟨d, target, inTarget⟩ := knows_iff.mp first
      have kept : d.has b = false := by
        rw [Bool.eq_false_iff]
        intro moves
        have equal := orderly.eq_of_mem target present (by simpa [TermClass.has] using moves) here
        rw [equal] at inTarget
        simp [TermClass.has, inTarget] at apart
      exact ⟨unite a moved d, ⟨d, ⟨target, by simp [kept]⟩, rfl⟩,
        mem_unite.mpr (.inr ⟨inTarget, same ▸ inside⟩)⟩
    · exact ⟨unite a moved c, ⟨c, ⟨member, by simpa using stays⟩, rfl⟩, mem_unite.mpr (.inl inside)⟩

include orderly found apart in
theorem Orderly.united (first : s.knows a = true) : (s.united a b moved).Orderly := by
  have knows {t : Term} := orderly.knows_united found apart first (t := t)
  obtain ⟨present, -⟩ := class?_mem found
  refine ⟨⟨?_, ?_, ?_, ?_⟩, knows.mpr orderly.zero, knows.mpr orderly.one⟩
  · simp only [Solution.united, List.pairwise_map]
    refine (orderly.apart.filter _).imp_of_mem fun {c d} left right beside t inC inD => ?_
    simp only [List.mem_filter, Bool.not_eq_true'] at left right
    -- A common term is an old one of both, or one moved into a class that had the target already.
    rcases mem_unite.mp inC with own | ⟨target, other⟩
    · rcases mem_unite.mp inD with also | ⟨-, other⟩
      · exact beside t own also
      · exact orderly.not_mem_moved found left.1 left.2 own other
    · rcases mem_unite.mp inD with also | ⟨twice, -⟩
      · exact orderly.not_mem_moved found right.1 right.2 also other
      · exact beside a target twice
  · intro c member
    obtain ⟨d, inside, rfl⟩ := List.mem_map.mp member
    have labelled := orderly.labelled d (List.mem_filter.mp inside).1
    unfold unite
    split
    · exact labelled.absorb (orderly.labelled moved present)
    · exact labelled
  · exact fun fs known => orderly.sums fs (knows.mp known)
  · exact fun fs member t among => knows.mpr (orderly.summands fs member t among)

end Merging

section Marking

variable {s : Solution} {t : Term}

def mark (t : Term) (c : TermClass) : TermClass := if c.has t then { c with nonZero := true } else c

theorem mark_members (t : Term) (c : TermClass) : (mark t c).members = c.members := by
  unfold mark
  split <;> rfl

theorem mark_literals (t : Term) (c : TermClass) : (mark t c).literals = c.literals := by
  unfold mark
  split <;> rfl

theorem makeNonZero_eq (known : s.knows t = true) :
    s.makeNonZero t = { s with classes := s.classes.map (mark t) } := by
  simp only [makeNonZero, track_of_knows known]
  rfl

theorem knows_map_mark (s : Solution) (t u : Term) :
    Solution.knows { s with classes := s.classes.map (mark t) } u = true ↔ s.knows u = true := by
  simp [knows_iff, mark_members]

theorem Orderly.map_mark (orderly : s.Orderly) (t : Term) :
    Orderly { s with classes := s.classes.map (mark t) } := by
  refine ⟨⟨?_, ?_, ?_, ?_⟩, ?_, ?_⟩
  · simpa only [List.pairwise_map, mark_members] using orderly.apart
  · intro c member
    obtain ⟨d, inside, rfl⟩ := List.mem_map.mp member
    simpa only [TermClass.Labelled, mark_members, mark_literals] using orderly.labelled d inside
  · exact fun fs known => orderly.sums fs ((knows_map_mark s t _).mp known)
  · exact fun fs member u among => (knows_map_mark s t u).mpr (orderly.summands fs member u among)
  · exact (knows_map_mark s t _).mpr orderly.zero
  · exact (knows_map_mark s t _).mpr orderly.one

theorem map_mark_room {c : TermClass} (member : c ∈ s.classes) (inside : c.has t = true)
    (unmarked : c.nonZero = false) :
    Solution.room { s with classes := s.classes.map (mark t) } < s.room := by
  have left : (s.classes.map (mark t)).filter (fun c => !c.nonZero) =
      ((s.classes.filter fun c => !c.nonZero).filter fun c => !c.has t).map (mark t) := by
    rw [List.filter_map, List.filter_filter]
    congr 2
    funext d
    simp only [Function.comp_apply, mark]
    cases d.has t <;> simp
  have fewer : ((s.classes.filter fun c => !c.nonZero).filter fun c => !c.has t).length <
      (s.classes.filter fun c => !c.nonZero).length := by
    rw [List.length_filter_lt_length_iff_exists]
    exact ⟨c, by simp [member, unmarked], by simp [inside]⟩
  simp only [room, left, List.length_map]
  omega

end Marking

section Steps

variable {s : Solution} (orderly : s.Orderly)

include orderly

theorem Orderly.merge {a b : Term} (first : s.knows a = true) (second : s.knows b = true) :
    Advance s (s.merge a b) ∧ (s.merge a b = s → s.class? a = s.class? b) := by
  obtain ⟨moved, found⟩ := exists_class? second
  rw [merge_eq first found]
  by_cases same : moved.has a = true
  · rw [if_pos same]
    refine ⟨.refl orderly, fun _ => ?_⟩
    rw [found]
    exact orderly.class?_of_mem (class?_mem found).1 (by simpa [TermClass.has] using same)
  · have apart : moved.has a = false := by simpa using same
    -- Uniting two classes uses up room, so the solution cannot be the same afterwards.
    have less := united_room found (a := a)
    rw [if_neg same]
    refine ⟨⟨orderly.united found apart first, ?_, rfl, id, Nat.le_of_lt less, ?_⟩, ?_⟩
    · exact fun t known => (orderly.knows_united found apart first).mpr known
    · intro equal
      omega
    · intro equal
      rw [equal] at less
      omega

theorem Orderly.makeNonZero {t : Term} (known : s.knows t = true) :
    Advance s (s.makeNonZero t) ∧
      (s.makeNonZero t = s → ∀ c, s.class? t = some c → c.nonZero = true) := by
  obtain ⟨c, found⟩ := exists_class? known
  obtain ⟨member, inside⟩ := class?_mem found
  rw [makeNonZero_eq known]
  by_cases marked : c.nonZero = true
  · -- The only class that could change is marked already.
    have fixed : ∀ d ∈ s.classes, mark t d = d := by
      intro d other
      unfold mark
      split
      · next here =>
          have same := orderly.eq_of_mem other member (by simpa [TermClass.has] using here) inside
          rw [same, ← marked]
      · rfl
    rw [List.map_congr_left fixed, List.map_id']
    refine ⟨.refl orderly, fun _ d also => ?_⟩
    rw [found] at also
    exact Option.some.inj also ▸ marked
  · have less := map_mark_room (t := t) member (by simpa [TermClass.has] using inside)
      (by simpa using marked)
    refine ⟨⟨orderly.map_mark t, fun u => (knows_map_mark s t u).mpr, rfl, id,
      Nat.le_of_lt less, ?_⟩, ?_⟩
    · intro equal
      omega
    · intro equal
      rw [equal] at less
      omega

omit orderly in
theorem Advance.ite {condition : Prop} [Decidable condition] {next : Solution}
    (holds : condition → Advance s next) (orderly : s.Orderly) :
    Advance s (if condition then next else s) := by
  split
  · next decided => exact holds decided
  · exact .refl orderly

theorem Orderly.makeEqual {ts : List Term} (known : ∀ t ∈ ts, s.knows t = true) :
    Advance s (s.makeEqual ts) ∧ (s.makeEqual ts = s → s.conflict = none →
      ∀ a ∈ ts, ∀ b ∈ ts, s.class? a = s.class? b) := by
  cases ts with
  | nil => exact ⟨.refl orderly, fun _ _ => nofun⟩
  | cons first rest =>
      have merges (s : Solution) (t : Term) (orderly : s.Orderly)
          (known : ∀ u ∈ [first, t], s.knows u = true) : Advance s (s.merge first t) :=
        (orderly.merge (known first (by simp)) (known t (by simp))).1
      obtain ⟨advance, fixed⟩ := Advance.foldl (fun s t => s.merge first t)
          (fun t => [first, t]) merges rest s orderly <| by
        intro t later u among
        rcases List.mem_cons.mp among with rfl | single
        · exact known _ List.mem_cons_self
        · rw [List.mem_singleton.mp single]
          exact known t (List.mem_cons_of_mem _ later)
      refine ⟨advance, fun same clean => ?_⟩
      -- If no merge changed anything, every term was in the class of the first one before.
      have start : ∀ t ∈ first :: rest, s.class? first = s.class? t := by
        intro t member
        rcases List.mem_cons.mp member with rfl | later
        · rfl
        · exact (orderly.merge (known first List.mem_cons_self) (known t member)).2
            (fixed same clean t later)
      exact fun a left b right => (start a left).symm.trans (start b right)

theorem Orderly.makeZero {t : Term} (known : s.knows t = true) :
    Advance s (s.makeZero t) ∧ (s.makeZero t = s → s.isZero t = true) := by
  obtain ⟨advance, same⟩ := orderly.merge orderly.zero known
  exact ⟨advance, fun fixed => (orderly.isZero_iff known).mpr (same fixed).symm⟩

theorem Orderly.makeOne {t : Term} (known : s.knows t = true) :
    Advance s (s.makeOne t) ∧ (s.makeOne t = s → s.isOne t = true) := by
  obtain ⟨advance, same⟩ := orderly.merge orderly.one known
  exact ⟨advance, fun fixed => (orderly.isOne_iff known).mpr (same fixed).symm⟩

theorem Orderly.makeZeros {ts : List Term} (known : ∀ t ∈ ts, s.knows t = true) :
    Advance s (ts.foldl Solution.makeZero s) ∧ (ts.foldl Solution.makeZero s = s →
      s.conflict = none → ∀ t ∈ ts, s.isZero t = true) := by
  have zeros (s : Solution) (t : Term) (orderly : s.Orderly)
      (known : ∀ u ∈ [t], s.knows u = true) : Advance s (s.makeZero t) :=
    (orderly.makeZero (known t (by simp))).1
  obtain ⟨advance, fixed⟩ := Advance.foldl Solution.makeZero (fun t => [t]) zeros ts s
      orderly <| by
    intro t member u among
    rw [List.mem_singleton.mp among]
    exact known t member
  exact ⟨advance, fun same clean t member =>
    (orderly.makeZero (known t member)).2 (fixed same clean t member)⟩

end Steps

/-- What a solution shows of a constraint that has nothing to add to it. -/
def Settles (s : Solution) : Constraint → Prop
  | .equal ts => ∀ a ∈ ts, ∀ b ∈ ts, s.class? a = s.class? b
  | .nonZero t => ∀ c, s.class? t = some c → c.nonZero = true
  | .atMost x y =>
      (s.isZero y = true → s.isZero x = true) ∧
        (s.isNonZero x = true → s.isNonZero y = true) ∧ (s.isOne x = true → s.isOne y = true)
  | .less x y =>
      (∀ c, s.class? y = some c → c.nonZero = true) ∧ s.isOne x = false ∧
        s.areEqual x y = false

theorem Orderly.apply {s : Solution} (orderly : s.Orderly) {c : Constraint}
    (known : ∀ t ∈ c.terms, s.knows t = true) :
    Advance s (s.apply c) ∧ (s.apply c = s → s.conflict = none → s.Settles c) := by
  cases c with
  | equal ts => exact orderly.makeEqual known
  | nonZero t =>
      obtain ⟨advance, marked⟩ := orderly.makeNonZero (known t (by simp [Constraint.terms]))
      exact ⟨advance, fun same _ => marked same⟩
  | atMost x y =>
      have left : s.knows x = true := known x (by simp [Constraint.terms])
      have right : s.knows y = true := known y (by simp [Constraint.terms])
      simp only [Solution.apply]
      generalize shape₁ : (if s.isZero y = true then s.makeZero x else s) = s₁
      generalize shape₂ : (if s₁.isNonZero x = true then s₁.makeNonZero y else s₁) = s₂
      have first : Advance s s₁ := shape₁ ▸ .ite (fun _ => (orderly.makeZero left).1) orderly
      have second : Advance s₁ s₂ := shape₂ ▸ .ite
        (fun _ => (first.orderly.makeNonZero (first.known y right)).1) first.orderly
      have third : Advance s₂ (if s₂.isOne x = true then s₂.makeOne y else s₂) := .ite
        (fun _ => (second.orderly.makeOne (second.known y (first.known y right))).1) second.orderly
      refine ⟨first.trans (second.trans third), fun same clean => ?_⟩
      -- All three leave the solution as it is, so each was looking at the same one.
      have same₁ : s₁ = s := first.middle (second.trans third) same clean
      have same₂ : s₂ = s := (first.trans second).middle third same clean
      rw [same₁] at shape₁ shape₂
      rw [same₂] at shape₂ same
      refine ⟨?_, ?_, ?_⟩
      · intro zero
        rw [if_pos zero] at shape₁
        exact (orderly.makeZero left).2 shape₁
      · intro positive
        rw [if_pos positive] at shape₂
        exact (isNonZero_iff right).mpr ((orderly.makeNonZero right).2 shape₂)
      · intro one
        rw [if_pos one] at same
        exact (orderly.makeOne right).2 same
  | less x y =>
      have right : s.knows y = true := known y (by simp [Constraint.terms])
      obtain ⟨advance, marked⟩ := orderly.makeNonZero right
      simp only [Solution.apply]
      split
      · next refuted =>
          refine ⟨⟨?_, advance.known, advance.sums, ?_, advance.room, ?_⟩, fun same clean => ?_⟩
          · exact ⟨⟨advance.orderly.apart, advance.orderly.labelled, advance.orderly.sums,
              advance.orderly.summands⟩, advance.orderly.zero, advance.orderly.one⟩
          · rintro ⟨⟩
          · rintro - ⟨⟩
          · rw [← same] at clean
            cases clean
      · next possible =>
          refine ⟨advance, fun same _ => ?_⟩
          rw [same] at possible
          simp only [Bool.or_eq_true, not_or, Bool.not_eq_true] at possible
          exact ⟨marked same, possible.1, possible.2⟩

/-- What a solution shows of a sum that has nothing to add to it. -/
inductive SettlesSum (s : Solution) (fs : List Fraction) : Prop
  | zero (sum : s.isZero (.sum fs) = true) (all : ∀ f ∈ fs, s.isZero f = true)
  | one (before : List Fraction) (f : Fraction) (after : List Fraction)
      (parts : fs = before ++ f :: after) (live : s.isOne f = true)
      (sum : s.isOne (.sum fs) = true) (others : ∀ g ∈ before ++ after, s.isZero g = true)
  | alone (small : ∀ f ∈ fs, s.isOne f = false) (before : List Fraction) (f : Fraction)
      (after : List Fraction) (parts : fs = before ++ f :: after)
      (others : ∀ g ∈ before ++ after, s.isZero g = true)
      (sum : s.class? (.sum fs) = s.class? f)
  | several (sum : s.isZero (.sum fs) = false) (small : ∀ f ∈ fs, s.isOne f = false)
      (live : ∃ f ∈ fs, s.isZero f = false)
      (another : ∀ (before : List Fraction) (f : Fraction) (after : List Fraction),
        fs = before ++ f :: after → ∃ g ∈ before ++ after, s.isZero g = false)
      (marks : ∀ f ∈ fs, s.isNonZero f = true → s.isNonZero (.sum fs) = true)

theorem Orderly.markSum {s : Solution} (orderly : s.Orderly) {fs : List Fraction}
    (known : s.knows (.sum fs) = true) :
    Advance s (s.markSum fs) ∧ (s.markSum fs = s →
      ∀ f ∈ fs, s.isNonZero f = true → s.isNonZero (.sum fs) = true) := by
  refine ⟨.ite (fun _ => (orderly.makeNonZero known).1) orderly, fun same f member positive => ?_⟩
  have some : (fs.any fun f => s.isNonZero f) = true :=
    List.any_eq_true.mpr ⟨f, member, positive⟩
  rw [Solution.markSum, if_pos some] at same
  exact (isNonZero_iff known).mpr ((orderly.makeNonZero known).2 same)

theorem Orderly.applySum {s : Solution} (orderly : s.Orderly) {fs : List Fraction}
    (known : ∀ t ∈ Term.sum fs :: fs.map Term.single, s.knows t = true) :
    Advance s (s.applySum fs) ∧ (s.applySum fs = s → s.conflict = none → s.SettlesSum fs) := by
  have sum : s.knows (.sum fs) = true := known _ List.mem_cons_self
  have singles (gs : List Fraction) (inside : ∀ g ∈ gs, g ∈ fs) :
      ∀ t ∈ gs.map Term.single, s.knows t = true := by
    intro t member
    obtain ⟨g, among, rfl⟩ := List.mem_map.mp member
    exact known _ (List.mem_cons_of_mem _ (List.mem_map_of_mem (inside g among)))
  obtain ⟨marks, marked⟩ := orderly.markSum sum
  by_cases spent : s.isZero (.sum fs) = true
  · obtain ⟨advance, zeros⟩ := orderly.makeZeros (singles fs fun _ => id)
    have shape : s.applySum fs = (fs.map Term.single).foldl Solution.makeZero s := by
      simp [Solution.applySum, spent]
    rw [shape]
    exact ⟨advance, fun same clean => .zero spent fun f member =>
      zeros same clean f (List.mem_map_of_mem member)⟩
  · generalize step : s.applySum fs = next
    have cases := applySum_step s fs
    rw [step] at cases
    cases cases with
    | zero holds => exact absurd holds spent
    | one before f after parts holds =>
        have inside : ∀ g ∈ before ++ after, g ∈ fs := fun g member =>
          parts ▸ List.perm_middle.mem_iff.mpr (List.mem_cons_of_mem f member)
        have first := (orderly.makeOne sum).1
        have second := first.orderly.makeZeros fun t member =>
          first.known t (singles (before ++ after) inside t member)
        refine ⟨first.trans second.1, fun same clean => ?_⟩
        -- Nothing changed on the whole, so the second step was about `s` as well.
        have unchanged := first.middle second.1 same clean
        rw [unchanged] at second same
        refine .one before f after parts holds ((orderly.makeOne sum).2 unchanged)
          fun g member => ?_
        exact second.2 same clean g (List.mem_map_of_mem member)
    | spent small zero =>
        have last := marks.orderly.makeZero (marks.known _ sum)
        refine ⟨marks.trans last.1, fun same clean => ?_⟩
        have unchanged := marks.middle last.1 same clean
        rw [unchanged] at same
        exact absurd ((orderly.makeZero sum).2 same) spent
    | alone small before f after parts zero =>
        have single : s.knows f = true := singles [f] (by simp [parts]) f (by simp)
        have both : ∀ t ∈ [Term.sum fs, .single f], (s.markSum fs).knows t = true := by
          simp [marks.known _ sum, marks.known _ single]
        have last := marks.orderly.makeEqual both
        refine ⟨marks.trans last.1, fun same clean => ?_⟩
        have unchanged := marks.middle last.1 same clean
        rw [unchanged] at zero last same
        exact .alone small before f after parts zero
          (last.2 same clean (.sum fs) (by simp) (.single f) (by simp))
    | several small live another =>
        refine ⟨marks, fun same _ => ?_⟩
        rw [same] at live another
        exact .several (by simpa using spent) small live another (marked same)

/-- A solution that neither the constraints nor its sums can add to. -/
structure Saturated (constraints : List Constraint) (s : Solution) : Prop where
  orderly : s.Orderly
  known : ∀ c ∈ constraints, ∀ t ∈ c.terms, s.knows t = true
  settles : ∀ c ∈ constraints, s.Settles c
  settlesSum : ∀ fs ∈ s.sums, s.SettlesSum fs

section Rounds

variable {constraints : List Constraint} {s : Solution} (orderly : s.Orderly)
  (known : ∀ c ∈ constraints, ∀ t ∈ c.terms, s.knows t = true)

include orderly known

theorem Orderly.round : Advance s (s.round constraints) ∧
    (s.round constraints = s → s.conflict = none → Saturated constraints s) := by
  obtain ⟨first, applied⟩ := Advance.foldl Solution.apply Constraint.terms
    (fun _ _ orderly known => (orderly.apply known).1) constraints s orderly known
  obtain ⟨second, summed⟩ := Advance.foldl Solution.applySum
    (fun fs => Term.sum fs :: fs.map Term.single)
    (fun _ _ orderly known => (orderly.applySum known).1)
    (constraints.foldl Solution.apply s).sums _ first.orderly first.orderly.summands
  refine ⟨first.trans second, fun same clean => ?_⟩
  have unchanged := first.middle second same clean
  rw [unchanged] at summed
  rw [Solution.round, unchanged] at same
  refine ⟨orderly, known, fun c member => ?_, fun fs member => ?_⟩
  · exact (orderly.apply (known c member)).2 (applied unchanged clean c member) clean
  · exact (orderly.applySum (orderly.summands fs member)).2 (summed same clean fs member) clean

theorem Orderly.saturate (clean : (s.saturate constraints).conflict = none) :
    Saturated constraints (s.saturate constraints) := by
  fun_induction Solution.saturate constraints s with
  | case1 s next conflict =>
      rw [clean] at conflict
      cases conflict
  | case2 s next conflict less ih =>
      obtain ⟨advance, -⟩ := orderly.round known
      exact ih advance.orderly
        (fun c member t among => advance.known t (known c member t among)) clean
  | case3 s next conflict less =>
      -- The last round has used no room, so it has changed nothing.
      obtain ⟨advance, saturated⟩ := orderly.round known
      have unchanged := advance.settled (Nat.le_antisymm advance.room (Nat.le_of_not_lt less)) clean
      have final := saturated unchanged (unchanged ▸ clean)
      rwa [← unchanged] at final

end Rounds

/-- Solving stops at a saturated solution unless it meets a conflict. -/
theorem solve_saturated {constraints : List Constraint}
    (clean : (solve constraints).conflict = none) : Saturated constraints (solve constraints) := by
  obtain ⟨orderly, known⟩ := initial_orderly.tracks (constraints.flatMap Constraint.terms)
  refine orderly.saturate (fun c member t among => ?_) clean
  exact known t (List.mem_flatMap.mpr ⟨c, member, among⟩)

end Solution

end Typestate
