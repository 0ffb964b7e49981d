import Mathlib.Data.List.Basic
import Mathlib.Data.List.TakeDrop
import Typestate.Fraction.Constraints

set_option autoImplicit false

/-!
Renaming fractions. Nothing the solver does depends on the numbers of fractions beyond their order,
so solving renamed constraints gives the renamed solution.
-/

namespace Typestate

/-- A change of the numbers of fractions that keeps their order. -/
structure Renaming where
  apply : Nat → Nat
  strictMono : ∀ i j, i < j → apply i < apply j

namespace Renaming

def shift (start amount : Nat) : Renaming where
  apply i := if i < start then i else i + amount
  strictMono i j less := by split <;> split <;> omega

theorem apply_lt_iff (ρ : Renaming) (i j : Nat) : ρ.apply i < ρ.apply j ↔ i < j := by
  constructor
  · intro less
    by_contra more
    rcases Nat.lt_or_eq_of_le (Nat.not_lt.mp more) with more | rfl
    · have := ρ.strictMono j i more
      omega
    · omega
  · exact ρ.strictMono i j

theorem apply_inj (ρ : Renaming) (i j : Nat) : ρ.apply i = ρ.apply j ↔ i = j := by
  have first := ρ.apply_lt_iff i j
  have second := ρ.apply_lt_iff j i
  omega

end Renaming

variable (ρ : Renaming)

namespace Fraction

def rename : Fraction → Fraction
  | .zero => .zero
  | .one => .one
  | .named id => .named (ρ.apply id)
  | .unknown id => .unknown (ρ.apply id)

theorem rename_inj (f g : Fraction) : f.rename ρ = g.rename ρ ↔ f = g := by
  cases f <;> cases g <;> simp [rename, ρ.apply_inj]

theorem rename_injective : Function.Injective (rename ρ) :=
  fun f g => (rename_inj ρ f g).mp

@[simp] theorem beq_rename (f g : Fraction) : (f.rename ρ == g.rename ρ) = (f == g) := by
  rw [Bool.eq_iff_iff]
  simp [rename_inj]

@[simp] theorem rename_zero : rename ρ .zero = .zero := rfl

@[simp] theorem rename_one : rename ρ .one = .one := rfl

@[simp] theorem rename_eq_zero (f : Fraction) : f.rename ρ = .zero ↔ f = .zero := by
  cases f <;> simp [rename]

@[simp] theorem isPositive_rename (f : Fraction) : (f.rename ρ).isPositive = f.isPositive := by
  cases f <;> rfl

@[simp] theorem before_rename (f g : Fraction) :
    (f.rename ρ).before (g.rename ρ) = f.before g := by
  cases f <;> cases g <;> simp [rename, before, rank]
  all_goals exact decide_eq_decide.mpr (ρ.apply_lt_iff _ _)

end Fraction

namespace Term

def rename : Term → Term
  | .single f => .single (f.rename ρ)
  | .sum fs => .sum (fs.map (·.rename ρ))

theorem rename_inj (t u : Term) : t.rename ρ = u.rename ρ ↔ t = u := by
  cases t <;> cases u <;>
    simp [rename, Fraction.rename_inj, (Fraction.rename_injective ρ).list_map.eq_iff]

theorem rename_injective : Function.Injective (rename ρ) :=
  fun t u => (rename_inj ρ t u).mp

@[simp] theorem beq_rename (t u : Term) : (t.rename ρ == u.rename ρ) = (t == u) := by
  rw [Bool.eq_iff_iff]
  simp [rename_inj]

theorem insertFraction_rename (f : Fraction) (fs : List Fraction) :
    insertFraction (f.rename ρ) (fs.map (·.rename ρ)) =
      (insertFraction f fs).map (·.rename ρ) := by
  induction fs with
  | nil => rfl
  | cons g rest ih =>
      simp only [List.map_cons, insertFraction, Fraction.before_rename, ih]
      split <;> rfl

theorem sortFractions_rename (fs : List Fraction) :
    sortFractions (fs.map (·.rename ρ)) = (sortFractions fs).map (·.rename ρ) := by
  have sorted (fs acc : List Fraction) :
      (fs.map (·.rename ρ)).foldl (fun sorted f => insertFraction f sorted)
          (acc.map (·.rename ρ)) =
        (fs.foldl (fun sorted f => insertFraction f sorted) acc).map (·.rename ρ) := by
    induction fs generalizing acc with
    | nil => rfl
    | cons f rest ih =>
        simp only [List.map_cons, List.foldl_cons, insertFraction_rename, ih]
  exact sorted fs []

@[simp] theorem ofSum_rename (fs : List Fraction) :
    ofSum (fs.map (·.rename ρ)) = (ofSum fs).rename ρ := by
  have kept : (fs.map (·.rename ρ)).filter (· != .zero) =
      (fs.filter (· != .zero)).map (·.rename ρ) := by
    simp [List.filter_map, Function.comp_def, bne, BEq.beq]
  simp only [ofSum, kept, sortFractions_rename]
  match sortFractions (fs.filter (· != .zero)) with
  | [] => rfl
  | [f] => rfl
  | f :: g :: rest => rfl

end Term

namespace Constraint

def rename : Constraint → Constraint
  | .equal ts => .equal (ts.map (·.rename ρ))
  | .atMost a b => .atMost (a.rename ρ) (b.rename ρ)
  | .less a b => .less (a.rename ρ) (b.rename ρ)
  | .nonZero t => .nonZero (t.rename ρ)

theorem rename_injective : Function.Injective (rename ρ) := by
  intro c d same
  cases c <;> cases d <;>
    simp_all [rename, Term.rename_inj, (Term.rename_injective ρ).list_map.eq_iff]

@[simp] theorem terms_rename (c : Constraint) :
    (c.rename ρ).terms = c.terms.map (·.rename ρ) := by
  cases c <;> rfl

end Constraint

theorem contains_map_of_injective {α β : Type} [DecidableEq α] [DecidableEq β] {f : α → β}
    (injective : Function.Injective f) (xs : List α) (x : α) :
    (xs.map f).contains (f x) = xs.contains x := by
  simp [injective.eq_iff]

namespace TermClass

def rename (c : TermClass) : TermClass :=
  ⟨c.members.map (·.rename ρ), c.literals.map (·.rename ρ), c.nonZero⟩

@[simp] theorem ofTerm_rename (t : Term) : ofTerm (t.rename ρ) = (ofTerm t).rename ρ := by
  cases t with
  | single f => cases f <;> rfl
  | sum fs => rfl

@[simp] theorem has_rename (c : TermClass) (t : Term) :
    (c.rename ρ).has (t.rename ρ) = c.has t :=
  contains_map_of_injective (Term.rename_injective ρ) c.members t

@[simp] theorem contains_rename (c : TermClass) (f : Fraction) :
    (c.rename ρ).literals.contains (f.rename ρ) = c.literals.contains f :=
  contains_map_of_injective (Fraction.rename_injective ρ) c.literals f

theorem absorb_rename (c other : TermClass) :
    (c.rename ρ).absorb (other.rename ρ) = (c.absorb other).rename ρ := by
  have fresh : (other.rename ρ).literals.filter (fun f => !(c.rename ρ).literals.contains f) =
      (other.literals.filter fun f => !c.literals.contains f).map (·.rename ρ) := by
    change (other.literals.map _).filter _ = _
    simp only [List.filter_map, Function.comp_def, contains_rename]
  rw [absorb, fresh]
  simp [absorb, rename]

@[simp] theorem isConsistent_rename (c : TermClass) :
    (c.rename ρ).isConsistent = c.isConsistent := by
  have zero := contains_rename ρ c .zero
  rw [Fraction.rename_zero] at zero
  simp only [isConsistent, zero]
  simp [rename]

end TermClass

namespace Solution

def rename (s : Solution) : Solution :=
  ⟨s.classes.map (·.rename ρ), s.sums.map (·.map (·.rename ρ)), s.conflict.map (·.rename ρ)⟩

@[simp] theorem class?_rename (s : Solution) (t : Term) :
    (s.rename ρ).class? (t.rename ρ) = (s.class? t).map (·.rename ρ) := by
  simp [class?, rename, List.find?_map, Function.comp_def]

@[simp] theorem class?_rename_single (s : Solution) (f : Fraction) :
    (s.rename ρ).class? (.single (f.rename ρ)) = (s.class? f).map (·.rename ρ) :=
  class?_rename ρ s (.single f)

@[simp] theorem knows_rename (s : Solution) (t : Term) :
    (s.rename ρ).knows (t.rename ρ) = s.knows t := by
  simp [knows]

theorem trackFraction_rename (s : Solution) (f : Fraction) :
    (s.rename ρ).trackFraction (f.rename ρ) = (s.trackFraction f).rename ρ := by
  have known := knows_rename ρ s (.single f)
  have made := TermClass.ofTerm_rename ρ (.single f)
  simp only [Term.rename] at known made
  simp only [trackFraction, known, made]
  split
  · rfl
  · simp [rename]

theorem track_rename (s : Solution) (t : Term) :
    (s.rename ρ).track (t.rename ρ) = (s.track t).rename ρ := by
  cases t with
  | single f => exact trackFraction_rename ρ s f
  | sum fs =>
      have summands (fs : List Fraction) (s : Solution) :
          (fs.map (·.rename ρ)).foldl trackFraction (s.rename ρ) =
            (fs.foldl trackFraction s).rename ρ := by
        induction fs generalizing s with
        | nil => rfl
        | cons f rest ih =>
            simp only [List.map_cons, List.foldl_cons, trackFraction_rename, ih]
      have known := knows_rename ρ s (.sum fs)
      have made := TermClass.ofTerm_rename ρ (.sum fs)
      simp only [Term.rename] at known made
      simp only [Term.rename, track, known, made, summands]
      split
      · rfl
      · simp [rename]

theorem initial_rename : initial.rename ρ = initial := rfl

theorem merge_rename (s : Solution) (a b : Term) :
    (s.rename ρ).merge (a.rename ρ) (b.rename ρ) = (s.merge a b).rename ρ := by
  simp only [merge, track_rename, class?_rename]
  generalize (s.track a).track b = u
  cases u.class? b with
  | none => rfl
  | some moved =>
      have others : (u.rename ρ).classes.filter (fun c => !c.has (b.rename ρ)) =
          (u.classes.filter fun c => !c.has b).map (·.rename ρ) := by
        simp [rename, List.filter_map, Function.comp_def]
      simp only [Option.map_some, TermClass.has_rename, others, List.map_map,
        Function.comp_def, TermClass.absorb_rename]
      split
      · rfl
      · simp only [rename, List.map_map, Function.comp_def, Solution.mk.injEq, and_true]
        refine List.map_congr_left fun c _ => ?_
        split <;> rfl

theorem makeEqual_rename (s : Solution) (ts : List Term) :
    (s.rename ρ).makeEqual (ts.map (·.rename ρ)) = (s.makeEqual ts).rename ρ := by
  cases ts with
  | nil => rfl
  | cons first rest =>
      simp only [List.map_cons, makeEqual]
      induction rest generalizing s with
      | nil => rfl
      | cons t rest ih => simp only [List.map_cons, List.foldl_cons, merge_rename, ih]

theorem makeZero_rename (s : Solution) (t : Term) :
    (s.rename ρ).makeZero (t.rename ρ) = (s.makeZero t).rename ρ :=
  merge_rename ρ s (.single .zero) t

theorem makeOne_rename (s : Solution) (t : Term) :
    (s.rename ρ).makeOne (t.rename ρ) = (s.makeOne t).rename ρ :=
  merge_rename ρ s (.single .one) t

theorem makeNonZero_rename (s : Solution) (t : Term) :
    (s.rename ρ).makeNonZero (t.rename ρ) = (s.makeNonZero t).rename ρ := by
  simp only [makeNonZero, track_rename]
  simp only [rename, List.map_map, Function.comp_def, Solution.mk.injEq, and_true]
  refine List.map_congr_left fun c _ => ?_
  simp only [TermClass.has_rename]
  split <;> rfl

section Queries

variable (s : Solution)

@[simp] theorem isLiteral_rename (f literal : Fraction) :
    (s.rename ρ).isLiteral (f.rename ρ) (literal.rename ρ) = s.isLiteral f literal := by
  simp only [isLiteral, class?_rename_single]
  cases s.class? f with
  | none => simp
  | some c => simp only [Option.map_some, TermClass.contains_rename]

@[simp] theorem isNonZeroFraction_rename (f : Fraction) :
    (s.rename ρ).isNonZeroFraction (f.rename ρ) = s.isNonZeroFraction f := by
  simp only [isNonZeroFraction, class?_rename_single]
  cases s.class? f with
  | none => simp
  | some c => rfl

@[simp] theorem isZero_rename (t : Term) :
    (s.rename ρ).isZero (t.rename ρ) = s.isZero t := by
  simp only [isZero, class?_rename]
  cases s.class? t with
  | some c => exact TermClass.contains_rename ρ c .zero
  | none =>
      cases t with
      | single f => exact Fraction.beq_rename ρ f .zero
      | sum fs =>
          have literal f := isLiteral_rename ρ s f .zero
          simp only [Fraction.rename_zero] at literal
          simp [Term.rename, List.all_map, Function.comp_def, literal]

@[simp] theorem isOne_rename (t : Term) :
    (s.rename ρ).isOne (t.rename ρ) = s.isOne t := by
  simp only [isOne, class?_rename]
  cases s.class? t with
  | some c => exact TermClass.contains_rename ρ c .one
  | none =>
      cases t with
      | single f => exact Fraction.beq_rename ρ f .one
      | sum fs =>
          have literal f := isLiteral_rename ρ s f .one
          simp only [Fraction.rename_one] at literal
          simp [Term.rename, List.any_map, Function.comp_def, literal]

@[simp] theorem isNonZero_rename (t : Term) :
    (s.rename ρ).isNonZero (t.rename ρ) = s.isNonZero t := by
  simp only [isNonZero, class?_rename]
  cases s.class? t with
  | some c => rfl
  | none =>
      cases t with
      | single f => simp [Term.rename]
      | sum fs => simp [Term.rename, List.any_map, Function.comp_def]

@[simp] theorem areEqual_rename (a b : Term) :
    (s.rename ρ).areEqual (a.rename ρ) (b.rename ρ) = s.areEqual a b := by
  have together : (s.rename ρ).sameClass (a.rename ρ) (b.rename ρ) = s.sameClass a b := by
    simp only [sameClass, class?_rename]
    cases s.class? a <;> simp
  simp only [areEqual, Term.beq_rename, together, isZero_rename, isOne_rename]

@[simp] theorem isConsistent_rename : (s.rename ρ).isConsistent = s.isConsistent := by
  simp [isConsistent, rename, List.all_map, Function.comp_def]

end Queries

theorem apply_rename (s : Solution) (c : Constraint) :
    (s.rename ρ).apply (c.rename ρ) = (s.apply c).rename ρ := by
  cases c with
  | equal ts => exact makeEqual_rename ρ s ts
  | nonZero t => exact makeNonZero_rename ρ s t
  | atMost x y =>
      simp only [Constraint.rename, apply, isZero_rename, makeZero_rename, ← apply_ite (rename ρ),
        isNonZero_rename, makeNonZero_rename, isOne_rename, makeOne_rename]
  | less x y =>
      simp only [Constraint.rename, apply, makeNonZero_rename, isOne_rename, areEqual_rename]
      split <;> rfl

theorem applySum_rename (s : Solution) (fs : List Fraction) :
    (s.rename ρ).applySum (fs.map (·.rename ρ)) = (s.applySum fs).rename ρ := by
  have single (f : Fraction) : Term.single (f.rename ρ) = (Term.single f).rename ρ := rfl
  have sum : Term.sum (fs.map (·.rename ρ)) = (Term.sum fs).rename ρ := rfl
  have singles : (fs.map (·.rename ρ)).map Term.single =
      (fs.map Term.single).map (·.rename ρ) := by simp [single]
  have zeros (ts : List Term) (s : Solution) :
      (ts.map (·.rename ρ)).foldl makeZero (s.rename ρ) = (ts.foldl makeZero s).rename ρ := by
    induction ts generalizing s with
    | nil => rfl
    | cons t rest ih => simp only [List.map_cons, List.foldl_cons, makeZero_rename, ih]
  -- Renaming goes through every test, so both sides take the same branch.
  simp only [applySum, singles, sum, isZero_rename, zeros]
  generalize fs.map Term.single = ts
  split
  · rfl
  · simp only [List.span_eq_takeWhile_dropWhile, List.takeWhile_map, List.dropWhile_map,
      Function.comp_def, isOne_rename]
    cases ts.dropWhile fun t => !s.isOne t with
    | cons t others =>
        simp only [List.map_cons, ← List.map_append, makeOne_rename, zeros]
    | nil =>
        simp only [List.map_nil, List.any_map, Function.comp_def, isNonZero_rename,
          makeNonZero_rename, ← apply_ite (rename ρ), List.filter_map, isZero_rename]
        generalize (if (ts.any fun t => s.isNonZero t) = true
          then s.makeNonZero (Term.sum fs) else s) = u
        match ts.filter fun t => !u.isZero t with
        | [] => exact makeZero_rename ρ u (.sum fs)
        | [t] => exact makeEqual_rename ρ u [.sum fs, t]
        | t :: t' :: rest => rfl

theorem round_rename (constraints : List Constraint) (s : Solution) :
    (s.rename ρ).round (constraints.map (·.rename ρ)) = (s.round constraints).rename ρ := by
  have applied (cs : List Constraint) (s : Solution) :
      (cs.map (·.rename ρ)).foldl apply (s.rename ρ) = (cs.foldl apply s).rename ρ := by
    induction cs generalizing s with
    | nil => rfl
    | cons c rest ih => simp only [List.map_cons, List.foldl_cons, apply_rename, ih]
  have summed (sums : List (List Fraction)) (s : Solution) :
      (sums.map (·.map (·.rename ρ))).foldl applySum (s.rename ρ) =
        (sums.foldl applySum s).rename ρ := by
    induction sums generalizing s with
    | nil => rfl
    | cons fs rest ih => simp only [List.map_cons, List.foldl_cons, applySum_rename, ih]
  simp only [round, applied]
  exact summed _ _

@[simp] theorem room_rename (s : Solution) : (s.rename ρ).room = s.room := by
  simp [room, rename, List.filter_map, Function.comp_def, TermClass.rename]

theorem saturate_rename (constraints : List Constraint) (s : Solution) :
    (s.rename ρ).saturate (constraints.map (·.rename ρ)) = (s.saturate constraints).rename ρ := by
  have stopped (s : Solution) : (s.rename ρ).conflict.isSome = s.conflict.isSome := by
    simp [rename]
  fun_induction saturate constraints s with
  | case1 s next conflict =>
      rw [saturate, round_rename]
      simp only [stopped, next, conflict, if_true]
  | case2 s next conflict less ih =>
      rw [saturate, round_rename]
      simp only [stopped, next, conflict, room_rename, less, if_true, ih]
      simp
  | case3 s next conflict less =>
      rw [saturate, round_rename]
      simp only [stopped, next, conflict, room_rename, less, if_false]
      simp

theorem solve_rename (constraints : List Constraint) :
    solve (constraints.map (·.rename ρ)) = (solve constraints).rename ρ := by
  have tracked (ts : List Term) (s : Solution) :
      (ts.map (·.rename ρ)).foldl track (s.rename ρ) = (ts.foldl track s).rename ρ := by
    induction ts generalizing s with
    | nil => rfl
    | cons t rest ih => simp only [List.map_cons, List.foldl_cons, track_rename, ih]
  have terms : (constraints.map (·.rename ρ)).flatMap Constraint.terms =
      (constraints.flatMap Constraint.terms).map (·.rename ρ) := by
    simp [List.flatMap_map, List.map_flatMap]
  rw [solve, terms, ← initial_rename ρ, tracked, saturate_rename]
  rfl

end Solution

namespace Constraints

def rename (cs : Constraints) : Constraints := ⟨cs.items.map (·.rename ρ), cs.impossible⟩

theorem add_rename (cs : Constraints) (c : Constraint) :
    (cs.rename ρ).add (c.rename ρ) = (cs.add c).rename ρ := by
  have known : (cs.rename ρ).contains (c.rename ρ) = cs.contains c :=
    contains_map_of_injective (Constraint.rename_injective ρ) cs.items c
  simp only [add, known]
  split
  · rfl
  · simp [rename]

theorem append_rename (cs other : Constraints) :
    cs.rename ρ ++ other.rename ρ = (cs ++ other).rename ρ := by
  have added (items : List Constraint) (cs : Constraints) :
      (items.map (·.rename ρ)).foldl add (cs.rename ρ) = (items.foldl add cs).rename ρ := by
    induction items generalizing cs with
    | nil => rfl
    | cons c rest ih => simp only [List.map_cons, List.foldl_cons, add_rename, ih]
  change Constraints.mk ((other.items.map (·.rename ρ)).foldl add (cs.rename ρ)).items _ = _
  rw [added]
  rfl

theorem addEqual_rename (cs : Constraints) (a b : Term) :
    (cs.rename ρ).addEqual (a.rename ρ) (b.rename ρ) = (cs.addEqual a b).rename ρ := by
  simp only [addEqual, Term.rename_inj]
  split
  · rfl
  · exact add_rename ρ cs (.equal [a, b])

theorem addAtMost_rename (cs : Constraints) (a b : Term) :
    (cs.rename ρ).addAtMost (a.rename ρ) (b.rename ρ) = (cs.addAtMost a b).rename ρ := by
  have zero : a.rename ρ = .single .zero ↔ a = .single .zero :=
    Term.rename_inj ρ a (.single .zero)
  simp only [addAtMost, Term.rename_inj, zero]
  split
  · rfl
  · exact add_rename ρ cs (.atMost a b)

theorem addNonZero_rename (cs : Constraints) (t : Term) :
    (cs.rename ρ).addNonZero (t.rename ρ) = (cs.addNonZero t).rename ρ := by
  have positive : (t.rename ρ).fraction?.map Fraction.isPositive =
      t.fraction?.map Fraction.isPositive := by
    cases t <;> simp [Term.rename, Term.fraction?]
  simp only [addNonZero, positive]
  split
  · rfl
  · exact add_rename ρ cs (.nonZero t)

theorem solution_rename (cs : Constraints) : (cs.rename ρ).solution = cs.solution.rename ρ :=
  Solution.solve_rename ρ cs.items

@[simp] theorem isUnsatisfiable_rename (cs : Constraints) :
    (cs.rename ρ).isUnsatisfiable = cs.isUnsatisfiable := by
  simp only [isUnsatisfiable, isConsistent, solution_rename, Solution.isConsistent_rename]
  rfl

end Constraints

end Typestate
