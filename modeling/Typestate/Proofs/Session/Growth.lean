import Typestate.Proofs.BranchTree
import Typestate.Proofs.Session

set_option autoImplicit false

/-!
Reasoning about steps of an analysis by the branch tree, which they only let grow, also where they
end in a broken contract. What a step answers may depend on the tree as it is then.
-/

namespace Typestate

namespace Analysis

variable {α β : Type}

/-- From the given tree on, the tree only grows, and a result is as described for the tree it comes
with. -/
def Grows (start : BranchTree) (work : AnalysisM α) (after : BranchTree → α → Prop) : Prop :=
  ∀ session : Session, start ≤ session.branches →
    session.branches ≤ (work.run.run session).2.branches ∧
      ∀ a, (work.run.run session).1 = .ok a → after (work.run.run session).2.branches a

namespace Grows

variable {start : BranchTree} {after : BranchTree → α → Prop}

theorem later {t : BranchTree} {work : AnalysisM α} (grows : Grows start work after)
    (grown : start ≤ t) : Grows t work after :=
  fun session further => grows session (grown.trans further)

theorem pure {a : α} (holds : ∀ t, start ≤ t → after t a) : Grows start (pure a) after := by
  intro session grown
  refine ⟨le_rfl, ?_⟩
  rintro _ ⟨⟩
  exact holds session.branches grown

theorem bind {work : AnalysisM α} {next : α → AnalysisM β} {last : BranchTree → β → Prop}
    (first : Grows start work after)
    (second : ∀ t a, start ≤ t → after t a → Grows t (next a) last) :
    Grows start (work >>= next) last := by
  intro session grown
  obtain ⟨growth, answers⟩ := first session grown
  rw [ExceptT.run_bind, StateT.run_bind]
  rcases ran : work.run.run session with ⟨_ | a, middle⟩
  · rw [ran] at growth
    exact ⟨growth, nofun⟩
  · rw [ran] at growth answers
    obtain ⟨further, ended⟩ :=
      second middle.branches a (grown.trans growth) (answers a rfl) middle le_rfl
    exact ⟨growth.trans further, ended⟩

theorem imp {work : AnalysisM α} {other : BranchTree → α → Prop} (grows : Grows start work after)
    (implies : ∀ t a, start ≤ t → after t a → other t a) : Grows start work other := by
  intro session grown
  obtain ⟨growth, answers⟩ := grows session grown
  exact ⟨growth, fun a ended => implies _ a (grown.trans growth) (answers a ended)⟩

theorem ite {condition : Prop} [Decidable condition] {work other : AnalysisM α}
    (holds : condition → Grows start work after) (fails : ¬condition → Grows start other after) :
    Grows start (if condition then work else other) after := by
  split
  · next decided => exact holds decided
  · next decided => exact fails decided

/-- Steps that have nothing to do with the tree. -/
theorem still {work : AnalysisM α} {property : α → Prop}
    (same : ∀ session, (work.run.run session).2.branches = session.branches)
    (answers : ∀ session a, (work.run.run session).1 = .ok a → property a) :
    Grows start work fun _ => property := by
  intro session _
  rw [same session]
  exact ⟨le_rfl, answers session⟩

theorem mapM {step : α → AnalysisM β} {last : BranchTree → α → β → Prop}
    (lasts : ∀ {t u a b}, t ≤ u → last t a b → last u a b) (xs : List α)
    (each : ∀ a ∈ xs, Grows start (step a) fun t => last t a) :
    Grows start (xs.mapM step) fun t => List.Forall₂ (last t) xs := by
  induction xs generalizing start with
  | nil => exact pure fun _ _ => .nil
  | cons a rest ih =>
    rw [List.mapM_cons]
    have others : Grows start (rest.mapM step) fun t => List.Forall₂ (last t) rest :=
      ih fun b later => each b (List.mem_cons_of_mem a later)
    refine (each a List.mem_cons_self).bind fun t y grown first =>
      (others.later grown).bind fun u ys further paired => pure fun v more => ?_
    exact .cons (lasts (further.trans more) first) (paired.imp fun _ _ => lasts more)

theorem liftSupply {work : SupplyM α} {property : α → Prop} (yields : Yields work property) :
    Grows start (liftSupply work) fun _ => property := by
  refine still (fun _ => rfl) fun session a ended => ?_
  cases ended
  exact yields session.supply

theorem liftFault {result : Except Fault α} {property : α → Prop}
    (answers : ∀ a, result = .ok a → property a) :
    Grows start (liftFault result) fun _ => property := by
  cases result with
  | error fault => exact still (fun _ => rfl) nofun
  | ok a => exact pure fun _ _ => answers a rfl

theorem liftGuarded {guarded : Except Fault (SupplyM α)} {property : α → Prop}
    (yields : ∀ work, guarded = .ok work → Yields work property) :
    Grows start (liftGuarded guarded) fun _ => property :=
  (liftFault yields).bind fun _ _ _ known => liftSupply known

theorem get : Grows start get fun t session => session.branches = t := by
  intro session _
  refine ⟨le_rfl, ?_⟩
  rintro _ ⟨⟩
  rfl

theorem modify {change : Session → Session}
    (keeps : ∀ session, (change session).branches = session.branches) :
    Grows start (modify change) fun _ _ => True :=
  still keeps fun _ _ _ => trivial

theorem options : Grows start options fun _ _ => True :=
  get.bind fun _ _ _ _ => pure fun _ _ => trivial

theorem writeLine (text : String) : Grows start (writeLine text) fun _ _ => True :=
  modify fun _ => rfl

theorem log (node : SExpr) : Grows start (log node) fun _ _ => True := by
  refine get.bind fun t session _ _ => ite (fun _ => ?_) fun _ => pure fun _ _ => trivial
  exact (liftFault fun _ _ => trivial).bind fun _ _ _ _ => writeLine _

theorem remark (text : String) : Grows start (remark text) fun _ _ => True :=
  get.bind fun _ _ _ _ => ite (fun _ => writeLine _) fun _ => pure fun _ _ => trivial

theorem indented {work : AnalysisM α} (grows : Grows start work after)
    (lasts : ∀ {t u a}, t ≤ u → after t a → after u a) : Grows start (indented work) after := by
  have restored {t : BranchTree} (grown : start ≤ t) {restore : AnalysisM Unit}
      (keeps : ∀ u, Grows u restore fun _ _ => True) :
      Grows t (do let result ← work; restore; return result) after :=
    (grows.later grown).bind fun u a _ holds => (keeps u).bind fun v _ further _ =>
      pure fun w last => lasts (further.trans last) holds
  refine get.bind fun t outer grown _ => get.bind fun u session further _ => ?_
  split
  · refine bind (modify ?_) fun v _ last _ =>
      restored ((grown.trans further).trans last) fun _ => modify fun _ => rfl
    exact fun _ => rfl
  · exact restored (grown.trans further) fun _ => modify fun _ => rfl

theorem freshBranch {mark : BranchTree → Branch → Prop} (lasting : BranchTree.Inherited mark)
    {b : Branch} (marked : mark start b) (purpose : String) :
    Grows start (freshBranch b purpose) mark := by
  intro session grown
  refine ⟨session.branches.mint_le b.choice purpose, ?_⟩
  rintro _ ⟨⟩
  exact lasting.opens purpose (lasting.grows grown marked)

theorem mint (parent : Nat) (purpose : String) :
    Grows start (mint parent purpose) fun t choice =>
      ∃ before, start ≤ before ∧ before.mint parent purpose = (t, choice) := by
  intro session grown
  refine ⟨session.branches.mint_le parent purpose, ?_⟩
  rintro _ ⟨⟩
  exact ⟨session.branches, grown, rfl⟩

theorem ran {work : AnalysisM α} {session next : Session} {result : Except Fault α}
    (grows : Grows session.branches work after) (ran : work.run.run session = (result, next)) :
    session.branches ≤ next.branches ∧ ∀ a, result = .ok a → after next.branches a := by
  have ended := grows session le_rfl
  rw [ran] at ended
  exact ended

end Grows

end Analysis

end Typestate
