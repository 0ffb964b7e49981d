import Typestate.Proofs.Context.Blocking
import Typestate.Proofs.Context.NormalForm
import Typestate.Proofs.Session.Growth

set_option autoImplicit false

/-!
What stands at the leaves of a context. Compact forms have no other leaves, and a function that is
applied to all tensors of a context decides what stands in their places only.
-/

namespace Typestate

open Analysis BranchTree

namespace Context

mutual

def leaves : Context → List Context
  | .choice es | .all es => leavesIn es
  | leaf => [leaf]

def leavesIn : List Context → List Context
  | [] => []
  | e :: es => e.leaves ++ leavesIn es

end

variable {P Q : Tuple → Prop}

theorem leaves_of_leaf {c : Context} (leaf : c.branch?.isSome = true) : c.leaves = [c] := by
  cases c with
  | stuck | packFailed | unreachable | tensor => rfl
  | choice | all => cases leaf

theorem mem_leaves_node (j : Junction) (es : List Context) (leaf : Context) :
    leaf ∈ (j.node es).leaves ↔ ∃ e ∈ es, leaf ∈ e.leaves := by
  have inside : leaf ∈ leavesIn es ↔ ∃ e ∈ es, leaf ∈ e.leaves := by
    induction es with
    | nil => simp [leavesIn]
    | cons e rest ih => simp [leavesIn, ih]
  cases j with
  | choice => exact inside
  | all => exact inside

theorem exists_branch_of_mem_leaves {c leaf : Context} (member : leaf ∈ c.leaves) :
    ∃ b, leaf.branch? = some b := by
  induction c using tree_induction with
  | leaf c place =>
    rw [leaves_of_leaf place, List.mem_singleton] at member
    exact Option.isSome_iff_exists.mp (member ▸ place)
  | node j es ih =>
    obtain ⟨e, inside, below⟩ := (mem_leaves_node j es leaf).mp member
    exact ih e inside below

theorem leaves_compact (freeze : Bool) (c : Context) : (c.compact freeze).leaves ⊆ c.leaves := by
  induction c using tree_induction with
  | leaf c leaf => simp [compact_leaf freeze leaf]
  | node j es ih =>
    have elements : ∀ e ∈ es.map (Context.compact freeze), e.leaves ⊆ (j.node es).leaves := by
      intro e member leaf among
      obtain ⟨d, inside, rfl⟩ := List.mem_map.mp member
      exact (mem_leaves_node j es leaf).mpr ⟨d, inside, ih d inside among⟩
    rw [compact_node]
    rcases j.compact_cases freeze (es.map (Context.compact freeze)) with
      element | ⟨survivors, same, -, each⟩
    · exact elements _ element
    · have kept (s : Context) (member : s ∈ survivors) : s.leaves ⊆ (j.node es).leaves := by
        obtain ⟨e, inside, -, among⟩ := each s member
        -- A survivor is a compact element, or it was in one that is a node of the same kind.
        rcases j.elements_cases e with ⟨inner, rfl⟩ | single
        · rw [Junction.elements_node] at among
          intro leaf below
          exact elements _ inside ((mem_leaves_node j inner leaf).mpr ⟨s, among, below⟩)
        · rw [single, List.mem_singleton] at among
          exact among ▸ elements e inside
      have node : (j.node survivors).leaves ⊆ (j.node es).leaves := by
        intro leaf among
        obtain ⟨s, member, below⟩ := (mem_leaves_node j survivors leaf).mp among
        exact kept s member below
      rw [same]
      -- A single survivor stands without a node around it.
      match survivors, kept, node with
      | [], _, node => exact node
      | [c], kept, _ => exact kept c List.mem_cons_self
      | _ :: _ :: _, _, node => exact node

/-- All tensors have tuples with a property. -/
def Every (P : Tuple → Prop) (c : Context) : Prop := ∀ t ∈ c.tuples, P t

theorem every_tensor {t : Tuple} {b : Branch} (holds : P t) : (tensor t b).Every P :=
  List.forall_mem_singleton.mpr holds

theorem every_node (j : Junction) (es : List Context) :
    (j.node es).Every P ↔ ∀ e ∈ es, e.Every P := by
  have inside : (∀ t ∈ tuplesIn es, P t) ↔ ∀ e ∈ es, e.Every P := by
    induction es with
    | nil => simp [tuplesIn]
    | cons e rest ih => rw [tuplesIn, List.forall_mem_append, ih, List.forall_mem_cons, Every]
  cases j with
  | choice => exact inside
  | all => exact inside

theorem every_iff_leaves (c : Context) : c.Every P ↔ ∀ leaf ∈ c.leaves, leaf.Every P := by
  induction c using tree_induction with
  | leaf c leaf => simp [leaves_of_leaf leaf]
  | node j es ih =>
    rw [every_node]
    constructor
    · intro every leaf member
      obtain ⟨e, inside, below⟩ := (mem_leaves_node j es leaf).mp member
      exact (ih e inside).mp (every e inside) leaf below
    · intro each e inside
      refine (ih e inside).mpr fun leaf below => each leaf ?_
      exact (mem_leaves_node j es leaf).mpr ⟨e, inside, below⟩

theorem Every.compact {c : Context} (every : c.Every P) (freeze : Bool) :
    (c.compact freeze).Every P :=
  (every_iff_leaves _).mpr fun leaf member =>
    (every_iff_leaves c).mp every leaf (leaves_compact freeze c member)

theorem mapTensors_node {m : Type → Type} [Monad m] [LawfulMonad m]
    (f : Tuple → Branch → m Context) (j : Junction) (es : List Context) :
    (j.node es).mapTensors f = do return j.node (← es.mapM (mapTensors f)) := by
  have list (es : List Context) : mapTensorsList f es = es.mapM (mapTensors f) := by
    induction es with
    | nil => rfl
    | cons e rest ih => rw [mapTensorsList, ih, List.mapM_cons]
  cases j <;> rw [Junction.node, mapTensors, list]

/-- All leaves are on branches that bear a mark in the tree, and all tensors have tuples with a
property. -/
structure Bears (mark : BranchTree → Branch → Prop) (P : Tuple → Prop) (tree : BranchTree)
    (c : Context) : Prop where
  marked : ∀ leaf ∈ c.leaves, ∀ b, leaf.branch? = some b → mark tree b
  every : c.Every P

variable {mark : BranchTree → Branch → Prop} {tree : BranchTree} {b : Branch} {c : Context}

theorem bears_node (j : Junction) (es : List Context) :
    Bears mark P tree (j.node es) ↔ ∀ e ∈ es, Bears mark P tree e := by
  constructor
  · intro bears e member
    refine ⟨fun leaf below => bears.marked leaf ?_, (every_node j es).mp bears.every e member⟩
    exact (mem_leaves_node j es leaf).mpr ⟨e, member, below⟩
  · intro each
    refine ⟨fun leaf member => ?_, (every_node j es).mpr fun e member => (each e member).every⟩
    obtain ⟨e, inside, below⟩ := (mem_leaves_node j es leaf).mp member
    exact (each e inside).marked leaf below

namespace Bears

theorem leaf (placed : c.branch? = some b) (marked : mark tree b) (every : c.Every P) :
    Bears mark P tree c := by
  refine ⟨?_, every⟩
  rw [leaves_of_leaf (by simp [placed])]
  intro leaf member d found
  rw [List.mem_singleton.mp member, placed] at found
  exact Option.some.inj found ▸ marked

theorem tensor {t : Tuple} (marked : mark tree b) (holds : P t) :
    Bears mark P tree (.tensor t b) := leaf rfl marked (every_tensor holds)

theorem stuck (marked : mark tree b) : Bears mark P tree (.stuck b) := leaf rfl marked nofun

theorem packFailed {failed : FailedPack} (marked : mark tree b) :
    Bears mark P tree (.packFailed failed b) := leaf rfl marked nofun

theorem unreachable (marked : mark tree b) : Bears mark P tree (.unreachable b) :=
  leaf rfl marked nofun

theorem compact (bears : Bears mark P tree c) (freeze : Bool) :
    Bears mark P tree (c.compact freeze) :=
  ⟨fun leaf member => bears.marked leaf (leaves_compact freeze c member),
    bears.every.compact freeze⟩

theorem imp (bears : Bears mark P tree c) (implies : ∀ t, P t → Q t) : Bears mark Q tree c :=
  ⟨bears.marked, fun t member => implies t (bears.every t member)⟩

theorem later {last : BranchTree} (lasting : Inherited mark) (bears : Bears mark P tree c)
    (grown : tree ≤ last) : Bears mark P last c :=
  ⟨fun leaf member b found => lasting.grows grown (bears.marked leaf member b found), bears.every⟩

theorem stays (lasting : Inherited mark) (bears : Bears mark P tree c) :
    Grows tree (pure c) (Bears mark P) := .pure fun _ grown => bears.later lasting grown

/-- The elements of a node are worked out one after the other, while the tree grows. -/
theorem node {α : Type} (lasting : Inherited mark) (j : Junction) {step : α → AnalysisM Context}
    {xs : List α} (each : ∀ x ∈ xs, Grows tree (step x) (Bears mark P)) :
    Grows tree (do return j.node (← xs.mapM step)) (Bears mark P) := by
  have elements : Grows tree (xs.mapM step) fun last =>
      List.Forall₂ (fun _ => Bears mark P last) xs :=
    .mapM (fun grown bears => bears.later lasting grown) xs each
  refine elements.bind fun last es _ paired => stays lasting ((bears_node j es).mpr ?_)
  intro e member
  obtain ⟨_, -, bears⟩ := exists_left_of_forall₂ paired member
  exact bears

theorem mapTensors (lasting : Inherited mark) {f : Tuple → Branch → AnalysisM Context}
    (bears : Bears mark P tree c)
    (each : ∀ t b, P t → mark tree b → Grows tree (f t b) (Bears mark Q)) :
    Grows tree (c.mapTensors f) (Bears mark Q) := by
  induction c using tree_induction with
  | leaf c leaf =>
    have marked (b : Branch) (found : c.branch? = some b) : mark tree b := by
      refine bears.marked c ?_ b found
      simp [leaves_of_leaf leaf]
    cases c with
    | stuck b => exact (Bears.stuck (marked b rfl)).stays lasting
    | packFailed _ b => exact (Bears.packFailed (marked b rfl)).stays lasting
    | unreachable b => exact (Bears.unreachable (marked b rfl)).stays lasting
    | tensor t b => exact each t b (bears.every t List.mem_cons_self) (marked b rfl)
    | choice | all => cases leaf
  | node j es ih =>
    rw [bears_node] at bears
    rw [mapTensors_node]
    exact node lasting j fun e member => ih e member (bears e member)

end Bears

end Context

end Typestate
