import Typestate.Proofs.Space.Alternation
import Typestate.Space.Printer
import Typestate.Specification.Reader

set_option autoImplicit false

/-!
Written spaces are read back as they were. The nodes of a space are those of its dimensions one
after the other, each followed by its states, so the written dimensions build it again, with the
same anonymous names as long as no other dimension has one of these.
-/

namespace Typestate

namespace Space

namespace Draft

section Steps

variable {d next : Draft}

def grow (d : Draft) (more : List SpaceNode) : Draft :=
  { d with space := { d.space with added := more ++ d.space.added } }

def withFields (d : Draft) (fields : SortedMap String String) : Draft :=
  { d with space := { d.space with fieldNodes := fields } }

theorem grow_grow (d : Draft) (first second : List SpaceNode) :
    (d.grow first).grow second = d.grow (second ++ first) := by
  simp [grow]

theorem isKnown_grow {more : List SpaceNode} {n : String} :
    (d.grow more).space.isKnown n = false ↔
      (∀ e ∈ more, e.name ≠ n) ∧ d.space.isKnown n = false := by
  simp only [← Bool.not_eq_true, isKnown, Bool.or_eq_true, decide_eq_true_eq, node?_isSome_iff,
    grow, List.mem_append]
  grind

theorem addNode_eq_ok {node : SpaceNode} :
    d.addNode node = .ok next ↔ d.space.isKnown node.name = false ∧ next = d.grow [node] := by
  unfold addNode
  split
  · next known => simp [known]
  · next unknown => simp [unknown, grow, eq_comm]

theorem mapField_eq_ok {field target : String} :
    d.mapField field target = .ok next ↔ d.space.isKnown target = true ∧
      next = d.withFields (d.space.fieldNodes.insert field target) := by
  unfold mapField
  split
  · next known => simp [known, withFields, eq_comm]
  · next unknown => simp [unknown]

def stateNodes (dimension : String) (marker : Bool) (states : List String) : List SpaceNode :=
  states.map fun state => ⟨state, dimension, false, marker⟩

theorem addStates_eq_ok {dimension : String} {marker : Bool} {states : List String} :
    addStates dimension marker states d = (next, .ok ()) ↔
      (∀ n ∈ states, d.space.isKnown n = false) ∧ states.Nodup ∧
        next = d.grow (stateNodes dimension marker states).reverse := by
  induction states generalizing d with
  | nil =>
    constructor
    · intro done
      refine ⟨?_, List.nodup_nil, (congrArg Prod.fst done).symm⟩
      rintro n ⟨⟩
    · rintro ⟨-, -, rfl⟩
      rfl
  | cons state rest ih =>
    have step (begun : Draft) := @addNode_eq_ok d begun ⟨state, dimension, false, marker⟩
    unfold addStates
    cases added : d.addNode ⟨state, dimension, false, marker⟩ with
    | error e =>
      have known : ¬d.space.isKnown state = false := by
        intro unknown
        cases added.symm.trans ((step _).mpr ⟨unknown, rfl⟩)
      simp [known]
    | ok begun =>
      obtain ⟨unknown, rfl⟩ := (step begun).mp added
      have shape : (d.grow [⟨state, dimension, false, marker⟩]).grow
          (stateNodes dimension marker rest).reverse =
            d.grow (stateNodes dimension marker (state :: rest)).reverse := by
        simp [grow_grow, stateNodes]
      simp only [ih, shape, isKnown_grow, List.forall_mem_cons, List.nodup_cons]
      grind

/-- A dimension and its states, latest first. -/
def dimensionNodes (dimension refined : String) (states : List String) (marker : Bool) :
    List SpaceNode :=
  (stateNodes dimension marker states).reverse ++ [⟨dimension, refined, true, false⟩]

/-- What a new dimension and its states have to meet. -/
structure Admits (d : Draft) (dimension refined : String) (states : List String) : Prop where
  known : d.space.isKnown refined = true
  state : d.space.isDimension refined = false
  unknown : ∀ n ∈ dimension :: states, d.space.isKnown n = false
  distinct : (dimension :: states).Nodup

variable {name : Option String} {refined dimension : String} {states : List String}

theorem admits_of_addDimension {marker : Bool}
    (done : d.addDimension name refined states marker = (next, .ok dimension)) :
    dimension = (d.nameDimension name).2 ∧ d.Admits dimension refined states ∧
      next = (d.nameDimension name).1.grow (dimensionNodes dimension refined states marker) := by
  have space := nameDimension_space d name
  unfold addDimension at done
  generalize d.nameDimension name = naming at space done ⊢
  obtain ⟨named, given⟩ := naming
  dsimp only at space done ⊢
  split at done
  · cases done
  next known =>
  split at done
  · cases done
  next state =>
  split at done
  · cases done
  split at done
  · cases done
  next begun added =>
  obtain ⟨new, rfl⟩ := addNode_eq_ok.mp added
  -- All checks before the states have passed here.
  cases run : addStates given marker states (named.grow [⟨given, refined, true, false⟩]) with
  | mk final result =>
    rw [run] at done
    cases result with
    | error e => cases done
    | ok value =>
      obtain ⟨rfl, rfl⟩ := done
      obtain ⟨fresh, distinct, rfl⟩ := addStates_eq_ok.mp run
      have apart (n : String) (member : n ∈ states) := isKnown_grow.mp (fresh n member)
      refine ⟨rfl, ⟨by simpa using known, by simpa using state, ?_, ?_⟩, grow_grow ..⟩
      · exact List.forall_mem_cons.mpr ⟨space ▸ new, fun n member => space ▸ (apart n member).2⟩
      · exact List.nodup_cons.mpr
          ⟨fun member => (apart given member).1 _ List.mem_cons_self rfl, distinct⟩

theorem Admits.addDimension (admits : d.Admits dimension refined states)
    (given : dimension = (d.nameDimension name).2) (marker : Bool) :
    d.addDimension name refined states marker =
      ((d.nameDimension name).1.grow (dimensionNodes dimension refined states marker),
        .ok dimension) := by
  have space := nameDimension_space d name
  unfold Draft.addDimension
  generalize d.nameDimension name = naming at space given ⊢
  obtain ⟨named, _⟩ := naming
  dsimp only at space given ⊢
  subst given
  obtain ⟨new, fresh⟩ := List.forall_mem_cons.mp admits.unknown
  obtain ⟨apart, distinct⟩ := List.nodup_cons.mp admits.distinct
  -- The refined state is known and the new names are not, so it is none of them.
  have refines : ¬(decide (dimension = refined) || states.contains refined) = true := by
    simp only [Bool.or_eq_true, decide_eq_true_eq, List.contains_iff_mem]
    rintro (rfl | member)
    · simp [admits.known] at new
    · have unknown := fresh refined member
      simp [admits.known] at unknown
  have added : named.addNode ⟨dimension, refined, true, false⟩ = .ok _ :=
    addNode_eq_ok.mpr ⟨space ▸ new, rfl⟩
  have run : addStates dimension marker states (named.grow [⟨dimension, refined, true, false⟩]) =
      (_, .ok ()) := addStates_eq_ok.mpr
    ⟨fun n member => isKnown_grow.mpr ⟨by grind, space ▸ fresh n member⟩, distinct, rfl⟩
  rw [if_neg (by simp [admits.known]), if_neg (by simp [admits.state]), if_neg refines, added]
  dsimp only
  rw [run, grow_grow]
  rfl

end Steps

end Draft

section Writing

/-- The nodes right below a node, in the order they were added. -/
def below (added : List SpaceNode) (n : String) : List SpaceNode :=
  (added.filter fun e => e.parent = n).reverse

def declaration (refined dimension : String) (states : List String) (marker : Bool) : SExpr :=
  .list [.atom (if marker then "marker" else "dimension"), .atom refined,
    .atom (if isAnonymous dimension then "_" else dimension), .list (states.map .atom)]

/-- The written dimensions of a space with the given nodes. -/
def declarations (added : List SpaceNode) : List SExpr :=
  (added.reverse.filter SpaceNode.isDimension).map fun e =>
    declaration e.parent e.name ((below added e.name).map SpaceNode.name)
      ((below added e.name).any SpaceNode.isMarker)

theorem children_eq (s : Space) (n : String) :
    s.children n = (below s.added n).map SpaceNode.name := by
  simp [children, below]

theorem Grown.isMarker_of_mem {s : Space} (grown : s.Grown) {e : SpaceNode}
    (member : e ∈ s.added) : s.isMarker e.name = e.isMarker := by
  simp [isMarker, grown.node?_of_mem member]

theorem Grown.dimensionSExpr_eq {s : Space} (grown : s.Grown) {e : SpaceNode}
    (member : e ∈ s.added) :
    s.dimensionSExpr e.name = declaration e.parent e.name
      ((below s.added e.name).map SpaceNode.name)
      ((below s.added e.name).any SpaceNode.isMarker) := by
  have markers : ((below s.added e.name).map SpaceNode.name).any s.isMarker =
      (below s.added e.name).any SpaceNode.isMarker := by
    rw [List.any_map, Bool.eq_iff_iff, List.any_eq_true, List.any_eq_true]
    refine exists_congr fun c => and_congr_right fun inside => ?_
    have child : c ∈ s.added := List.mem_of_mem_filter (List.mem_reverse.mp inside)
    rw [Function.comp, grown.isMarker_of_mem child]
  simp only [dimensionSExpr, children_eq, markers, declaration, grown.parent?_of_mem member,
    Option.getD_some]

theorem Grown.toSExpr_eq {s : Space} (grown : s.Grown) :
    s.toSExpr = .list ([.atom "space", .atom s.name] ++ declarations s.added ++
      s.fields.map fun (field, node) => fieldSExpr field node) := by
  have dimensions : s.nodes.filter s.isDimension =
      (s.added.reverse.filter SpaceNode.isDimension).map SpaceNode.name := by
    rw [nodes, List.filter_cons_of_neg (by simp [grown.isDimension_alive]), ← List.map_reverse,
      List.filter_map]
    refine congrArg _ (List.filter_congr fun e member => ?_)
    exact grown.isDimension_of_mem (List.mem_reverse.mp member)
  rw [toSExpr, dimensions, List.map_map, declarations]
  congr 3
  refine List.map_congr_left fun e member => ?_
  exact grown.dimensionSExpr_eq (List.mem_reverse.mp (List.mem_filter.mp member).1)

theorem below_append (first second : List SpaceNode) (n : String) :
    below (first ++ second) n = below second n ++ below first n := by
  simp [below]

theorem below_eq_nil {added : List SpaceNode} {n : String} (none : ∀ e ∈ added, e.parent ≠ n) :
    below added n = [] := by
  simpa [below] using none

section Dimension

variable {added : List SpaceNode} {dimension refined : String} (states : List String)
  (marker : Bool)

theorem stateNodes_names :
    (Draft.stateNodes dimension marker states).map SpaceNode.name = states := by
  simp [Draft.stateNodes, Function.comp_def]

theorem stateNodes_markers :
    (Draft.stateNodes dimension marker states).any SpaceNode.isMarker =
      (marker && !states.isEmpty) := by
  cases states <;> cases marker <;> simp [Draft.stateNodes]

theorem below_dimensionNodes (apart : refined ≠ dimension) :
    below (Draft.dimensionNodes dimension refined states marker) dimension =
      Draft.stateNodes dimension marker states := by
  have all : (Draft.stateNodes dimension marker states).filter (fun e => e.parent = dimension) =
      Draft.stateNodes dimension marker states := by simp [Draft.stateNodes]
  simp [below, Draft.dimensionNodes, all, apart]

theorem below_dimensionNodes_eq_nil {n : String} (unequal : dimension ≠ n) (apart : refined ≠ n) :
    below (Draft.dimensionNodes dimension refined states marker) n = [] := by
  refine below_eq_nil fun e member => ?_
  simp only [Draft.dimensionNodes, Draft.stateNodes, List.mem_append, List.mem_reverse,
    List.mem_map, List.mem_singleton] at member
  rcases member with ⟨state, -, rfl⟩ | rfl
  · exact unequal
  · exact apart

theorem dimensions_dimensionNodes :
    (Draft.dimensionNodes dimension refined states marker).reverse.filter SpaceNode.isDimension =
      [⟨dimension, refined, true, false⟩] := by
  simp [Draft.dimensionNodes, Draft.stateNodes]

theorem declarations_append (new : ∀ e ∈ added, e.name ≠ dimension)
    (parents : ∀ e ∈ added, e.parent ≠ dimension) (apart : refined ≠ dimension)
    (state : ∀ e ∈ added, e.isDimension = true → e.name ≠ refined) :
    declarations (Draft.dimensionNodes dimension refined states marker ++ added) =
      declarations added ++ [declaration refined dimension states (marker && !states.isEmpty)] := by
  have own : below (Draft.dimensionNodes dimension refined states marker ++ added) dimension =
      Draft.stateNodes dimension marker states := by
    rw [below_append, below_eq_nil parents, below_dimensionNodes states marker apart,
      List.nil_append]
  have others (e : SpaceNode) (member : e ∈ added) (isDimension : e.isDimension = true) :
      below (Draft.dimensionNodes dimension refined states marker ++ added) e.name =
        below added e.name := by
    rw [below_append, below_dimensionNodes_eq_nil states marker (new e member).symm
      (state e member isDimension).symm, List.append_nil]
  rw [declarations, List.reverse_append, List.filter_append, dimensions_dimensionNodes,
    List.map_append, List.map_singleton, own, stateNodes_names, stateNodes_markers, declarations]
  congr 1
  refine List.map_congr_left fun e member => ?_
  obtain ⟨inside, isDimension⟩ := List.mem_filter.mp member
  rw [others e (List.mem_reverse.mp inside) isDimension]

end Dimension

end Writing

namespace Draft

section Reading

theorem mapM_toIdentifier (names : List String) :
    names.mapM (SExpr.toIdentifier ∘ SExpr.atom) = .ok names := by
  induction names with
  | nil => rfl
  | cons name rest ih => simp [SExpr.toIdentifier, ih, bind, Except.bind, pure, Except.pure]

variable {d next : Draft} {node : SExpr}

/-- The name that a declaration gives to a dimension. -/
def givenName? : SExpr → Option String
  | .list [.atom _, .atom _, .atom name, .list _] => some name
  | _ => none

theorem declare_cases (read : d.declare node = .ok next) :
    (∃ name refined states marker dimension,
      d.addDimension name refined states marker = (next, .ok dimension) ∧
        ∀ n, name = some n → n ≠ "_" ∧ givenName? node = some n) ∨
    ∃ field target, d.mapField field target = .ok next := by
  unfold declare at read
  split at read
  · next head refined name items =>
    split at read
    · cases listed : items.mapM SExpr.toIdentifier with
      | error e => simp [listed, bind, Except.bind] at read
      | ok states =>
        simp only [listed, bind, Except.bind] at read
        split at read
        · next final dimension done =>
          cases read
          refine .inl ⟨_, refined, states, _, dimension, done, fun n same => ?_⟩
          by_cases blank : name = "_"
          · simp [blank] at same
          · simp only [blank, if_false, Option.some.injEq] at same
            exact ⟨same ▸ blank, same ▸ rfl⟩
        · cases read
    · cases read
  · next head first second =>
    split at read
    · split at read
      · next final dimension done =>
        cases read
        exact .inl ⟨none, second, [first], false, dimension, done, nofun⟩
      · cases read
    · split at read
      · refine .inr ⟨first, second, ?_⟩
        cases mapped : d.mapField first second with
        | error e => simp [mapped, Except.mapError] at read
        | ok final => simpa [mapped, Except.mapError] using read
      · cases read
  · cases read

theorem declare_declaration {name : Option String} {refined dimension : String}
    {states : List String} {marker : Bool}
    (spelling : (if isAnonymous dimension then "_" else dimension) = name.getD "_")
    (blank : name ≠ some "_")
    (done : d.addDimension name refined states marker = (next, .ok dimension)) :
    d.declare (declaration refined dimension states marker) = .ok next := by
  have named : (if name.getD "_" = "_" then none else some (name.getD "_")) = name := by
    cases name with
    | none => rfl
    | some n => simpa using blank
  cases marker <;>
    simp [declaration, declare, spelling, mapM_toIdentifier, bind, Except.bind, named, done]

theorem declare_fieldSExpr {field target : String} (ending : field.toList.getLast? ≠ some '-')
    (name : target ≠ "-") (mapped : d.mapField field target = .ok next) :
    d.declare (fieldSExpr field target) = .ok next := by
  have first : SExpr.fuses "field" field = false := by
    have notHyphen : field ≠ "-" := by
      rintro rfl
      exact ending rfl
    simp [SExpr.fuses, notHyphen]
  have second : SExpr.fuses field target = false := by simp [SExpr.fuses, name, ending]
  simp [fieldSExpr, SExpr.phrase, SExpr.joinHyphens, SExpr.joinHyphensAfter, SExpr.fuse?, first,
    second, declare, mapped, Except.mapError]

end Reading

/-- The written dimensions build the draft again, up to its fields. -/
def Rereads (d : Draft) : Prop :=
  (declarations d.space.added).foldlM declare (new d.space.name) = .ok (d.withFields .empty)

structure Faithful (d : Draft) : Prop where
  made : d.Made
  ascending : d.space.fieldNodes.Ascending
  rereads : d.Rereads

section Run

variable {d next : Draft} {node : SExpr}

theorem isAnonymous_anonymousName (n : Nat) : isAnonymous (anonymousName n) = true := by
  simp [isAnonymous, anonymousName, String.startsWith_string_iff]

/-- Markers without states are written as plain dimensions, which makes no difference. -/
theorem dimensionNodes_marker (dimension refined : String) (states : List String) (marker : Bool) :
    dimensionNodes dimension refined states (marker && !states.isEmpty) =
      dimensionNodes dimension refined states marker := by
  cases states <;> simp [dimensionNodes, stateNodes]

theorem Made.declarations_grow {refined dimension : String} {states : List String}
    (made : d.Made) (admits : d.Admits dimension refined states) (marker : Bool) :
    declarations (dimensionNodes dimension refined states marker ++ d.space.added) =
      declarations d.space.added ++
        [declaration refined dimension states (marker && !states.isEmpty)] := by
  have grown : d.space.Grown := made.layered
  have unknown := admits.unknown dimension List.mem_cons_self
  -- Whatever is known is not the new dimension.
  have apart {n : String} (known : d.space.isKnown n = true) : n ≠ dimension := by
    rintro rfl
    simp [unknown] at known
  apply declarations_append
  case new => exact fun e member => apart (isKnown_of_mem member)
  case parents =>
    intro e member
    have known := (grown.parent_alternates (isKnown_of_mem member) (grown.notAlive e member)).1
    exact apart (grown.parentOf_of_mem member ▸ known)
  case apart => exact apart admits.known
  case state =>
    rintro e member isDimension rfl
    simp [← grown.isDimension_of_mem member, admits.state] at isDimension

theorem Rereads.addDimension {name : Option String} {refined dimension : String}
    {states : List String} {marker : Bool} (rereads : d.Rereads) (made : d.Made)
    (named : ∀ n, name = some n → n ≠ "_" ∧ isAnonymous n = false)
    (done : d.addDimension name refined states marker = (next, .ok dimension)) :
    next.Rereads := by
  obtain ⟨given, admits, rfl⟩ := admits_of_addDimension done
  have spelling : (if isAnonymous dimension then "_" else dimension) = name.getD "_" := by
    cases name with
    | none => simp [given, nameDimension, isAnonymous_anonymousName]
    | some n => simp [given, nameDimension, (named n rfl).2]
  have blank : name ≠ some "_" := fun same => (named "_" same).1 rfl
  have same : ((d.withFields .empty).nameDimension name).2 = (d.nameDimension name).2 ∧
      ((d.withFields .empty).nameDimension name).1 =
        (d.nameDimension name).1.withFields .empty := by
    cases name <;> exact ⟨rfl, rfl⟩
  -- Fields play no part in what a new dimension has to meet.
  have bare : (d.withFields .empty).Admits dimension refined states :=
    ⟨admits.known, admits.state, admits.unknown, admits.distinct⟩
  have again := bare.addDimension (given.trans same.1.symm) (marker && !states.isEmpty)
  rw [same.2, dimensionNodes_marker] at again
  change (declarations (_ ++ (d.nameDimension name).1.space.added)).foldlM Draft.declare
    (new (d.nameDimension name).1.space.name) = .ok _
  rw [nameDimension_space, made.declarations_grow admits, List.foldlM_append, rereads]
  exact (bind_pure _).trans (declare_declaration spelling blank again)

theorem Faithful.declare (faithful : d.Faithful)
    (named : ∀ n, givenName? node = some n → isAnonymous n = false)
    (read : d.declare node = .ok next) : next.Faithful := by
  rcases declare_cases read with ⟨name, refined, states, marker, dimension, done, given⟩ |
    ⟨field, target, mapped⟩
  · have made : next.Made := by
      have made := faithful.made.addDimension name refined states marker
      rwa [done] at made
    refine ⟨made, ?_, ?_⟩
    · have same := (Extends.addDimension d name refined states marker).fields
      rw [done] at same
      rw [same]
      exact faithful.ascending
    · refine faithful.rereads.addDimension faithful.made ?_ done
      exact fun n same => ⟨(given n same).1, named n (given n same).2⟩
  · obtain ⟨-, rfl⟩ := mapField_eq_ok.mp mapped
    exact ⟨faithful.made.mapField mapped, faithful.ascending.insert field target, faithful.rereads⟩

theorem Faithful.declares {nodes : List SExpr} (faithful : d.Faithful)
    (named : ∀ n ∈ nodes.filterMap givenName?, isAnonymous n = false)
    (read : nodes.foldlM Draft.declare d = .ok next) : next.Faithful := by
  induction nodes generalizing d with
  | nil =>
    cases read
    exact faithful
  | cons node rest ih =>
    rw [List.foldlM_cons] at read
    cases declared : d.declare node with
    | error e => simp [declared, bind, Except.bind] at read
    | ok begun =>
      simp only [declared, bind, Except.bind] at read
      refine ih (faithful.declare (fun n given => ?_) declared) (fun n later => ?_) read
      · exact named n (List.mem_filterMap.mpr ⟨node, List.mem_cons_self, given⟩)
      · obtain ⟨other, inside, given⟩ := List.mem_filterMap.mp later
        exact named n (List.mem_filterMap.mpr ⟨other, List.mem_cons_of_mem _ inside, given⟩)

theorem declares_fields (d : Draft) (read : List (String × String))
    {rest : List (String × String)}
    (ascending : (read ++ rest).Pairwise fun a b => a.1 < b.1)
    (known : ∀ entry ∈ rest, d.space.isKnown entry.2 = true)
    (apart : ∀ entry ∈ rest, entry.1.toList.getLast? ≠ some '-' ∧ entry.2 ≠ "-") :
    (rest.map fun (field, target) => fieldSExpr field target).foldlM Draft.declare
        (d.withFields ⟨read⟩) = .ok (d.withFields ⟨read ++ rest⟩) := by
  induction rest generalizing read with
  | nil => simp [pure, Except.pure]
  | cons entry rest ih =>
    obtain ⟨field, target⟩ := entry
    obtain ⟨here, later⟩ := List.forall_mem_cons.mp known
    obtain ⟨plain, others⟩ := List.forall_mem_cons.mp apart
    have last : SortedMap.insertInto field target read = read ++ [(field, target)] :=
      SortedMap.insertInto_greatest target fun e member =>
        (List.pairwise_append.mp ascending).2.2 e member _ List.mem_cons_self
    have step : (d.withFields ⟨read⟩).declare (fieldSExpr field target) =
        .ok (d.withFields ⟨read ++ [(field, target)]⟩) := by
      refine declare_fieldSExpr plain.1 plain.2 (mapField_eq_ok.mpr ⟨here, ?_⟩)
      rw [← last]
      rfl
    rw [List.map_cons, List.foldlM_cons, step]
    change List.foldlM Draft.declare _ _ = _
    rw [ih _ (by simpa using ascending) later others, List.append_assoc, List.singleton_append]

theorem Faithful.reads_back (faithful : d.Faithful)
    (apart : ∀ entry ∈ d.space.fields, entry.1.toList.getLast? ≠ some '-' ∧ entry.2 ≠ "-") :
    ofSExpr d.space.toSExpr = .ok d.space := by
  have grown : d.space.Grown := faithful.made.layered
  have fields : (d.space.fields.map fun (field, target) => fieldSExpr field target).foldlM
      Draft.declare (d.withFields .empty) = .ok d :=
    declares_fields d [] faithful.ascending faithful.made.annotated.fields apart
  rw [grown.toSExpr_eq]
  change (do
    let draft ← (declarations d.space.added ++ d.space.fields.map _).foldlM Draft.declare
      (new d.space.name)
    return draft.space) = _
  rw [List.foldlM_append, faithful.rereads]
  change (do
    let draft ← (d.space.fields.map _).foldlM Draft.declare (d.withFields .empty)
    return draft.space) = _
  rw [fields]
  rfl

theorem new_faithful (name : String) : (new name).Faithful :=
  ⟨.new name, List.Pairwise.nil, rfl⟩

end Run

end Draft

/-- The names that a written space gives to its dimensions. -/
def givenNames : SExpr → List String
  | .list items => items.filterMap Draft.givenName?
  | .atom _ => []

/-- A space that was read is written in a form that reads as the same space, unless it gives a
dimension the name of an anonymous one or a hyphen joins a field to its node. -/
theorem ofSExpr_toSExpr {node : SExpr} {space : Space} (read : ofSExpr node = .ok space)
    (named : ∀ n ∈ givenNames node, isAnonymous n = false)
    (apart : ∀ entry ∈ space.fields, entry.1.toList.getLast? ≠ some '-' ∧ entry.2 ≠ "-") :
    ofSExpr space.toSExpr = .ok space := by
  unfold ofSExpr at read
  split at read
  · next head name nodes =>
    split at read
    · cases built : nodes.foldlM Draft.declare (Draft.new name) with
      | error e => simp [built, bind, Except.bind] at read
      | ok draft =>
        simp only [built, bind, Except.bind, pure, Except.pure, Except.ok.injEq] at read
        subst read
        have given : ∀ n ∈ nodes.filterMap Draft.givenName?, isAnonymous n = false := by
          simpa [givenNames, Draft.givenName?] using named
        exact ((Draft.new_faithful name).declares given built).reads_back apart
    · cases read
  · cases read

theorem ofSExpr_toSExpr_of_files :
    let node : SExpr := .list [.atom "space", .atom "File",
      .list [.atom "marker", .atom "alive", .atom "kind", .list []],
      .list [.atom "dimension", .atom "alive", .atom "_", .list [.atom "open", .atom "shut"]],
      .list [.atom "field", .atom "size", .atom "open"],
      .list [.atom "state", .atom "eof", .atom "open"],
      .list [.atom "field", .atom "name", .atom "dim$1"],
      .list [.atom "marker", .atom "shut", .atom "keep", .list [.atom "read", .atom "dim$9"]]]
    ∃ space, ofSExpr node = .ok space ∧ (space.toSExpr == node) = false ∧
      space.nodes = [alive, "kind", "dim$1", "open", "shut", "dim$2", "eof", "keep", "read",
        "dim$9"] ∧
      ofSExpr space.toSExpr = .ok space := by
  intro node
  have read : ofSExpr node = .ok _ := rfl
  refine ⟨_, read, by decide +kernel, by decide +kernel, ofSExpr_toSExpr read ?_ ?_⟩
  · decide +kernel
  · decide +kernel

end Space

end Typestate
