import Typestate.SExpr.Printer
import Typestate.SExpr.Reader

set_option autoImplicit false

/-!
What is printed reads back as it was. However the lines are broken and drawn together, a printed
text spells the tokens of its node, and reading these tokens gives the node again.
-/

namespace Typestate

namespace SExpr

mutual

def tokens : SExpr → List Token
  | .atom text => [.atom text]
  | .list items => .leftParen :: (tokensIn items ++ [.rightParen])

def tokensIn : List SExpr → List Token
  | [] => []
  | item :: rest => item.tokens ++ tokensIn rest

end

/-- A scan starts with the tokens, and the other scan is what comes after them. -/
inductive Scan.Begins : List Token → Scan → Scan → Prop
  | nil (rest : Scan) : Begins [] rest rest
  | cons {token : Token} {tokens : List Token} {scan rest : Scan} (position : Position)
      (begins : Begins tokens scan rest) :
      Begins (token :: tokens) (.token position token scan) rest

namespace Scan

theorem Begins.append {ts us : List Token} {first second third : Scan}
    (before : Begins ts first second) (after : Begins us second third) :
    Begins (ts ++ us) first third := by
  induction before with
  | nil => exact after
  | cons position _ ih => exact .cons position (ih after)

theorem Begins.split {ts us : List Token} {scan rest : Scan}
    (begins : Begins (ts ++ us) scan rest) :
    ∃ middle, Begins ts scan middle ∧ Begins us middle rest := by
  induction ts generalizing scan with
  | nil => exact ⟨scan, .nil scan, begins⟩
  | cons token ts ih =>
    cases begins with
    | cons position begins =>
      obtain ⟨middle, before, after⟩ := ih begins
      exact ⟨middle, .cons position before, after⟩

mutual

theorem readIn_tokens : ∀ (node : SExpr) {scan rest : Scan} (items : List SExpr)
    (outer : List (List SExpr)), Begins node.tokens scan rest →
      readIn items outer scan = readIn (node :: items) outer rest
  | .atom text, _, _, items, outer, begins => by
    cases begins with
    | cons position begins =>
      cases begins
      rw [readIn]
  | .list inner, _, rest, items, outer, begins => by
    cases begins with
    | cons position begins =>
      obtain ⟨middle, inside, closing⟩ := begins.split
      cases closing with
      | cons position closing =>
        cases closing
        rw [readIn, readIn_tokensIn inner [] (items :: outer) inside, readIn]
        simp

theorem readIn_tokensIn : ∀ (nodes : List SExpr) {scan rest : Scan} (items : List SExpr)
    (outer : List (List SExpr)), Begins (tokensIn nodes) scan rest →
      readIn items outer scan = readIn (nodes.reverse ++ items) outer rest
  | [], _, _, items, outer, begins => by
    cases begins
    rfl
  | node :: nodes, _, _, items, outer, begins => by
    obtain ⟨middle, first, others⟩ := begins.split
    rw [readIn_tokens node items outer first, readIn_tokensIn nodes (node :: items) outer others]
    simp

end

theorem read_tokens {node : SExpr} {scan rest : Scan} (begins : Begins node.tokens scan rest) :
    scan.read = .ok node := by
  cases node with
  | atom text =>
    cases begins
    rfl
  | list items =>
    cases begins with
    | cons position begins =>
      obtain ⟨middle, inside, closing⟩ := begins.split
      cases closing with
      | cons position closing =>
        rw [read, readIn_tokensIn items [] [] inside, readIn]
        simp

end Scan

/-- A text that an atom before it does not go on into. -/
def Separate (cs : List Char) : Prop := ∀ c ∈ cs.head?, AtomMode.plain.step c = none

/-- The characters are scanned as the tokens, whatever follows them if they are free of an atom at
their end, and otherwise if something separate follows. -/
def Spells (free : Bool) (cs : List Char) (ts : List Token) : Prop :=
  ∀ here rest, (free = false → Separate rest) → ∃ later,
    Scan.Begins ts (scanFrom .between here (cs ++ rest)) (scanFrom .between later rest)

namespace Spells

variable {free last : Bool} {cs ds : List Char} {ts us : List Token}

theorem nil : Spells true [] [] := fun here _ _ => ⟨here, .nil _⟩

theorem weaken (spells : Spells true cs ts) : Spells free cs ts :=
  fun here rest _ => spells here rest nofun

theorem append (first : Spells free cs ts) (second : Spells last ds us)
    (parted : free = false → ds ≠ [] ∧ Separate ds) : Spells last (cs ++ ds) (ts ++ us) := by
  intro here rest follows
  have separate (tied : free = false) : Separate (ds ++ rest) := by
    obtain ⟨some, apart⟩ := parted tied
    cases ds with
    | nil => exact absurd rfl some
    | cons c ds => exact apart
  obtain ⟨middle, before⟩ := first here (ds ++ rest) separate
  obtain ⟨later, after⟩ := second middle rest follows
  rw [List.append_assoc]
  exact ⟨later, before.append after⟩

theorem gap {c : Char} (blank : c = '\n' ∨ isBlank c = true) : Spells true [c] [] := by
  intro here rest _
  rcases blank with rfl | blank
  · exact ⟨here.nextLine, .nil _⟩
  · have either : c = ' ' ∨ c = '\t' := by simpa [isBlank] using blank
    rcases either with rfl | rfl
    · exact ⟨here.next, .nil _⟩
    · exact ⟨here.next, .nil _⟩

theorem leftParen : Spells true ['('] [.leftParen] :=
  fun here _ _ => ⟨here.next, .cons here (.nil _)⟩

theorem rightParen : Spells true [')'] [.rightParen] :=
  fun here _ _ => ⟨here.next, .cons here (.nil _)⟩

theorem blanks (blank : ∀ c ∈ cs, isBlank c = true) : Spells true cs [] := by
  induction cs with
  | nil => exact nil
  | cons c cs ih =>
    have first := gap (.inr (blank c List.mem_cons_self))
    have others := ih fun c' later => blank c' (List.mem_cons_of_mem c later)
    exact first.append others nofun

theorem closers (count : Nat) :
    Spells true (List.replicate count ')') (List.replicate count .rightParen) := by
  induction count with
  | zero => exact nil
  | succ count ih => exact rightParen.append ih nofun

theorem eq_closers {count : Nat} (spells : Spells free (List.replicate count ')') ts) :
    ts = List.replicate count .rightParen := by
  obtain ⟨later, begins⟩ := spells .start [] fun _ => nofun
  rw [List.append_nil] at begins
  clear spells
  generalize Position.start = here at begins
  induction count generalizing ts here with
  | zero =>
    cases begins
    rfl
  | succ count ih =>
    change Scan.Begins ts (.token here .rightParen (scanFrom .between here.next _)) _ at begins
    cases begins with
    | cons _ begins => rw [ih here.next begins, List.replicate_succ]

end Spells

section Atoms

variable {mode last : AtomMode} {c : Char}

theorem bareStep_atom (starts : AtomMode.plain.step c = some mode) (here : Position) :
    bareStep here c = .silent (.atom here mode [c]) here.next := by
  have apart (d : Char) (ends : AtomMode.plain.step d = none) : c ≠ d := by
    rintro rfl
    rw [starts] at ends
    cases ends
  have blank : isBlank c = false := by
    simp [isBlank, apart ' ' (by decide), apart '\t' (by decide)]
  simp only [bareStep, apart '\n' (by decide), apart '\r' (by decide), apart ';' (by decide),
    apart '(' (by decide), apart ')' (by decide), blank, starts, if_false, Bool.false_eq_true]

/-- Inside an atom the scan follows the modes of the atom. -/
theorem scanFrom_atom {cs : List Char} (runs : mode.run cs = some last) (start here : Position)
    (reversed rest : List Char) :
    ∃ later, scanFrom (.atom start mode reversed) here (cs ++ rest) =
      scanFrom (.atom start last (cs.reverse ++ reversed)) later rest := by
  induction cs generalizing mode here reversed with
  | nil =>
    cases runs
    exact ⟨here, rfl⟩
  | cons c cs ih =>
    obtain ⟨next, stepped, runs⟩ := Option.bind_eq_some_iff.mp runs
    obtain ⟨later, scanned⟩ := ih runs here.next (c :: reversed)
    refine ⟨later, ?_⟩
    rw [List.cons_append, List.reverse_cons, List.append_assoc, List.singleton_append, ← scanned]
    simp [scanFrom, ScanMode.step, stepped, ScanStep.silent, Scan.prepend]

theorem scanFrom_atom_end (start here : Position) (reversed : List Char) {rest : List Char}
    (separate : Separate rest) :
    scanFrom (.atom start .plain reversed) here rest =
      .token start (.atom (String.ofList reversed.reverse)) (scanFrom .between here rest) := by
  cases rest with
  | nil => rfl
  | cons c rest =>
    have ends := separate c rfl
    simp [scanFrom, ScanMode.step, ends, Scan.prepend, atomToken]

theorem Spells.atom {text : String} (valid : isAtom text = true) :
    Spells false text.toList [.atom text] := by
  obtain ⟨some, runs⟩ : text.toList ≠ [] ∧ AtomMode.plain.run text.toList = some .plain := by
    simpa [isAtom] using valid
  intro here rest follows
  have whole : String.ofList text.toList = text := String.ofList_toList
  generalize text.toList = cs at some runs whole
  cases cs with
  | nil => exact absurd rfl some
  | cons c cs =>
    obtain ⟨mode, starts, runs⟩ := Option.bind_eq_some_iff.mp runs
    obtain ⟨later, scanned⟩ := scanFrom_atom runs here here.next [c] rest
    -- The first character decides between an atom and all other tokens.
    have entered : scanFrom .between here (c :: (cs ++ rest)) =
        scanFrom (.atom here mode [c]) here.next (cs ++ rest) := by
      simp [scanFrom, ScanMode.step, bareStep_atom starts, ScanStep.silent, Scan.prepend]
    refine ⟨later, ?_⟩
    rw [List.cons_append, entered, scanned, scanFrom_atom_end here later _ (follows rfl)]
    have read : (cs.reverse ++ [c]).reverse = c :: cs := by simp
    rw [read, whole]
    exact .cons here (.nil _)

end Atoms

/-- Lines whose texts spell the tokens one line after the other. -/
inductive Written : List Line → List Token → Prop
  | nil : Written [] []
  | cons {line : Line} {lines : List Line} {ts us : List Token}
      (first : Spells false line.text ts) (others : Written lines us) :
      Written (line :: lines) (ts ++ us)

theorem Written.append {lines others : List Line} {ts us : List Token}
    (above : Written lines ts) (below : Written others us) :
    Written (lines ++ others) (ts ++ us) := by
  induction above with
  | nil => exact below
  | cons first _ ih =>
    rw [List.append_assoc]
    exact .cons first ih

namespace Page

/-- What was written so far, the line being written included, spells the tokens. -/
def Shows (page : Page) (ts : List Token) : Prop :=
  ∃ before now, Written page.above.reverse before ∧ Spells page.opened page.line.text now ∧
    ts = before ++ now

variable {page : Page} {ts us : List Token} {text : List Char} {free : Bool}

theorem Shows.lines (shows : page.Shows ts) : Written page.lines ts := by
  obtain ⟨before, now, above, line, rfl⟩ := shows
  have ended : Spells false page.line.text now :=
    fun here rest follows => line here rest fun _ => follows rfl
  simpa [Page.lines] using above.append (.cons ended .nil)

theorem Shows.append (shows : page.Shows ts) (spells : Spells free text us)
    (parted : page.opened = false → text ≠ [] ∧ Separate text) :
    Shows { page.append text with opened := free } (ts ++ us) := by
  obtain ⟨before, now, above, line, rfl⟩ := shows
  exact ⟨before, now ++ us, above, line.append spells parted, List.append_assoc _ _ _⟩

theorem Shows.breakLine (shows : page.Shows ts) (indent : Nat) :
    Shows { page.breakLine indent with opened := true } ts := by
  have lines := shows.lines
  exact ⟨ts, [], lines, .nil, by simp⟩

theorem Shows.put (shows : page.Shows ts) (spells : Spells free text us) (depth limit : Nat) :
    Shows { page.put depth limit text with opened := free } (ts ++ us) := by
  unfold Page.put
  split
  · split
    · next opened => exact shows.append spells (by simp [opened])
    · next closed =>
      have spaced : Spells free (' ' :: text) us := (Spells.gap (.inr rfl)).append spells nofun
      have parted : Separate (' ' :: text) := by
        rintro _ ⟨⟩
        rfl
      exact shows.append spaced fun _ => ⟨nofun, parted⟩
  · exact (shows.breakLine (depth + 1)).append spells nofun

theorem Shows.close (shows : page.Shows ts) (depth : Nat) (outerBroken : Bool) :
    (page.close depth outerBroken).Shows (ts ++ [.rightParen]) := by
  have parted : Separate [')'] := by
    rintro _ ⟨⟩
    rfl
  have closing : Spells false [')'] [.rightParen] := Spells.rightParen.weaken
  unfold Page.close
  split
  · exact (shows.breakLine depth).append closing fun _ => ⟨nofun, parted⟩
  · exact shows.append closing fun _ => ⟨nofun, parted⟩

end Page

mutual

theorem layItem_shows : ∀ (node : SExpr) (depth limit : Nat) {page : Page} {ts : List Token},
    node.badAtom? = none → page.Shows ts → (layItem depth limit node page).Shows (ts ++ node.tokens)
  | .atom text, depth, limit, page, ts, accepted, shows => by
    have valid : isAtom text = true := by simpa [badAtom?] using accepted
    exact shows.put (.atom valid) depth limit
  | .list items, depth, limit, page, ts, accepted, shows => by
    have opened : Page.Shows { page.put depth limit ['('] with opened := true, broken := false }
        (ts ++ [.leftParen]) := shows.put Spells.leftParen depth limit
    have inside := layItems_shows items (depth + 1) false accepted opened
    have closed := inside.close (depth + 1) (page.put depth limit ['(']).broken
    simpa [tokens, layItem] using closed

theorem layItems_shows : ∀ (items : List SExpr) (depth : Nat) (perLine : Bool) {page : Page}
    {ts : List Token}, badAtomIn? items = none → page.Shows ts →
      (layItems depth perLine items page).Shows (ts ++ tokensIn items)
  | [], depth, perLine, page, ts, accepted, shows => by simpa [tokensIn, layItems] using shows
  | item :: rest, depth, perLine, page, ts, accepted, shows => by
    obtain ⟨first, others⟩ : item.badAtom? = none ∧ badAtomIn? rest = none := by
      simpa [badAtomIn?] using accepted
    have placed := layItem_shows item depth (if perLine then 0 else lineLimit depth) first shows
    have laid := layItems_shows rest depth (perLine || breaksAfter item) others placed
    rw [tokensIn, ← List.append_assoc]
    exact laid

end

theorem layOut_written {node : SExpr} (accepted : node.badAtom? = none) :
    Written (layOut node).lines node.tokens := by
  have blank : Page.blank.Shows [] := ⟨[], [], .nil, .nil, rfl⟩
  cases node with
  | atom text =>
    have valid : isAtom text = true := by simpa [badAtom?] using accepted
    exact (blank.append (.atom valid) nofun).lines
  | list items =>
    have opened : (Page.blank.append ['(']).Shows [.leftParen] :=
      blank.append Spells.leftParen nofun
    exact ((layItems_shows items 0 false accepted opened).close 0 false).lines

theorem Line.text_of_closes {line : Line} (closes : line.closes = true) :
    line.text = List.replicate line.text.length ')' := by
  have only : ∀ c ∈ line.text, c = ')' := by
    have both : ¬line.text = [] ∧ ∀ c ∈ line.text, c = ')' := by simpa [Line.closes] using closes
    exact both.2
  exact List.eq_replicate_of_mem only

/-- Lines that only close lists can change places. -/
theorem Spells.merge {line next : Line} {ts us : List Token} (closes : line.closes = true)
    (other : next.closes = true) (first : Spells false line.text ts)
    (second : Spells false next.text us) :
    Spells false (next.text ++ line.text) (ts ++ us) := by
  rw [Line.text_of_closes closes] at first ⊢
  rw [Line.text_of_closes other] at second ⊢
  rw [first.eq_closers, second.eq_closers, List.replicate_append_replicate,
    List.replicate_append_replicate, Nat.add_comm]
  exact (Spells.closers _).weaken

theorem Written.mergeClosers {lines : List Line} {ts : List Token} (written : Written lines ts) :
    Written (mergeClosers lines) ts := by
  induction written with
  | nil => exact .nil
  | @cons line lines ts us first others ih =>
    unfold SExpr.mergeClosers
    revert ih
    cases SExpr.mergeClosers lines with
    | nil => exact .cons first
    | cons next rest =>
      intro written
      dsimp only
      split
      · next both =>
        obtain ⟨closes, other⟩ : line.closes = true ∧ next.closes = true := by simpa using both
        cases written with
        | cons second below =>
          rw [← List.append_assoc]
          -- Lines of closing parentheses only are put on one line, which reads as the same tokens.
          exact .cons (first.merge closes other second) below
      · exact .cons first written

theorem Written.stack {margin : String} (blank : ∀ c ∈ margin.toList, isBlank c = true)
    {lines : List Line} {ts : List Token} (written : Written lines ts) :
    Spells false (stack margin lines).toList ts := by
  have indented (line : Line) {ts : List Token} (spells : Spells false line.text ts) :
      Spells false (List.replicate line.indent ' ' ++ line.text) ts := by
    have indent : Spells true (List.replicate line.indent ' ') [] := by
      apply Spells.blanks
      intro c member
      rw [List.eq_of_mem_replicate member]
      rfl
    exact indent.append spells nofun
  induction written with
  | nil => exact Spells.nil.weaken
  | @cons line lines ts us first others ih =>
    have here := indented line first
    cases others with
    | nil => simpa [SExpr.stack] using here
    | cons second others =>
      have newLine : Spells true ('\n' :: margin.toList) [] :=
        (Spells.gap (.inl rfl)).append (Spells.blanks blank) nofun
      have parted : Separate ('\n' :: margin.toList) := by
        rintro _ ⟨⟩
        rfl
      have both := (here.append newLine fun _ => ⟨nofun, parted⟩).append ih nofun
      simpa [SExpr.stack] using both

end SExpr

end Typestate
