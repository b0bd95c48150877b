import OpenSoundControl.Proofs.AnchorTokens
import OpenSoundControl.Proofs.Chains
import OpenSoundControl.Proofs.Outcomes
import OpenSoundControl.Proofs.Parts
import OpenSoundControl.Proofs.Spelling

/-!
What the anchors around a pattern hold on to. They are put around the text of the expression, so
where the expression is a choice, the first anchor belongs to the first branch alone and the second
one to the last. A branch that is neither first nor last is not held at all.
-/

namespace OpenSoundControl.Expression

def branches : Expression → List Expression
  | .choice first rest => first :: rest.branches
  | expression => [expression]

/-- One branch spans some of the text, from the start of it if the branch is the first and up to
its end if the branch is the last. -/
def SpansBetweenAnchors (text : List Char) (branches : List Expression) : Prop :=
  ∃ index branch first last, branches[index]? = some branch ∧ Spans text branch first last ∧
    (index = 0 → first = 0) ∧ (index + 1 = branches.length → last = text.length)

inductive Anchored : List Expression → List Expression → Prop
  | only (members : List Expression) :
      Anchored [ofSequence members] [ofSequence (.start :: members ++ [.finish])]
  | several (first last middle : List Expression) :
      Anchored (ofSequence first :: (middle ++ [ofSequence last]))
        (ofSequence (.start :: first) :: (middle ++ [ofSequence (last ++ [.finish])]))

theorem Anchored.height_le {plain front : List Expression} (anchored : Anchored plain front) :
    (ofChoice plain).height ≤ (ofChoice front).height := by
  apply heightIn_le_choice
  cases anchored with
  | only members =>
      constructor
      · intro chain
        exact Nat.le_trans (heightIn_le_cons chain .start members)
          (heightIn_le_append chain (.start :: members) .finish)
      · exact .nil
  | several first last middle =>
      constructor
      · intro chain
        exact heightIn_le_cons chain .start first
      · apply List.rel_append (List.forall₂_same.mpr fun _ _ _ => Nat.le_refl _)
        constructor
        · intro chain
          exact heightIn_le_append chain last .finish
        · exact .nil

theorem spansBetweenAnchors_only (text : List Char) (only : Expression) :
    SpansBetweenAnchors text [only] ↔ Spans text only 0 text.length := by
  constructor
  · rintro ⟨index, branch, first, last, found, spans, front, back⟩
    cases index with
    | zero =>
        obtain rfl := Option.some.inj found
        rw [front rfl, back rfl] at spans
        exact spans
    | succ index => simp at found
  · intro spans
    exact ⟨0, only, 0, text.length, rfl, spans, fun _ => rfl, fun _ => rfl⟩

theorem spansBetweenAnchors_several (text : List Char) (first last : Expression)
    (middle : List Expression) :
    SpansBetweenAnchors text (first :: (middle ++ [last])) ↔
      (∃ stop, Spans text first 0 stop) ∨
        (∃ branch ∈ middle, ∃ start stop, Spans text branch start stop) ∨
          ∃ start, Spans text last start text.length := by
  constructor
  · rintro ⟨index, branch, start, stop, found, spans, front, back⟩
    cases index with
    | zero =>
        obtain rfl := Option.some.inj found
        rw [front rfl] at spans
        exact .inl ⟨stop, spans⟩
    | succ index =>
        rw [List.getElem?_cons_succ] at found
        by_cases inside : index < middle.length
        · rw [List.getElem?_append_left inside] at found
          exact .inr (.inl ⟨branch, List.mem_of_getElem? found, start, stop, spans⟩)
        · have bound := (List.getElem?_eq_some_iff.mp found).choose
          simp only [List.length_append, List.length_singleton] at bound
          have here : index = middle.length := by omega
          subst here
          rw [List.getElem?_concat_length] at found
          obtain rfl := Option.some.inj found
          rw [back (by simp)] at spans
          exact .inr (.inr ⟨start, spans⟩)
  · rintro (⟨stop, spans⟩ | ⟨branch, member, start, stop, spans⟩ | ⟨start, spans⟩)
    · refine ⟨0, first, 0, stop, rfl, spans, fun _ => rfl, ?_⟩
      intro alone
      simp at alone
    · obtain ⟨index, found⟩ := List.mem_iff_getElem?.mp member
      have inside := (List.getElem?_eq_some_iff.mp found).choose
      refine ⟨index + 1, branch, start, stop, ?_, spans, by omega, ?_⟩
      · rw [List.getElem?_cons_succ, List.getElem?_append_left inside]
        exact found
      · intro final
        simp only [List.length_cons, List.length_append, List.length_nil] at final
        omega
    · refine ⟨middle.length + 1, last, start, text.length, ?_, spans, by omega, fun _ => rfl⟩
      rw [List.getElem?_cons_succ, List.getElem?_concat_length]

theorem Anchored.occursIn_iff {plain front : List Expression} (anchored : Anchored plain front)
    (text : List Char) :
    (ofChoice front).occursIn text = true ↔ SpansBetweenAnchors text plain := by
  rw [Expression.occursIn_iff]
  cases anchored with
  | only members =>
      rw [spansBetweenAnchors_only]
      simp only [ofChoice, spans_append_finish, spans_start_cons]
      constructor
      · rintro ⟨_, _, -, -, spans⟩
        exact spans
      · intro spans
        exact ⟨0, text.length, rfl, rfl, spans⟩
  | several first last middle =>
      rw [spansBetweenAnchors_several]
      simp only [spans_ofChoice_iff text _ (List.cons_ne_nil _ _)]
      constructor
      · rintro ⟨start, stop, branch, member, spans⟩
        rcases List.mem_cons.mp member with rfl | member
        · exact .inl ⟨stop, ((spans_start_cons ..).mp spans).2⟩
        · rcases List.mem_append.mp member with inside | final
          · exact .inr (.inl ⟨branch, inside, start, stop, spans⟩)
          · obtain rfl := List.mem_singleton.mp final
            exact .inr (.inr ⟨start, ((spans_append_finish ..).mp spans).2⟩)
      · rintro (⟨stop, spans⟩ | ⟨branch, member, start, stop, spans⟩ | ⟨start, spans⟩)
        · exact ⟨0, stop, _, List.mem_cons_self, (spans_start_cons ..).mpr ⟨rfl, spans⟩⟩
        · exact ⟨start, stop, branch,
            List.mem_cons_of_mem _ (List.mem_append_left _ member), spans⟩
        · exact ⟨start, text.length, _,
            List.mem_cons_of_mem _ (List.mem_append_right _ (List.mem_singleton_self _)),
            (spans_append_finish ..).mpr ⟨rfl, spans⟩⟩

/-! Reading the expression with the anchor in front goes in step with reading it without. -/

def Level.Plain (level : Level) : Prop :=
  (∀ branch ∈ level.alternatives, branch.branches = [branch]) ∧
    ∀ member ∈ level.members, member.branches = [member]

theorem branches_ofSequence (members : List Expression)
    (plain : ∀ member ∈ members, member.branches = [member]) :
    (ofSequence members).branches = [ofSequence members] := by
  cases members with
  | nil => rfl
  | cons member members =>
      cases members with
      | nil => exact plain member List.mem_cons_self
      | cons second members => rfl

theorem branches_ofChoice (alternatives : List Expression) (some : alternatives ≠ [])
    (plain : ∀ branch ∈ alternatives, branch.branches = [branch]) :
    (ofChoice alternatives).branches = alternatives := by
  induction alternatives with
  | nil => contradiction
  | cons branch alternatives ih =>
      cases alternatives with
      | nil => exact plain branch List.mem_cons_self
      | cons second alternatives =>
          have later := ih (List.cons_ne_nil _ _)
            fun branch member => plain branch (List.mem_cons_of_mem _ member)
          rw [ofChoice, branches, later]
          exact List.cons_ne_nil _ _

theorem branches_of_length {expression : Expression} (one : expression.branches.length = 1) :
    expression.branches = [expression] := by
  have some (other : Expression) : 0 < other.branches.length := by
    cases other <;> exact Nat.succ_pos _
  cases expression with
  | choice first rest =>
      have more := some rest
      rw [branches, List.length_cons] at one
      omega
  | _ => rfl

theorem Level.Plain.push {level : Level} (plain : level.Plain) {member : Expression}
    (single : member.branches = [member]) : (level.push member).Plain := by
  refine ⟨plain.1, ?_⟩
  intro other inside
  rcases List.mem_cons.mp inside with rfl | inside
  · exact single
  · exact plain.2 other inside

theorem Level.Plain.split {level : Level} (plain : level.Plain) : level.split.Plain := by
  refine ⟨?_, fun member inside => by contradiction⟩
  intro branch inside
  rcases List.mem_cons.mp inside with rfl | inside
  · apply branches_ofSequence
    intro member inside
    exact plain.2 member (List.mem_reverse.mp inside)
  · exact plain.1 branch inside

inductive Level.Fronted : Level → Level → Prop
  | first (members : List Expression) :
      Fronted ⟨[], members⟩ ⟨[], members ++ [.start]⟩
  | later (first : List Expression) (alternatives members : List Expression) :
      Fronted ⟨alternatives ++ [ofSequence first], members⟩
        ⟨alternatives ++ [ofSequence (.start :: first)], members⟩

theorem Level.Fronted.push {plain front : Level} (fronted : plain.Fronted front)
    (member : Expression) : (plain.push member).Fronted (front.push member) := by
  cases fronted with
  | first members => exact .first (member :: members)
  | later first alternatives members => exact .later first alternatives (member :: members)

theorem Level.Fronted.split {plain front : Level} (fronted : plain.Fronted front) :
    plain.split.Fronted front.split := by
  cases fronted with
  | first members =>
      have bar := Level.Fronted.later members.reverse [] []
      simpa [Level.split] using bar
  | later first alternatives members =>
      exact .later first (ofSequence members.reverse :: alternatives) []

theorem Level.Fronted.anchored {plain front : Level} (fronted : plain.Fronted front) :
    Anchored plain.split.alternatives.reverse (front.push .finish).split.alternatives.reverse := by
  cases fronted with
  | first members =>
      have only := Anchored.only members.reverse
      simpa [Level.split, Level.push] using only
  | later first alternatives members =>
      have several := Anchored.several first members.reverse alternatives.reverse
      simpa [Level.split, Level.push] using several

inductive Reading.Fronted : Reading → Reading → Prop
  | outermost {plain front : Level} : plain.Plain → plain.Fronted front →
      Fronted ⟨plain, []⟩ ⟨front, []⟩
  | inner {plain front : Level} (current : Level) (outer : List Level) : plain.Plain →
      plain.Fronted front → Fronted ⟨current, outer ++ [plain]⟩ ⟨current, outer ++ [front]⟩

theorem Reading.Fronted.step {plain front after : Reading} (fronted : plain.Fronted front)
    {token : Token} (single : ∀ expression, token = .atom expression →
      expression.branches = [expression])
    (stepped : front.step token = .ok after) :
    ∃ next, plain.step token = .ok next ∧ next.Fronted after := by
  cases fronted with
  | outermost isPlain level =>
      cases token with
      | atom expression =>
          obtain rfl := Except.ok.inj stepped
          exact ⟨_, rfl, .outermost (isPlain.push (single expression rfl)) (level.push expression)⟩
      | bar =>
          obtain rfl := Except.ok.inj stepped
          exact ⟨_, rfl, .outermost isPlain.split level.split⟩
      | opening =>
          obtain rfl := Except.ok.inj stepped
          exact ⟨_, rfl, .inner .new [] isPlain level⟩
      | closing => contradiction
      | fault fault => contradiction
  | inner current outer isPlain level =>
      cases token with
      | atom expression =>
          obtain rfl := Except.ok.inj stepped
          exact ⟨_, rfl, .inner _ outer isPlain level⟩
      | bar =>
          obtain rfl := Except.ok.inj stepped
          exact ⟨_, rfl, .inner _ outer isPlain level⟩
      | opening =>
          simp only [Reading.step, List.length_append, List.length_singleton] at stepped ⊢
          split at stepped
          · rename_i bound
            obtain rfl := Except.ok.inj stepped
            exact ⟨_, if_pos bound, .inner .new (current :: outer) isPlain level⟩
          · contradiction
      | closing =>
          cases outer with
          | nil =>
              obtain rfl := Except.ok.inj stepped
              exact ⟨_, rfl, .outermost (isPlain.push rfl) (level.push _)⟩
          | cons next outer =>
              obtain rfl := Except.ok.inj stepped
              exact ⟨_, rfl, .inner _ outer isPlain level⟩
      | fault fault => contradiction

theorem Reading.Fronted.run {plain front after : Reading} (fronted : plain.Fronted front)
    {tokens : List Token} (single : ∀ expression, .atom expression ∈ tokens →
      expression.branches = [expression])
    (run : tokens.foldlM Reading.step front = .ok after) :
    ∃ next, tokens.foldlM Reading.step plain = .ok next ∧ next.Fronted after := by
  induction tokens generalizing plain front with
  | nil =>
      obtain rfl := Except.ok.inj run
      exact ⟨plain, rfl, fronted⟩
  | cons token tokens ih =>
      obtain ⟨between, stepped, run⟩ := foldlM_cons_eq_ok_iff.mp run
      have own : ∀ expression, token = .atom expression → expression.branches = [expression] := by
        rintro expression rfl
        exact single expression List.mem_cons_self
      obtain ⟨next, step, related⟩ := fronted.step own stepped
      obtain ⟨last, later, related⟩ := ih related
        (fun expression member => single expression (List.mem_cons_of_mem _ member)) run
      exact ⟨last, foldlM_cons_eq_ok_iff.mpr ⟨next, step, later⟩, related⟩

theorem fault_not_mem {reading after : Reading} {tokens : List Token}
    (run : tokens.foldlM Reading.step reading = .ok after) (fault : Fault) :
    .fault fault ∉ tokens := by
  induction tokens generalizing reading with
  | nil => exact List.not_mem_nil
  | cons token tokens ih =>
      obtain ⟨next, stepped, run⟩ := foldlM_cons_eq_ok_iff.mp run
      intro member
      rcases List.mem_cons.mp member with rfl | member
      · contradiction
      · exact ih run member

theorem branches_of_token (first : Symbol) (symbols : List Symbol) (expression : Expression)
    (atom : (Token.next first symbols).1 = .atom expression) :
    expression.branches = [expression] := by
  have own {other : Expression} (single : other.branches = [other])
      (same : Token.atom other = .atom expression) : expression.branches = [expression] := by
    rw [← Token.atom.inj same]
    exact single
  unfold Token.next at atom
  split at atom
  · exact own rfl atom
  · split at atom
    · exact own rfl atom
    · exact own rfl atom
  · exact own rfl atom
  · exact own rfl atom
  · contradiction
  · contradiction
  · contradiction
  · split at atom
    · exact own rfl atom
    · contradiction
  · exact own rfl atom

theorem branches_of_tokens (further : Nat) (symbols : List Symbol) (expression : Expression)
    (member : .atom expression ∈ tokens further symbols) :
    expression.branches = [expression] := by
  induction symbols generalizing further with
  | nil => cases further <;> contradiction
  | cons first symbols ih =>
      cases further with
      | succ further => exact ih further member
      | zero =>
          rw [tokens] at member
          rcases List.mem_cons.mp member with same | member
          · exact branches_of_token first symbols expression same.symm
          · exact ih _ member

def outerBars : Nat → List Token → Nat
  | _, [] => 0
  | depth, .opening :: rest => outerBars (depth + 1) rest
  | depth, .closing :: rest => outerBars (depth - 1) rest
  | 0, .bar :: rest => outerBars 0 rest + 1
  | depth, _ :: rest => outerBars depth rest

def outermost : Level → List Level → Level
  | current, [] => current
  | _, level :: outer => outermost level outer

def Reading.barsWith (reading : Reading) (rest : List Token) : Nat :=
  (outermost reading.current reading.outer).alternatives.length +
    outerBars reading.outer.length rest

theorem Reading.step_bars {reading next : Reading} {token : Token}
    (stepped : reading.step token = .ok next) (rest : List Token) :
    next.barsWith rest = reading.barsWith (token :: rest) := by
  obtain ⟨current, outer⟩ := reading
  cases token with
  | atom expression =>
      obtain rfl := Except.ok.inj stepped
      cases outer with
      | nil => rfl
      | cons level outer => rfl
  | bar =>
      obtain rfl := Except.ok.inj stepped
      cases outer with
      | nil =>
          simp only [barsWith, outermost, outerBars, Level.split, List.length_cons,
            List.length_nil]
          omega
      | cons level outer => rfl
  | opening =>
      rw [step] at stepped
      split at stepped
      · obtain rfl := Except.ok.inj stepped
        rfl
      · contradiction
  | closing =>
      cases outer with
      | nil => contradiction
      | cons level outer =>
          obtain rfl := Except.ok.inj stepped
          cases outer with
          | nil => rfl
          | cons second outer => rfl
  | fault fault => contradiction

theorem Reading.run_bars {reading last : Reading} {tokens : List Token}
    (run : tokens.foldlM Reading.step reading = .ok last) :
    (outermost last.current last.outer).alternatives.length = reading.barsWith tokens := by
  induction tokens generalizing reading with
  | nil =>
      obtain rfl := Except.ok.inj run
      rfl
  | cons token tokens ih =>
      obtain ⟨next, stepped, run⟩ := foldlM_cons_eq_ok_iff.mp run
      rw [ih run, step_bars stepped]

theorem read_eq_ok_iff (text : List Char) (expression : Expression) :
    read text = .ok expression ↔
      ∃ last, (tokens 0 (symbols text)).foldlM Reading.step .new = .ok last ∧
        last.finish = .ok expression := by
  unfold read
  exact bind_eq_ok_iff

theorem finish_eq_ok_iff (level : Level) (expression : Expression) :
    (Reading.mk level []).finish = .ok expression ↔
      level.finish = expression ∧ expression.height ≤ nestingLimit := by
  simp only [Reading.finish]
  split
  · rename_i bound
    constructor
    · intro finished
      obtain rfl := Except.ok.inj finished
      exact ⟨rfl, bound⟩
    · rintro ⟨rfl, _⟩
      rfl
  · rename_i high
    constructor
    · intro finished
      contradiction
    · rintro ⟨rfl, bound⟩
      contradiction

theorem Reading.Fronted.outermost_of_finish {plain front : Reading}
    (fronted : plain.Fronted front) (closed : front.outer = []) :
    ∃ plainLevel frontLevel : Level, plain = ⟨plainLevel, []⟩ ∧ front = ⟨frontLevel, []⟩ ∧
      plainLevel.Plain ∧ plainLevel.Fronted frontLevel := by
  cases fronted with
  | outermost isPlain level => exact ⟨_, _, rfl, rfl, isPlain, level⟩
  | inner current outer isPlain level => simp at closed

theorem read_between_anchors (symbols : List Symbol) (last : Reading) (expression : Expression)
    (run : (.atom .start :: tokens 0 (symbols ++ [endAnchor])).foldlM Reading.step .new = .ok last)
    (finished : last.finish = .ok expression) :
    ∃ level alternatives, (tokens 0 symbols).foldlM Reading.step .new = .ok ⟨level, []⟩ ∧
      level.finish.height ≤ nestingLimit ∧ expression = ofChoice alternatives ∧
        Anchored level.finish.branches alternatives ∧
          level.finish.branches.length = outerBars 0 (tokens 0 symbols) + 1 := by
  obtain ⟨start, stepped, run⟩ := foldlM_cons_eq_ok_iff.mp run
  obtain rfl := Except.ok.inj stepped
  rw [tokens_before symbols 0 (Nat.zero_le _) (fault_not_mem run)] at run
  obtain ⟨middle, members, ended⟩ := foldlM_append_eq_ok_iff.mp run
  obtain rfl := Except.ok.inj ended
  have initially : Reading.Fronted .new ⟨Level.new.push .start, []⟩ :=
    .outermost ⟨fun _ inside => by contradiction, fun _ inside => by contradiction⟩ (.first [])
  obtain ⟨next, plainRun, fronted⟩ := initially.run (branches_of_tokens 0 symbols) members
  have closed : middle.outer = [] := by
    cases outer : middle.outer with
    | nil => rfl
    | cons level outer =>
        simp [Reading.finish, outer] at finished
  obtain ⟨plain, front, rfl, rfl, isPlain, level⟩ := fronted.outermost_of_finish closed
  obtain ⟨rfl, bound⟩ := (finish_eq_ok_iff ..).mp finished
  have split : plain.finish.branches = plain.split.alternatives.reverse := by
    apply branches_ofChoice
    · simp [Level.split]
    · intro branch inside
      exact isPlain.split.1 branch (List.mem_reverse.mp inside)
  have bars : plain.alternatives.length = outerBars 0 (tokens 0 symbols) := by
    have counted := Reading.run_bars plainRun
    simpa [outermost, Reading.barsWith, Reading.new, Level.new] using counted
  refine ⟨plain, _, plainRun, Nat.le_trans level.anchored.height_le bound, rfl, ?_, ?_⟩
  · rw [split]
    exact level.anchored
  · rw [split, List.length_reverse, Level.split, List.length_cons, bars]

end OpenSoundControl.Expression

namespace OpenSoundControl.Address

open Expression (Anchored Level Reading Spans SpansBetweenAnchors Token)

/-- The commas outside braces and brackets. They become bars, and only these divide the whole. -/
def outerCommas (pattern : List Char) : Nat :=
  Expression.outerBars 0 (Expression.tokens 0 (Expression.symbols (body pattern)))

theorem read_body (pattern : List Char) (expression : Expression)
    (read : Expression.read (anchored (body pattern)) = .ok expression) :
    ∃ plain front, Expression.read (body pattern) = .ok plain ∧ expression = .ofChoice front ∧
      Anchored plain.branches front ∧ plain.branches.length = outerCommas pattern + 1 := by
  have cut : Expression.tokens 0 (.plain '^' :: (patternSymbols pattern ++ [.plain '$'])) =
      .atom .start :: Expression.tokens 0 (patternSymbols pattern ++ [Expression.endAnchor]) := rfl
  rw [Expression.read_eq_ok_iff, symbols_anchored_body, cut] at read
  obtain ⟨last, run, finished⟩ := read
  obtain ⟨level, front, plainRun, bound, same, between, bars⟩ :=
    Expression.read_between_anchors _ last expression run finished
  rw [patternSymbols] at plainRun bars
  refine ⟨level.finish, front, ?_, same, between, bars⟩
  exact (Expression.read_eq_ok_iff ..).mpr
    ⟨⟨level, []⟩, plainRun, (Expression.finish_eq_ok_iff ..).mpr ⟨rfl, bound⟩⟩

theorem read_of_compile {pattern : String} {compiled : Pattern}
    (compiles : Pattern.compile pattern = .ok compiled) :
    Expression.read (anchored (body pattern.toList)) = .ok compiled.expression := by
  rw [Pattern.compile_eq_ok_iff, expressionText, String.toList_ofList] at compiles
  exact compiles.2

/-- A pattern accepts another address exactly if a branch of its expression spans the address as
far as the anchors hold it. There is one branch more than commas outside braces and brackets, and
without such commas it spans the whole address. -/
theorem test_eq_true_iff_branch (pattern : String) (compiled : Pattern)
    (compiles : Pattern.compile pattern = .ok compiled) :
    ∃ plain, Expression.read (body pattern.toList) = .ok plain ∧
      plain.branches.length = outerCommas pattern.toList + 1 ∧
      ∀ address, address ≠ pattern →
        (test address pattern = .ok true ↔
          comparable address pattern = true ∧ hasWildcards pattern = true ∧
            SpansBetweenAnchors address.toList plain.branches) ∧
        (outerCommas pattern.toList = 0 → test address pattern = .ok true →
          Spans address.toList plain 0 address.toList.length) := by
  have read := read_of_compile compiles
  obtain ⟨plain, front, plainRead, whole, between, commas⟩ := read_body pattern.toList _ read
  have accepts (address : String) (different : address ≠ pattern) :
      test address pattern = .ok true ↔
        comparable address pattern = true ∧ hasWildcards pattern = true ∧
          SpansBetweenAnchors address.toList plain.branches := by
    rw [test_eq_true_iff compiles different, Pattern.search, whole, between.occursIn_iff]
  refine ⟨plain, plainRead, commas, ?_⟩
  intro address different
  refine ⟨accepts address different, ?_⟩
  intro none accepted
  have held := ((accepts address different).mp accepted).2.2
  rw [none] at commas
  rw [Expression.branches_of_length commas] at held
  exact (Expression.spansBetweenAnchors_only ..).mp held

def commaOutside : String := "/a,\x7bx,y\x7d"

def commaOutsideBody : Expression :=
  .choice (.sequence (.literal '/') (.literal 'a'))
    (.group (.choice (.literal 'x') (.literal 'y')))

def commaOutsideCompiled : Pattern where
  text := commaOutside
  expression :=
    .choice (.sequence .start (.sequence (.literal '/') (.literal 'a')))
      (.sequence (.group (.choice (.literal 'x') (.literal 'y'))) .finish)

theorem test_eq_true_iff_branch_commaOutside :
    Pattern.compile commaOutside = .ok commaOutsideCompiled ∧
      ∃ plain, Expression.read (body commaOutside.toList) = .ok plain ∧
        plain.branches.length = outerCommas commaOutside.toList + 1 ∧
        ∀ address, address ≠ commaOutside →
          (test address commaOutside = .ok true ↔
            comparable address commaOutside = true ∧ hasWildcards commaOutside = true ∧
              SpansBetweenAnchors address.toList plain.branches) ∧
          (outerCommas commaOutside.toList = 0 → test address commaOutside = .ok true →
            Spans address.toList plain 0 address.toList.length) :=
  ⟨rfl, test_eq_true_iff_branch commaOutside commaOutsideCompiled rfl⟩

theorem test_commaOutside : test "/ab" commaOutside = .ok true ∧
    outerCommas commaOutside.toList = 1 ∧
      Expression.read (body commaOutside.toList) = .ok commaOutsideBody ∧
        ¬Spans "/ab".toList commaOutsideBody 0 "/ab".toList.length := by
  refine ⟨rfl, rfl, rfl, ?_⟩
  intro spans
  have marked := (Expression.marked_sources "/ab".toList commaOutsideBody
    [false, false, false, true] rfl 0).mpr ⟨3, spans, rfl⟩
  exact absurd marked (by unfold Expression.Marked; decide)

end OpenSoundControl.Address
