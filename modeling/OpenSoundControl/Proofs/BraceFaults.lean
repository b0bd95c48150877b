import OpenSoundControl.Proofs.Nesting

/-!
Which patterns without brackets compile. Braces are all that can be wrong with one: where they are
balanced there is an expression, unless it nests too deeply, and where they are not there is none.
-/

namespace OpenSoundControl.Address

open Expression (Fault Level Reading Token nestingLimit)

def readingBegun : Reading := ⟨Level.new.push .start, []⟩

def finishAnchored (reading : Reading) : Except Fault Expression :=
  Reading.finish ⟨reading.current.push .finish, reading.outer⟩

theorem regular_readingBegun : readingBegun.Regular :=
  ⟨Level.regular_new.push (Expression.single_of_unchained nofun nofun),
    fun _ inside => absurd inside List.not_mem_nil⟩

theorem read_unbracketed (pattern : List Char) (noBracket : '[' ∉ pattern) :
    Expression.read (anchored (body pattern)) =
      ((pattern.map characterToken).foldlM Reading.step readingBegun).bind finishAnchored := by
  rw [Expression.read, tokens_anchored_body pattern noBracket, List.foldlM_cons]
  change (((pattern.map characterToken ++ [Token.atom .finish]).foldlM Reading.step
    readingBegun).bind Reading.finish) = _
  rw [List.foldlM_append]
  cases (pattern.map characterToken).foldlM Reading.step readingBegun with
  | error fault => rfl
  | ok last => rfl

def braceFault (pattern : List Char) : Fault :=
  if ¬Closable 0 pattern then .unopenedGroup
  else if pattern.count '\x7d' ≠ pattern.count '\x7b' then .unclosedGroup
  else .nestedTooDeeply

theorem opened_run (pattern : List Char) :
    ((pattern.map characterToken).foldlM Reading.step readingBegun).map (·.outer.length) =
      pattern.foldlM depthStep 0 :=
  foldlM_opened pattern readingBegun

theorem exists_run_iff (pattern : List Char) (opened : Nat) :
    (∃ last, (pattern.map characterToken).foldlM Reading.step readingBegun = .ok last ∧
        last.outer.length = opened) ↔
      Closable 0 pattern ∧ Shallow 0 nestingLimit pattern ∧
        opened + pattern.count '\x7d' = pattern.count '\x7b' := by
  have depths := foldlM_depthStep_eq_ok_iff (Nat.zero_le nestingLimit) pattern opened
  rw [← opened_run, map_eq_ok_iff, Nat.zero_add] at depths
  exact depths

theorem finishAnchored_eq_ok_iff {pattern : List Char} {last : Reading}
    (run : (pattern.map characterToken).foldlM Reading.step readingBegun = .ok last) :
    (∃ expression, finishAnchored last = .ok expression) ↔
      last.outer = [] ∧ nesting pattern ≤ nestingLimit := by
  obtain ⟨regular, same⟩ := foldlM_nest regular_readingBegun run
  obtain ⟨current, outer⟩ := last
  have closing : (current.push .finish).Regular :=
    regular.1.push (Expression.single_of_unchained nofun nofun)
  have height : (current.push .finish).finish.height = nesting pattern := by
    rw [closing.height_finish, Level.extent_push, nesting]
    exact congrArg (fun nest : Expression.Nest => (nest.current.push 0).height) same
  cases outer with
  | nil =>
      simp only [finishAnchored, Expression.finish_eq_ok_iff, height, true_and, exists_eq_left']
  | cons level outer => simp [finishAnchored, Reading.finish]

theorem finishAnchored_error {last : Reading} {fault : Fault}
    (failed : finishAnchored last = .error fault) :
    fault = if last.outer ≠ [] then .unclosedGroup else .nestedTooDeeply := by
  obtain ⟨current, outer⟩ := last
  cases outer with
  | cons level outer => exact (Except.error.inj failed).symm
  | nil =>
      simp only [finishAnchored, Reading.finish] at failed
      split at failed
      · contradiction
      · exact (Except.error.inj failed).symm

section

variable {pattern : List Char} (noBracket : '[' ∉ pattern)

include noBracket

theorem read_iff_balanced :
    (∃ expression, Expression.read (anchored (body pattern)) = .ok expression) ↔
      Balanced pattern ∧ nesting pattern ≤ nestingLimit := by
  rw [read_unbracketed pattern noBracket]
  constructor
  · rintro ⟨expression, read⟩
    obtain ⟨last, run, finished⟩ := bind_eq_ok_iff.mp read
    obtain ⟨closed, within⟩ := (finishAnchored_eq_ok_iff run).mp ⟨expression, finished⟩
    obtain ⟨closable, -, count⟩ := (exists_run_iff pattern 0).mp ⟨last, run, by rw [closed]; rfl⟩
    exact ⟨⟨closable, by rwa [Nat.zero_add] at count⟩, within⟩
  · rintro ⟨balanced, within⟩
    have shallow : Shallow 0 nestingLimit pattern := fun front inside =>
      Nat.le_trans (shallow_nesting balanced front inside) (Nat.add_le_add_right within _)
    obtain ⟨last, run, closed⟩ := (exists_run_iff pattern 0).mpr
      ⟨balanced.closable, shallow, by rw [Nat.zero_add, balanced.closed]⟩
    obtain ⟨expression, finished⟩ := (finishAnchored_eq_ok_iff run).mpr
      ⟨List.length_eq_zero_iff.mp closed, within⟩
    exact ⟨expression, bind_eq_ok_iff.mpr ⟨last, run, finished⟩⟩

theorem fault_of_read {fault : Fault} (shallow : Shallow 0 nestingLimit pattern)
    (failed : Expression.read (anchored (body pattern)) = .error fault) :
    fault = braceFault pattern := by
  rw [read_unbracketed pattern noBracket] at failed
  cases run : (pattern.map characterToken).foldlM Reading.step readingBegun with
  | error early =>
      have depths := opened_run pattern
      rw [run] at depths failed
      obtain rfl := Except.error.inj failed
      have unclosable : ¬Closable 0 pattern := by
        intro closable
        have whole := closable pattern ((List.mem_inits ..).mpr List.prefix_rfl)
        obtain ⟨last, complete, -⟩ := (exists_run_iff pattern
          (pattern.count '\x7b' - pattern.count '\x7d')).mpr ⟨closable, shallow, by omega⟩
        rw [complete] at run
        contradiction
      rw [foldlM_depthStep_unopened shallow unclosable] at depths
      rw [braceFault, if_pos unclosable]
      exact Except.error.inj depths
  | ok last =>
      obtain ⟨closable, -, count⟩ := (exists_run_iff pattern _).mp ⟨last, run, rfl⟩
      rw [run] at failed
      rw [finishAnchored_error failed, braceFault, if_neg (not_not_intro closable)]
      have unclosed : last.outer ≠ [] ↔ pattern.count '\x7d' ≠ pattern.count '\x7b' := by
        rw [not_iff_not, ← List.length_eq_zero_iff]
        omega
      exact if_congr unclosed rfl rfl

end

/-- A pattern without brackets compiles exactly if its braces are balanced and it does not nest too
deeply, which fifteen braces inside each other never do. No other character makes it fail. -/
theorem compiles_iff_balanced (pattern : String) (noBracket : '[' ∉ pattern.toList) :
    ((∃ compiled, Pattern.compile pattern = .ok compiled) ↔
        Balanced pattern.toList ∧ nesting pattern.toList ≤ nestingLimit) ∧
      (Balanced pattern.toList → ∀ depth, Shallow 0 depth pattern.toList →
        nesting pattern.toList ≤ 3 * depth + 3) ∧
      ∀ error, Pattern.compile pattern = .error error → ∃ fault,
        error = .invalidPattern pattern (.expression fault) ∧
          (Shallow 0 nestingLimit pattern.toList → fault = braceFault pattern.toList) := by
  have text : (expressionText pattern).toList = anchored (body pattern.toList) :=
    String.toList_ofList
  refine ⟨?_, fun balanced depth shallow => nesting_le balanced shallow, ?_⟩
  · rw [← read_iff_balanced noBracket, ← text]
    constructor
    · rintro ⟨compiled, compiles⟩
      exact ⟨_, ((Pattern.compile_eq_ok_iff ..).mp compiles).2⟩
    · rintro ⟨expression, read⟩
      exact ⟨⟨pattern, expression⟩, (Pattern.compile_eq_ok_iff ..).mpr ⟨rfl, read⟩⟩
  · intro error failed
    obtain ⟨fault, read, same⟩ := (Pattern.compile_eq_error_iff ..).mp failed
    rw [text] at read
    exact ⟨fault, same, fun shallow => fault_of_read noBracket shallow read⟩

def crowded : String := "/\x7b?*\\*+\x7b^$,(|.)]\x7d*?\x7d\\"

def unopened : String := "/*]\x7d\x7b?,("

theorem compiles_iff_balanced_crowded :
    '[' ∉ crowded.toList ∧ (∃ compiled, Pattern.compile crowded = .ok compiled) ∧
      nesting crowded.toList = 6 ∧
      Pattern.compile unopened =
        .error (.invalidPattern unopened (.expression .unopenedGroup)) := by
  have noBracket : '[' ∉ crowded.toList := by decide
  have compiles := (compiles_iff_balanced crowded noBracket).1.mpr ⟨by decide, by decide⟩
  obtain ⟨balances, -, fails⟩ := compiles_iff_balanced unopened (by decide)
  refine ⟨noBracket, compiles, by decide, ?_⟩
  cases outcome : Pattern.compile unopened with
  | ok compiled => exact absurd (balances.mp ⟨compiled, outcome⟩).1 (by decide)
  | error error =>
      obtain ⟨fault, rfl, same⟩ := fails error outcome
      rw [same (by decide)]
      rfl

end OpenSoundControl.Address
