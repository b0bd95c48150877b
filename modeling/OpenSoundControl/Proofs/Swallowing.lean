import OpenSoundControl.Proofs.CacheSoundness
import OpenSoundControl.Proofs.Leaves
import OpenSoundControl.Proofs.Unbracketed

/-!
Wildcards and slashes. A wildcard stands for a slash as for any other character, and nothing but
the number of parts speaks against it. That number counts the slashes of all alternatives of a
group, while a match takes one of them, so the wildcards have to make up for the others.
-/

namespace OpenSoundControl.Expression

open Address (separator)

def separators (expression : Expression) : Nat :=
  expression.leaves.count (.literal separator)

/-- What an expression spans when its wildcards stand for the characters that `wild` allows.
Besides the two positions it counts the slashes in the alternatives that are skipped, and those
that wildcards swallow. -/
inductive Tally (wild : Char → Bool) (text : List Char) :
    Expression → Nat → Nat → Nat → Nat → Prop
  | empty {position} : position ≤ text.length → Tally wild text .empty position position 0 0
  | literal {character position} : text[position]? = some character →
      Tally wild text (.literal character) position (position + 1) 0 0
  | any {character position} : text[position]? = some character → wild character = true →
      Tally wild text .any position (position + 1) 0 ([character].count separator)
  | anyNone {position} : position ≤ text.length → Tally wild text .anyRun position position 0 0
  | anyMore {character position last swallowed} : text[position]? = some character →
      wild character = true → Tally wild text .anyRun (position + 1) last 0 swallowed →
      Tally wild text .anyRun position last 0 ([character].count separator + swallowed)
  | start : Tally wild text .start 0 0 0 0
  | finish : Tally wild text .finish text.length text.length 0 0
  | oneOf {set character position} : text[position]? = some character →
      set.contains character = true → Tally wild text (.oneOf set) position (position + 1) 0 0
  | group {body first last skipped swallowed} :
      Tally wild text body first last skipped swallowed →
      Tally wild text (.group body) first last skipped swallowed
  | sequence {left right first middle last skipped later swallowed behind} :
      Tally wild text left first middle skipped swallowed →
      Tally wild text right middle last later behind →
      Tally wild text (.sequence left right) first last (skipped + later) (swallowed + behind)
  | first {left right first last skipped swallowed} :
      Tally wild text left first last skipped swallowed →
      Tally wild text (.choice left right) first last (skipped + right.separators) swallowed
  | rest {left right first last skipped swallowed} :
      Tally wild text right first last skipped swallowed →
      Tally wild text (.choice left right) first last (left.separators + skipped) swallowed

def SpansWith (wild : Char → Bool) (text : List Char) (expression : Expression)
    (first last : Nat) : Prop :=
  ∃ skipped swallowed, Tally wild text expression first last skipped swallowed

variable {wild : Char → Bool} {text : List Char} {expression : Expression}
  {first last skipped swallowed : Nat}

theorem Tally.spans (tally : Tally isAny text expression first last skipped swallowed) :
    Spans text expression first last := by
  induction tally with
  | empty bound => exact .empty bound
  | literal found => exact .literal found
  | any found allowed => exact .any found allowed
  | anyNone bound => exact .anyNone bound
  | anyMore found allowed _ ih => exact .anyMore found allowed ih
  | start => exact .start
  | finish => exact .finish
  | oneOf found inside => exact .oneOf found inside
  | group _ ih => exact .group ih
  | sequence _ _ left right => exact .sequence left right
  | first _ ih => exact .first ih
  | rest _ ih => exact .rest ih

theorem Spans.spansWith (spans : Spans text expression first last) :
    SpansWith isAny text expression first last := by
  induction spans with
  | empty bound => exact ⟨_, _, .empty bound⟩
  | literal found => exact ⟨_, _, .literal found⟩
  | any found allowed => exact ⟨_, _, .any found allowed⟩
  | anyNone bound => exact ⟨_, _, .anyNone bound⟩
  | anyMore found allowed _ ih =>
      obtain ⟨skipped, swallowed, tally⟩ := ih
      -- A run chooses nothing, so it skips nothing.
      obtain rfl : skipped = 0 := by cases tally <;> rfl
      exact ⟨_, _, .anyMore found allowed tally⟩
  | start => exact ⟨_, _, .start⟩
  | finish => exact ⟨_, _, .finish⟩
  | oneOf found inside => exact ⟨_, _, .oneOf found inside⟩
  | group _ ih =>
      obtain ⟨_, _, tally⟩ := ih
      exact ⟨_, _, .group tally⟩
  | sequence _ _ left right =>
      obtain ⟨_, _, left⟩ := left
      obtain ⟨_, _, right⟩ := right
      exact ⟨_, _, .sequence left right⟩
  | first _ ih =>
      obtain ⟨_, _, tally⟩ := ih
      exact ⟨_, _, .first tally⟩
  | rest _ ih =>
      obtain ⟨_, _, tally⟩ := ih
      exact ⟨_, _, .rest tally⟩

theorem spansWith_isAny_iff :
    SpansWith isAny text expression first last ↔ Spans text expression first last := by
  constructor
  · rintro ⟨_, _, tally⟩
    exact tally.spans
  · exact Spans.spansWith

def withinPart (character : Char) : Bool :=
  isAny character && character ≠ separator

theorem withinPart_iff (character : Char) : withinPart character = true ↔
    isAny character = true ∧ [character].count separator = 0 := by
  simp [withinPart, List.count_singleton]

theorem Tally.widen (tally : Tally withinPart text expression first last skipped swallowed) :
    Tally isAny text expression first last skipped swallowed ∧ swallowed = 0 := by
  induction tally with
  | empty bound => exact ⟨.empty bound, rfl⟩
  | literal found => exact ⟨.literal found, rfl⟩
  | any found allowed =>
      obtain ⟨allowed, none⟩ := (withinPart_iff _).mp allowed
      exact ⟨.any found allowed, none⟩
  | anyNone bound => exact ⟨.anyNone bound, rfl⟩
  | anyMore found allowed _ ih =>
      obtain ⟨allowed, none⟩ := (withinPart_iff _).mp allowed
      exact ⟨.anyMore found allowed ih.1, by rw [none, ih.2]⟩
  | start => exact ⟨.start, rfl⟩
  | finish => exact ⟨.finish, rfl⟩
  | oneOf found inside => exact ⟨.oneOf found inside, rfl⟩
  | group _ ih => exact ⟨.group ih.1, ih.2⟩
  | sequence _ _ left right => exact ⟨.sequence left.1 right.1, by rw [left.2, right.2]⟩
  | first _ ih => exact ⟨.first ih.1, ih.2⟩
  | rest _ ih => exact ⟨.rest ih.1, ih.2⟩

theorem Tally.narrow (tally : Tally isAny text expression first last skipped swallowed)
    (none : swallowed = 0) : Tally withinPart text expression first last skipped swallowed := by
  induction tally with
  | empty bound => exact .empty bound
  | literal found => exact .literal found
  | any found allowed => exact .any found ((withinPart_iff _).mpr ⟨allowed, none⟩)
  | anyNone bound => exact .anyNone bound
  | anyMore found allowed _ ih =>
      obtain ⟨own, later⟩ := Nat.add_eq_zero_iff.mp none
      exact .anyMore found ((withinPart_iff _).mpr ⟨allowed, own⟩) (ih later)
  | start => exact .start
  | finish => exact .finish
  | oneOf found inside => exact .oneOf found inside
  | group _ ih => exact .group (ih none)
  | sequence _ _ left right =>
      obtain ⟨own, later⟩ := Nat.add_eq_zero_iff.mp none
      exact .sequence (left own) (right later)
  | first _ ih => exact .first (ih none)
  | rest _ ih => exact .rest (ih none)

theorem spansWith_withinPart_iff :
    SpansWith withinPart text expression first last ↔
      ∃ skipped, Tally isAny text expression first last skipped 0 := by
  constructor
  · rintro ⟨skipped, _, tally⟩
    obtain ⟨wide, rfl⟩ := tally.widen
    exact ⟨skipped, wide⟩
  · rintro ⟨skipped, tally⟩
    exact ⟨skipped, 0, tally.narrow rfl⟩

/-! The slashes between the two positions are those of the expression, without the skipped ones and
with the swallowed ones. -/

theorem separators_literal (character : Char) :
    (literal character).separators = [character].count separator := by
  by_cases slash : character = separator
  · rw [slash]
    rfl
  · simp [separators, leaves, slash]

theorem separators_sequence (left right : Expression) :
    (sequence left right).separators = left.separators + right.separators :=
  List.count_append

theorem separators_choice (left right : Expression) :
    (choice left right).separators = left.separators + right.separators :=
  List.count_append

theorem separators_group (body : Expression) : (group body).separators = body.separators := rfl

theorem count_take_succ {character : Char} {position : Nat}
    (found : text[position]? = some character) :
    (text.take (position + 1)).count separator =
      (text.take position).count separator + [character].count separator := by
  rw [List.take_add_one, found, List.count_append]
  rfl

theorem Tally.balance (tally : Tally wild text expression first last skipped swallowed)
    (setless : ∀ set, .oneOf set ∉ expression.leaves) :
    (text.take last).count separator + skipped =
      (text.take first).count separator + expression.separators + swallowed := by
  induction tally with
  | empty _ | anyNone _ | start | finish => simp [separators, leaves]
  | literal found => rw [count_take_succ found, separators_literal]
  | any found _ =>
      have own : separators .any = 0 := by decide
      rw [count_take_succ found, own, Nat.add_zero, Nat.add_zero]
  | anyMore found _ _ ih =>
      have later := ih setless
      rw [count_take_succ found] at later
      omega
  | oneOf _ _ => exact absurd List.mem_cons_self (setless _)
  | group _ ih =>
      rw [separators_group]
      exact ih setless
  | sequence _ _ left right =>
      have front := left fun set inside => setless set (List.mem_append_left _ inside)
      have back := right fun set inside => setless set (List.mem_append_right _ inside)
      rw [separators_sequence]
      omega
  | first _ ih =>
      have own := ih fun set inside => setless set (List.mem_append_left _ inside)
      rw [separators_choice]
      omega
  | rest _ ih =>
      have own := ih fun set inside => setless set (List.mem_append_right _ inside)
      rw [separators_choice]
      omega

theorem Tally.skipped_le (tally : Tally wild text expression first last skipped swallowed) :
    skipped ≤ expression.separators := by
  induction tally with
  | group _ ih => exact ih
  | sequence _ _ left right =>
      rw [separators_sequence]
      omega
  | first _ ih | rest _ ih =>
      rw [separators_choice]
      omega
  | _ => exact Nat.zero_le _

/-- No alternative has a slash in it, unless it is the only one. -/
def Undivided : Expression → Prop
  | .group body => body.Undivided
  | .sequence first rest => first.Undivided ∧ rest.Undivided
  | .choice first rest => first.separators = 0 ∧ rest.separators = 0
  | _ => True

theorem Tally.skipped_eq_zero (tally : Tally wild text expression first last skipped swallowed)
    (undivided : expression.Undivided) : skipped = 0 := by
  induction tally with
  | group _ ih => exact ih undivided
  | sequence _ _ left right => rw [left undivided.1, right undivided.2]
  | first tally _ =>
      have own := tally.skipped_le
      obtain ⟨left, right⟩ := undivided
      omega
  | rest tally _ =>
      have own := tally.skipped_le
      obtain ⟨left, right⟩ := undivided
      omega
  | _ => rfl

end OpenSoundControl.Expression

namespace OpenSoundControl

open Expression (SpansWith Tally Token isAny withinPart)

/-- `Pattern.accepts` with wildcards for the characters that `wild` allows. -/
def Pattern.AcceptsWith (wild : Char → Bool) (pattern : Pattern) (address : String) : Prop :=
  Address.comparable address pattern.text = true ∧
    (address = pattern.text ∨ Address.hasWildcards pattern.text = true ∧
      ∃ first last, SpansWith wild address.toList pattern.expression first last)

theorem Pattern.acceptsWith_isAny_iff (pattern : Pattern) (address : String) :
    pattern.AcceptsWith isAny address ↔ pattern.accepts address = true := by
  simp only [AcceptsWith, accepts, search, Bool.and_eq_true, Bool.or_eq_true, beq_iff_eq,
    Expression.occursIn_iff, Expression.spansWith_isAny_iff]

namespace Address

theorem leaves_characterToken (character : Char) :
    (∀ set, .oneOf set ∉ (characterToken character).leaves) ∧
      (characterToken character).leaves.count (.literal separator) =
        [character].count separator := by
  unfold characterToken
  split
  · exact ⟨fun _ => by simp [Token.leaves, Expression.leaves], by decide⟩
  · exact ⟨fun _ => by simp [Token.leaves, Expression.leaves], by decide⟩
  · exact ⟨fun _ => List.not_mem_nil, by decide⟩
  · exact ⟨fun _ => List.not_mem_nil, by decide⟩
  · exact ⟨fun _ => List.not_mem_nil, by decide⟩
  · exact ⟨fun _ => by simp [Token.leaves, Expression.leaves],
      Expression.separators_literal character⟩

theorem leaves_characterTokens (pattern : List Char) :
    (∀ set, .oneOf set ∉ (pattern.map characterToken).flatMap Token.leaves) ∧
      ((pattern.map characterToken).flatMap Token.leaves).count (.literal separator) =
        pattern.count separator := by
  induction pattern with
  | nil => exact ⟨fun _ => List.not_mem_nil, rfl⟩
  | cons character pattern ih =>
      obtain ⟨setless, count⟩ := leaves_characterToken character
      rw [List.map_cons, List.flatMap_cons, List.count_append, ih.2, count, ← List.count_append]
      refine ⟨?_, rfl⟩
      intro set inside
      obtain own | later := List.mem_append.mp inside
      · exact setless set own
      · exact ih.1 set later

section

variable {pattern : String} {compiled : Pattern}
  (compiles : Pattern.compile pattern = .ok compiled) (noBracket : '[' ∉ pattern.toList)

include compiles

theorem spans_compiled (inside : outerCommas pattern.toList = 0) {text : List Char}
    {first last : Nat} (spans : Expression.Spans text compiled.expression first last) :
    first = 0 ∧ last = text.length := by
  obtain ⟨plain, front, -, whole, anchored, commas⟩ :=
    read_body pattern.toList _ (read_of_compile compiles)
  rw [inside, Nat.zero_add] at commas
  rw [whole] at spans
  generalize plain.branches = branches at anchored commas
  cases anchored with
  | only members =>
      simp only [Expression.ofChoice, Expression.spans_append_finish,
        Expression.spans_start_cons] at spans
      exact ⟨spans.2.1, spans.1⟩
  | several first last middle => simp at commas

include noBracket

theorem leaves_compiled : (∀ set, .oneOf set ∉ compiled.expression.leaves) ∧
    compiled.expression.separators = pattern.toList.count separator := by
  obtain ⟨setless, count⟩ := leaves_characterTokens pattern.toList
  have leaves := Expression.leaves_read (read_of_compile compiles)
  rw [tokens_anchored_body _ noBracket] at leaves
  simp only [List.flatMap_cons, List.flatMap_append, List.flatMap_nil, List.append_nil,
    Token.leaves, Expression.leaves] at leaves
  rw [Expression.separators, leaves]
  constructor
  · intro set inside
    simp [setless] at inside
  · simp [count]

theorem swallowed_eq_skipped (inside : commasOutside 0 pattern.toList = 0) {address : String}
    (alike : comparable address pattern = true) {first last skipped swallowed : Nat}
    (tally : Tally isAny address.toList compiled.expression first last skipped swallowed) :
    swallowed = skipped := by
  obtain ⟨setless, count⟩ := leaves_compiled compiles noBracket
  rw [← outerCommas_unbracketed _ noBracket] at inside
  obtain ⟨rfl, rfl⟩ := spans_compiled compiles inside tally.spans
  have parts := ((comparable_iff ..).mp alike).1
  rw [length_parts, length_parts] at parts
  have balance := tally.balance setless
  rw [List.take_length, List.take_zero, List.count_nil, count] at balance
  omega

theorem acceptsWith_withinPart_iff (inside : commasOutside 0 pattern.toList = 0)
    (address : String) :
    compiled.AcceptsWith withinPart address ↔
      compiled.AcceptsWith isAny address ∧ (address = pattern ∨
        ∃ first last, Tally isAny address.toList compiled.expression first last 0 0) := by
  have text : compiled.text = pattern := ((Pattern.compile_eq_ok_iff ..).mp compiles).1
  rw [Pattern.AcceptsWith, Pattern.AcceptsWith, text]
  simp only [Expression.spansWith_withinPart_iff]
  constructor
  · rintro ⟨alike, same | ⟨wild, first, last, skipped, tally⟩⟩
    · exact ⟨⟨alike, .inl same⟩, .inl same⟩
    · obtain rfl := swallowed_eq_skipped compiles noBracket inside alike tally
      exact ⟨⟨alike, .inr ⟨wild, first, last, _, _, tally⟩⟩, .inr ⟨first, last, tally⟩⟩
  · rintro ⟨⟨alike, same | ⟨wild, -⟩⟩, equal | ⟨first, last, tally⟩⟩
    · exact ⟨alike, .inl same⟩
    · exact ⟨alike, .inl same⟩
    · exact ⟨alike, .inl equal⟩
    · exact ⟨alike, .inr ⟨wild, first, last, 0, tally⟩⟩

theorem acceptsWith_withinPart_of_undivided (inside : commasOutside 0 pattern.toList = 0)
    (undivided : compiled.expression.Undivided) {address : String}
    (accepted : compiled.AcceptsWith isAny address) :
    compiled.AcceptsWith withinPart address := by
  rw [acceptsWith_withinPart_iff compiles noBracket inside]
  refine ⟨accepted, ?_⟩
  have text : compiled.text = pattern := ((Pattern.compile_eq_ok_iff ..).mp compiles).1
  obtain ⟨alike, same | ⟨-, first, last, skipped, swallowed, tally⟩⟩ := accepted
  · rw [text] at same
    exact .inl same
  · rw [text] at alike
    obtain rfl := tally.skipped_eq_zero undivided
    obtain rfl := swallowed_eq_skipped compiles noBracket inside alike tally
    exact .inr ⟨first, last, tally⟩

end

/-- Wildcards that keep to one part of the address give the same answer exactly if the address is
refused, or is the pattern itself, or has a match that skips no slash. -/
theorem test_within_part (pattern : String) (compiled : Pattern)
    (compiles : Pattern.compile pattern = .ok compiled) (noBracket : '[' ∉ pattern.toList)
    (inside : commasOutside 0 pattern.toList = 0) (address : String) :
    ∃ answer, test address pattern = .ok answer ∧
      (compiled.AcceptsWith isAny address ↔ answer = true) ∧
      (comparable address pattern = true → ∀ first last skipped swallowed,
        Tally isAny address.toList compiled.expression first last skipped swallowed →
          swallowed = skipped) ∧
      (compiled.AcceptsWith withinPart address ↔ answer = true ∧ (address = pattern ∨
        ∃ first last, Tally isAny address.toList compiled.expression first last 0 0)) ∧
      (compiled.expression.Undivided →
        (compiled.AcceptsWith withinPart address ↔ answer = true)) := by
  have accepts := compiled.acceptsWith_isAny_iff address
  have narrow := acceptsWith_withinPart_iff compiles noBracket inside address
  refine ⟨compiled.accepts address, test_of_compile compiles address, accepts, ?_, ?_, ?_⟩
  · intro alike first last skipped swallowed tally
    exact swallowed_eq_skipped compiles noBracket inside alike tally
  · rw [narrow, accepts]
  · intro undivided
    rw [← accepts]
    constructor
    · intro kept
      exact (narrow.mp kept).1
    · exact acceptsWith_withinPart_of_undivided compiles noBracket inside undivided

def divided : Pattern where
  text := "/\x7ba/b,c\x7d*"
  expression :=
    .sequence .start (.sequence (.literal '/') (.sequence
      (.group (.choice (.sequence (.literal 'a') (.sequence (.literal '/') (.literal 'b')))
        (.literal 'c')))
      (.sequence .anyRun .finish)))

theorem tally_divided : Tally isAny "/a/bx".toList divided.expression 0 5 0 0 := by
  have found : "/a/bx".toList[4]? = some 'x' := rfl
  have allowed : isAny 'x' = true := rfl
  have front : Tally isAny "/a/bx".toList (.literal '/') 0 1 0 0 := .literal rfl
  have chosen : Tally isAny "/a/bx".toList
      (.sequence (.literal 'a') (.sequence (.literal '/') (.literal 'b'))) 1 4 0 0 :=
    .sequence (.literal rfl) (.sequence (.literal rfl) (.literal rfl))
  have run := Tally.anyMore found allowed (.anyNone (Nat.le_refl 5))
  exact .sequence .start (front.sequence (chosen.first.group.sequence (run.sequence .finish)))

theorem test_within_part_divided :
    Pattern.compile divided.text = .ok divided ∧ '[' ∉ divided.text.toList ∧
      commasOutside 0 divided.text.toList = 0 ∧ divided.AcceptsWith withinPart "/a/bx" := by
  have noBracket : '[' ∉ divided.text.toList := by decide
  have inside : commasOutside 0 divided.text.toList = 0 := by decide
  obtain ⟨answer, tested, -, -, narrow, -⟩ :=
    test_within_part divided.text divided rfl noBracket inside "/a/bx"
  have accepted : test "/a/bx" divided.text = .ok true := rfl
  obtain rfl := Except.ok.inj (tested.symm.trans accepted)
  exact ⟨rfl, noBracket, inside, narrow.mpr ⟨rfl, .inr ⟨0, 5, tally_divided⟩⟩⟩

theorem test_swallowing : Pattern.compile divided.text = .ok divided ∧
    '[' ∉ divided.text.toList ∧ commasOutside 0 divided.text.toList = 0 ∧
      test "/cx/y" divided.text = .ok true ∧ ¬divided.AcceptsWith withinPart "/cx/y" := by
  refine ⟨rfl, by decide, by decide, rfl, ?_⟩
  rintro ⟨-, same | ⟨-, first, last, skipped, swallowed, tally⟩⟩
  · exact absurd same (by decide)
  · -- Behind the slash stands no `a`, so the run starts behind the `c` and meets the other slash.
    match tally with
    | .sequence .start (.sequence (.literal _) (.sequence (.group (.first letters)) _)) =>
        match letters with
        | .sequence (.literal found) _ => exact absurd found (by decide)
    | .sequence .start (.sequence (.literal _)
        (.sequence (.group (.rest (.literal _))) (.sequence run .finish))) =>
        cases run with
        | anyMore _ _ run =>
            cases run with
            | anyMore found allowed _ =>
                obtain rfl := Option.some.inj found
                exact absurd allowed (by decide)

end Address

end OpenSoundControl
