import OpenSoundControl.Proofs.Denotation
import OpenSoundControl.Proofs.Parts
import OpenSoundControl.Proofs.PatternCompilation

/-!
Matching addresses against patterns, part by part. The expression of a pattern denotes its parts
one after the other with a slash between them, and an address with as many parts has no slash to
spare for the inside of a part.
-/

namespace OpenSoundControl.Glob

open Expression (ofChoice ofSequence)

theorem Member.contains_iff (member : Member) (character : Char) :
    member.Contains character ↔ member.bounds.1 ≤ character ∧ character ≤ member.bounds.2 := by
  cases member with
  | single own alphanumeric =>
      constructor
      · intro same
        rw [Member.Contains] at same
        rw [same]
        exact ⟨Char.le_refl _, Char.le_refl _⟩
      · rintro ⟨lower, upper⟩
        exact Char.le_antisymm upper lower
  | range first last _ _ _ => exact Iff.rfl

theorem CharacterClass.contains_iff (set : CharacterClass) (character : Char) :
    set.set.contains character = true ↔ set.Contains character := by
  have listed : set.set.ranges.any
        (fun range => range.1 ≤ character && character ≤ range.2) = true ↔
      ∃ member ∈ set.members, member.Contains character := by
    simp only [CharacterClass.set, List.any_map, List.any_eq_true, Function.comp,
      Bool.and_eq_true, decide_eq_true_eq, Member.contains_iff]
  rw [CharacterClass.Contains, ← listed, CharacterSet.contains]
  have same : set.set.negated = set.negated := rfl
  by_cases negated : set.negated = true <;> simp [same, negated]

theorem denotes_atom (atom : Atom) : atom.expression.Denotes atom.Matches := by
  cases atom with
  | literal own ordinary =>
      refine (Expression.denotes_literal own).of_iff fun text => ?_
      simp [Atom.Matches]
  | one =>
      refine Expression.denotes_any.of_iff fun text => ?_
      simp [Atom.Matches, Expression.isAny]
  | run =>
      refine Expression.denotes_anyRun.of_iff fun text => ?_
      simp only [Atom.Matches, Expression.isAny, decide_eq_true_eq]
      exact ⟨fun all inside => all _ inside rfl, fun absent _ inside same => absent (same ▸ inside)⟩
  | oneOf set =>
      refine (Expression.denotes_oneOf set.set).of_iff fun text => ?_
      simp only [Atom.Matches, set.contains_iff]

mutual

theorem denotes_sequence (part : Sequence) :
    (ofSequence part.members).Denotes part.Matches := by
  cases part with
  | nil => exact Expression.denotes_empty
  | atom first rest =>
      have alone : (ofSequence [first.expression]).Denotes first.Matches := denotes_atom first
      exact alone.append (denotes_sequence rest)
  | group alternatives rest =>
      have alone : (ofSequence [.group (ofChoice alternatives.branches)]).Denotes
          alternatives.Matches := (denotes_alternatives alternatives).group
      exact alone.append (denotes_sequence rest)

theorem denotes_alternatives (alternatives : Alternatives) :
    (ofChoice alternatives.branches).Denotes alternatives.Matches := by
  cases alternatives with
  | only last => exact denotes_sequence last
  | more first rest =>
      have choice := (denotes_sequence first).choice (denotes_alternatives rest)
      cases rest with
      | only last => exact choice
      | more second rest => exact choice

end

theorem denotes_later (parts : List Sequence) :
    (ofSequence (laterMembers parts)).Denotes fun text => ∃ pieces,
      List.Forall₂ Sequence.Matches parts pieces ∧
        text = pieces.flatMap fun piece => [Address.separator] ++ piece := by
  induction parts with
  | nil =>
      refine Expression.denotes_empty.of_iff fun text => ?_
      simp [List.forall₂_nil_left_iff]
  | cons part parts ih =>
      have slash : (ofSequence [.literal Address.separator]).Denotes (· = [Address.separator]) := by
        refine (Expression.denotes_literal _).of_iff fun text => ?_
        simp
      refine ((slash.append (denotes_sequence part)).append ih).of_iff fun text => ?_
      constructor
      · rintro ⟨front, rest, rfl, ⟨left, piece, rfl, rfl, matched⟩, pieces, all, rfl⟩
        exact ⟨piece :: pieces, .cons matched all, rfl⟩
      · rintro ⟨pieces, all, rfl⟩
        cases all with
        | cons matched all =>
            exact ⟨_, _, rfl, ⟨_, _, rfl, rfl, matched⟩, _, all, rfl⟩

theorem denotes_members (glob : Glob) :
    (ofSequence glob.members).Denotes fun text => ∃ first later,
      List.Forall₂ Sequence.Matches glob.parts (first :: later) ∧
        text = Address.joined first later := by
  refine ((denotes_sequence glob.first).append (denotes_later glob.later)).of_iff fun text => ?_
  constructor
  · rintro ⟨first, rest, rfl, matched, later, all, rfl⟩
    exact ⟨first, later, .cons matched all, rfl⟩
  · rintro ⟨first, later, all, rfl⟩
    cases all with
    | cons matched all => exact ⟨first, _, rfl, matched, later, all, rfl⟩

theorem occursIn_expression (glob : Glob) (text : List Char)
    (length : (Address.parts text).length = glob.parts.length) :
    glob.expression.occursIn text = true ↔
      List.Forall₂ Sequence.Matches glob.parts (Address.parts text) := by
  rw [expression, anchoredMembers, Expression.occursIn_anchored (denotes_members glob)]
  constructor
  · rintro ⟨first, later, all, rfl⟩
    rw [Address.parts_joined_of_length first later (length.trans all.length_eq)]
    exact all
  · intro all
    obtain ⟨first, later, split, joined, -⟩ := Address.parts_eq_cons text
    rw [split] at all
    exact ⟨first, later, all, joined⟩

/-! The parts of the text of a pattern, and patterns without wildcards. -/

theorem Member.separator_not_mem (member : Member) : Address.separator ∉ member.print := by
  have other {character : Char} (alphanumeric : character.isAlphanum = true) :
      Address.separator ≠ character := by
    rintro rfl
    contradiction
  cases member with
  | single character alphanumeric => simp [Member.print, other alphanumeric]
  | range first last firstAlphanumeric lastAlphanumeric ordered =>
      have dash : Address.separator ≠ '-' := by decide
      simp [Member.print, other firstAlphanumeric, other lastAlphanumeric, dash]

theorem CharacterClass.separator_not_mem (set : CharacterClass) :
    Address.separator ∉ set.print := by
  have members : Address.separator ∉ set.members.flatMap Member.print := by
    intro inside
    obtain ⟨member, -, inside⟩ := List.mem_flatMap.mp inside
    exact member.separator_not_mem inside
  have mark : Address.separator ∉ if set.negated then ['!'] else [] := by
    cases set.negated <;> decide
  simp only [CharacterClass.print, List.mem_append, members, mark, or_false]
  decide

theorem Atom.separator_not_mem (atom : Atom) : Address.separator ∉ atom.print := by
  cases atom with
  | literal character ordinary =>
      intro inside
      obtain rfl := List.mem_singleton.mp inside
      exact ordinary (by decide)
  | one => decide
  | run => decide
  | oneOf set => exact set.separator_not_mem

mutual

theorem Sequence.separator_not_mem (part : Sequence) : Address.separator ∉ part.print := by
  cases part with
  | nil => exact List.not_mem_nil
  | atom first rest =>
      simp only [Sequence.print, List.mem_append, first.separator_not_mem,
        rest.separator_not_mem, or_false, not_false_eq_true]
  | group alternatives rest =>
      simp only [Sequence.print, List.mem_append, alternatives.separator_not_mem,
        rest.separator_not_mem, or_false]
      decide

theorem Alternatives.separator_not_mem (alternatives : Alternatives) :
    Address.separator ∉ alternatives.print := by
  cases alternatives with
  | only last => exact last.separator_not_mem
  | more first rest =>
      simp only [Alternatives.print, List.mem_append, first.separator_not_mem,
        rest.separator_not_mem, or_false, false_or]
      decide

end

theorem print_eq_joined (glob : Glob) :
    glob.print = Address.joined glob.first.print (glob.later.map Sequence.print) := by
  rw [print, Address.joined, List.flatMap_map]
  rfl

theorem parts_text (glob : Glob) :
    Address.parts glob.text.toList = glob.parts.map Sequence.print := by
  rw [text, String.toList_ofList, print_eq_joined, parts, List.map_cons]
  refine Address.parts_joined _ _ ?_
  intro part inside
  rw [← List.map_cons] at inside
  obtain ⟨source, -, rfl⟩ := List.mem_map.mp inside
  exact source.separator_not_mem

theorem mem_print_of_part (glob : Glob) {part : Sequence} (inside : part ∈ glob.parts)
    {character : Char} (found : character ∈ part.print) : character ∈ glob.print := by
  rw [print]
  obtain rfl | later := List.mem_cons.mp inside
  · exact List.mem_append_left _ found
  · exact List.mem_append_right _ (List.mem_flatMap.mpr ⟨part, later, List.mem_cons_of_mem _ found⟩)

theorem Sequence.matches_plain : ∀ part : Sequence,
    (∀ character ∈ part.print, character ∉ Address.wildcards) →
    ∀ text, part.Matches text → text = part.print
  | .nil, _, text, matched => matched
  | .atom first rest, plain, text, matched => by
      obtain ⟨front, back, rfl, own, later⟩ := matched
      rw [matches_plain rest (fun character inside => plain character
        (List.mem_append_right _ inside)) back later]
      have head := fun character inside => plain character (List.mem_append_left rest.print inside)
      cases first with
      | literal character ordinary => exact congrArg (· ++ rest.print) own
      | one => exact absurd (by decide) (head '?' List.mem_cons_self)
      | run => exact absurd (by decide) (head '*' List.mem_cons_self)
      | oneOf set => exact absurd (by decide) (head '[' List.mem_cons_self)
  | .group alternatives rest, plain, text, matched =>
      absurd (by decide) (plain '\x7b' List.mem_cons_self)

theorem matches_plain (glob : Glob) (plain : Address.hasWildcards glob.text = false)
    (pieces : List (List Char)) (all : List.Forall₂ Sequence.Matches glob.parts pieces) :
    pieces = glob.parts.map Sequence.print := by
  have own (part : Sequence) (inside : part ∈ glob.parts) :
      ∀ character ∈ part.print, character ∉ Address.wildcards := by
    intro character found wildcard
    rw [Address.hasWildcards, text, String.toList_ofList, List.any_eq_false] at plain
    exact plain character (glob.mem_print_of_part inside found) (by simpa using wildcard)
  generalize glob.parts = parts at all own
  induction all with
  | nil => rfl
  | cons matched all ih =>
      rw [List.map_cons, Sequence.matches_plain _ (own _ List.mem_cons_self) _ matched,
        ih fun part inside => own part (List.mem_cons_of_mem _ inside)]

theorem compile_text (glob : Glob) (bound : glob.depth ≤ Expression.nestingLimit) :
    Pattern.compile glob.text = .ok ⟨glob.text, glob.expression⟩ := by
  rw [Pattern.compile, glob.read_anchored bound]

theorem eq_text_of_plain (glob : Glob) (plain : Address.hasWildcards glob.text = false)
    (address : String)
    (all : List.Forall₂ Sequence.Matches glob.parts (Address.parts address.toList)) :
    address = glob.text := by
  have pieces := glob.matches_plain plain _ all
  rw [← parts_text] at pieces
  exact String.toList_inj.mp (Address.parts_injective pieces)

theorem decided?_iff (glob : Glob) (address : String) (answer : Bool)
    (decided : Address.decided? address glob.text = some answer) :
    answer = true ↔ Address.comparable address glob.text = true ∧
      (address = glob.text ∨
        List.Forall₂ Sequence.Matches glob.parts (Address.parts address.toList)) := by
  constructor
  · rintro rfl
    obtain ⟨comparable, same⟩ := (Address.decided?_eq_true_iff ..).mp decided
    exact ⟨comparable, .inl same⟩
  · rintro ⟨comparable, matched⟩
    have same : address = glob.text := by
      obtain same | all := matched
      · exact same
      · by_contra different
        have plain : Address.hasWildcards glob.text = false := by
          by_contra wild
          have undecided := (Address.decided?_eq_none_iff address glob.text).mpr
            ⟨comparable, different, by simpa using wild⟩
          rw [decided] at undecided
          contradiction
        exact different (glob.eq_text_of_plain plain address all)
    have accepted := (Address.decided?_eq_true_iff address glob.text).mpr ⟨comparable, same⟩
    rw [decided] at accepted
    exact Option.some.inj accepted

/-- Every pattern within the nesting limit gives an answer for every address, and the answer goes
part by part. -/
theorem test_iff_parts_match (glob : Glob) (bound : glob.depth ≤ Expression.nestingLimit)
    (address : String) :
    ∃ answer, Address.test address glob.text = .ok answer ∧
      (answer = true ↔
        (Address.parts address.toList).length = (Address.parts glob.text.toList).length ∧
        (∀ part ∈ (Address.parts address.toList).tail, part ≠ []) ∧
        (∀ part ∈ (Address.parts glob.text.toList).tail, part ≠ []) ∧
        (address = glob.text ∨
          List.Forall₂ Sequence.Matches glob.parts (Address.parts address.toList))) := by
  have parted (matched : Prop) : Address.comparable address glob.text = true ∧ matched ↔
      (Address.parts address.toList).length = (Address.parts glob.text.toList).length ∧
        (∀ part ∈ (Address.parts address.toList).tail, part ≠ []) ∧
        (∀ part ∈ (Address.parts glob.text.toList).tail, part ≠ []) ∧ matched := by
    rw [Address.comparable_iff, and_assoc, and_assoc]
  rw [← parted, Address.test]
  cases decided : Address.decided? address glob.text with
  | some answer => exact ⟨answer, rfl, glob.decided?_iff address answer decided⟩
  | none =>
      obtain ⟨comparable, different, -⟩ := (Address.decided?_eq_none_iff ..).mp decided
      have length : (Address.parts address.toList).length = glob.parts.length := by
        rw [((Address.comparable_iff ..).mp comparable).1, parts_text, List.length_map]
      refine ⟨glob.expression.occursIn address.toList, ?_, ?_⟩
      · rw [glob.compile_text bound]
        rfl
      · rw [glob.occursIn_expression _ length]
        simp [comparable, different]

def lettered : Glob where
  first := .nil
  later :=
    [.atom (.literal 'a' (by decide))
      (.group
        (.more (.atom (.literal 'b' (by decide)) .nil) (.only (.atom .one .nil)))
        (.atom .run
          (.atom (.oneOf ⟨true, .range '0' '9' (by decide) (by decide) (by decide), []⟩) .nil)))]

theorem matches_lettered :
    List.Forall₂ Sequence.Matches lettered.parts (Address.parts "/ac1x".toList) := by
  have letter : CharacterClass.Contains
      ⟨true, .range '0' '9' (by decide) (by decide) (by decide), []⟩ 'x' := by
    constructor
    · nofun
    · rintro ⟨member, isMember, inside⟩
      obtain rfl := List.mem_singleton.mp isMember
      exact absurd inside.2 (by decide)
  have other : Alternatives.Matches
      (.more (.atom (.literal 'b' (by decide)) .nil) (.only (.atom .one .nil))) ['c'] :=
    .inr ⟨['c'], [], rfl, ⟨'c', rfl, by decide⟩, rfl⟩
  have run : Atom.Matches .run ['1'] := by
    change '\n' ∉ ['1']
    decide
  refine .cons rfl (.cons ?_ .nil)
  refine ⟨['a'], ['c', '1', 'x'], rfl, rfl, ['c'], ['1', 'x'], rfl, other, ?_⟩
  exact ⟨['1'], ['x'], rfl, run, ['x'], [], rfl, ⟨'x', rfl, letter⟩, rfl⟩

theorem test_iff_parts_match_lettered : lettered.depth ≤ Expression.nestingLimit ∧
    lettered.text = "/a\x7bb,?\x7d*[!0-9]" ∧
    Address.test "/ac1x" lettered.text = .ok true := by
  have bound : lettered.depth ≤ Expression.nestingLimit := by decide
  obtain ⟨answer, tested, accepted⟩ := test_iff_parts_match lettered bound "/ac1x"
  have whole : answer = true :=
    accepted.mpr ⟨by decide, by decide, by decide, .inr matches_lettered⟩
  rw [whole] at tested
  exact ⟨bound, by decide, tested⟩

end OpenSoundControl.Glob
