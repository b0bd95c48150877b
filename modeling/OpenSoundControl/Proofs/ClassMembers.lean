import OpenSoundControl.Proofs.PatternMatching

/-!
What a class of single characters matches. Quoted characters stand for themselves between brackets
too, but so do the replacements of the wildcards, of the braces and of the comma: they are made in
every place of a pattern, and a class then has the characters that were put in.
-/

namespace OpenSoundControl

open Expression (Item Symbol Token symbols tokens)

namespace Address

/-- Characters that have a meaning for the class itself, and the slash, which parts the pattern. -/
def classSyntax : List Char :=
  ['/', '[', ']', '-', '!', '&', '~']

def classReplacements : List (Char × List Char) :=
  [('*', ['.', '*']), ('?', ['.']), (',', ['|']), ('\x7b', ['(']), ('\x7d', [')'])]

/-- The characters that a character between brackets stands for. -/
def standsFor (character : Char) : List Char :=
  (classReplacements.lookup character).getD [character]

theorem standsFor_other {character : Char}
    (other : character ∉ classReplacements.map Prod.fst) : standsFor character = [character] := by
  have absent : classReplacements.lookup character = none := by
    rw [List.lookup_eq_none_iff]
    intro pair member
    rw [bne_iff_ne]
    rintro rfl
    exact other (List.mem_map_of_mem member)
  rw [standsFor, absent, Option.getD_none]

theorem flatMap_standsFor {members : List Char}
    (other : ∀ member ∈ members, member ∉ classReplacements.map Prod.fst) :
    members.flatMap standsFor = members := by
  induction members with
  | nil => rfl
  | cons member members ih =>
      rw [List.flatMap_cons, standsFor_other (other member List.mem_cons_self),
        ih fun member inside => other member (List.mem_cons_of_mem _ inside),
        List.singleton_append]

theorem substitutions_standsFor : ∀ pair ∈ substitutions,
    (symbols pair.2).map Symbol.character = standsFor pair.1 := by
  decide

theorem classReplacements_substituted : ∀ pair ∈ classReplacements,
    (substitutions.lookup pair.1).isSome = true := by
  decide

theorem symbols_spellCharacter (character : Char) :
    (symbols (spellCharacter ' ' character)).map Symbol.character = standsFor character := by
  cases found : substitutions.lookup character with
  | some spelling =>
      rw [spellCharacter, found]
      exact substitutions_standsFor _ (mem_of_lookup found)
  | none =>
      have other : character ∉ classReplacements.map Prod.fst := by
        intro inside
        obtain ⟨pair, listed, rfl⟩ := List.mem_map.mp inside
        have substituted := classReplacements_substituted pair listed
        rw [found] at substituted
        contradiction
      rw [spellCharacter_unchanged found, standsFor_other other]
      rfl

def shaping : List Symbol :=
  [.plain '[', .plain ']', .plain '-', .plain '&', .plain '~', .plain '^']

theorem substitutions_inert : ∀ pair ∈ substitutions, ∀ symbol ∈ symbols pair.2,
    symbol ∉ shaping := by
  decide

theorem spellCharacter_inert {character : Char} (plain : character ∉ classSyntax) :
    ∀ symbol ∈ symbols (spellCharacter ' ' character), symbol ∉ shaping := by
  cases found : substitutions.lookup character with
  | some spelling =>
      rw [spellCharacter, found]
      exact substitutions_inert _ (mem_of_lookup found)
  | none =>
      have caret : character ≠ '^' := by
        rintro rfl
        contradiction
      intro symbol inside
      rw [spellCharacter_unchanged found, symbols] at inside
      obtain rfl := List.mem_singleton.mp inside
      simp only [classSyntax, List.mem_cons, List.not_mem_nil, or_false, not_or] at plain
      simp [shaping, plain, caret]

def rowSymbols (row : List Char) : List Symbol :=
  row.flatMap fun character => symbols (spellCharacter ' ' character)

theorem patternSymbols_row (row pattern : List Char) (plain : '[' ∉ row) :
    patternSymbols (row ++ pattern) = rowSymbols row ++ patternSymbols pattern := by
  induction row with
  | nil => rfl
  | cons character row ih =>
      obtain ⟨other, plain⟩ := not_or.mp (mt List.mem_cons.mpr plain)
      rw [List.cons_append, patternSymbols_cons (Ne.symm other), ih plain, rowSymbols, rowSymbols,
        List.flatMap_cons, List.append_assoc]

theorem character_rowSymbols (row : List Char) :
    (rowSymbols row).map Symbol.character = row.flatMap standsFor := by
  rw [rowSymbols, List.map_flatMap]
  simp only [symbols_spellCharacter]

end Address

namespace Expression

open Address (shaping)

theorem next_inert {first : Symbol} (inert : first ∉ shaping) (symbols : List Symbol) :
    Item.next first symbols = Item.ordinary first symbols := by
  simp only [shaping, List.mem_cons, List.not_mem_nil, or_false, not_or] at inert
  simp [Item.next, inert]

theorem readItems_inert (row behind : List Symbol) (inert : ∀ symbol ∈ row, symbol ∉ shaping)
    (length : Nat) (found : List (Char × Char)) :
    readItems 0 (row ++ .plain ']' :: behind) length found =
      .ok (found ++ row.map fun symbol => (symbol.character, symbol.character),
        length + row.length + 1) := by
  induction row generalizing length found with
  | nil => simp [readItems, Item.next]
  | cons first row ih =>
      have own := inert first List.mem_cons_self
      have later := ih fun symbol inside => inert symbol (List.mem_cons_of_mem _ inside)
      obtain ⟨next, more, split, other⟩ : ∃ next more,
          row ++ .plain ']' :: behind = next :: more ∧ next ≠ Symbol.plain '-' := by
        cases row with
        | nil => exact ⟨_, _, rfl, by decide⟩
        | cons second row =>
            refine ⟨second, _, rfl, ?_⟩
            rintro rfl
            exact inert _ (List.mem_cons_of_mem _ List.mem_cons_self) (by decide)
      rw [List.cons_append, readItems, next_inert own, split, Glob.ordinary_single _ _ _ other]
      simp only [Item.single]
      rw [← split, later]
      simp [Nat.add_right_comm, Nat.add_assoc]

end Expression

namespace Address

open Glob (patternTokens)

def classSet (negated : Bool) (members : List Char) : CharacterSet :=
  ⟨negated, (members.flatMap standsFor).map fun character => (character, character)⟩

def classText (negated : Bool) (members : List Char) : List Char :=
  ['['] ++ (if negated then ['!'] else []) ++ members ++ [']']

theorem classSet_contains (negated : Bool) (members : List Char) (character : Char) :
    (classSet negated members).contains character = true ↔
      (negated = false ↔ character ∈ members.flatMap standsFor) := by
  have listed : ((members.flatMap standsFor).map fun member => (member, member)).any
        (fun range => range.1 ≤ character && character ≤ range.2) = true ↔
      character ∈ members.flatMap standsFor := by
    rw [List.any_map, List.any_eq_true]
    constructor
    · rintro ⟨member, inside, bounds⟩
      simp only [Function.comp, Bool.and_eq_true, decide_eq_true_eq] at bounds
      rwa [Char.le_antisymm bounds.1 bounds.2] at inside
    · intro inside
      exact ⟨character, inside, by simp⟩
  rw [CharacterSet.contains, classSet, ← listed]
  cases negated <;> simp

theorem patternSymbols_classText (negated : Bool) (members pattern : List Char)
    (some : members ≠ []) (plain : ∀ member ∈ members, member ∉ classSyntax) :
    patternSymbols (classText negated members ++ pattern) =
      .plain '[' :: ((if negated then [.plain '^'] else []) ++
        (rowSymbols members ++ .plain ']' :: patternSymbols pattern)) := by
  have noBracket : '[' ∉ members := fun inside => plain _ inside (by decide)
  have row : patternSymbols (members ++ ']' :: pattern) =
      rowSymbols members ++ .plain ']' :: patternSymbols pattern := by
    rw [patternSymbols_row members _ noBracket, Glob.patternSymbols_closing]
  unfold classText
  cases negated with
  | true =>
      simp only [↓reduceIte, List.append_assoc, List.cons_append, List.nil_append]
      rw [patternSymbols_negated, row]
  | false =>
      obtain ⟨first, more, rfl⟩ := List.exists_cons_of_ne_nil some
      have mark : first ≠ '!' := by
        rintro rfl
        exact plain _ List.mem_cons_self (by decide)
      simp only [Bool.false_eq_true, ↓reduceIte, List.append_assoc, List.cons_append,
        List.nil_append]
      rw [patternSymbols_opening mark, ← List.cons_append, row]

theorem inert_rowSymbols {members : List Char}
    (plain : ∀ member ∈ members, member ∉ classSyntax) :
    ∀ symbol ∈ rowSymbols members, symbol ∉ shaping := by
  intro symbol inside
  obtain ⟨member, listed, inside⟩ := List.mem_flatMap.mp inside
  exact spellCharacter_inert (plain member listed) symbol inside

theorem rowSymbols_ne_nil {members : List Char} (some : members ≠ []) :
    rowSymbols members ≠ [] := by
  obtain ⟨first, more, rfl⟩ := List.exists_cons_of_ne_nil some
  obtain ⟨symbol, rest, split, -⟩ := head_spellCharacter ' ' first
  rw [rowSymbols, List.flatMap_cons, split]
  exact List.cons_ne_nil _ _

theorem readSet_rowSymbols (negated : Bool) (members : List Char) (behind : List Symbol)
    (some : members ≠ []) (plain : ∀ member ∈ members, member ∉ classSyntax) :
    Expression.readSet ((if negated then [.plain '^'] else []) ++
        (rowSymbols members ++ .plain ']' :: behind)) =
      .ok (classSet negated members,
        (if negated then 1 else 0) + (rowSymbols members).length + 1) := by
  have inert := inert_rowSymbols plain
  have items := Expression.readItems_inert (rowSymbols members) behind inert
    (if negated then 1 else 0) []
  have ranges : (rowSymbols members).map (fun symbol => (symbol.character, symbol.character)) =
      (members.flatMap standsFor).map fun character => (character, character) := by
    rw [← character_rowSymbols, List.map_map]
    rfl
  rw [ranges, List.nil_append] at items
  obtain ⟨next, more, split⟩ := List.exists_cons_of_ne_nil (rowSymbols_ne_nil some)
  have front := inert next (by rw [split]; exact List.mem_cons_self)
  simp only [shaping, List.mem_cons, List.not_mem_nil, or_false, not_or] at front
  obtain ⟨-, closing, dash, -, -, caret⟩ := front
  rw [split, List.cons_append] at items ⊢
  exact Glob.readSet_items negated next _ caret dash closing _ _ items

theorem patternTokens_classText (negated : Bool) (members pattern : List Char)
    (some : members ≠ []) (plain : ∀ member ∈ members, member ∉ classSyntax) :
    patternTokens (classText negated members ++ pattern) =
      .atom (.oneOf (classSet negated members)) :: patternTokens pattern := by
  have read := readSet_rowSymbols negated members (patternSymbols pattern ++ [.plain '$'])
    some plain
  have skipped := Glob.tokens_skip
    ((if negated then [.plain '^'] else []) ++ (rowSymbols members ++ [.plain ']']))
    (patternSymbols pattern ++ [.plain '$'])
    ((if negated then 1 else 0) + (rowSymbols members).length + 1)
    (by cases negated <;> simp [Nat.add_comm])
  simp only [List.append_assoc, List.singleton_append] at skipped
  unfold Glob.patternTokens
  rw [patternSymbols_classText negated members pattern some plain]
  simp only [List.cons_append, List.append_assoc, tokens, Token.next, read, skipped]

def classPattern (negated : Bool) (members : List Char) : String :=
  String.ofList (['/', 'p'] ++ classText negated members)

def classMembers (negated : Bool) (members : List Char) : List Expression :=
  [.literal '/', .literal 'p', .oneOf (classSet negated members)]

theorem compile_classPattern (negated : Bool) (members : List Char) (some : members ≠ [])
    (plain : ∀ member ∈ members, member ∉ classSyntax) :
    Pattern.compile (classPattern negated members) =
      .ok ⟨classPattern negated members,
        .ofSequence ([.start] ++ classMembers negated members ++ [.finish])⟩ := by
  have cut : tokens 0 (symbols (anchored (body (['/', 'p'] ++ classText negated members)))) =
      [.atom .start, .atom (.literal '/'), .atom (.literal 'p'),
        .atom (.oneOf (classSet negated members)), .atom .finish] := by
    have row := patternTokens_classText negated members [] some plain
    rw [List.append_nil, Glob.patternTokens_nil] at row
    rw [Glob.tokens_anchored, List.cons_append, List.cons_append, List.nil_append,
      Glob.patternTokens_literal (by decide), Glob.patternTokens_literal (by decide), row]
  have read : Expression.read (anchored (body (['/', 'p'] ++ classText negated members))) =
      .ok (.ofSequence ([.start] ++ classMembers negated members ++ [.finish])) := by
    rw [Expression.read, cut]
    rfl
  rw [Pattern.compile, expressionText, classPattern, String.toList_ofList, String.toList_ofList,
    read]

theorem denotes_classMembers (negated : Bool) (members : List Char) :
    (Expression.ofSequence (classMembers negated members)).Denotes fun text =>
      ∃ character, text = ['/', 'p', character] ∧
        (classSet negated members).contains character = true := by
  have slash : (Expression.ofSequence [.literal '/']).Denotes _ := Expression.denotes_literal '/'
  have letter : (Expression.ofSequence [.literal 'p']).Denotes _ := Expression.denotes_literal 'p'
  have set : (Expression.ofSequence [.oneOf (classSet negated members)]).Denotes _ :=
    Expression.denotes_oneOf (classSet negated members)
  refine ((slash.append letter).append set).of_iff fun text => ?_
  constructor
  · rintro ⟨_, _, rfl, ⟨_, _, rfl, ⟨_, rfl, rfl⟩, ⟨_, rfl, rfl⟩⟩, ⟨character, rfl, inside⟩⟩
    exact ⟨character, rfl, inside⟩
  · rintro ⟨character, rfl, inside⟩
    exact ⟨_, _, rfl, ⟨_, _, rfl, ⟨_, rfl, rfl⟩, ⟨_, rfl, rfl⟩⟩, ⟨character, rfl, inside⟩⟩

theorem separator_not_mem_classText (negated : Bool) (members : List Char)
    (plain : ∀ member ∈ members, member ∉ classSyntax) : separator ∉ classText negated members := by
  have absent : separator ∉ members := fun inside => plain _ inside (by decide)
  have mark : separator ∉ if negated then ['!'] else [] := by cases negated <;> decide
  simp only [classText, List.mem_append, absent, mark, or_false]
  decide

theorem comparable_classPattern (negated : Bool) (members : List Char)
    (plain : ∀ member ∈ members, member ∉ classSyntax) (character : Char)
    (other : character ≠ separator) :
    comparable (String.ofList ['/', 'p', character]) (classPattern negated members) = true := by
  have letter : separator ≠ 'p' := by decide
  have address : parts ['/', 'p', character] = [[], ['p', character]] :=
    parts_joined [] [['p', character]] (by simp [letter, Ne.symm other])
  have pattern : parts (['/', 'p'] ++ classText negated members) =
      [[], 'p' :: classText negated members] := by
    have whole : ['/', 'p'] ++ classText negated members =
        joined [] ['p' :: classText negated members] := by simp [joined, separator]
    rw [whole]
    exact parts_joined _ _ (by simp [letter, separator_not_mem_classText negated members plain])
  rw [comparable_iff, classPattern, String.toList_ofList, String.toList_ofList, address, pattern]
  simp

theorem test_classPattern (negated : Bool) (members : List Char) (some : members ≠ [])
    (plain : ∀ member ∈ members, member ∉ classSyntax) (character : Char)
    (other : character ≠ separator) :
    test (String.ofList ['/', 'p', character]) (classPattern negated members) = .ok true ↔
      (negated = false ↔ character ∈ members.flatMap standsFor) := by
  have compiles := compile_classPattern negated members some plain
  have different : String.ofList ['/', 'p', character] ≠ classPattern negated members := by
    intro same
    have length := congrArg (fun text => text.toList.length) same
    simp [classPattern, classText] at length
  have wild : hasWildcards (classPattern negated members) = true := by
    rw [hasWildcards, classPattern, String.toList_ofList, List.any_eq_true]
    exact ⟨'[', by simp [classText], by decide⟩
  rw [test_eq_true_iff compiles different, Pattern.search, String.toList_ofList,
    Expression.occursIn_anchored (denotes_classMembers negated members), ← classSet_contains]
  constructor
  · rintro ⟨-, -, member, same, inside⟩
    obtain rfl : character = member := by simpa using same
    exact inside
  · intro inside
    exact ⟨comparable_classPattern negated members plain character other, wild, character, rfl,
      inside⟩

/-- A class matches what its characters stand for, and a negated class everything else. These are
its characters themselves unless a wildcard, a brace or a comma is among them. -/
theorem test_class_iff (members : List Char) (some : members ≠ [])
    (plain : ∀ member ∈ members, member ∉ classSyntax) (character : Char)
    (other : character ≠ separator) :
    (test (String.ofList ['/', 'p', character])
        (String.ofList (['/', 'p', '['] ++ members ++ [']'])) = .ok true ↔
      character ∈ members.flatMap standsFor) ∧
      (test (String.ofList ['/', 'p', character])
          (String.ofList (['/', 'p', '[', '!'] ++ members ++ [']'])) = .ok true ↔
        character ∉ members.flatMap standsFor) ∧
      ((∀ member ∈ members, member ∉ classReplacements.map Prod.fst) →
        members.flatMap standsFor = members) := by
  refine ⟨?_, ?_, flatMap_standsFor⟩
  · exact (test_classPattern false members some plain character other).trans (by simp)
  · exact (test_classPattern true members some plain character other).trans (by simp)

theorem test_class_iff_sample :
    let members := ['.', '^', '?', '\\']
    members ≠ [] ∧ (∀ member ∈ members, member ∉ classSyntax) ∧
      test "/p\\" "/p[.^?\\]" = .ok true ∧ test "/p?" "/p[!.^?\\]" = .ok true := by
  intro members
  have some : members ≠ [] := by decide
  have plain : ∀ member ∈ members, member ∉ classSyntax := by simp [members, classSyntax]
  obtain ⟨backslash, -, -⟩ := test_class_iff members some plain '\\' (by decide)
  obtain ⟨-, mark, -⟩ := test_class_iff members some plain '?' (by decide)
  exact ⟨some, plain, backslash.mpr (by decide), mark.mpr (by decide)⟩

theorem test_comma_in_class : test "/p," "/p[,]" = .ok false ∧ test "/p|" "/p[,]" = .ok true := by
  constructor <;> rfl

end Address

end OpenSoundControl
