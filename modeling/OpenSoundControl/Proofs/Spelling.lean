import OpenSoundControl.Address.ExpressionText
import OpenSoundControl.Expression.Symbol

/-!
The replacements, made one kind after the other, give what a single pass gives, and the symbols of
the result can be read off the pattern character by character.
-/

namespace OpenSoundControl.Address

open Expression (Symbol symbols)

def replacement (character : Char) : List Char :=
  (substitutions.lookup character).getD [character]

theorem foldl_substitute (pairs : List (Char × List Char)) (text : List Char) :
    pairs.foldl substitute text = text.flatMap fun character =>
      pairs.foldl substitute [character] := by
  induction pairs generalizing text with
  | nil => simp
  | cons pair pairs ih =>
      rw [List.foldl_cons, ih, substitute, List.flatMap_assoc]
      congr 1
      funext character
      rw [List.foldl_cons, ih (substitute [character] pair), substitute, List.flatMap_singleton]

theorem foldl_substitute_other (pairs : List (Char × List Char)) (character : Char)
    (other : ∀ pair ∈ pairs, character ≠ pair.1) :
    pairs.foldl substitute [character] = [character] := by
  induction pairs with
  | nil => rfl
  | cons pair pairs ih =>
      have unchanged : substitute [character] pair = [character] := by
        rw [substitute, List.flatMap_singleton, if_neg (other pair List.mem_cons_self)]
      rw [List.foldl_cons, unchanged]
      exact ih fun pair member => other pair (List.mem_cons_of_mem _ member)

theorem replacement_other {character : Char}
    (other : ∀ pair ∈ substitutions, character ≠ pair.1) : replacement character = [character] := by
  have absent : substitutions.lookup character = none := by
    rw [List.lookup_eq_none_iff]
    intro pair member
    simpa using other pair member
  rw [replacement, absent, Option.getD_none]

theorem foldl_substitutions (character : Char) :
    substitutions.foldl substitute [character] = replacement character := by
  by_cases special : ∃ pair ∈ substitutions, character = pair.1
  · obtain ⟨pair, member, rfl⟩ := special
    revert pair
    decide
  · have other : ∀ pair ∈ substitutions, character ≠ pair.1 := by
      intro pair member same
      exact special ⟨pair, member, same⟩
    rw [foldl_substitute_other _ _ other, replacement_other other]

theorem foldl_substitutions_text (text : List Char) :
    substitutions.foldl substitute text = text.flatMap replacement := by
  rw [foldl_substitute]
  simp only [foldl_substitutions]

theorem mem_of_lookup {character : Char} {spelling : List Char}
    (found : substitutions.lookup character = some spelling) :
    (character, spelling) ∈ substitutions := by
  obtain ⟨before, after, split, -⟩ := List.lookup_eq_some_iff.mp found
  rw [split]
  exact List.mem_append_right _ List.mem_cons_self

theorem spellCharacter_unchanged {character : Char}
    (absent : substitutions.lookup character = none) :
    spellCharacter ' ' character = [character] := by
  rw [spellCharacter, absent]
  rfl

/-! What is put in for a character is never part of a negation: it holds neither a bracket nor an
exclamation mark. -/

theorem substitutions_plain : ∀ pair ∈ substitutions,
    pair.1 ≠ '[' ∧ pair.2 ≠ [] ∧ '[' ∉ pair.2 ∧ '!' ∉ pair.2 := by
  decide

def negateFrom (previous : Char) (text : List Char) : List Char :=
  List.zipWith negateBehind (previous :: text) text

theorem negateFrom_cons (previous character : Char) (text : List Char) :
    negateFrom previous (character :: text) =
      negateBehind previous character :: negateFrom character text := rfl

theorem negateFrom_unmarked (previous : Char) (text : List Char)
    (unmarked : ¬(previous = '[' ∧ text.head? = some '!')) :
    negateFrom previous text = negateFrom ' ' text := by
  cases text with
  | nil => rfl
  | cons character text =>
      have unchanged : negateBehind previous character = character :=
        if_neg (by simpa using unmarked)
      rw [negateFrom_cons, negateFrom_cons, unchanged]
      rfl

theorem negateFrom_other {previous : Char} (other : previous ≠ '[') (text : List Char) :
    negateFrom previous text = negateFrom ' ' text :=
  negateFrom_unmarked previous text fun unmarked => other unmarked.1

theorem negateFrom_append (previous : Char) (front back : List Char) (some : front ≠ [])
    (bracket : '[' ∉ front) (mark : '!' ∉ front) :
    negateFrom previous (front ++ back) = front ++ negateFrom ' ' back := by
  induction front generalizing previous with
  | nil => contradiction
  | cons character front ih =>
      obtain ⟨notBracket, bracket⟩ := not_or.mp (mt List.mem_cons.mpr bracket)
      obtain ⟨notMark, mark⟩ := not_or.mp (mt List.mem_cons.mpr mark)
      have unchanged : negateBehind previous character = character := by
        rw [negateBehind, if_neg]
        rintro ⟨-, rfl⟩
        contradiction
      rw [List.cons_append, negateFrom_cons, unchanged, List.cons_append]
      cases front with
      | nil => rw [List.nil_append, List.nil_append, negateFrom_other (Ne.symm notBracket)]
      | cons next front => rw [ih character (List.cons_ne_nil _ _) bracket mark]

def spellFrom (previous : Char) (pattern : List Char) : List Char :=
  (List.zipWith spellCharacter (previous :: pattern) pattern).flatten

theorem spellFrom_cons (previous character : Char) (pattern : List Char) :
    spellFrom previous (character :: pattern) =
      spellCharacter previous character ++ spellFrom character pattern := rfl

theorem spellFrom_unmarked (previous : Char) (pattern : List Char)
    (unmarked : ¬(previous = '[' ∧ pattern.head? = some '!')) :
    spellFrom previous pattern = spellFrom ' ' pattern := by
  cases pattern with
  | nil => rfl
  | cons character pattern =>
      have unchanged : negateBehind previous character = negateBehind ' ' character := by
        rw [negateBehind, if_neg (by simpa using unmarked)]
        rfl
      rw [spellFrom_cons, spellFrom_cons, spellCharacter, spellCharacter, unchanged]

theorem spellFrom_other {previous : Char} (other : previous ≠ '[') (pattern : List Char) :
    spellFrom previous pattern = spellFrom ' ' pattern :=
  spellFrom_unmarked previous pattern fun unmarked => other unmarked.1

theorem negateFrom_replacement (previous : Char) (pattern : List Char) :
    negateFrom previous (pattern.flatMap replacement) = spellFrom previous pattern := by
  induction pattern generalizing previous with
  | nil => rfl
  | cons character pattern ih =>
      rw [List.flatMap_cons, spellFrom_cons, replacement, spellCharacter]
      cases found : substitutions.lookup character with
      | none =>
          rw [Option.getD_none, List.singleton_append, negateFrom_cons, ih]
          rfl
      | some spelling =>
          obtain ⟨notBracket, some, bracket, mark⟩ := substitutions_plain _ (mem_of_lookup found)
          rw [Option.getD_some, negateFrom_append _ _ _ some bracket mark, ih,
            spellFrom_other notBracket]

theorem body_eq_spell (pattern : List Char) : body pattern = spell pattern := by
  rw [body, foldl_substitutions_text]
  exact negateFrom_replacement ' ' pattern

/-! Every spelling either quotes one character or holds no backslash at all, so the symbols of a
spelling do not depend on what follows it. -/

theorem substitutions_quoting : ∀ pair ∈ substitutions,
    pair.2 = ['\\', pair.1] ∨ '\\' ∉ pair.2 := by
  decide

theorem symbols_plain_append (front back : List Char) (plain : '\\' ∉ front) :
    symbols (front ++ back) = front.map Symbol.plain ++ symbols back := by
  induction front with
  | nil => rfl
  | cons character front ih =>
      obtain ⟨other, plain⟩ := not_or.mp (mt List.mem_cons.mpr plain)
      rw [List.cons_append, List.map_cons, List.cons_append, ← ih plain]
      cases front ++ back with
      | nil => rfl
      | cons => rw [symbols, if_neg (Ne.symm other)]

theorem symbols_spellCharacter_append (previous character : Char) (text : List Char) :
    symbols (spellCharacter previous character ++ text) =
      symbols (spellCharacter previous character) ++ symbols text := by
  have plain (front : List Char) (absent : '\\' ∉ front) :
      symbols (front ++ text) = symbols front ++ symbols text := by
    have alone := symbols_plain_append front [] absent
    rw [List.append_nil] at alone
    rw [symbols_plain_append front text absent, alone, symbols, List.append_nil]
  unfold spellCharacter
  cases found : substitutions.lookup character with
  | none =>
      have absent : '\\' ∉ [negateBehind previous character] := by
        intro member
        have same := List.mem_singleton.mp member
        rw [negateBehind] at same
        split at same
        · contradiction
        · rw [← same] at found
          contradiction
      exact plain _ absent
  | some spelling =>
      obtain quoted | absent := substitutions_quoting _ (mem_of_lookup found)
      · simp only at quoted
        rw [quoted]
        rfl
      · exact plain _ absent

theorem symbols_spellFrom_append (previous : Char) (pattern text : List Char) :
    symbols (spellFrom previous pattern ++ text) =
      symbols (spellFrom previous pattern) ++ symbols text := by
  induction pattern generalizing previous with
  | nil => rfl
  | cons character pattern ih =>
      rw [spellFrom_cons, List.append_assoc, symbols_spellCharacter_append,
        symbols_spellCharacter_append, ih, List.append_assoc]

@[irreducible] def patternSymbols (pattern : List Char) : List Symbol :=
  symbols (body pattern)

theorem symbols_anchored_body (pattern : List Char) :
    symbols (anchored (body pattern)) =
      .plain '^' :: (patternSymbols pattern ++ [.plain '$']) := by
  unfold anchored patternSymbols
  rw [List.append_assoc, symbols_plain_append ['^'] _ (by decide), body_eq_spell]
  exact congrArg _ (symbols_spellFrom_append ' ' pattern ['$'])

theorem patternSymbols_cons {character : Char} (other : character ≠ '[') (pattern : List Char) :
    patternSymbols (character :: pattern) =
      symbols (spellCharacter ' ' character) ++ patternSymbols pattern := by
  simp only [patternSymbols, body_eq_spell]
  change symbols (spellFrom ' ' (character :: pattern)) = _
  rw [spellFrom_cons, spellFrom_other other, symbols_spellCharacter_append]
  rfl

theorem patternSymbols_negated (pattern : List Char) :
    patternSymbols ('[' :: '!' :: pattern) =
      .plain '[' :: .plain '^' :: patternSymbols pattern := by
  simp only [patternSymbols, body_eq_spell]
  change symbols (['['] ++ (['^'] ++ spellFrom '!' pattern)) = _
  rw [spellFrom_other (by decide), symbols_plain_append _ _ (by decide),
    symbols_plain_append _ _ (by decide)]
  rfl

theorem patternSymbols_opening {character : Char} (other : character ≠ '!')
    (pattern : List Char) :
    patternSymbols ('[' :: character :: pattern) =
      .plain '[' :: patternSymbols (character :: pattern) := by
  have same : spellFrom '[' (character :: pattern) = spellFrom ' ' (character :: pattern) := by
    rw [spellFrom_cons, spellFrom_cons, spellCharacter, spellCharacter]
    simp [negateBehind, other]
  simp only [patternSymbols, body_eq_spell]
  change symbols (['['] ++ spellFrom '[' (character :: pattern)) = _
  rw [same, symbols_plain_append _ _ (by decide)]
  rfl

/-! A star is only put in behind a dot. -/

theorem substitutions_head : ∀ pair ∈ substitutions, ∃ first more,
    symbols pair.2 = first :: more ∧ first ≠ .plain '*' := by
  intro pair member
  have head : (symbols pair.2).head?.any (· ≠ .plain '*') = true := by
    revert pair
    decide
  cases found : symbols pair.2 with
  | nil => simp [found] at head
  | cons first more => exact ⟨first, more, rfl, by simpa [found] using head⟩

theorem head_spellCharacter (previous character : Char) : ∃ first more,
    symbols (spellCharacter previous character) = first :: more ∧ first ≠ .plain '*' := by
  unfold spellCharacter
  cases found : substitutions.lookup character with
  | some spelling => exact substitutions_head _ (mem_of_lookup found)
  | none =>
      refine ⟨.plain (negateBehind previous character), [], by rw [symbols], ?_⟩
      intro same
      have star := Symbol.plain.inj same
      rw [negateBehind] at star
      split at star
      · contradiction
      · rw [star] at found
        contradiction

theorem head_patternSymbols (pattern : List Char) :
    (patternSymbols pattern).head? ≠ some (.plain '*') := by
  unfold patternSymbols
  rw [body_eq_spell]
  cases pattern with
  | nil => exact Option.some_ne_none _ ∘ Eq.symm
  | cons character pattern =>
      change (symbols (spellFrom ' ' (character :: pattern))).head? ≠ _
      obtain ⟨first, more, head, other⟩ := head_spellCharacter ' ' character
      rw [spellFrom_cons, symbols_spellCharacter_append, head, List.cons_append, List.head?_cons]
      exact fun same => other (Option.some.inj same)

end OpenSoundControl.Address
