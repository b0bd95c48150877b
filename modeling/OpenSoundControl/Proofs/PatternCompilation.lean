import OpenSoundControl.Proofs.Chains
import OpenSoundControl.Proofs.PatternLanguage
import OpenSoundControl.Proofs.Spelling
import OpenSoundControl.Expression.Reading

/-!
The expression that a pattern becomes. The text of the pattern is spelled anew, cut into tokens and
read, and at each stage the outcome for a pattern is put together from those for its parts.
-/

namespace OpenSoundControl.Glob

open Address (patternSymbols spellCharacter substitutions)
open Expression (Item Level Reading Symbol Token nestingLimit symbols tokens)

def Member.bounds : Member → Char × Char
  | .single character _ => (character, character)
  | .range first last _ _ _ => (first, last)

def CharacterClass.set (set : CharacterClass) : CharacterSet :=
  ⟨set.negated, set.members.map Member.bounds⟩

def Atom.expression : Atom → Expression
  | .literal character _ => .literal character
  | .one => .any
  | .run => .anyRun
  | .oneOf set => .oneOf set.set

mutual

def Sequence.members : Sequence → List Expression
  | .nil => []
  | .atom first rest => first.expression :: rest.members
  | .group alternatives rest => .group (.ofChoice alternatives.branches) :: rest.members

def Alternatives.branches : Alternatives → List Expression
  | .only last => [.ofSequence last.members]
  | .more first rest => .ofSequence first.members :: rest.branches

end

mutual

def Sequence.tokens : Sequence → List Token
  | .nil => []
  | .atom first rest => [.atom first.expression] ++ rest.tokens
  | .group alternatives rest => [.opening] ++ alternatives.tokens ++ [.closing] ++ rest.tokens

def Alternatives.tokens : Alternatives → List Token
  | .only last => last.tokens
  | .more first rest => first.tokens ++ [.bar] ++ rest.tokens

end

/-! Characters that stand for themselves are either quoted or have no meaning in expressions. -/

theorem substitutions_special : ∀ pair ∈ substitutions,
    pair.1 ∈ special ∨ pair.2 = ['\\', pair.1] := by
  decide

theorem substitutions_alphanumeric : ∀ pair ∈ substitutions, pair.1.isAlphanum = false := by
  decide +kernel

theorem patternSymbols_unchanged {character : Char} (other : character ≠ '[')
    (absent : substitutions.lookup character = none) (pattern : List Char) :
    patternSymbols (character :: pattern) = .plain character :: patternSymbols pattern := by
  rw [Address.patternSymbols_cons other, Address.spellCharacter_unchanged absent, symbols,
    List.singleton_append]

theorem lookup_alphanumeric {character : Char} (alphanumeric : character.isAlphanum = true) :
    substitutions.lookup character = none := by
  rw [List.lookup_eq_none_iff]
  intro pair member
  have other := substitutions_alphanumeric pair member
  rw [bne_iff_ne]
  rintro rfl
  rw [alphanumeric] at other
  contradiction

theorem patternSymbols_alphanumeric {character : Char}
    (alphanumeric : character.isAlphanum = true) (pattern : List Char) :
    patternSymbols (character :: pattern) = .plain character :: patternSymbols pattern := by
  refine patternSymbols_unchanged ?_ (lookup_alphanumeric alphanumeric) pattern
  rintro rfl
  contradiction

/-! The class that a pattern writes is the set that the expression reads. -/

theorem patternSymbols_dash (pattern : List Char) :
    patternSymbols ('-' :: pattern) = .plain '-' :: patternSymbols pattern :=
  patternSymbols_unchanged (by decide) rfl pattern

theorem patternSymbols_closing (pattern : List Char) :
    patternSymbols (']' :: pattern) = .plain ']' :: patternSymbols pattern :=
  patternSymbols_unchanged (by decide) rfl pattern

theorem patternSymbols_member (member : Member) (pattern : List Char) :
    patternSymbols (member.print ++ pattern) =
      member.print.map Symbol.plain ++ patternSymbols pattern := by
  cases member with
  | single character alphanumeric => exact patternSymbols_alphanumeric alphanumeric pattern
  | range first last firstAlphanumeric lastAlphanumeric ordered =>
      change patternSymbols (first :: '-' :: last :: pattern) = _
      rw [patternSymbols_alphanumeric firstAlphanumeric, patternSymbols_dash,
        patternSymbols_alphanumeric lastAlphanumeric]
      rfl

theorem patternSymbols_members (members : List Member) (pattern : List Char) :
    patternSymbols (members.flatMap Member.print ++ pattern) =
      (members.flatMap Member.print).map Symbol.plain ++ patternSymbols pattern := by
  induction members with
  | nil => rfl
  | cons member members ih =>
      rw [List.flatMap_cons, List.append_assoc, patternSymbols_member, ih, List.map_append,
        List.append_assoc]

theorem Member.exists_print (member : Member) : ∃ character more,
    character.isAlphanum = true ∧ member.print = character :: more := by
  cases member with
  | single character alphanumeric => exact ⟨character, [], alphanumeric, rfl⟩
  | range first last firstAlphanumeric _ _ => exact ⟨first, ['-', last], firstAlphanumeric, rfl⟩

def CharacterClass.symbols (set : CharacterClass) : List Symbol :=
  (if set.negated then [.plain '^'] else []) ++
    (set.members.flatMap Member.print).map Symbol.plain

theorem patternSymbols_class (set : CharacterClass) (pattern : List Char) :
    patternSymbols (set.print ++ pattern) =
      .plain '[' :: (set.symbols ++ .plain ']' :: patternSymbols pattern) := by
  have members : patternSymbols (set.members.flatMap Member.print ++ ']' :: pattern) =
      (set.members.flatMap Member.print).map Symbol.plain ++
        .plain ']' :: patternSymbols pattern := by
    rw [patternSymbols_members, patternSymbols_closing]
  unfold CharacterClass.print CharacterClass.symbols
  by_cases negated : set.negated = true
  · simp only [negated, ↓reduceIte, List.append_assoc, List.cons_append, List.nil_append]
    rw [Address.patternSymbols_negated, members]
  · obtain ⟨character, more, alphanumeric, print⟩ := set.first.exists_print
    have front : set.members.flatMap Member.print =
        character :: (more ++ set.later.flatMap Member.print) := by
      rw [CharacterClass.members, List.flatMap_cons, print, List.cons_append]
    have plain : character ≠ '!' := by
      rintro rfl
      contradiction
    simp only [negated, Bool.false_eq_true, ↓reduceIte, List.append_assoc, List.cons_append,
      List.nil_append]
    rw [← members, front, List.cons_append, Address.patternSymbols_opening plain]

theorem alphanumeric_ne {character : Char} (alphanumeric : character.isAlphanum = true)
    (other : Char) (punctuation : other.isAlphanum = false) :
    Symbol.plain character ≠ .plain other := by
  rintro ⟨rfl⟩
  rw [alphanumeric] at punctuation
  contradiction

theorem next_alphanumeric {character : Char} (alphanumeric : character.isAlphanum = true)
    (symbols : List Symbol) :
    Item.next (.plain character) symbols = Item.ordinary (.plain character) symbols := by
  have closing := alphanumeric_ne alphanumeric ']' (by decide)
  have opening := alphanumeric_ne alphanumeric '[' (by decide)
  have ampersand := alphanumeric_ne alphanumeric '&' (by decide)
  have dash := alphanumeric_ne alphanumeric '-' (by decide)
  have tilde := alphanumeric_ne alphanumeric '~' (by decide)
  simp only [Item.next, closing, opening, ampersand, dash, tilde, false_and, ↓reduceIte]

theorem ordinary_single (first next : Symbol) (symbols : List Symbol) (other : next ≠ .plain '-') :
    Item.ordinary first (next :: symbols) = .single first := by
  cases symbols with
  | nil => rfl
  | cons last symbols => simp only [Item.ordinary, other, false_and, ↓reduceIte]

theorem ordinary_range {first last : Char} (alphanumeric : last.isAlphanum = true)
    (ordered : first ≤ last) (symbols : List Symbol) :
    Item.ordinary (.plain first) (.plain '-' :: .plain last :: symbols) =
      .members [(first, last)] 2 := by
  have closing := alphanumeric_ne alphanumeric ']' (by decide)
  have dash := alphanumeric_ne alphanumeric '-' (by decide)
  simp only [Item.ordinary, Item.range, Symbol.character, ne_eq, closing, dash, not_false_eq_true,
    and_self, ordered, ↓reduceIte]

theorem readItems_member (member : Member) (next : Symbol) (symbols : List Symbol)
    (other : next ≠ .plain '-') (length : Nat) (found : List (Char × Char)) :
    Expression.readItems 0 (member.print.map Symbol.plain ++ next :: symbols) length found =
      Expression.readItems 0 (next :: symbols) (length + member.print.length)
        (found ++ [member.bounds]) := by
  cases member with
  | single character alphanumeric =>
      simp only [Member.print, List.map_cons, List.map_nil, List.singleton_append,
        Expression.readItems, next_alphanumeric alphanumeric, ordinary_single _ _ _ other]
      rfl
  | range first last firstAlphanumeric lastAlphanumeric ordered =>
      simp only [Member.print, List.map_cons, List.map_nil, List.cons_append, List.nil_append,
        Expression.readItems, next_alphanumeric firstAlphanumeric,
        ordinary_range lastAlphanumeric ordered]
      rfl

theorem exists_front (members : List Member) (symbols : List Symbol) : ∃ next more,
    next ≠ Symbol.plain '-' ∧
      (members.flatMap Member.print).map Symbol.plain ++ .plain ']' :: symbols = next :: more := by
  cases members with
  | nil => exact ⟨_, symbols, by decide, rfl⟩
  | cons member members =>
      obtain ⟨character, more, alphanumeric, print⟩ := member.exists_print
      rw [List.flatMap_cons, print, List.cons_append, List.map_cons, List.cons_append]
      exact ⟨_, _, alphanumeric_ne alphanumeric _ (by decide), rfl⟩

theorem readItems_members (members : List Member) (symbols : List Symbol) (length : Nat)
    (found : List (Char × Char)) :
    Expression.readItems 0
        ((members.flatMap Member.print).map Symbol.plain ++ .plain ']' :: symbols) length found =
      .ok (found ++ members.map Member.bounds,
        length + (members.flatMap Member.print).length + 1) := by
  induction members generalizing length found with
  | nil => simp [Expression.readItems, Item.next]
  | cons member members ih =>
      obtain ⟨next, more, other, split⟩ := exists_front members symbols
      rw [List.flatMap_cons, List.map_append, List.append_assoc, split,
        readItems_member member next more other, ← split, ih]
      simp only [List.append_assoc, List.map_cons, List.singleton_append, List.length_append,
        Nat.add_assoc]

theorem readSet_items (negated : Bool) (next : Symbol) (symbols : List Symbol)
    (caret : next ≠ .plain '^') (dash : next ≠ .plain '-') (closing : next ≠ .plain ']')
    (ranges : List (Char × Char)) (length : Nat)
    (items : Expression.readItems 0 (next :: symbols) (if negated then 1 else 0) [] =
      .ok (ranges, length)) :
    Expression.readSet ((if negated then [.plain '^'] else []) ++ next :: symbols) =
      .ok (⟨negated, ranges⟩, length) := by
  unfold Expression.readSet
  cases negated with
  | true =>
      rw [if_pos rfl] at items
      simp [dash, closing, items]
  | false =>
      rw [if_neg Bool.false_ne_true] at items
      simp [dash, closing, beq_eq_false_iff_ne.mpr caret, items]

theorem readSet_class (set : CharacterClass) (symbols : List Symbol) :
    Expression.readSet (set.symbols ++ .plain ']' :: symbols) =
      .ok (set.set, set.symbols.length + 1) := by
  obtain ⟨character, more, alphanumeric, print⟩ := set.first.exists_print
  have items := readItems_members set.members symbols (if set.negated then 1 else 0) []
  have front : (set.members.flatMap Member.print).map Symbol.plain ++ .plain ']' :: symbols =
      .plain character :: ((more ++ set.later.flatMap Member.print).map Symbol.plain ++
        .plain ']' :: symbols) := by
    rw [CharacterClass.members, List.flatMap_cons, print, List.cons_append, List.map_cons,
      List.cons_append]
  have length : set.symbols.length =
      (if set.negated then 1 else 0) + (set.members.flatMap Member.print).length := by
    unfold CharacterClass.symbols
    cases set.negated <;> simp [Nat.add_comm]
  rw [front] at items
  have read := readSet_items _ _ _ (alphanumeric_ne alphanumeric _ (by decide))
    (alphanumeric_ne alphanumeric _ (by decide)) (alphanumeric_ne alphanumeric _ (by decide))
    _ _ items
  rw [← front, ← List.append_assoc] at read
  rw [length]
  exact read

/-! The tokens of a pattern, which the anchor at the end follows. -/

def patternTokens (pattern : List Char) : List Token :=
  tokens 0 (patternSymbols pattern ++ [.plain '$'])

theorem tokens_anchored (pattern : List Char) :
    tokens 0 (symbols (Address.anchored (Address.body pattern))) =
      .atom .start :: patternTokens pattern := by
  rw [Address.symbols_anchored_body, tokens]
  rfl

theorem tokens_skip (front back : List Symbol) (count : Nat) (size : front.length = count) :
    tokens count (front ++ back) = tokens 0 back := by
  induction front generalizing count with
  | nil => rw [← size, List.length_nil, List.nil_append]
  | cons symbol front ih =>
      cases count with
      | zero => contradiction
      | succ count => exact ih count (Nat.succ.inj size)

theorem spellCharacter_ordinary {character : Char}
    (ordinary : character ∉ special ∨ character = '/') :
    symbols (spellCharacter ' ' character) = [.quoted character] ∨
      symbols (spellCharacter ' ' character) = [.plain character] ∧
        character ∉ ['.', '^', '$', '|', '(', ')', '['] := by
  unfold spellCharacter
  cases found : substitutions.lookup character with
  | some spelling =>
      left
      have pair := Address.mem_of_lookup found
      obtain special | quoted := substitutions_special _ pair
      · obtain absent | rfl := ordinary
        · contradiction
        · contradiction
      · simp only at quoted
        rw [quoted]
        rfl
  | none =>
      right
      have unchanged : Address.negateBehind ' ' character = character := by
        rw [Address.negateBehind, if_neg]
        rintro ⟨opening, -⟩
        contradiction
      refine ⟨by rw [unchanged, symbols], ?_⟩
      intro member
      have known : (['.', '^', '$', '|', '(', ')', '['].all fun operator =>
          (substitutions.lookup operator).isSome || operator == '[') = true := by
        decide
      rcases Bool.or_eq_true_iff.mp (List.all_eq_true.mp known character member) with put | opening
      · rw [found] at put
        contradiction
      · obtain rfl := beq_iff_eq.mp opening
        revert ordinary
        decide

theorem next_ordinary {character : Char}
    (ordinary : character ∉ ['.', '^', '$', '|', '(', ')', '[']) (symbols : List Symbol) :
    Token.next (.plain character) symbols = (.atom (.literal character), 0) := by
  simp only [List.mem_cons, List.not_mem_nil, or_false, not_or] at ordinary
  simp [Token.next, ordinary]

theorem patternTokens_cons {character : Char} (other : character ≠ '[') {symbol : Symbol}
    (spelled : symbols (spellCharacter ' ' character) = [symbol]) {token : Token}
    (next : ∀ rest, Token.next symbol rest = (token, 0)) (pattern : List Char) :
    patternTokens (character :: pattern) = token :: patternTokens pattern := by
  unfold patternTokens
  rw [Address.patternSymbols_cons other, spelled, List.singleton_append, List.cons_append, tokens,
    next]

theorem patternTokens_literal {character : Char}
    (ordinary : character ∉ special ∨ character = '/') (pattern : List Char) :
    patternTokens (character :: pattern) =
      .atom (.literal character) :: patternTokens pattern := by
  have opening : character ≠ '[' := by
    rintro rfl
    revert ordinary
    decide
  obtain quoted | ⟨plain, other⟩ := spellCharacter_ordinary ordinary
  · exact patternTokens_cons opening quoted (fun _ => rfl) pattern
  · exact patternTokens_cons opening plain (next_ordinary other) pattern

theorem patternTokens_class (set : CharacterClass) (pattern : List Char) :
    patternTokens (set.print ++ pattern) = .atom (.oneOf set.set) :: patternTokens pattern := by
  unfold patternTokens
  rw [patternSymbols_class, List.cons_append, List.append_assoc, List.cons_append, tokens]
  simp only [Token.next, readSet_class]
  have skipped := tokens_skip (set.symbols ++ [.plain ']'])
    (patternSymbols pattern ++ [.plain '$']) (set.symbols.length + 1) (by simp)
  rw [List.append_assoc, List.singleton_append] at skipped
  rw [skipped]

theorem patternTokens_one (pattern : List Char) :
    patternTokens ('?' :: pattern) = .atom .any :: patternTokens pattern := by
  have head : (patternSymbols pattern ++ [Symbol.plain '$']).head? ≠ some (.plain '*') := by
    cases found : patternSymbols pattern with
    | nil => decide
    | cons first more =>
        have other := Address.head_patternSymbols pattern
        rw [found] at other
        exact other
  unfold patternTokens
  have symbols : patternSymbols ('?' :: pattern) = .plain '.' :: patternSymbols pattern :=
    Address.patternSymbols_cons (by decide) pattern
  rw [symbols, List.cons_append, tokens]
  simp only [Token.next, if_neg head]

theorem patternTokens_run (pattern : List Char) :
    patternTokens ('*' :: pattern) = .atom .anyRun :: patternTokens pattern := by
  unfold patternTokens
  have symbols : patternSymbols ('*' :: pattern) =
      .plain '.' :: .plain '*' :: patternSymbols pattern :=
    Address.patternSymbols_cons (by decide) pattern
  rw [symbols, List.cons_append, List.cons_append, tokens]
  rfl

theorem patternTokens_opening (pattern : List Char) :
    patternTokens ('\x7b' :: pattern) = .opening :: patternTokens pattern :=
  patternTokens_cons (by decide) rfl (fun _ => rfl) pattern

theorem patternTokens_closing (pattern : List Char) :
    patternTokens ('\x7d' :: pattern) = .closing :: patternTokens pattern :=
  patternTokens_cons (by decide) rfl (fun _ => rfl) pattern

theorem patternTokens_bar (pattern : List Char) :
    patternTokens (',' :: pattern) = .bar :: patternTokens pattern :=
  patternTokens_cons (by decide) rfl (fun _ => rfl) pattern

theorem patternTokens_atom (atom : Atom) (pattern : List Char) :
    patternTokens (atom.print ++ pattern) = .atom atom.expression :: patternTokens pattern := by
  cases atom with
  | literal character ordinary => exact patternTokens_literal (.inl ordinary) pattern
  | one => exact patternTokens_one pattern
  | run => exact patternTokens_run pattern
  | oneOf set => exact patternTokens_class set pattern

mutual

theorem patternTokens_sequence (part : Sequence) (pattern : List Char) :
    patternTokens (part.print ++ pattern) = part.tokens ++ patternTokens pattern := by
  cases part with
  | nil => rfl
  | atom first rest =>
      rw [Sequence.print, List.append_assoc, patternTokens_atom, patternTokens_sequence rest]
      rfl
  | group alternatives rest =>
      simp only [Sequence.print, Sequence.tokens, List.append_assoc, List.cons_append,
        List.nil_append]
      rw [patternTokens_opening, patternTokens_alternatives alternatives, patternTokens_closing,
        patternTokens_sequence rest]

theorem patternTokens_alternatives (alternatives : Alternatives) (pattern : List Char) :
    patternTokens (alternatives.print ++ pattern) =
      alternatives.tokens ++ patternTokens pattern := by
  cases alternatives with
  | only last => exact patternTokens_sequence last pattern
  | more first rest =>
      simp only [Alternatives.print, Alternatives.tokens, List.append_assoc, List.cons_append,
        List.nil_append]
      rw [patternTokens_sequence first, patternTokens_bar, patternTokens_alternatives rest]

end

/-! Reading the tokens of a part adds its members to the level that is open. -/

theorem foldlM_step {reading after : Reading} {token : Token}
    (step : reading.step token = .ok after) (rest : List Token) :
    (token :: rest).foldlM Reading.step reading = rest.foldlM Reading.step after := by
  rw [List.foldlM_cons, step]
  rfl

theorem step_opening (level : Level) (outer : List Level) (bound : outer.length < nestingLimit) :
    (Reading.mk level outer).step .opening = .ok ⟨.new, level :: outer⟩ := by
  rw [Reading.step, if_pos bound]

mutual

theorem foldlM_sequence (part : Sequence) (rest : List Token) (level : Level)
    (outer : List Level) (bound : outer.length + part.depth ≤ nestingLimit) :
    (part.tokens ++ rest).foldlM Reading.step ⟨level, outer⟩ =
      rest.foldlM Reading.step
        ⟨⟨level.alternatives, part.members.reverse ++ level.members⟩, outer⟩ := by
  cases part with
  | nil => rfl
  | atom first part =>
      rw [Sequence.depth] at bound
      rw [Sequence.tokens, List.append_assoc, List.singleton_append, foldlM_step rfl,
        foldlM_sequence part rest _ outer (by omega), Sequence.members, List.reverse_cons,
        List.append_assoc]
      rfl
  | group alternatives part =>
      rw [Sequence.depth] at bound
      obtain ⟨last, read, finished⟩ := foldlM_alternatives alternatives
        (.closing :: (part.tokens ++ rest)) [] (level :: outer) (by rw [List.length_cons]; omega)
      have finish : last.finish = .ofChoice alternatives.branches := by
        rw [Level.finish, finished, List.append_nil, List.reverse_reverse]
      simp only [Sequence.tokens, List.append_assoc, List.cons_append, List.nil_append]
      rw [foldlM_step (step_opening level outer (by omega))]
      refine read.trans ?_
      rw [foldlM_step rfl, foldlM_sequence part rest _ outer (by omega), finish, Sequence.members,
        List.reverse_cons, List.append_assoc]
      rfl

theorem foldlM_alternatives (alternatives : Alternatives) (rest : List Token)
    (before : List Expression) (outer : List Level)
    (bound : outer.length + alternatives.depth ≤ nestingLimit) : ∃ last : Level,
    (alternatives.tokens ++ rest).foldlM Reading.step ⟨⟨before, []⟩, outer⟩ =
        rest.foldlM Reading.step ⟨last, outer⟩ ∧
      last.split.alternatives = alternatives.branches.reverse ++ before := by
  cases alternatives with
  | only last =>
      rw [Alternatives.depth] at bound
      refine ⟨_, foldlM_sequence last rest _ outer (by omega), ?_⟩
      simp [Level.split, Alternatives.branches]
  | more first alternatives =>
      rw [Alternatives.depth] at bound
      obtain ⟨last, read, finished⟩ := foldlM_alternatives alternatives rest
        (.ofSequence first.members :: before) outer (by omega)
      refine ⟨last, ?_, ?_⟩
      · simp only [Alternatives.tokens, List.append_assoc, List.cons_append, List.nil_append]
        rw [foldlM_sequence first _ _ outer (by omega), foldlM_step rfl, ← read]
        simp [Level.split]
      · rw [finished, Alternatives.branches, List.reverse_cons, List.append_assoc,
          List.singleton_append]

end

/-! A pattern is as deep as its expression is high. -/

theorem Atom.single_expression (atom : Atom) : atom.expression.Single := by
  intro chain
  cases atom <;> rfl

theorem Sequence.single_members : ∀ part : Sequence, ∀ member ∈ part.members, member.Single
  | .nil, member, inside => absurd inside (List.not_mem_nil)
  | .atom first rest, member, inside => by
      obtain rfl | inside := List.mem_cons.mp inside
      · exact first.single_expression
      · exact single_members rest member inside
  | .group alternatives rest, member, inside => by
      obtain rfl | inside := List.mem_cons.mp inside
      · exact Expression.single_of_unchained nofun nofun
      · exact single_members rest member inside

theorem Sequence.chainHeight_members (part : Sequence) :
    Expression.chainHeight part.members = part.own := by
  cases part with
  | nil => rfl
  | atom first rest => cases rest <;> simp [Expression.chainHeight, members, own]
  | group alternatives rest => cases rest <;> simp [Expression.chainHeight, members, own]

theorem Alternatives.chainHeight_branches (alternatives : Alternatives) :
    Expression.chainHeight alternatives.branches = alternatives.own := by
  cases alternatives with
  | only last => rfl
  | more first rest => cases rest <;> simp [Expression.chainHeight, branches, own]

theorem Alternatives.choice_branches : ∀ alternatives : Alternatives,
    ∀ branch ∈ alternatives.branches, Expression.heightIn .choice branch = branch.height
  | .only last, branch, inside => by
      obtain rfl := List.mem_singleton.mp inside
      exact Expression.heightIn_choice_ofSequence _ last.single_members
  | .more first rest, branch, inside => by
      obtain rfl | inside := List.mem_cons.mp inside
      · exact Expression.heightIn_choice_ofSequence _ first.single_members
      · exact choice_branches rest branch inside

mutual

theorem Sequence.highest_members (part : Sequence) :
    Expression.highest part.members = part.depth := by
  cases part with
  | nil => rfl
  | atom first rest =>
      rw [Sequence.members, Expression.highest_cons, rest.highest_members, Sequence.depth]
      cases first <;> rfl
  | group alternatives rest =>
      have body := Expression.height_ofChoice _ alternatives.choice_branches
      rw [alternatives.chainHeight_branches, alternatives.highest_branches] at body
      rw [Sequence.members, Expression.highest_cons, rest.highest_members, Sequence.depth,
        Nat.add_assoc, ← body]
      rfl

theorem Alternatives.highest_branches (alternatives : Alternatives) :
    Expression.highest alternatives.branches = alternatives.depth := by
  cases alternatives with
  | only last =>
      rw [Alternatives.branches, Expression.highest_cons,
        Expression.height_ofSequence _ last.single_members,
        last.chainHeight_members, last.highest_members, Alternatives.depth]
      exact Nat.max_zero _
  | more first rest =>
      rw [Alternatives.branches, Expression.highest_cons,
        Expression.height_ofSequence _ first.single_members, first.chainHeight_members,
        first.highest_members, rest.highest_branches, Alternatives.depth]

end

def laterMembers (parts : List Sequence) : List Expression :=
  parts.flatMap fun part => [.literal '/'] ++ part.members

def laterTokens (parts : List Sequence) : List Token :=
  parts.flatMap fun part => [.atom (.literal '/')] ++ part.tokens

def members (glob : Glob) : List Expression :=
  glob.first.members ++ laterMembers glob.later

def anchoredMembers (glob : Glob) : List Expression :=
  [.start] ++ glob.members ++ [.finish]

def expression (glob : Glob) : Expression :=
  .ofSequence glob.anchoredMembers

theorem members_single (glob : Glob) : ∀ member ∈ glob.members, member.Single := by
  intro member inside
  obtain inside | inside := List.mem_append.mp inside
  · exact glob.first.single_members member inside
  · obtain ⟨part, -, inside⟩ := List.mem_flatMap.mp inside
    obtain rfl | inside := List.mem_cons.mp inside
    · exact Expression.single_of_unchained nofun nofun
    · exact part.single_members member inside

theorem highest_laterMembers (parts : List Sequence) :
    Expression.highest (laterMembers parts) = (parts.map Sequence.depth).foldr max 0 := by
  induction parts with
  | nil => rfl
  | cons part parts ih =>
      rw [laterMembers] at ih ⊢
      rw [List.flatMap_cons, Expression.highest_append, Expression.highest_append,
        part.highest_members, ih]
      exact congrArg (max · _) (Nat.zero_max _)

theorem height_expression (glob : Glob) : glob.expression.height = glob.depth := by
  have single : ∀ member ∈ glob.anchoredMembers, member.Single := by
    intro member inside
    obtain inside | inside := List.mem_append.mp inside
    · obtain inside | inside := List.mem_append.mp inside
      · obtain rfl := List.mem_singleton.mp inside
        exact Expression.single_of_unchained nofun nofun
      · exact glob.members_single member inside
    · obtain rfl := List.mem_singleton.mp inside
      exact Expression.single_of_unchained nofun nofun
  have chain : Expression.chainHeight glob.anchoredMembers = 1 := by
    simp [Expression.chainHeight, anchoredMembers]
  have anchor : Expression.highest [.start] = 0 ∧ Expression.highest [.finish] = 0 := ⟨rfl, rfl⟩
  rw [expression, Expression.height_ofSequence _ single, chain, anchoredMembers,
    Expression.highest_append,
    Expression.highest_append, anchor.1, anchor.2, Nat.max_zero, Nat.zero_max, members,
    Expression.highest_append, glob.first.highest_members, highest_laterMembers]
  rfl

theorem depth_part_le (glob : Glob) : ∀ part ∈ glob.parts, 1 + part.depth ≤ glob.depth := by
  have below (parts : List Sequence) : ∀ part ∈ parts,
      part.depth ≤ (parts.map Sequence.depth).foldr max 0 := by
    induction parts with
    | nil => intro part inside; contradiction
    | cons first parts ih =>
        intro part inside
        rw [List.map_cons, List.foldr_cons]
        obtain rfl | inside := List.mem_cons.mp inside
        · exact Nat.le_max_left _ _
        · exact Nat.le_trans (ih part inside) (Nat.le_max_right _ _)
  intro part inside
  exact Nat.add_le_add_left (below glob.parts part inside) 1

/-! The parts of a pattern follow one another, each behind a slash. -/

theorem patternTokens_nil : patternTokens [] = [.atom .finish] := by
  rw [patternTokens, patternSymbols]
  rfl

theorem patternTokens_later (parts : List Sequence) :
    patternTokens (parts.flatMap fun part => ['/'] ++ part.print) =
      laterTokens parts ++ [.atom .finish] := by
  induction parts with
  | nil => exact patternTokens_nil
  | cons part parts ih =>
      rw [List.flatMap_cons, List.append_assoc, List.singleton_append,
        patternTokens_literal (.inr rfl), patternTokens_sequence, ih, laterTokens, laterTokens,
        List.flatMap_cons, List.append_assoc, List.append_assoc, List.singleton_append]

theorem foldlM_later (parts : List Sequence)
    (bound : ∀ part ∈ parts, part.depth ≤ nestingLimit) (rest : List Token) (level : Level) :
    (laterTokens parts ++ rest).foldlM Reading.step ⟨level, []⟩ =
      rest.foldlM Reading.step
        ⟨⟨level.alternatives, (laterMembers parts).reverse ++ level.members⟩, []⟩ := by
  induction parts generalizing level with
  | nil => rfl
  | cons part parts ih =>
      have first : ([] : List Level).length + part.depth ≤ nestingLimit :=
        Nat.le_trans (Nat.le_of_eq (Nat.zero_add _)) (bound part List.mem_cons_self)
      have later := ih fun part inside => bound part (List.mem_cons_of_mem _ inside)
      rw [laterTokens] at later ⊢
      rw [List.flatMap_cons, List.append_assoc, List.append_assoc, List.singleton_append,
        foldlM_step rfl]
      refine (foldlM_sequence part _ _ [] first).trans ?_
      rw [later]
      simp [Level.push, laterMembers]

theorem foldlM_tokens (glob : Glob) (bound : glob.depth ≤ nestingLimit) :
    (.atom .start :: patternTokens glob.print).foldlM Reading.step .new =
      .ok ⟨⟨[], glob.anchoredMembers.reverse⟩, []⟩ := by
  have parts (part : Sequence) (inside : part ∈ glob.parts) : part.depth ≤ nestingLimit := by
    have below := glob.depth_part_le part inside
    omega
  have first : ([] : List Level).length + glob.first.depth ≤ nestingLimit :=
    Nat.le_trans (Nat.le_of_eq (Nat.zero_add _)) (parts glob.first List.mem_cons_self)
  rw [print, patternTokens_sequence, patternTokens_later, foldlM_step rfl]
  refine (foldlM_sequence glob.first _ _ [] first).trans ?_
  rw [foldlM_later glob.later fun part inside => parts part (List.mem_cons_of_mem _ inside),
    foldlM_step rfl]
  simp [anchoredMembers, members, Level.push, Reading.new, Level.new]
  rfl

theorem read_anchored (glob : Glob) (bound : glob.depth ≤ nestingLimit) :
    Expression.read (Address.expressionText glob.text).toList = .ok glob.expression := by
  have whole : (Level.mk [] glob.anchoredMembers.reverse).finish =
      glob.expression := by
    simp [Level.finish, Level.split, Expression.ofChoice, expression]
  rw [Address.expressionText, text, String.toList_ofList, String.toList_ofList, Expression.read,
    tokens_anchored, foldlM_tokens glob bound]
  change (if Expression.height _ ≤ nestingLimit then _ else _) = _
  rw [whole, glob.height_expression, if_pos bound]

end OpenSoundControl.Glob
