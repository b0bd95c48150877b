import OpenSoundControl.Proofs.Spelling

/-!
The replacements as they are made in a text. Each looks for its needle from left to right and goes
on behind what it has put in; every character of the text remembers whether a replacement has put
it there. No needle is ever found in such characters, and so the replacements together come to one
reading of the pattern.
-/

namespace OpenSoundControl.Address

structure Placed where
  character : Char
  introduced : Bool
  deriving DecidableEq, Repr

def Placed.own (character : Char) : Placed := ⟨character, false⟩

structure Rule where
  needle : List Char
  spelling : List Char
  deriving DecidableEq, Repr

/-- The number counts the characters of a needle that are still to be passed over. -/
def Rule.scan (rule : Rule) : Nat → List Placed → List Placed
  | _, [] => []
  | further + 1, _ :: rest => rule.scan further rest
  | 0, first :: rest =>
      if rule.needle.isPrefixOf ((first :: rest).map Placed.character) then
        rule.spelling.map (Placed.mk · true) ++ rule.scan (rule.needle.length - 1) rest
      else first :: rule.scan 0 rest

def Rule.apply (text : List Placed) (rule : Rule) : List Placed :=
  rule.scan 0 text

def negation : Rule := ⟨['[', '!'], ['[', '^']⟩

def rules : List Rule :=
  substitutions.map (fun pair => ⟨[pair.1], pair.2⟩) ++ [negation]

/-! Without the marks, the rules do to a text what the substitutions and the negation do. -/

theorem map_character_apply (text : List Placed) (pair : Char × List Char) :
    (Rule.apply text ⟨[pair.1], pair.2⟩).map Placed.character =
      substitute (text.map Placed.character) pair := by
  unfold Rule.apply
  induction text with
  | nil => rfl
  | cons first rest ih =>
      rw [substitute] at ih ⊢
      rw [List.map_cons, List.flatMap_cons, ← ih, Rule.scan]
      by_cases same : pair.1 = first.character
      · simp [same, Function.comp_def]
      · simp [same, Ne.symm same]

theorem map_character_substitutions (pairs : List (Char × List Char)) (text : List Placed) :
    ((pairs.map fun pair => Rule.mk [pair.1] pair.2).foldl Rule.apply text).map
        Placed.character = pairs.foldl substitute (text.map Placed.character) := by
  induction pairs generalizing text with
  | nil => rfl
  | cons pair pairs ih =>
      rw [List.map_cons, List.foldl_cons, List.foldl_cons, ih, map_character_apply]

theorem map_character_negation : ∀ text : List Placed,
    (Rule.apply text negation).map Placed.character = negate (text.map Placed.character)
  | [] => rfl
  | [only] => by
      have alone : Rule.apply [only] negation = [only] := by
        simp [Rule.apply, Rule.scan, negation, List.isPrefixOf]
      rw [alone]
      rfl
  | first :: second :: rest => by
      have later := map_character_negation (second :: rest)
      have behind := map_character_negation rest
      change _ = negateFrom ' ' _ at later behind ⊢
      unfold Rule.apply at later behind ⊢
      rw [List.map_cons, List.map_cons, negateFrom_cons]
      by_cases found : first.character = '[' ∧ second.character = '!'
      · obtain ⟨bracket, mark⟩ := found
        have next : negation.scan 0 (first :: second :: rest) =
            [⟨'[', true⟩, ⟨'^', true⟩] ++ negation.scan 0 rest := by
          simp [Rule.scan, negation, List.isPrefixOf, bracket, mark]
        have resumed := negateFrom_other (by decide : '!' ≠ '[') (rest.map Placed.character)
        rw [next, List.map_append, behind, bracket, mark, negateFrom_cons, resumed]
        rfl
      · have next : negation.scan 0 (first :: second :: rest) =
            first :: negation.scan 0 (second :: rest) := by
          rw [Rule.scan, if_neg]
          intro isFront
          simp only [negation, List.map_cons, List.isPrefixOf_cons_cons, List.isPrefixOf_nil_left,
            Bool.and_true, Bool.and_eq_true, beq_iff_eq] at isFront
          exact found ⟨isFront.1.symm, isFront.2.symm⟩
        have unmarked := negateFrom_unmarked first.character
          (second.character :: rest.map Placed.character) (by simpa using found)
        rw [next, List.map_cons, later, unmarked]
        rfl

theorem map_character_rules (text : List Placed) :
    (rules.foldl Rule.apply text).map Placed.character = body (text.map Placed.character) := by
  rw [rules, List.foldl_append, List.foldl_cons, List.foldl_nil, map_character_negation,
    map_character_substitutions, body]

/-! What is found in a text is its own or part of the spelling of a rule that has been applied. -/

theorem mem_scan {rule : Rule} {text : List Placed} {further : Nat} {placed : Placed}
    (member : placed ∈ rule.scan further text) :
    placed ∈ text ∨ placed.character ∈ rule.spelling := by
  induction text generalizing further with
  | nil => cases further <;> contradiction
  | cons first rest ih =>
      have inRest {further : Nat} (inside : placed ∈ rule.scan further rest) :
          placed ∈ first :: rest ∨ placed.character ∈ rule.spelling :=
        (ih inside).imp_left (List.mem_cons_of_mem _)
      cases further with
      | succ further => exact inRest member
      | zero =>
          rw [Rule.scan] at member
          split at member
          · rcases List.mem_append.mp member with spelled | inside
            · obtain ⟨character, isSpelled, rfl⟩ := List.mem_map.mp spelled
              exact .inr isSpelled
            · exact inRest inside
          · rcases List.mem_cons.mp member with rfl | inside
            · exact .inl List.mem_cons_self
            · exact inRest inside

theorem mem_foldl_apply {done : List Rule} {text : List Placed} {placed : Placed}
    (member : placed ∈ done.foldl Rule.apply text) :
    placed ∈ text ∨ ∃ rule ∈ done, placed.character ∈ rule.spelling := by
  induction done generalizing text with
  | nil => exact .inl member
  | cons rule done ih =>
      rw [List.foldl_cons] at member
      rcases ih member with inside | ⟨later, isLater, spelled⟩
      · rcases mem_scan inside with own | spelled
        · exact .inl own
        · exact .inr ⟨rule, List.mem_cons_self, spelled⟩
      · exact .inr ⟨later, List.mem_cons_of_mem _ isLater, spelled⟩

theorem rules_ordered : rules.Pairwise fun earlier later =>
    ∀ character ∈ earlier.spelling, character ∉ later.needle := by
  have checked : rules.Pairwise fun earlier later =>
      earlier.spelling.all (fun character => character ∉ later.needle) = true := by
    decide
  simpa only [List.all_eq_true, decide_eq_true_eq] using checked

theorem own_of_needle {pattern : List Char} {done later : List Rule} {rule : Rule}
    (split : rules = done ++ rule :: later) {placed : Placed}
    (member : placed ∈ done.foldl Rule.apply (pattern.map .own))
    (sought : placed.character ∈ rule.needle) : placed.introduced = false := by
  rcases mem_foldl_apply member with inside | ⟨earlier, isEarlier, spelled⟩
  · obtain ⟨character, -, rfl⟩ := List.mem_map.mp inside
    rfl
  · have ordered := rules_ordered
    rw [split, List.pairwise_append] at ordered
    have apart := ordered.2.2 earlier isEarlier rule List.mem_cons_self
    exact absurd sought (apart _ spelled)

/-! The single reading. -/

def quoted : List Char :=
  ['\\', '.', '(', ')', '+', '^', '$', '|']

def written : Char → List Char
  | '*' => ['.', '*']
  | '\x7b' => ['(']
  | ',' => ['|']
  | '\x7d' => [')']
  | '?' => ['.']
  | character => if character ∈ quoted then ['\\', character] else [character]

def readOnce : List Char → List Char
  | [] => []
  | '[' :: '!' :: rest => ['[', '^'] ++ readOnce rest
  | character :: rest => written character ++ readOnce rest

theorem replacement_eq_written (character : Char) : replacement character = written character := by
  by_cases special : ∃ pair ∈ substitutions, character = pair.1
  · obtain ⟨pair, member, rfl⟩ := special
    revert pair
    decide
  · have other : ∀ pair ∈ substitutions, character ≠ pair.1 := by
      intro pair member same
      exact special ⟨pair, member, same⟩
    rw [replacement_other other]
    unfold written
    split
    · exact absurd (by decide) special
    · exact absurd (by decide) special
    · exact absurd (by decide) special
    · exact absurd (by decide) special
    · exact absurd (by decide) special
    · rw [if_neg]
      intro isQuoted
      obtain ⟨pair, member, same⟩ := List.mem_map.mp
        ((by decide : quoted ⊆ substitutions.map Prod.fst) isQuoted)
      exact other pair member same.symm

theorem spellCharacter_eq_written (character : Char) :
    spellCharacter ' ' character = written character := by
  rw [← replacement_eq_written, replacement, spellCharacter]
  cases substitutions.lookup character with
  | none => rfl
  | some spelling => rfl

theorem readOnce_eq_spell (pattern : List Char) : readOnce pattern = spell pattern := by
  change _ = spellFrom ' ' pattern
  induction pattern using readOnce.induct with
  | case1 => rfl
  | case2 rest ih =>
      have resumed := spellFrom_other (by decide : '!' ≠ '[') rest
      rw [readOnce, ih, spellFrom_cons, spellFrom_cons, resumed]
      rfl
  | case3 character rest unmarked ih =>
      have resumed : spellFrom character rest = spellFrom ' ' rest := by
        apply spellFrom_unmarked
        rintro ⟨bracket, mark⟩
        obtain ⟨later, rfl⟩ := List.head?_eq_some_iff.mp mark
        exact unmarked later bracket rfl
      rw [readOnce, ih, spellFrom_cons, spellCharacter_eq_written, resumed]
      exact unmarked

/-- The expression of a pattern comes from a single reading of it. The replacements that give it one
after the other only find their needles among the characters of the pattern itself. -/
theorem expressionText_readOnce (pattern : String) :
    expressionText pattern = String.ofList (['^'] ++ readOnce pattern.toList ++ ['$']) ∧
      (rules.foldl Rule.apply (pattern.toList.map .own)).map Placed.character =
        readOnce pattern.toList ∧
      ∀ done rule later, rules = done ++ rule :: later →
        ∀ front found back,
          done.foldl Rule.apply (pattern.toList.map .own) = front ++ found ++ back →
          found.map Placed.character = rule.needle →
            ∀ placed ∈ found, placed.introduced = false := by
  have bare : (pattern.toList.map Placed.own).map Placed.character = pattern.toList := by
    rw [List.map_map]
    exact List.map_id _
  refine ⟨?_, ?_, ?_⟩
  · rw [expressionText, anchored, body_eq_spell, readOnce_eq_spell]
  · rw [map_character_rules, bare, body_eq_spell, readOnce_eq_spell]
  · intro done rule later split front found back whole isNeedle placed member
    have inside : placed ∈ done.foldl Rule.apply (pattern.toList.map .own) := by
      rw [whole]
      exact List.mem_append_left _ (List.mem_append_right _ member)
    exact own_of_needle split inside (isNeedle ▸ List.mem_map_of_mem member)

theorem expressionText_readOnce_quoted :
    expressionText "/(*[!.]" = "^/\\(.*[^\\.]$" ∧
      rules = rules.take 8 ++ ⟨['*'], ['.', '*']⟩ :: rules.drop 9 ∧
      (rules.take 8).foldl Rule.apply ("/(*[!.]".toList.map .own) =
        [⟨'/', false⟩, ⟨'\\', true⟩, ⟨'(', true⟩] ++ [⟨'*', false⟩] ++
          [⟨'[', false⟩, ⟨'!', false⟩, ⟨'\\', true⟩, ⟨'.', true⟩, ⟨']', false⟩] ∧
      ∀ placed ∈ [Placed.mk '*' false], placed.introduced = false := by
  have applied : (rules.take 8).foldl Rule.apply ("/(*[!.]".toList.map .own) =
      [⟨'/', false⟩, ⟨'\\', true⟩, ⟨'(', true⟩] ++ [⟨'*', false⟩] ++
        [⟨'[', false⟩, ⟨'!', false⟩, ⟨'\\', true⟩, ⟨'.', true⟩, ⟨']', false⟩] := by
    decide
  have split : rules = rules.take 8 ++ ⟨['*'], ['.', '*']⟩ :: rules.drop 9 := by decide
  obtain ⟨whole, -, own⟩ := expressionText_readOnce "/(*[!.]"
  exact ⟨whole, split, applied, own _ _ _ split _ _ _ applied rfl⟩

end OpenSoundControl.Address
