import OpenSoundControl.Proofs.Anchoring
import OpenSoundControl.Proofs.PatternCompilation

/-!
Patterns without an opening bracket. Every character becomes one token, whatever stands around it,
so the groups and the bars of the expression can be read off the pattern itself.
-/

namespace OpenSoundControl.Address

open Expression (Token)
open Glob (patternTokens)

def characterToken : Char → Token
  | '*' => .atom .anyRun
  | '?' => .atom .any
  | '\x7b' => .opening
  | '\x7d' => .closing
  | ',' => .bar
  | character => .atom (.literal character)

theorem patternTokens_closingBracket (pattern : List Char) :
    patternTokens (']' :: pattern) = .atom (.literal ']') :: patternTokens pattern := by
  have spelled : Expression.symbols (spellCharacter ' ' ']') = [.plain ']'] := by decide
  exact Glob.patternTokens_cons (by decide) spelled (Glob.next_ordinary (by decide)) pattern

theorem patternTokens_character {character : Char} (other : character ≠ '[')
    (pattern : List Char) :
    patternTokens (character :: pattern) = characterToken character :: patternTokens pattern := by
  unfold characterToken
  split
  · exact Glob.patternTokens_run pattern
  · exact Glob.patternTokens_one pattern
  · exact Glob.patternTokens_opening pattern
  · exact Glob.patternTokens_closing pattern
  · exact Glob.patternTokens_bar pattern
  · rename_i star mark opening closing comma
    by_cases bracket : character = ']'
    · rw [bracket]
      exact patternTokens_closingBracket pattern
    · refine Glob.patternTokens_literal ?_ pattern
      by_cases slash : character = '/'
      · exact .inr slash
      · left
        simp only [Glob.special, List.mem_cons, List.not_mem_nil, or_false, not_or]
        exact ⟨star, mark, opening, closing, other, bracket, comma, slash⟩

theorem patternTokens_unbracketed (pattern : List Char) (plain : '[' ∉ pattern) :
    patternTokens pattern = pattern.map characterToken ++ [.atom .finish] := by
  induction pattern with
  | nil => exact Glob.patternTokens_nil
  | cons character pattern ih =>
      obtain ⟨other, plain⟩ := not_or.mp (mt List.mem_cons.mpr plain)
      rw [patternTokens_character (Ne.symm other), ih plain, List.map_cons, List.cons_append]

theorem characterToken_sound (character : Char) (fault : Expression.Fault) :
    characterToken character ≠ .fault fault := by
  unfold characterToken
  split <;> exact Token.noConfusion

theorem tokens_body (pattern : List Char) (plain : '[' ∉ pattern) :
    Expression.tokens 0 (Expression.symbols (body pattern)) = pattern.map characterToken := by
  have whole := patternTokens_unbracketed pattern plain
  rw [patternTokens] at whole
  have before := Expression.tokens_before (patternSymbols pattern) 0 (Nat.zero_le _) fun fault => by
    change _ ∉ Expression.tokens 0 (patternSymbols pattern ++ [.plain '$'])
    simp [whole, characterToken_sound]
  have same := List.append_cancel_right (before.symm.trans whole)
  rwa [patternSymbols] at same

theorem tokens_anchored_body (pattern : List Char) (plain : '[' ∉ pattern) :
    Expression.tokens 0 (Expression.symbols (anchored (body pattern))) =
      .atom .start :: (pattern.map characterToken ++ [.atom .finish]) := by
  rw [Glob.tokens_anchored, patternTokens_unbracketed pattern plain]

/-- The commas outside braces; the number counts the braces that are open. -/
def commasOutside : Nat → List Char → Nat
  | _, [] => 0
  | depth, character :: rest =>
      if character = '\x7b' then commasOutside (depth + 1) rest
      else if character = '\x7d' then commasOutside (depth - 1) rest
      else if character = ',' ∧ depth = 0 then commasOutside depth rest + 1
      else commasOutside depth rest

theorem outerBars_character (depth : Nat) (character : Char) (rest : List Token) :
    Expression.outerBars depth (characterToken character :: rest) =
      if character = '\x7b' then Expression.outerBars (depth + 1) rest
      else if character = '\x7d' then Expression.outerBars (depth - 1) rest
      else if character = ',' ∧ depth = 0 then Expression.outerBars depth rest + 1
      else Expression.outerBars depth rest := by
  unfold characterToken
  split
  · simp [Expression.outerBars]
  · simp [Expression.outerBars]
  · simp [Expression.outerBars]
  · simp [Expression.outerBars]
  · cases depth <;> simp [Expression.outerBars]
  · rename_i opening closing comma
    rw [if_neg opening, if_neg closing, if_neg fun both => comma both.1]
    simp [Expression.outerBars]

theorem outerBars_map (depth : Nat) (pattern : List Char) :
    Expression.outerBars depth (pattern.map characterToken) = commasOutside depth pattern := by
  induction pattern generalizing depth with
  | nil => cases depth <;> rfl
  | cons character pattern ih =>
      rw [List.map_cons, outerBars_character, commasOutside, ih, ih, ih]

theorem outerCommas_unbracketed (pattern : List Char) (plain : '[' ∉ pattern) :
    outerCommas pattern = commasOutside 0 pattern := by
  rw [outerCommas, tokens_body pattern plain, outerBars_map]

end OpenSoundControl.Address
