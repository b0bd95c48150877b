import OpenSoundControl.Expression.Token

/-!
The anchor at the end of an expression is a token of its own whenever the expression can be read at
all: a class that is closed is closed in front of the anchor, so no class takes the anchor in.
-/

namespace OpenSoundControl.Expression

def endAnchor : Symbol := .plain '$'

theorem takeWhile_before (accepts : Symbol → Bool) (refused : accepts endAnchor = false)
    (symbols : List Symbol) :
    (symbols ++ [endAnchor]).takeWhile accepts = symbols.takeWhile accepts := by
  induction symbols with
  | nil => simp [refused]
  | cons symbol symbols ih =>
      rw [List.cons_append, List.takeWhile_cons, List.takeWhile_cons, ih]

theorem takeWhile_colon (name rest : List Symbol) (absent : .plain ':' ∉ name) :
    (name ++ rest).takeWhile (· ≠ .plain ':') = name ++ rest.takeWhile (· ≠ .plain ':') := by
  rw [List.takeWhile_append_of_pos]
  intro symbol member
  rw [decide_eq_true_eq]
  rintro rfl
  exact absent member

theorem namedSet_colon (name rest : List Symbol) (absent : .plain ':' ∉ name) :
    namedSet? (.plain ':' :: (name ++ .plain ':' :: rest)) =
      if rest.head? = some (.plain ']') then
        (namedSets.lookup (String.ofList (name.map Symbol.character))).map (·, name.length + 3)
      else none := by
  have front : (name ++ .plain ':' :: rest).takeWhile (· ≠ .plain ':') = name := by
    rw [takeWhile_colon name _ absent]
    simp
  simp only [namedSet?, front, List.drop_left]
  cases rest with
  | nil => simp
  | cons symbol rest =>
      by_cases closing : symbol = .plain ']'
      · simp [closing]
      · simp [closing]

theorem namedSet_before (symbols : List Symbol) (found : List (Char × Char) × Nat)
    (named : namedSet? (symbols ++ [endAnchor]) = some found) : namedSet? symbols = some found := by
  cases symbols with
  | nil => contradiction
  | cons first symbols =>
      by_cases colon : first = .plain ':'
      · subst colon
        rw [List.cons_append] at named
        by_cases later : Symbol.plain ':' ∈ symbols
        · obtain ⟨name, rest, rfl, absent⟩ := List.eq_append_cons_of_mem later
          rw [List.append_assoc, List.cons_append, namedSet_colon _ _ absent] at named
          rw [namedSet_colon _ _ absent]
          cases rest with
          | nil => exact named
          | cons symbol rest => exact named
        · have whole := takeWhile_colon (symbols ++ [endAnchor]) [] (by
            intro member
            rcases List.mem_append.mp member with inside | last
            · exact later inside
            · exact absurd last (by decide))
          simp only [List.append_nil, List.takeWhile_nil] at whole
          simp only [namedSet?, whole, List.drop_length] at named
          contradiction
      · simp only [List.cons_append, namedSet?] at named
        split at named
        · rename_i same
          exact absurd (List.cons.inj same).1 colon
        · contradiction

theorem ordinary_before {first second : Symbol} {symbols : List Symbol} {item : Item}
    (next : Item.ordinary first (second :: (symbols ++ [endAnchor])) = item) :
    Item.ordinary first (second :: symbols) = item ∨ item = .fault .invalidRange ∨
      symbols = [] ∧ ∃ ranges, item = .members ranges 2 := by
  cases symbols with
  | nil =>
      simp only [List.nil_append, Item.ordinary] at next ⊢
      by_cases dash : second = .plain '-' ∧ endAnchor ≠ .plain ']' ∧ endAnchor ≠ .plain '-'
      · rw [if_pos dash, Item.range] at next
        split at next
        · exact .inr (.inr ⟨trivial, _, next.symm⟩)
        · exact .inr (.inl next.symm)
      · rw [if_neg dash] at next
        exact .inl next
  | cons third symbols => exact .inl next

theorem next_cons (first second : Symbol) (symbols : List Symbol) :
    Item.next first (second :: symbols) =
      if first = .plain ']' then .close
      else if first = .plain '[' then
        match namedSet? (second :: symbols) with
        | some (ranges, length) => .members ranges length
        | none => .fault .nestedSet
      else if first = .plain '&' ∧ some second = some (.plain '&') then .fault .intersection
      else if first = .plain '-' ∧ some second = some (.plain '-') then .fault .difference
      else if first = .plain '~' ∧ some second = some (.plain '~') then .fault .symmetricDifference
      else .ordinary first (second :: symbols) := rfl

theorem next_before_second {first second : Symbol} {symbols : List Symbol} {item : Item}
    (next : Item.next first (second :: (symbols ++ [endAnchor])) = item)
    (sound : ∀ fault, item ≠ .fault fault) :
    Item.next first (second :: symbols) = item ∨
      symbols = [] ∧ ∃ ranges, item = .members ranges 2 := by
  rw [next_cons] at next ⊢
  split at next
  · rename_i closing
    simp only [closing, ↓reduceIte]
    exact .inl next
  · rename_i notClosing
    split at next
    · rename_i opening
      cases named : namedSet? (second :: (symbols ++ [endAnchor])) with
      | none =>
          rw [named] at next
          exact absurd next.symm (sound _)
      | some found =>
          have before := namedSet_before (second :: symbols) found named
          rw [named] at next
          simp only [opening, before, ↓reduceIte]
          exact .inl next
    · rename_i notOpening
      simp only [notClosing, notOpening, ↓reduceIte]
      by_cases ampersand : first = .plain '&' ∧ some second = some (.plain '&')
      · rw [if_pos ampersand] at next
        exact absurd next.symm (sound _)
      · by_cases dash : first = .plain '-' ∧ some second = some (.plain '-')
        · rw [if_neg ampersand, if_pos dash] at next
          exact absurd next.symm (sound _)
        · by_cases tilde : first = .plain '~' ∧ some second = some (.plain '~')
          · rw [if_neg ampersand, if_neg dash, if_pos tilde] at next
            exact absurd next.symm (sound _)
          · rw [if_neg ampersand, if_neg dash, if_neg tilde] at next ⊢
            rcases ordinary_before next with same | fault | range
            · exact .inl same
            · exact absurd fault (sound _)
            · exact .inr range

theorem next_anchor {first : Symbol} {item : Item} (next : Item.next first [endAnchor] = item)
    (sound : ∀ fault, item ≠ .fault fault) :
    Item.next first [] = item ∨ item = .single first := by
  rw [next_cons] at next
  by_cases closing : first = .plain ']'
  · rw [if_pos closing] at next
    rw [Item.next, if_pos closing]
    exact .inl next
  · by_cases opening : first = .plain '['
    · rw [if_neg closing, if_pos opening] at next
      exact absurd next.symm (sound _)
    · right
      rw [if_neg closing, if_neg opening] at next
      simpa [endAnchor, Item.ordinary] using next.symm

theorem next_before {first : Symbol} {symbols : List Symbol} {item : Item}
    (next : Item.next first (symbols ++ [endAnchor]) = item)
    (sound : ∀ fault, item ≠ .fault fault) :
    Item.next first symbols = item ∨
      ∃ ranges further, symbols.length ≤ further ∧ item = .members ranges further := by
  cases symbols with
  | nil =>
      rcases next_anchor next sound with same | single
      · exact .inl same
      · exact .inr ⟨_, 0, Nat.le_refl _, single⟩
  | cons second symbols =>
      rcases next_before_second next sound with same | ⟨last, ranges, found⟩
      · exact .inl same
      · rw [last]
        exact .inr ⟨ranges, 2, Nat.le_succ 1, found⟩

theorem readItems_past (symbols : List Symbol) (further length : Nat)
    (ranges : List (Char × Char)) (result : List (Char × Char) × Nat)
    (past : symbols.length ≤ further) :
    readItems further (symbols ++ [endAnchor]) length ranges ≠ .ok result := by
  induction symbols generalizing further length with
  | nil =>
      intro read
      cases further with
      | zero => contradiction
      | succ further => cases further <;> contradiction
  | cons first symbols ih =>
      cases further with
      | zero => contradiction
      | succ further =>
          simp only [List.cons_append, readItems]
          exact ih further (length + 1) (Nat.le_of_succ_le_succ past)

theorem readItems_before (symbols : List Symbol) (further length : Nat)
    (ranges all : List (Char × Char)) (final : Nat)
    (read : readItems further (symbols ++ [endAnchor]) length ranges = .ok (all, final)) :
    readItems further symbols length ranges = .ok (all, final) ∧
      final ≤ length + symbols.length := by
  induction symbols generalizing further length ranges with
  | nil => exact absurd read (readItems_past [] further length ranges _ (Nat.zero_le _))
  | cons first symbols ih =>
      rw [List.length_cons]
      cases further with
      | succ further =>
          simp only [List.cons_append, readItems] at read ⊢
          have later := ih further (length + 1) ranges read
          exact ⟨later.1, by omega⟩
      | zero =>
          simp only [List.cons_append, readItems] at read ⊢
          cases next : Item.next first (symbols ++ [endAnchor]) with
          | fault fault =>
              rw [next] at read
              contradiction
          | close =>
              rw [next] at read
              rcases next_before next (fun _ => Item.noConfusion) with same | ⟨_, _, _, found⟩
              · rw [same]
                obtain ⟨rfl, rfl⟩ := Prod.mk.inj (Except.ok.inj read)
                exact ⟨rfl, by omega⟩
              · contradiction
          | members found further =>
              rw [next] at read
              rcases next_before next (fun _ => Item.noConfusion) with same | ⟨_, _, past, found⟩
              · rw [same]
                have later := ih further (length + 1) (ranges ++ found) read
                exact ⟨later.1, by omega⟩
              · -- The item needs more symbols than there are in front of the anchor.
                obtain ⟨rfl, rfl⟩ := Item.members.inj found
                exact absurd read (readItems_past symbols _ _ _ _ past)

def leading (body : List Symbol) : List Symbol :=
  let dashes := body.takeWhile (· = .plain '-')
  if dashes.isEmpty then body.takeWhile (· = .plain ']') |>.take 1 else dashes

theorem leading_before (body : List Symbol) : leading (body ++ [endAnchor]) = leading body := by
  rw [leading, leading, takeWhile_before _ (by decide), takeWhile_before _ (by decide)]

theorem length_leading_le (body : List Symbol) : (leading body).length ≤ body.length := by
  have dashes := (List.takeWhile_sublist (l := body) (· = Symbol.plain '-')).length_le
  have brackets := (List.takeWhile_sublist (l := body) (· = Symbol.plain ']')).length_le
  rw [leading]
  split
  · rw [List.length_take]
    omega
  · exact dashes

def readBody (negated : Bool) (body : List Symbol) : Except Fault (CharacterSet × Nat) :=
  match readItems 0 (body.drop (leading body).length)
      ((if negated then 1 else 0) + (leading body).length)
      ((leading body).map fun symbol => (symbol.character, symbol.character)) with
  | .ok (ranges, length) => .ok (⟨negated, ranges⟩, length)
  | .error fault => .error fault

theorem readSet_eq (symbols : List Symbol) :
    readSet symbols =
      readBody (symbols.head? == some (.plain '^'))
        (if symbols.head? == some (.plain '^') then symbols.drop 1 else symbols) := rfl

theorem readBody_before (negated : Bool) (body : List Symbol) (set : CharacterSet) (length : Nat)
    (read : readBody negated (body ++ [endAnchor]) = .ok (set, length)) :
    readBody negated body = .ok (set, length) ∧
      length ≤ (if negated then 1 else 0) + body.length := by
  have short := length_leading_le body
  rw [readBody, leading_before, List.drop_append_of_le_length short] at read
  split at read
  · rename_i ranges final items
    obtain ⟨rfl, rfl⟩ := Prod.mk.inj (Except.ok.inj read)
    have before := readItems_before _ _ _ _ _ _ items
    rw [List.length_drop] at before
    rw [readBody, before.1]
    exact ⟨rfl, by omega⟩
  · contradiction

theorem readSet_before (symbols : List Symbol) (set : CharacterSet) (length : Nat)
    (read : readSet (symbols ++ [endAnchor]) = .ok (set, length)) :
    readSet symbols = .ok (set, length) ∧ length ≤ symbols.length := by
  rw [readSet_eq] at read ⊢
  cases symbols with
  | nil => contradiction
  | cons first symbols =>
      simp only [List.cons_append, List.head?_cons, List.drop_succ_cons, List.drop_zero,
        List.length_cons] at read ⊢
      by_cases negated : (some first == some (Symbol.plain '^')) = true
      · rw [negated] at read ⊢
        have before := readBody_before true symbols set length read
        rw [if_pos rfl] at before
        exact ⟨before.1, by omega⟩
      · rw [eq_false_of_ne_true negated] at read ⊢
        simp only [Bool.false_eq_true, ↓reduceIte] at read ⊢
        simpa using readBody_before false (first :: symbols) set length read

theorem head_before (symbols : List Symbol) :
    (symbols ++ [endAnchor]).head? = some (.plain '*') ↔ symbols.head? = some (.plain '*') := by
  cases symbols with
  | nil => decide
  | cons first symbols => rfl

theorem next_token_other {character : Char} (dot : character ≠ '.') (bracket : character ≠ '[')
    (symbols : List Symbol) :
    Token.next (.plain character) symbols = ((Token.next (.plain character) []).1, 0) := by
  unfold Token.next
  split <;> simp_all

theorem next_token_before (first : Symbol) (symbols : List Symbol)
    (sound : ∀ fault, (Token.next first (symbols ++ [endAnchor])).1 ≠ .fault fault) :
    Token.next first (symbols ++ [endAnchor]) = Token.next first symbols ∧
      (Token.next first symbols).2 ≤ symbols.length := by
  cases first with
  | quoted character => exact ⟨rfl, Nat.zero_le _⟩
  | plain character =>
      by_cases dot : character = '.'
      · subst dot
        simp only [Token.next, head_before]
        split
        · rename_i star
          cases symbols with
          | nil => contradiction
          | cons => exact ⟨trivial, Nat.succ_le_succ (Nat.zero_le _)⟩
        · exact ⟨trivial, Nat.zero_le _⟩
      · by_cases bracket : character = '['
        -- Besides a dot, only an opening bracket looks at what follows.
        · subst bracket
          simp only [Token.next] at sound ⊢
          cases read : readSet (symbols ++ [endAnchor]) with
          | error fault =>
              rw [read] at sound
              exact absurd rfl (sound fault)
          | ok found =>
              obtain ⟨same, within⟩ := readSet_before symbols found.1 found.2 read
              rw [same]
              exact ⟨rfl, within⟩
        · rw [next_token_other dot bracket, next_token_other dot bracket symbols]
          exact ⟨rfl, Nat.zero_le _⟩

theorem tokens_before (symbols : List Symbol) (further : Nat) (short : further ≤ symbols.length)
    (sound : ∀ fault, .fault fault ∉ tokens further (symbols ++ [endAnchor])) :
    tokens further (symbols ++ [endAnchor]) = tokens further symbols ++ [.atom .finish] := by
  induction symbols generalizing further with
  | nil =>
      obtain rfl := Nat.le_zero.mp short
      rfl
  | cons first symbols ih =>
      cases further with
      | succ further => exact ih further (Nat.le_of_succ_le_succ short) sound
      | zero =>
          rw [List.cons_append, tokens] at sound
          simp only [List.mem_cons, not_or] at sound
          obtain ⟨same, within⟩ := next_token_before first symbols
            fun fault found => (sound fault).1 found.symm
          rw [same] at sound
          simp only [List.cons_append, tokens, same]
          rw [ih _ within fun fault => (sound fault).2]

end OpenSoundControl.Expression
