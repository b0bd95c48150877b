import OpenSoundControl.Proofs.Unbracketed
import Mathlib.Data.List.Infix

/-!
Braces, counted. A pattern is balanced when no front of it closes more braces than it opens and the
whole closes all of them. Reading the tokens of a pattern without brackets keeps as many groups open
as braces are, and it stops at the first brace that closes too many or opens too many.
-/

namespace OpenSoundControl.Address

open Expression (Fault Reading nestingLimit)

/-- No brace is closed that is not open; the number counts the braces that are open in front. -/
def Closable (opened : Nat) (pattern : List Char) : Prop :=
  ∀ front ∈ pattern.inits, front.count '\x7d' ≤ opened + front.count '\x7b'

/-- No more braces are open at once than the limit allows. -/
def Shallow (opened limit : Nat) (pattern : List Char) : Prop :=
  ∀ front ∈ pattern.inits, opened + front.count '\x7b' ≤ limit + front.count '\x7d'

structure Balanced (pattern : List Char) : Prop where
  closable : Closable 0 pattern
  closed : pattern.count '\x7d' = pattern.count '\x7b'

instance (opened : Nat) (pattern : List Char) : Decidable (Closable opened pattern) :=
  inferInstanceAs (Decidable (∀ front ∈ pattern.inits, _))

instance (opened limit : Nat) (pattern : List Char) : Decidable (Shallow opened limit pattern) :=
  inferInstanceAs (Decidable (∀ front ∈ pattern.inits, _))

instance (pattern : List Char) : Decidable (Balanced pattern) :=
  decidable_of_iff (Closable 0 pattern ∧ pattern.count '\x7d' = pattern.count '\x7b')
    ⟨fun both => ⟨both.1, both.2⟩, fun balanced => ⟨balanced.closable, balanced.closed⟩⟩

def openedBehind (opened : Nat) : Char → Nat
  | '\x7b' => opened + 1
  | '\x7d' => opened - 1
  | _ => opened

theorem brace_cases (character : Char) (opened : Nat) :
    (character = '\x7b' ∧ openedBehind opened character = opened + 1) ∨
      (character = '\x7d' ∧ openedBehind opened character = opened - 1) ∨
        character ≠ '\x7b' ∧ character ≠ '\x7d' ∧ openedBehind opened character = opened := by
  unfold openedBehind
  split
  · exact .inl ⟨rfl, rfl⟩
  · exact .inr (.inl ⟨rfl, rfl⟩)
  · rename_i opening closing
    exact .inr (.inr ⟨opening, closing, rfl⟩)

theorem opened_count {character : Char} {opened : Nat} (closes : character = '\x7d' → 0 < opened)
    (rest : List Char) :
    openedBehind opened character + rest.count '\x7b' + (character :: rest).count '\x7d' =
      opened + (character :: rest).count '\x7b' + rest.count '\x7d' := by
  rcases brace_cases character opened with
    ⟨rfl, behind⟩ | ⟨rfl, behind⟩ | ⟨opening, closing, behind⟩
  · rw [behind, List.count_cons_self, List.count_cons_of_ne (by decide)]
    omega
  · have positive := closes rfl
    rw [behind, List.count_cons_self, List.count_cons_of_ne (by decide)]
    omega
  · rw [behind, List.count_cons_of_ne opening, List.count_cons_of_ne closing]

theorem closable_cons_iff (opened : Nat) (character : Char) (rest : List Char) :
    Closable opened (character :: rest) ↔
      (character = '\x7d' → 0 < opened) ∧ Closable (openedBehind opened character) rest := by
  simp only [Closable, List.inits_cons, List.forall_mem_cons, List.forall_mem_map]
  constructor
  · rintro ⟨-, closable⟩
    have closes : character = '\x7d' → 0 < opened := by
      rintro rfl
      simpa [Nat.one_le_iff_ne_zero, Nat.pos_iff_ne_zero] using
        closable [] ((List.mem_inits ..).mpr List.nil_prefix)
    refine ⟨closes, fun front inside => ?_⟩
    have below := closable front inside
    have counted := opened_count closes front
    omega
  · rintro ⟨closes, closable⟩
    refine ⟨Nat.zero_le _, fun front inside => ?_⟩
    have below := closable front inside
    have counted := opened_count closes front
    omega

theorem shallow_cons_iff {opened : Nat} {character : Char}
    (closes : character = '\x7d' → 0 < opened) (limit : Nat) (rest : List Char) :
    Shallow opened limit (character :: rest) ↔
      opened ≤ limit ∧ Shallow (openedBehind opened character) limit rest := by
  simp only [Shallow, List.inits_cons, List.forall_mem_cons, List.forall_mem_map]
  refine and_congr (by simp) (forall₂_congr fun front _ => ?_)
  have counted := opened_count closes front
  omega

theorem Shallow.opened_le {opened limit : Nat} {pattern : List Char}
    (shallow : Shallow opened limit pattern) : opened ≤ limit := by
  simpa using shallow [] ((List.mem_inits ..).mpr List.nil_prefix)

theorem openedBehind_le_iff {opened limit : Nat} (bound : opened ≤ limit) (character : Char) :
    openedBehind opened character ≤ limit ↔ (character = '\x7b' → opened < limit) := by
  rcases brace_cases character opened with ⟨rfl, behind⟩ | ⟨rfl, behind⟩ | ⟨opening, -, behind⟩
  · rw [behind]
    exact ⟨fun below _ => below, fun below => below rfl⟩
  · have other : '\x7d' ≠ '\x7b' := by decide
    simp only [behind, other, false_implies, iff_true]
    omega
  · simp only [behind, opening, false_implies, iff_true]
    exact bound

/-! How many groups are open while the tokens are read, and what can go wrong with that. -/

def depthStep (opened : Nat) : Char → Except Fault Nat
  | '\x7b' => if opened < nestingLimit then .ok (opened + 1) else .error .nestedTooDeeply
  | '\x7d' => if opened = 0 then .error .unopenedGroup else .ok (opened - 1)
  | _ => .ok opened

theorem depthStep_eq_ok_iff (opened : Nat) (character : Char) (next : Nat) :
    depthStep opened character = .ok next ↔
      (character = '\x7d' → 0 < opened) ∧ (character = '\x7b' → opened < nestingLimit) ∧
        openedBehind opened character = next := by
  unfold depthStep openedBehind
  split
  · by_cases bound : opened < nestingLimit <;> simp [bound]
  · by_cases none : opened = 0 <;> simp [none, Nat.pos_iff_ne_zero]
  · rename_i opening closing
    have noOpening : character ≠ '\x7b' := opening
    have noClosing : character ≠ '\x7d' := closing
    simp [noOpening, noClosing]

theorem step_opened (reading : Reading) (character : Char) :
    (reading.step (characterToken character)).map (·.outer.length) =
      depthStep reading.outer.length character := by
  obtain ⟨current, outer⟩ := reading
  unfold characterToken
  split
  · rfl
  · rfl
  · by_cases bound : outer.length < nestingLimit
    · simp [Reading.step, depthStep, bound, Except.map]
    · simp [Reading.step, depthStep, bound, Except.map]
  · cases outer with
    | nil => rfl
    | cons level outer => simp [Reading.step, depthStep, Except.map]
  · rfl
  · simp [Reading.step, depthStep, Except.map]

theorem foldlM_opened (pattern : List Char) (reading : Reading) :
    ((pattern.map characterToken).foldlM Reading.step reading).map (·.outer.length) =
      pattern.foldlM depthStep reading.outer.length := by
  induction pattern generalizing reading with
  | nil => rfl
  | cons character pattern ih =>
      rw [List.map_cons, List.foldlM_cons, List.foldlM_cons, ← step_opened]
      cases reading.step (characterToken character) with
      | error fault => rfl
      | ok next => exact ih next

theorem foldlM_depthStep_eq_ok_iff {opened : Nat} (bound : opened ≤ nestingLimit)
    (pattern : List Char) (last : Nat) :
    pattern.foldlM depthStep opened = .ok last ↔
      Closable opened pattern ∧ Shallow opened nestingLimit pattern ∧
        last + pattern.count '\x7d' = opened + pattern.count '\x7b' := by
  induction pattern generalizing opened with
  | nil =>
      have done : [].foldlM depthStep opened = .ok last ↔ last = opened :=
        ⟨fun same => (Except.ok.inj same).symm, fun same => by rw [same]; rfl⟩
      simpa [Closable, Shallow, bound] using done
  | cons character pattern ih =>
      rw [foldlM_cons_eq_ok_iff, closable_cons_iff]
      constructor
      · rintro ⟨next, stepped, run⟩
        obtain ⟨closes, opens, rfl⟩ := (depthStep_eq_ok_iff ..).mp stepped
        obtain ⟨closable, shallow, count⟩ := (ih ((openedBehind_le_iff bound ..).mpr opens)).mp run
        have counted := opened_count closes pattern
        exact ⟨⟨closes, closable⟩, (shallow_cons_iff closes ..).mpr ⟨bound, shallow⟩, by omega⟩
      · rintro ⟨⟨closes, closable⟩, shallow, count⟩
        obtain ⟨-, shallow⟩ := (shallow_cons_iff closes ..).mp shallow
        have within := shallow.opened_le
        have counted := opened_count closes pattern
        exact ⟨_, (depthStep_eq_ok_iff ..).mpr
            ⟨closes, (openedBehind_le_iff bound ..).mp within, rfl⟩,
          (ih within).mpr ⟨closable, shallow, by omega⟩⟩

theorem foldlM_depthStep_unopened {opened : Nat} {pattern : List Char}
    (shallow : Shallow opened nestingLimit pattern) (unclosable : ¬Closable opened pattern) :
    pattern.foldlM depthStep opened = .error .unopenedGroup := by
  induction pattern generalizing opened with
  | nil => exact absurd (by simp [Closable]) unclosable
  | cons character pattern ih =>
      rw [List.foldlM_cons]
      by_cases closes : character = '\x7d' → 0 < opened
      · have bound := shallow.opened_le
        obtain ⟨-, shallow⟩ := (shallow_cons_iff closes ..).mp shallow
        have stepped := (depthStep_eq_ok_iff ..).mpr
          ⟨closes, (openedBehind_le_iff bound ..).mp shallow.opened_le, rfl⟩
        rw [stepped]
        apply ih shallow
        exact fun closable => unclosable ((closable_cons_iff ..).mpr ⟨closes, closable⟩)
      · obtain ⟨rfl, none⟩ := Classical.not_imp.mp closes
        obtain rfl := Nat.eq_zero_of_not_pos none
        rfl

end OpenSoundControl.Address
