import OpenSoundControl.Proofs.Braces
import OpenSoundControl.Proofs.Extents

/-!
How deeply a pattern without brackets nests, told from its text. A group is a level, and so are
several alternatives beside each other, several members one after the other, and a run. This is the
height of the expression that the pattern becomes, and besides the braces it alone decides whether
there is one.
-/

namespace OpenSoundControl.Expression

structure Nest where
  current : Extent
  outer : List Extent
  deriving DecidableEq, Repr

namespace Nest

def step (nest : Nest) : Char → Nest
  | '\x7b' => ⟨.new, nest.current :: nest.outer⟩
  | '\x7d' =>
      match nest.outer with
      | [] => nest
      | level :: outer => ⟨level.push (1 + nest.current.height), outer⟩
  | ',' => ⟨nest.current.split, nest.outer⟩
  | '*' => ⟨nest.current.push 1, nest.outer⟩
  | _ => ⟨nest.current.push 0, nest.outer⟩

def heightFrom : Extent → List Extent → Nat
  | current, [] => current.height
  | current, level :: outer => heightFrom (level.push (1 + current.height)) outer

def height (nest : Nest) : Nat :=
  heightFrom nest.current nest.outer

theorem heightFrom_mono {low high : Extent} (le : low.height ≤ high.height)
    (outer : List Extent) : heightFrom low outer ≤ heightFrom high outer := by
  induction outer generalizing low high with
  | nil => exact le
  | cons level outer ih => exact ih (level.height_push_mono (Nat.add_le_add_left le 1))

theorem length_le_heightFrom (current : Extent) (outer : List Extent) :
    current.height + outer.length ≤ heightFrom current outer := by
  induction outer generalizing current with
  | nil => exact Nat.le_refl _
  | cons level outer ih =>
      have inner := level.le_height_push (1 + current.height)
      have later := ih (level.push (1 + current.height))
      rw [List.length_cons, heightFrom]
      omega

theorem length_le_height (nest : Nest) : nest.outer.length ≤ nest.height := by
  have below := length_le_heightFrom nest.current nest.outer
  rw [height]
  omega

theorem height_le_step (nest : Nest) (character : Char) :
    nest.height ≤ (nest.step character).height := by
  unfold step
  split
  · exact heightFrom_mono (nest.current.height_le_push _) nest.outer
  · split
    · exact Nat.le_refl _
    · rename_i level outer isOuter
      rw [height, isOuter]
      exact Nat.le_refl _
  · exact heightFrom_mono nest.current.height_le_split nest.outer
  · exact heightFrom_mono (nest.current.height_le_push _) nest.outer
  · exact heightFrom_mono (nest.current.height_le_push _) nest.outer

theorem height_le_foldl (pattern : List Char) (nest : Nest) :
    nest.height ≤ (pattern.foldl step nest).height := by
  induction pattern generalizing nest with
  | nil => exact Nat.le_refl _
  | cons character pattern ih =>
      exact Nat.le_trans (nest.height_le_step character) (ih (nest.step character))

def Roomy : Nat → Extent → List Extent → Prop
  | room, current, [] => current.Low room
  | room, current, level :: outer => current.Low room ∧ Roomy (room + 1) level outer

theorem Roomy.low {room : Nat} {current : Extent} {outer : List Extent}
    (roomy : Roomy room current outer) : current.Low room := by
  cases outer with
  | nil => exact roomy
  | cons level outer => exact roomy.1

theorem Roomy.replace {room : Nat} {current other : Extent} {outer : List Extent}
    (roomy : Roomy room current outer) (low : other.Low room) : Roomy room other outer := by
  cases outer with
  | nil => exact low
  | cons level outer => exact ⟨low, roomy.2⟩

theorem length_step (nest : Nest) (character : Char) :
    (nest.step character).outer.length = Address.openedBehind nest.outer.length character := by
  unfold step Address.openedBehind
  split
  · rfl
  · split
    · rename_i isOuter
      rw [isOuter]
      rfl
    · rename_i isOuter
      rw [isOuter]
      rfl
  · rfl
  · rfl
  · rename_i opening closing _ _
    split
    · exact absurd rfl opening
    · exact absurd rfl closing
    · rfl

theorem Roomy.step {nest : Nest} {room : Nat} (roomy : Roomy room nest.current nest.outer)
    (character : Char) (more : character = '\x7b' → 0 < room) :
    ∃ left, left + (nest.step character).outer.length = room + nest.outer.length ∧
      Roomy left (nest.step character).current (nest.step character).outer := by
  obtain ⟨current, outer⟩ := nest
  unfold Nest.step
  split
  · obtain ⟨left, rfl⟩ := Nat.exists_eq_add_one.mpr (more rfl)
    exact ⟨left, by simp only [List.length_cons]; omega, Extent.low_new left, roomy⟩
  · cases outer with
    | nil => exact ⟨room, rfl, roomy⟩
    | cons level outer =>
        have inner : current.height ≤ 3 * room + 3 := roomy.low.height_le
        have grouped : 1 + current.height ≤ 3 * (room + 1) + 1 := by omega
        exact ⟨room + 1, by simp only [List.length_cons]; omega,
          roomy.2.replace (roomy.2.low.push grouped)⟩
  · exact ⟨room, rfl, roomy.replace roomy.low.split⟩
  · exact ⟨room, rfl, roomy.replace (roomy.low.push (by omega))⟩
  · exact ⟨room, rfl, roomy.replace (roomy.low.push (Nat.zero_le _))⟩

end Nest

def Reading.nest (reading : Reading) : Nest :=
  ⟨reading.current.extent, reading.outer.map Level.extent⟩

def Reading.Regular (reading : Reading) : Prop :=
  reading.current.Regular ∧ ∀ level ∈ reading.outer, level.Regular

end OpenSoundControl.Expression

namespace OpenSoundControl.Address

open Expression (Extent Level Nest Reading Token)

theorem step_nest {reading next : Reading} {character : Char} (regular : reading.Regular)
    (stepped : reading.step (characterToken character) = .ok next) :
    next.Regular ∧ next.nest = reading.nest.step character := by
  obtain ⟨current, outer⟩ := reading
  obtain ⟨inner, others⟩ := regular
  have atom {expression : Expression}
      (stepped : (Reading.mk current outer).step (.atom expression) = .ok next)
      (single : expression.Single) :
      next.Regular ∧
        next.nest = ⟨current.extent.push expression.height, outer.map Level.extent⟩ := by
    obtain rfl := Except.ok.inj stepped
    exact ⟨⟨inner.push single, others⟩, rfl⟩
  unfold characterToken at stepped
  split at stepped
  · exact atom stepped (Expression.single_of_unchained (by simp) (by simp))
  · exact atom stepped (Expression.single_of_unchained (by simp) (by simp))
  · rw [Reading.step] at stepped
    split at stepped
    · obtain rfl := Except.ok.inj stepped
      exact ⟨⟨Level.regular_new, List.forall_mem_cons.mpr ⟨inner, others⟩⟩, rfl⟩
    · contradiction
  · cases outer with
    | nil => contradiction
    | cons level outer =>
        obtain rfl := Except.ok.inj stepped
        obtain ⟨own, others⟩ := List.forall_mem_cons.mp others
        refine ⟨⟨own.push (Expression.single_of_unchained (by simp) (by simp)), others⟩, ?_⟩
        change Nest.mk (level.extent.push (1 + current.finish.height)) _ = _
        rw [inner.height_finish]
        rfl
  · obtain rfl := Except.ok.inj stepped
    refine ⟨⟨inner.split, others⟩, ?_⟩
    change Nest.mk current.split.extent _ = _
    rw [inner.extent_split]
    rfl
  · rename_i star mark opening closing comma
    have ordinary (nest : Nest) :
        nest.step character = ⟨nest.current.push 0, nest.outer⟩ := by
      simp [Nest.step]
    rw [ordinary]
    exact atom stepped (Expression.single_of_unchained (by simp) (by simp))

theorem foldlM_nest {reading last : Reading} {pattern : List Char} (regular : reading.Regular)
    (run : (pattern.map characterToken).foldlM Reading.step reading = .ok last) :
    last.Regular ∧ last.nest = pattern.foldl Nest.step reading.nest := by
  induction pattern generalizing reading with
  | nil =>
      obtain rfl := Except.ok.inj run
      exact ⟨regular, rfl⟩
  | cons character pattern ih =>
      obtain ⟨next, stepped, run⟩ := foldlM_cons_eq_ok_iff.mp run
      obtain ⟨regular, same⟩ := step_nest regular stepped
      rw [List.foldl_cons, ← same]
      exact ih regular run

theorem length_foldl_step {nest : Nest} {pattern : List Char}
    (closable : Closable nest.outer.length pattern) :
    (pattern.foldl Nest.step nest).outer.length + pattern.count '\x7d' =
      nest.outer.length + pattern.count '\x7b' := by
  induction pattern generalizing nest with
  | nil => rfl
  | cons character pattern ih =>
      obtain ⟨closes, closable⟩ := (closable_cons_iff ..).mp closable
      have counted := opened_count closes pattern
      rw [← nest.length_step] at closable counted
      have later := ih closable
      rw [List.foldl_cons]
      omega

theorem shallow_height {nest : Nest} {pattern : List Char}
    (closable : Closable nest.outer.length pattern) :
    Shallow nest.outer.length (pattern.foldl Nest.step nest).height pattern := by
  induction pattern generalizing nest with
  | nil => simpa [Shallow] using nest.length_le_height
  | cons character pattern ih =>
      obtain ⟨closes, closable⟩ := (closable_cons_iff ..).mp closable
      rw [← nest.length_step] at closable
      have later := ih closable
      rw [nest.length_step] at later
      have below := Nat.le_trans nest.length_le_height (nest.height_le_foldl (character :: pattern))
      exact (shallow_cons_iff closes ..).mpr ⟨below, later⟩

theorem roomy_foldl {nest : Nest} {pattern : List Char} {room : Nat}
    (closable : Closable nest.outer.length pattern)
    (shallow : Shallow nest.outer.length (room + nest.outer.length) pattern)
    (roomy : Nest.Roomy room nest.current nest.outer) :
    ∃ left, left + (pattern.foldl Nest.step nest).outer.length = room + nest.outer.length ∧
      Nest.Roomy left (pattern.foldl Nest.step nest).current
        (pattern.foldl Nest.step nest).outer := by
  induction pattern generalizing nest room with
  | nil => exact ⟨room, rfl, roomy⟩
  | cons character pattern ih =>
      obtain ⟨closes, closable⟩ := (closable_cons_iff ..).mp closable
      obtain ⟨bound, shallow⟩ := (shallow_cons_iff closes ..).mp shallow
      have more := (openedBehind_le_iff bound character).mp shallow.opened_le
      rw [← nest.length_step] at closable shallow
      obtain ⟨between, same, roomy⟩ := roomy.step character fun opening => by
        have below := more opening
        omega
      rw [← same] at shallow
      obtain ⟨left, whole, roomy⟩ := ih closable shallow roomy
      exact ⟨left, whole.trans same, roomy⟩

def begun : Nest := ⟨Extent.new.push 0, []⟩

def nesting (pattern : List Char) : Nat :=
  ((pattern.foldl Nest.step begun).current.push 0).height

section

variable {pattern : List Char} (balanced : Balanced pattern)

include balanced

theorem closable_begun : Closable begun.outer.length pattern :=
  balanced.closable

theorem outer_of_balanced : (pattern.foldl Nest.step begun).outer = [] := by
  have counted := length_foldl_step (closable_begun balanced)
  rw [balanced.closed] at counted
  exact List.length_eq_zero_iff.mp (Nat.add_right_cancel counted)

theorem height_le_nesting : (pattern.foldl Nest.step begun).height ≤ nesting pattern := by
  rw [Nest.height, outer_of_balanced balanced]
  exact Extent.height_le_push _ _

theorem shallow_nesting : Shallow 0 (nesting pattern) pattern := by
  intro front inside
  have below := shallow_height (closable_begun balanced) front inside
  have least := height_le_nesting balanced
  change 0 + _ ≤ _ at below
  omega

theorem nesting_le {depth : Nat} (shallow : Shallow 0 depth pattern) :
    nesting pattern ≤ 3 * depth + 3 := by
  have low : Nest.Roomy depth begun.current begun.outer :=
    (Extent.low_new depth).push (Nat.zero_le _)
  obtain ⟨left, same, roomy⟩ := roomy_foldl (closable_begun balanced) shallow low
  have none := outer_of_balanced balanced
  rw [none] at same roomy
  obtain rfl : left = depth := same
  exact (roomy.low.push (Nat.zero_le _)).height_le

end

end OpenSoundControl.Address
