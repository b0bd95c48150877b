import OpenSoundControl.Proofs.Chains
import OpenSoundControl.Expression.Reading
import Mathlib.Order.MinMax

/-!
What the height of an expression comes from while it is being read. Of what has been read of a
group, no more matters than how many alternatives and members there are and how high they are.
-/

namespace OpenSoundControl.Expression

/-- The alternatives that are complete with the highest of them, and the members of the one that is
being read with the highest of those. -/
structure Extent where
  alternatives : Nat
  highest : Nat
  members : Nat
  tallest : Nat
  deriving DecidableEq, Repr

def chained (count highest : Nat) : Nat :=
  (if count ≤ 1 then 0 else 1) + highest

theorem le_chained (count highest : Nat) : highest ≤ chained count highest :=
  Nat.le_add_left _ _

theorem chained_le (count highest : Nat) : chained count highest ≤ highest + 1 := by
  unfold chained
  split <;> omega

theorem chained_mono {few many low high : Nat} (count : few ≤ many) (le : low ≤ high) :
    chained few low ≤ chained many high := by
  unfold chained
  split <;> split <;> omega

namespace Extent

def new : Extent := ⟨0, 0, 0, 0⟩

def push (extent : Extent) (height : Nat) : Extent :=
  ⟨extent.alternatives, extent.highest, extent.members + 1, max height extent.tallest⟩

def split (extent : Extent) : Extent :=
  ⟨extent.alternatives + 1, max (chained extent.members extent.tallest) extent.highest, 0, 0⟩

def height (extent : Extent) : Nat :=
  chained extent.split.alternatives extent.split.highest

theorem height_le_push (extent : Extent) (height : Nat) :
    extent.height ≤ (extent.push height).height :=
  chained_mono (Nat.le_refl _) (max_le_max_right _
    (chained_mono (Nat.le_succ _) (Nat.le_max_right _ _)))

theorem height_push_mono (extent : Extent) {low high : Nat} (le : low ≤ high) :
    (extent.push low).height ≤ (extent.push high).height :=
  chained_mono (Nat.le_refl _) (max_le_max_right _
    (chained_mono (Nat.le_refl _) (max_le_max_right _ le)))

theorem height_le_split (extent : Extent) : extent.height ≤ extent.split.height :=
  chained_mono (Nat.le_succ _) (Nat.le_max_right _ _)

theorem le_height_push (extent : Extent) (height : Nat) : height ≤ (extent.push height).height :=
  calc
    height ≤ max height extent.tallest := Nat.le_max_left _ _
    _ ≤ chained (extent.members + 1) (max height extent.tallest) := le_chained _ _
    _ ≤ (extent.push height).split.highest := Nat.le_max_left _ _
    _ ≤ (extent.push height).height := le_chained _ _

structure Low (extent : Extent) (room : Nat) : Prop where
  highest : extent.highest ≤ 3 * room + 2
  tallest : extent.tallest ≤ 3 * room + 1

theorem low_new (room : Nat) : new.Low room :=
  ⟨Nat.zero_le _, Nat.zero_le _⟩

theorem Low.push {extent : Extent} {room height : Nat} (low : extent.Low room)
    (le : height ≤ 3 * room + 1) : (extent.push height).Low room :=
  ⟨low.highest, Nat.max_le.mpr ⟨le, low.tallest⟩⟩

theorem Low.split {extent : Extent} {room : Nat} (low : extent.Low room) :
    extent.split.Low room := by
  refine ⟨Nat.max_le.mpr ⟨?_, low.highest⟩, Nat.zero_le _⟩
  have own := chained_le extent.members extent.tallest
  have tallest := low.tallest
  omega

theorem Low.height_le {extent : Extent} {room : Nat} (low : extent.Low room) :
    extent.height ≤ 3 * room + 3 := by
  have own := chained_le extent.split.alternatives extent.split.highest
  have highest := low.split.highest
  rw [height]
  omega

end Extent

theorem highest_reverse (members : List Expression) :
    highest members.reverse = highest members := by
  induction members with
  | nil => rfl
  | cons member members ih =>
      rw [List.reverse_cons, highest_append, ih, highest_cons, Nat.max_comm]
      exact congrArg (max · _) (Nat.max_zero _)

namespace Level

def extent (level : Level) : Extent :=
  ⟨level.alternatives.length, highest level.alternatives, level.members.length,
    highest level.members⟩

structure Regular (level : Level) : Prop where
  alternatives : ∀ branch ∈ level.alternatives, heightIn .choice branch = branch.height
  members : ∀ member ∈ level.members, member.Single

theorem regular_new : Level.new.Regular :=
  ⟨fun _ inside => absurd inside List.not_mem_nil, fun _ inside => absurd inside List.not_mem_nil⟩

theorem Regular.push {level : Level} (regular : level.Regular) {member : Expression}
    (single : member.Single) : (level.push member).Regular := by
  refine ⟨regular.alternatives, ?_⟩
  intro other inside
  rcases List.mem_cons.mp inside with rfl | inside
  · exact single
  · exact regular.members other inside

theorem Regular.single_reverse {level : Level} (regular : level.Regular) :
    ∀ member ∈ level.members.reverse, member.Single :=
  fun member inside => regular.members member (List.mem_reverse.mp inside)

theorem Regular.split {level : Level} (regular : level.Regular) : level.split.Regular := by
  refine ⟨?_, fun _ inside => absurd inside List.not_mem_nil⟩
  intro branch inside
  rcases List.mem_cons.mp inside with rfl | inside
  · exact heightIn_choice_ofSequence _ regular.single_reverse
  · exact regular.alternatives branch inside

theorem extent_push (level : Level) (member : Expression) :
    (level.push member).extent = level.extent.push member.height := rfl

theorem Regular.extent_split {level : Level} (regular : level.Regular) :
    level.split.extent = level.extent.split := by
  have own := height_ofSequence _ regular.single_reverse
  rw [highest_reverse, chainHeight, List.length_reverse] at own
  simp only [extent, Level.split, Extent.split, highest_cons, own, chained, List.length_cons]
  rfl

theorem Regular.height_finish {level : Level} (regular : level.Regular) :
    level.finish.height = level.extent.height := by
  have plain : ∀ branch ∈ level.split.alternatives.reverse,
      heightIn .choice branch = branch.height :=
    fun branch inside => regular.split.alternatives branch (List.mem_reverse.mp inside)
  rw [finish, height_ofChoice _ plain, highest_reverse, chainHeight, List.length_reverse,
    Extent.height, ← regular.extent_split]
  rfl

end Level

end OpenSoundControl.Expression
