import OpenSoundControl.Address.Cache
import OpenSoundControl.Message.Matching
import OpenSoundControl.Proofs.Parts
import Mathlib.Data.List.Nodup

/-!
A cache of patterns never changes an answer. Whatever was asked of it, each of its entries was
compiled from the key it is found by, so that an address is tested as without a cache, and as by
the message that has the pattern for its address.
-/

namespace OpenSoundControl

namespace Address

theorem test_eq_error_iff (address pattern : String) (error : Error) :
    test address pattern = .error error ↔
      comparable address pattern = true ∧ address ≠ pattern ∧ hasWildcards pattern = true ∧
        Pattern.compile pattern = .error error := by
  rw [← and_assoc, ← and_assoc, and_assoc (a := comparable address pattern = true),
    ← decided?_eq_none_iff]
  unfold test
  cases decided? address pattern with
  | some answer => simp
  | none => cases Pattern.compile pattern <;> simp [Except.map]

theorem test_of_compile {pattern : String} {compiled : Pattern}
    (compiles : Pattern.compile pattern = .ok compiled) (address : String) :
    test address pattern = .ok (compiled.accepts address) := by
  rw [test, Pattern.accepts, ((Pattern.compile_eq_ok_iff ..).mp compiles).1, compiles, decided?]
  cases comparable address pattern <;> by_cases same : address = pattern <;>
    cases hasWildcards pattern <;> simp [same, Except.map]

end Address

namespace PatternCache

def keys (cache : PatternCache) : List String :=
  cache.entries.map Entry.key

/-- Every entry was compiled from its own key, and stands alone with its key and with its stamp;
stamps yet to be issued are in no entry. -/
structure Sound (cache : PatternCache) : Prop where
  keyed : ∀ entry ∈ cache.entries, entry.key = entry.pattern.text
  compiled : ∀ entry ∈ cache.entries, Pattern.compile entry.pattern.text = .ok entry.pattern
  keys : cache.keys.Nodup
  stamps : (cache.entries.map Entry.stamp).Nodup
  issued : ∀ entry ∈ cache.entries, entry.stamp < cache.issued

variable {cache : PatternCache}

theorem find?_eq_none_iff (cache : PatternCache) (key : String) :
    cache.find? key = none ↔ key ∉ cache.keys := by
  simp [find?, keys, List.find?_eq_none]

theorem Sound.find?_eq_some_iff (sound : cache.Sound) (key : String) (entry : Entry) :
    cache.find? key = some entry ↔ entry ∈ cache.entries ∧ entry.key = key := by
  have found_mem {other : Entry} (found : cache.find? key = some other) :
      other ∈ cache.entries ∧ other.key = key :=
    ⟨List.mem_of_find?_eq_some found, by simpa using List.find?_some found⟩
  constructor
  · exact found_mem
  · rintro ⟨member, rfl⟩
    cases found : cache.find? entry.key with
    | none =>
        rw [find?_eq_none_iff] at found
        exact absurd (List.mem_map_of_mem member) found
    | some other =>
        obtain ⟨otherMember, same⟩ := found_mem found
        rw [List.inj_on_of_nodup_map sound.keys otherMember member same]

theorem get_cases (cache : PatternCache) (text : String) :
    (∃ entry, cache.find? text = some entry ∧ cache.get text = (.ok entry, cache)) ∨
      (∃ pattern, text ∉ cache.keys ∧ Pattern.compile text = .ok pattern ∧
        cache.get text = (.ok ⟨text, pattern, cache.issued⟩, (cache.insert text pattern).2)) ∨
      (∃ error, text ∉ cache.keys ∧ Pattern.compile text = .error error ∧
        cache.get text = (.error error, cache)) := by
  unfold get
  cases found : cache.find? text with
  | some entry => exact .inl ⟨entry, rfl, rfl⟩
  | none =>
      rw [find?_eq_none_iff] at found
      cases compiles : Pattern.compile text with
      | ok pattern => exact .inr (.inl ⟨pattern, found, rfl, rfl⟩)
      | error error => exact .inr (.inr ⟨error, found, rfl, rfl⟩)

theorem step_get (cache : PatternCache) (text : String) :
    cache.step (.get text) = (.got (cache.get text).1, (cache.get text).2) := rfl

theorem step_test_decided {address text : String} {answer : Bool}
    (decided : Address.decided? address text = some answer) (cache : PatternCache) :
    cache.step (.test address text) = (.tested (.ok answer), cache) := by
  simp only [step, test, decided]

theorem step_test_undecided {address text : String}
    (undecided : Address.decided? address text = none) (cache : PatternCache) :
    cache.step (.test address text) =
      (.tested ((cache.get text).1.map fun entry => entry.pattern.search address),
        (cache.get text).2) := by
  simp only [step, test, undecided]

theorem get_leaves (cache : PatternCache) (text : String) :
    (cache.get text).2 = cache ∨
      ∃ key pattern, Pattern.compile key = .ok pattern ∧ key ∉ cache.keys ∧
        (cache.get text).2 = (cache.insert key pattern).2 := by
  rcases cache.get_cases text with
    ⟨entry, -, outcome⟩ | ⟨pattern, absent, compiles, outcome⟩ | ⟨error, -, -, outcome⟩
  · exact .inl (by rw [outcome])
  · exact .inr ⟨text, pattern, compiles, absent, by rw [outcome]⟩
  · exact .inl (by rw [outcome])

theorem step_cases (cache : PatternCache) (request : Request) :
    (cache.step request).2 = cache ∨
      (∃ key pattern, Pattern.compile key = .ok pattern ∧ key ∉ cache.keys ∧
        (cache.step request).2 = (cache.insert key pattern).2) ∨
      (request = .clear ∧ (cache.step request).2 = cache.clear) := by
  cases request with
  | test address text =>
      cases decided : Address.decided? address text with
      | some answer => exact .inl (by rw [step_test_decided decided])
      | none =>
          rw [step_test_undecided decided]
          exact (cache.get_leaves text).imp_right .inl
  | get text =>
      rw [step_get]
      exact (cache.get_leaves text).imp_right .inl
  | clear => exact .inr (.inr ⟨rfl, rfl⟩)

theorem mem_insert_iff (cache : PatternCache) (key : String) (pattern : Pattern) (entry : Entry) :
    entry ∈ (cache.insert key pattern).2.entries ↔
      entry = ⟨key, pattern, cache.issued⟩ ∨ entry ∈ cache.entries :=
  List.mem_cons

theorem forall_mem_insert {key : String} {pattern : Pattern} {property : Entry → Prop}
    (new : property ⟨key, pattern, cache.issued⟩)
    (older : ∀ entry ∈ cache.entries, property entry) :
    ∀ entry ∈ (cache.insert key pattern).2.entries, property entry := by
  intro entry member
  rcases (mem_insert_iff ..).mp member with rfl | present
  · exact new
  · exact older entry present

theorem keys_insert (cache : PatternCache) (key : String) (pattern : Pattern) :
    (cache.insert key pattern).2.keys = key :: cache.keys := rfl

theorem Sound.insert (sound : cache.Sound) {key : String} {pattern : Pattern}
    (compiles : Pattern.compile key = .ok pattern) (absent : key ∉ cache.keys) :
    (cache.insert key pattern).2.Sound := by
  obtain ⟨rfl, -⟩ := (Pattern.compile_eq_ok_iff ..).mp compiles
  constructor
  · exact forall_mem_insert rfl sound.keyed
  · exact forall_mem_insert compiles sound.compiled
  · rw [keys_insert]
    exact List.nodup_cons.mpr ⟨absent, sound.keys⟩
  · refine List.nodup_cons.mpr ⟨?_, sound.stamps⟩
    intro member
    obtain ⟨entry, older, stamp⟩ := List.mem_map.mp member
    exact absurd (sound.issued entry older) (by simp [stamp])
  · refine forall_mem_insert (Nat.lt_succ_self _) ?_
    intro entry older
    exact Nat.lt_succ_of_lt (sound.issued entry older)

theorem sound_of_entries_nil (nothing : cache.entries = []) : cache.Sound := by
  constructor <;> simp [keys, nothing]

theorem Sound.step (sound : cache.Sound) (request : Request) : (cache.step request).2.Sound := by
  rcases cache.step_cases request with
    same | ⟨key, pattern, compiles, absent, inserted⟩ | ⟨-, cleared⟩
  · rwa [same]
  · rw [inserted]
    exact sound.insert compiles absent
  · rw [cleared]
    exact sound_of_entries_nil rfl

theorem Sound.run (sound : cache.Sound) (requests : List Request) : (cache.run requests).Sound := by
  induction requests generalizing cache with
  | nil => exact sound
  | cons request rest ih => exact ih (sound.step request)

theorem sound_run (history : List Request) : (empty.run history).Sound :=
  (sound_of_entries_nil rfl).run history

theorem Sound.get_eq_compile (sound : cache.Sound) (text : String) :
    (cache.get text).1.map Entry.pattern = Pattern.compile text := by
  rcases cache.get_cases text with
    ⟨entry, found, outcome⟩ | ⟨pattern, -, compiles, outcome⟩ | ⟨error, -, fails, outcome⟩
  · obtain ⟨member, rfl⟩ := (sound.find?_eq_some_iff ..).mp found
    rw [outcome, sound.keyed entry member, sound.compiled entry member]
    rfl
  · rw [outcome, compiles]
    rfl
  · rw [outcome, fails]
    rfl

theorem Sound.test_eq (sound : cache.Sound) (address pattern : String) :
    (cache.test address pattern).1 = Address.test address pattern := by
  rw [Address.test, PatternCache.test, ← sound.get_eq_compile pattern]
  cases Address.decided? address pattern with
  | some answer => rfl
  | none =>
      rcases cache.get pattern with ⟨outcome, after⟩
      cases outcome <;> rfl

/-- A cache with any history, no cache, a message and a compiled pattern all answer alike, and an
error is always that of compiling the pattern. -/
theorem test_run_agrees (history : List Request) (address pattern : String) :
    ((empty.run history).test address pattern).1 = Address.test address pattern ∧
      (∀ message : Message, message.address = pattern →
        message.accepts address = Address.test address pattern) ∧
      (∀ compiled, Pattern.compile pattern = .ok compiled →
        Address.test address pattern = .ok (compiled.accepts address)) ∧
      ∀ error, Address.test address pattern = .error error ↔
        Address.comparable address pattern = true ∧ address ≠ pattern ∧
          Address.hasWildcards pattern = true ∧ Pattern.compile pattern = .error error ∧
          ∃ cause, error = .invalidPattern pattern cause := by
  refine ⟨(sound_run history).test_eq address pattern, ?_, ?_, ?_⟩
  · rintro message rfl
    rfl
  · intro compiled compiles
    exact Address.test_of_compile compiles address
  · intro error
    rw [Address.test_eq_error_iff]
    constructor
    · rintro ⟨alike, different, wild, fails⟩
      obtain ⟨fault, -, stated⟩ := (Pattern.compile_eq_error_iff ..).mp fails
      exact ⟨alike, different, wild, fails, _, stated⟩
    · rintro ⟨alike, different, wild, fails, -⟩
      exact ⟨alike, different, wild, fails⟩

theorem test_run_agrees_unclosed :
    ((empty.run [.test "/ab" "/\x7bb", .get "/a*", .clear]).test "/ab" "/\x7bb").1 =
        .error (.invalidPattern "/\x7bb" (.expression .unclosedGroup)) ∧
      ((empty.run [.test "/ab" "/\x7bb", .get "/a*"]).test "/ab" "/a*").1 = .ok true := by
  have fault := test_run_agrees [.test "/ab" "/\x7bb", .get "/a*", .clear] "/ab" "/\x7bb"
  have accepted := test_run_agrees [.test "/ab" "/\x7bb", .get "/a*"] "/ab" "/a*"
  constructor
  · rw [fault.1]
    exact (fault.2.2.2 _).mpr ⟨by decide, by decide, by decide, rfl, _, rfl⟩
  · rw [accepted.1]
    exact accepted.2.2.1 ⟨"/a*", .sequence .start (.sequence (.literal '/')
      (.sequence (.literal 'a') (.sequence .anyRun .finish)))⟩ rfl

end PatternCache

end OpenSoundControl
