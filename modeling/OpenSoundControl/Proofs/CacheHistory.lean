import OpenSoundControl.Proofs.CacheSoundness
import Mathlib.Data.Finset.Card
import Mathlib.Data.List.Induction

/-!
What a cache holds after any number of requests: one entry for every text that was compiled for a
request since the cache was last cleared. An entry stays the same entry until then, and no later
entry is ever taken for it.
-/

namespace OpenSoundControl.PatternCache

/-- In this cache the request leaves an entry with the text: by a look-up that succeeds, or by a
test that needs an expression and gets one. -/
inductive Stores (cache : PatternCache) : Request → String → Prop
  | get {text entry} : (cache.get text).1 = .ok entry → Stores cache (.get text) text
  | test {address text compiled} : Address.comparable address text = true → address ≠ text →
      Address.hasWildcards text = true → Pattern.compile text = .ok compiled →
      Stores cache (.test address text) text

/-- Some request of the history stores the text, and no later one clears the cache. -/
def Kept (history : List Request) (text : String) : Prop :=
  ∃ before request after, history = before ++ request :: after ∧ .clear ∉ after ∧
    (empty.run before).Stores request text

inductive Answer.Failed : Answer → Prop
  | tested {error} : Failed (.tested (.error error))
  | got {error} : Failed (.got (.error error))

variable {cache : PatternCache}

theorem run_append (cache : PatternCache) (front back : List Request) :
    cache.run (front ++ back) = (cache.run front).run back :=
  List.foldl_append

/-! What one request does to the keys. -/

theorem Sound.get_ok_iff (sound : cache.Sound) (text : String) :
    (∃ entry, (cache.get text).1 = .ok entry) ↔ ∃ pattern, Pattern.compile text = .ok pattern := by
  rw [← sound.get_eq_compile text]
  cases (cache.get text).1 <;> simp [Except.map]

theorem Sound.stores_get_iff (sound : cache.Sound) (asked text : String) :
    cache.Stores (.get asked) text ↔
      text = asked ∧ ∃ pattern, Pattern.compile asked = .ok pattern := by
  rw [← sound.get_ok_iff]
  constructor
  · rintro ⟨found⟩
    exact ⟨rfl, _, found⟩
  · rintro ⟨rfl, entry, found⟩
    exact .get found

theorem stores_test_iff (cache : PatternCache) (address asked text : String) :
    cache.Stores (.test address asked) text ↔ Address.decided? address asked = none ∧
      text = asked ∧ ∃ pattern, Pattern.compile asked = .ok pattern := by
  rw [Address.decided?_eq_none_iff]
  constructor
  · rintro (_ | ⟨alike, different, wild, compiles⟩)
    exact ⟨⟨alike, different, wild⟩, rfl, _, compiles⟩
  · rintro ⟨⟨alike, different, wild⟩, rfl, pattern, compiles⟩
    exact .test alike different wild compiles

theorem mem_keys_get (cache : PatternCache) (asked text : String) :
    text ∈ (cache.get asked).2.keys ↔
      text ∈ cache.keys ∨ text = asked ∧ ∃ pattern, Pattern.compile asked = .ok pattern := by
  rcases cache.get_cases asked with
    ⟨entry, found, outcome⟩ | ⟨pattern, -, compiles, outcome⟩ | ⟨error, -, fails, outcome⟩
  · have present : asked ∈ cache.keys := by
      by_contra absent
      rw [(find?_eq_none_iff ..).mpr absent] at found
      contradiction
    rw [outcome]
    constructor
    · exact .inl
    · rintro (member | ⟨rfl, -⟩)
      · exact member
      · exact present
  · rw [outcome, keys_insert, List.mem_cons, or_comm]
    simp [compiles]
  · simp [outcome, fails]

theorem Sound.mem_keys_step (sound : cache.Sound) (request : Request) (text : String) :
    text ∈ (cache.step request).2.keys ↔
      request ≠ .clear ∧ text ∈ cache.keys ∨ cache.Stores request text := by
  cases request with
  | test address asked =>
      rw [stores_test_iff]
      cases decided : Address.decided? address asked with
      | some answer => simp [step_test_decided decided]
      | none => simpa [step_test_undecided decided] using mem_keys_get cache asked text
  | get asked =>
      rw [sound.stores_get_iff, step_get]
      simpa using mem_keys_get cache asked text
  | clear =>
      constructor
      · intro member
        exact absurd member List.not_mem_nil
      · rintro (⟨kept, -⟩ | stored)
        · exact absurd rfl kept
        · nomatch stored

/-! What a history leaves. -/

theorem kept_concat_iff (history : List Request) (request : Request) (text : String) :
    Kept (history ++ [request]) text ↔
      request ≠ .clear ∧ Kept history text ∨ (empty.run history).Stores request text := by
  constructor
  · rintro ⟨before, found, after, split, clean, stored⟩
    rcases List.eq_nil_or_concat after with rfl | ⟨front, last, rfl⟩
    · obtain ⟨rfl, same⟩ := List.append_inj' split rfl
      obtain rfl := List.head_eq_of_cons_eq same
      exact .inr stored
    · rw [List.concat_eq_append] at split clean
      rw [← List.cons_append, ← List.append_assoc] at split
      obtain ⟨rfl, same⟩ := List.append_inj' split rfl
      obtain rfl := List.head_eq_of_cons_eq same
      rw [List.mem_append, List.mem_singleton, not_or] at clean
      exact .inl ⟨Ne.symm clean.2, before, found, front, rfl, clean.1, stored⟩
  · rintro (⟨kept, before, found, after, rfl, clean, stored⟩ | stored)
    · refine ⟨before, found, after ++ [request], by simp, ?_, stored⟩
      simp [clean, kept.symm]
    · exact ⟨history, request, [], rfl, List.not_mem_nil, stored⟩

theorem mem_keys_run_iff (history : List Request) (text : String) :
    text ∈ (empty.run history).keys ↔ Kept history text := by
  induction history using List.reverseRecOn with
  | nil =>
      constructor
      · intro member
        exact absurd member List.not_mem_nil
      · rintro ⟨before, request, after, split, -⟩
        simp at split
  | append_singleton history request ih =>
      rw [kept_concat_iff, ← ih, run_append]
      exact (sound_run history).mem_keys_step request text

theorem length_keys (cache : PatternCache) : cache.keys.length = cache.size :=
  List.length_map _

/-! What stays of an entry, and what later entries are like. -/

theorem mem_entries_step {entry : Entry} (member : entry ∈ cache.entries) {request : Request}
    (keeps : request ≠ .clear) : entry ∈ (cache.step request).2.entries := by
  rcases cache.step_cases request with same | ⟨key, pattern, -, -, inserted⟩ | ⟨cleared, -⟩
  · rwa [same]
  · rw [inserted, mem_insert_iff]
    exact .inr member
  · exact absurd cleared keeps

theorem mem_entries_run {entry : Entry} {requests : List Request} (clean : .clear ∉ requests)
    (member : entry ∈ cache.entries) : entry ∈ (cache.run requests).entries := by
  induction requests generalizing cache with
  | nil => exact member
  | cons request rest ih =>
      rw [List.mem_cons, not_or] at clean
      exact ih clean.2 (mem_entries_step member (Ne.symm clean.1))

structure Follows (later earlier : PatternCache) : Prop where
  issued : earlier.issued ≤ later.issued
  entries : ∀ entry ∈ later.entries, entry ∈ earlier.entries ∨ earlier.issued ≤ entry.stamp

theorem follows_step (cache : PatternCache) (request : Request) :
    (cache.step request).2.Follows cache := by
  rcases cache.step_cases request with same | ⟨key, pattern, -, -, inserted⟩ | ⟨-, cleared⟩
  · rw [same]
    exact ⟨Nat.le_refl _, fun entry member => .inl member⟩
  · rw [inserted]
    refine ⟨Nat.le_succ _, forall_mem_insert (.inr (Nat.le_refl _)) ?_⟩
    intro entry older
    exact .inl older
  · rw [cleared]
    exact ⟨Nat.le_refl _, fun entry member => absurd member List.not_mem_nil⟩

theorem Follows.trans {first second third : PatternCache} (late : third.Follows second)
    (early : second.Follows first) : third.Follows first := by
  refine ⟨Nat.le_trans early.issued late.issued, ?_⟩
  intro entry member
  rcases late.entries entry member with older | newer
  · exact early.entries entry older
  · exact .inr (Nat.le_trans early.issued newer)

theorem follows_run (cache : PatternCache) (requests : List Request) :
    (cache.run requests).Follows cache := by
  induction requests generalizing cache with
  | nil => exact ⟨Nat.le_refl _, fun entry member => .inl member⟩
  | cons request rest ih => exact (ih (cache.step request).2).trans (follows_step cache request)

theorem issued_le_of_clear {entry : Entry} {requests : List Request} (cleared : .clear ∈ requests)
    (member : entry ∈ (cache.run requests).entries) : cache.issued ≤ entry.stamp := by
  obtain ⟨front, back, rfl⟩ := List.append_of_mem cleared
  have emptied : (cache.run (front ++ .clear :: back)).Follows (cache.run front).clear := by
    rw [run_append]
    exact follows_run _ back
  rcases emptied.entries entry member with older | newer
  · exact absurd older List.not_mem_nil
  · exact Nat.le_trans (follows_run cache front).issued newer

theorem Sound.mem_of_get (sound : cache.Sound) {text : String} {entry : Entry}
    (found : (cache.get text).1 = .ok entry) :
    entry ∈ (cache.get text).2.entries ∧ entry.key = text := by
  rcases cache.get_cases text with
    ⟨present, isPresent, outcome⟩ | ⟨pattern, -, -, outcome⟩ | ⟨error, -, -, outcome⟩
  · rw [outcome] at found ⊢
    obtain rfl := Except.ok.inj found
    exact (sound.find?_eq_some_iff ..).mp isPresent
  · rw [outcome] at found ⊢
    obtain rfl := Except.ok.inj found
    exact ⟨(mem_insert_iff ..).mpr (.inl rfl), rfl⟩
  · rw [outcome] at found
    contradiction

theorem Sound.stamp_eq_iff (sound : cache.Sound) {text other : String} {between : List Request}
    {first second : Entry} (foundFirst : (cache.get text).1 = .ok first)
    (foundSecond : (((cache.get text).2.run between).get other).1 = .ok second) :
    first.stamp = second.stamp ↔ text = other ∧ .clear ∉ between := by
  have soundAfter : (cache.get text).2.Sound := sound.step (.get text)
  have soundLater := soundAfter.run between
  have soundFinally : (((cache.get text).2.run between).get other).2.Sound :=
    soundLater.step (.get other)
  obtain ⟨firstMember, firstText⟩ := sound.mem_of_get foundFirst
  obtain ⟨secondMember, secondText⟩ := soundLater.mem_of_get foundSecond
  by_cases cleared : .clear ∈ between
  · -- The second entry is newer than the clearing, and the first one older.
    have older := soundAfter.issued first firstMember
    have newer : (cache.get text).2.issued ≤ second.stamp := by
      refine issued_le_of_clear (List.mem_append_left [.get other] cleared) ?_
      rw [run_append]
      exact secondMember
    constructor
    · intro same
      omega
    · rintro ⟨-, clean⟩
      exact absurd cleared clean
  · have keeps : Request.get other ≠ .clear := nofun
    have firstFinally : first ∈ (((cache.get text).2.run between).get other).2.entries :=
      mem_entries_step (mem_entries_run cleared firstMember) keeps
    constructor
    · intro same
      have equal := List.inj_on_of_nodup_map soundFinally.stamps firstFinally secondMember same
      exact ⟨by rw [← firstText, equal, secondText], cleared⟩
    · rintro ⟨rfl, -⟩
      have sameText := firstText.trans secondText.symm
      rw [List.inj_on_of_nodup_map soundFinally.keys firstFinally secondMember sameText]

/-! What leaves the cache as it was. -/

theorem get_of_error {text : String} {error : Error} (fails : (cache.get text).1 = .error error) :
    (cache.get text).2 = cache := by
  rcases cache.get_cases text with
    ⟨entry, -, outcome⟩ | ⟨pattern, -, -, outcome⟩ | ⟨cause, -, -, outcome⟩
  · rw [outcome]
  · rw [outcome] at fails
    contradiction
  · rw [outcome]

theorem step_of_failed {request : Request} (failed : (cache.step request).1.Failed) :
    (cache.step request).2 = cache := by
  cases request with
  | test address text =>
      cases decided : Address.decided? address text with
      | some answer => rw [step_test_decided decided]
      | none =>
          rw [step_test_undecided decided] at failed ⊢
          cases fails : (cache.get text).1 with
          | ok entry =>
              rw [fails] at failed
              nomatch failed
          | error error => exact get_of_error fails
  | get text =>
      rw [step_get] at failed ⊢
      cases fails : (cache.get text).1 with
      | ok entry =>
          rw [fails] at failed
          nomatch failed
      | error error => exact get_of_error fails
  | clear => nomatch failed

theorem step_of_decided {address text : String}
    (decided : Address.comparable address text = false ∨ address = text ∨
      Address.hasWildcards text = false) :
    (cache.step (.test address text)).2 = cache := by
  cases outcome : Address.decided? address text with
  | some answer => rw [step_test_decided outcome]
  | none =>
      obtain ⟨alike, different, wild⟩ := (Address.decided?_eq_none_iff ..).mp outcome
      simp [alike, different, wild] at decided

/-- After any history the cache has an entry for each text kept and no others. A request that fails
or needs no expression changes nothing, and look-ups share an entry for a text until a clearing. -/
theorem run_contents (history : List Request) :
    (∃ kept : Finset String, (∀ text, text ∈ kept ↔ Kept history text) ∧
        (empty.run history).size = kept.card ∧
        ((empty.run history).isEmpty = true ↔ kept.card = 0)) ∧
      (∀ request, ((empty.run history).step request).1.Failed →
        ((empty.run history).step request).2 = empty.run history) ∧
      (∀ address text, Address.comparable address text = false ∨ address = text ∨
          Address.hasWildcards text = false →
        ((empty.run history).step (.test address text)).2 = empty.run history) ∧
      ∀ text other between first second, ((empty.run history).get text).1 = .ok first →
        ((empty.run (history ++ .get text :: between)).get other).1 = .ok second →
        (first.stamp = second.stamp ↔ text = other ∧ .clear ∉ between) := by
  have sound := sound_run history
  have card : (empty.run history).keys.toFinset.card = (empty.run history).size := by
    rw [List.toFinset_card_of_nodup sound.keys, length_keys]
  refine ⟨⟨(empty.run history).keys.toFinset, ?_, card.symm, ?_⟩, ?_, ?_, ?_⟩
  · intro text
    rw [List.mem_toFinset, mem_keys_run_iff]
  · rw [card, isEmpty, size, List.isEmpty_iff, List.length_eq_zero_iff]
  · intro request failed
    exact step_of_failed failed
  · intro address text decided
    exact step_of_decided decided
  · intro text other between first second foundFirst foundSecond
    rw [run_append] at foundSecond
    exact sound.stamp_eq_iff foundFirst foundSecond

theorem run_contents_shared :
    let history : List Request := [.test "/ab" "/a*"]
    let pattern : Pattern := ⟨"/a*", .sequence .start (.sequence (.literal '/')
      (.sequence (.literal 'a') (.sequence .anyRun .finish)))⟩
    let sharing := history ++ .get "/a*" :: [.get "/b?"]
    let clearing := history ++ .get "/a*" :: [.get "/b?", .clear]
    ((empty.run history).get "/a*").1 = .ok ⟨"/a*", pattern, 0⟩ ∧
      (∀ entry, ((empty.run sharing).get "/a*").1 = .ok entry → entry.stamp = 0) ∧
      (∀ entry, ((empty.run clearing).get "/a*").1 = .ok entry → entry.stamp ≠ 0) := by
  intro history pattern sharing clearing
  have first : ((empty.run history).get "/a*").1 = .ok ⟨"/a*", pattern, 0⟩ := by rfl
  have shared := (run_contents history).2.2.2 "/a*" "/a*"
  refine ⟨first, ?_, ?_⟩
  · intro entry found
    exact ((shared _ _ _ first found).mpr ⟨rfl, by decide⟩).symm
  · intro entry found same
    exact ((shared _ _ _ first found).mp same.symm).2 (by decide)

end OpenSoundControl.PatternCache
